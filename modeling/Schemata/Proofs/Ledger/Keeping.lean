import Schemata.Proofs.Ledger.Files
import Schemata.Proofs.Store.Ways

/-! What keeping a ledger of files does to a disk.

Whatever comes of it, directories on the way to the ledger are made and three files there come and go; what else is
on the disk stays as it is. An entry is recorded as a whole or not at all, and while a lock is held its file is
there. -/
namespace Schemata.Ledger.Files
open Store Disk

variable {d d' : Disk} {directory : Path} {engine : String} {p : Place} {entries : List Entry}

/-! ### Reading on a way that opens -/

/-- Nothing is read where the file of the entries is not there. -/
theorem applied_of_none (hv : EngineName.isValid engine = true) (hroot : d.Rooted) (ho : d.Opens [] directory.steps p)
    (hfits : isName (entriesName engine) = true) (hn : d.node? (p ++ [entriesName engine]) = none) :
    applied d directory engine = .ok [] := by
  have hf := isFileName_entries hv
  have hlook : d.exists? (directory.join (entriesName engine)) = some false := by
    rcases ho.walk_or_free hroot with hfound | ⟨-, -, hmissing⟩
    · simp only [exists?, look_join hf hfound, if_pos hfits, hn, Option.elim]
    · simp only [exists?, look_join_eq_walk d hf, hmissing]
  simp only [applied_eq_readFile hv, readFile, hlook]

/-- What is read of an engine depends on one file, whether its directory is there yet or not. -/
theorem applied_of_opens (hroot : d.Rooted) (ho : d.Opens [] directory.steps p) (hroot' : d'.Rooted)
    (ho' : d'.Opens [] directory.steps p) (hfits : isName (entriesName engine) = true)
    (hn : d'.node? (p ++ [entriesName engine]) = d.node? (p ++ [entriesName engine])) :
    applied d' directory engine = applied d directory engine := by
  cases hv : EngineName.isValid engine with
  | false => rw [applied_of_invalid hv, applied_of_invalid hv]
  | true =>
    have hfound {d : Disk} (hroot : d.Rooted) (ho : d.Opens [] directory.steps p) {node : Node}
        (hn : d.node? (p ++ [entriesName engine]) = some node) :
        d.walk [] directory.steps = .found p .directory := by
      refine (ho.walk_or_free hroot).resolve_right fun hmissing => ?_
      rw [hmissing.1 _ (by simp)] at hn
      cases hn
    cases hnode : d.node? (p ++ [entriesName engine]) with
    | none => rw [applied_of_none hv hroot ho hfits hnode, applied_of_none hv hroot' ho' hfits (hn.trans hnode)]
    | some node => exact applied_congr (hfound hroot ho hnode) (hfound hroot' ho' (hn.trans hnode)) hn

/-- Making the directory of the ledger brings nothing to light on a way that opens. -/
theorem kept_of_opens (hd : d.WellFormed) (ho : d.Opens [] directory.steps p)
    (hfits : isName (entriesName engine) = true) : kept d directory engine = applied d directory engine := by
  obtain ⟨made, hmade, hwalk, hnew⟩ := ho.exists_made hd.rooted
  have hmd : d.makeDirectory? directory = some made := hmade
  rw [kept, hmd, Option.getD_some]
  exact applied_of_opens hd.rooted ho (hd.makeDirectory? hmd).rooted (opens_of_walk hwalk) hfits
    (hnew.node?_eq (fun hq => absurd hq.2.length_le (by simp)) not_false)

/-! ### The files of a ledger -/

/-- The places of the files of an engine. -/
def IsFile (p : Place) (engine : String) (q : Place) : Prop :=
  q = p ++ [entriesName engine] ∨ q = p ++ [besideName engine] ∨ q = p ++ [lockName engine]

instance (p : Place) (engine : String) (q : Place) : Decidable (IsFile p engine q) :=
  inferInstanceAs (Decidable (_ ∨ _ ∨ _))

/-- What keeping a ledger may change. -/
abbrev Kept (d d' : Disk) (directory : Path) (p : Place) (engine : String) : Prop :=
  ChangesAt d d' (· ∈ placesFrom [] directory.steps) (IsFile p engine)

/-- Whether entries can be replaced is a matter of the engine's files. -/
theorem Ready.of_files (h : Ready d directory engine p) (hd : d'.walk [] directory.steps = .found p .directory)
    (hsame : ∀ q, IsFile p engine q → d'.node? q = d.node? q) : Ready d' directory engine p :=
  ⟨h.valid, hd, h.fits, hsame _ (.inl rfl) ▸ h.entries, hsame _ (.inr (.inl rfl)) ▸ h.beside⟩

/-- The lock is held: its file is there. -/
structure Locked (d : Disk) (directory : Path) (p : Place) (engine : String) : Prop where
  valid : EngineName.isValid engine = true
  found : d.walk [] directory.steps = .found p .directory
  fits : isName (lockName engine) = true
  there : ∃ content, d.node? (p ++ [lockName engine]) = some (.text content)

/-- The lock can be taken. -/
structure Free (d : Disk) (directory : Path) (p : Place) (engine : String) : Prop where
  valid : EngineName.isValid engine = true
  found : d.walk [] directory.steps = .found p .directory
  fits : isName (lockName engine) = true
  free : d.node? (p ++ [lockName engine]) = none

theorem acquire_of_free {now : Calendar.Instant} (h : Free d directory p engine) :
    ∃ content, acquire directory engine now d = .ok () (d.put (p ++ [lockName engine]) (.text content)) := by
  simp only [acquire, makeDirectory?_of_found h.found, lockPath_eq h.valid, look_join (isFileName_lock h.valid) h.found,
    if_pos h.fits, h.free, Option.elim]
  exact ⟨_, rfl⟩

/-! ### Taking the lock -/

section Acquiring
variable {now : Calendar.Instant} (hd : d.WellFormed) (ho : d.Opens [] directory.steps p)
include hd ho

theorem acquire_error {failure : Failure} (h : acquire directory engine now d = .error failure d') :
    d'.WellFormed ∧ d'.Opens [] directory.steps p ∧ Kept d d' directory p engine := by
  obtain ⟨made, hmade, hwalk, hnew⟩ := ho.exists_made hd.rooted
  have hmd : d.makeDirectory? directory = some made := hmade
  rw [of_acquire_error h, hmd, Option.getD_some]
  exact ⟨hd.makeDirectory? hmd, opens_of_walk hwalk, hnew.mono (fun _ hq => hq.1) fun _ => False.elim⟩

theorem acquire_ok (h : acquire directory engine now d = .ok () d') :
    d'.WellFormed ∧ Kept d d' directory p engine ∧ Locked d' directory p engine := by
  obtain ⟨made, hmade, hwalk, hnew⟩ := ho.exists_made hd.rooted
  obtain ⟨made', p', content, hm, hv, hp', hname, hn, rfl⟩ := of_acquire_ok h
  obtain rfl : made' = made := Option.some.inj (hm.symm.trans hmade)
  obtain rfl : p' = p := by
    have heq := hp'.symm.trans hwalk
    simpa using heq
  have hf := isFileName_lock hv
  have hwf := hd.makeDirectory? hm
  have hdir := hwf.node?_of_walk (node?_of_isOutside rfl) hwalk
  refine ⟨hwf.put hf hdir (ne_directory_of_none hn), ?_, hv, ?_, hname, content, node?_put_self (not_isOutside hf)⟩
  · exact (hnew.mono (fun _ hq => hq.1) fun _ => False.elim).trans (changesAt_put (.inr (.inr rfl)))
  · exact walk_of_keepsDirectories (keepsDirectories_put (ne_directory_of_none hn)) hwalk

end Acquiring

/-- Where none of the files is there, the lock can be taken, which is one more file, and then the entries can be
replaced. -/
theorem acquire_of_none {now : Calendar.Instant} (hd : d.WellFormed) (ho : d.Opens [] directory.steps p)
    (hv : EngineName.isValid engine = true) (hlock : isName (lockName engine) = true)
    (hbeside : isName (besideName engine) = true) (hnone : ∀ q, IsFile p engine q → d.node? q = none) :
    ∃ held, acquire directory engine now d = .ok () held ∧ Ready held directory engine p ∧
      ChangesAt d held (fun q => q ∈ placesFrom [] directory.steps ∧ q <+: p) (· = p ++ [lockName engine]) := by
  obtain ⟨made, hmade, hwalk, hnew⟩ := ho.exists_made hd.rooted
  have hmd : d.makeDirectory? directory = some made := hmade
  have hmade {name : String} (hfile : IsFile p engine (p ++ [name])) : made.node? (p ++ [name]) = none :=
    (hnew.node?_eq (fun hq => absurd hq.2.length_le (by simp)) not_false).trans (hnone _ hfile)
  have hfree : Free made directory p engine := ⟨hv, hwalk, hlock, hmade (.inr (.inr rfl))⟩
  obtain ⟨content, hacquire⟩ : ∃ content, acquire directory engine now made =
    .ok () (made.put (p ++ [lockName engine]) (.text content)) := acquire_of_free hfree
  have hsame : acquire directory engine now d = acquire directory engine now made := by
    simp only [acquire, hmd, makeDirectory?_of_found hwalk]
  refine ⟨_, hsame.trans hacquire, ⟨hv, ?_, hbeside, ?_, ?_⟩, ?_⟩
  · exact walk_of_keepsDirectories (keepsDirectories_put (ne_directory_of_none (hmade (.inr (.inr rfl))))) hwalk
  · exact ne_directory_of_none ((node?_put_ne (place_ne (lockName_ne engine))).trans (hmade (.inl rfl)))
  · exact ne_directory_of_none ((node?_put_ne (place_ne (lockName_ne_beside engine))).trans (hmade (.inr (.inl rfl))))
  · exact (hnew.mono (fun _ => id) fun _ => False.elim).trans (changesAt_put rfl)

/-! ### Recording and giving the lock back -/

/-- Two files at most are not what they were. -/
theorem changesAt_replaced (text : String) {made file : Place → Prop} (hentries : file (p ++ [entriesName engine]))
    (hbeside : file (p ++ [besideName engine])) : ChangesAt d (replaced d p engine text) made file :=
  ((changesAt_put hbeside).trans (changesAt_erase hbeside)).trans (changesAt_put hentries)

theorem node?_replaced (hv : EngineName.isValid engine = true) (text : String) (q : Place) :
    (replaced d p engine text).node? q =
      if q = p ++ [entriesName engine] then some (.text text)
      else if q = p ++ [besideName engine] then none
      else d.node? q := by
  have hbeside := not_isOutside (p := p) (isFileName_beside hv)
  rw [replaced, node?_put (not_isOutside (isFileName_entries hv)), node?_erase hbeside]
  by_cases hentries : p ++ [entriesName engine] = q
  · rw [if_pos hentries, if_pos hentries.symm]
  · rw [if_neg hentries, if_neg (Ne.symm hentries)]
    by_cases hq : p ++ [besideName engine] = q
    · rw [if_pos hq, if_pos hq.symm]
    · rw [if_neg hq, if_neg (Ne.symm hq), node?_put_ne hq]

theorem replaced_spec (hd : d.WellFormed) (h : Ready d directory engine p) (text : String) :
    (replaced d p engine text).WellFormed ∧ Kept d (replaced d p engine text) directory p engine ∧
      (replaced d p engine text).node? (p ++ [lockName engine]) = d.node? (p ++ [lockName engine]) := by
  have hb := isFileName_beside h.valid
  have he := isFileName_entries h.valid
  have hdir := hd.node?_of_walk (node?_of_isOutside rfl) h.found
  have hput := hd.put (n := .text text) hb hdir h.beside
  have hgone := hput.erase hb (ne_directory_of_text (node?_put_self (not_isOutside hb)))
  refine ⟨hgone.put he (h.besideGone text _ hdir) ?_, changesAt_replaced text (.inl rfl) (.inr (.inl rfl)), ?_⟩
  · rw [node?_erase_ne (place_ne (besideName_ne engine)), node?_put_ne (place_ne (besideName_ne engine))]
    exact h.entries
  · rw [replaced, node?_put_ne (place_ne (lockName_ne engine).symm),
      node?_erase_ne (place_ne (lockName_ne_beside engine).symm),
      node?_put_ne (place_ne (lockName_ne_beside engine).symm)]

/-- Recording leaves the lock held. -/
theorem Locked.replaced (hd : d.WellFormed) (hl : Locked d directory p engine) (h : Ready d directory engine p)
    (text : String) : Locked (replaced d p engine text) directory p engine := by
  obtain ⟨content, hn⟩ := hl.there
  exact ⟨hl.valid, (h.after_replaced text).found, hl.fits, content, (replaced_spec hd h text).2.2.trans hn⟩

/-- Giving the lock back removes its file. -/
theorem Locked.release_eq (h : Locked d directory p engine) :
    release directory engine d = d.erase (p ++ [lockName engine]) := by
  obtain ⟨hv, hfound, hname, content, hn⟩ := h
  simp only [release, lockPath_eq hv, remove?_join (isFileName_lock hv) hfound hname hn (by simp), Option.getD_some]

section Locks
variable (hd : d.WellFormed) (hl : Locked d directory p engine)
include hd hl

/-- **An entry is recorded as a whole or not at all.** -/
theorem record_cases {e : Entry} (he : e.engine = engine) (ha : applied d directory engine = .ok entries)
    (hr : read (write (entries ++ [e])) = .ok (entries ++ [e])) :
    (∃ d', record directory e d = .ok () d' ∧ d'.WellFormed ∧ Kept d d' directory p engine ∧
      Locked d' directory p engine ∧ applied d' directory engine = .ok (entries ++ [e])) ∨
      ∃ failure, record directory e d = .error failure d := by
  subst he
  cases hreplace : replace d (directory.join (entriesName e.engine)) (write (entries ++ [e])) with
  | none =>
    refine .inr ⟨.io, ?_⟩
    simp only [record, ha, entriesPath_eq hl.valid, makeDirectory?_of_found hl.found, hreplace]
  | some d' =>
    have hready := Ready.of_replace hl.valid hl.found hreplace
    obtain ⟨hrecord, happlied⟩ := hready.record_eq ha hr
    obtain ⟨hwf, hkept, -⟩ := replaced_spec hd hready (write (entries ++ [e]))
    exact .inl ⟨_, hrecord, hwf, hkept, hl.replaced hd hready _, happlied⟩

theorem release_spec : (release directory engine d).WellFormed ∧
    Kept d (release directory engine d) directory p engine ∧
    Free (release directory engine d) directory p engine ∧
    applied (release directory engine d) directory engine = applied d directory engine := by
  have hf := isFileName_lock hl.valid
  obtain ⟨content, hn⟩ := hl.there
  have hdir := ne_directory_of_text hn
  have happlied : applied (release directory engine d) directory engine = applied d directory engine :=
    applied_release hl.found
  rw [hl.release_eq] at happlied ⊢
  refine ⟨hd.erase hf hdir, changesAt_erase (.inr (.inr rfl)), ⟨hl.valid, ?_, hl.fits, ?_⟩, happlied⟩
  · exact walk_of_keepsDirectories (keepsDirectories_erase hdir) hl.found
  · rw [node?_erase (not_isOutside hf), if_pos rfl]

end Locks

/-! ### Several engines -/

/-- The names of the files of an engine tell the engine. -/
theorem IsFile.engine_eq {other : String} {q : Place} (h : IsFile p engine q) (h' : IsFile p other q) :
    engine = other := by
  have hends {a b : String} (he : a.toList.getLast? ≠ b.toList.getLast?) : a ≠ b := fun hab => he (hab ▸ rfl)
  have hname {name name' : String} (hq : q = p ++ [name]) (hq' : q = p ++ [name']) : name = name' := by
    simpa using hq.symm.trans hq'
  have hentries (engine : String) : (entriesName engine).toList.getLast? = some 'l' := by simp [entriesName]
  have hbeside (engine : String) : (besideName engine).toList.getLast? = some 'p' := by simp [besideName]
  have hlock (engine : String) : (lockName engine).toList.getLast? = some 'k' := by simp [lockName]
  rcases h with hq | hq | hq <;> rcases h' with hq' | hq' | hq' <;> have he := hname hq hq'
  · simpa [entriesName] using he
  · exact absurd he (hends (by rw [hentries, hbeside]; decide))
  · exact absurd he (hends (by rw [hentries, hlock]; decide))
  · exact absurd he (hends (by rw [hbeside, hentries]; decide))
  · simpa [besideName] using he
  · exact absurd he (hends (by rw [hbeside, hlock]; decide))
  · exact absurd he (hends (by rw [hlock, hentries]; decide))
  · exact absurd he (hends (by rw [hlock, hbeside]; decide))
  · simpa [lockName] using he

/-- The ledger has these entries of the engine, and no directory is where it would write. -/
structure Takes (d : Disk) (directory : Path) (p : Place) (engine : String) (entries : List Entry) : Prop where
  entriesFree : d.node? (p ++ [entriesName engine]) ≠ some .directory
  besideFree : d.node? (p ++ [besideName engine]) ≠ some .directory
  reads : applied d directory engine = .ok entries

section Recording
variable (hd : d.WellFormed) (ho : d.Opens [] directory.steps p)
include hd ho

/-- Whatever comes of recording, with or without the lock, the ledgers of other engines stay as they are. -/
theorem record_changes {e : Entry}
    (h : record directory e d = .ok () d' ∨ ∃ failure, record directory e d = .error failure d') :
    d'.WellFormed ∧ d'.Opens [] directory.steps p ∧
      ChangesAt d d' (fun q => q ∈ placesFrom [] directory.steps ∧ q <+: p) (IsFile p e.engine) := by
  have hrefl : d.WellFormed ∧ d.Opens [] directory.steps p ∧
      ChangesAt d d (fun q => q ∈ placesFrom [] directory.steps ∧ q <+: p) (IsFile p e.engine) := ⟨hd, ho, .refl d⟩
  obtain ⟨made, hmade, hwalk, hnew⟩ := ho.exists_made hd.rooted
  have hmd : d.makeDirectory? directory = some made := hmade
  have hmakes : ChangesAt d made (fun q => q ∈ placesFrom [] directory.steps ∧ q <+: p) (IsFile p e.engine) :=
    hnew.mono (fun _ => id) fun _ => False.elim
  cases ha : applied d directory e.engine with
  | error failure =>
    have hleft : d' = d := by
      simp only [record, ha] at h
      exact (by simpa using h : _ = d').symm
    exact hleft ▸ hrefl
  | ok entries =>
    have hv : EngineName.isValid e.engine = true := valid_of_applied ha
    cases hreplace : replace made (directory.join (entriesName e.engine)) (write (entries ++ [e])) with
    | none =>
      have hleft : d' = made := by
        simp only [record, ha, entriesPath_eq hv, hmd, hreplace] at h
        exact (by simpa using h : _ = d').symm
      exact hleft ▸ ⟨hd.makeDirectory? hmd, opens_of_walk hwalk, hmakes⟩
    | some replaced =>
      have hready := Ready.of_replace hv hwalk hreplace
      obtain rfl := Option.some.inj (hreplace.symm.trans (hready.replace_eq _))
      obtain ⟨hwf, hkept, -⟩ := replaced_spec (hd.makeDirectory? hmd) hready (write (entries ++ [e]))
      have hleft : d' = Files.replaced made p e.engine (write (entries ++ [e])) := by
        simp only [record, ha, entriesPath_eq hv, hmd, hreplace] at h
        exact (by simpa using h : _ = d').symm
      rw [hleft]
      exact ⟨hwf, opens_of_walk (hready.after_replaced _).found, hmakes.trans (changesAt_replaced _ (.inl rfl) (.inr (.inl rfl)))⟩

theorem fits_of_record {e : Entry} (h : record directory e d = .ok () d') : isName (besideName e.engine) = true := by
  obtain ⟨made, hmade, hwalk, -⟩ := ho.exists_made hd.rooted
  have hmd : d.makeDirectory? directory = some made := hmade
  cases ha : applied d directory e.engine with
  | error failure => simp [record, ha] at h
  | ok entries =>
    have hv := valid_of_applied ha
    cases hreplace : replace made (directory.join (entriesName e.engine)) (write (entries ++ [e])) with
    | none => simp [record, ha, entriesPath_eq hv, hmd, hreplace] at h
    | some replaced => exact (Ready.of_replace hv hwalk hreplace).fits

theorem Takes.record_eq {e : Entry} (h : Takes d directory p e.engine entries)
    (hv : EngineName.isValid e.engine = true) (hfits : isName (besideName e.engine) = true)
    (hr : read (write (entries ++ [e])) = .ok (entries ++ [e])) :
    ∃ d', record directory e d = .ok () d' ∧ Takes d' directory p e.engine (entries ++ [e]) := by
  obtain ⟨made, hmade, hwalk, hnew⟩ := ho.exists_made hd.rooted
  have hmd : d.makeDirectory? directory = some made := hmade
  have hsame (name : String) : made.node? (p ++ [name]) = d.node? (p ++ [name]) :=
    hnew.node?_eq (fun hq => absurd hq.2.length_le (by simp)) not_false
  have hready : Ready made directory e.engine p :=
    ⟨hv, hwalk, hfits, hsame _ ▸ h.entriesFree, hsame _ ▸ h.besideFree⟩
  have happlied : applied made directory e.engine = .ok entries :=
    (applied_of_opens hd.rooted ho (hd.makeDirectory? hmd).rooted (opens_of_walk hwalk) (isName_of_beside hfits)
      (hsame _)).trans h.reads
  obtain ⟨hrecord, hafter⟩ := hready.record_eq happlied hr
  have hstart : record directory e d = record directory e made := by
    simp only [record, h.reads, happlied, entriesPath_eq hv, hmd, makeDirectory?_of_found hwalk]
  have hdone := hready.after_replaced (write (entries ++ [e]))
  exact ⟨_, hstart.trans hrecord, hdone.entries, hdone.beside, hafter⟩

theorem Takes.of_changes {other : String} {made : Place → Prop} (h : Takes d directory p other entries)
    (hne : engine ≠ other) (hd' : d'.WellFormed) (ho' : d'.Opens [] directory.steps p)
    (hc : ChangesAt d d' made (IsFile p engine))
    (hmade : ∀ name, ¬ made (p ++ [name])) (hfits : isName (entriesName other) = true) : 
    Takes d' directory p other entries := by
  have hsame {name : String} (hfile : IsFile p other (p ++ [name])) : d'.node? (p ++ [name]) = d.node? (p ++ [name]) :=
    hc.node?_eq (hmade name) fun hown => hne (hown.engine_eq hfile)
  refine ⟨hsame (.inl rfl) ▸ h.entriesFree, hsame (.inr (.inl rfl)) ▸ h.besideFree, ?_⟩
  exact (applied_of_opens hd.rooted ho hd'.rooted ho' hfits (hsame (.inl rfl))).trans h.reads

end Recording

end Schemata.Ledger.Files
