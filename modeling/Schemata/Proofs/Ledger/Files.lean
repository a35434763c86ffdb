import Schemata.Ledger.Files
import Schemata.Proofs.Store.Disk

/-! Ledgers of files. What the ledger says of an engine is in one file of one directory; the lock and the
file beside are other files there, and come and go without a change of what is read. -/
namespace Schemata.Ledger.Files
open Store Disk

variable {d d' : Disk} {directory : Path} {engine : String} {p : Place}

/-! ### The files of an engine -/

def entriesName (engine : String) : String := engine ++ ".toml"

def besideName (engine : String) : String := engine ++ ".toml.tmp"

def lockName (engine : String) : String := engine ++ ".lock"

theorem besideName_ne (engine : String) : besideName engine ≠ entriesName engine := by
  simp [besideName, entriesName]

theorem lockName_ne (engine : String) : lockName engine ≠ entriesName engine := by
  simp [lockName, entriesName]

theorem lockName_ne_beside (engine : String) : lockName engine ≠ besideName engine := by
  simp [lockName, besideName]

theorem check_of_valid (hv : EngineName.isValid engine = true) : EngineName.check engine = .ok () := if_pos hv

theorem check_of_invalid (hv : EngineName.isValid engine = false) :
    EngineName.check engine = .error (.invalidEngine engine) :=
  if_neg (Bool.eq_false_iff.1 hv)

theorem isFileName_append (hv : EngineName.isValid engine = true) {suffix : String}
    (hs : '/' ∉ suffix.toList) (hl : 2 ≤ suffix.toList.length) : Path.IsFileName (engine ++ suffix) := by
  simp only [EngineName.isValid, Bool.and_eq_true, List.all_eq_true, Bool.not_eq_true'] at hv
  obtain ⟨hne, hall⟩ := hv
  have hlen : 3 ≤ (engine ++ suffix).toList.length := by
    have hpos : 0 < engine.toList.length := List.length_pos_iff.2 (by simpa using hne)
    rw [String.toList_append, List.length_append]
    omega
  constructor
  · rw [String.toList_append, List.mem_append, not_or]
    exact ⟨fun hmem => absurd (hall _ hmem) (by decide), hs⟩
  · exact fun he => absurd (he ▸ hlen) (by decide)
  · exact fun he => absurd (he ▸ hlen) (by decide)
  · exact fun he => absurd (he ▸ hlen) (by decide)

section Lengths
variable {n : Nat} {c : Char}

theorem utf8ByteSize_replicate (n : Nat) (c : Char) :
    (String.ofList (List.replicate n c)).utf8ByteSize = n * c.utf8Size := by
  induction n with
  | zero => simp
  | succ n ih =>
    rw [List.replicate_succ, ← List.singleton_append, String.ofList_append, String.utf8ByteSize_append, ih,
      Nat.succ_mul, Nat.add_comm]
    simp

/-- Engines can have names of any length. -/
theorem isValid_replicate (hn : n ≠ 0) (hc : EngineName.isNameChar c = true) :
    EngineName.isValid (String.ofList (List.replicate n c)) = true := by
  simp [EngineName.isValid, String.toList_ofList, hc, hn]

theorem isName_replicate (h : n * c.utf8Size ≤ 255) (hc : c ≠ '\x00') :
    isName (String.ofList (List.replicate n c)) = true := by
  simp [isName, utf8ByteSize_replicate, h, Ne.symm hc]

/-- An ending can be too much. -/
theorem not_isName_replicate {ending : String} (h : 255 < n * c.utf8Size + ending.utf8ByteSize) :
    isName (String.ofList (List.replicate n c) ++ ending) = false := by
  rw [isName, String.utf8ByteSize_append, utf8ByteSize_replicate, decide_eq_false (by omega), Bool.false_and]

end Lengths

section Names
variable (hv : EngineName.isValid engine = true)
include hv

theorem isFileName_entries : Path.IsFileName (entriesName engine) :=
  isFileName_append hv (by decide) (by decide)

theorem isFileName_beside : Path.IsFileName (besideName engine) :=
  isFileName_append hv (by decide) (by decide)

theorem isFileName_lock : Path.IsFileName (lockName engine) :=
  isFileName_append hv (by decide) (by decide)

theorem entriesPath_eq : entriesPath directory engine = .ok (directory.join (entriesName engine)) := by
  rw [entriesPath, check_of_valid hv]
  rfl

theorem lockPath_eq : lockPath directory engine = .ok (directory.join (lockName engine)) := by
  rw [lockPath, check_of_valid hv]
  rfl

theorem applied_eq_readFile :
    applied d directory engine = readFile d (directory.join (entriesName engine)) engine := by
  rw [applied, entriesPath_eq hv]
  rfl

theorem beside_eq :
    directory.join (entriesName engine) ++ ".tmp" = directory.join (besideName engine) := by
  have hname : entriesName engine ++ ".tmp" = besideName engine := by
    simp [entriesName, besideName, String.append_assoc]
  have he := (isFileName_entries hv).not_isAbsolute
  have hb := (isFileName_beside hv).not_isAbsolute
  unfold Path.join
  simp only [he, hb, Bool.false_or]
  split
  · exact hname
  · split <;> rw [String.append_assoc, hname]

end Names

/-! ### Names that are refused -/

section Refused
variable (hv : EngineName.isValid engine = false)
include hv

theorem entriesPath_of_invalid : entriesPath directory engine = .error (.invalidEngine engine) := by
  rw [entriesPath, check_of_invalid hv]
  rfl

theorem lockPath_of_invalid : lockPath directory engine = .error (.invalidEngine engine) := by
  rw [lockPath, check_of_invalid hv]
  rfl

theorem applied_of_invalid : applied d directory engine = .error (.invalidEngine engine) := by
  rw [applied, entriesPath_of_invalid hv]
  rfl

theorem release_of_invalid : release directory engine d = d := by
  rw [release, lockPath_of_invalid hv]

end Refused

/-! ### Reading -/

/-- What is read of an engine depends on one file. -/
theorem applied_congr (hd : d.walk [] directory.steps = .found p .directory)
    (hd' : d'.walk [] directory.steps = .found p .directory)
    (hn : d'.node? (p ++ [entriesName engine]) = d.node? (p ++ [entriesName engine])) :
    applied d' directory engine = applied d directory engine := by
  cases hv : EngineName.isValid engine with
  | false => rw [applied_of_invalid hv, applied_of_invalid hv]
  | true =>
    have hlook := look_join (isFileName_entries hv) hd
    have hlook' := look_join (isFileName_entries hv) hd'
    rw [hn, ← hlook] at hlook'
    simp only [applied_eq_readFile hv, readFile, exists?, read?, hlook']

theorem applied_of_text {text : String} {entries : List Entry}
    (hv : EngineName.isValid engine = true) (hd : d.walk [] directory.steps = .found p .directory)
    (hname : isName (entriesName engine) = true)
    (hn : d.node? (p ++ [entriesName engine]) = some (.text text)) (hr : read text = .ok entries)
    (hown : ∀ e ∈ entries, e.engine = engine) : applied d directory engine = .ok entries := by
  have hlook := look_join (isFileName_entries hv) hd
  have hfind : entries.find? (·.engine ≠ engine) = none := by
    simpa [List.find?_eq_none] using hown
  rw [if_pos hname, hn] at hlook
  simp only [Option.elim] at hlook
  simp only [applied_eq_readFile hv, readFile, exists?, read?, hlook, hr, bind, Except.bind, hfind]

theorem valid_of_applied {entries : List Entry} (h : applied d directory engine = .ok entries) :
    EngineName.isValid engine = true := by
  cases hv : EngineName.isValid engine with
  | true => rfl
  | false => cases (applied_of_invalid hv).symm.trans h

/-- All entries that are read of an engine are its own, and come from a text if there are any. -/
theorem of_applied {entries : List Entry} (h : applied d directory engine = .ok entries) :
    (∀ e ∈ entries, e.engine = engine) ∧ (entries = [] ∨ ∃ text, read text = .ok entries) := by
  have hv := valid_of_applied h
  simp only [applied_eq_readFile hv, readFile, bind, Except.bind] at h
  split at h
  · cases h
  · simp only [Except.ok.injEq] at h
    subst h
    exact ⟨by simp, .inl rfl⟩
  · split at h
    · cases h
    · rename_i text _
      cases hr : read text with
      | error failure => simp [hr] at h
      | ok read =>
        simp only [hr] at h
        split at h
        · cases h
        · rename_i hfind
          simp only [Except.ok.injEq] at h
          subst h
          exact ⟨by simpa [List.find?_eq_none] using hfind, .inr ⟨text, hr⟩⟩

/-! ### Writing -/

/-- The directory of the ledger is at the place, and the file of the engine's entries can be replaced. -/
structure Ready (d : Disk) (directory : Path) (engine : String) (p : Place) : Prop where
  valid : EngineName.isValid engine = true
  found : d.walk [] directory.steps = .found p .directory
  fits : isName (besideName engine) = true
  entries : d.node? (p ++ [entriesName engine]) ≠ some .directory
  beside : d.node? (p ++ [besideName engine]) ≠ some .directory

theorem isName_of_beside (h : isName (besideName engine) = true) : isName (entriesName engine) = true := by
  simp only [isName, besideName, entriesName, String.toList_append, String.utf8ByteSize_append,
    Bool.and_eq_true, decide_eq_true_eq, Bool.not_eq_true', List.contains_eq_mem, List.mem_append,
    decide_eq_false_iff_not, not_or] at h ⊢
  refine ⟨?_, h.2.1, by decide⟩
  have hlong : ".toml".utf8ByteSize ≤ ".toml.tmp".utf8ByteSize := by decide
  omega

/-- The disk with the text as the file of the engine's entries. -/
def replaced (d : Disk) (p : Place) (engine text : String) : Disk :=
  ((d.put (p ++ [besideName engine]) (.text text)).erase (p ++ [besideName engine])).put
    (p ++ [entriesName engine]) (.text text)

theorem replaced_entries {text : String} (hv : EngineName.isValid engine = true) :
    (replaced d p engine text).node? (p ++ [entriesName engine]) = some (.text text) :=
  node?_put_self (not_isOutside (isFileName_entries hv))

theorem place_ne {name name' : String} (h : name ≠ name') : p ++ [name] ≠ p ++ [name'] := by
  simpa using h

namespace Ready

theorem besidePut (h : Ready d directory engine p) (text : String) :
    KeepsDirectories d (d.put (p ++ [besideName engine]) (.text text)) :=
  keepsDirectories_put h.beside

theorem besideGone (h : Ready d directory engine p) (text : String) :
    KeepsDirectories d
      ((d.put (p ++ [besideName engine]) (.text text)).erase (p ++ [besideName engine])) := by
  refine (h.besidePut text).trans (keepsDirectories_erase ?_)
  rw [node?_put_self (not_isOutside (isFileName_beside h.valid))]
  simp

theorem replace_eq (h : Ready d directory engine p) (text : String) :
    replace d (directory.join (entriesName engine)) text = some (replaced d p engine text) := by
  have hb := isFileName_beside h.valid
  have hwrite := write?_join hb h.found h.fits h.beside text
  have hremove := remove?_join hb (walk_of_keepsDirectories (h.besidePut text) h.found) h.fits
    (node?_put_self (not_isOutside hb)) (by simp)
  have hput := write?_join (isFileName_entries h.valid)
    (walk_of_keepsDirectories (h.besideGone text) h.found) (isName_of_beside h.fits)
    (by
      rw [node?_erase_ne (place_ne (besideName_ne engine)),
        node?_put_ne (place_ne (besideName_ne engine))]
      exact h.entries)
    text
  simp only [replace, beside_eq h.valid, hwrite, hremove, hput, bind, Option.bind, replaced]

theorem after_replaced (h : Ready d directory engine p) (text : String) :
    Ready (replaced d p engine text) directory engine p where
  valid := h.valid
  found := by
    refine walk_of_keepsDirectories ((h.besideGone text).trans (keepsDirectories_put ?_)) h.found
    rw [node?_erase_ne (place_ne (besideName_ne engine)),
      node?_put_ne (place_ne (besideName_ne engine))]
    exact h.entries
  fits := h.fits
  entries := by simp [replaced_entries h.valid]
  beside := by
    rw [replaced, node?_put_ne (place_ne (besideName_ne engine).symm)]
    simp [node?, erase, Keyed.get?_erase, not_isOutside (isFileName_beside h.valid)]

/-- The ledger is ready when a text was put in the place of its entries. -/
theorem of_replace {text : String} (hv : EngineName.isValid engine = true)
    (hd : d.walk [] directory.steps = .found p .directory)
    (h : replace d (directory.join (entriesName engine)) text = some d') :
    Ready d directory engine p := by
  simp only [replace, beside_eq hv, bind, Option.bind_eq_some_iff] at h
  obtain ⟨written, hwrite, gone, hremove, hput⟩ := h
  have hb := isFileName_beside hv
  obtain ⟨hfits, hbeside⟩ := of_write?_join hb hd hwrite
  rw [write?_join hb hd hfits hbeside, Option.some.injEq] at hwrite
  subst hwrite
  have hkeep := keepsDirectories_put hbeside (n := .text text)
  rw [remove?_join hb (walk_of_keepsDirectories hkeep hd) hfits (node?_put_self (not_isOutside hb))
    (by simp), Option.some.injEq] at hremove
  subst hremove
  have hgone := hkeep.trans (keepsDirectories_erase
    (by rw [node?_put_self (not_isOutside hb)]; simp))
  obtain ⟨-, hentries⟩ :=
    of_write?_join (isFileName_entries hv) (walk_of_keepsDirectories hgone hd) hput
  rw [node?_erase_ne (place_ne (besideName_ne engine)),
    node?_put_ne (place_ne (besideName_ne engine))] at hentries
  exact ⟨hv, hd, hfits, hentries, hbeside⟩

/-- A file of another name in the directory of the ledger makes no difference. -/
theorem congr (h : Ready d directory engine p) (hk : KeepsDirectories d d')
    (he : d'.node? (p ++ [entriesName engine]) = d.node? (p ++ [entriesName engine]))
    (hb : d'.node? (p ++ [besideName engine]) = d.node? (p ++ [besideName engine])) :
    Ready d' directory engine p :=
  ⟨h.valid, walk_of_keepsDirectories hk h.found, h.fits, he ▸ h.entries, hb ▸ h.beside⟩

/-- **Recording.** What is read afterwards is what was read before, and the new entry. -/
theorem record_eq {e : Entry} {entries : List Entry} (h : Ready d directory e.engine p)
    (ha : applied d directory e.engine = .ok entries)
    (hr : read (write (entries ++ [e])) = .ok (entries ++ [e])) :
    record directory e d = .ok () (replaced d p e.engine (write (entries ++ [e]))) ∧
      applied (replaced d p e.engine (write (entries ++ [e]))) directory e.engine =
        .ok (entries ++ [e]) := by
  constructor
  · simp only [record, ha, entriesPath_eq h.valid, makeDirectory?_of_found h.found,
      h.replace_eq]
  · refine applied_of_text h.valid (h.after_replaced _).found (isName_of_beside h.fits)
      (replaced_entries h.valid) hr fun x hx => ?_
    rcases List.mem_append.1 hx with hx | hx
    · exact (of_applied ha).1 x hx
    · rw [List.mem_singleton.1 hx]

end Ready

/-! ### Locks -/

/-- What the ledger says of an engine once its directory is there. -/
def kept (d : Disk) (directory : Path) (engine : String) : Except Failure (List Entry) :=
  applied ((d.makeDirectory? directory).getD d) directory engine

theorem kept_of_found (h : d.walk [] directory.steps = .found p .directory) :
    kept d directory engine = applied d directory engine := by
  rw [kept, makeDirectory?_of_found h, Option.getD_some]

variable {now : Calendar.Instant}

/-- Whoever cannot take the lock leaves the directory of the ledger behind, if it can be made, and nothing else. -/
theorem of_acquire_error {failure : Failure} (h : acquire directory engine now d = .error failure d') :
    d' = (d.makeDirectory? directory).getD d := by
  unfold acquire at h
  cases hm : d.makeDirectory? directory with
  | none =>
    simp only [hm, EStateM.Result.error.injEq] at h
    rw [Option.getD_none, h.2]
  | some made =>
    simp only [hm] at h
    rw [Option.getD_some]
    split at h
    · exact (EStateM.Result.error.inj h).2.symm
    · split at h
      · cases h
      · exact (EStateM.Result.error.inj h).2.symm
      · exact (EStateM.Result.error.inj h).2.symm

/-- Whoever cannot take the lock leaves the ledger as it was. -/
theorem applied_of_acquire_error {failure : Failure}
    (h : acquire directory engine now d = .error failure d') :
    applied d' directory engine = kept d directory engine := by
  rw [kept, of_acquire_error h]

/-- The lock is a new file in the directory of the ledger. -/
theorem of_acquire_ok (h : acquire directory engine now d = .ok () d') :
    ∃ made p content, d.makeDirectory? directory = some made ∧ EngineName.isValid engine = true ∧
      made.walk [] directory.steps = .found p .directory ∧ isName (lockName engine) = true ∧
      made.node? (p ++ [lockName engine]) = none ∧
      d' = made.put (p ++ [lockName engine]) (.text content) := by
  unfold acquire at h
  cases hm : d.makeDirectory? directory with
  | none => simp [hm] at h
  | some made =>
    simp only [hm] at h
    obtain ⟨p, hp⟩ := walk_of_walkMaking hm
    cases hv : EngineName.isValid engine with
    | false => simp [lockPath_of_invalid hv] at h
    | true =>
      simp only [lockPath_eq hv, look_join (isFileName_lock hv) hp] at h
      cases hname : isName (lockName engine) with
      | false => simp [hname] at h
      | true =>
        cases hn : made.node? (p ++ [lockName engine]) with
        | some node => simp [hname, hn] at h
        | none =>
          simp only [hname, hn, if_true, Option.elim, EStateM.Result.ok.injEq, true_and] at h
          exact ⟨made, p, _, rfl, rfl, hp, rfl, hn, h.symm⟩

theorem found_of_acquire (h : acquire directory engine now d = .ok () d') :
    ∃ p, d'.walk [] directory.steps = .found p .directory := by
  obtain ⟨made, p, content, -, -, hp, -, hn, rfl⟩ := of_acquire_ok h
  exact ⟨p, walk_of_keepsDirectories (keepsDirectories_put (by simp [hn])) hp⟩

theorem applied_of_acquire (h : acquire directory engine now d = .ok () d') :
    applied d' directory engine = kept d directory engine := by
  obtain ⟨made, p, content, hm, -, hp, -, hn, rfl⟩ := of_acquire_ok h
  rw [kept, hm, Option.getD_some]
  exact applied_congr hp (walk_of_keepsDirectories (keepsDirectories_put (by simp [hn])) hp)
    (node?_put_ne (place_ne (lockName_ne engine)))

/-- Whoever holds the lock can replace the entries, if anybody can. -/
theorem ready_of_acquire (h : acquire directory engine now d = .ok () d')
    (hw : ∀ made file text, d.makeDirectory? directory = some made →
      entriesPath directory engine = .ok file → (replace made file text).isSome = true) :
    ∃ p, Ready d' directory engine p := by
  obtain ⟨made, p, content, hm, hv, hp, -, hn, rfl⟩ := of_acquire_ok h
  obtain ⟨d', hd'⟩ := Option.isSome_iff_exists.1 (hw made _ "" hm (entriesPath_eq hv))
  exact ⟨p, (Ready.of_replace hv hp hd').congr (keepsDirectories_put (by simp [hn]))
    (node?_put_ne (place_ne (lockName_ne engine)))
    (node?_put_ne (place_ne (lockName_ne_beside engine)))⟩

theorem applied_release (hd : d.walk [] directory.steps = .found p .directory) :
    applied (release directory engine d) directory engine = applied d directory engine := by
  cases hv : EngineName.isValid engine with
  | false => rw [release_of_invalid hv]
  | true =>
    simp only [release, lockPath_eq hv, remove?, look_join (isFileName_lock hv) hd]
    by_cases hname : isName (lockName engine) = true
    · rw [if_pos hname]
      cases hn : d.node? (p ++ [lockName engine]) with
      | none => rfl
      | some node =>
        by_cases hdir : node = .directory
        · subst hdir; rfl
        · have hk := keepsDirectories_erase (d := d) (q := p ++ [lockName engine])
            (by rw [hn]; simpa using hdir)
          have hsame : applied (d.erase (p ++ [lockName engine])) directory engine =
              applied d directory engine :=
            applied_congr hd (walk_of_keepsDirectories hk hd)
              (node?_erase_ne (place_ne (lockName_ne engine)))
          cases node with
          | directory => exact absurd rfl hdir
          | text content => exact hsame
          | binary => exact hsame
    · rw [if_neg hname]
      rfl

end Schemata.Ledger.Files
