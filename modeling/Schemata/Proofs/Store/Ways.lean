import Schemata.Proofs.Store.Disk

/-! Ways over a disk that changes.

A way opens to a place when the directories on it are there, or would be once those that are missing were
made; behind the first that is missing it goes into new directories only (`Opens`). Then it leads there
however many of them are made by others first, as long as no file comes to lie on it, and making it
brings nothing to light. -/
namespace Schemata.Store.Disk

variable {d d' d'' : Disk} {place p q : Place} {steps rest : List Path.Step} {name : String} {names : List String}

/-! ### Disks in good order -/

/-- Everything on the disk has a name that a file can have, and lies in a directory. -/
structure WellFormed (d : Disk) : Prop where
  rooted : d.Rooted
  named : ∀ place name node, d.nodes.get? (place ++ [name]) = some node → Path.IsFileName name

theorem node?_of_isOutside (h : isOutside place = true) : d.node? place = some .directory := if_pos h

theorem get?_of_node? {n : Node} (h : isOutside place = false) :
    d.node? place = some n ↔ d.nodes.get? place = some n := by
  simp [node?, h]

theorem node?_put {n : Node} (h : isOutside q = false) :
    (d.put q n).node? place = if q = place then some n else d.node? place := by
  split
  · subst place
    exact node?_put_self h
  · exact node?_put_ne ‹_›

theorem node?_erase (h : isOutside q = false) :
    (d.erase q).node? place = if q = place then none else d.node? place := by
  split
  · subst place
    simp [node?, erase, Keyed.get?_erase, h]
  · exact node?_erase_ne ‹_›

theorem node?_empty (h : Path.IsFileName name) : empty.node? (place ++ [name]) = none := by
  rw [node?, if_neg (by rw [not_isOutside h]; exact Bool.false_ne_true)]
  rfl

theorem wellFormed_empty : empty.WellFormed := by
  constructor
  · intro place name n h
    cases ho : isOutside (place ++ [name]) with
    | false => cases (get?_of_node? ho).1 h
    | true =>
      rw [isOutside, List.all_append, Bool.and_eq_true] at ho
      exact node?_of_isOutside ho.1
  · intro _ _ _ h
    cases h

namespace WellFormed

theorem isFileName (h : d.WellFormed) (ho : isOutside (place ++ [name]) = false) {n : Node}
    (hn : d.node? (place ++ [name]) = some n) : Path.IsFileName name :=
  h.named _ _ _ ((get?_of_node? ho).1 hn)

/-- A new file or directory in a directory, or another file in place of one. -/
theorem put {n : Node} (h : d.WellFormed) (hf : Path.IsFileName name) (hdir : d.node? p = some .directory)
    (hn : d.node? (p ++ [name]) ≠ some .directory) : (d.put (p ++ [name]) n).WellFormed := by
  have ho : isOutside (p ++ [name]) = false := not_isOutside hf
  constructor
  · intro place key node hnode
    have hself : p ++ [name] ≠ p := by simp
    rw [node?_put ho] at hnode ⊢
    by_cases heq : p ++ [name] = place ++ [key]
    · obtain ⟨rfl, -⟩ := List.append_inj' heq rfl
      rw [if_neg hself, hdir]
    · rw [if_neg heq] at hnode
      have hplace := h.rooted _ _ _ hnode
      rw [if_neg fun he : p ++ [name] = place => hn (he ▸ hplace), hplace]
  · intro place key node hnode
    rw [Disk.put, Keyed.get?_put] at hnode
    split at hnode
    · rename_i heq
      obtain ⟨-, hkey⟩ := List.append_inj' heq rfl
      rw [← List.singleton_inj.1 hkey]
      exact hf
    · exact h.named _ _ _ hnode

theorem erase (h : d.WellFormed) (hf : Path.IsFileName name) (hn : d.node? (p ++ [name]) ≠ some .directory) :
    (d.erase (p ++ [name])).WellFormed := by
  have ho : isOutside (p ++ [name]) = false := not_isOutside hf
  constructor
  · intro place key node hnode
    rw [node?_erase ho] at hnode ⊢
    split at hnode
    · cases hnode
    · have hplace := h.rooted _ _ _ hnode
      rw [if_neg fun he : p ++ [name] = place => hn (he ▸ hplace), hplace]
  · intro place key node hnode
    rw [Disk.erase, Keyed.get?_erase] at hnode
    split at hnode
    · cases hnode
    · exact h.named _ _ _ hnode

/-- What lies above a directory is one. -/
theorem node?_above (h : d.WellFormed) (hdir : d.node? place = some .directory) :
    d.node? (above place) = some .directory := by
  rcases List.eq_nil_or_concat place with rfl | ⟨front, last, rfl⟩
  · exact node?_of_isOutside rfl
  · simp only [above, List.concat_eq_append, List.getLast?_append, List.getLast?_singleton, Option.some_or] at hdir ⊢
    split
    · rename_i hlast
      cases hlast
    · rename_i hlast
      cases hlast
      cases ho : isOutside (front ++ [".."]) with
      | true => exact node?_of_isOutside (by rw [isOutside, List.all_append, ← isOutside, ho]; rfl)
      | false => exact absurd rfl (h.isFileName ho hdir).ne_above
    · exact hdir
    · rw [List.dropLast_concat]
      exact h.rooted _ _ _ hdir

/-- Directories that are made under proper names. -/
theorem walkMaking (h : d.WellFormed) (hdir : d.node? place = some .directory)
    (hnames : ∀ name, .into name ∈ steps → Path.IsFileName name) (hm : d.walkMaking place steps = some d') :
    d'.WellFormed := by
  induction steps generalizing d place with
  | nil =>
    cases hm
    exact h
  | cons step rest ih =>
    have hrest : ∀ name, .into name ∈ rest → Path.IsFileName name :=
      fun name hin => hnames name (List.mem_cons_of_mem _ hin)
    cases step with
    | root => exact ih h (node?_of_isOutside rfl) hrest hm
    | up => exact ih h (h.node?_above hdir) hrest hm
    | into name =>
      obtain ⟨-, ⟨hn, hm⟩ | ⟨hn, hm⟩⟩ := walkMaking_into_eq_some_iff.1 hm
      · exact ih h hn hrest hm
      · have hf := hnames name List.mem_cons_self
        exact ih (h.put hf hdir (ne_directory_of_none hn)) (node?_put_self (not_isOutside hf)) hrest hm

/-- What is found as a directory is one. -/
theorem node?_of_walk (h : d.WellFormed) (hdir : d.node? place = some .directory)
    (hw : d.walk place steps = .found p .directory) : d.node? p = some .directory := by
  induction steps generalizing place with
  | nil =>
    cases hw
    exact hdir
  | cons step rest ih =>
    cases step with
    | root => exact ih (node?_of_isOutside rfl) hw
    | up => exact ih (h.node?_above hdir) hw
    | into name =>
      obtain ⟨-, hn, hrest⟩ := walk_into_eq_found_iff.1 hw
      exact ih hn hrest

theorem makeDirectory? {path : Path} (h : d.WellFormed) (hm : d.makeDirectory? path = some d') : d'.WellFormed :=
  h.walkMaking (node?_of_isOutside rfl) (fun _ hin => Path.isFileName_of_mem_steps hin) hm

end WellFormed

/-! ### Where a path leads -/

theorem eq_of_walk (h : d.walk place steps = .found p .directory) : p = steps.foldl stepFrom place := by
  induction steps generalizing place with
  | nil =>
    cases h
    rfl
  | cons step rest ih =>
    cases step with
    | root => exact ih h
    | up => exact ih h
    | into name => exact ih (walk_into_eq_found_iff.1 h).2.2

/-- What is new once directories were made is a directory on the way. -/
theorem node?_walkMaking (h : d.walkMaking place steps = some d') (q : Place) :
    d'.node? q = d.node? q ∨
      d.node? q = none ∧ d'.node? q = some .directory ∧ q ∈ placesFrom place steps := by
  induction steps generalizing d place with
  | nil =>
    cases h
    exact .inl rfl
  | cons step rest ih =>
    cases step with
    | root => exact (ih h).imp_right fun ⟨hn, hd, hq⟩ => ⟨hn, hd, List.mem_cons_of_mem _ hq⟩
    | up => exact (ih h).imp_right fun ⟨hn, hd, hq⟩ => ⟨hn, hd, List.mem_cons_of_mem _ hq⟩
    | into name =>
      obtain ⟨-, ⟨-, hrest⟩ | ⟨hnone, hrest⟩⟩ := walkMaking_into_eq_some_iff.1 h
      · exact (ih hrest).imp_right fun ⟨hn, hd, hq⟩ => ⟨hn, hd, List.mem_cons_of_mem _ hq⟩
      · have ho : isOutside (place ++ [name]) = false := by
          cases ho : isOutside (place ++ [name]) with
          | false => rfl
          | true => rw [node?_of_isOutside ho] at hnone; cases hnone
        have hput : (d.put (place ++ [name]) .directory).node? q =
            if place ++ [name] = q then some .directory else d.node? q := node?_put ho
        by_cases heq : place ++ [name] = q
        · subst heq
          refine .inr ⟨hnone, ?_, List.mem_cons_self⟩
          exact keepsDirectories_of_walkMaking hrest _ (node?_put_self ho)
        · rw [if_neg heq] at hput
          rcases ih hrest with hsame | ⟨hn, hd, hq⟩
          · exact .inl (hsame.trans hput)
          · exact .inr ⟨hput ▸ hn, hd, List.mem_cons_of_mem _ hq⟩

/-! ### Ways that open -/

/-- The way from a place opens to another one: it leads through directories that are there, up to a first one that is
missing, and by plain names from there on. -/
inductive Opens (d : Disk) : Place → List Path.Step → Place → Prop
  | here {place : Place} : Opens d place [] place
  | root {place p : Place} {rest : List Path.Step} : Opens d ["/"] rest p → Opens d place (.root :: rest) p
  | up {place p : Place} {rest : List Path.Step} : Opens d (above place) rest p → Opens d place (.up :: rest) p
  | enter {place p : Place} {name : String} {rest : List Path.Step} : isName name = true →
      d.node? (place ++ [name]) = some .directory → Opens d (place ++ [name]) rest p →
      Opens d place (.into name :: rest) p
  /-- From here on everything is new. -/
  | make {place : Place} {name : String} {names : List String} :
    (∀ n ∈ name :: names, isName n = true) → d.node? (place ++ [name]) = none →
      Opens d place ((name :: names).map .into) (place ++ name :: names)

theorem opens_of_walk (h : d.walk place steps = .found p .directory) : d.Opens place steps p := by
  induction steps generalizing place with
  | nil =>
    cases h
    exact .here
  | cons step rest ih =>
    cases step with
    | root => exact .root (ih h)
    | up => exact .up (ih h)
    | into name =>
      obtain ⟨hname, hn, hrest⟩ := walk_into_eq_found_iff.1 h
      exact .enter hname hn (ih hrest)

/-- A way of names opens if there are directories or nothing on it. -/
theorem opens_of_names (hnames : ∀ n ∈ names, isName n = true)
    (hway : ∀ q ∈ placesFrom place (names.map .into), d.node? q = none ∨ d.node? q = some .directory) :
    d.Opens place (names.map .into) (place ++ names) := by
  induction names generalizing place with
  | nil =>
    rw [List.append_nil]
    exact .here
  | cons name rest ih =>
    rcases hway _ List.mem_cons_self with hn | hn
    · exact .make hnames hn
    · have hopen : d.Opens (place ++ [name]) (rest.map .into) (place ++ [name] ++ rest) :=
        ih (fun n hin => hnames n (List.mem_cons_of_mem _ hin)) fun q hq => hway q (List.mem_cons_of_mem _ hq)
      rw [List.append_assoc, List.singleton_append] at hopen
      exact .enter (hnames name List.mem_cons_self) hn hopen

theorem mem_placesFrom_names (h : q ∈ placesFrom place (names.map .into)) :
    ∃ more, more ≠ [] ∧ more <+: names ∧ q = place ++ more := by
  induction names generalizing place with
  | nil => cases h
  | cons name rest ih =>
    rcases List.mem_cons.1 h with rfl | h
    · exact ⟨[name], by simp, ⟨rest, rfl⟩, rfl⟩
    · obtain ⟨more, -, hpre, rfl⟩ := ih h
      refine ⟨name :: more, by simp, List.cons_prefix_cons.2 ⟨rfl, hpre⟩, ?_⟩
      rw [stepFrom, List.append_assoc, List.singleton_append]

/-- Nothing lies on the part of a way that is new. -/
theorem Rooted.node?_of_placesFrom (hroot : d.Rooted) (hn : d.node? (place ++ [name]) = none)
    (hq : q ∈ placesFrom place ((name :: names).map .into)) : d.node? q = none := by
  obtain ⟨more, hne, ⟨back, hmore⟩, rfl⟩ := mem_placesFrom_names hq
  cases more with
  | nil => exact absurd rfl hne
  | cons first rest =>
    rw [List.cons_append, List.cons.injEq] at hmore
    obtain ⟨rfl, -⟩ := hmore
    rw [List.append_cons]
    exact hroot.node?_append hn rest

/-! ### Changes of a disk -/

/-- Every place is as it was, unless a directory was made there or it is that of a file. -/
def ChangesAt (d d' : Disk) (made file : Place → Prop) : Prop :=
  ∀ q, d'.node? q = d.node? q ∨ (d.node? q = none ∧ d'.node? q = some .directory ∧ made q) ∨ file q

section Changes
variable {made file made' file' : Place → Prop}

theorem ChangesAt.refl (d : Disk) : ChangesAt d d made file := fun _ => .inl rfl

theorem ChangesAt.mono (h : ChangesAt d d' made file) (hm : ∀ q, made q → made' q) (hf : ∀ q, file q → file' q) :
    ChangesAt d d' made' file' := fun q =>
  (h q).imp_right fun h => h.imp (fun ⟨hn, hd, hq⟩ => ⟨hn, hd, hm q hq⟩) (hf q)

theorem ChangesAt.trans (h : ChangesAt d d' made file) (h' : ChangesAt d' d'' made file) :
    ChangesAt d d'' made file := by
  intro q
  rcases h q with hsame | ⟨hn, hdir, hq⟩ | hq
  · rw [← hsame]
    exact h' q
  · rcases h' q with hsame | ⟨hn', -, -⟩ | hq'
    · exact .inr (.inl ⟨hn, hsame.trans hdir, hq⟩)
    · rw [hdir] at hn'
      cases hn'
    · exact .inr (.inr hq')
  · exact .inr (.inr hq)

theorem ChangesAt.node?_eq (h : ChangesAt d d' made file) (hm : ¬ made q) (hf : ¬ file q) : d'.node? q = d.node? q :=
  (h q).resolve_right fun h => h.elim (fun h => hm h.2.2) hf

theorem changesAt_put {n : Node} (h : file q) : ChangesAt d (d.put q n) made file := by
  intro place
  by_cases heq : q = place
  · exact .inr (.inr (heq ▸ h))
  · exact .inl (node?_put_ne heq)

theorem changesAt_erase (h : file q) : ChangesAt d (d.erase q) made file := by
  intro place
  by_cases heq : q = place
  · exact .inr (.inr (heq ▸ h))
  · exact .inl (node?_erase_ne heq)

theorem changesAt_makeDirectory? {path : Path} (h : d.makeDirectory? path = some d') :
    ChangesAt d d' (· ∈ placesFrom [] path.steps) file := fun q => (node?_walkMaking h q).imp_right .inl

theorem changesAt_getD (d : Disk) (path : Path) :
    ChangesAt d ((d.makeDirectory? path).getD d) (· ∈ placesFrom [] path.steps) file := by
  cases hmade : d.makeDirectory? path with
  | none => exact .refl d
  | some made => exact changesAt_makeDirectory? hmade

/-- A file that comes and goes again makes no difference. -/
theorem ChangesAt.of_put_erase {n : Node} (h : ChangesAt (d.put q n) d' made file) (hout : isOutside q = false)
    (hnone : d.node? q = none) : ChangesAt d (d'.erase q) made file := by
  intro place
  by_cases heq : q = place
  · subst heq
    refine .inl ?_
    rw [node?_erase hout, if_pos rfl, hnone]
  · have hplace := h place
    rwa [node?_put_ne heq, ← node?_erase_ne (d := d') heq] at hplace

/-- **A way stays open** when no file comes to lie on it. -/
theorem Opens.of_changes (h : d.Opens place steps p) (hroot : d.Rooted) (hc : ChangesAt d d' made file)
    (hfile : ∀ q ∈ placesFrom place steps, ¬ file q) : d'.Opens place steps p := by
  induction h with
  | here => exact .here
  | root _ ih => exact .root (ih fun q hq => hfile q (List.mem_cons_of_mem _ hq))
  | up _ ih => exact .up (ih fun q hq => hfile q (List.mem_cons_of_mem _ hq))
  | enter hname hn _ ih =>
    refine .enter hname ?_ (ih fun q hq => hfile q (List.mem_cons_of_mem _ hq))
    rcases hc _ with hsame | ⟨hnone, -, -⟩ | hf
    · exact hsame.trans hn
    · rw [hn] at hnone
      cases hnone
    · exact absurd hf (hfile _ List.mem_cons_self)
  | make hnames hn =>
    refine opens_of_names hnames fun q hq => ?_
    rcases hc q with hsame | ⟨-, hdir, -⟩ | hf
    · exact .inl (hsame.trans (hroot.node?_of_placesFrom hn hq))
    · exact .inr hdir
    · exact absurd hf (hfile q hq)

end Changes

namespace Opens

theorem eq_foldl (h : d.Opens place steps p) : p = steps.foldl stepFrom place := by
  induction h with
  | here => rfl
  | root _ ih => exact ih
  | up _ ih => exact ih
  | enter _ _ _ ih => exact ih
  | @make place name names _ _ =>
    have hfold (names : List String) (place : Place) :
        (names.map Path.Step.into).foldl stepFrom place = place ++ names := by
      induction names generalizing place with
      | nil => exact (List.append_nil place).symm
      | cons n rest ih =>
        rw [List.map_cons, List.foldl_cons, ih, stepFrom, List.append_assoc, List.singleton_append]
    exact (hfold (name :: names) place).symm

theorem exists_walkMaking_names (hnames : ∀ n ∈ names, isName n = true)
    (hfree : ∀ more, more ≠ [] → d.node? (place ++ more) = none) :
    ∃ d', d.walkMaking place (names.map .into) = some d' := by
  induction names generalizing d place with
  | nil => exact ⟨d, rfl⟩
  | cons name rest ih =>
    have hnone := hfree [name] (by simp)
    have hbelow : ∀ more, more ≠ [] →
        (d.put (place ++ [name]) .directory).node? (place ++ [name] ++ more) = none := by
      intro more hne
      rw [node?_put_ne (by simpa using hne), List.append_assoc]
      exact hfree _ (by simp)
    obtain ⟨d', hd'⟩ := ih (fun n hin => hnames n (List.mem_cons_of_mem _ hin)) hbelow
    exact ⟨d', walkMaking_into_eq_some_iff.2 ⟨hnames name List.mem_cons_self, .inr ⟨hnone, hd'⟩⟩⟩

/-- **The way can be made**, and only what leads to its end is new then. -/
theorem exists_made (h : d.Opens place steps p) (hroot : d.Rooted) :
    ∃ d', d.walkMaking place steps = some d' ∧ d'.walk place steps = .found p .directory ∧
      ChangesAt d d' (fun q => q ∈ placesFrom place steps ∧ q <+: p) fun _ => False := by
  suffices hmade : ∃ d', d.walkMaking place steps = some d' ∧
      ∀ q, d'.node? q = d.node? q ∨ d.node? q = none ∧ d'.node? q = some .directory ∧ q <+: p by
    obtain ⟨d', hm, hq⟩ := hmade
    obtain ⟨p', hp'⟩ := walk_of_walkMaking hm
    obtain rfl : p' = p := (eq_of_walk hp').trans h.eq_foldl.symm
    refine ⟨d', hm, hp', fun q => ?_⟩
    rcases hq q with hsame | ⟨hnone, hdir, hpre⟩
    · exact .inl hsame
    · rcases node?_walkMaking hm q with hsame | ⟨-, -, hway⟩
      · exact .inl hsame
      · exact .inr (.inl ⟨hnone, hdir, hway, hpre⟩)
  induction h with
  | here => exact ⟨d, rfl, fun _ => .inl rfl⟩
  | root _ ih => exact ih
  | up _ ih => exact ih
  | enter hname hn _ ih =>
    obtain ⟨d', hm, hq⟩ := ih
    exact ⟨d', walkMaking_into_eq_some_iff.2 ⟨hname, .inl ⟨hn, hm⟩⟩, hq⟩
  | @make place name names hnames hn =>
    have hbelow : ∀ more, more ≠ [] →
        (d.put (place ++ [name]) .directory).node? (place ++ [name] ++ more) = none := by
      intro more hne
      rw [node?_put_ne (by simpa using hne)]
      exact hroot.node?_append hn more
    obtain ⟨d', hm⟩ := exists_walkMaking_names (fun n hin => hnames n (List.mem_cons_of_mem _ hin)) hbelow
    have hmade : d.walkMaking place ((name :: names).map .into) = some d' :=
      walkMaking_into_eq_some_iff.2 ⟨hnames name List.mem_cons_self, .inr ⟨hn, hm⟩⟩
    refine ⟨d', hmade, fun q => (node?_walkMaking hmade q).imp_right fun ⟨hnone, hdir, hq⟩ => ⟨hnone, hdir, ?_⟩⟩
    obtain ⟨more, -, hpre, rfl⟩ := mem_placesFrom_names hq
    exact (List.prefix_append_right_inj place).2 hpre

/-- A way that opens leads to a directory, or nothing is behind it. -/
theorem walk_or_free (h : d.Opens place steps p) (hroot : d.Rooted) :
    d.walk place steps = .found p .directory ∨
      (∀ more, more ≠ [] → d.node? (p ++ more) = none) ∧
        (d.walk place steps = .free p ∨ d.walk place steps = .missing) ∧
        ∀ name, d.walk place (steps ++ [.into name]) = .missing := by
  induction h with
  | here => exact .inl rfl
  | root _ ih => exact ih
  | up _ ih => exact ih
  | enter hname hn _ ih => simpa [walk, hname, hn] using ih
  | @make place name names hnames hn =>
    have hname := hnames name List.mem_cons_self
    refine .inr ⟨fun more _ => ?_, ?_, fun key => ?_⟩
    · rw [List.append_cons, List.append_assoc]
      exact hroot.node?_append hn _
    · cases names with
      | nil => simp [walk, hname, hn]
      | cons => simp [walk, hname, hn]
    · simp [walk, hname, hn]

end Opens

end Schemata.Store.Disk
