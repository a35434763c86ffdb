import Schemata.Proofs.Store.Steady

/-! What a file has to do with work on a disk that is not about it.

Work that changes files at some places only and removes no directory spares all others (`Spares`): what was found there
by a path is found there afterwards. -/
namespace Schemata.Store.Disk

variable {d d' d'' : Disk} {place q : Place} {steps : List Path.Step} {n : Node} {file : Place → Prop} {path : Path}

/-! ### The ends of ways -/

/-- Whatever is found at the end of a way is where the way leads. -/
theorem of_walk_found (h : d.walk place steps = .found q n) :
    q = steps.foldl stepFrom place ∧ (n = .directory ∨ d.node? q = some n) := by
  induction steps generalizing place with
  | nil =>
    cases h
    exact ⟨rfl, .inl rfl⟩
  | cons step rest ih =>
    cases step with
    | root => exact ih h
    | up => exact ih h
    | into name =>
      simp only [walk] at h
      split at h
      · cases h
      · split at h
        · exact ih h
        · rename_i hn
          split at h
          · rename_i hrest
            cases h
            rw [List.isEmpty_iff.1 hrest]
            exact ⟨rfl, .inr hn⟩
          · cases h
        · split at h <;> cases h

/-- A place that is free for a file has nothing in it, and is where the way leads. -/
theorem of_walk_free (h : d.walk place steps = .free q) : q = steps.foldl stepFrom place ∧ d.node? q = none := by
  induction steps generalizing place with
  | nil => cases h
  | cons step rest ih =>
    cases step with
    | root => exact ih h
    | up => exact ih h
    | into name =>
      simp only [walk] at h
      split at h
      · cases h
      · split at h
        · exact ih h
        · split at h <;> cases h
        · rename_i hn
          split at h
          · rename_i hrest
            cases h
            rw [List.isEmpty_iff.1 hrest]
            exact ⟨rfl, hn⟩
          · cases h

theorem walk_of_look_found (h : d.look path = .found q n) : d.walk [] path.steps = .found q n := by
  simp only [look] at h
  split at h
  · cases h
  · split at h
    · rename_i hwalk
      cases h
      exact hwalk
    · rename_i hwalk
      split at h <;> cases h
      exact hwalk
    · split at h <;> cases h
    · exact h

/-- A path that can lead to a file. -/
def CanBeFile (path : Path) : Prop := path.isEmpty = false ∧ path.isDirectoryForm = false

theorem of_look_free (h : d.look path = .free q) : d.walk [] path.steps = .free q ∧ CanBeFile path := by
  simp only [look] at h
  split at h
  · cases h
  · rename_i hempty
    split at h
    · cases h
    · split at h <;> cases h
    · rename_i hwalk
      split at h
      · cases h
      · rename_i hform
        cases h
        exact ⟨hwalk, Bool.eq_false_iff.2 hempty, Bool.eq_false_iff.2 hform⟩
    · rename_i hfree
      exact absurd h (hfree q)

/-- A file that is found by its name is in the directory that the way leads to. -/
theorem of_look_join {directory : Path} {name : String} (hf : Path.IsFileName name)
    (h : d.look (directory.join name) = .found q n) :
    d.walk [] directory.steps = .found (endOf directory.steps) .directory ∧ q = endOf directory.steps ++ [name] := by
  rw [look_join_eq_walk d hf] at h
  obtain ⟨p, hp⟩ := exists_walk_of_append h
  obtain rfl : p = endOf directory.steps := eq_of_walk hp
  have hend := (of_walk_found h).1
  rw [List.foldl_append] at hend
  exact ⟨hp, hend⟩

/-! ### Sparing files -/

/-- Directories stay, and so do the files that are not at one of the places. -/
def Spares (file : Place → Prop) (d d' : Disk) : Prop :=
  ∀ q n, d.node? q = some n → n = .directory ∨ ¬ file q → d'.node? q = some n

namespace Spares

theorem refl (d : Disk) : Spares file d d := fun _ _ h _ => h

theorem trans (h : Spares file d d') (h' : Spares file d' d'') : Spares file d d'' :=
  fun q n hn hq => h' q n (h q n hn hq) hq

theorem walk_eq (h : Spares file d d') (hw : d.walk place steps = .found q n) (hq : ¬ file q) :
    d'.walk place steps = .found q n := by
  induction steps generalizing place with
  | nil => exact hw
  | cons step rest ih =>
    cases step with
    | root => exact ih hw
    | up => exact ih hw
    | into name =>
      simp only [walk] at hw ⊢
      split at hw
      · cases hw
      · rename_i hname
        rw [if_neg hname]
        split at hw
        · rename_i hn
          rw [h _ _ hn (.inl rfl)]
          exact ih hw
        · rename_i node hnode hn
          split at hw
          · cases hw
            rw [h _ _ hn (.inr hq)]
            cases n <;> simp_all
          · cases hw
        · split at hw <;> cases hw

/-- A file that is spared is found as before. -/
theorem look_eq (h : Spares file d d') (hl : d.look path = .found q n) (hq : ¬ file q) :
    d'.look path = .found q n := by
  have hw := walk_of_look_found hl
  simp only [look, h.walk_eq hw hq, hw] at hl ⊢
  exact hl

end Spares

theorem spares_put (h : file q ∨ d.node? q = none) (hdir : d.node? q ≠ some .directory) :
    Spares file d (d.put q n) := by
  intro q' n' hn hq'
  by_cases he : q = q'
  · subst he
    rcases h with hfile | hnone
    · rcases hq' with rfl | hnot
      · exact absurd hn hdir
      · exact absurd hfile hnot
    · rw [hnone] at hn
      cases hn
  · rwa [node?_put_ne he]

theorem spares_erase (h : file q) (hdir : d.node? q ≠ some .directory) : Spares file d (d.erase q) := by
  intro q' n' hn hq'
  have hne : q ≠ q' := by
    rintro rfl
    rcases hq' with rfl | hnot
    · exact hdir hn
    · exact hnot h
  rwa [node?_erase_ne hne]

theorem spares_makeDirectory? (h : d.makeDirectory? path = some d') : Spares file d d' := by
  intro q n hn _
  rcases node?_walkMaking h q with hsame | ⟨hnone, -, -⟩
  · exact hsame.trans hn
  · rw [hnone] at hn
    cases hn

/-! ### Writing and removing -/

/-- A file is written to where the path leads, and that is not a directory. -/
theorem of_write? (h : d.write? path n = some d') :
    d' = d.put (endOf path.steps) n ∧ d.node? (endOf path.steps) ≠ some .directory := by
  simp only [write?] at h
  split at h
  · cases h
  · rename_i q node hnot hl
    cases h
    obtain ⟨rfl, hn⟩ := of_walk_found (walk_of_look_found hl)
    refine ⟨rfl, ?_⟩
    rw [endOf, hn.resolve_left hnot]
    exact fun he => hnot (Option.some.inj he)
  · rename_i q hl
    cases h
    obtain ⟨rfl, hnone⟩ := of_walk_free (of_look_free hl).1
    exact ⟨rfl, ne_directory_of_none hnone⟩
  · cases h

theorem of_remove? (h : d.remove? path = some d') :
    d' = d.erase (endOf path.steps) ∧ d.node? (endOf path.steps) ≠ some .directory := by
  simp only [remove?] at h
  split at h
  · cases h
  · rename_i q node hnot hl
    cases h
    obtain ⟨rfl, hn⟩ := of_walk_found (walk_of_look_found hl)
    refine ⟨rfl, ?_⟩
    rw [endOf, hn.resolve_left hnot]
    exact fun he => hnot (Option.some.inj he)
  · cases h

theorem spares_write? (h : d.write? path n = some d') (hfile : file (endOf path.steps)) : Spares file d d' := by
  obtain ⟨rfl, hdir⟩ := of_write? h
  exact spares_put (.inl hfile) hdir

theorem spares_remove? (h : d.remove? path = some d') (hfile : file (endOf path.steps)) : Spares file d d' := by
  obtain ⟨rfl, hdir⟩ := of_remove? h
  exact spares_erase hfile hdir

end Schemata.Store.Disk
