import Schemata.Proofs.Collection
import Schemata.Proofs.Store.Path
import Schemata.Store.Disk

/-! What following a path depends on: the directories on the way and what is at the end. Files that come
and go beside the way change nothing, and making a directory changes nothing once it is there. -/
namespace Schemata.Store.Disk

variable {d d' : Disk} {place p q : Place} {n : Node} {steps : List Path.Step} {name : String}

/-! ### What is at a place -/

theorem node?_put_ne (h : q ≠ place) : (d.put q n).node? place = d.node? place := by
  simp [node?, put, Keyed.get?_put, h]

theorem node?_put_self (h : isOutside q = false) : (d.put q n).node? q = some n := by
  simp [node?, put, Keyed.get?_put, h]

theorem node?_erase_ne (h : q ≠ place) : (d.erase q).node? place = d.node? place := by
  simp [node?, erase, Keyed.get?_erase, h]

theorem not_isOutside (h : Path.IsFileName name) : isOutside (p ++ [name]) = false := by
  have habove : name ≠ ".." := fun he => h.ne_above (by rw [he]; decide)
  have hroot : name ≠ "/" := fun he => h.noSlash (by rw [he]; decide)
  simp [isOutside, habove, hroot]

/-- The directories of one disk are directories of the other. -/
def KeepsDirectories (d d' : Disk) : Prop :=
  ∀ q, d.node? q = some .directory → d'.node? q = some .directory

theorem ne_directory_of_none (h : d.node? q = none) : d.node? q ≠ some .directory := by
  simp [h]

theorem ne_directory_of_text {text : String} (h : d.node? q = some (.text text)) : d.node? q ≠ some .directory := by
  simp [h]

theorem keepsDirectories_put (h : d.node? q ≠ some .directory) : KeepsDirectories d (d.put q n) := by
  intro place hp
  have hne : q ≠ place := fun he => h (he ▸ hp)
  rw [node?_put_ne hne, hp]

theorem keepsDirectories_erase (h : d.node? q ≠ some .directory) :
    KeepsDirectories d (d.erase q) := by
  intro place hp
  have hne : q ≠ place := fun he => h (he ▸ hp)
  rw [node?_erase_ne hne, hp]

theorem KeepsDirectories.trans {d'' : Disk} (h : KeepsDirectories d d')
    (h' : KeepsDirectories d' d'') : KeepsDirectories d d'' :=
  fun q hq => h' q (h q hq)

/-! ### Following a path -/

/-- A way into a directory begins with a directory of that name. -/
theorem walk_into_eq_found_iff :
    d.walk place (.into name :: steps) = .found p .directory ↔
      isName name = true ∧ d.node? (place ++ [name]) = some .directory ∧
        d.walk (place ++ [name]) steps = .found p .directory := by
  simp only [walk]
  cases hname : isName name with
  | false => simp
  | true =>
    cases hn : d.node? (place ++ [name]) with
    | none => cases steps <;> simp
    | some node =>
      cases node with
      | directory => simp
      | text content => cases steps <;> simp
      | binary => cases steps <;> simp

/-- A directory is reached as long as the directories on the way are there. -/
theorem walk_of_keepsDirectories (hk : KeepsDirectories d d')
    (h : d.walk place steps = .found p .directory) : d'.walk place steps = .found p .directory := by
  induction steps generalizing place with
  | nil => exact h
  | cons step rest ih =>
    cases step with
    | root => exact ih h
    | up => exact ih h
    | into name =>
      obtain ⟨hname, hn, hrest⟩ := walk_into_eq_found_iff.1 h
      exact walk_into_eq_found_iff.2 ⟨hname, hk _ hn, ih hrest⟩

theorem walk_append (h : d.walk place steps = .found p .directory) (more : List Path.Step) :
    d.walk place (steps ++ more) = d.walk p more := by
  induction steps generalizing place with
  | nil =>
    simp only [walk, Lookup.found.injEq, and_true] at h
    rw [h, List.nil_append]
  | cons step rest ih =>
    cases step with
    | root => exact ih h
    | up => exact ih h
    | into name =>
      obtain ⟨hname, hn, hrest⟩ := walk_into_eq_found_iff.1 h
      rw [← ih hrest, List.cons_append]
      simp [walk, hname, hn]

/-- Whatever is found behind a way by its name is in a directory. -/
theorem exists_walk_of_append {n : Node} (h : d.walk place (steps ++ [.into name]) = .found q n) :
    ∃ p, d.walk place steps = .found p .directory := by
  induction steps generalizing place with
  | nil => exact ⟨place, rfl⟩
  | cons step rest ih =>
    cases step with
    | root => exact ih h
    | up => exact ih h
    | into name' =>
      simp only [List.cons_append, walk] at h ⊢
      split at h
      · cases h
      · rename_i hname
        rw [if_neg hname]
        split at h
        · exact ih h
        · simp at h
        · simp at h

/-! ### A file in a directory -/

/-- What is looked for by its name is what the way to it comes to. -/
theorem look_join_eq_walk (d : Disk) {directory : Path} (hf : Path.IsFileName name) :
    d.look (directory.join name) = d.walk [] (directory.steps ++ [.into name]) := by
  simp only [look, Path.join_ne_empty hf, Bool.false_eq_true, if_false, Path.steps_join hf,
    Path.not_isDirectoryForm_join hf]
  cases d.walk [] (directory.steps ++ [.into name]) with
  | found q node => cases node <;> rfl
  | free q => rfl
  | missing => rfl
  | refused => rfl

section Joined
variable {directory : Path} (hf : Path.IsFileName name)
  (hd : d.walk [] directory.steps = .found p .directory)

include hf hd

theorem look_join : d.look (directory.join name) =
    if isName name then
      (d.node? (p ++ [name])).elim (.free (p ++ [name])) (.found (p ++ [name]))
    else .refused := by
  simp only [look_join_eq_walk d hf, walk_append hd, walk, List.isEmpty_nil, if_true]
  by_cases hname : isName name = true
  · simp only [hname, Bool.not_true, Bool.false_eq_true, if_false, if_true]
    cases hn : d.node? (p ++ [name]) with
    | none => rfl
    | some node => cases node <;> rfl
  · simp [hname]

theorem write?_join (hname : isName name = true) (hn : d.node? (p ++ [name]) ≠ some .directory)
    (text : String) :
    d.write? (directory.join name) (.text text) = some (d.put (p ++ [name]) (.text text)) := by
  unfold write?
  rw [look_join hf hd, if_pos hname]
  cases ho : d.node? (p ++ [name]) with
  | none => rfl
  | some node =>
    cases node with
    | directory => exact absurd ho hn
    | text content => rfl
    | binary => rfl

/-- Only a name that is short enough and not that of a directory can be written to. -/
theorem of_write?_join {text : String} {d' : Disk}
    (h : d.write? (directory.join name) (.text text) = some d') :
    isName name = true ∧ d.node? (p ++ [name]) ≠ some .directory := by
  unfold write? at h
  rw [look_join hf hd] at h
  by_cases hname : isName name = true
  · refine ⟨hname, fun hn => ?_⟩
    simp [hname, hn] at h
  · simp [hname] at h

theorem remove?_join {node : Node} (hname : isName name = true)
    (hn : d.node? (p ++ [name]) = some node) (hne : node ≠ .directory) :
    d.remove? (directory.join name) = some (d.erase (p ++ [name])) := by
  unfold remove?
  rw [look_join hf hd, if_pos hname, hn]
  cases node with
  | directory => exact absurd rfl hne
  | text content => rfl
  | binary => rfl

end Joined

/-! ### Making directories -/

theorem walkMaking_into_eq_some_iff :
    d.walkMaking place (.into name :: steps) = some d' ↔
      isName name = true ∧
        (d.node? (place ++ [name]) = some .directory ∧
            d.walkMaking (place ++ [name]) steps = some d' ∨
          d.node? (place ++ [name]) = none ∧
            (d.put (place ++ [name]) .directory).walkMaking (place ++ [name]) steps = some d') := by
  simp only [walkMaking]
  cases hname : isName name with
  | false => simp
  | true =>
    cases hn : d.node? (place ++ [name]) with
    | none => simp
    | some node => cases node <;> simp

theorem walkMaking_of_found (h : d.walk place steps = .found p .directory) :
    d.walkMaking place steps = some d := by
  induction steps generalizing place with
  | nil => rfl
  | cons step rest ih =>
    cases step with
    | root => exact ih h
    | up => exact ih h
    | into name =>
      obtain ⟨hname, hn, hrest⟩ := walk_into_eq_found_iff.1 h
      exact walkMaking_into_eq_some_iff.2 ⟨hname, .inl ⟨hn, ih hrest⟩⟩

theorem keepsDirectories_of_walkMaking (h : d.walkMaking place steps = some d') :
    KeepsDirectories d d' := by
  induction steps generalizing d place with
  | nil =>
    simp only [walkMaking, Option.some.injEq] at h
    exact h ▸ fun _ hq => hq
  | cons step rest ih =>
    cases step with
    | root => exact ih h
    | up => exact ih h
    | into name =>
      obtain ⟨-, ⟨-, hrest⟩ | ⟨hn, hrest⟩⟩ := walkMaking_into_eq_some_iff.1 h
      · exact ih hrest
      · exact (keepsDirectories_put (by simp [hn])).trans (ih hrest)

/-- Once a directory is made, it can be reached. -/
theorem walk_of_walkMaking (h : d.walkMaking place steps = some d') :
    ∃ p, d'.walk place steps = .found p .directory := by
  induction steps generalizing d place with
  | nil => exact ⟨place, rfl⟩
  | cons step rest ih =>
    cases step with
    | root => exact ih h
    | up => exact ih h
    | into name =>
      obtain ⟨hname, ⟨hn, hrest⟩ | ⟨hn, hrest⟩⟩ := walkMaking_into_eq_some_iff.1 h
      · obtain ⟨p, hp⟩ := ih hrest
        exact ⟨p, walk_into_eq_found_iff.2 ⟨hname, keepsDirectories_of_walkMaking hrest _ hn, hp⟩⟩
      · obtain ⟨p, hp⟩ := ih hrest
        refine ⟨p, walk_into_eq_found_iff.2 ⟨hname, keepsDirectories_of_walkMaking hrest _ ?_, hp⟩⟩
        refine node?_put_self ?_
        cases ho : isOutside (place ++ [name]) with
        | false => rfl
        | true => simp [node?, ho] at hn

theorem makeDirectory?_of_found {directory : Path}
    (h : d.walk [] directory.steps = .found p .directory) : d.makeDirectory? directory = some d :=
  walkMaking_of_found h

/-! ### What making a directory brings to light -/

/-- Everything on the disk lies in a directory. -/
def Rooted (d : Disk) : Prop :=
  ∀ place name node, d.node? (place ++ [name]) = some node → d.node? place = some .directory

/-- Nothing lies below a place where nothing is. -/
theorem Rooted.node?_append (h : d.Rooted) (hq : d.node? q = none) (more : List String) :
    d.node? (q ++ more) = none := by
  suffices hrev : ∀ more : List String, d.node? (q ++ more.reverse) = none by
    simpa using hrev more.reverse
  intro more
  induction more with
  | nil => simpa using hq
  | cons name rest ih =>
    rw [List.reverse_cons, ← List.append_assoc]
    cases hn : d.node? (q ++ rest.reverse ++ [name]) with
    | none => rfl
    | some node => simp [h _ _ _ hn] at ih

end Schemata.Store.Disk
