import Schemata.Proofs.Store.Ways

/-! Ways that lead the same way whoever works on the disk.

A way that does not open may be barred: by a file, or by a name that no file can have. Then nothing is found on it and
nothing can be made, and that stays so as well. Where a way is neither open nor barred, as behind a missing directory
out of which it leads up again, what others make can bring something to light. -/
namespace Schemata.Store.Disk

variable {d d' d'' : Disk} {place p q : Place} {steps : List Path.Step} {name : String}

/-! ### Barred ways -/

/-- The way from a place leads through directories that are there, up to a file or a name that no file can have. -/
inductive Barred (d : Disk) : Place → List Path.Step → Prop
  | root {place : Place} {rest : List Path.Step} : Barred d ["/"] rest → Barred d place (.root :: rest)
  | up {place : Place} {rest : List Path.Step} : Barred d (above place) rest → Barred d place (.up :: rest)
  | enter {place : Place} {name : String} {rest : List Path.Step} : isName name = true →
      d.node? (place ++ [name]) = some .directory → Barred d (place ++ [name]) rest →
      Barred d place (.into name :: rest)
  | file {place : Place} {name : String} {rest : List Path.Step} {node : Node} : isName name = true →
      d.node? (place ++ [name]) = some node → node ≠ .directory → Barred d place (.into name :: rest)
  | name {place : Place} {name : String} {rest : List Path.Step} : isName name = false →
      Barred d place (.into name :: rest)

namespace Barred

/-- What is found at the end of a barred way is a file, if it is anything. -/
theorem walk_eq (h : d.Barred place steps) :
    d.walk place steps = .refused ∨ ∃ p node, d.walk place steps = .found p node ∧ node ≠ .directory := by
  induction h with
  | root _ ih => exact ih
  | up _ ih => exact ih
  | enter hname hn _ ih => simpa [walk, hname, hn] using ih
  | @file place name rest node hname hn hne =>
    cases rest with
    | nil =>
      refine .inr ⟨place ++ [name], node, ?_, hne⟩
      cases node <;> simp_all [walk]
    | cons step rest =>
      refine .inl ?_
      cases node <;> simp_all [walk]
  | name hname => exact .inl (by simp [walk, hname])

theorem walk_append (h : d.Barred place steps) {more : List Path.Step} (hmore : more ≠ []) :
    d.walk place (steps ++ more) = .refused := by
  induction h with
  | root _ ih => exact ih
  | up _ ih => exact ih
  | enter hname hn _ ih => simpa [walk, hname, hn] using ih
  | @file place name rest node hname hn hne =>
    have hrest : (rest ++ more).isEmpty = false := by simp [hmore]
    cases node <;> simp_all [walk]
  | name hname => simp [walk, hname]

theorem walkMaking_eq (h : d.Barred place steps) : d.walkMaking place steps = none := by
  induction h with
  | root _ ih => exact ih
  | up _ ih => exact ih
  | enter hname hn _ ih => simpa [walkMaking, hname, hn] using ih
  | @file place name rest node hname hn hne => cases node <;> simp_all [walkMaking]
  | name hname => simp [walkMaking, hname]

/-- **A way stays barred** when nothing becomes of the file that bars it. -/
theorem of_changes {made file : Place → Prop} (h : d.Barred place steps) (hc : ChangesAt d d' made file)
    (hfile : ∀ q ∈ placesFrom place steps, ¬ file q) : d'.Barred place steps := by
  have hstay {q : Place} {node : Node} (hn : d.node? q = some node) (hq : ¬ file q) : d'.node? q = some node := by
    rcases hc q with hsame | ⟨hnone, -, -⟩ | hf
    · exact hsame.trans hn
    · rw [hn] at hnone
      cases hnone
    · exact absurd hf hq
  induction h with
  | root _ ih => exact .root (ih fun q hq => hfile q (List.mem_cons_of_mem _ hq))
  | up _ ih => exact .up (ih fun q hq => hfile q (List.mem_cons_of_mem _ hq))
  | enter hname hn _ ih =>
    exact .enter hname (hstay hn (hfile _ List.mem_cons_self)) (ih fun q hq => hfile q (List.mem_cons_of_mem _ hq))
  | file hname hn hne => exact .file hname (hstay hn (hfile _ List.mem_cons_self)) hne
  | name hname => exact .name hname

end Barred

/-! ### Steady ways -/

/-- Where a path leads. -/
def endOf (steps : List Path.Step) : Place := steps.foldl stepFrom []

theorem endOf_join {path : Path} (hf : Path.IsFileName name) :
    endOf (path.join name).steps = endOf path.steps ++ [name] := by
  rw [Path.steps_join hf, endOf, List.foldl_append]
  rfl

/-- The way opens or is barred. -/
def Steady (d : Disk) (steps : List Path.Step) : Prop := d.Opens [] steps (endOf steps) ∨ d.Barred [] steps

/-- The way opens on both disks or is barred on both. -/
def SameWay (d d' : Disk) (steps : List Path.Step) : Prop :=
  d.Opens [] steps (endOf steps) ∧ d'.Opens [] steps (endOf steps) ∨ d.Barred [] steps ∧ d'.Barred [] steps

theorem Steady.sameWay (h : d.Steady steps) : d.SameWay d steps := h.imp (fun h => ⟨h, h⟩) fun h => ⟨h, h⟩

theorem SameWay.symm (h : d.SameWay d' steps) : d'.SameWay d steps := h.imp And.symm And.symm

theorem Steady.of_changes {made file : Place → Prop} (h : d.Steady steps) (hroot : d.Rooted)
    (hc : ChangesAt d d' made file) (hfile : ∀ q ∈ placesFrom [] steps, ¬ file q) : d.SameWay d' steps :=
  h.imp (fun h => ⟨h, h.of_changes hroot hc hfile⟩) fun h => ⟨h, h.of_changes hc hfile⟩

theorem SameWay.of_changes {made made' file file' : Place → Prop} {e e' : Disk} (h : d.SameWay d' steps)
    (hroot : d.Rooted) (hroot' : d'.Rooted) (hc : ChangesAt d e made file) (hc' : ChangesAt d' e' made' file')
    (hfile : ∀ q ∈ placesFrom [] steps, ¬ file q) (hfile' : ∀ q ∈ placesFrom [] steps, ¬ file' q) :
    e.SameWay e' steps :=
  h.imp (fun ⟨h, h'⟩ => ⟨h.of_changes hroot hc hfile, h'.of_changes hroot' hc' hfile'⟩)
    fun ⟨h, h'⟩ => ⟨h.of_changes hc hfile, h'.of_changes hc' hfile'⟩

/-! ### The same nodes -/

theorem walk_congr (h : ∀ q, d'.node? q = d.node? q) : d'.walk place steps = d.walk place steps := by
  induction steps generalizing place with
  | nil => rfl
  | cons step rest ih => cases step <;> simp only [walk, h, ih]

/-- What is found on a disk depends on its nodes only. -/
theorem look_congr (h : ∀ q, d'.node? q = d.node? q) (path : Path) : d'.look path = d.look path := by
  simp only [look, walk_congr h]

/-! ### What was made, and nothing else -/

/-- All places on a way that was found are directories. -/
theorem node?_of_mem_placesFrom (hd : d.WellFormed) (hdir : d.node? place = some .directory)
    (hw : d.walk place steps = .found p .directory) (hq : q ∈ placesFrom place steps) :
    d.node? q = some .directory := by
  induction steps generalizing place with
  | nil => cases hq
  | cons step rest ih =>
    have hstep : d.node? (stepFrom place step) = some .directory ∧
        d.walk (stepFrom place step) rest = .found p .directory := by
      cases step with
      | root => exact ⟨node?_of_isOutside rfl, hw⟩
      | up => exact ⟨hd.node?_above hdir, hw⟩
      | into name => exact (walk_into_eq_found_iff.1 hw).2
    rcases List.mem_cons.1 hq with rfl | hq
    · exact hstep.1
    · exact ih hstep.1 hstep.2 hq

/-- There are directories at the places `made`, where nothing else was before; for the rest, only files changed. -/
structure Edited (made file : Place → Prop) (d d' : Disk) : Prop where
  there : ∀ q, made q → d'.node? q = some .directory
  before : ∀ q, made q → d.node? q = none ∨ d.node? q = some .directory
  apart : ∀ q, made q → ¬ file q
  kept : ∀ q, ¬ made q → ¬ file q → d'.node? q = d.node? q

namespace Edited
variable {made made' file : Place → Prop}

theorem changesAt (h : Edited made file d d') : ChangesAt d d' made file := by
  intro q
  by_cases hm : made q
  · rcases h.before q hm with hn | hn
    · exact .inr (.inl ⟨hn, h.there q hm, hm⟩)
    · exact .inl ((h.there q hm).trans hn.symm)
  · by_cases hf : file q
    · exact .inr (.inr hf)
    · exact .inl (h.kept q hm hf)

theorem trans (h : Edited made file d d') (h' : Edited made' file d' d'') :
    Edited (fun q => made q ∨ made' q) file d d'' := by
  have hlater {q : Place} (hm : made q) : d''.node? q = some .directory := by
    by_cases hm' : made' q
    · exact h'.there q hm'
    · rw [h'.kept q hm' (h.apart q hm), h.there q hm]
  refine ⟨fun q hq => hq.elim hlater (h'.there q), fun q hq => ?_, fun q hq => hq.elim (h.apart q) (h'.apart q), ?_⟩
  · by_cases hm : made q
    · exact h.before q hm
    · have hm' := hq.resolve_left hm
      rw [← h.kept q hm (h'.apart q hm')]
      exact h'.before q hm'
  · intro q hq hf
    rw [not_or] at hq
    rw [h'.kept q hq.2 hf, h.kept q hq.1 hf]

theorem of_changesAt (h : ChangesAt d d' (fun _ => False) file) : Edited (fun _ => False) file d d' :=
  ⟨fun _ => False.elim, fun _ => False.elim, fun _ => False.elim, fun _ _ hf => h.node?_eq not_false hf⟩

theorem refl (d : Disk) : Edited (fun _ => False) file d d := of_changesAt (.refl d)

/-- Making a way that opens. -/
theorem of_made (ho : d.Opens [] steps p) (hd : d.WellFormed) (hm : d.walkMaking [] steps = some d')
    (hd' : d'.WellFormed) (hfile : ∀ q, q ∈ placesFrom [] steps → q <+: p → ¬ file q) :
    Edited (fun q => q ∈ placesFrom [] steps ∧ q <+: p) file d d' := by
  obtain ⟨made, hmade, hwalk, hnew⟩ := ho.exists_made hd.rooted
  obtain rfl : made = d' := Option.some.inj (hmade.symm.trans hm)
  have hdir {q : Place} (hq : q ∈ placesFrom [] steps) : made.node? q = some .directory :=
    node?_of_mem_placesFrom hd' (node?_of_isOutside rfl) hwalk hq
  refine ⟨fun q hq => hdir hq.1, fun q hq => ?_, fun q hq => hfile q hq.1 hq.2, fun q hq _ => ?_⟩
  · rcases hnew q with hsame | ⟨hnone, -, -⟩ | hf
    · exact .inr (hsame.symm.trans (hdir hq.1))
    · exact .inl hnone
    · exact hf.elim
  · exact hnew.node?_eq hq not_false

end Edited

end Schemata.Store.Disk
