import Schemata.Proofs.Change.Locality

/-! Changes in a row and the schemas before them.

What each change of a row finds (`Change.paired`) is what all the changes before it lead to, and does not depend
on those behind it. -/
namespace Schemata

namespace Change

/-- The changes, each with the schema right before it, up to the first that does not apply. -/
def paired : List Change → State → List (Change × State)
  | [], _ => []
  | c :: rest, schema =>
    (c, schema) :: match c.apply schema with
      | .ok next => paired rest next
      | .error _ => []

variable {c : Change} {a b cs : List Change} {schema next reached : State}

theorem paired_cons (h : c.apply schema = .ok next) :
    paired (c :: cs) schema = (c, schema) :: paired cs next := by
  simp only [paired, h]

theorem paired_append (h : applyAll a schema = .ok reached) :
    paired (a ++ b) schema = paired a schema ++ paired b reached := by
  induction a generalizing schema with
  | nil =>
    obtain rfl : schema = reached := Except.ok.inj h
    rfl
  | cons c rest ih =>
    obtain ⟨next, hc, hrest⟩ := applyAll_cons_eq_ok_iff.1 h
    rw [List.cons_append, paired_cons hc, paired_cons hc, ih hrest, List.cons_append]

theorem paired_prefix (a b : List Change) (schema : State) : paired a schema <+: paired (a ++ b) schema := by
  induction a generalizing schema with
  | nil => exact List.nil_prefix
  | cons c rest ih =>
    simp only [List.cons_append, paired, List.prefix_cons_inj]
    cases c.apply schema with
    | ok next => exact ih next
    | error conflict => exact List.prefix_rfl

/-- Each schema is what all the changes before lead to. -/
theorem of_mem_paired {call : Change × State} (h : call ∈ paired cs schema) :
    ∃ before after, cs = before ++ call.1 :: after ∧ applyAll before schema = .ok call.2 := by
  induction cs generalizing schema with
  | nil => cases h
  | cons c rest ih =>
    rcases List.mem_cons.1 h with rfl | h
    · exact ⟨[], rest, rfl, rfl⟩
    · split at h
      · rename_i next hc
        obtain ⟨before, after, rfl, hbefore⟩ := ih h
        exact ⟨c :: before, after, rfl, applyAll_cons_eq_ok_iff.2 ⟨next, hc, hbefore⟩⟩
      · cases h

/-- What holds of every schema on the way and of the last one holds of the first. -/
theorem of_paired {P : State → Prop} (h : applyAll cs schema = .ok reached)
    (hall : ∀ call ∈ paired cs schema, P call.2) (hlast : P reached) : P schema := by
  cases cs with
  | nil =>
    cases h
    exact hlast
  | cons c rest => exact hall (c, schema) (List.mem_cons_self ..)

end Change

end Schemata
