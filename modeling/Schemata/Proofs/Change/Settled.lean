import Schemata.Proofs.Change.Alike
import Schemata.Proofs.Document.Migration
import Schemata.Proofs.History.Replay

/-! Changes as they come back from a document.

A change that was read back is alike to the change that was written, so it does to a schema what that one does to a
schema that is alike: a history may be replayed from its documents. -/
namespace Schemata.Change

theorem alike_settled (c : Change) : c.Alike c.settled := by
  cases c with
  | createModel name fields =>
    exact .createModel name (List.forall₂_map_right_iff.2 (List.forall₂_same.2 fun f _ => f.alike_settled))
  | addField model f => exact .addField model f.alike_settled
  | removeField model f => exact .removeField model f.alike_settled
  | changeField model field source target => exact .changeField model field source.alike_settled target.alike_settled
  | deleteModel | renameField | addIndex | removeIndex | runData => exact .refl _

/-- Changes that were read back do what those that were written do. -/
theorem matched_settled (cs : List Change) (s : State) (position : Nat) :
    Matched State.Alike (applyFrom position cs s) (applyFrom position (cs.map .settled) s) :=
  matched_applyFrom (List.forall₂_map_right_iff.2 (List.forall₂_same.2 fun c _ => c.alike_settled)) (.refl s) position

end Schemata.Change
