import Schemata.Console.Emitter
import Schemata.Proofs.Engine.Adapter
import Schemata.Proofs.Engine.Carry

/-! One migration through the emitter.

A migration that replays is handed on as one block when it is committed, behind the name of its engine if that was not
announced; or it is stopped, and nothing is handed on (`run_emitter`). -/
namespace Schemata.Console
open Engine Ddl

/-! ### What was handed on -/

/-- The text of an element that holds lines of a script. -/
def Element.code? : Element → Option String
  | .code text => some text
  | _ => none

/-- The scripts on a page, one behind the other. -/
def Page.code (p : Page) : String := String.join (p.filterMap Element.code?)

namespace Emitter

/-- All that was handed on. -/
def emitted (e : Emitter) : String :=
  match e.output with
  | none => e.page.code
  | some _ => e.written.getD ""

/-- Statements as they are handed on, if there are any. -/
def handed (e : Emitter) (statements : List Statement) : String :=
  if statements.isEmpty then "" else e.textOf statements

/-- From one emitter to another the statements were handed on, and nothing waits any more. -/
structure HandsOn (statements : List Statement) (e e' : Emitter) : Prop where
  output : e'.output = e.output
  engine : e'.engine = e.engine
  idle : e'.script = .empty
  emitted : e'.emitted = e.emitted ++ e.handed statements
  announced : e'.announced = if statements.isEmpty then e.announced else some e.engine

variable {e e' e'' : Emitter} {a b : List Statement}

theorem handed_append (e : Emitter) (he : e'.engine = e.engine)
    (hannounced : e'.announced = if a.isEmpty then e.announced else some e.engine) :
    e.handed (a ++ b) = e.handed a ++ e'.handed b := by
  cases a with
  | nil =>
    have hsame : e'.textOf b = e.textOf b := by simp_all [textOf]
    simp [handed, hsame]
  | cons first rest =>
    cases b with
    | nil => simp [handed]
    | cons next more =>
      have hnone : e'.textOf (next :: more) = String.join ((next :: more).map (·.sql ++ "\n")) := by
        simp [textOf, he, hannounced]
      simp only [handed, List.cons_append, List.isEmpty_cons, Bool.false_eq_true, if_false, hnone]
      simp only [textOf, ← List.cons_append, List.map_append, String.join_append, String.append_assoc]

namespace HandsOn

theorem refl (h : e.script = .empty) : HandsOn [] e e := ⟨rfl, rfl, h, by simp [handed], rfl⟩

theorem trans (h : HandsOn a e e') (h' : HandsOn b e' e'') : HandsOn (a ++ b) e e'' where
  output := h'.output.trans h.output
  engine := h'.engine.trans h.engine
  idle := h'.idle
  emitted := by rw [h'.emitted, h.emitted, handed_append e h.engine h.announced, String.append_assoc]
  announced := by
    rw [h'.announced, h.announced, h.engine]
    cases a <;> cases b <;> simp

end HandsOn

/-! ### Handing on -/

variable {t t' : Session Emitter} {text : String}

/-- The emitter about to hand on what was committed. -/
def drained (e : Emitter) : Emitter := { e with script := .empty, announced := some e.engine }

end Emitter

end Schemata.Console
