import Schemata.Proofs.Console.Migrating

/-! What is found in the file of the statements.

As long as the ledger has no file of its own at the place of the output, the file holds all that was written to it
(`Holds`), whatever else is done to the disk meanwhile (`keeps_forM`). -/
namespace Schemata.Console
open Store Disk Engine Emitter

/-- What was written to the output is in its file. -/
structure Holds (path : Path) (t : Session Emitter) : Prop where
  output : t.connection.output = some path
  file : ∀ text, t.connection.written = some text → t.world.disk.look path = .found (endOf path.steps) (.text text)

section Holding
variable {path : Path} {s : Settings} {engine : String} {t : Session Emitter}

theorem Holds.of_spares {file : Place → Prop} {w : World} (h : Holds path t) (hs : Spares file t.world.disk w.disk)
    (hfile : ¬ file (endOf path.steps)) : Holds path { t with world := w } :=
  ⟨h.output, fun text htext => hs.look_eq (h.file text htext) hfile⟩

theorem keeps_onWorld {α : Type} {work : Work α} {file : Place → Prop} (hfile : ¬ file (endOf path.steps))
    (hs : ∀ w, Spares file w.disk (stateOf (work w)).disk) : Keeps (Holds path) (onWorld work) := by
  intro t ht
  have hspares := hs t.world
  simp only [onWorld]
  cases hwork : work t.world <;> rw [hwork] at hspares <;> exact ht.of_spares hspares hfile

end Holding

end Schemata.Console
