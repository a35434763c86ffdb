import Schemata.Engine.Migrate
import Schemata.Proofs.History.Replay

/-! Carrying out migrations through a script. Changes that replay are rendered one after the other into the
open transaction; the first that cannot be rendered takes the whole migration back, and nothing else can
stop it. -/
namespace Schemata

/-! ### What a history comes to in statements -/

namespace Ddl

/-- The statements of changes in a row, each rendered against the schema right before it, and the schema
after all of them; none when one of them cannot be rendered or does not apply. -/
def statements? : List Change → State → Option (List Statement × State)
  | [], schema => some ([], schema)
  | c :: rest, schema =>
    (render c schema).toOption.bind fun own =>
      (c.apply schema).toOption.bind fun next =>
        (statements? rest next).map fun r => (own ++ r.1, r.2)

/-- What a transaction with these statements leaves in a script. -/
def block (statements : List Statement) : List Statement :=
  if statements.isEmpty then [] else .begin :: statements ++ [.commit]

/-- The blocks of migrations in a row, and the schema after all of them. -/
def blocks? : List Migration → State → Option (List Statement × State)
  | [], schema => some ([], schema)
  | m :: rest, schema =>
    (statements? m.changes schema).bind fun own =>
      (blocks? rest own.2).map fun r => (block own.1 ++ r.1, r.2)

theorem statements?_cons {c : Change} {rest : List Change} {schema next : State}
    {own : List Statement} (hr : render c schema = .ok own) (ha : c.apply schema = .ok next) :
    statements? (c :: rest) schema = (statements? rest next).map fun r => (own ++ r.1, r.2) := by
  simp [statements?, hr, ha, Except.toOption]

theorem eq_ok_of_toOption {ε α : Type} {r : Except ε α} {a : α} (h : r.toOption = some a) : r = .ok a := by
  cases r with
  | error failure => cases h
  | ok b => exact congrArg _ (Option.some.inj h)

/-- Changes that have statements were rendered and applied one after the other. -/
theorem of_statements?_cons {c : Change} {rest : List Change} {schema after : State}
    {statements : List Statement} (h : statements? (c :: rest) schema = some (statements, after)) :
    ∃ own next more, render c schema = .ok own ∧ c.apply schema = .ok next ∧
      statements? rest next = some (more, after) ∧ statements = own ++ more := by
  simp only [statements?, Option.bind_eq_some_iff, Option.map_eq_some_iff, Prod.mk.injEq] at h
  obtain ⟨own, hown, next, hnext, ⟨more, last⟩, hmore, rfl, rfl⟩ := h
  exact ⟨own, next, more, eq_ok_of_toOption hown, eq_ok_of_toOption hnext, hmore, rfl⟩

theorem applyAll_of_statements? {cs : List Change} {schema after : State} {statements : List Statement}
    (h : statements? cs schema = some (statements, after)) :
    Change.applyAll cs schema = .ok after := by
  induction cs generalizing schema statements with
  | nil =>
    cases h
    rfl
  | cons c rest ih =>
    obtain ⟨own, next, more, -, ha, hmore, rfl⟩ := of_statements?_cons h
    exact Change.applyAll_cons_eq_ok_iff.2 ⟨next, ha, ih hmore⟩

theorem statements?_of_fault {c : Change} {rest : List Change} {schema : State} {fault : Fault}
    (hr : render c schema = .error fault) : statements? (c :: rest) schema = none := by
  simp [statements?, hr, Except.toOption]

theorem statements?_append (a b : List Change) (schema : State) :
    statements? (a ++ b) schema = (statements? a schema).bind fun r =>
      (statements? b r.2).map fun more => (r.1 ++ more.1, more.2) := by
  induction a generalizing schema with
  | nil => simp [statements?]
  | cons c rest ih =>
    simp only [List.cons_append, statements?, ih, Option.map_bind, Option.bind_assoc, Option.bind_map,
      Option.map_map, Function.comp_def, List.append_assoc]

theorem blocks?_append (a b : List Migration) (schema : State) :
    blocks? (a ++ b) schema = (blocks? a schema).bind fun r =>
      (blocks? b r.2).map fun more => (r.1 ++ more.1, more.2) := by
  induction a generalizing schema with
  | nil => simp [blocks?]
  | cons m rest ih =>
    simp only [List.cons_append, blocks?, ih, Option.map_bind, Option.bind_assoc, Option.bind_map,
      Option.map_map, Function.comp_def, List.append_assoc]

/-- The blocks of a history come to what the statements of all its changes in a row come to, for whoever passes over
the bounds of transactions. -/
theorem exists_foldlM_blocks {σ : Type} (act : σ → Statement → Option σ) (hbegin : ∀ x, act x .begin = some x)
    (hcommit : ∀ x, act x .commit = some x) {history : List Migration} {schema after : State}
    {blocks : List Statement} (h : blocks? history schema = some (blocks, after)) :
    ∃ statements, statements? (history.flatMap (·.changes)) schema = some (statements, after) ∧
      ∀ x, blocks.foldlM act x = statements.foldlM act x := by
  have hblock : ∀ statements x, (block statements).foldlM act x = statements.foldlM act x := by
    intro statements x
    rw [block]
    split
    · rename_i hempty
      rw [List.isEmpty_iff.1 hempty]
    · simp [List.foldlM_cons, List.foldlM_append, hbegin, hcommit]
  induction history generalizing schema blocks with
  | nil =>
    cases h
    exact ⟨[], rfl, fun _ => rfl⟩
  | cons m rest ih =>
    simp only [blocks?, Option.bind_eq_some_iff, Option.map_eq_some_iff, Prod.mk.injEq] at h
    obtain ⟨⟨own, next⟩, hown, ⟨more, last⟩, hmore, rfl, rfl⟩ := h
    obtain ⟨statements, hstatements, hrun⟩ := ih hmore
    refine ⟨own ++ statements, ?_, fun x => ?_⟩
    · rw [List.flatMap_cons, statements?_append, hown, Option.bind_some, hstatements]
      rfl
    · simp only [List.foldlM_append, hblock, hrun]

/-- A migration without statements of its own has no blocks with others either. -/
theorem blocks?_concat_of_none {ms : List Migration} {m : Migration} {schema after : State}
    {blocks : List Statement} (h : blocks? ms schema = some (blocks, after))
    (hm : statements? m.changes after = none) : blocks? (ms ++ [m]) schema = none := by
  rw [blocks?_append, h, Option.bind_some, blocks?, hm]
  rfl

end Ddl

namespace Engine
open Ddl

/-! ### One migration -/

namespace Adapter
variable {w : World} {committed own : List Statement} {c : Change} {schema : State}

theorem apply_of_render (h : render c schema = .ok own) (held : List Statement) :
    scriptAdapter.inSession.apply c schema ⟨w, ⟨committed, some held⟩⟩ =
      .ok () ⟨w, ⟨committed, some (held ++ own)⟩⟩ := by
  simp [inSession, onConnection, scriptAdapter, onScript, Script.issue, h, Except.map, Script.push]

theorem apply_of_fault {fault : Fault} (h : render c schema = .error fault) (t : Session Script) :
    scriptAdapter.inSession.apply c schema t = .error fault.report t := by
  simp [inSession, onConnection, scriptAdapter, onScript, Script.issue, h, Except.map]

theorem abort_script (index : Nat) (pending : Option (List Statement)) :
    scriptAdapter.inSession.abort index ⟨w, ⟨committed, pending⟩⟩ = (false, ⟨w, ⟨committed, none⟩⟩) :=
  rfl

theorem begin_script (name : String) :
    scriptAdapter.inSession.transact scriptAdapter.inSession.begin name 0 ⟨w, ⟨committed, none⟩⟩ =
      .ok () ⟨w, ⟨committed, some []⟩⟩ :=
  rfl

theorem commit_script (name : String) (index : Nat) (held : List Statement) :
    scriptAdapter.inSession.transact scriptAdapter.inSession.commit name index
        ⟨w, ⟨committed, some held⟩⟩ =
      .ok () ⟨w, ⟨committed ++ block held, none⟩⟩ := by
  cases held with
  | nil =>
    simp [transact, inSession, onConnection, scriptAdapter, onScript, Script.commit, block]
  | cons statement rest =>
    simp [transact, inSession, onConnection, scriptAdapter, onScript, Script.commit, block]

/-- Changes that replay are all rendered into the open transaction, or the transaction is dropped. -/
theorem applyFrom_script {cs : List Change} {after : State} {position : Nat}
    (h : Change.applyFrom position cs schema = .ok after) (w : World) (committed held : List Statement)
    (name : String) (index : Nat) :
    (∃ own, statements? cs schema = some (own, after) ∧
      scriptAdapter.inSession.applyFrom name index cs schema ⟨w, ⟨committed, some held⟩⟩ =
        .ok after ⟨w, ⟨committed, some (held ++ own)⟩⟩) ∨
    ∃ i fault, statements? cs schema = none ∧
      scriptAdapter.inSession.applyFrom name index cs schema ⟨w, ⟨committed, some held⟩⟩ =
        .error (.adapter name i false fault) ⟨w, ⟨committed, none⟩⟩ := by
  induction cs generalizing schema position index held with
  | nil =>
    have hs : schema = after := by simpa [Change.applyFrom] using h
    subst hs
    exact .inl ⟨[], rfl, by rw [List.append_nil]; rfl⟩
  | cons c rest ih =>
    obtain ⟨next, hc, hrest⟩ := Change.applyFrom_cons_eq_ok_iff.1 h
    cases hr : render c schema with
    | error fault =>
      refine .inr ⟨index, fault.report, statements?_of_fault hr, ?_⟩
      simp only [applyFrom, apply_of_fault hr, abort_script]
    | ok first =>
      rw [statements?_cons hr hc]
      simp only [applyFrom, apply_of_render hr, hc]
      rcases ih hrest (held ++ first) (index + 1) with ⟨more, hs, hm⟩ | ⟨i, fault, hs, hm⟩
      · refine .inl ⟨first ++ more, by rw [hs]; rfl, ?_⟩
        rw [hm, List.append_assoc]
      · exact .inr ⟨i, fault, by rw [hs]; rfl, hm⟩

/-- A migration that replays is written to the script as one block, or leaves no trace there. -/
theorem run_script {m : Migration} {after : State} (h : Change.applyAll m.changes schema = .ok after)
    (w : World) (committed : List Statement) :
    (∃ own, statements? m.changes schema = some (own, after) ∧
      scriptAdapter.inSession.run m schema ⟨w, ⟨committed, none⟩⟩ =
        .ok after ⟨w, ⟨committed ++ block own, none⟩⟩) ∨
    ∃ index fault, statements? m.changes schema = none ∧
      scriptAdapter.inSession.run m schema ⟨w, ⟨committed, none⟩⟩ =
        .error (.adapter m.name index false fault) ⟨w, ⟨committed, none⟩⟩ := by
  rcases applyFrom_script h w committed [] m.name 0 with ⟨own, hs, hm⟩ | ⟨i, fault, hs, hm⟩
  · refine .inl ⟨own, hs, ?_⟩
    simp only [run, bind, EStateM.bind, begin_script, hm, List.nil_append, commit_script]
    rfl
  · refine .inr ⟨i, fault, hs, ?_⟩
    simp only [run, bind, EStateM.bind, begin_script, hm]

end Adapter

end Engine

end Schemata
