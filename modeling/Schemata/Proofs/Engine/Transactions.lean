import Schemata.Proofs.Engine.Script

/-! Transactions of a script, whatever calls there are in whatever order.

Calls can be read transaction by transaction: outside of one each call counts by itself, and a `begin` counts
together with everything up to the first `commit` or `rollback` behind it (`Reads`). What a script shows, and what it
holds back, is what this reading says (`reads_iff`): the statements of a transaction appear all together and in order,
as one block, once it is committed, and never if it is taken back. Calls that fail leave the script as it is, and
which calls fail is a matter of the calls before (`transactions_kept`). -/
namespace Schemata.Engine
open Ddl

/-! ### Calls -/

inductive ScriptCall
  | begin
  | apply (change : Change) (schema : State)
  | commit
  | rollback
  | drain

/-- What became of a script: the statements that were taken out of it, and the script. -/
structure ScriptRecord where
  taken : List Statement := []
  script : Script := {}

/-- All statements that have been seen among the committed ones, in order. -/
def ScriptRecord.shown (r : ScriptRecord) : List Statement := r.taken ++ r.script.committed

namespace ScriptCall

/-- The call, with the statements that it takes out of the script. -/
def exchange : ScriptCall → Exchange Script (List Statement)
  | .begin => do scriptAdapter.begin; return []
  | .apply change schema => do scriptAdapter.apply change schema; return []
  | .commit => do scriptAdapter.commit; return []
  | .rollback => do scriptAdapter.rollback; return []
  | .drain => fun s => .ok s.drain.1 s.drain.2

/-- The record after the call, whether it fails or not. -/
def step (r : ScriptRecord) (call : ScriptCall) : ScriptRecord :=
  match call.exchange r.script with
  | .ok taken script => ⟨r.taken ++ taken, script⟩
  | .error _ script => ⟨r.taken, script⟩

/-- What becomes of a new script by calls in a row. -/
def runAll (calls : List ScriptCall) : ScriptRecord := calls.foldl step {}

/-- The statements that the call issues: those of its change, all of them or, if one cannot be rendered, none. -/
def issued : ScriptCall → List Statement
  | .apply change schema => (render change schema).toOption.getD []
  | _ => []

/-- Whether the call begins a transaction (`true`) or ends one (`false`). -/
def opens? : ScriptCall → Option Bool
  | .begin => some true
  | .commit | .rollback => some false
  | .apply _ _ | .drain => none

/-- Why the call fails when a transaction is open, or none is: a transaction is not begun within another, none is
committed that was not begun, and a change may have no statements. -/
def fault? (isOpen : Bool) : ScriptCall → Option Fault
  | .begin => if isOpen then some .transactionOpen else none
  | .commit => if isOpen then none else some .noTransaction
  | .apply change schema =>
    match render change schema with
    | .ok _ => none
    | .error fault => some fault
  | .rollback | .drain => none

/-! ### Reading calls transaction by transaction -/

/-- The last call that begins or ends a transaction begins one. -/
def openAfter (calls : List ScriptCall) : Bool := (calls.reverse.findSome? opens?).getD false

/-- The statements that the calls show in the end, and those that they hold back in an open transaction. -/
inductive Reads : List ScriptCall → List Statement → Option (List Statement) → Prop
  | nil : Reads [] [] none
  | outside {call : ScriptCall} {rest shown held} :
    call ≠ .begin → Reads rest shown held → Reads (call :: rest) (call.issued ++ shown) held
  | committed {inner rest shown held} :
    (∀ call ∈ inner, call.opens? ≠ some false) → Reads rest shown held →
      Reads (.begin :: inner ++ .commit :: rest) (block (inner.flatMap issued) ++ shown) held
  | takenBack {inner rest shown held} :
    (∀ call ∈ inner, call.opens? ≠ some false) → Reads rest shown held →
      Reads (.begin :: inner ++ .rollback :: rest) shown held
  | pending {inner} :
    (∀ call ∈ inner, call.opens? ≠ some false) → Reads (.begin :: inner) [] (some (inner.flatMap issued))

/-- Every list of calls can be read, from its start and from within a transaction. -/
theorem exists_reads (calls : List ScriptCall) :
    (∃ shown held, Reads calls shown held) ∧
      ∀ inner : List ScriptCall, (∀ call ∈ inner, call.opens? ≠ some false) →
        ∃ shown held, Reads (.begin :: inner ++ calls) shown held := by
  induction calls with
  | nil =>
    refine ⟨⟨_, _, .nil⟩, fun inner hinner => ?_⟩
    rw [List.append_nil]
    exact ⟨_, _, .pending hinner⟩
  | cons call rest ih =>
    obtain ⟨⟨shown, held, hrest⟩, hwithin⟩ := ih
    have hlonger : call.opens? ≠ some false → ∀ inner : List ScriptCall, (∀ c ∈ inner, c.opens? ≠ some false) →
        ∃ shown held, Reads (.begin :: inner ++ call :: rest) shown held := by
      intro hcall inner hinner
      have hmore : ∀ c ∈ inner ++ [call], c.opens? ≠ some false := by
        intro c hc
        rcases List.mem_append.1 hc with hc | hc
        · exact hinner c hc
        · exact List.mem_singleton.1 hc ▸ hcall
      simpa using hwithin (inner ++ [call]) hmore
    cases call with
    | begin => exact ⟨by simpa using hwithin [] (by simp), hlonger (by simp [opens?])⟩
    | apply => exact ⟨⟨_, _, .outside nofun hrest⟩, hlonger (by simp [opens?])⟩
    | commit => exact ⟨⟨_, _, .outside nofun hrest⟩, fun inner hinner => ⟨_, _, .committed hinner hrest⟩⟩
    | rollback => exact ⟨⟨_, _, .outside nofun hrest⟩, fun inner hinner => ⟨_, _, .takenBack hinner hrest⟩⟩
    | drain => exact ⟨⟨_, _, .outside nofun hrest⟩, hlonger (by simp [opens?])⟩

/-! ### One call -/

/-- The statements of a change that can be rendered are pushed, all of them. -/
theorem apply_rendered {s : Script} {change : Change} {schema : State} {own : List Statement}
    (h : render change schema = .ok own) : scriptAdapter.apply change schema s = .ok () (s.push own) := by
  simp [scriptAdapter, onScript, Script.issue, h, Except.map]

section Steps
variable {s : Script} {r : ScriptRecord} {call : ScriptCall} {change : Change} {schema : State} {held own : List Statement}

/-- A call that fails leaves the script alone. -/
theorem exchange_of_fault {fault : Fault} (h : call.fault? s.pending.isSome = some fault) :
    call.exchange s = .error fault.report s := by
  cases call with
  | begin =>
    simp only [fault?] at h
    split at h <;> cases h
    rename_i hopen
    simp [exchange, scriptAdapter, onScript, Script.begin, hopen, bind, EStateM.bind]
  | commit =>
    simp only [fault?] at h
    split at h <;> cases h
    rename_i hclosed
    have hnone : s.pending = none := by simpa using hclosed
    simp [exchange, scriptAdapter, onScript, Script.commit, hnone, bind, EStateM.bind]
  | apply change schema =>
    simp only [fault?] at h
    split at h <;> cases h
    rename_i hrender
    simp [exchange, scriptAdapter, onScript, Script.issue, hrender, Except.map, bind, EStateM.bind]
  | rollback => cases h
  | drain => cases h

theorem exchange_begin (h : s.pending = none) : exchange .begin s = .ok [] { s with pending := some [] } := by
  simp [exchange, scriptAdapter, onScript, Script.begin, h, bind, EStateM.bind, pure, EStateM.pure]

theorem exchange_apply (h : render change schema = .ok own) :
    exchange (.apply change schema) s = .ok [] (s.push own) := by
  simp [exchange, apply_rendered h, bind, EStateM.bind, pure, EStateM.pure]

theorem exchange_commit (h : s.pending = some held) :
    exchange .commit s = .ok [] ⟨s.committed ++ block held, none⟩ := by
  cases held with
  | nil => simp [exchange, scriptAdapter, onScript, Script.commit, h, block, bind, EStateM.bind, pure, EStateM.pure]
  | cons first rest =>
    simp [exchange, scriptAdapter, onScript, Script.commit, h, block, bind, EStateM.bind, pure, EStateM.pure]

theorem exchange_rollback (s : Script) : exchange .rollback s = .ok [] s.rollback := rfl

theorem exchange_drain (s : Script) : exchange .drain s = .ok s.committed { s with committed := [] } := rfl

theorem step_of_fault (fault : Fault) (h : call.fault? r.script.pending.isSome = some fault) : step r call = r := by
  rw [step, exchange_of_fault h]

theorem step_drain (r : ScriptRecord) :
    (step r .drain).shown = r.shown ∧ (step r .drain).script.pending = r.script.pending := by
  simp [step, exchange_drain, ScriptRecord.shown]

/-- Outside of a transaction, what a call issues is seen at once. -/
theorem step_outside (hcall : call ≠ .begin) (hr : r.script.pending = none) :
    (step r call).shown = r.shown ++ call.issued ∧ (step r call).script.pending = none := by
  cases call with
  | begin => exact absurd rfl hcall
  | apply change schema =>
    cases h : render change schema with
    | error fault =>
      rw [step_of_fault fault (by simp [fault?, h])]
      simp [issued, h, hr, Except.toOption]
    | ok own => simp [step, exchange_apply h, Script.push, hr, ScriptRecord.shown, issued, h, Except.toOption]
  | commit =>
    rw [step_of_fault .noTransaction (by simp [fault?, hr])]
    simp [issued, hr]
  | rollback => simp [step, exchange_rollback, Script.rollback, ScriptRecord.shown, issued]
  | drain =>
    obtain ⟨hshown, hpending⟩ := step_drain r
    rw [hshown, hpending]
    simp [issued, hr]

/-- Within a transaction, what a call issues is held back behind what is held back already. -/
theorem step_inside (hcall : call.opens? ≠ some false) (hr : r.script.pending = some held) :
    (step r call).shown = r.shown ∧ (step r call).script.pending = some (held ++ call.issued) := by
  cases call with
  | begin =>
    rw [step_of_fault .transactionOpen (by simp [fault?, hr])]
    simp [issued, hr]
  | apply change schema =>
    cases h : render change schema with
    | error fault =>
      rw [step_of_fault fault (by simp [fault?, h])]
      simp [issued, h, hr, Except.toOption]
    | ok own => simp [step, exchange_apply h, Script.push, hr, ScriptRecord.shown, issued, h, Except.toOption]
  | commit => exact absurd rfl hcall
  | rollback => exact absurd rfl hcall
  | drain =>
    obtain ⟨hshown, hpending⟩ := step_drain r
    rw [hshown, hpending]
    simp [issued, hr]

theorem step_begin (hr : r.script.pending = none) :
    (step r .begin).shown = r.shown ∧ (step r .begin).script.pending = some [] := by
  simp [step, exchange_begin hr, ScriptRecord.shown]

theorem step_commit (hr : r.script.pending = some held) :
    (step r .commit).shown = r.shown ++ block held ∧ (step r .commit).script.pending = none := by
  simp [step, exchange_commit hr, ScriptRecord.shown]

theorem step_rollback (r : ScriptRecord) :
    (step r .rollback).shown = r.shown ∧ (step r .rollback).script.pending = none := by
  simp [step, exchange_rollback, Script.rollback, ScriptRecord.shown]

end Steps

/-! ### Calls in a row -/

/-- Calls within a transaction: all that they issue is held back, in order. -/
theorem foldl_inside {inner : List ScriptCall} (hinner : ∀ call ∈ inner, call.opens? ≠ some false) {r : ScriptRecord}
    {held : List Statement} (hr : r.script.pending = some held) :
    (inner.foldl step r).shown = r.shown ∧
      (inner.foldl step r).script.pending = some (held ++ inner.flatMap issued) := by
  induction inner generalizing r held with
  | nil => simp [hr]
  | cons call rest ih =>
    obtain ⟨hcall, hrest⟩ := List.forall_mem_cons.1 hinner
    obtain ⟨hshown, hpending⟩ := step_inside hcall hr
    obtain ⟨hshown', hpending'⟩ := ih hrest hpending
    exact ⟨hshown'.trans hshown, by rw [List.foldl_cons, hpending', List.flatMap_cons, List.append_assoc]⟩

/-- A transaction so far. -/
theorem foldl_begun {inner : List ScriptCall} (hinner : ∀ call ∈ inner, call.opens? ≠ some false) {r : ScriptRecord}
    (hr : r.script.pending = none) :
    ((ScriptCall.begin :: inner).foldl step r).shown = r.shown ∧
      ((ScriptCall.begin :: inner).foldl step r).script.pending = some (inner.flatMap issued) := by
  obtain ⟨hshown, hpending⟩ := step_begin hr
  obtain ⟨hshown', hpending'⟩ := foldl_inside hinner hpending
  exact ⟨hshown'.trans hshown, hpending'⟩

/-- **What is read is what becomes of a script.** -/
theorem Reads.foldl {calls : List ScriptCall} {shown : List Statement} {held : Option (List Statement)}
    (h : Reads calls shown held) {r : ScriptRecord} (hr : r.script.pending = none) :
    (calls.foldl step r).shown = r.shown ++ shown ∧ (calls.foldl step r).script.pending = held := by
  induction h generalizing r with
  | nil => exact ⟨(List.append_nil _).symm, hr⟩
  | outside hcall _ ih =>
    obtain ⟨hshown, hpending⟩ := step_outside hcall hr
    obtain ⟨hshown', hpending'⟩ := ih hpending
    exact ⟨by rw [List.foldl_cons, hshown', hshown, List.append_assoc], hpending'⟩
  | committed hinner _ ih =>
    obtain ⟨hshown, hpending⟩ := foldl_begun hinner hr
    obtain ⟨hshown', hpending'⟩ := step_commit hpending
    obtain ⟨hrest, hheld⟩ := ih hpending'
    rw [List.foldl_append, List.foldl_cons]
    exact ⟨by rw [hrest, hshown', hshown, List.append_assoc], hheld⟩
  | takenBack hinner _ ih =>
    obtain ⟨hshown, -⟩ := foldl_begun hinner hr
    obtain ⟨hshown', hpending'⟩ := step_rollback ((ScriptCall.begin :: _).foldl step r)
    obtain ⟨hrest, hheld⟩ := ih hpending'
    rw [List.foldl_append, List.foldl_cons]
    exact ⟨by rw [hrest, hshown', hshown], hheld⟩
  | pending hinner =>
    obtain ⟨hshown, hpending⟩ := foldl_begun hinner hr
    exact ⟨by rw [hshown, List.append_nil], hpending⟩

theorem reads_iff {calls : List ScriptCall} {shown : List Statement} {held : Option (List Statement)} :
    Reads calls shown held ↔ (runAll calls).shown = shown ∧ (runAll calls).script.pending = held := by
  constructor
  · exact fun h => h.foldl rfl
  · rintro ⟨rfl, rfl⟩
    obtain ⟨⟨shown, held, h⟩, -⟩ := exists_reads calls
    obtain ⟨hshown, hheld⟩ : (runAll calls).shown = shown ∧ (runAll calls).script.pending = held := h.foldl rfl
    rwa [hshown, hheld]

theorem isSome_step (r : ScriptRecord) (call : ScriptCall) :
    (step r call).script.pending.isSome = call.opens?.getD r.script.pending.isSome := by
  cases hr : r.script.pending with
  | none =>
    by_cases hbegin : call = .begin
    · rw [hbegin, (step_begin hr).2]
      rfl
    · rw [(step_outside hbegin hr).2]
      cases call with
      | begin => exact absurd rfl hbegin
      | _ => rfl
  | some held =>
    by_cases hends : call.opens? = some false
    · cases call with
      | commit => rw [(step_commit hr).2]; rfl
      | rollback => rw [(step_rollback r).2]; rfl
      | _ => cases hends
    · rw [(step_inside hends hr).2]
      cases call with
      | commit | rollback => exact absurd rfl hends
      | _ => rfl

theorem isSome_foldl (calls : List ScriptCall) (r : ScriptRecord) :
    (calls.foldl step r).script.pending.isSome =
      (calls.reverse.findSome? opens?).getD r.script.pending.isSome := by
  induction calls generalizing r with
  | nil => rfl
  | cons call rest ih =>
    rw [List.foldl_cons, ih, isSome_step, List.reverse_cons, List.findSome?_append]
    cases rest.reverse.findSome? opens? <;> simp

/-- Whether a transaction is open is a matter of the last call that begins or ends one. -/
theorem isSome_pending (calls : List ScriptCall) : (runAll calls).script.pending.isSome = openAfter calls :=
  isSome_foldl calls {}

end ScriptCall

/-! ### Atomic transactions -/

/-- What calls in a row, and any further call, come to. -/
structure KeepsTransactions (calls : List ScriptCall) : Prop where
  /-- What is shown and what is held back is what is read, transaction by transaction. -/
  reads : ∀ shown held, ScriptCall.Reads calls shown held ↔
    (ScriptCall.runAll calls).shown = shown ∧ (ScriptCall.runAll calls).script.pending = held
  /-- A further call fails for the reasons there are, and changes nothing then. -/
  fails : ∀ (call : ScriptCall) fault, call.fault? (ScriptCall.openAfter calls) = some fault →
    call.exchange (ScriptCall.runAll calls).script = .error fault.report (ScriptCall.runAll calls).script
  /-- It succeeds when there is no reason. -/
  succeeds : ∀ call : ScriptCall, call.fault? (ScriptCall.openAfter calls) = none →
    ∃ taken script, call.exchange (ScriptCall.runAll calls).script = .ok taken script
  /-- The statements of a further change come one after the other, behind those that the open transaction holds back or,
  where none is open, behind those that are committed. -/
  applies : ∀ change schema own, render change schema = .ok own →
    let s := (ScriptCall.runAll calls).script
    scriptAdapter.apply change schema s = .ok ()
      (if ScriptCall.openAfter calls then { s with pending := s.pending.map (· ++ own) }
        else { s with committed := s.committed ++ own })

theorem exists_exchange {s : Script} {call : ScriptCall} (h : call.fault? s.pending.isSome = none) :
    ∃ taken script, call.exchange s = .ok taken script := by
  cases call with
  | begin =>
    have hnone : s.pending = none := by simpa [ScriptCall.fault?] using h
    exact ⟨_, _, ScriptCall.exchange_begin hnone⟩
  | commit =>
    have hsome : s.pending ≠ none := by simpa [ScriptCall.fault?] using h
    obtain ⟨held, hheld⟩ := Option.ne_none_iff_exists'.1 hsome
    exact ⟨_, _, ScriptCall.exchange_commit hheld⟩
  | apply change schema =>
    simp only [ScriptCall.fault?] at h
    split at h
    · exact ⟨_, _, ScriptCall.exchange_apply ‹_›⟩
    · cases h
  | rollback => exact ⟨_, _, ScriptCall.exchange_rollback s⟩
  | drain => exact ⟨_, _, ScriptCall.exchange_drain s⟩

theorem push_eq (s : Script) (own : List Statement) :
    s.push own = if s.pending.isSome then { s with pending := s.pending.map (· ++ own) }
      else { s with committed := s.committed ++ own } := by
  rw [Script.push]
  cases s.pending <;> rfl

/-- **Transactions are kept**, whatever calls there are, in whatever order, and whichever of them fail. -/
theorem transactions_kept (calls : List ScriptCall) : KeepsTransactions calls where
  reads _ _ := ScriptCall.reads_iff
  fails call fault h := ScriptCall.exchange_of_fault (ScriptCall.isSome_pending calls ▸ h)
  succeeds call h := exists_exchange (ScriptCall.isSome_pending calls ▸ h)
  applies change schema own h := by
    intro s
    have hopen : ScriptCall.openAfter calls = s.pending.isSome := (ScriptCall.isSome_pending calls).symm
    rw [hopen, ← push_eq]
    exact ScriptCall.apply_rendered h

/-- A transaction out of which nothing can be drained, and a second beginning that fails. -/
example : (ScriptCall.runAll [.begin, .apply (.deleteModel "tag") .empty, .drain, .begin, .commit, .commit]).shown =
    [.begin, .dropTable "tag", .commit] := rfl

end Schemata.Engine
