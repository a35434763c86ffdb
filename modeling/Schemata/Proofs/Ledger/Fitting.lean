import Schemata.Proofs.History.Growth
import Schemata.Proofs.Ledger.Position

/-! Which ledgers fit a chain, and what is said of those that do not.

A ledger fits when its entries are, name by name and digest by digest, a beginning of the chain (`Begins`). The
boundary that this draws through the chain is looked for in three ways: by counting entries, by the name of the
last one, and by that name again when the schema behind it is replayed. In a chain of distinct names they find
the same place. The first entry that does not fit is the one that is complained of (`Misfit`). -/
namespace Schemata.Ledger

variable {engine : String} {chain : List Migration} {entries front back : List Entry} {e : Entry}
  {failure : Failure}

/-- The entries are those of the first migrations of the chain, in order and with the digests that these have. -/
def Begins (entries : List Entry) (chain : List Migration) : Prop :=
  entries.map (fun e => (e.migration, e.checksum)) <+: chain.map fun m => (m.name, m.checksum)

theorem begins_iff : Begins entries chain ↔ Records entries (chain.take entries.length) := by
  rw [Begins, List.prefix_iff_eq_take, List.length_map, ← List.map_take]
  rfl

theorem begins_nil : Begins [] chain := List.nil_prefix

theorem begins_cons {m : Migration} :
    Begins (e :: entries) (m :: chain) ↔ m.name = e.migration ∧ m.checksum = e.checksum ∧ Begins entries chain := by
  rw [Begins, List.map_cons, List.map_cons, List.cons_prefix_cons, Prod.mk.injEq, and_assoc, eq_comm,
    @eq_comm _ e.checksum]
  rfl

/-- What is wrong with an entry, held against the migration in its place, if there is one. -/
inductive Misfit (engine : String) (e : Entry) : Option Migration → Failure → Prop
  | missing : Misfit engine e none (.ledgerMismatch engine e.migration)
  | other {m : Migration} (name : m.name ≠ e.migration) :
    Misfit engine e (some m) (.ledgerMismatch engine e.migration)
  | changed {m : Migration} (name : m.name = e.migration) (checksum : m.checksum ≠ e.checksum) :
    Misfit engine e (some m) (.checksumMismatch e.migration e.checksum m.checksum)

/-! ### Holding entries against a chain -/

theorem verifyEntries_of_begins (h : Begins entries chain) : verifyEntries engine chain entries = .ok () := by
  rw [← List.take_append_drop entries.length chain]
  exact verifyEntries_of_records (begins_iff.1 h) _

theorem begins_of_verifyEntries (h : verifyEntries engine chain entries = .ok ()) : Begins entries chain := by
  induction entries generalizing chain with
  | nil => exact begins_nil
  | cons e entries ih =>
    cases chain with
    | nil => cases h
    | cons m chain =>
      rw [verifyEntries] at h
      split at h
      · cases h
      · split at h
        · cases h
        · rename_i hname hchecksum
          exact begins_cons.2 ⟨Decidable.not_not.1 hname, Decidable.not_not.1 hchecksum, ih h⟩

/-- What is said when entries do not fit is said of the first that does not. -/
theorem exists_misfit (h : verifyEntries engine chain entries = .error failure) :
    ∃ front e back, entries = front ++ e :: back ∧ Begins front chain ∧
      Misfit engine e chain[front.length]? failure := by
  induction entries generalizing chain with
  | nil => cases chain <;> cases h
  | cons e entries ih =>
    cases chain with
    | nil =>
      cases h
      exact ⟨[], e, entries, rfl, begins_nil, .missing⟩
    | cons m chain =>
      rw [verifyEntries] at h
      split at h
      · rename_i hname
        cases h
        exact ⟨[], e, entries, rfl, begins_nil, .other hname⟩
      · rename_i hname
        have hname := Decidable.not_not.1 hname
        split at h
        · rename_i hchecksum
          cases h
          exact ⟨[], e, entries, rfl, begins_nil, .changed hname hchecksum⟩
        · rename_i hchecksum
          obtain ⟨front, x, back, rfl, hfront, hmisfit⟩ := ih h
          exact ⟨e :: front, x, back, rfl, begins_cons.2 ⟨hname, Decidable.not_not.1 hchecksum, hfront⟩, hmisfit⟩

theorem verifyEntries_of_misfit (back : List Entry) (hfront : Begins front chain)
    (h : Misfit engine e chain[front.length]? failure) : verifyEntries engine chain (front ++ e :: back) = .error failure := by
  induction front generalizing chain with
  | nil =>
    cases chain with
    | nil =>
      cases h
      rfl
    | cons m chain =>
      rw [List.nil_append, verifyEntries]
      cases h with
      | other hname => rw [if_pos hname]
      | changed hname hchecksum => rw [if_neg (not_not_intro hname), if_pos hchecksum]
  | cons x front ih =>
    cases chain with
    | nil => simp [Begins] at hfront
    | cons m chain =>
      obtain ⟨hname, hchecksum, hrest⟩ := begins_cons.1 hfront
      rw [List.cons_append, verifyEntries, if_neg (not_not_intro hname), if_neg (not_not_intro hchecksum)]
      exact ih hrest h

theorem not_begins_of_misfit (hfront : Begins front chain) (h : Misfit engine e chain[front.length]? failure) :
    ¬ Begins (front ++ [e]) chain := fun hbegins => by
  have herror := verifyEntries_of_misfit [] hfront h
  cases (verifyEntries_of_begins hbegins).symm.trans herror

/-! ### Where the ledger stands -/

theorem verify_of_begins (h : Begins entries chain) :
    verify engine chain entries = .ok ((chain.take entries.length).getLast?.map (·.name)) := by
  rw [verify, verifyEntries_of_begins h, ← (begins_iff.1 h).last]
  rfl

theorem verify_of_error (h : verifyEntries engine chain entries = .error failure) :
    verify engine chain entries = .error failure := by
  rw [verify, h]
  rfl

section Resolved
variable {migrations : List Migration} (h : Chain.resolve engine migrations = .ok chain)
include h

theorem nodup_split (n : Nat) : ((chain.take n ++ chain.drop n).map (·.name)).Nodup := by
  rw [List.take_append_drop]
  exact (Chain.linear_of_resolve h).2.1

theorem pending_of_begins (hbegins : Begins entries chain) :
    verify engine chain entries >>= Chain.pending engine chain = .ok (chain.drop entries.length) := by
  rw [verify_of_begins hbegins]
  show Chain.pending engine chain _ = _
  have hpending := @Chain.pending_append engine _ _ (nodup_split h entries.length)
  rwa [List.take_append_drop] at hpending

theorem through_of_begins (hbegins : Begins entries chain) :
    ∃ last, verify engine chain entries = .ok last ∧
      Replay.through chain last = Replay.run (chain.take entries.length) := by
  have hthrough := Replay.through_append (nodup_split h entries.length)
  rw [List.take_append_drop] at hthrough
  exact ⟨_, verify_of_begins hbegins, hthrough⟩

omit h in
theorem names_of_begins (hbegins : Begins entries chain) :
    entries.map (·.migration) ++ (chain.drop entries.length).map (·.name) = chain.map (·.name) := by
  rw [(begins_iff.1 hbegins).names, ← List.map_append, List.take_append_drop]

/-- **A ledger fits a chain exactly when its entries are a beginning of it.** Then the rest of the chain is pending
and the state to go on from is what the applied migrations lead to. Otherwise the first entry that does not fit is
named, with both digests where only these differ. -/
theorem verify_pending_iff (entries : List Entry) :
    (∀ rest, verify engine chain entries >>= Chain.pending engine chain = .ok rest ↔
      Begins entries chain ∧ rest = chain.drop entries.length) ∧
    (Begins entries chain →
      entries.map (·.migration) ++ (chain.drop entries.length).map (·.name) = chain.map (·.name) ∧
      ∃ last, verify engine chain entries = .ok last ∧
        Replay.through chain last = Replay.run (chain.take entries.length)) ∧
    (∀ failure, verify engine chain entries >>= Chain.pending engine chain = .error failure ↔
      ∃ front e back, entries = front ++ e :: back ∧ Begins front chain ∧ ¬ Begins (front ++ [e]) chain ∧
        Misfit engine e chain[front.length]? failure) := by
  have hstopped : ∀ failure, verifyEntries engine chain entries = .error failure →
      verify engine chain entries >>= Chain.pending engine chain = .error failure := fun failure hverify => by
    rw [verify_of_error hverify]
    rfl
  refine ⟨fun rest => ⟨fun hrest => ?_, ?_⟩, fun hbegins => ⟨names_of_begins hbegins, through_of_begins h hbegins⟩,
    fun failure => ⟨fun hfailure => ?_, ?_⟩⟩
  · cases hverify : verifyEntries engine chain entries with
    | error failure => cases hrest.symm.trans (hstopped failure hverify)
    | ok =>
      have hbegins := begins_of_verifyEntries hverify
      cases hrest.symm.trans (pending_of_begins h hbegins)
      exact ⟨hbegins, rfl⟩
  · rintro ⟨hbegins, rfl⟩
    exact pending_of_begins h hbegins
  · cases hverify : verifyEntries engine chain entries with
    | error failure' =>
      cases hfailure.symm.trans (hstopped failure' hverify)
      obtain ⟨front, e, back, hsplit, hfront, hmisfit⟩ := exists_misfit hverify
      exact ⟨front, e, back, hsplit, hfront, not_begins_of_misfit hfront hmisfit, hmisfit⟩
    | ok => cases hfailure.symm.trans (pending_of_begins h (begins_of_verifyEntries hverify))
  · rintro ⟨front, e, back, rfl, hfront, -, hmisfit⟩
    exact hstopped failure (verifyEntries_of_misfit back hfront hmisfit)

end Resolved

/-- Three migrations, the first of which is applied: the other two are pending. An entry of the third right behind it
is named, and so is one of the second whose digest is another now. -/
theorem verify_pending_iff_sample :
    let a : Migration := ⟨"a", "main", none, []⟩
    let b : Migration := ⟨"b", "main", some "a", []⟩
    let c : Migration := ⟨"c", "main", some "b", []⟩
    let entry (m : Migration) : Entry := ⟨m.name, "main", m.checksum, .ofSeconds 0⟩
    let stale : Entry := { entry b with checksum := b.checksum ++ "0" }
    let standing (entries : List Entry) := verify "main" [a, b, c] entries >>= Chain.pending "main" [a, b, c]
    Chain.resolve "main" [c, a, b] = .ok [a, b, c] ∧ standing [entry a] = .ok [b, c] ∧
      standing [entry a, entry c] = .error (.ledgerMismatch "main" "c") ∧
      standing [entry a, stale, entry c] = .error (.checksumMismatch "b" stale.checksum b.checksum) := by
  intro a b c entry stale standing
  have hresolved : Chain.resolve "main" [c, a, b] = .ok [a, b, c] :=
    Chain.resolve_of_linear (@List.perm_append_comm _ [a, b] [c]) (by decide) (by decide)
  have hfirst : Begins [entry a] [a, b, c] := begins_cons.2 ⟨rfl, rfl, begins_nil⟩
  have hother : Misfit "main" (entry c) (some b) (.ledgerMismatch "main" "c") := .other (by decide)
  have hchanged : Misfit "main" stale (some b) (.checksumMismatch "b" stale.checksum b.checksum) := by
    refine .changed rfl fun hsame => ?_
    have hlength := congrArg String.length hsame
    simp [stale] at hlength
  refine ⟨hresolved, ((verify_pending_iff hresolved _).1 _).2 ⟨hfirst, rfl⟩, ?_, ?_⟩
  · exact ((verify_pending_iff hresolved _).2.2 _).2
      ⟨[entry a], entry c, [], rfl, hfirst, not_begins_of_misfit hfirst hother, hother⟩
  · exact ((verify_pending_iff hresolved _).2.2 _).2
      ⟨[entry a], stale, [entry c], rfl, hfirst, not_begins_of_misfit hfirst hchanged, hchanged⟩

end Schemata.Ledger
