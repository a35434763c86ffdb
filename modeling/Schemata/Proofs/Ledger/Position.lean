import Schemata.Ledger.Verify
import Schemata.Proofs.History.Linear
import Schemata.Proofs.History.Replay

/-! Where a ledger stands on a chain.

Entries that record the first part of a chain are found to fit it, the rest of the chain is pending, and the state
to go on from is that of the first part. -/
namespace Schemata

variable {engine : String} {done rest : List Migration}

namespace Ledger

/-- The entries are those of the migrations, in their order and with the digests that they have. -/
def Records (entries : List Entry) (done : List Migration) : Prop :=
  entries.map (fun e => (e.migration, e.checksum)) = done.map fun m => (m.name, m.checksum)

variable {entries : List Entry}

theorem Records.names (h : Records entries done) : entries.map (·.migration) = done.map (·.name) := by
  have hfst := congrArg (List.map Prod.fst) h
  simpa [Function.comp_def] using hfst

theorem Records.last (h : Records entries done) :
    entries.getLast?.map (·.migration) = done.getLast?.map (·.name) := by
  rw [← List.getLast?_map, ← List.getLast?_map, h.names]

theorem Records.concat (h : Records entries done) (m : Migration) (now : Calendar.Instant) :
    Records (entries ++ [⟨m.name, engine, m.checksum, now⟩]) (done ++ [m]) := by
  simp [Records, h.symm]

theorem verifyEntries_of_records (h : Records entries done) (rest : List Migration) :
    verifyEntries engine (done ++ rest) entries = .ok () := by
  induction done generalizing entries with
  | nil =>
    obtain rfl : entries = [] := by simpa [Records] using h
    rw [verifyEntries]
  | cons m done ih =>
    cases entries with
    | nil => simp [Records] at h
    | cons e entries =>
      simp only [Records, List.map_cons, List.cons.injEq, Prod.mk.injEq] at h
      obtain ⟨⟨hname, hchecksum⟩, h⟩ := h
      rw [List.cons_append, verifyEntries, if_neg (fun hne => hne hname.symm),
        if_neg (fun hne => hne hchecksum.symm)]
      exact ih h

end Ledger

/-! ### The last migration of a part -/

section Last
variable (hnames : ((done ++ rest).map (·.name)).Nodup)
include hnames

theorem walks_to_last {front : List Migration} {m : Migration} (hdone : done = front ++ [m]) :
    (done ++ rest).dropWhile (·.name ≠ m.name) = m :: rest ∧
      (done ++ rest).takeWhile (·.name ≠ m.name) = front := by
  subst hdone
  rw [List.append_assoc, List.map_append, List.nodup_append] at hnames
  have hfront : ∀ x ∈ front, decide (x.name ≠ m.name) = true := fun x hx =>
    decide_eq_true (hnames.2.2 x.name (List.mem_map_of_mem hx) m.name (by simp))
  rw [List.append_assoc, List.dropWhile_append_of_pos hfront, List.takeWhile_append_of_pos hfront]
  simp

theorem Chain.pending_append : pending engine (done ++ rest) (done.getLast?.map (·.name)) = .ok rest := by
  rcases List.eq_nil_or_concat done with rfl | ⟨front, m, hdone⟩
  · rfl
  · rw [List.concat_eq_append] at hdone
    have hlast : done.getLast?.map (·.name) = some m.name := by simp [hdone]
    simp only [pending, hlast, (walks_to_last hnames hdone).1]

theorem Replay.through_append : through (done ++ rest) (done.getLast?.map (·.name)) = run done := by
  rcases List.eq_nil_or_concat done with rfl | ⟨front, m, hdone⟩
  · rfl
  · rw [List.concat_eq_append] at hdone
    have hlast : done.getLast?.map (·.name) = some m.name := by simp [hdone]
    obtain ⟨hdrop, htake⟩ := walks_to_last hnames hdone
    simp only [through, hlast, runTo, upTo?, hdrop, htake, ← hdone]

end Last

end Schemata
