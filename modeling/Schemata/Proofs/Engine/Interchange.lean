import Schemata.Proofs.Engine.Ledger
import Schemata.Proofs.History.Name
import Schemata.Proofs.Ledger.Keeping

/-! Ledgers in memory and in files answer alike.

What a ledger has to answer is a matter of the calls before (`expected`). A ledger in memory answers that, and so does
one that began in an empty directory, whatever engines the calls are about, and although every call opens it anew: of a
ledger of files nothing lives on but the path (`answer_expected`). Only a name that is too long for a file makes a
difference: then the answers are unlike (`answers_unlike_of_long_name`). -/
namespace Schemata

/-! ### Names that are not too long -/

namespace EngineName

theorem toNat_le_of_isNameChar {c : Char} (h : isNameChar c = true) : c.toNat ≤ 127 := by
  simp only [isNameChar, Bool.or_eq_true, beq_iff_eq] at h
  obtain (h | rfl) | rfl := h
  · exact Nat.le_trans (Text.toNat_of_isAlphanum h).2 (by decide)
  · decide
  · decide

end EngineName

/-- The file beside that of the entries has the longest of the names. -/
theorem Ledger.Files.isName_beside_iff {engine : String} (hv : EngineName.isValid engine = true) :
    Store.Disk.isName (besideName engine) = true ↔ engine.length ≤ 246 := by
  rw [EngineName.isValid, Bool.and_eq_true] at hv
  have hsize : engine.utf8ByteSize = engine.length :=
    Text.utf8ByteSize_eq_length fun c hc => EngineName.toNat_le_of_isNameChar (List.all_eq_true.1 hv.2 c hc)
  have hzero : (besideName engine).toList.contains '\x00' = false := by
    have hnot : '\x00' ∉ engine.toList := fun hmem => absurd (List.all_eq_true.1 hv.2 _ hmem) (by decide)
    simpa [besideName] using hnot
  have hnine : ".toml.tmp".utf8ByteSize = 9 := by decide
  rw [Store.Disk.isName, hzero, besideName, String.utf8ByteSize_append, hsize, hnine]
  simp

namespace Engine
open Ledger Store Disk

/-! ### Calls -/

inductive LedgerRequest
  | record (migration checksum : String)
  | applied
  | last

/-- A request about an engine, at a time of the clock. -/
structure LedgerCall where
  engine : String
  request : LedgerRequest
  now : Calendar.Instant

inductive LedgerAnswer
  | recorded
  | entries (entries : List Entry)
  | last (entry : Option Entry)

namespace LedgerCall

/-- The answer to a call, and the world behind it. -/
def run (l : LedgerPlace) (c : LedgerCall) (w : World) : Except Failure LedgerAnswer × World :=
  let w := { w with now := c.now }
  match c.request with
  | .record migration checksum =>
    match l.record migration c.engine checksum w with
    | .ok _ w => (.ok .recorded, w)
    | .error failure w => (.error failure, w)
  | .applied => ((l.applied w c.engine).map .entries, w)
  | .last => ((l.last? w c.engine).map .last, w)

/-- The world behind calls in a row, whatever they were answered. -/
def runAll (l : LedgerPlace) (calls : List LedgerCall) (w : World) : World :=
  calls.foldl (fun w c => (c.run l w).2) w

/-- The entry that a call is to add. -/
def entry? (c : LedgerCall) : Option Entry :=
  match c.request with
  | .record migration checksum => some ⟨migration, c.engine, checksum, c.now⟩
  | _ => none

end LedgerCall

/-- The entries of an engine, in the order in which they were to be recorded. -/
def entriesOf (calls : List LedgerCall) (engine : String) : List Entry :=
  (calls.filterMap LedgerCall.entry?).filter (·.engine == engine)

/-- The answer to a call behind others. -/
def expected (before : List LedgerCall) (c : LedgerCall) : LedgerAnswer :=
  match c.request with
  | .record _ _ => .recorded
  | .applied => .entries (entriesOf before c.engine)
  | .last => .last (entriesOf before c.engine).getLast?

theorem entriesOf_concat (before : List LedgerCall) (c : LedgerCall) (engine : String) :
    entriesOf (before ++ [c]) engine = entriesOf before engine ++ (c.entry?.filter (·.engine == engine)).toList := by
  rw [entriesOf, List.filterMap_append, List.filter_append, ← entriesOf]
  cases h : c.entry? with
  | none => simp [h]
  | some e => 
    cases he : e.engine == engine <;> simp [h, he, Option.filter]

/-- A world that says what it should is asked. -/
theorem LedgerCall.run_eq {l : LedgerPlace} {before : List LedgerCall} {c : LedgerCall} {w : World}
    (ha : l.applied w c.engine = .ok (entriesOf before c.engine))
    (hr : ∀ migration checksum, ∃ w', l.record migration c.engine checksum { w with now := c.now } = .ok () w') :
    (c.run l w).1 = .ok (expected before c) := by
  have ha : l.applied { w with now := c.now } c.engine = .ok (entriesOf before c.engine) := by
    cases l <;> exact ha
  rw [run, expected]
  cases hrequest : c.request with
  | record migration checksum =>
    obtain ⟨w', hw'⟩ := hr migration checksum
    simp only [hw']
  | applied =>
    simp only [ha]
    rfl
  | last =>
    simp only [LedgerPlace.last?, ha]
    rfl

/-! ### In memory -/

theorem entries_runAll (before : List LedgerCall) (w : World) :
    (LedgerCall.runAll .memory before w).memory.entries = w.memory.entries ++ before.filterMap LedgerCall.entry? := by
  induction before generalizing w with
  | nil => exact (List.append_nil _).symm
  | cons c rest ih =>
    have hstep : (c.run .memory w).2.memory.entries = w.memory.entries ++ c.entry?.toList := by
      rw [LedgerCall.run, LedgerCall.entry?]
      cases c.request with
      | record migration checksum => rfl
      | applied => exact (List.append_nil _).symm
      | last => exact (List.append_nil _).symm
    have hrest : LedgerCall.runAll .memory (c :: rest) w = LedgerCall.runAll .memory rest (c.run .memory w).2 := rfl
    rw [hrest, ih, hstep, List.append_assoc, List.filterMap_cons]
    cases c.entry? <;> rfl

/-! ### In files -/

/-- A directory in good order in which nothing is, or which is not there yet. -/
structure Vacant (d : Disk) (path : Path) (p : Place) : Prop where
  wellFormed : d.WellFormed
  opens : d.Opens [] path.steps p
  empty : ∀ name, Path.IsFileName name → d.node? (p ++ [name]) = none

/-- The ledger says of every engine what it should, as far as the names of its files are not too long. -/
structure Telling (path : Path) (p : Place) (before : List LedgerCall) (w : World) : Prop where
  wellFormed : w.disk.WellFormed
  opens : w.disk.Opens [] path.steps p
  takes : ∀ engine, EngineName.isValid engine = true → isName (Files.besideName engine) = true →
    Files.Takes w.disk path p engine (entriesOf before engine)

section Directories
variable {path : Path} {p : Place} {before : List LedgerCall} {c : LedgerCall} {w : World}

theorem telling_of_vacant (h : Vacant w.disk path p) : Telling path p [] w := by
  refine ⟨h.wellFormed, h.opens, fun engine hv hfits => ?_⟩
  have hentries := h.empty _ (Files.isFileName_entries hv)
  have hbeside := h.empty _ (Files.isFileName_beside hv)
  exact ⟨ne_directory_of_none hentries, ne_directory_of_none hbeside,
    Files.applied_of_none hv h.wellFormed.rooted h.opens (Files.isName_of_beside hfits) hentries⟩

/-- Recording about one engine, with whatever result, leaves the others alone. -/
theorem Telling.record (h : Telling path p before w) {e : Entry} (hnow : e.appliedAt.Proper) {d : Disk}
    (hd : Files.record path e w.disk = .ok () d ∨ ∃ failure, Files.record path e w.disk = .error failure d)
    (he : c.entry? = some e) (now : Calendar.Instant) : Telling path p (before ++ [c]) { w with disk := d, now } := by
  obtain ⟨hwf, hopens, hchanges⟩ := Files.record_changes h.wellFormed h.opens hd
  refine ⟨hwf, hopens, fun engine hv hfits => ?_⟩
  have htakes := h.takes engine hv hfits
  rw [entriesOf_concat, he]
  by_cases hown : e.engine = engine
  · subst hown
    obtain ⟨d', hrecord, hafter⟩ := htakes.record_eq h.wellFormed h.opens hv hfits
      (Files.read_write_concat htakes.reads hnow)
    rw [hrecord] at hd
    obtain rfl : d' = d := by simpa using hd
    simpa [Option.filter] using hafter
  · have hlength (name : String) : ¬ (p ++ [name] ∈ placesFrom [] path.steps ∧ p ++ [name] <+: p) :=
      fun hq => absurd hq.2.length_le (by simp)
    have hother := htakes.of_changes h.wellFormed h.opens hown hwf hopens hchanges hlength
      (Files.isName_of_beside hfits)
    simpa [Option.filter, hown] using hother

/-- What one call leaves. -/
theorem Telling.run (h : Telling path p before w) (hnow : c.now.Proper) :
    Telling path p (before ++ [c]) (c.run (.directory path) w).2 := by
  have hread (hnone : c.entry? = none) : Telling path p (before ++ [c]) { w with now := c.now } := by
    refine ⟨h.wellFormed, h.opens, fun engine hv hfits => ?_⟩
    have hsame : entriesOf (before ++ [c]) engine = entriesOf before engine := by simp [entriesOf_concat, hnone]
    exact hsame ▸ h.takes engine hv hfits
  rw [LedgerCall.run]
  cases hrequest : c.request with
  | applied => exact hread (by rw [LedgerCall.entry?, hrequest])
  | last => exact hread (by rw [LedgerCall.entry?, hrequest])
  | record migration checksum =>
    have he : c.entry? = some ⟨migration, c.engine, checksum, c.now⟩ := by rw [LedgerCall.entry?, hrequest]
    simp only [LedgerPlace.record, World.onDisk]
    cases hd : Files.record path ⟨migration, c.engine, checksum, c.now⟩ w.disk with
    | ok _ d => exact h.record hnow (.inl hd) he c.now
    | error failure d => exact h.record hnow (.inr ⟨failure, hd⟩) he c.now

theorem Telling.runAll {calls : List LedgerCall} (h : Telling path p before w)
    (hnow : ∀ call ∈ calls, call.now.Proper) :
    Telling path p (before ++ calls) (LedgerCall.runAll (.directory path) calls w) := by
  induction calls generalizing before w with
  | nil =>
    rw [List.append_nil]
    exact h
  | cons c rest ih =>
    rw [List.forall_mem_cons] at hnow
    rw [List.append_cons]
    exact ih (h.run hnow.1) hnow.2

theorem Telling.exists_record (h : Telling path p before w) (hv : EngineName.isValid c.engine = true)
    (hfits : isName (Files.besideName c.engine) = true) (hnow : c.now.Proper) (migration checksum : String) :
    ∃ w', (LedgerPlace.directory path).record migration c.engine checksum { w with now := c.now } = .ok () w' := by
  have htakes := h.takes c.engine hv hfits
  obtain ⟨d, hrecord, -⟩ := htakes.record_eq (e := ⟨migration, c.engine, checksum, c.now⟩) h.wellFormed h.opens hv hfits
    (Files.read_write_concat htakes.reads hnow)
  exact ⟨{ w with disk := d, now := c.now }, by simp only [LedgerPlace.record, World.onDisk, hrecord]⟩

/-! ### Both -/

/-- **Ledgers in memory and in files answer alike**, call by call: recording succeeds, and what was recorded of an
engine, in this order and nothing else, is what is applied. -/
theorem answer_expected (hvacant : Vacant w.disk path p) (hmemory : w.memory.entries = [])
    (hnow : ∀ call ∈ before ++ [c], call.now.Proper) (hv : EngineName.isValid c.engine = true)
    (hlength : c.engine.length ≤ 246) :
    (c.run (.directory path) (LedgerCall.runAll (.directory path) before w)).1 = .ok (expected before c) ∧
      (c.run .memory (LedgerCall.runAll .memory before w)).1 = .ok (expected before c) := by
  have hfits := (Files.isName_beside_iff hv).2 hlength
  have hlast := hnow c (List.mem_append_right _ List.mem_cons_self)
  have htelling : Telling path p before (LedgerCall.runAll (.directory path) before w) :=
    (telling_of_vacant hvacant).runAll fun call hcall => hnow call (List.mem_append_left _ hcall)
  constructor
  · exact LedgerCall.run_eq (htelling.takes c.engine hv hfits).reads (htelling.exists_record hv hfits hlast)
  · refine LedgerCall.run_eq ?_ fun migration checksum => ⟨_, rfl⟩
    rw [LedgerPlace.applied, Memory.applied, entries_runAll, hmemory, List.nil_append, entriesOf]

/-- Nothing is recorded under a name that is too long for a file. -/
theorem exists_failure {migration checksum : String} (hw : w.disk.WellFormed) (ho : w.disk.Opens [] path.steps p)
    (hc : c.request = .record migration checksum) (hlong : isName (Files.besideName c.engine) = false) :
    ∃ failure, (c.run (.directory path) w).1 = .error failure := by
  simp only [LedgerCall.run, hc, LedgerPlace.record, World.onDisk]
  cases hrecord : Files.record path ⟨migration, c.engine, checksum, c.now⟩ w.disk with
  | error failure d => exact ⟨failure, rfl⟩
  | ok _ d =>
    have hfits := Files.fits_of_record hw ho hrecord
    rw [hlong] at hfits
    cases hfits

end Directories

/-! ### An engine on a new disk -/

def vacantWorld : World where
  now := ⟨1704110400, 0⟩

theorem vacant_ledger : Vacant vacantWorld.disk "ledger" ["ledger"] := by
  have hsteps : Path.steps "ledger" = ["ledger"].map .into := by decide +kernel
  refine ⟨wellFormed_empty, ?_, fun name hname => node?_empty hname⟩
  rw [hsteps]
  exact .make (by decide) (by decide)

def mixedCalls : List LedgerCall :=
  [⟨"main", .record "0001_initial" "c1", ⟨1704110400, 0⟩⟩, ⟨"audit", .record "0001_initial" "c2", ⟨1704110401, 0⟩⟩,
    ⟨"main", .record "0002_more" "c3", ⟨1704110402, 0⟩⟩, ⟨"audit", .applied, ⟨1704110403, 0⟩⟩]

def lastCall : LedgerCall := ⟨"main", .last, ⟨1704110404, 0⟩⟩

theorem answer_expected_mixed : (∀ call ∈ mixedCalls ++ [lastCall], call.now.Proper) ∧
    expected mixedCalls lastCall = .last (some ⟨"0002_more", "main", "c3", ⟨1704110402, 0⟩⟩) ∧
    (lastCall.run (.directory "ledger") (LedgerCall.runAll (.directory "ledger") mixedCalls vacantWorld)).1 =
      .ok (expected mixedCalls lastCall) ∧
    (lastCall.run .memory (LedgerCall.runAll .memory mixedCalls vacantWorld)).1 =
      .ok (expected mixedCalls lastCall) := by
  have hnow : ∀ call ∈ mixedCalls ++ [lastCall], call.now.Proper := by decide
  exact ⟨hnow, rfl, answer_expected vacant_ledger rfl hnow (by decide) (by decide)⟩

def longCall : LedgerCall := ⟨String.ofList (List.replicate 250 'a'), .record "0001_initial" "c", ⟨1704110400, 0⟩⟩

/-- **Names can be too long for files**, and then only the ledger in memory takes the entry. -/
theorem answers_unlike_of_long_name :
    Vacant vacantWorld.disk "ledger" ["ledger"] ∧ vacantWorld.memory.entries = [] ∧
    EngineName.isValid longCall.engine = true ∧ longCall.now.Proper ∧
    (longCall.run .memory vacantWorld).1 = .ok .recorded ∧
    ∃ failure, (longCall.run (.directory "ledger") vacantWorld).1 = .error failure := by
  have hlong : isName (Files.besideName longCall.engine) = false := Files.not_isName_replicate (by decide)
  exact ⟨vacant_ledger, rfl, Files.isValid_replicate (by decide) (by decide), by decide, rfl,
    exists_failure vacant_ledger.wellFormed vacant_ledger.opens rfl hlong⟩

end Engine

end Schemata
