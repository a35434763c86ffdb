import Schemata.Proofs.Engine.Ledger
import Schemata.Proofs.Ledger.Keeping

/-! What keeping a ledger does to a world.

The ledger is in memory, or in three files of a directory whose way opens; in both cases each of its operations
comes to one of few things, whether it succeeds or not, and nothing else of the world changes. -/
namespace Schemata.Engine.LedgerPlace
open Ledger Store Disk

variable {l : LedgerPlace} {w w' w'' : World} {engine : String} {p : Place} {entries : List Entry}

/-! ### Where a ledger is -/

/-- The way to the ledger. -/
def steps : LedgerPlace → List Path.Step
  | .memory => []
  | .directory path => path.steps

/-- The places of its files. -/
def IsFile : LedgerPlace → Place → String → Place → Prop
  | .memory, _, _, _ => False
  | .directory _, p, engine, q => Files.IsFile p engine q

/-- The name of the file of the entries is one that a file can have. -/
def Fits : LedgerPlace → String → Prop
  | .memory, _ => True
  | .directory _, engine => isName (Files.entriesName engine) = true

/-- What keeping the ledger leaves of a world. -/
structure Kept (l : LedgerPlace) (p : Place) (engine : String) (w w' : World) : Prop where
  wellFormed : w'.disk.WellFormed
  reaches : w'.disk.Opens [] l.steps p
  changes : ChangesAt w.disk w'.disk (· ∈ placesFrom [] l.steps) (l.IsFile p engine)
  now : w'.now = w.now

theorem Kept.refl (hw : w.disk.WellFormed) (ho : w.disk.Opens [] l.steps p) : l.Kept p engine w w :=
  ⟨hw, ho, .refl _, rfl⟩

def Locked : LedgerPlace → Place → World → String → Prop
  | .memory, _, _, _ => True
  | .directory path, p, w, engine => Files.Locked w.disk path p engine

/-- Nobody holds the lock, and it can be taken. -/
def Free : LedgerPlace → Place → World → String → Prop
  | .memory, _, w, engine => engine ∉ w.memory.held
  | .directory path, p, w, engine => Files.Free w.disk path p engine

theorem Free.withNow (h : l.Free p w engine) (now : Calendar.Instant) : l.Free p { w with now } engine := by
  cases l <;> exact h

/-! ### What the operations come to -/

theorem acquire_of_free (h : l.Free p w engine) : ∃ w', l.acquire engine w = .ok () w' := by
  cases l with
  | memory =>
    have hheld : w.memory.held.contains engine = false := by simpa [Free] using h
    simp only [acquire, Memory.acquire, hheld, Bool.false_eq_true, if_false]
    exact ⟨_, rfl⟩
  | directory path =>
    obtain ⟨content, hacquire⟩ : ∃ content, Files.acquire path engine w.now w.disk =
      .ok () (w.disk.put (p ++ [Files.lockName engine]) (.text content)) := Files.acquire_of_free h
    simp only [acquire, World.onDisk, hacquire]
    exact ⟨_, rfl⟩

section Acquiring
variable (hw : w.disk.WellFormed) (ho : w.disk.Opens [] l.steps p) (hfits : l.Fits engine)
include hw ho hfits

theorem kept_of_opens : l.kept w engine = l.applied w engine := by
  cases l with
  | memory => rfl
  | directory path => exact Files.kept_of_opens hw ho hfits

theorem acquire_error {failure : Failure} (h : l.acquire engine w = .error failure w') :
    l.Kept p engine w w' ∧ l.applied w' engine = l.applied w engine := by
  refine ⟨?_, (applied_of_acquire_error h).trans (kept_of_opens hw ho hfits)⟩
  cases l with
  | memory =>
    simp only [acquire] at h
    split at h
    · cases h
    · cases h
      exact .refl hw ho
  | directory path =>
    simp only [acquire, World.onDisk] at h
    split at h
    · cases h
    · rename_i hfiles
      cases h
      obtain ⟨hwf, hopens, hkept⟩ := Files.acquire_error hw ho hfiles
      exact ⟨hwf, hopens, hkept, rfl⟩

theorem acquire_ok (h : l.acquire engine w = .ok () w') :
    l.Kept p engine w w' ∧ l.Locked p w' engine ∧ l.applied w' engine = l.applied w engine := by
  suffices l.Kept p engine w w' ∧ l.Locked p w' engine from
    ⟨this.1, this.2, (applied_of_acquire h).trans (kept_of_opens hw ho hfits)⟩
  cases l with
  | memory =>
    simp only [acquire] at h
    split at h
    · cases h
      exact ⟨⟨hw, ho, .refl _, rfl⟩, trivial⟩
    · cases h
  | directory path =>
    simp only [acquire, World.onDisk] at h
    split at h
    · rename_i hfiles
      cases h
      obtain ⟨hwf, hkept, hlocked⟩ := Files.acquire_ok hw ho hfiles
      exact ⟨⟨hwf, opens_of_walk hlocked.found, hkept, rfl⟩, hlocked⟩
    · cases h

end Acquiring

section Locks
variable (hw : w.disk.WellFormed) (ho : w.disk.Opens [] l.steps p) (hl : l.Locked p w engine)
include hw ho hl

theorem record_cases (ha : l.applied w engine = .ok entries) (hnow : w.now.Proper) (migration checksum : String) :
    (∃ w', l.record migration engine checksum w = .ok () w' ∧ l.Kept p engine w w' ∧ l.Locked p w' engine ∧
      l.applied w' engine = .ok (entries ++ [⟨migration, engine, checksum, w.now⟩])) ∨
      ∃ failure, l.record migration engine checksum w = .error failure w := by
  cases l with
  | memory =>
    refine .inl ⟨_, rfl, ⟨hw, ho, .refl _, rfl⟩, trivial, ?_⟩
    have hentries : w.memory.applied engine = entries := Except.ok.inj ha
    simp [applied, Memory.applied, Memory.record, ← hentries]
  | directory path =>
    rcases Files.record_cases hw hl (e := ⟨migration, engine, checksum, w.now⟩) rfl ha
        (Files.read_write_concat ha hnow) with
      ⟨d', hrecord, hwf, hkept, hlocked, happlied⟩ | ⟨failure, hrecord⟩
    · exact .inl ⟨{ w with disk := d' }, by simp only [record, World.onDisk, hrecord],
        ⟨hwf, opens_of_walk hlocked.found, hkept, rfl⟩, hlocked, happlied⟩
    · exact .inr ⟨failure, by simp only [record, World.onDisk, hrecord]⟩

theorem release_spec : l.Kept p engine w (l.release engine w) ∧ l.Free p (l.release engine w) engine ∧
    l.applied (l.release engine w) engine = l.applied w engine := by
  cases l with
  | memory => exact ⟨⟨hw, ho, .refl _, rfl⟩, by simp [Free, release, Memory.release], rfl⟩
  | directory path =>
    obtain ⟨hwf, hkept, hfree, happlied⟩ := Files.release_spec hw hl
    exact ⟨⟨hwf, opens_of_walk hfree.found, hkept, rfl⟩, hfree, happlied⟩

end Locks

end Schemata.Engine.LedgerPlace
