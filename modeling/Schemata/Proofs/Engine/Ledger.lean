import Schemata.Engine.World
import Schemata.Proofs.Ledger.Entry
import Schemata.Proofs.Ledger.Files

/-! The ledger of a world, in memory or in a directory, while the lock of an engine is held: recording adds
one entry at the end, and neither taking the lock nor giving it back adds or drops any. -/
namespace Schemata

/-- What a ledger says and an entry more come back from their file. -/
theorem Ledger.Files.read_write_concat {d : Store.Disk} {directory : Store.Path} {engine : String}
    {entries : List Entry} {e : Entry} (h : applied d directory engine = .ok entries)
    (he : e.appliedAt.Proper) : read (write (entries ++ [e])) = .ok (entries ++ [e]) := by
  refine read_write fun x hx => ?_
  rcases List.mem_append.1 hx with hx | hx
  · rcases (of_applied h).2 with rfl | ⟨text, hread⟩
    · cases hx
    · exact proper_of_read hread x hx
  · rw [List.mem_singleton.1 hx]
    exact he

namespace Engine.LedgerPlace
open Ledger Store

variable {l : LedgerPlace} {w w' : World} {engine : String}

/-- What the ledger says of an engine once its directory is there. A run makes the directory before it reads
the ledger, and the path may lead through directories that were missing. -/
def kept : LedgerPlace → World → String → Except Failure (List Entry)
  | .memory, w, engine => .ok (w.memory.applied engine)
  | .directory path, w, engine => Files.kept w.disk path engine

/-- Writing to the ledger succeeds: once its directory is there, any text can take the place of the entries
of the engine. -/
def Writable : LedgerPlace → World → String → Prop
  | .memory, _, _ => True
  | .directory path, w, engine => ∀ made file text, w.disk.makeDirectory? path = some made →
      Files.entriesPath path engine = .ok file → (Files.replace made file text).isSome = true

/-- The ledger has these entries of the engine, and takes more. -/
def Holds : LedgerPlace → World → String → List Entry → Prop
  | .memory, w, engine, entries => w.memory.applied engine = entries
  | .directory path, w, engine, entries => w.now.Proper ∧
      (∃ p, Files.Ready w.disk path engine p) ∧ Files.applied w.disk path engine = .ok entries

theorem Holds.applied_eq {entries : List Entry} (h : l.Holds w engine entries) :
    l.applied w engine = .ok entries := by
  cases l with
  | memory => exact congrArg _ h
  | directory path => exact h.2.2

/-- **Recording.** The entry of a migration is put behind the entries before it. -/
theorem Holds.record_eq {entries : List Entry} (h : l.Holds w engine entries)
    (migration checksum : String) :
    ∃ w', l.record migration engine checksum w = .ok () w' ∧ w'.now = w.now ∧
      l.Holds w' engine (entries ++ [⟨migration, engine, checksum, w.now⟩]) := by
  cases l with
  | memory =>
    refine ⟨_, rfl, rfl, ?_⟩
    have hentries : w.memory.applied engine = entries := h
    simp [Holds, Memory.applied, Memory.record, ← hentries]
  | directory path =>
    obtain ⟨hnow, ⟨p, hready⟩, happlied⟩ := h
    obtain ⟨hrecord, hafter⟩ := Files.Ready.record_eq (e := ⟨migration, engine, checksum, w.now⟩) hready happlied
      (Files.read_write_concat happlied hnow)
    generalize write (entries ++ [⟨migration, engine, checksum, w.now⟩]) = text at hrecord hafter
    refine ⟨{ w with disk := Files.replaced w.disk p engine text }, ?_, rfl, hnow,
      ⟨p, hready.after_replaced text⟩, hafter⟩
    simp only [record, World.onDisk, hrecord]

/-! ### The lock -/

theorem acquire_memory_eq (w : World) : LedgerPlace.acquire .memory engine w =
    if engine ∈ w.memory.held then .error (.waiting engine) w
    else .ok () { w with memory := { w.memory with held := engine :: w.memory.held } } := by
  by_cases hheld : engine ∈ w.memory.held <;> simp [LedgerPlace.acquire, Memory.acquire, hheld]

/-- Whoever cannot take the lock finds the ledger as it was. -/
theorem applied_of_acquire_error {failure : Failure} (h : l.acquire engine w = .error failure w') :
    l.applied w' engine = l.kept w engine := by
  cases l with
  | memory =>
    simp only [acquire] at h
    split at h
    · cases h
    · rw [← (EStateM.Result.error.inj h).2]
      rfl
  | directory path =>
    simp only [acquire, World.onDisk] at h
    split at h
    · cases h
    · rename_i hfiles
      rw [← (EStateM.Result.error.inj h).2]
      exact Files.applied_of_acquire_error hfiles

theorem applied_of_acquire (h : l.acquire engine w = .ok () w') :
    l.applied w' engine = l.kept w engine := by
  cases l with
  | memory =>
    simp only [acquire] at h
    split at h
    · rename_i m hm
      rw [← (EStateM.Result.ok.inj h).2]
      simp only [Memory.acquire] at hm
      split at hm
      · cases hm
      · rw [← Except.ok.inj hm]
        rfl
    · cases h
  | directory path =>
    simp only [acquire, World.onDisk] at h
    split at h
    · rename_i hfiles
      rw [← (EStateM.Result.ok.inj h).2]
      exact Files.applied_of_acquire hfiles
    · cases h

theorem now_of_acquire (h : l.acquire engine w = .ok () w') : w'.now = w.now := by
  cases l with
  | memory =>
    simp only [acquire] at h
    split at h
    · rw [← (EStateM.Result.ok.inj h).2]
    · cases h
  | directory path =>
    simp only [acquire, World.onDisk] at h
    split at h
    · rw [← (EStateM.Result.ok.inj h).2]
    · cases h

/-- Whoever holds the lock can write. -/
theorem holds_of_acquire {entries : List Entry} (h : l.acquire engine w = .ok () w')
    (hw : l.Writable w engine) (hnow : w.now.Proper) (ha : l.applied w' engine = .ok entries) :
    l.Holds w' engine entries := by
  cases l with
  | memory => exact Except.ok.inj ha
  | directory path =>
    refine ⟨now_of_acquire h ▸ hnow, ?_, ha⟩
    simp only [acquire, World.onDisk] at h
    split at h
    · rename_i hfiles
      rw [← (EStateM.Result.ok.inj h).2]
      exact Files.ready_of_acquire hfiles hw
    · cases h

theorem applied_release_of_acquire (h : l.acquire engine w = .ok () w') :
    l.applied (l.release engine w') engine = l.applied w' engine := by
  cases l with
  | memory => rfl
  | directory path =>
    simp only [acquire, World.onDisk] at h
    split at h
    · rename_i hfiles
      rw [← (EStateM.Result.ok.inj h).2]
      obtain ⟨p, hp⟩ := Files.found_of_acquire hfiles
      exact Files.applied_release hp
    · cases h

theorem Holds.applied_release {entries : List Entry} (h : l.Holds w engine entries) :
    l.applied (l.release engine w) engine = .ok entries := by
  cases l with
  | memory => exact h.applied_eq
  | directory path =>
    obtain ⟨-, ⟨p, hready⟩, happlied⟩ := h
    exact (Files.applied_release hready.found).trans happlied

end Engine.LedgerPlace

end Schemata
