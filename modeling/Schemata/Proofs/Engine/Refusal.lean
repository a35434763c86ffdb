import Schemata.Engine.Migrate

/-! Why a run does not begin. A history that cannot be read, a ledger that does not fit it, a chain that does
not replay: none of this is a failure of the adapter, for nothing was handed to it yet. -/
namespace Schemata

/-- Whether the failure is that of an adapter. -/
def Failure.isAdapter : Failure → Bool
  | .adapter _ _ _ _ => true
  | _ => false

/-- When this fails, no adapter is to blame. -/
def WithoutAdapter {α : Type} (r : Except Failure α) : Prop :=
  ∀ failure, r = .error failure → failure.isAdapter = false

namespace WithoutAdapter
variable {α β : Type}

theorem ok (a : α) : WithoutAdapter (.ok a) := nofun

theorem error {failure : Failure} (h : failure.isAdapter = false) :
    WithoutAdapter (.error failure : Except Failure α) := by
  intro other he
  rw [← Except.error.inj he]
  exact h

theorem bind {r : Except Failure α} {f : α → Except Failure β} (hr : WithoutAdapter r)
    (hf : ∀ a, WithoutAdapter (f a)) : WithoutAdapter (r >>= f) := by
  cases r with
  | ok a => exact hf a
  | error failure => exact error (hr failure rfl)

theorem foldlM {f : β → α → Except Failure β} (hf : ∀ b a, WithoutAdapter (f b a)) (l : List α)
    (b : β) : WithoutAdapter (l.foldlM f b) := by
  induction l generalizing b with
  | nil => exact ok b
  | cons a rest ih =>
    rw [List.foldlM_cons]
    exact bind (hf b a) ih

theorem mapM {f : α → Except Failure β} (hf : ∀ a, WithoutAdapter (f a)) (l : List α) :
    WithoutAdapter (l.mapM f) := by
  induction l with
  | nil => exact ok []
  | cons a rest ih =>
    rw [List.mapM_cons]
    exact bind (hf a) fun _ => bind ih fun _ => ok _

end WithoutAdapter

open WithoutAdapter

/-! ### Histories -/

theorem EngineName.check_withoutAdapter (name : String) : WithoutAdapter (check name) := by
  unfold check
  split
  · exact ok ()
  · exact error rfl

namespace Chain

theorem firstMissing?_isAdapter {engine : String} {known : Migrations} {failure : Failure}
    (h : firstMissing? engine known = some failure) : failure.isAdapter = false := by
  obtain ⟨m, -, hm⟩ := List.exists_of_findSome?_eq_some h
  obtain ⟨parent, -, rfl⟩ := Option.map_eq_some_iff.1 hm
  rfl

theorem firstCycle?_isAdapter {engine : String} {known : Migrations} {failure : Failure}
    (h : firstCycle? engine known = some failure) : failure.isAdapter = false := by
  obtain ⟨path, -, rfl⟩ := Option.map_eq_some_iff.1 h
  rfl

theorem resolve_withoutAdapter (engine : String) (migrations : List Migration) :
    WithoutAdapter (resolve engine migrations) := by
  refine bind (foldlM (fun known m => ?_) _ _) fun known => ?_
  · split
    · exact error rfl
    · exact ok _
  · unfold ofKnown
    split
    · rename_i failure h
      rcases hm : firstMissing? engine known with _ | missing
      · rw [hm] at h
        exact error (firstCycle?_isAdapter h)
      · rw [hm] at h
        exact error (Option.some.inj h ▸ firstMissing?_isAdapter hm)
    · split
      · exact ok []
      · exact ok _
      · exact error rfl

theorem pending_withoutAdapter (engine : String) (chain : List Migration) (last : Option String) :
    WithoutAdapter (pending engine chain last) := by
  unfold pending
  split
  · exact ok chain
  · split
    · exact error rfl
    · exact ok _

end Chain

namespace Replay

theorem run_withoutAdapter (migrations : List Migration) : WithoutAdapter (run migrations) := by
  refine foldlM (fun s m => ?_) _ _
  unfold step
  split
  · exact ok _
  · exact error rfl

theorem through_withoutAdapter (migrations : List Migration) (last : Option String) :
    WithoutAdapter (through migrations last) := by
  unfold through
  split
  · unfold runTo
    split
    · exact run_withoutAdapter _
    · exact error rfl
  · exact ok _

end Replay

/-! ### Directories and ledgers -/

namespace Engine

namespace Directory
open Store

theorem contents_withoutAdapter (d : Disk) (path : Path) : WithoutAdapter (contents d path) := by
  unfold contents
  split
  · exact error rfl
  · exact ok []
  · split
    · exact ok _
    · exact error rfl

theorem ofToml_isAdapter {text : String} {failure : Failure}
    (h : Migration.ofToml text = .error failure) : failure.isAdapter = false := by
  unfold Migration.ofToml at h
  split at h
  · unfold Migration.checked at h
    split at h
    · rw [← Except.error.inj h]; rfl
    · split at h
      · rw [← Except.error.inj h]; rfl
      · cases h
  · rw [← Except.error.inj h]; rfl

theorem readMigration_withoutAdapter (d : Disk) (path : Path) :
    WithoutAdapter (readMigration d path) := by
  unfold readMigration
  split
  · exact error rfl
  · split
    · exact error rfl
    · split
      · exact error rfl
      · exact error (ofToml_isAdapter ‹_›)
      · split
        · exact ok _
        · exact error rfl

theorem migrations_withoutAdapter (d : Disk) (directory : Path) (engine : String) :
    WithoutAdapter (migrations d directory engine) := by
  refine bind (bind (bind (EngineName.check_withoutAdapter engine) fun _ => ok _) fun own =>
    bind (contents_withoutAdapter d own) fun _ => ok _) fun paths => mapM (fun path => ?_) paths
  refine bind (readMigration_withoutAdapter d path) fun m => ?_
  split
  · exact ok m
  · exact error rfl

end Directory

theorem verifyEntries_withoutAdapter (engine : String) (chain : List Migration)
    (entries : List Ledger.Entry) : WithoutAdapter (Ledger.verifyEntries engine chain entries) := by
  induction entries generalizing chain with
  | nil =>
    rw [Ledger.verifyEntries]
    exact ok ()
  | cons e entries ih =>
    cases chain with
    | nil => exact error rfl
    | cons m chain =>
      rw [Ledger.verifyEntries]
      split
      · exact error rfl
      · split
        · exact error rfl
        · exact ih chain

theorem applied_withoutAdapter (l : LedgerPlace) (w : World) (engine : String) :
    WithoutAdapter (l.applied w engine) := by
  cases l with
  | memory => exact ok _
  | directory path =>
    refine bind (bind (EngineName.check_withoutAdapter engine) fun _ => ok _) fun file => ?_
    unfold Ledger.Files.readFile
    split
    · exact error rfl
    · exact ok []
    · split
      · exact error rfl
      · refine bind ?_ fun entries => ?_
        · unfold Ledger.read
          split
          · exact ok _
          · exact error rfl
        · split
          · exact error rfl
          · exact ok _

theorem acquire_isAdapter {l : LedgerPlace} {w w' : World} {engine : String} {failure : Failure}
    (h : l.acquire engine w = .error failure w') : failure.isAdapter = false := by
  cases l with
  | memory =>
    simp only [LedgerPlace.acquire, Ledger.Memory.acquire] at h
    split at h
    · cases h
    · rename_i hm
      split at hm
      · rw [← (EStateM.Result.error.inj h).1, ← Except.error.inj hm]; rfl
      · cases hm
  | directory path =>
    simp only [LedgerPlace.acquire, World.onDisk] at h
    split at h
    · cases h
    · rename_i hfiles
      rw [← (EStateM.Result.error.inj h).1]
      simp only [Ledger.Files.acquire] at hfiles
      split at hfiles
      · rw [← (EStateM.Result.error.inj hfiles).1]; rfl
      · split at hfiles
        · rename_i hpath
          rw [← (EStateM.Result.error.inj hfiles).1]
          exact bind (EngineName.check_withoutAdapter engine) (fun _ => ok _) _ hpath
        · split at hfiles
          · cases hfiles
          · rw [← (EStateM.Result.error.inj hfiles).1]; rfl
          · rw [← (EStateM.Result.error.inj hfiles).1]; rfl

/-- What is found out before the first change is executed is not the fault of an adapter. -/
theorem prepare_withoutAdapter (s : Settings) (w : World) (engine : String) :
    WithoutAdapter (prepare s w engine) := by
  refine bind ?_ fun p => bind (Replay.run_withoutAdapter _) fun _ =>
    bind (Replay.through_withoutAdapter _ _) fun _ => ok _
  refine bind (bind (Directory.migrations_withoutAdapter _ _ _) fun _ =>
    Chain.resolve_withoutAdapter _ _) fun chain => ?_
  refine bind (applied_withoutAdapter _ _ _) fun entries => ?_
  refine bind (bind (verifyEntries_withoutAdapter _ _ _) fun _ => ok _) fun last => ?_
  exact bind (Chain.pending_withoutAdapter _ _ _) fun _ => ok _

end Engine

end Schemata
