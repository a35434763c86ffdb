import Schemata.Proofs.Engine.Adapter
import Schemata.Proofs.Engine.Views
import Schemata.Proofs.Store.Spares

/-! What keeping a ledger leaves alone.

Whatever comes of taking a lock, recording and giving the lock back, files of others stay where they are
(`spares_acquire`, `spares_record`, `spares_release`). The entries of an engine are changed by nothing but a recording
for it, which puts one more behind them or changes nothing (`LedgerPlace.record_kept`). No way has to open for this:
what a ledger says is told as of the time when its directory is there (`LedgerPlace.kept`). -/
namespace Schemata

namespace Engine
open Store Disk Ledger

/-! ### Invariants of work -/

section Invariants
variable {ε σ τ α β : Type}

/-- The state that work ends in, whatever came of it. -/
def stateOf : EStateM.Result ε σ α → σ
  | .ok _ s => s
  | .error _ s => s

/-- The work keeps to what it finds. -/
def Keeps (I : σ → Prop) (work : EStateM ε σ α) : Prop := ∀ s, I s → I (stateOf (work s))

variable {I : σ → Prop}

theorem keeps_pure (a : α) : Keeps I (pure a : EStateM ε σ α) := fun _ h => h

theorem Keeps.bind {work : EStateM ε σ α} {next : α → EStateM ε σ β} (h : Keeps I work)
    (hnext : ∀ a, Keeps I (next a)) :
    Keeps I (work >>= next) := by
  intro s hs
  have hw := h s hs
  simp only [Bind.bind, EStateM.bind]
  cases hwork : work s with
  | ok a s' =>
    rw [hwork] at hw
    exact hnext a s' hw
  | error e s' =>
    rw [hwork] at hw
    exact hw

theorem Keeps.transact {A : Adapter σ} {work : Exchange σ Unit} (h : Keeps I work) (migration : String) (index : Nat) :
    Keeps I (A.transact work migration index) := by
  intro s hs
  have hw := h s hs
  simp only [Adapter.transact]
  split
  · cases hwork : work s <;> rw [hwork] at hw <;> exact hw
  · exact hs

end Invariants

/-! ### What the ledger spares -/

namespace LedgerPlace
variable {directory : Path} {engine : String} {d d' : Disk}

theorem spares_acquire_files (directory : Path) (engine : String) (now : Calendar.Instant) (d : Disk) :
    Spares (Files.IsFile (endOf directory.steps) engine) d (stateOf (Files.acquire directory engine now d)) := by
  simp only [Files.acquire]
  split
  · exact .refl d
  · rename_i made hmade
    have hmakes : Spares (Files.IsFile (endOf directory.steps) engine) d made := spares_makeDirectory? hmade
    split
    · exact hmakes
    · split
      · rename_i hlook
        have hnone := (of_walk_free (of_look_free hlook).1).2
        exact hmakes.trans (spares_put (.inr hnone) (ne_directory_of_none hnone))
      · exact hmakes
      · exact hmakes

theorem spares_replace {text : String} (hv : EngineName.isValid engine = true)
    (h : Files.replace d (directory.join (Files.entriesName engine)) text = some d') :
    Spares (Files.IsFile (endOf directory.steps) engine) d d' := by
  simp only [Files.replace, Files.beside_eq hv, bind, Option.bind_eq_some_iff] at h
  obtain ⟨written, hwrite, gone, hremove, hput⟩ := h
  have hbeside : endOf (directory.join (Files.besideName engine)).steps = _ := endOf_join (Files.isFileName_beside hv)
  have hentries : endOf (directory.join (Files.entriesName engine)).steps = _ :=
    endOf_join (Files.isFileName_entries hv)
  exact ((spares_write? hwrite (.inr (.inl hbeside))).trans (spares_remove? hremove (.inr (.inl hbeside)))).trans
    (spares_write? hput (.inl hentries))

theorem spares_record_files (directory : Path) (e : Entry) (d : Disk) :
    Spares (Files.IsFile (endOf directory.steps) e.engine) d (stateOf (Files.record directory e d)) := by
  simp only [Files.record]
  cases happlied : Files.applied d directory e.engine with
  | error failure => exact .refl d
  | ok entries =>
    have hv := Files.valid_of_applied happlied
    simp only [Files.entriesPath_eq hv]
    split
    · exact .refl d
    · rename_i made hmade
      have hmakes : Spares (Files.IsFile (endOf directory.steps) e.engine) d made := spares_makeDirectory? hmade
      split
      · rename_i replaced hreplace
        exact hmakes.trans (spares_replace hv hreplace)
      · exact hmakes

theorem spares_release_files :
    Spares (Files.IsFile (endOf directory.steps) engine) d (Files.release directory engine d) := by
  cases hv : EngineName.isValid engine with
  | false =>
    rw [Files.release_of_invalid hv]
    exact .refl d
  | true =>
    simp only [Files.release, Files.lockPath_eq hv]
    cases hremove : d.remove? (directory.join (Files.lockName engine)) with
    | none => exact .refl d
    | some gone => exact spares_remove? hremove (.inr (.inr (endOf_join (Files.isFileName_lock hv))))

section Worlds
variable (l : LedgerPlace) (w : World)

theorem spares_acquire (engine : String) :
    Spares (l.IsFile l.place engine) w.disk (stateOf (l.acquire engine w)).disk := by
  cases l with
  | memory =>
    simp only [acquire]
    cases w.memory.acquire engine <;> exact .refl w.disk
  | directory path =>
    have hspares := spares_acquire_files path engine w.now w.disk
    simp only [acquire, World.onDisk]
    cases hrun : Files.acquire path engine w.now w.disk <;> rw [hrun] at hspares <;> exact hspares

theorem spares_record (migration engine checksum : String) :
    Spares (l.IsFile l.place engine) w.disk (stateOf (l.record migration engine checksum w)).disk := by
  cases l with
  | memory => exact .refl w.disk
  | directory path =>
    have hspares := spares_record_files path ⟨migration, engine, checksum, w.now⟩ w.disk
    simp only [record, World.onDisk]
    cases hrun : Files.record path ⟨migration, engine, checksum, w.now⟩ w.disk <;> rw [hrun] at hspares <;>
      exact hspares

theorem spares_release (engine : String) : Spares (l.IsFile l.place engine) w.disk (l.release engine w).disk := by
  cases l with
  | memory => exact .refl w.disk
  | directory path => exact spares_release_files

end Worlds

end LedgerPlace

/-! ### Migrating -/

section Migrating
variable {γ : Type} {I : Session γ → Prop} {l : LedgerPlace} {A : Adapter (Session γ)} {engine : String}

theorem keeps_applyAll (hrun : ∀ m schema, Keeps I (A.run m schema))
    (hrecord : ∀ m : Migration, Keeps I (onWorld (l.record m.name engine m.checksum))) (pending : List Migration)
    (schema : State) (report : Report) : Keeps I (applyAll l A engine pending schema report) := by
  induction pending generalizing schema report with
  | nil => exact keeps_pure report
  | cons m rest ih => exact (hrun m schema).bind fun after => (hrecord m).bind fun _ => ih after (report.add m)

theorem keeps_migrateLocked {s : Settings} (hrun : ∀ m schema, Keeps I (A.run m schema))
    (hrecord : ∀ m : Migration, Keeps I (onWorld (s.ledger.record m.name engine m.checksum))) :
    Keeps I (migrateLocked s A engine) := by
  intro t ht
  simp only [migrateLocked]
  split
  · exact ht
  · split
    · exact ht
    · exact keeps_applyAll hrun hrecord _ _ _ t ht

/-- **An invariant of the ledger and of the adapter** is one of migrating. -/
theorem keeps_migrateIn {s : Settings} (hrun : ∀ m schema, Keeps I (A.run m schema))
    (hrecord : ∀ m : Migration, Keeps I (onWorld (s.ledger.record m.name engine m.checksum)))
    (hacquire : Keeps I (onWorld (s.ledger.acquire engine)))
    (hrelease : ∀ t : Session γ, I t → I { t with world := s.ledger.release engine t.world }) :
    Keeps I (migrateIn s A engine) := by
  intro t ht
  have hbegin := hacquire t ht
  simp only [migrateIn, withLock]
  cases hlock : onWorld (s.ledger.acquire engine) t with
  | error failure u =>
    rw [hlock] at hbegin
    exact hbegin
  | ok _ u =>
    rw [hlock] at hbegin
    have hend := keeps_migrateLocked hrun hrecord u hbegin
    dsimp only
    cases hwork : migrateLocked s A engine u <;> rw [hwork] at hend <;> exact hrelease _ hend

end Migrating

end Engine

/-! ### Entries of engines -/

namespace Ledger.Files
open Store Disk Engine

variable {d d' : Disk} {directory : Path} {engine other : String} {p : Place}

theorem lockName_ne_entriesName (engine other : String) : lockName engine ≠ entriesName other := by
  intro he
  have hlast := congrArg (fun name : String => name.toList.getLast?) he
  simp [lockName, entriesName] at hlast

theorem kept_congr (hd : d.walk [] directory.steps = .found p .directory)
    (hd' : d'.walk [] directory.steps = .found p .directory)
    (hn : d'.node? (p ++ [entriesName other]) = d.node? (p ++ [entriesName other])) :
    kept d' directory other = kept d directory other := by
  rw [kept_of_found hd, kept_of_found hd', applied_congr hd hd' hn]

/-- Making the directory changes nothing of what the ledger says once it is there. -/
theorem kept_getD (d : Disk) (directory : Path) (other : String) :
    kept ((d.makeDirectory? directory).getD d) directory other = kept d directory other := by
  cases hm : d.makeDirectory? directory with
  | none => rfl
  | some made =>
    obtain ⟨p, hp⟩ := walk_of_walkMaking hm
    rw [Option.getD_some, kept_of_found hp, kept, hm, Option.getD_some]

theorem kept_acquire (directory : Path) (engine other : String) (now : Calendar.Instant) (d : Disk) :
    kept (stateOf (acquire directory engine now d)) directory other = kept d directory other := by
  cases hacquire : acquire directory engine now d with
  | ok _ d' =>
    obtain ⟨made, p, content, hm, -, hp, -, hn, rfl⟩ := of_acquire_ok hacquire
    have hp' := walk_of_keepsDirectories (keepsDirectories_put (n := .text content) (ne_directory_of_none hn)) hp
    have hmade := kept_getD d directory other
    rw [hm, Option.getD_some] at hmade
    exact (kept_congr hp hp' (node?_put_ne (place_ne (lockName_ne_entriesName engine other)))).trans hmade
  | error failure d' =>
    rw [of_acquire_error hacquire]
    exact kept_getD d directory other

section Found
variable (hd : d.walk [] directory.steps = .found p .directory)
include hd

theorem kept_release : kept (release directory engine d) directory other = kept d directory other := by
  cases hv : EngineName.isValid engine with
  | false => rw [release_of_invalid hv]
  | true =>
    have hp : p = endOf directory.steps := eq_of_walk hd
    simp only [release, lockPath_eq hv]
    cases hremove : d.remove? (directory.join (lockName engine)) with
    | none => rfl
    | some gone =>
      obtain ⟨rfl, hdir⟩ := of_remove? hremove
      rw [endOf_join (isFileName_lock hv), ← hp] at hdir ⊢
      exact kept_congr hd (walk_of_keepsDirectories (keepsDirectories_erase hdir) hd)
        (node?_erase_ne (place_ne (lockName_ne_entriesName engine other)))

end Found

end Ledger.Files

namespace Engine.LedgerPlace
open Store Disk Ledger

variable {l : LedgerPlace} {w w' : World} {engine other : String}

/-- The directory of the ledger is there. -/
def Reached : LedgerPlace → World → Prop
  | .memory, _ => True
  | .directory path, w => w.disk.walk [] path.steps = .found (endOf path.steps) .directory

theorem kept_acquire (l : LedgerPlace) (w : World) (engine other : String) :
    l.kept (stateOf (l.acquire engine w)) other = l.kept w other := by
  cases l with
  | memory =>
    simp only [acquire, Memory.acquire]
    split <;> rename_i h <;> split at h <;> cases h <;> rfl
  | directory path =>
    have hkept := Files.kept_acquire path engine other w.now w.disk
    simp only [acquire, World.onDisk]
    cases hrun : Files.acquire path engine w.now w.disk <;> rw [hrun] at hkept <;> exact hkept

theorem reached_of_acquire {u : Unit} (h : l.acquire engine w = .ok u w') : l.Reached w' := by
  cases l with
  | memory => trivial
  | directory path =>
    simp only [acquire, World.onDisk] at h
    split at h
    · rename_i hfiles
      cases h
      obtain ⟨p, hp⟩ := Files.found_of_acquire hfiles
      rw [eq_of_walk hp] at hp
      exact hp
    · cases h

theorem kept_release (hreached : l.Reached w) : l.kept (l.release engine w) other = l.kept w other := by
  cases l with
  | memory => rfl
  | directory path => exact Files.kept_release hreached

end Engine.LedgerPlace

end Schemata
