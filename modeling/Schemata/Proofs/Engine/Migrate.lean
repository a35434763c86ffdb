import Schemata.Proofs.Engine.Ledger
import Schemata.Proofs.Engine.Refusal
import Schemata.Proofs.Engine.Script

/-! The steps of a run, from the lock to its release (`Begun.migrate_eq`), and migrating through a script, all or
nothing for each migration: what the ledger gained and what the script gained are the same migrations, the first
of those that were pending, and no transaction is left open. -/
namespace Schemata

/-! ### The pending part of a chain -/

namespace Chain

/-- What is pending replays behind what was applied. -/
theorem foldlM_of_pending {engine : String} {chain pending : List Migration} {last : Option String}
    {schema head : State} (hp : Chain.pending engine chain last = .ok pending)
    (ht : Replay.through chain last = .ok schema) (hr : Replay.run chain = .ok head) :
    pending.foldlM Replay.step schema = .ok head := by
  cases last with
  | none =>
    have hchain : chain = pending := Except.ok.inj hp
    have hempty : Ascending.empty = schema := Except.ok.inj ht
    exact hchain ▸ hempty ▸ hr
  | some name =>
    simp only [Chain.pending] at hp
    simp only [Replay.through, Replay.runTo, Replay.upTo?] at ht
    cases hd : chain.dropWhile (·.name ≠ name) with
    | nil =>
      simp only [hd] at hp
      cases hp
    | cons m rest =>
      simp only [hd, Except.ok.injEq] at hp ht
      have hsplit : chain = (chain.takeWhile (·.name ≠ name) ++ [m]) ++ pending := by
        rw [List.append_assoc, ← hp, List.singleton_append, ← hd, List.takeWhile_append_dropWhile]
      rw [hsplit] at hr
      obtain ⟨u, hu, hrest⟩ := Replay.foldlM_append_eq_ok_iff.1 hr
      have hsame : u = schema := Except.ok.inj (hu.symm.trans ht)
      exact hsame ▸ hrest

end Chain

namespace Engine
open Ddl Ledger

/-- Where an engine stands comes from its chain and its ledger. -/
theorem of_position {s : Settings} {w : World} {engine : String} {p : Position} (h : position s w engine = .ok p) :
    loadChain s w engine = .ok p.chain ∧ s.ledger.applied w engine = .ok p.entries ∧
      Chain.pending engine p.chain p.last = .ok p.pending := by
  obtain ⟨chain, hchain, h⟩ := bind_eq_ok_iff.1 h
  obtain ⟨entries, hentries, h⟩ := bind_eq_ok_iff.1 h
  obtain ⟨last, -, h⟩ := bind_eq_ok_iff.1 h
  obtain ⟨pending, hpending, h⟩ := bind_eq_ok_iff.1 h
  cases h
  exact ⟨hchain, hentries, hpending⟩

/-- What a run has before it has been found out with the chain as it is. -/
theorem of_prepare {s : Settings} {w : World} {engine : String} {pending : List Migration}
    {schema : State} (h : prepare s w engine = .ok (pending, schema)) :
    ∃ p head, position s w engine = .ok p ∧ p.pending = pending ∧ Replay.run p.chain = .ok head ∧
      Replay.through p.chain p.last = .ok schema := by
  obtain ⟨p, hposition, h⟩ := bind_eq_ok_iff.1 h
  obtain ⟨head, hrun, h⟩ := bind_eq_ok_iff.1 h
  obtain ⟨base, hthrough, h⟩ := bind_eq_ok_iff.1 h
  cases h
  exact ⟨p, head, hposition, rfl, hrun, hthrough⟩

/-- What a run has before it replays, behind entries that can be read. -/
theorem replays_of_prepare {s : Settings} {w : World} {engine : String} {pending : List Migration}
    {schema : State} (h : prepare s w engine = .ok (pending, schema)) :
    (∃ entries, s.ledger.applied w engine = .ok entries) ∧
      ∃ head, pending.foldlM Replay.step schema = .ok head := by
  obtain ⟨p, head, hposition, rfl, hrun, hthrough⟩ := of_prepare h
  obtain ⟨-, hentries, hpending⟩ := of_position hposition
  exact ⟨⟨p.entries, hentries⟩, head, Chain.foldlM_of_pending hpending hthrough hrun⟩

/-! ### Where a run goes -/

/-- The same result, its state seen through `f`. -/
def mapState {ε σ τ α : Type} (f : σ → τ) : EStateM.Result ε σ α → EStateM.Result ε τ α
  | .ok a s => .ok a (f s)
  | .error failure s => .error failure (f s)

@[simp]
theorem mapState_ok {ε σ τ α : Type} (f : σ → τ) (a : α) (s : σ) :
    mapState f (.ok a s : EStateM.Result ε σ α) = .ok a (f s) := rfl

@[simp]
theorem mapState_error {ε σ τ α : Type} (f : σ → τ) (failure : ε) (s : σ) :
    mapState f (.error failure s : EStateM.Result ε σ α) = .error failure (f s) := rfl

/-- What a run has before it when it holds the lock of the engine: the pending migrations, and the schema that
they start from. A run that does not begin says why. -/
def start (s : Settings) (w : World) (engine : String) : Except Failure (List Migration × State) :=
  match s.ledger.acquire engine w with
  | .error failure _ => .error failure
  | .ok _ held => prepare s held engine

/-- A run that holds the lock in the world `held` and has these migrations before it. -/
structure Begun (s : Settings) (w : World) (engine : String) (held : World) (pending : List Migration)
    (schema : State) : Prop where
  acquire : s.ledger.acquire engine w = .ok () held
  prepare : prepare s held engine = .ok (pending, schema)

section Steps
variable {γ : Type} {s : Settings} {w held : World} {engine : String} {pending : List Migration} {schema : State}
  {failure : Failure}

/-- A run that does not get the lock ends there. -/
theorem migrate_of_acquire_error (h : s.ledger.acquire engine w = .error failure held) (A : Adapter γ)
    (connection : γ) : migrate s A engine ⟨w, connection⟩ = .error failure ⟨held, connection⟩ := by
  simp only [migrate, migrateIn, withLock, onWorld, h]

/-- A run that gets the lock gives it back when its work is over. -/
theorem migrate_of_acquire (h : s.ledger.acquire engine w = .ok () held) (A : Adapter γ) (connection : γ) :
    migrate s A engine ⟨w, connection⟩ = mapState (fun t => { t with world := s.ledger.release engine t.world })
      (migrateLocked s A.inSession engine ⟨held, connection⟩) := by
  simp only [migrate, migrateIn, withLock, onWorld, h]
  cases migrateLocked s A.inSession engine ⟨held, connection⟩ <;> rfl

theorem migrateLocked_of_prepare_error (h : prepare s held engine = .error failure) (A : Adapter (Session γ))
    (connection : γ) : migrateLocked s A engine ⟨held, connection⟩ = .error failure ⟨held, connection⟩ := by
  simp only [migrateLocked, h]

theorem migrateLocked_of_dry (h : prepare s held engine = .ok (pending, schema)) (hdry : s.dryRun = true)
    (A : Adapter (Session γ)) (connection : γ) :
    migrateLocked s A engine ⟨held, connection⟩ = .ok (.dry engine pending) ⟨held, connection⟩ := by
  simp only [migrateLocked, h, hdry, if_true]

theorem migrateLocked_of_prepare (h : prepare s held engine = .ok (pending, schema)) (hdry : s.dryRun = false)
    (A : Adapter (Session γ)) (connection : γ) : migrateLocked s A engine ⟨held, connection⟩ =
      applyAll s.ledger A engine pending schema { engine } ⟨held, connection⟩ := by
  simp only [migrateLocked, h, hdry, Bool.false_eq_true, if_false]

theorem exists_begun (h : start s w engine = .ok (pending, schema)) : ∃ held, Begun s w engine held pending schema := by
  cases hacquire : s.ledger.acquire engine w with
  | error failure w' => simp [start, hacquire] at h
  | ok u held => exact ⟨held, hacquire, by simpa [start, hacquire] using h⟩

/-- A run that has begun carries out what it has before it and gives the lock back. -/
theorem Begun.migrate_eq (h : Begun s w engine held pending schema) (hdry : s.dryRun = false) (A : Adapter γ)
    (connection : γ) : migrate s A engine ⟨w, connection⟩ =
      mapState (fun t => { t with world := s.ledger.release engine t.world })
        (applyAll s.ledger A.inSession engine pending schema { engine } ⟨held, connection⟩) := by
  rw [migrate_of_acquire h.acquire, migrateLocked_of_prepare h.prepare hdry]

end Steps

/-! ### The run over the pending migrations -/

/-- The entry that a migration is recorded with. -/
def entryOf (engine : String) (now : Calendar.Instant) (m : Migration) : Entry :=
  ⟨m.name, engine, m.checksum, now⟩

/-- Migrations that replay are carried out one after the other, up to the first that cannot be rendered. -/
theorem applyAll_script {l : LedgerPlace} {engine : String} {pending : List Migration}
    {schema head : State} (hreplay : pending.foldlM Replay.step schema = .ok head)
    {w : World} {entries : List Entry} (hl : l.Holds w engine entries) (committed : List Statement)
    (report : Report) :
    ∃ done rest blocks after w', pending = done ++ rest ∧ blocks? done schema = some (blocks, after) ∧
      l.Holds w' engine (entries ++ done.map (entryOf engine w.now)) ∧
      (rest = [] ∧ applyAll l scriptAdapter.inSession engine pending schema report
          ⟨w, ⟨committed, none⟩⟩ =
            .ok (done.foldl Report.add report) ⟨w', ⟨committed ++ blocks, none⟩⟩ ∨
        ∃ m more index fault, rest = m :: more ∧ statements? m.changes after = none ∧
          applyAll l scriptAdapter.inSession engine pending schema report ⟨w, ⟨committed, none⟩⟩ =
            .error (.adapter m.name index false fault) ⟨w', ⟨committed ++ blocks, none⟩⟩) := by
  induction pending generalizing schema w entries committed report with
  | nil =>
    refine ⟨[], [], [], schema, w, rfl, rfl, ?_, .inl ⟨rfl, ?_⟩⟩
    · rw [List.map_nil, List.append_nil]
      exact hl
    · rw [List.append_nil]
      rfl
  | cons m rest ih =>
    obtain ⟨next, hm, hrest⟩ := Replay.foldlM_cons_eq_ok_iff.1 hreplay
    rcases Adapter.run_script hm w committed with ⟨own, hs, hrun⟩ | ⟨index, fault, hs, hrun⟩
    · obtain ⟨w', hrecord, hnow, hl'⟩ := hl.record_eq m.name m.checksum
      obtain ⟨done, rest', blocks, after, w'', hpending, hblocks, hl'', hend⟩ :=
        ih hrest hl' (committed ++ block own) (report.add m)
      refine ⟨m :: done, rest', block own ++ blocks, after, w'', by rw [hpending]; rfl, ?_, ?_, ?_⟩
      · simp [blocks?, hs, hblocks]
      · rw [hnow, List.append_assoc] at hl''
        exact hl''
      · simp only [applyAll, bind, EStateM.bind, hrun, onWorld, hrecord]
        rw [← List.append_assoc]
        exact hend
    · refine ⟨[], m :: rest, [], schema, w, rfl, rfl, ?_,
        .inr ⟨m, rest, index, fault, rfl, hs, ?_⟩⟩
      · rw [List.map_nil, List.append_nil]
        exact hl
      · rw [List.append_nil]
        simp only [applyAll, bind, EStateM.bind, hrun]

/-! ### The whole run -/

/-- The pending migrations and the schema that they start from; no migrations when the run does not begin. -/
def outstanding (s : Settings) (w : World) (engine : String) : List Migration × State :=
  (start s w engine).toOption.getD ([], Ascending.empty)

/-- What is left behind when migrations were carried out, starting from the schema, and nothing else was. -/
structure CarriedOut (l : LedgerPlace) (engine : String) (schema : State)
    (before after : Session Script) (done : List Migration) : Prop where
  /-- The ledger has one more entry for each of them, in their order. -/
  recorded : l.applied after.world engine = (l.kept before.world engine).map fun entries =>
    entries ++ done.map (entryOf engine before.world.now)
  /-- The script has one more block for each of them that has statements, in their order. -/
  written : ∃ blocks reached, blocks? done schema = some (blocks, reached) ∧
    after.connection.committed = before.connection.committed ++ blocks
  /-- No transaction is open. -/
  closed : after.connection.pending = none

/-- What a run says at its end that carried out `done` and had `rest` left. -/
def Ends (s : Settings) (w : World) (engine : String) (done rest : List Migration) :
    EStateM.Result Failure (Session Script) Report → Prop
  | .ok report _ => rest = [] ∧ report.applied = done.map (·.name) ∧
      report.changes = (done.flatMap (·.changes)).length
  | .error failure _ =>
    if failure.isAdapter then
      ∃ m more index fault, rest = m :: more ∧ failure = .adapter m.name index false fault ∧
        blocks? (done ++ [m]) (outstanding s w engine).2 = none
    else done = [] ∧ start s w engine = .error failure

/-- The world and the connection when the work is over, whatever came of it. -/
def after {γ α : Type} : EStateM.Result Failure (Session γ) α → Session γ
  | .ok _ t => t
  | .error _ t => t

theorem applied_foldl_add (done : List Migration) (report : Report) :
    (done.foldl Report.add report).applied = report.applied ++ done.map (·.name) := by
  induction done generalizing report with
  | nil => simp
  | cons m rest ih => simp [ih, Report.add]

theorem changes_foldl_add (done : List Migration) (report : Report) :
    (done.foldl Report.add report).changes =
      report.changes + (done.flatMap (·.changes)).length := by
  induction done generalizing report with
  | nil => simp
  | cons m rest ih => simp [ih, Report.add, Nat.add_assoc]

variable {s : Settings} {w : World} {engine : String}

/-- A run that does not begin leaves the script alone, and the ledger as it finds it. -/
theorem migrate_of_start_error {failure : Failure} (h : start s w engine = .error failure)
    (script : Script) :
    failure.isAdapter = false ∧ ∃ w', s.ledger.applied w' engine = s.ledger.kept w engine ∧
      migrate s scriptAdapter engine ⟨w, script⟩ = .error failure ⟨w', script⟩ := by
  cases hacquire : s.ledger.acquire engine w with
  | error failure' w' =>
    obtain rfl : failure' = failure := by simpa [start, hacquire] using h
    refine ⟨acquire_isAdapter hacquire, w', LedgerPlace.applied_of_acquire_error hacquire, ?_⟩
    exact migrate_of_acquire_error hacquire _ script
  | ok _ held =>
    have hprepare : prepare s held engine = .error failure := by simpa [start, hacquire] using h
    refine ⟨prepare_withoutAdapter s held engine failure hprepare, s.ledger.release engine held, ?_, ?_⟩
    · exact (LedgerPlace.applied_release_of_acquire hacquire).trans
        (LedgerPlace.applied_of_acquire hacquire)
    · rw [migrate_of_acquire hacquire, migrateLocked_of_prepare_error hprepare, mapState_error]

/-- A run that begins carries out the pending migrations up to the first that cannot be rendered. -/
theorem migrate_of_start_ok {pending : List Migration} {schema : State}
    (h : start s w engine = .ok (pending, schema)) (hdry : s.dryRun = false)
    (hclock : w.now.Proper) (hwrites : s.ledger.Writable w engine) (committed : List Statement) :
    ∃ done rest t, pending = done ++ rest ∧
      CarriedOut s.ledger engine schema ⟨w, ⟨committed, none⟩⟩ t done ∧
      (rest = [] ∧ migrate s scriptAdapter engine ⟨w, ⟨committed, none⟩⟩ =
          .ok (done.foldl Report.add { engine }) t ∨
        ∃ m more index fault, rest = m :: more ∧ blocks? (done ++ [m]) schema = none ∧
          migrate s scriptAdapter engine ⟨w, ⟨committed, none⟩⟩ =
            .error (.adapter m.name index false fault) t) := by
  obtain ⟨held, hbegun⟩ := exists_begun h
  obtain ⟨⟨entries, happlied⟩, head, hreplay⟩ := replays_of_prepare hbegun.prepare
  have hheld := LedgerPlace.holds_of_acquire hbegun.acquire hwrites hclock happlied
  have hkept : s.ledger.kept w engine = .ok entries :=
    (LedgerPlace.applied_of_acquire hbegun.acquire).symm.trans happlied
  obtain ⟨done, rest, blocks, reached, w', hpending, hblocks, hl, hend⟩ :=
    applyAll_script hreplay hheld committed { engine }
  refine ⟨done, rest, ⟨s.ledger.release engine w', ⟨committed ++ blocks, none⟩⟩, hpending, ?_, ?_⟩
  · refine ⟨?_, ⟨blocks, reached, hblocks, rfl⟩, rfl⟩
    rw [hl.applied_release, hkept, LedgerPlace.now_of_acquire hbegun.acquire]
    rfl
  · rw [hbegun.migrate_eq hdry]
    rcases hend with ⟨hrest, hrun⟩ | ⟨m, more, index, fault, hrest, hm, hrun⟩
    · exact .inl ⟨hrest, by rw [hrun, mapState_ok]⟩
    · exact .inr ⟨m, more, index, fault, hrest, blocks?_concat_of_none hblocks hm, by rw [hrun, mapState_error]⟩

/-- **Ledger and script agree.** Whatever comes of a run, the migrations that the ledger gained and those that
the script gained are the same first part of the pending ones, each of them as a whole. -/
theorem migrate_script (s : Settings) (w : World) (script : Script) (engine : String)
    (hdry : s.dryRun = false) (hopen : script.pending = none) (hclock : w.now.Proper)
    (hwrites : s.ledger.Writable w engine) :
    ∃ done rest, (outstanding s w engine).1 = done ++ rest ∧
      CarriedOut s.ledger engine (outstanding s w engine).2 ⟨w, script⟩
        (after (migrate s scriptAdapter engine ⟨w, script⟩)) done ∧
      Ends s w engine done rest (migrate s scriptAdapter engine ⟨w, script⟩) := by
  cases hstart : start s w engine with
  | error failure =>
    obtain ⟨hnone, w', happlied, hrun⟩ := migrate_of_start_error hstart script
    have hout : outstanding s w engine = ([], Ascending.empty) := by rw [outstanding, hstart]; rfl
    rw [hrun, hout]
    refine ⟨[], [], rfl, ⟨?_, ⟨[], Ascending.empty, rfl, (List.append_nil _).symm⟩, hopen⟩, ?_⟩
    · simp only [after, happlied]
      cases s.ledger.kept w engine <;> simp [Except.map]
    · simp [Ends, hnone, hstart]
  | ok position =>
    obtain ⟨pending, schema⟩ := position
    obtain ⟨committed, held⟩ := script
    obtain rfl : held = none := hopen
    have hout : outstanding s w engine = (pending, schema) := by rw [outstanding, hstart]; rfl
    obtain ⟨done, rest, t, hpending, hcarried, hend⟩ :=
      migrate_of_start_ok hstart hdry hclock hwrites committed
    refine ⟨done, rest, by rw [hout]; exact hpending, ?_⟩
    rcases hend with ⟨hrest, hrun⟩ | ⟨m, more, index, fault, hrest, hm, hrun⟩
    · rw [hrun, hout]
      refine ⟨hcarried, hrest, ?_, ?_⟩
      · rw [applied_foldl_add, List.nil_append]
      · rw [changes_foldl_add, Nat.zero_add]
    · rw [hrun, hout]
      refine ⟨hcarried, m, more, index, fault, hrest, rfl, ?_⟩
      rw [hout]
      exact hm

/-- A project with one migration. The directory of its ledger is not there yet. -/
def sampleWorld : World where
  disk := ⟨.ofList [(["migrations"], .directory), (["migrations", "main"], .directory),
    (["migrations", "main", "0001_20240101000000_initial.toml"], .text (Migration.toToml
      { name := "0001_20240101000000_initial", database := "main",
        changes := [.createModel "tag" [.autoKey "id"]] }))]⟩
  now := ⟨1704067200, 0⟩

def sampleSettings : Settings where
  directory := "migrations"
  ledger := .directory "ledger"

theorem sampleWorld_writable : sampleSettings.ledger.Writable sampleWorld "main" := by
  intro made file text hmade hfile
  have hsteps : Store.Path.steps "ledger" = [.into "ledger"] := by decide +kernel
  have hname : Store.Disk.isName "ledger" = true := by decide
  have habsent : sampleWorld.disk.node? ["ledger"] = none := by decide
  obtain rfl : sampleWorld.disk.put ["ledger"] .directory = made := by
    simpa [Store.Disk.makeDirectory?, hsteps, Store.Disk.walkMaking, hname, habsent] using hmade
  have hmade : (sampleWorld.disk.put ["ledger"] .directory).node? ["ledger"] = some .directory := by
    decide
  have hready : Files.Ready (sampleWorld.disk.put ["ledger"] .directory) "ledger" "main" ["ledger"] :=
    { valid := by decide
      found := by simp [hsteps, Store.Disk.walk, hname, hmade]
      fits := by decide
      entries := by decide
      beside := by decide }
  rw [Files.entriesPath_eq hready.valid] at hfile
  rw [← Except.ok.inj hfile, hready.replace_eq]
  rfl

theorem migrate_script_sample :
    sampleSettings.ledger.Writable sampleWorld "main" ∧
      ∃ done rest, (outstanding sampleSettings sampleWorld "main").1 = done ++ rest ∧
        CarriedOut sampleSettings.ledger "main" (outstanding sampleSettings sampleWorld "main").2
          ⟨sampleWorld, .empty⟩
          (after (migrate sampleSettings scriptAdapter "main" ⟨sampleWorld, .empty⟩)) done ∧
        Ends sampleSettings sampleWorld "main" done rest
          (migrate sampleSettings scriptAdapter "main" ⟨sampleWorld, .empty⟩) :=
  ⟨sampleWorld_writable,
    migrate_script _ _ _ _ rfl rfl ⟨by decide, by decide, by decide⟩ sampleWorld_writable⟩

end Engine

end Schemata
