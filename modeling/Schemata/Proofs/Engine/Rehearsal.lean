import Schemata.Proofs.Engine.Drafting
import Schemata.Proofs.Engine.Locking
import Schemata.Proofs.Engine.Stages

/-! Dry runs.

A dry run takes the lock, finds out what a run has before it, and gives the lock back (`migrate_dry`). It leaves
everything as it was, and it fails as a run fails that gets to no change. What it does not find out is whether the
ledger takes an entry: a run whose first migration has no changes may fail because of that and nothing else
(`Unrecordable`). -/
namespace Schemata
open Store Disk

/-! ### The ledger -/

namespace Ledger.Files

variable {d d' : Disk} {directory : Path} {engine : String} {p : Place} {now : Calendar.Instant}

/-- Entries that can be replaced while the lock is held could be replaced before. -/
theorem isSome_replace_of_ready (h : acquire directory engine now d = .ok () d') (hready : Ready d' directory engine p)
    (made : Disk) (file : Path) (text : String) (hmade : d.makeDirectory? directory = some made)
    (hfile : entriesPath directory engine = .ok file) : (replace made file text).isSome = true := by
  obtain ⟨made', q, content, hm, hv, hq, -, hn, rfl⟩ := of_acquire_ok h
  obtain rfl : made' = made := Option.some.inj (hm.symm.trans hmade)
  obtain rfl : p = q := (eq_of_walk hready.found).trans (eq_of_walk hq).symm
  have hentries := hready.entries
  have hbeside := hready.beside
  rw [node?_put_ne (place_ne (lockName_ne engine))] at hentries
  rw [node?_put_ne (place_ne (lockName_ne_beside engine))] at hbeside
  have hbefore : Ready made' directory engine p := ⟨hv, hq, hready.fits, hentries, hbeside⟩
  rw [entriesPath_eq hv, Except.ok.injEq] at hfile
  rw [← hfile, hbefore.replace_eq, Option.isSome_some]

end Ledger.Files

namespace Engine
open Ledger

namespace LedgerPlace

variable {l : LedgerPlace} {w w' held : World} {engine : String} {entries : List Entry}

/-- A ledger that takes no entries. -/
theorem record_of_not_writable (hacquire : l.acquire engine w = .ok () held)
    (happlied : l.applied held engine = .ok entries) (hnot : ¬ l.Writable w engine) (migration checksum : String) :
    l.record migration engine checksum held = .error .io held := by
  cases l with
  | memory => exact absurd trivial hnot
  | directory path =>
    simp only [acquire, World.onDisk] at hacquire
    split at hacquire
    · rename_i d hfiles
      cases hacquire
      have happlied : Files.applied d path engine = .ok entries := happlied
      have hv := Files.valid_of_applied happlied
      obtain ⟨p, hp⟩ := Files.found_of_acquire hfiles
      simp only [record, World.onDisk, Files.record, happlied, Files.entriesPath_eq hv, makeDirectory?_of_found hp]
      cases hreplace : Files.replace d (path.join (Files.entriesName engine))
          (write (entries ++ [⟨migration, engine, checksum, w.now⟩])) with
      | none => rfl
      | some replaced =>
        exact absurd (Files.isSome_replace_of_ready hfiles (Files.Ready.of_replace hv hp hreplace)) hnot
    · cases hacquire

/-- A world to which nothing was done: all files, entries and locks are as they were, and nothing is new but
directories on the way to the ledger. -/
structure Untouched (l : LedgerPlace) (w w' : World) : Prop where
  now : w'.now = w.now
  memory : w'.memory = w.memory
  disk : ChangesAt w.disk w'.disk (· ∈ placesFrom [] l.steps) fun _ => False
  entries : ∀ engine, l.kept w' engine = l.kept w engine

theorem untouched_of_acquire_error {failure : Failure} (h : l.acquire engine w = .error failure w') :
    l.Untouched w w' := by
  have hkept := l.kept_acquire w engine
  rw [h] at hkept
  cases l with
  | memory =>
    rw [acquire_memory_eq] at h
    split at h <;> cases h
    exact ⟨rfl, rfl, .refl _, hkept⟩
  | directory path =>
    simp only [acquire, World.onDisk] at h
    split at h <;> cases h
    rename_i hfiles
    refine ⟨rfl, rfl, ?_, hkept⟩
    rw [Files.of_acquire_error hfiles]
    exact changesAt_getD w.disk path

/-- Taking the lock and giving it back at once does nothing. -/
theorem untouched_of_acquire (h : l.acquire engine w = .ok () held) : l.Untouched w (l.release engine held) := by
  have hkept (other : String) : l.kept (l.release engine held) other = l.kept w other := by
    have hacquire := l.kept_acquire w engine other
    rw [h] at hacquire
    exact (kept_release (reached_of_acquire h)).trans hacquire
  cases l with
  | memory =>
    rw [acquire_memory_eq] at h
    split at h <;> cases h
    rename_i hfree
    have hheld : w.memory.held.filter (· ≠ engine) = w.memory.held :=
      List.filter_eq_self.2 fun e he => decide_eq_true fun hsame => hfree (hsame ▸ he)
    refine ⟨rfl, ?_, .refl _, hkept⟩
    simp only [release, Memory.release, List.filter_cons, ne_eq, not_true, decide_false, Bool.false_eq_true, if_false]
    rw [hheld]
  | directory path =>
    simp only [acquire, World.onDisk] at h
    split at h <;> cases h
    rename_i d hfiles
    obtain ⟨made, hmade, hreached, hrelease⟩ := Files.exists_made_of_acquire hfiles
    exact ⟨rfl, rfl, (changesAt_makeDirectory? hmade).trans
      ((hrelease d (fun _ => False) hreached not_false (.refl d)).mono (fun _ => False.elim) fun _ => id), hkept⟩

end LedgerPlace

/-! ### Runs, dry and real -/

section Runs
variable {γ : Type} {s : Settings} {w : World} {engine : String} {pending : List Migration} {schema : State}

/-- **A dry run** does nothing, and says what a run has before it or why it does not begin. -/
theorem migrate_dry (hdry : s.dryRun = true) (A : Adapter γ) (engine : String) (t : Session γ) :
    ∃ w', s.ledger.Untouched t.world w' ∧ migrate s A engine t =
      match start s t.world engine with
      | .ok found => .ok (.dry engine found.1) { t with world := w' }
      | .error failure => .error failure { t with world := w' } := by
  cases hacquire : s.ledger.acquire engine t.world with
  | error failure w' =>
    refine ⟨w', LedgerPlace.untouched_of_acquire_error hacquire, ?_⟩
    simp only [start, hacquire]
    exact migrate_of_acquire_error hacquire A t.connection
  | ok _ held =>
    refine ⟨s.ledger.release engine held, LedgerPlace.untouched_of_acquire hacquire, ?_⟩
    rw [show t = ⟨t.world, t.connection⟩ from rfl, migrate_of_acquire hacquire]
    simp only [start, hacquire]
    cases hprepare : prepare s held engine with
    | error failure => rw [migrateLocked_of_prepare_error hprepare, mapState_error]
    | ok found => rw [migrateLocked_of_dry hprepare hdry, mapState_ok]

end Runs

/-! ### Failing first -/

/-- The run fails with this before any change is handed to the adapter. -/
def FailsFirst {γ : Type} (s : Settings) (A : Adapter γ) (engine : String) (t : Session γ) (failure : Failure) : Prop :=
  (observe s A engine t).failure? = some failure ∧ (observe s A engine t).calls = []

/-- The first migration that is pending has no changes, and the ledger does not take its entry. -/
def Unrecordable (s : Settings) (w : World) (engine : String) : Prop :=
  ∃ m rest schema, start s w engine = .ok (m :: rest, schema) ∧ m.changes = [] ∧ ¬ s.ledger.Writable w engine

section Failing
variable {s : Settings} {w held : World} {engine : String} {pending : List Migration} {schema head : State}
  {l : LedgerPlace} {entries : List Entry} {failure : Failure}

theorem changes_ne_nil {m : Migration} (h : Ddl.statements? m.changes schema = none) : m.changes ≠ [] := by
  intro hnil
  rw [hnil] at h
  cases h

/-- Migrations that replay are carried out or have a change that the adapter is called for, if the ledger takes all
entries. -/
theorem applyAll_of_no_calls (hreplay : pending.foldlM Replay.step schema = .ok head) (hl : l.Holds w engine entries)
    (committed : List Ddl.Statement) (report : Report) (calls : List (Change × State)) :
    ∃ more, applyAll l scriptAdapter.watched.inSession engine pending schema report
          (Session.watch calls ⟨w, ⟨committed, none⟩⟩) =
        mapState (Session.watch (calls ++ more))
          (applyAll l scriptAdapter.inSession engine pending schema report ⟨w, ⟨committed, none⟩⟩) ∧
      (more = [] → failure? (applyAll l scriptAdapter.inSession engine pending schema report ⟨w, ⟨committed, none⟩⟩) =
        none) := by
  induction pending generalizing schema w entries committed report calls with
  | nil => exact ⟨[], by rw [List.append_nil]; rfl, fun _ => rfl⟩
  | cons m rest ih =>
    obtain ⟨next, hm, hrest⟩ := Replay.foldlM_cons_eq_ok_iff.1 hreplay
    obtain ⟨more, hwatched, -, -, hnone⟩ := scriptAdapter.run_watched m schema ⟨committed, none⟩ calls
    simp only [applyAll, bind, EStateM.bind, Adapter.run_inSession, onConnection, Session.watch, hwatched]
    rcases Adapter.run_script_cases hm committed with ⟨own, -, hrun⟩ | ⟨index, fault, hs, hrun⟩
    · obtain ⟨w', hrecord, -, hl'⟩ := hl.record_eq m.name m.checksum
      obtain ⟨more', hrest', hok⟩ := ih hrest hl' (committed ++ Ddl.block own) (report.add m) (calls ++ more)
      simp only [hrun, mapState_ok, onWorld, hrecord]
      refine ⟨more ++ more', ?_, fun hnil => hok (List.append_eq_nil_iff.1 hnil).2⟩
      rw [← List.append_assoc]
      exact hrest'
    · simp only [hrun, mapState_error]
      exact ⟨more, rfl, fun hnil => absurd (hnone () _ rfl hnil) (changes_ne_nil hs)⟩

/-- A ledger that takes no entry ends the run at the first migration. -/
theorem applyAll_of_record_error {m : Migration} {next : State}
    (hrecord : l.record m.name engine m.checksum held = .error .io held)
    (hm : Change.applyAll m.changes schema = .ok next) (rest : List Migration) (committed : List Ddl.Statement)
    (report : Report) (calls : List (Change × State)) :
    ∃ more, (more = [] ↔ m.changes = []) ∧
      applyAll l scriptAdapter.watched.inSession engine (m :: rest) schema report
          (Session.watch calls ⟨held, ⟨committed, none⟩⟩) =
        mapState (Session.watch (calls ++ more))
          (applyAll l scriptAdapter.inSession engine (m :: rest) schema report ⟨held, ⟨committed, none⟩⟩) ∧
      ((∃ own, Ddl.statements? m.changes schema = some (own, next) ∧
          applyAll l scriptAdapter.inSession engine (m :: rest) schema report ⟨held, ⟨committed, none⟩⟩ =
            .error .io ⟨held, ⟨committed ++ Ddl.block own, none⟩⟩) ∨
        ∃ index fault, Ddl.statements? m.changes schema = none ∧
          applyAll l scriptAdapter.inSession engine (m :: rest) schema report ⟨held, ⟨committed, none⟩⟩ =
            .error (.adapter m.name index false fault) ⟨held, ⟨committed, none⟩⟩) := by
  obtain ⟨more, hwatched, hmore, -, hnone⟩ := scriptAdapter.run_watched m schema ⟨committed, none⟩ calls
  have hcalls : more = [] ↔ m.changes = [] := by
    refine ⟨hnone () _ rfl, fun hnil => ?_⟩
    rw [hnil] at hmore
    exact List.prefix_nil.1 hmore
  refine ⟨more, hcalls, ?_⟩
  simp only [applyAll, bind, EStateM.bind, Adapter.run_inSession, onConnection, Session.watch, hwatched]
  rcases Adapter.run_script_cases hm committed with ⟨own, hs, hrun⟩ | ⟨index, fault, hs, hrun⟩
  · simp only [hrun, mapState_ok, onWorld, hrecord]
    exact ⟨rfl, .inl ⟨own, hs, rfl⟩⟩
  · simp only [hrun, mapState_error]
    exact ⟨rfl, .inr ⟨index, fault, hs, rfl⟩⟩

variable {script : Ddl.Script}

theorem failsFirst_iff_of_start_error {reason : Failure} (hstart : start s w engine = .error reason) :
    FailsFirst s scriptAdapter engine ⟨w, script⟩ failure ↔ failure = reason := by
  obtain ⟨-, w', -, hrun⟩ := migrate_of_start_error hstart script
  have hcalls := calls_observe s scriptAdapter engine ⟨w, script⟩
  rw [outstanding, hstart] at hcalls
  have hfails : (observe s scriptAdapter engine ⟨w, script⟩).failure? = some reason := by
    simp only [observe, hrun, failure?]
  rw [FailsFirst, hfails, List.prefix_nil.1 hcalls, Option.some.injEq]
  exact ⟨fun h => h.1.symm, fun h => ⟨h.symm, rfl⟩⟩

/-- What is seen of a run that has begun is what is seen while it carries out its migrations. -/
theorem Begun.failsFirst_iff (h : Begun s w engine held pending schema) (hdry : s.dryRun = false)
    {more : List (Change × State)}
    (hwatched : applyAll s.ledger scriptAdapter.watched.inSession engine pending schema { engine }
        (Session.watch [] ⟨held, script⟩) =
      mapState (Session.watch ([] ++ more))
        (applyAll s.ledger scriptAdapter.inSession engine pending schema { engine } ⟨held, script⟩)) :
    FailsFirst s scriptAdapter engine ⟨w, script⟩ failure ↔
      failure? (applyAll s.ledger scriptAdapter.inSession engine pending schema { engine } ⟨held, script⟩) =
        some failure ∧ more = [] := by
  simp only [Session.watch] at hwatched
  simp only [FailsFirst, observe, Session.watch, h.migrate_eq hdry, hwatched]
  cases applyAll s.ledger scriptAdapter.inSession engine pending schema { engine } ⟨held, script⟩ <;>
    simp [failure?, after, mapState, Session.watch]

/-- **A run that begins** fails without a call only where the ledger does not take the entry of a migration that has no
changes. -/
theorem failsFirst_iff_of_start (hdry : s.dryRun = false) (hstart : start s w engine = .ok (pending, schema))
    (hclock : w.now.Proper) (committed : List Ddl.Statement) :
    FailsFirst s scriptAdapter engine ⟨w, ⟨committed, none⟩⟩ failure ↔ Unrecordable s w engine ∧ failure = .io := by
  obtain ⟨held, hbegun⟩ := exists_begun hstart
  obtain ⟨⟨entries, happlied⟩, head, hreplay⟩ := replays_of_prepare hbegun.prepare
  by_cases hwritable : s.ledger.Writable w engine
  · have hl := LedgerPlace.holds_of_acquire hbegun.acquire hwritable hclock happlied
    obtain ⟨more, hwatched, hok⟩ := applyAll_of_no_calls hreplay hl committed { engine } []
    rw [hbegun.failsFirst_iff hdry hwatched]
    constructor
    · rintro ⟨hfails, hnil⟩
      rw [hok hnil] at hfails
      cases hfails
    · rintro ⟨⟨_, _, _, -, -, hnot⟩, -⟩
      exact absurd hwritable hnot
  · cases pending with
    | nil =>
      have hnothing : applyAll s.ledger scriptAdapter.watched.inSession engine [] schema { engine }
          (Session.watch [] ⟨held, ⟨committed, none⟩⟩) =
        mapState (Session.watch ([] ++ []))
          (applyAll s.ledger scriptAdapter.inSession engine [] schema { engine } ⟨held, ⟨committed, none⟩⟩) := rfl
      rw [hbegun.failsFirst_iff hdry hnothing]
      constructor
      · rintro ⟨hfails, -⟩
        cases hfails
      · rintro ⟨⟨_, _, _, hfirst, -⟩, -⟩
        cases hstart.symm.trans hfirst
    | cons m rest =>
      obtain ⟨next, hm, -⟩ := Replay.foldlM_cons_eq_ok_iff.1 hreplay
      have hrecord := LedgerPlace.record_of_not_writable hbegun.acquire happlied hwritable m.name m.checksum
      obtain ⟨more, hnone, hwatched, hend⟩ := applyAll_of_record_error hrecord hm rest committed { engine } []
      rw [hbegun.failsFirst_iff hdry hwatched, hnone]
      have hio (hnil : m.changes = []) : failure? (applyAll s.ledger scriptAdapter.inSession engine (m :: rest) schema
          { engine } ⟨held, ⟨committed, none⟩⟩) = some .io := by
        rcases hend with ⟨own, -, hend⟩ | ⟨index, fault, hs, -⟩
        · rw [hend]
          rfl
        · exact absurd hnil (changes_ne_nil hs)
      constructor
      · rintro ⟨hfails, hnil⟩
        rw [hio hnil] at hfails
        exact ⟨⟨m, rest, schema, hstart, hnil, hwritable⟩, (Option.some.inj hfails).symm⟩
      · rintro ⟨⟨_, _, _, hfirst, hnil, -⟩, rfl⟩
        cases hstart.symm.trans hfirst
        exact ⟨hio hnil, hnil⟩

end Failing

/-! ### Following a plan -/

/-- A run that follows its plan up to some migration: it is done with those before, and `rest` is left. -/
structure Follows (l : LedgerPlace) (engine : String) (schema : State) (before : Session Ddl.Script)
    (done rest : List Migration) (r : EStateM.Result Failure (Session Ddl.Script) Report) : Prop where
  /-- The ledger has one more entry for each migration that is done, in their order. -/
  recorded : l.applied (after r).world engine = (l.kept before.world engine).map fun entries =>
    entries ++ done.map (entryOf engine before.world.now)
  /-- The script has the blocks of these, and at most that of one more, which could not be recorded. No transaction is
  open. -/
  written : ∃ tried blocks reached, tried <+: rest.take 1 ∧
    Ddl.blocks? (done ++ tried) schema = some (blocks, reached) ∧
    (after r).connection = ⟨before.connection.committed ++ blocks, none⟩
  /-- A run that succeeds is done with the whole plan and says so. -/
  succeeds : ∀ report t, r = .ok report t → rest = [] ∧ report.applied = done.map (·.name)
  /-- A run that fails is not. -/
  fails : ∀ failure t, r = .error failure t → rest ≠ []

section Following
variable {s : Settings} {w held : World} {engine : String} {pending : List Migration} {schema : State}

theorem follows_of_writable (hdry : s.dryRun = false) (hstart : start s w engine = .ok (pending, schema))
    (hclock : w.now.Proper) (hwritable : s.ledger.Writable w engine) (committed : List Ddl.Statement) :
    ∃ done rest, pending = done ++ rest ∧ Follows s.ledger engine schema ⟨w, ⟨committed, none⟩⟩ done rest
      (migrate s scriptAdapter engine ⟨w, ⟨committed, none⟩⟩) := by
  obtain ⟨done, rest, t, hpending, ⟨hrecorded, ⟨blocks, reached, hblocks, hcommitted⟩, hclosed⟩, hend⟩ :=
    migrate_of_start_ok hstart hdry hclock hwritable committed
  have hwritten : ∃ tried blocks reached, tried <+: rest.take 1 ∧
      Ddl.blocks? (done ++ tried) schema = some (blocks, reached) ∧ t.connection = ⟨committed ++ blocks, none⟩ := by
    refine ⟨[], blocks, reached, List.nil_prefix, by rwa [List.append_nil], ?_⟩
    rw [← hcommitted, ← hclosed]
  refine ⟨done, rest, hpending, ?_⟩
  rcases hend with ⟨hrest, hrun⟩ | ⟨m, more, index, fault, hrest, -, hrun⟩
  · rw [hrun]
    refine ⟨hrecorded, hwritten, fun _ _ he => ?_, fun _ _ he => by cases he⟩
    cases he
    exact ⟨hrest, by rw [applied_foldl_add, List.nil_append]⟩
  · rw [hrun]
    exact ⟨hrecorded, hwritten, fun _ _ he => (by cases he), fun _ _ _ hnil => by cases hrest.symm.trans hnil⟩

theorem follows_of_not_writable (hdry : s.dryRun = false) (hbegun : Begun s w engine held pending schema)
    (hnot : ¬ s.ledger.Writable w engine) (committed : List Ddl.Statement) :
    Follows s.ledger engine schema ⟨w, ⟨committed, none⟩⟩ [] pending
      (migrate s scriptAdapter engine ⟨w, ⟨committed, none⟩⟩) := by
  obtain ⟨⟨entries, happlied⟩, head, hreplay⟩ := replays_of_prepare hbegun.prepare
  have hrecorded : s.ledger.applied (s.ledger.release engine held) engine =
      (s.ledger.kept w engine).map fun entries => entries ++ [].map (entryOf engine w.now) := by
    rw [LedgerPlace.applied_release_of_acquire hbegun.acquire, LedgerPlace.applied_of_acquire hbegun.acquire]
    cases s.ledger.kept w engine <;> simp [Except.map]
  rw [hbegun.migrate_eq hdry]
  cases pending with
  | nil =>
    refine ⟨hrecorded, ⟨[], [], schema, List.nil_prefix, rfl, by rw [List.append_nil]; rfl⟩, fun _ _ he => ?_,
      fun _ _ he => by cases he⟩
    cases he
    exact ⟨rfl, rfl⟩
  | cons m rest =>
    obtain ⟨next, hm, -⟩ := Replay.foldlM_cons_eq_ok_iff.1 hreplay
    have hrecord := LedgerPlace.record_of_not_writable hbegun.acquire happlied hnot m.name m.checksum
    obtain ⟨-, -, -, hend⟩ := applyAll_of_record_error hrecord hm rest committed { engine } []
    rcases hend with ⟨own, hs, hend⟩ | ⟨index, fault, hs, hend⟩
    · rw [hend]
      refine ⟨hrecorded, ⟨[m], Ddl.block own, next, List.prefix_rfl, ?_, rfl⟩, fun _ _ he => (by cases he),
        fun _ _ _ => List.cons_ne_nil m rest⟩
      simp [Ddl.blocks?, hs]
    · rw [hend]
      exact ⟨hrecorded, ⟨[], [], schema, List.nil_prefix, rfl, by rw [List.append_nil]; rfl⟩,
        fun _ _ he => (by cases he), fun _ _ _ => List.cons_ne_nil m rest⟩

end Following

/-! ### Dry runs and runs -/

/-- A dry run of an engine, next to one that is none. -/
structure Rehearses (s : Settings) (engine : String) (t : Session Ddl.Script) : Prop where
  connection : (after (migrate s.rehearsing scriptAdapter engine t)).connection = t.connection
  world : s.ledger.Untouched t.world (after (migrate s.rehearsing scriptAdapter engine t)).world
  /-- What a run fails with before its first call is what the dry run fails with, unless the ledger is to blame. -/
  failsFirst_iff : ∀ failure, FailsFirst s.acting scriptAdapter engine t failure ↔
    failure? (migrate s.rehearsing scriptAdapter engine t) = some failure ∨
      Unrecordable s t.world engine ∧ failure = .io
  /-- A run follows what the dry run has planned. -/
  follows : ∀ report t', migrate s.rehearsing scriptAdapter engine t = .ok report t' →
    ∃ planned schema done rest, start s t.world engine = .ok (planned, schema) ∧
      report.planned = planned.map (·.name) ∧ planned = done ++ rest ∧
      Follows s.ledger engine schema t done rest (migrate s.acting scriptAdapter engine t)

section Predicting
variable {s : Settings} {engine : String} {t : Session Ddl.Script}

theorem rehearses (hopen : t.connection.pending = none) (hclock : t.world.now.Proper) : Rehearses s engine t := by
  obtain ⟨w, committed, held⟩ := t
  obtain rfl : held = none := hopen
  obtain ⟨w', huntouched, hdry⟩ := migrate_dry (s := s.rehearsing) rfl scriptAdapter engine ⟨w, ⟨committed, none⟩⟩
  have hsame : start s.rehearsing w engine = start s w engine := rfl
  cases hstart : start s w engine with
  | error reason =>
    simp only [hsame, hstart] at hdry
    refine ⟨by rw [hdry]; rfl, by rw [hdry]; exact huntouched, fun failure => ?_, fun report t' he => ?_⟩
    · rw [failsFirst_iff_of_start_error (s := s.acting) hstart, hdry, failure?, Option.some.injEq, eq_comm]
      refine (or_iff_left ?_).symm
      rintro ⟨⟨_, _, _, hfirst, -⟩, -⟩
      cases hstart.symm.trans hfirst
    · cases hdry.symm.trans he
  | ok found =>
    obtain ⟨planned, schema⟩ := found
    simp only [hsame, hstart] at hdry
    refine ⟨by rw [hdry]; rfl, by rw [hdry]; exact huntouched, fun failure => ?_, fun report t' he => ?_⟩
    · rw [failsFirst_iff_of_start (s := s.acting) rfl hstart hclock, hdry, failure?]
      exact ⟨.inr, fun h => h.resolve_left nofun⟩
    · cases hdry.symm.trans he
      by_cases hwritable : s.ledger.Writable w engine
      · obtain ⟨done, rest, hsplit, hfollows⟩ :=
          follows_of_writable (s := s.acting) rfl hstart hclock hwritable committed
        exact ⟨planned, schema, done, rest, hstart, rfl, hsplit, hfollows⟩
      · obtain ⟨held, hbegun⟩ := exists_begun (s := s.acting) hstart
        exact ⟨planned, schema, [], planned, hstart, rfl, rfl,
          follows_of_not_writable rfl hbegun hwritable committed⟩

end Predicting

/-- **Dry runs change nothing and predict the real ones.** A dry run leaves files, entries, locks and the script as
they were. It fails exactly if the run that is none fails before its first call, and with the same failure, unless the
ledger does not take the entry of a first migration that has no changes. Otherwise the run applies what was planned, in
this order, or fails when it has applied a part of it. The same holds for making a migration: nothing is written, and
the plan is the one that is carried out, if the directory can be made and the file is not there. -/
theorem dry_runs_predict {s : Settings} {engine : String} {t : Session Ddl.Script} (hopen : t.connection.pending = none)
    (hclock : t.world.now.Proper) :
    Rehearses s engine t ∧ ∀ models label, Drafts s engine models label t.world :=
  ⟨rehearses hopen hclock, fun models label => drafts s engine models label hclock⟩

/-- A run with a migration before it, and a migration that is planned and then made. -/
theorem dry_runs_predict_sample : Rehearses sampleSettings "main" ⟨sampleWorld, .empty⟩ ∧
    ∃ p q w, make freshSettings.rehearsing "main" settledModels none freshWorld = .ok p freshWorld ∧
      make freshSettings.acting "main" settledModels none freshWorld = .ok q w ∧ q.path.isSome = true ∧
      q.migration = p.migration ∧ q.warnings = p.warnings := by
  have hdraft : Drafts freshSettings "main" settledModels none freshWorld :=
    (dry_runs_predict (t := ⟨freshWorld, .empty⟩) rfl (by decide)).2 _ _
  refine ⟨(dry_runs_predict rfl (by decide)).1, ?_⟩
  have hbetween : Diff.between Ascending.empty settledModels = .ok (firstDiff settledModels) := rfl
  obtain ⟨p, hplan, hm⟩ := exists_plan loadChain_fresh rfl hbetween (by decide) rfl (nextMigration_first _)
  have hdry := make_dry (s := freshSettings.rehearsing) rfl hplan hm
  obtain ⟨q, w, hmake, -⟩ := exists_make (s := freshSettings.acting) wellFormed_fresh opens_fresh rfl loadChain_fresh
    rfl hbetween (by decide) (by decide) rfl (nextMigration_first _) (by decide) (by decide)
  obtain ⟨-, m, -, hwrites⟩ := hdraft.planned p freshWorld hdry
  cases hmade : freshWorld.disk.makeDirectory? (Directory.own freshSettings.directory "main") with
  | none => cases hmake.symm.trans (hwrites.barred hmade)
  | some made =>
    cases hnode : made.node? (endOf (Directory.own freshSettings.directory "main").steps ++
        [Directory.fileName m.name]) with
    | some n => cases hmake.symm.trans (hwrites.taken made n hmade hnode)
    | none => exact ⟨p, _, _, hdry, hwrites.written made hmade hnode, rfl, rfl, rfl⟩

/-! ### What a dry run does not foresee -/

/-- A migration that has no changes. -/
def emptyMigration : Migration where
  name := "0001_20240101000000_initial"
  database := "main"

/-- A directory is in the place of the file beside the entries. -/
def blockedDisk : Disk := (Disk.empty.put ["ledger"] .directory).put ["ledger", "main.toml.tmp"] .directory

/-- A world with a migration whose entry the ledger does not take. -/
def blockedWorld : World :=
  { freshWorld with disk := stateOf (Directory.writeMigration "migrations" emptyMigration blockedDisk) }

theorem wellFormed_blocked : blockedDisk.WellFormed :=
  (wellFormed_empty.put (p := []) ⟨by decide, by decide, by decide, by decide⟩ rfl (by decide)).put
    (p := ["ledger"]) ⟨by decide, by decide, by decide, by decide⟩ (by decide) (by decide)

theorem opens_blocked :
    blockedDisk.Opens [] (Directory.own "migrations" emptyMigration.database).steps freshPlace := by
  rw [emptyMigration, steps_own]
  exact .make (by decide) (by decide)

theorem isFileName_emptyMigration : Path.IsFileName (Directory.fileName emptyMigration.name) :=
  ⟨by decide, by decide, by decide, by decide⟩

theorem written_blocked :
    Directory.Written blockedDisk blockedWorld.disk "migrations" emptyMigration freshPlace := by
  obtain ⟨path, disk, hwrite⟩ := Directory.exists_writeMigration wellFormed_blocked opens_blocked (by decide)
    isFileName_emptyMigration (by decide) (by decide)
  have hdisk : blockedWorld.disk = disk := by
    show stateOf _ = _
    rw [hwrite]
    rfl
  rw [hdisk]
  exact (Directory.of_writeMigration wellFormed_blocked opens_blocked isFileName_emptyMigration hwrite).2

theorem found_blocked : blockedWorld.disk.walk [] (Path.steps "ledger") = .found ["ledger"] .directory := by
  decide +kernel

theorem loadChain_blocked : loadChain apartSettings blockedWorld "main" = .ok [emptyMigration] := by
  have ho : blockedDisk.Opens [] (Directory.own apartSettings.directory emptyMigration.database).steps freshPlace :=
    opens_blocked
  have hchain : loadChain apartSettings { freshWorld with disk := blockedDisk } emptyMigration.database = .ok [] :=
    loadChain_of_nil (by decide) wellFormed_blocked ho (by decide)
  have hdoc : Toml.faithful emptyMigration.members = true := by
    rw [Toml.faithful_eq]
    decide +kernel
  have hblank : Text.isBlankText emptyMigration.name = false := by decide
  have hgrown := loadChain_of_written (w := { freshWorld with disk := blockedDisk }) wellFormed_blocked ho
    written_blocked isFileName_emptyMigration hblank hdoc hchain rfl
  exact hgrown

theorem standing_blocked :
    Standing apartSettings "main" freshPlace ["ledger"] blockedWorld [] [emptyMigration] [] where
  wellFormed := written_blocked.wellFormed
  opens := written_blocked.opens
  reaches := opens_of_walk found_blocked
  chain := loadChain_blocked
  applied := Files.applied_of_none (by decide) written_blocked.wellFormed.rooted (opens_of_walk found_blocked)
    fits_main (by decide +kernel)
  records := rfl

/-- The run begins, for nothing is in the way of the lock. -/
theorem start_blocked : start apartSettings blockedWorld "main" = .ok ([emptyMigration], Ascending.empty) := by
  have hfree : apartSettings.ledger.Free ["ledger"] blockedWorld "main" :=
    ⟨by decide, found_blocked, by decide, by decide +kernel⟩
  obtain ⟨held, hacquire⟩ := LedgerPlace.acquire_of_free hfree
  obtain ⟨hkept, -, happlied⟩ :=
    LedgerPlace.acquire_ok written_blocked.wellFormed standing_blocked.reaches fits_main hacquire
  have hheld : Standing apartSettings "main" freshPlace ["ledger"] held [] [emptyMigration] [] :=
    standing_blocked.of_kept apart_apart hkept (happlied.trans standing_blocked.applied) rfl rfl
  simp only [start, hacquire]
  rcases hheld.prepare_eq with ⟨_, schema, -, hempty, hprepare⟩ | ⟨failure, hfailed, -⟩
  · cases hempty
    exact hprepare
  · cases hfailed

theorem not_writable_blocked : ¬ apartSettings.ledger.Writable blockedWorld "main" := by
  intro hwritable
  obtain ⟨disk, hreplace⟩ := Option.isSome_iff_exists.1
    (hwritable _ _ "" (makeDirectory?_of_found found_blocked) (Files.entriesPath_eq (by decide)))
  exact (Files.Ready.of_replace (by decide) found_blocked hreplace).beside (by decide +kernel)

/-- A name that no directory can have. -/
def longEngine : String := String.ofList (List.replicate 256 'a')

/-- **What a dry run does not foresee**: that the ledger takes no entry, where a run gets to that before its first call,
and that the directory of an engine cannot be made. -/
theorem exists_unforeseen_failure :
    ((∃ report t, migrate apartSettings.rehearsing scriptAdapter "main" ⟨blockedWorld, .empty⟩ = .ok report t) ∧
      FailsFirst apartSettings.acting scriptAdapter "main" ⟨blockedWorld, .empty⟩ .io) ∧
    ∃ p, make freshSettings.rehearsing longEngine settledModels none freshWorld = .ok p freshWorld ∧
      freshWorld.disk = .empty ∧
      make freshSettings.acting longEngine settledModels none freshWorld = .error .io freshWorld := by
  refine ⟨⟨?_, ?_⟩, ?_⟩
  · obtain ⟨w, -, hrun⟩ := migrate_dry (s := apartSettings.rehearsing) rfl scriptAdapter "main" ⟨blockedWorld, .empty⟩
    have hstart : start apartSettings.rehearsing blockedWorld "main" = .ok ([emptyMigration], Ascending.empty) :=
      start_blocked
    simp only [hstart] at hrun
    exact ⟨_, _, hrun⟩
  · refine (failsFirst_iff_of_start (s := apartSettings.acting) rfl start_blocked (by decide) []).2 ⟨?_, rfl⟩
    exact ⟨emptyMigration, [], Ascending.empty, start_blocked, rfl, not_writable_blocked⟩
  · have hv : EngineName.isValid longEngine = true := Files.isValid_replicate (by decide) (by decide)
    have hlong : isName (longEngine ++ "") = false := Files.not_isName_replicate (by decide)
    rw [String.append_empty] at hlong
    have hbetween : Diff.between Ascending.empty settledModels = .ok (firstDiff settledModels) := rfl
    have hnext : nextMigration longEngine [] (firstDiff settledModels) none freshWorld.now =
        .ok (migrationBehind longEngine [] (firstDiff settledModels) "0001_20240101000000_initial") :=
      nextMigration_of_nextName nextName_first
    obtain ⟨p, hplan, hm⟩ := exists_plan (loadChain_of_isValid hv) rfl hbetween (by decide) rfl hnext
    refine ⟨p, make_dry (s := freshSettings.rehearsing) rfl hplan hm, rfl, ?_⟩
    exact (writes_of_plan (s := freshSettings.acting) rfl (by decide) hplan hm).barred
      (makeDirectory?_of_not_isName hv hlong)

end Engine

end Schemata
