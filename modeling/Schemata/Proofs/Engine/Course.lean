import Schemata.Proofs.Engine.Standing

/-! Whole courses of an engine.

An engine is called again and again, each time with options of its own, by the clock of that moment and through an
adapter that may do what it likes with its connection. From an empty directory and an empty ledger on, the ledger
records a first part of the migrations that were written, whatever came of each call. -/
namespace Schemata.Engine
open Store Disk Ledger

/-- What an engine is asked for. -/
inductive Request (γ : Type)
  | make (models : List Model) (label : Option String)
  | plan (models : List Model) (label : Option String)
  | migrate (adapter : Adapter γ)
  | status
  | check

/-- A request at a time, under the options of that time. -/
structure Call (γ : Type) where
  request : Request γ
  now : Calendar.Instant
  dryRun : Bool := false
  allowDestructive : Bool := false

section Courses
variable {γ : Type}

def Call.settings (c : Call γ) (s : Settings) : Settings :=
  { s with dryRun := c.dryRun, allowDestructive := c.allowDestructive }

/-- The session when the call comes. -/
def Call.begin (c : Call γ) (t : Session γ) : Session γ := { t with world := { t.world with now := c.now } }

/-- The migration that a call writes, if any, and what it leaves. Planning, asking for the status and checking only
look at the world. -/
def Call.run (s : Settings) (engine : String) (c : Call γ) (t : Session γ) : Option Migration × Session γ :=
  let t := c.begin t
  match c.request with
  | .make models label =>
    match make (c.settings s) engine models label t.world with
    | .ok p w => (p.path.bind fun _ => p.migration, { t with world := w })
    | .error _ w => (none, { t with world := w })
  | .migrate A => (none, after (migrate (c.settings s) A engine t))
  | .plan _ _ | .status | .check => (none, t)

/-- The migrations that the calls write, one after the other, and what they leave. -/
def course (s : Settings) (engine : String) : List (Call γ) → Session γ → List Migration × Session γ
  | [], t => ([], t)
  | c :: rest, t =>
    let (written, t) := c.run s engine t
    let (more, t) := course s engine rest t
    (written.toList ++ more, t)

variable {s : Settings} {engine : String} {P Q : Place} {done rest : List Migration} {entries : List Entry}

/-- **One call.** The chain goes on with what is written, and the ledger records a first part of it. -/
theorem Standing.of_call {t : Session γ} (h : Standing s engine P Q t.world done rest entries)
    (hapart : Apart s engine P Q) (c : Call γ) (hclock : c.now.Proper)
    (hdoc : ∀ m ∈ (c.run s engine t).1, Toml.faithful m.members = true) :
    ∃ done' rest' entries', Standing s engine P Q (c.run s engine t).2.world done' rest' entries' ∧
      done' ++ rest' = done ++ rest ++ (c.run s engine t).1.toList.map .settled := by
  have hbegin : Standing (c.settings s) engine P Q (c.begin t).world done rest entries :=
    h.withOptions c.now c.dryRun c.allowDestructive
  have hapart' : Apart (c.settings s) engine P Q := ⟨hapart.fits, hapart.way, hapart.files, hapart.reach⟩
  have hend {w : World} {done rest : List Migration} {entries : List Entry}
      (h : Standing (c.settings s) engine P Q w done rest entries) : Standing s engine P Q w done rest entries :=
    h.withOptions w.now s.dryRun s.allowDestructive
  have hlook (hrun : c.run s engine t = (none, c.begin t)) :
      ∃ done' rest' entries', Standing s engine P Q (c.run s engine t).2.world done' rest' entries' ∧
        done' ++ rest' = done ++ rest ++ (c.run s engine t).1.toList.map .settled := by
    rw [hrun]
    exact ⟨done, rest, entries, hend hbegin, (List.append_nil _).symm⟩
  cases hrequest : c.request with
  | make models label =>
    simp only [Call.run, hrequest] at hdoc ⊢
    rcases make_cases (c.settings s) (c.begin t).world engine models label with
      ⟨p, w', path, hmake, hdry, hpath⟩ | ⟨p, hmake, hpath⟩ | ⟨failure, disk, hmake, rfl | ⟨m, hdatabase, hwrite⟩⟩
    · simp only [hmake, hpath, Option.bind_some] at hdoc ⊢
      obtain ⟨m, hm, hstep⟩ := hbegin.of_make hapart' hdry hmake fun m hm => hdoc m hm
      exact ⟨done, rest ++ [m.settled], entries, hend hstep, by simp [hm]⟩
    · simp only [hmake, hpath, Option.bind_none]
      exact ⟨done, rest, entries, hend hbegin, by simp⟩
    · simp only [hmake]
      exact ⟨done, rest, entries, hend hbegin, by simp⟩
    · simp only [hmake]
      exact ⟨done, rest, entries, hend (hbegin.of_make_error hapart' hdatabase hwrite), by simp⟩
  | migrate A =>
    simp only [Call.run, hrequest]
    obtain ⟨more, left, entries', hsplit, hstep, -⟩ := hbegin.of_migrate A hapart' hclock
    exact ⟨done ++ more, left, entries', hend hstep, by simp [hsplit]⟩
  | plan models label => exact hlook (by simp only [Call.run, hrequest])
  | status => exact hlook (by simp only [Call.run, hrequest])
  | check => exact hlook (by simp only [Call.run, hrequest])

/-- **All calls.** -/
theorem Standing.of_course {t : Session γ} (h : Standing s engine P Q t.world done rest entries)
    (hapart : Apart s engine P Q) (calls : List (Call γ)) (hclock : ∀ c ∈ calls, c.now.Proper)
    (hdoc : ∀ m ∈ (course s engine calls t).1, Toml.faithful m.members = true) :
    ∃ done' rest' entries', Standing s engine P Q (course s engine calls t).2.world done' rest' entries' ∧
      done' ++ rest' = done ++ rest ++ (course s engine calls t).1.map .settled := by
  induction calls generalizing t done rest entries with
  | nil => exact ⟨done, rest, entries, h, by simp [course]⟩
  | cons c calls ih =>
    simp only [course, List.mem_append, Option.mem_toList] at hdoc ⊢
    obtain ⟨done', rest', entries', hstep, hsplit⟩ :=
      h.of_call hapart c (hclock c List.mem_cons_self) fun m hm => hdoc m (.inl hm)
    obtain ⟨done'', rest'', entries'', hend, hsplit'⟩ :=
      ih hstep (fun c hc => hclock c (List.mem_cons_of_mem _ hc)) fun m hm => hdoc m (.inr hm)
    refine ⟨done'', rest'', entries'', hend, ?_⟩
    rw [hsplit', hsplit, List.map_append, List.append_assoc]

/-! ### From the beginning on -/

/-- No migration is in the directory of the engine, and no entry in its ledger; the ways to both open. -/
structure Fresh (s : Settings) (engine : String) (P Q : Place) (w : World) : Prop where
  valid : EngineName.isValid engine = true
  wellFormed : w.disk.WellFormed
  opens : w.disk.Opens [] (Directory.own s.directory engine).steps P
  reaches : w.disk.Opens [] s.ledger.steps Q
  empty : Directory.fileNames w.disk P = []
  applied : s.ledger.applied w engine = .ok []

theorem Fresh.standing {w : World} (h : Fresh s engine P Q w) : Standing s engine P Q w [] [] [] where
  wellFormed := h.wellFormed
  opens := h.opens
  reaches := h.reaches
  chain := loadChain_of_nil h.valid h.wellFormed h.opens h.empty
  applied := h.applied
  records := rfl

theorem Standing.status_eq {w : World} (h : Standing s engine P Q w done rest entries) :
    status s w engine = .ok ⟨engine, entries, rest.map (·.name), (done ++ rest).getLast?.map (·.name)⟩ := by
  simp only [status, h.position_eq, bind, Except.bind, pure, Except.pure]

theorem names_settled (ms : List Migration) : (ms.map Migration.settled).map (·.name) = ms.map (·.name) := by
  rw [List.map_map]
  rfl

/-- **The ledger is a first part of what was written**, after any course of calls, whatever came of each: the status
is there, and the migrations that it has as applied and those that it has as pending are those that were written, in
their order. Once a run has succeeded, nothing is pending, and whoever migrates next executes and records nothing. -/
theorem status_of_course {t : Session γ} (hfresh : Fresh s engine P Q t.world) (hapart : Apart s engine P Q)
    (calls : List (Call γ)) (hclock : ∀ c ∈ calls, c.now.Proper)
    (hdoc : ∀ m ∈ (course s engine calls t).1, Toml.faithful m.members = true) :
    (∃ st, status s (course s engine calls t).2.world engine = .ok st ∧
      st.applied.map (·.migration) ++ st.pending = (course s engine calls t).1.map (·.name)) ∧
    ∀ (A : Adapter γ) (now : Calendar.Instant) (allowDestructive : Bool) (report : Report) (t' : Session γ),
      now.Proper →
      migrate { s with dryRun := false, allowDestructive } A engine
        ⟨{ (course s engine calls t).2.world with now }, (course s engine calls t).2.connection⟩ = .ok report t' →
      (∃ st, status s t'.world engine = .ok st ∧ st.pending = [] ∧
        st.applied.map (·.migration) = (course s engine calls t).1.map (·.name)) ∧
      ∀ (B : Adapter γ) (now : Calendar.Instant) (dryRun allowDestructive : Bool), ∃ report' t'',
        migrate { s with dryRun, allowDestructive } B engine ⟨{ t'.world with now }, t'.connection⟩ = .ok report' t'' ∧
          report'.applied = [] ∧ report'.changes = 0 ∧ t''.connection = t'.connection ∧
          s.ledger.applied t''.world engine = s.ledger.applied t'.world engine := by
  obtain ⟨done, rest, entries, hstand, hsplit⟩ := hfresh.standing.of_course hapart calls hclock hdoc
  generalize course s engine calls t = r at hstand hsplit hdoc ⊢
  obtain ⟨written, t⟩ := r
  have hnames : done.map (·.name) ++ rest.map (·.name) = written.map (·.name) := by
    rw [← List.map_append, hsplit, ← names_settled written]
    rfl
  refine ⟨⟨_, hstand.status_eq, by rw [hstand.records.names, hnames]⟩, ?_⟩
  intro A now allowDestructive report t' hnow hmigrate
  have hapart' {dryRun allowDestructive : Bool} : Apart { s with dryRun, allowDestructive } engine P Q :=
    ⟨hapart.fits, hapart.way, hapart.files, hapart.reach⟩
  obtain ⟨more, left, entries', rfl, hend, hok⟩ :=
    (hstand.withOptions now false allowDestructive).of_migrate A (t := ⟨{ t.world with now }, t.connection⟩) hapart'
      hnow
  obtain ⟨rfl, hfree, head, hreplay⟩ := hok report t' hmigrate rfl
  rw [hmigrate] at hend
  rw [List.append_nil] at hnames hreplay
  have hend : Standing s engine P Q t'.world (done ++ more) [] entries' :=
    hend.withOptions t'.world.now s.dryRun s.allowDestructive
  refine ⟨⟨_, hend.status_eq, rfl, ?_⟩, fun B now dryRun allowDestructive => ?_⟩
  · rw [hend.records.names, List.map_append, hnames]
  · obtain ⟨report', t'', hrun, hnone, hzero, hconnection, happlied⟩ :=
      (hend.withOptions now dryRun allowDestructive).migrate_idle B (t := ⟨{ t'.world with now }, t'.connection⟩)
        hapart' rfl (hfree.withNow now) hreplay
    exact ⟨report', t'', hrun, hnone, hzero, hconnection, happlied.trans hend.applied.symm⟩

end Courses

/-! ### A ledger among the migrations -/

theorem ofToml_write (e : Entry) (more : List Entry) : Migration.ofToml (write (e :: more)) = .error .unreadable := by
  rw [Migration.ofToml, read?_write]
  rfl

/-- **Entries in the directory of the migrations** are taken for one of them, and cannot be read as one. -/
theorem status_of_entries {w : World} {e : Entry} {more : List Entry} (hv : EngineName.isValid engine = true)
    (hw : w.disk.WellFormed) (ho : w.disk.Opens [] (Directory.own s.directory engine).steps P)
    (hn : w.disk.node? (P ++ [Files.entriesName engine]) = some (.text (write (e :: more)))) :
    ∃ failure, status s w engine = .error failure := by
  cases hstatus : status s w engine with
  | error failure => exact ⟨failure, rfl⟩
  | ok st =>
    exfalso
    cases hms : Directory.migrations w.disk s.directory engine with
    | error failure => simp [status, position, loadChain, hms, bind, Except.bind] at hstatus
    | ok ms =>
      have hf := Files.isFileName_entries hv
      have hne : engine ≠ "" := fun he => by rw [he] at hv; exact absurd hv (by decide)
      have hname : Files.entriesName engine = Directory.fileName engine := by
        rw [Files.entriesName, Directory.fileName, String.append_assoc]
        rfl
      have hfile : Directory.isMigrationFile (Files.entriesName engine) = true :=
        hname ▸ Directory.isMigrationFile_fileName hne
      have hin : Files.entriesName engine ∈ Directory.fileNames w.disk P :=
        (Directory.mem_fileNames hw).2 ⟨hf, hfile, _, hn⟩
      obtain ⟨names, hperm, heq⟩ := Directory.migrations_eq hv hw ho
      obtain ⟨m, hm⟩ := exists_of_mapM_eq_ok (heq ▸ hms) (hperm.symm.subset hin)
      have hlook := look_join hf (Directory.found_of_mem hw ho hin)
      rw [hn] at hlook
      simp only [Directory.readOwn, Directory.readMigration, Path.stem?_join hf, read?, hlook, bind, Except.bind] at hm
      by_cases hfits : isName (Files.entriesName engine) = true
      · simp [hfits, ofToml_write] at hm
      · simp [hfits] at hm

/-! ### Two projects -/

/-- An adapter that has nothing to do. -/
def idleAdapter : Adapter Unit where
  transactional := false
  apply := fun _ _ => pure ()

/-- A ledger in a directory of its own. -/
def apartSettings : Settings where
  directory := "migrations"
  ledger := .directory "ledger"

theorem own_main : Directory.own "migrations" "main" = "migrations/main" := by decide +kernel

theorem steps_own : (Directory.own "migrations" "main").steps = freshPlace.map .into := by decide +kernel

theorem steps_apart : apartSettings.ledger.steps = ["ledger"].map .into := by
  show Path.steps "ledger" = _
  decide +kernel

theorem fits_main : isName (Files.entriesName "main") = true := by decide

theorem fresh_apart : Fresh apartSettings "main" freshPlace ["ledger"] freshWorld := by
  have hreaches : freshWorld.disk.Opens [] apartSettings.ledger.steps ["ledger"] := by
    rw [steps_apart]
    exact .make (by decide) (by decide)
  exact ⟨by decide, wellFormed_fresh, opens_fresh, hreaches, rfl,
    Files.applied_of_none (by decide) wellFormed_fresh.rooted hreaches fits_main rfl⟩

theorem apart_apart : Apart apartSettings "main" freshPlace ["ledger"] where
  fits := fits_main
  way := by
    show ∀ q ∈ placesFrom [] (Directory.own "migrations" "main").steps, ¬ Files.IsFile ["ledger"] "main" q
    rw [steps_own]
    simp [freshPlace, placesFrom, stepFrom, Files.IsFile]
  files := fun name _ h => by simp [LedgerPlace.IsFile, apartSettings, Files.IsFile, freshPlace] at h
  reach := by
    rw [steps_apart]
    intro name _ h
    simp [freshPlace, placesFrom, stepFrom] at h

/-- What is made first, wherever the ledger is. -/
theorem run_first {s : Settings} (hs : s.directory = "migrations")
    (happlied : s.ledger.applied freshWorld "main" = .ok []) :
    ∃ disk, Directory.Written freshWorld.disk disk s.directory (firstMigration settledModels) freshPlace ∧
      loadChain s { freshWorld with disk } "main" = .ok [(firstMigration settledModels).settled] ∧
      Call.run s "main" { request := .make settledModels none, now := freshWorld.now } ⟨freshWorld, ()⟩ =
        (some (firstMigration settledModels), ⟨{ freshWorld with disk }, ()⟩) := by
  let options : Settings := { s with dryRun := false, allowDestructive := false }
  have ho : freshWorld.disk.Opens [] (Directory.own options.directory "main").steps freshPlace := by
    show freshWorld.disk.Opens [] (Directory.own s.directory "main").steps freshPlace
    rw [hs]
    exact opens_fresh
  have hchain : loadChain options freshWorld "main" = .ok [] :=
    loadChain_of_nil (by decide) wellFormed_fresh ho rfl
  have hbetween : Diff.between Ascending.empty settledModels = .ok (firstDiff settledModels) := rfl
  obtain ⟨p, w', hmake, hm⟩ := exists_make wellFormed_fresh ho rfl hchain rfl hbetween
    (by decide) (by decide) happlied (nextMigration_first _) (by decide) (by decide)
  have hdoc : ∀ m, p.migration = some m → Toml.faithful m.members = true := by
    intro m he
    obtain rfl : m = firstMigration settledModels := Option.some.inj (he.symm.trans hm)
    exact faithful_settled
  obtain ⟨chain, -, -, m, disk, hchain', -, -, -, hm', hpath, hwritten, rfl, hgrown⟩ :=
    made wellFormed_fresh ho rfl hmake hdoc
  obtain rfl : chain = [] := Except.ok.inj (hchain'.symm.trans hchain)
  obtain rfl : m = firstMigration settledModels := Option.some.inj (hm'.symm.trans hm)
  refine ⟨disk, hwritten, hgrown, ?_⟩
  show (match make options "main" settledModels none freshWorld with
    | .ok p w => (p.path.bind fun _ => p.migration, (⟨w, ()⟩ : Session Unit))
    | .error _ w => (none, ⟨w, ()⟩)) = _
  simp only [hmake, hpath, hm', Option.bind_some]

theorem proper_fresh : freshWorld.now.Proper := by decide

/-- **The only migration that is pending** is applied where its changes run through and its entry can be recorded. -/
theorem Standing.migrate_single {γ : Type} {s : Settings} {A : Adapter γ} {w held recorded : World} {c c' : γ}
    {m : Migration} {schema head : State} (h : Standing s engine P Q held [] [m] []) (hdry : s.dryRun = false)
    (hreplay : Replay.run [m] = .ok head) (hacquire : s.ledger.acquire engine w = .ok () held)
    (hrun : A.run m Ascending.empty c = .ok schema c')
    (hrecord : s.ledger.record m.name engine m.checksum held = .ok () recorded) :
    migrate s A engine ⟨w, c⟩ = .ok (({ engine } : Report).add m) ⟨s.ledger.release engine recorded, c'⟩ := by
  rcases h.prepare_eq with ⟨-, empty, -, hempty, hprepare⟩ | ⟨failure, hfailed, -⟩
  · obtain rfl : Ascending.empty = empty := Except.ok.inj hempty
    rw [Begun.migrate_eq ⟨hacquire, hprepare⟩ hdry]
    simp only [applyAll, bind, EStateM.bind, Adapter.run_inSession, onConnection, onWorld, hrun, hrecord]
    rfl
  · cases hfailed.symm.trans hreplay

section FirstRun
variable {s : Settings} {path : Path} {disk : Disk} {m : Migration} (hl : s.ledger = .directory path)
  (hwritten : Directory.Written freshWorld.disk disk s.directory (firstMigration settledModels) freshPlace)
  (hchain : loadChain s { freshWorld with disk } "main" = .ok [m]) (hreaches : disk.Opens [] path.steps Q)
  (hway : ∀ q ∈ placesFrom [] (Directory.own s.directory "main").steps, ¬ Files.IsFile Q "main" q)
  (hfirst : ¬ Files.IsFile Q "main" (freshPlace ++ [Directory.fileName (firstMigration settledModels).name]))
  (hfiles : ∀ name, Directory.isMigrationFile name = true →
    freshPlace ++ [name] ∉ placesFrom [] path.steps ∧ freshPlace ++ [name] ≠ Q ++ [Files.lockName "main"])
include hwritten hway hfirst

/-- No ledger has been kept when the first migration is written. -/
theorem none_of_written : ∀ q, Files.IsFile Q "main" q → disk.node? q = none := by
  intro q hq
  rw [hwritten.changes.node?_eq (fun hmade => hway q hmade.1 hq) fun hfile => hfirst (hfile ▸ hq)]
  rcases hq with rfl | rfl | rfl
  · exact node?_empty (Files.isFileName_entries (by decide))
  · exact node?_empty (Files.isFileName_beside (by decide))
  · exact node?_empty (Files.isFileName_lock (by decide))

include hl hchain hreaches hfiles

/-- What the first run finds when it has taken the lock. -/
theorem held_first : ∃ held, Files.acquire path "main" freshWorld.now disk = .ok () held ∧
    Files.applied held path "main" = .ok [] ∧ Files.Ready held path "main" Q ∧ Files.Locked held path Q "main" ∧
    Standing s "main" freshPlace Q { freshWorld with disk := held } [] [m] [] := by
  have hnone := none_of_written hwritten hway hfirst
  have hd := hwritten.wellFormed
  have hempty : Files.applied disk path "main" = .ok [] :=
    Files.applied_of_none (by decide) hd.rooted hreaches fits_main (hnone _ (.inl rfl))
  have hstand : Standing s "main" freshPlace Q { freshWorld with disk } [] [m] [] :=
    ⟨hd, hwritten.opens, by rwa [hl], hchain, by rw [hl]; exact hempty, rfl⟩
  obtain ⟨held, hacquire, hready, hchanges⟩ : ∃ held, Files.acquire path "main" freshWorld.now disk = .ok () held ∧
      Files.Ready held path "main" Q ∧ ChangesAt disk held (fun q => q ∈ placesFrom [] path.steps ∧ q <+: Q)
        (· = Q ++ [Files.lockName "main"]) :=
    Files.acquire_of_none hd hreaches (by decide) (by decide) (by decide) hnone
  obtain ⟨hwf, -, hlocked⟩ := Files.acquire_ok hd hreaches hacquire
  have happlied : Files.applied held path "main" = .ok [] :=
    (Files.applied_of_acquire hacquire).trans ((Files.kept_of_opens hd hreaches fits_main).trans hempty)
  refine ⟨held, hacquire, happlied, hready, hlocked,
    hstand.of_changes hwf ?_ hchanges ?_ (fun name hname => ?_) ?_ rfl rfl⟩
  · rw [hl]
    exact opens_of_walk hlocked.found
  · exact fun q hq hfile => hway q hq (hfile ▸ .inr (.inr rfl))
  · exact ⟨fun hmade => (hfiles name hname).1 hmade.1, (hfiles name hname).2⟩
  · rw [hl]
    exact happlied

/-- **The first run**, with a ledger in a directory: the migration is recorded in the file of the entries. -/
theorem migrate_first {schema head : State} (hdry : s.dryRun = false) (hreplay : Replay.run [m] = .ok head)
    (hrun : idleAdapter.run m Ascending.empty () = .ok schema ()) :
    ∃ report final e, migrate s idleAdapter "main" ⟨{ freshWorld with disk }, ()⟩ =
        .ok report ⟨{ freshWorld with disk := final }, ()⟩ ∧
      final.WellFormed ∧ final.walk [] path.steps = .found Q .directory ∧
      final.node? (Q ++ [Files.entriesName "main"]) = some (.text (write [e])) := by
  obtain ⟨held, hacquire, happlied, hready, hlocked, hstand⟩ :=
    held_first hl hwritten hchain hreaches hway hfirst hfiles
  have htake : s.ledger.acquire "main" { freshWorld with disk } = .ok () { freshWorld with disk := held } := by
    rw [hl]
    simp only [LedgerPlace.acquire, World.onDisk, hacquire]
  have hrecord : s.ledger.record m.name "main" m.checksum { freshWorld with disk := held } = .ok ()
      { freshWorld with
        disk := Files.replaced held Q "main" (write [⟨m.name, "main", m.checksum, freshWorld.now⟩]) } := by
    have hfile := (hready.record_eq (e := ⟨m.name, "main", m.checksum, freshWorld.now⟩) happlied
      (read_write fun e he => by rw [List.mem_singleton.1 he]; exact proper_fresh)).1
    rw [hl]
    simp only [LedgerPlace.record, World.onDisk, hfile, List.nil_append]
  have hmigrate := hstand.migrate_single hdry hreplay htake hrun hrecord
  rw [hl] at hmigrate
  have hstill := hlocked.replaced hstand.wellFormed hready (write [⟨m.name, "main", m.checksum, freshWorld.now⟩])
  obtain ⟨hreplaced, -, -⟩ :=
    Files.replaced_spec hstand.wellFormed hready (write [⟨m.name, "main", m.checksum, freshWorld.now⟩])
  obtain ⟨hend, -, hfree, -⟩ := Files.release_spec hreplaced hstill
  refine ⟨_, _, ⟨m.name, "main", m.checksum, freshWorld.now⟩, hmigrate, hend, hfree.found, ?_⟩
  rw [hstill.release_eq, node?_erase_ne (Files.place_ne (Files.lockName_ne "main"))]
  exact Files.replaced_entries (by decide)

end FirstRun

theorem run_idle : idleAdapter.run (firstMigration settledModels).settled Ascending.empty () =
    .ok (.ofModels settledModels) () := rfl

theorem replay_first : Replay.run [(firstMigration settledModels).settled] = .ok (.ofModels settledModels) := rfl

/-- Migrations are made and asked for. -/
def sampleCalls : List (Call Unit) :=
  [{ request := .make settledModels none, now := freshWorld.now }, { request := .status, now := freshWorld.now }]

/-- What was made is pending at first, and applied after a run. -/
theorem status_of_sampleCalls :
    (course apartSettings "main" sampleCalls ⟨freshWorld, ()⟩).1 = [firstMigration settledModels] ∧
      (∃ st, status apartSettings (course apartSettings "main" sampleCalls ⟨freshWorld, ()⟩).2.world "main" = .ok st ∧
        st.applied.map (·.migration) ++ st.pending = [(firstMigration settledModels).name]) ∧
      ∃ report t, migrate apartSettings idleAdapter "main"
          (course apartSettings "main" sampleCalls ⟨freshWorld, ()⟩).2 = .ok report t ∧
        ∃ st, status apartSettings t.world "main" = .ok st ∧ st.pending = [] ∧
          st.applied.map (·.migration) = [(firstMigration settledModels).name] := by
  obtain ⟨disk, hwritten, hchain, hmake⟩ := run_first rfl fresh_apart.applied
  have hcourse : course apartSettings "main" sampleCalls ⟨freshWorld, ()⟩ =
      ([firstMigration settledModels], ⟨{ freshWorld with disk }, ()⟩) := by
    simp only [course, sampleCalls, hmake]
    rfl
  have hreaches : disk.Opens [] (Path.steps "ledger") ["ledger"] :=
    fresh_apart.reaches.of_changes fresh_apart.wellFormed.rooted hwritten.changes fun q hq hfile => by
      rw [hfile, steps_apart] at hq
      simp [freshPlace, placesFrom, stepFrom] at hq
  obtain ⟨report, final, e, hmigrate, -⟩ := migrate_first (s := apartSettings) rfl hwritten hchain hreaches
    apart_apart.way (by decide) (fun name hname => ⟨apart_apart.reach name hname, by simp [freshPlace]⟩) rfl
    replay_first run_idle
  have hdoc : ∀ m ∈ (course apartSettings "main" sampleCalls ⟨freshWorld, ()⟩).1, Toml.faithful m.members = true := by
    rw [hcourse]
    intro m hm
    rw [List.mem_singleton.1 hm]
    exact faithful_settled
  obtain ⟨hstatus, hafter⟩ := status_of_course fresh_apart apart_apart sampleCalls (by decide) hdoc
  rw [hcourse] at hstatus hafter ⊢
  exact ⟨rfl, hstatus, report, _, hmigrate, (hafter idleAdapter freshWorld.now false report _ proper_fresh hmigrate).1⟩

/-- A ledger in the directory of the migrations. -/
def sharedSettings : Settings where
  directory := "migrations"
  ledger := .directory "migrations/main"

def sharedCalls : List (Call Unit) :=
  [{ request := .make settledModels none, now := freshWorld.now },
    { request := .migrate idleAdapter, now := freshWorld.now }]

theorem fresh_shared : Fresh sharedSettings "main" freshPlace freshPlace freshWorld := by
  have hreaches : freshWorld.disk.Opens [] sharedSettings.ledger.steps freshPlace := by
    show freshWorld.disk.Opens [] (Path.steps "migrations/main") freshPlace
    rw [← own_main]
    exact opens_fresh
  exact ⟨by decide, wellFormed_fresh, opens_fresh, hreaches, rfl,
    Files.applied_of_none (by decide) wellFormed_fresh.rooted hreaches fits_main rfl⟩

/-- **A status that is not there**: the first run puts the ledger among the migrations. -/
theorem exists_course_without_status :
    Fresh sharedSettings "main" freshPlace freshPlace freshWorld ∧ (∀ c ∈ sharedCalls, c.now.Proper) ∧
      (∀ m ∈ (course sharedSettings "main" sharedCalls ⟨freshWorld, ()⟩).1, Toml.faithful m.members = true) ∧
      ∃ failure, status sharedSettings (course sharedSettings "main" sharedCalls ⟨freshWorld, ()⟩).2.world "main" =
        .error failure := by
  obtain ⟨disk, hwritten, hchain, hmake⟩ := run_first rfl fresh_shared.applied
  have hsteps : (Directory.own sharedSettings.directory "main").steps = Path.steps "migrations/main" :=
    congrArg Path.steps own_main
  have hreaches : disk.Opens [] (Path.steps "migrations/main") freshPlace := hsteps ▸ hwritten.opens
  have hfiles (name : String) (hname : Directory.isMigrationFile name = true) :
      freshPlace ++ [name] ∉ placesFrom [] (Path.steps "migrations/main") ∧
        freshPlace ++ [name] ≠ freshPlace ++ [Files.lockName "main"] := by
    constructor
    · rw [← own_main, steps_own]
      simp [freshPlace, placesFrom, stepFrom]
    · rintro he
      obtain rfl : name = Files.lockName "main" := by simpa using he
      exact absurd hname (by decide)
  obtain ⟨report, final, e, hmigrate, hwf, hfound, hthere⟩ := migrate_first (s := sharedSettings) rfl hwritten hchain
    hreaches (by decide +kernel) (by decide) hfiles rfl replay_first run_idle
  have hcourse : course sharedSettings "main" sharedCalls ⟨freshWorld, ()⟩ =
      ([firstMigration settledModels], ⟨{ freshWorld with disk := final }, ()⟩) := by
    have hrun : Call.run sharedSettings "main" { request := .migrate idleAdapter, now := freshWorld.now }
        ⟨{ freshWorld with disk }, ()⟩ =
          (none, after (migrate sharedSettings idleAdapter "main" ⟨{ freshWorld with disk }, ()⟩)) := rfl
    simp only [course, sharedCalls, hmake, hrun, hmigrate, after]
    rfl
  rw [hcourse]
  refine ⟨fresh_shared, by decide, ?_, ?_⟩
  · intro m hm
    rw [List.mem_singleton.1 hm]
    exact faithful_settled
  · refine status_of_entries (by decide) hwf ?_ hthere
    rw [hsteps]
    exact opens_of_walk hfound

end Schemata.Engine
