import Schemata.Proofs.Engine.Course
import Schemata.Proofs.Engine.Upkeep

/-! Locks that are files.

A run that finds the lock of its engine taken fails and changes nothing. Whatever comes of a run, it leaves the files of
all locks as they were (`changesAt_migrate`): its own is gone again, and it touches no other. So a lock that somebody
holds is there until its holder gives it back, whoever does what meanwhile (`HeldBy.of_event`). -/
namespace Schemata
open Store Disk

/-! ### The files that a ledger works on -/

namespace Ledger.Files
open Engine (stateOf)

variable {d d' : Disk} {directory : Path} {engine : String} {q : Place} {n : Node} {e : Entry} {now : Calendar.Instant}

/-- The path of an engine's lock. -/
def lockFile (directory : Path) (engine : String) : Path := directory.join (lockName engine)

/-- The place of an engine's lock. -/
def lockPlace (directory : Path) (engine : String) : Place := endOf directory.steps ++ [lockName engine]

/-- The places of the files that change when an entry is recorded. -/
def IsDocument (p : Place) (engine : String) (q : Place) : Prop :=
  q = p ++ [entriesName engine] ∨ q = p ++ [besideName engine]

/-- A lock is no such file, whoever has it. -/
theorem not_isDocument_lock (directory : Path) (engine other : String) :
    ¬ IsDocument (endOf directory.steps) engine (lockPlace directory other) := by
  rintro (h | h) <;>
  · have hlast := congrArg (fun q : Place => (q.getLast?.getD "").toList.getLast?) h
    simp [lockPlace, lockName, entriesName, besideName] at hlast

/-! ### Taking the lock -/

section Valid
variable (hv : EngineName.isValid engine = true)
include hv

/-- Whoever finds the lock taken changes nothing. -/
theorem acquire_of_found (h : d.look (lockFile directory engine) = .found q n) :
    acquire directory engine now d = .error (.locked engine (lockFile directory engine)) d := by
  obtain ⟨hdir, -⟩ := of_look_join (isFileName_lock hv) h
  have hlook : d.look (directory.join (lockName engine)) = .found q n := h
  simp only [acquire, makeDirectory?_of_found hdir, lockPath_eq hv, hlook, lockFile]

/-- Where the lock is, it cannot be taken, even if the way there has to be made first. -/
theorem acquire_of_lock (h : d.node? (lockPlace directory engine) = some n) (now : Calendar.Instant) :
    ∃ failure, (failure = .locked engine (lockFile directory engine) ∨ failure = .io) ∧
      acquire directory engine now d = .error failure ((d.makeDirectory? directory).getD d) := by
  cases hacquire : acquire directory engine now d with
  | ok u held =>
    obtain ⟨made, p, content, hmade, -, hp, -, hnone, -⟩ := of_acquire_ok hacquire
    obtain rfl : p = endOf directory.steps := eq_of_walk hp
    rcases node?_walkMaking hmade (lockPlace directory engine) with hsame | ⟨hbefore, -, -⟩
    · rw [h] at hsame
      rw [lockPlace, hnone] at hsame
      cases hsame
    · rw [h] at hbefore
      cases hbefore
  | error failure d' =>
    refine ⟨failure, ?_, by rw [of_acquire_error hacquire]⟩
    simp only [acquire, lockPath_eq hv] at hacquire
    split at hacquire
    · cases hacquire
      exact .inr rfl
    · split at hacquire <;> cases hacquire
      · exact .inl rfl
      · exact .inr rfl

end Valid

/-- Once the lock is given back, it is as if it had never been taken. -/
theorem changesAt_release {file : Place → Prop} {content : String} (hv : EngineName.isValid engine = true)
    (hname : isName (lockName engine) = true) (hnone : d.node? (lockPlace directory engine) = none)
    (hreached : d'.walk [] directory.steps = .found (endOf directory.steps) .directory)
    (hfile : ¬ file (lockPlace directory engine))
    (h : ChangesAt (d.put (lockPlace directory engine) (.text content)) d' (fun _ => False) file) :
    ChangesAt d (release directory engine d') (fun _ => False) file := by
  have hout : isOutside (lockPlace directory engine) = false := not_isOutside (isFileName_lock hv)
  have hthere : d'.node? (lockPlace directory engine) = some (.text content) :=
    (h.node?_eq not_false hfile).trans (node?_put_self hout)
  have hlocked : Locked d' directory (endOf directory.steps) engine := ⟨hv, hreached, hname, content, hthere⟩
  rw [hlocked.release_eq]
  exact h.of_put_erase hout hnone

/-- Whoever takes the lock finds the directory of the ledger, and in it the lock that it has made. -/
theorem exists_made_of_acquire {u : Unit} {held : Disk} (h : acquire directory engine now d = .ok u held) :
    ∃ made, d.makeDirectory? directory = some made ∧
      held.walk [] directory.steps = .found (endOf directory.steps) .directory ∧
      ∀ (d' : Disk) (file : Place → Prop), d'.walk [] directory.steps = .found (endOf directory.steps) .directory →
        ¬ file (lockPlace directory engine) → ChangesAt held d' (fun _ => False) file →
        ChangesAt made (release directory engine d') (fun _ => False) file := by
  obtain ⟨made, p, content, hmade, hv, hp, hname, hnone, rfl⟩ := of_acquire_ok h
  obtain rfl : p = endOf directory.steps := eq_of_walk hp
  exact ⟨made, hmade, walk_of_keepsDirectories (keepsDirectories_put (ne_directory_of_none hnone)) hp,
    fun d' file hreached hfile hchanges => changesAt_release hv hname hnone hreached hfile hchanges⟩

/-- What holds of a disk while the lock of an engine is held: the directory is there, and only the files of the entries
are not what they were. -/
structure Tended (directory : Path) (engine : String) (d d' : Disk) : Prop where
  reached : d'.walk [] directory.steps = .found (endOf directory.steps) .directory
  changes : ChangesAt d d' (fun _ => False) (IsDocument (endOf directory.steps) engine)

namespace Tended

theorem refl (h : d.walk [] directory.steps = .found (endOf directory.steps) .directory) :
    Tended directory engine d d := ⟨h, .refl d⟩

/-- Whether an entry is recorded or not. -/
theorem record (h : Tended directory e.engine d d') :
    Tended directory e.engine d (stateOf (Files.record directory e d')) := by
  simp only [Files.record]
  cases happlied : applied d' directory e.engine with
  | error failure => exact h
  | ok entries =>
    have hv := valid_of_applied happlied
    simp only [entriesPath_eq hv, makeDirectory?_of_found h.reached]
    cases hreplace : replace d' (directory.join (entriesName e.engine)) (write (entries ++ [e])) with
    | none => exact h
    | some written =>
      have hready := Ready.of_replace hv h.reached hreplace
      rw [hready.replace_eq] at hreplace
      cases hreplace
      exact ⟨(hready.after_replaced _).found, h.changes.trans (changesAt_replaced _ (.inl rfl) (.inr rfl))⟩

end Tended

end Ledger.Files

/-! ### A run -/

namespace Engine
open Ledger

section Runs
variable {γ : Type} {s : Settings} {path : Path} {engine : String} {t : Session γ}

/-- An adapter that works on its connection leaves the world alone. -/
theorem keeps_inSession {I : World → Prop} (A : Adapter γ) (m : Migration) (schema : State) :
    Keeps (fun t : Session γ => I t.world) (A.inSession.run m schema) := by
  intro t ht
  rw [Adapter.run_inSession]
  simp only [onConnection]
  split <;> exact ht

theorem keeps_onWorld {I : World → Prop} {α : Type} {work : Work α} (h : ∀ w, I w → I (stateOf (work w))) :
    Keeps (fun t : Session γ => I t.world) (onWorld work) := by
  intro t ht
  have hw := h t.world ht
  simp only [onWorld]
  cases hwork : work t.world <;> rw [hwork] at hw <;> exact hw

/-- A run that cannot take the lock of a ledger in a directory ends there. -/
theorem migrate_of_refused {failure : Failure} {d : Disk} (hl : s.ledger = .directory path) (A : Adapter γ)
    (h : Files.acquire path engine t.world.now t.world.disk = .error failure d) :
    migrate s A engine t = .error failure { t with world := { t.world with disk := d } } :=
  migrate_of_acquire_error (by simp only [hl, LedgerPlace.acquire, World.onDisk, h]) A t.connection

/-- A run that takes the lock of a ledger in a directory gives it back in the end. -/
theorem disk_of_acquire {u : Unit} {d : Disk} (hl : s.ledger = .directory path) (A : Adapter γ)
    (h : Files.acquire path engine t.world.now t.world.disk = .ok u d) :
    (stateOf (migrate s A engine t)).world.disk = Files.release path engine
      (stateOf (migrateLocked s A.inSession engine { t with world := { t.world with disk := d } })).world.disk := by
  have hacquire : s.ledger.acquire engine t.world = .ok () { t.world with disk := d } := by
    simp only [hl, LedgerPlace.acquire, World.onDisk, h]
  rw [show migrate s A engine t = _ from migrate_of_acquire hacquire A t.connection]
  cases migrateLocked s A.inSession engine ⟨{ t.world with disk := d }, t.connection⟩ <;>
    simp only [mapState, stateOf, hl, LedgerPlace.release]

/-- While a run has the lock, everything but the entries stays as it is. -/
theorem tended_migrateLocked (hl : s.ledger = .directory path) (A : Adapter γ) (engine : String) (d : Disk) :
    Keeps (fun t : Session γ => Files.Tended path engine d t.world.disk) (migrateLocked s A.inSession engine) := by
  refine keeps_migrateLocked (keeps_inSession (I := fun w => Files.Tended path engine d w.disk) A)
    fun m => keeps_onWorld (I := fun w => Files.Tended path engine d w.disk) fun w hw => ?_
  have hrecorded := hw.record (e := ⟨m.name, engine, m.checksum, w.now⟩)
  simp only [hl, LedgerPlace.record, World.onDisk]
  cases hrun : Files.record path ⟨m.name, engine, m.checksum, w.now⟩ w.disk <;> rw [hrun] at hrecorded <;>
    exact hrecorded

/-- **What a run leaves of a disk.** Directories on the way to the ledger are made, and nothing else is changed but the
file of the entries and the one beside it. -/
theorem changesAt_migrate (hl : s.ledger = .directory path) (A : Adapter γ) (engine : String) (t : Session γ) :
    ChangesAt t.world.disk (stateOf (migrate s A engine t)).world.disk (· ∈ placesFrom [] path.steps)
      (Files.IsDocument (endOf path.steps) engine) := by
  cases hacquire : Files.acquire path engine t.world.now t.world.disk with
  | error failure d =>
    rw [migrate_of_refused hl A hacquire, Files.of_acquire_error hacquire]
    exact changesAt_getD _ path
  | ok u held =>
    obtain ⟨made, hmade, hreached, hrelease⟩ := Files.exists_made_of_acquire hacquire
    have hend := tended_migrateLocked hl A engine held { t with world := { t.world with disk := held } }
      (.refl hreached)
    have hreleased := hrelease _ (Files.IsDocument (endOf path.steps) engine) hend.reached
      (Files.not_isDocument_lock path engine engine) hend.changes
    rw [disk_of_acquire hl A hacquire]
    exact (changesAt_makeDirectory? hmade).trans (hreleased.mono (fun _ => False.elim) fun _ => id)

/-- What a run has to do with the locks of a ledger in a directory. -/
structure Respects (path : Path) (engine : String) (t : Session γ) (r : EStateM.Result Failure (Session γ) Report) :
    Prop where
  /-- Where the lock is found, the run fails because of it and changes nothing. -/
  refused : ∀ q n, t.world.disk.look (Files.lockFile path engine) = .found q n →
    r = .error (.locked engine (Files.lockFile path engine)) t
  /-- Where the lock is but cannot be found yet, since a directory on the way is missing, the run fails as well and
  changes no file. -/
  stopped : ∀ n, t.world.disk.node? (Files.lockPlace path engine) = some n → ∃ failure disk,
    (failure = .locked engine (Files.lockFile path engine) ∨ failure = .io) ∧
      ChangesAt t.world.disk disk (· ∈ placesFrom [] path.steps) (fun _ => False) ∧
      r = .error failure { t with world := { t.world with disk } }
  /-- No lock comes or goes, neither the engine's own nor that of another. -/
  locks : ∀ other n, n ≠ .directory →
    ((stateOf r).world.disk.node? (Files.lockPlace path other) = some n ↔
      t.world.disk.node? (Files.lockPlace path other) = some n)

theorem respects_migrate (hl : s.ledger = .directory path) (hv : EngineName.isValid engine = true) (A : Adapter γ)
    (t : Session γ) : Respects path engine t (migrate s A engine t) where
  refused q n h := migrate_of_refused hl A (Files.acquire_of_found hv h)
  stopped n h := by
    obtain ⟨failure, hfailure, hacquire⟩ := Files.acquire_of_lock hv h t.world.now
    exact ⟨failure, _, hfailure, changesAt_getD _ path, migrate_of_refused hl A hacquire⟩
  locks other n hn := by
    rcases changesAt_migrate hl A engine t (Files.lockPlace path other) with hsame | ⟨hnone, hdir, -⟩ | hdocument
    · rw [hsame]
    · rw [hnone, hdir]
      exact ⟨fun he => absurd (Option.some.inj he).symm hn, fun he => by cases he⟩
    · exact absurd hdocument (Files.not_isDocument_lock path engine other)

end Runs

/-! ### Several parties -/

namespace Directory

/-- A migration is written to a new file. -/
theorem spares_writeMigration {file : Place → Prop} (directory : Path) (m : Migration) (d : Disk) :
    Spares file d (stateOf (writeMigration directory m d)) := by
  simp only [writeMigration]
  split
  · exact .refl d
  · split
    · exact .refl d
    · rename_i made hmade
      have hmakes : Spares file d made := spares_makeDirectory? hmade
      split
      · rename_i hlook
        have hnone := (of_walk_free (of_look_free hlook).1).2
        exact hmakes.trans (spares_put (.inr hnone) (ne_directory_of_none hnone))
      · exact hmakes
      · exact hmakes

end Directory

theorem spares_make {file : Place → Prop} (s : Settings) (engine : String) (models : List Model)
    (label : Option String) (w : World) : Spares file w.disk (stateOf (make s engine models label w)).disk := by
  cases hp : plan s w engine models label with
  | error failure =>
    rw [make_of_plan_error hp]
    exact .refl _
  | ok p =>
    cases hm : p.migration with
    | none =>
      rw [make_of_none hp hm]
      exact .refl _
    | some m =>
      cases hdry : s.dryRun with
      | true =>
        rw [make_dry hdry hp hm]
        exact .refl _
      | false =>
        have hwrites : Spares file w.disk (stateOf (Directory.writeMigration s.directory m w.disk)) :=
          Directory.spares_writeMigration s.directory m w.disk
        rw [make_of_plan hdry hp hm]
        cases hwrite : Directory.writeMigration s.directory m w.disk <;> rw [hwrite] at hwrites <;> exact hwrites

section Parties
variable {γ : Type}

/-- A session that several parties work on, and the locks that they hold. -/
structure Shared (γ : Type) where
  session : Session γ
  /-- Each party with the engine whose lock it holds. -/
  guards : List (Nat × String)

/-- What a party may do: call an engine, take the lock of one, and give back a lock that it holds. -/
inductive Event (γ : Type)
  | call (engine : String) (call : Call γ)
  | acquire (party : Nat) (engine : String) (now : Calendar.Instant)
  | release (party : Nat) (engine : String)

/-- What comes of an event. Who does not get a lock does not hold it, and who does not hold it cannot give it back. -/
def Event.run (s : Settings) : Event γ → Shared γ → Shared γ
  | .call engine c, x => { x with session := (c.run s engine x.session).2 }
  | .acquire party engine now, x =>
    match s.ledger.acquire engine { x.session.world with now } with
    | .ok _ w => ⟨{ x.session with world := w }, (party, engine) :: x.guards⟩
    | .error _ w => { x with session := { x.session with world := w } }
  | .release party engine, x =>
    if (party, engine) ∈ x.guards then
      ⟨{ x.session with world := s.ledger.release engine x.session.world }, x.guards.erase (party, engine)⟩
    else x

/-- What comes of events in a row. -/
def Event.runAll (s : Settings) (events : List (Event γ)) (x : Shared γ) : Shared γ :=
  events.foldl (fun x event => event.run s x) x

/-- The lock is found as it is, and nobody but the holder holds it. -/
structure HeldBy (path : Path) (engine : String) (holder : Nat) (q : Place) (n : Node) (x : Shared γ) : Prop where
  found : x.session.world.disk.look (Files.lockFile path engine) = .found q n
  guards : ∀ party, (party, engine) ∈ x.guards → party = holder

variable {s : Settings} {path : Path} {engine other : String} {holder : Nat} {q : Place} {n : Node} {x : Shared γ}

theorem not_isFile_lock (hl : s.ledger = .directory path) (hne : other ≠ engine) :
    ¬ s.ledger.IsFile s.ledger.place other (Files.lockPlace path engine) := by
  rw [hl]
  exact fun h => hne (Files.IsFile.engine_eq h (.inr (.inr rfl)))

/-- Work that spares all files but those of another engine spares the lock. -/
theorem look_of_spares {d d' : Disk} (hl : s.ledger = .directory path) (hv : EngineName.isValid engine = true)
    (hne : other ≠ engine) (hs : Spares (s.ledger.IsFile s.ledger.place other) d d')
    (h : d.look (Files.lockFile path engine) = .found q n) : d'.look (Files.lockFile path engine) = .found q n := by
  obtain ⟨-, rfl⟩ := of_look_join (Files.isFileName_lock hv) h
  exact hs.look_eq h (not_isFile_lock hl hne)

theorem look_migrate (hl : s.ledger = .directory path) (hv : EngineName.isValid engine = true) (A : Adapter γ)
    {t : Session γ} (h : t.world.disk.look (Files.lockFile path engine) = .found q n) :
    (stateOf (migrate s A other t)).world.disk.look (Files.lockFile path engine) = .found q n := by
  by_cases hne : other = engine
  · subst hne
    rw [(respects_migrate hl hv A t).refused q n h]
    exact h
  · have hspares {w w' : World} (hs : Spares (s.ledger.IsFile s.ledger.place other) w.disk w'.disk)
        (hw : w.disk.look (Files.lockFile path engine) = .found q n) :
        w'.disk.look (Files.lockFile path engine) = .found q n := look_of_spares hl hv hne hs hw
    refine keeps_migrateIn (I := fun t => t.world.disk.look (Files.lockFile path engine) = .found q n)
      (keeps_inSession (I := fun w => w.disk.look (Files.lockFile path engine) = .found q n) A) (fun m => ?_) ?_ ?_ t h
    · exact keeps_onWorld (I := fun w => w.disk.look (Files.lockFile path engine) = .found q n)
        fun w => hspares (s.ledger.spares_record w m.name other m.checksum)
    · exact keeps_onWorld (I := fun w => w.disk.look (Files.lockFile path engine) = .found q n)
        fun w => hspares (s.ledger.spares_acquire w other)
    · exact fun t => hspares (s.ledger.spares_release t.world other)

/-- A call does nothing to a lock that is there. -/
theorem look_call (hl : s.ledger = .directory path) (hv : EngineName.isValid engine = true) (c : Call γ)
    {t : Session γ} (h : t.world.disk.look (Files.lockFile path engine) = .found q n) :
    (c.run s other t).2.world.disk.look (Files.lockFile path engine) = .found q n := by
  obtain ⟨request, now, dryRun, allowDestructive⟩ := c
  cases request with
  | make models label =>
    have hspares : Spares (fun _ => False) t.world.disk _ :=
      spares_make { s with dryRun, allowDestructive } other models label { t.world with now }
    have hlook := hspares.look_eq h not_false
    simp only [Call.run, Call.begin, Call.settings]
    cases hmake : make { s with dryRun, allowDestructive } other models label { t.world with now } <;>
      rw [hmake] at hlook <;> exact hlook
  | migrate A =>
    have hledger : ({ s with dryRun, allowDestructive } : Settings).ledger = .directory path := hl
    have hlook : (stateOf (migrate { s with dryRun, allowDestructive } A other
        { t with world := { t.world with now } })).world.disk.look (Files.lockFile path engine) = .found q n :=
      look_migrate hledger hv A h
    simp only [Call.run, Call.begin, Call.settings]
    cases hrun : migrate { s with dryRun, allowDestructive } A other { t with world := { t.world with now } } <;>
      rw [hrun] at hlook <;> exact hlook
  | plan | status | check => exact h

/-- **One event.** A lock stays held unless its holder gives it back. -/
theorem HeldBy.of_event (hl : s.ledger = .directory path) (hv : EngineName.isValid engine = true)
    (h : HeldBy path engine holder q n x) {event : Event γ} (hne : event ≠ .release holder engine) :
    HeldBy path engine holder q n (event.run s x) := by
  cases event with
  | call other c => exact ⟨look_call hl hv c h.found, h.guards⟩
  | acquire party other now =>
    simp only [Event.run]
    by_cases hother : other = engine
    · subst hother
      -- The lock is there, so nobody else gets it.
      have hacquire : s.ledger.acquire other { x.session.world with now } =
          .error (.locked other (Files.lockFile path other)) { x.session.world with now } := by
        simp only [hl, LedgerPlace.acquire, World.onDisk, Files.acquire_of_found hv h.found]
      rw [hacquire]
      exact ⟨h.found, h.guards⟩
    · have hspares := s.ledger.spares_acquire { x.session.world with now } other
      cases hacquire : s.ledger.acquire other { x.session.world with now } with
      | ok u w =>
        rw [hacquire] at hspares
        refine ⟨look_of_spares hl hv hother hspares h.found, fun party' hin => ?_⟩
        rcases List.mem_cons.1 hin with heq | hin
        · exact absurd (congrArg Prod.snd heq).symm hother
        · exact h.guards party' hin
      | error failure w =>
        rw [hacquire] at hspares
        exact ⟨look_of_spares hl hv hother hspares h.found, h.guards⟩
  | release party other =>
    simp only [Event.run]
    split
    · rename_i hguard
      have hother : other ≠ engine := by
        rintro rfl
        exact hne (h.guards party hguard ▸ rfl)
      exact ⟨look_of_spares hl hv hother (s.ledger.spares_release _ other) h.found,
        fun party' hin => h.guards party' (List.mem_of_mem_erase hin)⟩
    · exact h

/-- Any number of events. -/
theorem HeldBy.of_events (hl : s.ledger = .directory path) (hv : EngineName.isValid engine = true)
    (h : HeldBy path engine holder q n x) {events : List (Event γ)}
    (hne : ∀ event ∈ events, event ≠ .release holder engine) :
    HeldBy path engine holder q n (Event.runAll s events x) := by
  induction events generalizing x with
  | nil => exact h
  | cons event rest ih =>
    obtain ⟨hevent, hrest⟩ := List.forall_mem_cons.1 hne
    exact ih (h.of_event hl hv hevent) hrest

end Parties

/-- **Locks are respected and do not leak.** Under a ledger in a directory, whatever the adapter and whether it is a dry
run or not: a run that finds the lock of its engine taken fails because of it and changes nothing, and no run leaves a
lock behind or takes one away, its own or another's, whatever comes of it. So a lock that somebody holds is there for as
long as its holder does not give it back, whatever the engines are asked for and whoever else wants it. -/
theorem locks_respected {γ : Type} {s : Settings} {path : Path} {engine : String} (hl : s.ledger = .directory path)
    (hv : EngineName.isValid engine = true) :
    (∀ (A : Adapter γ) (t : Session γ), Respects path engine t (migrate s A engine t)) ∧
      ∀ (holder : Nat) (events : List (Event γ)) (x : Shared γ) (q : Place) (n : Node),
        HeldBy path engine holder q n x → (∀ event ∈ events, event ≠ .release holder engine) →
        HeldBy path engine holder q n (Event.runAll s events x) :=
  ⟨fun A t => respects_migrate hl hv A t, fun _ _ _ _ _ h hne => h.of_events hl hv hne⟩

/-- Somebody is at work on an engine. -/
def lockedWorld : World :=
  { freshWorld with disk := ⟨.ofList [(["ledger"], .directory), (["ledger", "main.lock"], .text "")]⟩ }

/-- An engine is run, its lock is wanted by another party, and that party gives back what it did not get. -/
def sampleEvents : List (Event Unit) :=
  [.call "main" ⟨.migrate idleAdapter, ⟨1704067200, 0⟩, false, false⟩, .acquire 2 "main" ⟨1704067260, 0⟩,
    .release 2 "main"]

theorem locks_respected_sample :
    migrate apartSettings idleAdapter "main" ⟨lockedWorld, ()⟩ =
        .error (.locked "main" "ledger/main.lock") ⟨lockedWorld, ()⟩ ∧
      HeldBy "ledger" "main" 1 ["ledger", "main.lock"] (.text "")
        (Event.runAll apartSettings sampleEvents ⟨⟨lockedWorld, ()⟩, [(1, "main")]⟩) ∧
      ∀ content, (stateOf (migrate apartSettings idleAdapter "main" ⟨freshWorld, ()⟩)).world.disk.node?
        ["ledger", "main.lock"] ≠ some (.text content) := by
  have hledger : apartSettings.ledger = .directory "ledger" := rfl
  have hvalid : EngineName.isValid "main" = true := by decide
  obtain ⟨hrespects, hheld⟩ := locks_respected (γ := Unit) hledger hvalid
  have hfile : Files.lockFile "ledger" "main" = "ledger/main.lock" := by decide +kernel
  have hplace : Files.lockPlace "ledger" "main" = ["ledger", "main.lock"] := by decide +kernel
  have hfound : lockedWorld.disk.look (Files.lockFile "ledger" "main") = .found ["ledger", "main.lock"] (.text "") := by
    decide +kernel
  refine ⟨hfile ▸ (hrespects idleAdapter ⟨lockedWorld, ()⟩).refused _ _ hfound, ?_, fun content h => ?_⟩
  · refine hheld 1 sampleEvents _ _ _ ⟨hfound, by simp⟩ fun event hin => ?_
    simp only [sampleEvents, List.mem_cons, List.not_mem_nil, or_false] at hin
    rcases hin with rfl | rfl | rfl <;> simp
  · have hlocks := (hrespects idleAdapter ⟨freshWorld, ()⟩).locks "main" (.text content) (by simp)
    rw [hplace] at hlocks
    cases hlocks.1 h

end Engine

end Schemata
