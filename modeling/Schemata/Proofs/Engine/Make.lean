import Schemata.Engine.Status
import Schemata.Proofs.Diff.Recorded
import Schemata.Proofs.Engine.Directory
import Schemata.Proofs.History.Growth
import Schemata.Proofs.History.Name

/-! Making migrations.

A migration that was made is the last one of the chain from then on. Whether the history still replays, and
whether there is nothing more to be made of the same models, is only a matter of the defaults that differ from
themselves. -/
namespace Schemata.Engine
open Store

variable {s : Settings} {w w' : World} {engine : String} {models : List Model} {label : Option String} {p : Plan}
  {place : Place} {chain : List Migration} {baseline : State} {d : Diff}

/-! ### The next migration -/

/-- What a migration is that a difference makes at the end of a chain, at some time. -/
structure IsNext (engine : String) (chain : List Migration) (d : Diff) (now : Calendar.Instant) (m : Migration) :
    Prop where
  name : ∃ number label, m.name = MigrationName.generate number now label
  database : m.database = engine
  parent : m.parent = chain.getLast?.map (·.name)
  changes : m.changes = d.changes

theorem nextMigration_of_nextName {now : Calendar.Instant} {name : String}
    (h : nextName chain (label.getD (Label.suggest d.changes chain.isEmpty)) now = .ok name) :
    nextMigration engine chain d label now = .ok (migrationBehind engine chain d name) :=
  bind_eq_ok_iff.2 ⟨name, h, rfl⟩

theorem isNext_of_nextMigration {now : Calendar.Instant} {m : Migration}
    (h : nextMigration engine chain d label now = .ok m) : IsNext engine chain d now m := by
  obtain ⟨name, hname, hm⟩ := bind_eq_ok_iff.1 h
  obtain ⟨number, -, rfl⟩ := nextName_eq_ok_iff.1 hname
  cases hm
  exact ⟨⟨number, _, rfl⟩, rfl, rfl, rfl⟩

/-! ### Plans -/

theorem plan_eq (hchain : loadChain s w engine = .ok chain) (hrun : Replay.run chain = .ok baseline)
    (hd : Diff.between baseline models = .ok d) :
    plan s w engine models label =
      if d.isEmpty then .ok { engine, diff := d }
      else do
        let applied ← s.ledger.applied w engine
        let migration ← nextMigration engine chain d label w.now
        return {
          engine, diff := d, migration
          warnings := unappliedWarning chain applied ++
            if s.allowDestructive then [] else destructiveWarnings d } := by
  have hlive : (Diff.between baseline models).mapError Failure.ofLive = .ok d := by rw [hd]; rfl
  simp only [plan, hchain, hrun, hlive, bind, Except.bind, pure, Except.pure]

/-- What a plan is made from. -/
theorem of_plan (h : plan s w engine models label = .ok p) :
    ∃ chain baseline d, loadChain s w engine = .ok chain ∧ Replay.run chain = .ok baseline ∧
      Diff.between baseline models = .ok d ∧ p.path = none ∧
      (d.isEmpty = true ∧ p.migration = none ∨
        d.isEmpty = false ∧ ∃ m, nextMigration engine chain d label w.now = .ok m ∧ p.migration = some m) := by
  obtain ⟨chain, hchain, hrest⟩ := bind_eq_ok_iff.1 h
  obtain ⟨baseline, hrun, hrest⟩ := bind_eq_ok_iff.1 hrest
  obtain ⟨d, hlive, -⟩ := bind_eq_ok_iff.1 hrest
  have hd : Diff.between baseline models = .ok d := by
    cases hd : Diff.between baseline models <;> rw [hd] at hlive <;> cases hlive
    rfl
  refine ⟨chain, baseline, d, hchain, hrun, hd, ?_⟩
  rw [plan_eq hchain hrun hd] at h
  cases hempty : d.isEmpty with
  | true =>
    rw [hempty, if_pos rfl] at h
    cases h
    exact ⟨rfl, .inl ⟨rfl, rfl⟩⟩
  | false =>
    rw [hempty, if_neg (by decide)] at h
    obtain ⟨applied, -, hrest⟩ := bind_eq_ok_iff.1 h
    obtain ⟨m, hm, hplan⟩ := bind_eq_ok_iff.1 hrest
    cases hplan
    exact ⟨rfl, .inr ⟨rfl, m, hm, rfl⟩⟩

/-! ### Names of engines and of migrations -/

theorem isBlankText_of_isValid (h : EngineName.isValid engine = true) : Text.isBlankText engine = false := by
  simp only [EngineName.isValid, Bool.and_eq_true, Bool.not_eq_true', List.all_eq_true] at h
  obtain ⟨c, hc⟩ := List.exists_mem_of_ne_nil engine.toList (by simpa using h.1)
  refine List.all_eq_false.2 ⟨c, hc, ?_⟩
  rw [Bool.not_eq_true]
  have hname := h.2 c hc
  simp only [EngineName.isNameChar, Bool.or_eq_true, beq_iff_eq] at hname
  rcases hname with (hname | rfl) | rfl
  · obtain ⟨hfirst, hlast⟩ := Text.toNat_of_isAlphanum hname
    simp only [Text.isBlank, Bool.or_eq_false_iff, Bool.and_eq_false_iff, decide_eq_false_iff_not, beq_eq_false_iff_ne]
    omega
  · decide
  · decide

namespace IsNext
variable {now : Calendar.Instant} {m : Migration} (h : IsNext engine chain d now m)
include h

theorem isFileName : Path.IsFileName (Directory.fileName m.name) := by
  obtain ⟨number, label, hname⟩ := h.name
  rw [hname, Directory.fileName, String.append_assoc]
  exact MigrationName.isFileName_generate (by decide)

theorem isBlankText : Text.isBlankText m.name = false := by
  obtain ⟨number, label, hname⟩ := h.name
  rw [hname]
  exact MigrationName.isBlankText_generate _ _ _

theorem isMigrationFile : Directory.isMigrationFile (Directory.fileName m.name) = true := by
  have hname := h.isBlankText
  exact Directory.isMigrationFile_fileName fun he => by rw [he] at hname; cases hname

end IsNext

/-! ### Writing the migration -/

theorem loadChain_of_nil (hv : EngineName.isValid engine = true) (hw : w.disk.WellFormed)
    (ho : w.disk.Opens [] (Directory.own s.directory engine).steps place)
    (hnone : Directory.fileNames w.disk place = []) : loadChain s w engine = .ok [] := by
  obtain ⟨names, hperm, heq⟩ := Directory.migrations_eq hv hw ho
  obtain rfl : names = [] := by rwa [hnone, List.perm_nil] at hperm
  simp only [loadChain, heq, bind, Except.bind]
  exact Chain.resolve_of_linear (.refl []) List.nodup_nil trivial

/-! ### What comes of a plan -/

theorem make_of_plan_error {failure : Failure} (h : plan s w engine models label = .error failure) :
    make s engine models label w = .error failure w := by
  unfold make
  rw [h]

theorem make_of_none (h : plan s w engine models label = .ok p) (hm : p.migration = none) :
    make s engine models label w = .error .noChanges w := by
  unfold make
  simp only [h, hm]

theorem make_dry {m : Migration} (hdry : s.dryRun = true) (h : plan s w engine models label = .ok p)
    (hm : p.migration = some m) : make s engine models label w = .ok p w := by
  unfold make
  simp only [h, hm, hdry, if_true]

/-- A plan is carried out by writing its migration. -/
theorem make_of_plan {m : Migration} (hdry : s.dryRun = false) (h : plan s w engine models label = .ok p)
    (hm : p.migration = some m) :
    make s engine models label w =
      match Directory.writeMigration s.directory m w.disk with
      | .ok path disk => .ok { p with path := some path } { w with disk }
      | .error failure disk => .error failure { w with disk } := by
  unfold make
  simp only [h, hm, hdry, Bool.false_eq_true, if_false, World.onDisk]
  cases Directory.writeMigration s.directory m w.disk <;> rfl

/-- What making a migration does. -/
theorem of_make (hdry : s.dryRun = false) (h : make s engine models label w = .ok p w') :
    ∃ chain baseline d m path disk, loadChain s w engine = .ok chain ∧ Replay.run chain = .ok baseline ∧
      Diff.between baseline models = .ok d ∧ nextMigration engine chain d label w.now = .ok m ∧
      p.migration = some m ∧ p.path = some path ∧
      Directory.writeMigration s.directory m w.disk = .ok path disk ∧ w' = { w with disk } := by
  cases hp : plan s w engine models label with
  | error failure => cases (make_of_plan_error hp).symm.trans h
  | ok q =>
    obtain ⟨chain, baseline, d, hchain, hrun, hd, -, ⟨-, hnone⟩ | ⟨-, m, hnext, hm⟩⟩ := of_plan hp
    · cases (make_of_none hp hnone).symm.trans h
    · rw [make_of_plan hdry hp hm] at h
      cases hwrite : Directory.writeMigration s.directory m w.disk with
      | ok path disk =>
        rw [hwrite] at h
        cases h
        exact ⟨chain, baseline, d, m, path, disk, hchain, hrun, hd, hnext, hm, rfl, hwrite, rfl⟩
      | error failure disk =>
        rw [hwrite] at h
        cases h

/-- What making a migration comes to: one is written, or none is to be, or the attempt leaves directories at most. -/
theorem make_cases (s : Settings) (w : World) (engine : String) (models : List Model) (label : Option String) :
    (∃ p w' path, make s engine models label w = .ok p w' ∧ s.dryRun = false ∧ p.path = some path) ∨
    (∃ p, make s engine models label w = .ok p w ∧ p.path = none) ∨
    ∃ failure disk, make s engine models label w = .error failure { w with disk } ∧
      (disk = w.disk ∨
        ∃ m, m.database = engine ∧ Directory.writeMigration s.directory m w.disk = .error failure disk) := by
  cases hp : plan s w engine models label with
  | error failure => exact .inr (.inr ⟨failure, w.disk, make_of_plan_error hp, .inl rfl⟩)
  | ok p =>
    obtain ⟨chain, -, d, -, -, -, hpath, ⟨-, hm⟩ | ⟨-, m, hnext, hm⟩⟩ := of_plan hp
    · exact .inr (.inr ⟨.noChanges, w.disk, make_of_none hp hm, .inl rfl⟩)
    · cases hdry : s.dryRun with
      | true => exact .inr (.inl ⟨p, make_dry hdry hp hm, hpath⟩)
      | false =>
        rw [make_of_plan hdry hp hm]
        cases hwrite : Directory.writeMigration s.directory m w.disk with
        | ok path disk => exact .inl ⟨_, _, path, rfl, rfl, rfl⟩
        | error failure disk =>
          exact .inr (.inr ⟨failure, disk, rfl, .inr ⟨m, (isNext_of_nextMigration hnext).database, hwrite⟩⟩)

/-- **The chain goes on with the migration that was written.** -/
theorem loadChain_of_written {disk : Disk} {m : Migration} (hd : w.disk.WellFormed)
    (ho : w.disk.Opens [] (Directory.own s.directory m.database).steps place)
    (hwritten : Directory.Written w.disk disk s.directory m place)
    (hf : Path.IsFileName (Directory.fileName m.name)) (hname : Text.isBlankText m.name = false)
    (hdoc : Toml.faithful m.members = true) (hchain : loadChain s w m.database = .ok chain)
    (hparent : m.parent = chain.getLast?.map (·.name)) :
    loadChain s { w with disk } m.database = .ok (chain ++ [m.settled]) := by
  obtain ⟨ms, hms, hchain⟩ := bind_eq_ok_iff.1 hchain
  have hvalid := Directory.isValid_of_migrations hms
  have hread := Migration.ofToml_toToml hdoc hname (isBlankText_of_isValid hvalid)
  have hne : m.name ≠ "" := fun he => by rw [he] at hname; cases hname
  obtain ⟨hnew, ms', hms', hperm⟩ := hwritten.migrations_eq hd hf hne ho hread hms
  exact bind_eq_ok_iff.2 ⟨ms', hms', Chain.resolve_concat hchain hperm rfl hnew hparent⟩

/-- There is a migration in a plan when there is something to be made. -/
theorem exists_migration_of_plan (hchain : loadChain s w engine = .ok chain) (hrun : Replay.run chain = .ok baseline)
    (hd : Diff.between baseline models = .ok d) (hempty : d.isEmpty = false)
    (h : plan s w engine models label = .ok p) : ∃ m, p.migration = some m := by
  obtain ⟨chain', baseline', d', hchain', hrun', hd', -, ⟨hnothing, -⟩ | ⟨-, m, -, hm⟩⟩ := of_plan h
  · obtain rfl : chain' = chain := Except.ok.inj (hchain'.symm.trans hchain)
    obtain rfl : baseline' = baseline := Except.ok.inj (hrun'.symm.trans hrun)
    obtain rfl : d' = d := Except.ok.inj (hd'.symm.trans hd)
    cases hnothing.symm.trans hempty
  · exact ⟨m, hm⟩

/-- There is a plan when there is something to be made, and a name for it. -/
theorem exists_plan (hchain : loadChain s w engine = .ok chain) (hrun : Replay.run chain = .ok baseline)
    (hd : Diff.between baseline models = .ok d) (hempty : d.isEmpty = false) {entries : List Ledger.Entry}
    (happlied : s.ledger.applied w engine = .ok entries) {m : Migration}
    (hnext : nextMigration engine chain d label w.now = .ok m) :
    ∃ p, plan s w engine models label = .ok p ∧ p.migration = some m := by
  rw [plan_eq hchain hrun hd, hempty, if_neg (by decide), happlied]
  exact ⟨_, bind_eq_ok_iff.2 ⟨entries, rfl, bind_eq_ok_iff.2 ⟨m, hnext, rfl⟩⟩, rfl⟩

/-- A migration is made when there is something to be made and its file is not there. -/
theorem exists_make (hw : w.disk.WellFormed)
    (ho : w.disk.Opens [] (Directory.own s.directory engine).steps place) (hdry : s.dryRun = false)
    (hchain : loadChain s w engine = .ok chain) (hrun : Replay.run chain = .ok baseline)
    (hd : Diff.between baseline models = .ok d) (hempty : d.isEmpty = false)
    (hv : EngineName.isValid engine = true) {entries : List Ledger.Entry}
    (happlied : s.ledger.applied w engine = .ok entries) {m : Migration}
    (hnext : nextMigration engine chain d label w.now = .ok m)
    (hfits : Disk.isName (Directory.fileName m.name) = true)
    (hfree : w.disk.node? (place ++ [Directory.fileName m.name]) = none) :
    ∃ p w', make s engine models label w = .ok p w' ∧ p.migration = some m := by
  have hm := isNext_of_nextMigration hnext
  obtain rfl := hm.database
  obtain ⟨path, disk, hwrite⟩ : ∃ path disk, Directory.writeMigration s.directory m w.disk = .ok path disk :=
    Directory.exists_writeMigration hw ho hv hm.isFileName hfits hfree
  obtain ⟨p, hplan, hm⟩ := exists_plan hchain hrun hd hempty happlied hnext
  refine ⟨{ p with path := some path }, { w with disk }, ?_, hm⟩
  rw [make_of_plan hdry hplan hm, hwrite]

/-- **A migration that was made** is in a new file of the engine's directory, and is the last one of the chain. -/
theorem made (hw : w.disk.WellFormed) (ho : w.disk.Opens [] (Directory.own s.directory engine).steps place)
    (hdry : s.dryRun = false) (hmake : make s engine models label w = .ok p w')
    (hdoc : ∀ m, p.migration = some m → Toml.faithful m.members = true) :
    ∃ chain baseline d m disk, loadChain s w engine = .ok chain ∧ Replay.run chain = .ok baseline ∧
      Diff.between baseline models = .ok d ∧ nextMigration engine chain d label w.now = .ok m ∧ p.migration = some m ∧
      p.path = some ((Directory.own s.directory engine).join (Directory.fileName m.name)) ∧
      Directory.Written w.disk disk s.directory m place ∧ w' = { w with disk } ∧
      loadChain s w' engine = .ok (chain ++ [m.settled]) := by
  obtain ⟨chain, baseline, d, m, path, disk, hchain, hrun, hd, hnext, hm, hpath, hwrite, rfl⟩ := of_make hdry hmake
  have hmade := isNext_of_nextMigration hnext
  obtain rfl := hmade.database
  obtain ⟨rfl, hwritten⟩ := Directory.of_writeMigration hw ho hmade.isFileName hwrite
  exact ⟨chain, baseline, d, m, disk, hchain, hrun, hd, hnext, hm, hpath, hwritten, rfl,
    loadChain_of_written hw ho hwritten hmade.isFileName hmade.isBlankText (hdoc m hm) hchain hmade.parent⟩

/-! ### What nobody says but `make` -/

theorem applied_ne_noChanges (l : LedgerPlace) : l.applied w engine ≠ .error .noChanges := by
  cases l with
  | memory => simp [LedgerPlace.applied]
  | directory path =>
    cases hv : EngineName.isValid engine with
    | false => simp [LedgerPlace.applied, Ledger.Files.applied_of_invalid hv]
    | true =>
      simp only [LedgerPlace.applied, Ledger.Files.applied_eq_readFile hv, Ledger.Files.readFile, bind, Except.bind]
      split
      · simp
      · simp
      · split
        · simp
        · rename_i text _
          rw [Ledger.read]
          cases (Toml.read? text).bind Ledger.ofDocument? with
          | none => simp
          | some entries =>
            dsimp only
            split <;> simp

theorem writeMigration_ne_noChanges {directory : Path} {m : Migration} {disk disk' : Disk} :
    Directory.writeMigration directory m disk ≠ .error .noChanges disk' := by
  cases hv : EngineName.isValid m.database with
  | false => simp [Directory.writeMigration, Directory.ofEngine_of_invalid hv]
  | true =>
    simp only [Directory.writeMigration, Directory.ofEngine_eq hv]
    repeat' split
    all_goals simp

theorem nextMigration_ne_noChanges {now : Calendar.Instant} :
    nextMigration engine chain d label now ≠ .error .noChanges := by
  rw [nextMigration, nextName, nextSequence]
  split <;> simp [bind, Except.bind, pure, Except.pure]

theorem plan_ne_noChanges (hchain : loadChain s w engine = .ok chain) (hrun : Replay.run chain = .ok baseline)
    (hd : Diff.between baseline models = .ok d) : plan s w engine models label ≠ .error .noChanges := by
  rw [plan_eq hchain hrun hd]
  split
  · simp
  · cases happlied : s.ledger.applied w engine with
    | error failure =>
      intro h
      cases h
      exact applied_ne_noChanges s.ledger happlied
    | ok applied =>
      cases hnext : nextMigration engine chain d label w.now with
      | error failure =>
        intro h
        cases h
        exact nextMigration_ne_noChanges hnext
      | ok m =>
        intro h
        cases h

theorem run_ne_noChanges : Replay.run chain ≠ .error .noChanges := by
  rw [Replay.run]
  generalize (Ascending.empty : State) = state
  induction chain generalizing state with
  | nil => simp [pure, Except.pure]
  | cons m rest ih =>
    rw [List.foldlM_cons, Replay.step]
    split
    · exact ih _
    · simp [bind, Except.bind]

/-! ### Making twice -/

theorem check_eq_ok_iff (hchain : loadChain s w engine = .ok chain) :
    (∃ c, check s w engine = .ok c) ↔ ∃ state, Replay.run chain = .ok state := by
  simp only [check, hchain, bind, Except.bind, pure, Except.pure]
  cases Replay.run chain <;> simp

theorem make_eq_noChanges_iff (hchain : loadChain s w engine = .ok chain) (hrun : Replay.run chain = .ok baseline)
    (hd : Diff.between baseline models = .ok d) :
    make s engine models label w = .error .noChanges w ↔ d.isEmpty = true := by
  cases hempty : d.isEmpty with
  | true =>
    have hplan : plan s w engine models label = .ok { engine, diff := d } := by
      rw [plan_eq hchain hrun hd, hempty, if_pos rfl]
    exact iff_of_true (make_of_none hplan rfl) rfl
  | false =>
    simp only [Bool.false_eq_true, iff_false]
    intro h
    cases hp : plan s w engine models label with
    | error failure =>
      rw [make_of_plan_error hp] at h
      cases h
      exact plan_ne_noChanges hchain hrun hd hp
    | ok p =>
      obtain ⟨m, hm⟩ := exists_migration_of_plan hchain hrun hd hempty hp
      cases hdry : s.dryRun with
      | true => cases (make_dry hdry hp hm).symm.trans h
      | false =>
        rw [make_of_plan hdry hp hm] at h
        split at h
        · cases h
        · rename_i hwrite
          obtain ⟨he, -⟩ := EStateM.Result.error.inj h
          exact writeMigration_ne_noChanges (he ▸ hwrite)

/-- **A migration that was made settles its models**, unless one of the defaults differs from itself: the history
goes on with it, and there is nothing more to be made of the same models, whenever and under whatever label. It
replays exactly when no field that the migration changes had such a default before. -/
theorem make_settles (hw : w.disk.WellFormed) (ho : w.disk.Opens [] (Directory.own s.directory engine).steps place)
    (hchain : loadChain s w engine = .ok chain) (hrun : Replay.run chain = .ok baseline) (hdry : s.dryRun = false)
    (hmake : make s engine models label w = .ok p w')
    (hdoc : ∀ m, p.migration = some m → Toml.faithful m.members = true) :
    ∃ d m, Diff.between baseline models = .ok d ∧ p.migration = some m ∧ m.changes = d.changes ∧
      p.path = some ((Directory.own s.directory engine).join (Directory.fileName m.name)) ∧
      loadChain s w' engine = .ok (chain ++ [m.settled]) ∧
      ((∃ c, check s w' engine = .ok c) ↔ d.Comparable) ∧
      ∀ label now, make s engine models label { w' with now } = .error .noChanges { w' with now } ↔
        d.Comparable ∧ ∀ m ∈ models, m.Comparable := by
  obtain ⟨chain', baseline', d, m, disk, hchain', hrun', hd, hnext, hm, hpath, -, -, hgrown⟩ :=
    made hw ho hdry hmake hdoc
  obtain rfl : chain' = chain := Except.ok.inj (hchain'.symm.trans hchain)
  obtain rfl : baseline' = baseline := Except.ok.inj (hrun'.symm.trans hrun)
  have hchanges := (isNext_of_nextMigration hnext).changes
  have hb := (Replay.reachable_of_run hrun).wellFormed
  have hsettled {t : State} : Replay.run (chain' ++ [m.settled]) = .ok t ↔
      Change.applyAll (d.changes.map .settled) baseline' = .ok t := by
    rw [Replay.run_concat, hrun, Migration.settled, hchanges]
    simp
  refine ⟨d, m, hd, hm, hchanges, hpath, hgrown, ?_, fun label' now => ?_⟩
  · rw [check_eq_ok_iff hgrown]
    simp only [hsettled]
    exact Diff.exists_settled_iff hb hd
  · have hgrown' : loadChain s { w' with now } engine = .ok (chain' ++ [m.settled]) := hgrown
    cases ht : Replay.run (chain' ++ [m.settled]) with
    | ok t =>
      have hwf := (Replay.reachable_of_run ht).wellFormed
      rw [make_eq_noChanges_iff hgrown' ht (Diff.between_of_between hd t),
        Diff.isEmpty_of_settled_iff hb hd (hsettled.1 ht) hwf]
      exact (and_iff_right ((Diff.exists_settled_iff hb hd).1 ⟨t, hsettled.1 ht⟩)).symm
    | error failure =>
      have hne : failure ≠ .noChanges := fun he => run_ne_noChanges (he ▸ ht)
      have hcomp : ¬ d.Comparable := fun hcomp => by
        obtain ⟨t, ht'⟩ := (Diff.exists_settled_iff hb hd).2 hcomp
        rw [hsettled.2 ht'] at ht
        cases ht
      unfold make
      simp [plan, hgrown', ht, bind, Except.bind, hne, hcomp]

/-! ### A directory with nothing in it -/

def freshSettings : Settings where
  directory := "migrations"
  ledger := .memory

def freshWorld : World where
  now := ⟨1704067200, 0⟩

/-- The place of the directory. -/
def freshPlace : Place := ["migrations", "main"]

theorem opens_fresh :
    freshWorld.disk.Opens [] (Directory.own freshSettings.directory "main").steps freshPlace := by
  have hsteps : (Directory.own freshSettings.directory "main").steps = freshPlace.map .into := by decide +kernel
  rw [hsteps]
  exact .make (by decide) (by decide)

theorem wellFormed_fresh : freshWorld.disk.WellFormed := Disk.wellFormed_empty

theorem loadChain_fresh : loadChain freshSettings freshWorld "main" = .ok [] :=
  loadChain_of_nil (by decide) wellFormed_fresh opens_fresh rfl

/-- What there is to be done for live models at first. -/
def firstDiff (models : List Model) : Diff := .ofStates Ascending.empty (.ofModels models)

def settledModels : List Model :=
  [.ofFields "tag" [.autoKey "id", { name := "name", type := .text, default := some (.text "x") }]]

/-- The first migration for live models, before it is written. -/
def firstMigration (models : List Model) : Migration :=
  migrationBehind "main" [] (firstDiff models) "0001_20240101000000_initial"

theorem nextName_first : nextName [] Label.initial freshWorld.now = .ok "0001_20240101000000_initial" := rfl

theorem nextMigration_first (models : List Model) :
    nextMigration "main" [] (firstDiff models) none freshWorld.now = .ok (firstMigration models) :=
  nextMigration_of_nextName nextName_first

theorem faithful_settled : Toml.faithful (firstMigration settledModels).members = true := by
  rw [Toml.faithful_eq]
  decide +kernel

/-- A first migration: there is nothing more to be made of the same models, and the history is sound. -/
theorem make_settles_fresh : ∃ p w',
    make freshSettings "main" settledModels none freshWorld = .ok p w' ∧ p.path.isSome = true ∧
      (∃ c, check freshSettings w' "main" = .ok c) ∧
      make freshSettings "main" settledModels none w' = .error .noChanges w' := by
  have hbetween : Diff.between Ascending.empty settledModels = .ok (firstDiff settledModels) := rfl
  obtain ⟨p, w', hmake, hm⟩ := exists_make wellFormed_fresh opens_fresh rfl loadChain_fresh rfl hbetween
    (by decide) (by decide) rfl (nextMigration_first _) (by decide) (by decide)
  have hdoc : ∀ m, p.migration = some m → Toml.faithful m.members = true := by
    intro m he
    obtain rfl := Option.some.inj (hm.symm.trans he)
    exact faithful_settled
  obtain ⟨d, m, hd, -, -, hpath, -, hcheck, hagain⟩ :=
    make_settles wellFormed_fresh opens_fresh loadChain_fresh rfl rfl hmake hdoc
  obtain rfl := Except.ok.inj (hd.symm.trans hbetween)
  have hcomp : (firstDiff settledModels).Comparable := by decide
  exact ⟨p, w', hmake, by rw [hpath]; rfl, hcheck.2 hcomp, (hagain none w'.now).2 ⟨hcomp, by decide⟩⟩

/-- A default that is no number. -/
def unsettledModels : List Model :=
  [.ofFields "tag" [.autoKey "id", { name := "rate", type := .float, default := some (.float ⟨0x7FF8000000000000⟩) }]]

/-- The first migration for these models, as it is read. -/
def unsettledFirst : Migration := (firstMigration unsettledModels).settled

/-- What there seems to be done after it. -/
def unsettledDiff : Diff := .ofStates (.ofModels unsettledModels) (.ofModels unsettledModels)

def unsettledSecond : Migration :=
  migrationBehind "main" [unsettledFirst] unsettledDiff "0002_20240101000000_alter_tag_rate"

theorem nextMigration_second :
    nextMigration "main" [unsettledFirst] unsettledDiff none freshWorld.now = .ok unsettledSecond :=
  nextMigration_of_nextName rfl

/-- **A history that is blocked.** Making a migration twice of the same models, with a default that is no number,
writes a second migration, and the history does not replay from then on. -/
theorem exists_blocked : ∃ p w₁ q w₂,
    make freshSettings "main" unsettledModels none freshWorld = .ok p w₁ ∧
      (∃ c, check freshSettings w₁ "main" = .ok c) ∧
      make freshSettings "main" unsettledModels none w₁ = .ok q w₂ ∧ q.path.isSome = true ∧
      ¬ ∃ c, check freshSettings w₂ "main" = .ok c := by
  have hbetween : Diff.between Ascending.empty unsettledModels = .ok (firstDiff unsettledModels) := rfl
  obtain ⟨p, w₁, hmake, hm⟩ := exists_make wellFormed_fresh opens_fresh rfl loadChain_fresh rfl hbetween
    (by decide) (by decide) rfl (nextMigration_first _) (by decide) (by decide)
  have hdoc : ∀ m, p.migration = some m → Toml.faithful m.members = true := by
    intro m he
    obtain rfl := Option.some.inj (hm.symm.trans he)
    rw [Toml.faithful_eq]
    decide +kernel
  obtain ⟨chain, _, _, m, disk, hchain, -, -, -, hm', -, hwritten, rfl, hgrown⟩ :=
    made wellFormed_fresh opens_fresh rfl hmake hdoc
  obtain rfl : chain = [] := Except.ok.inj (hchain.symm.trans loadChain_fresh)
  obtain rfl : m = firstMigration unsettledModels := Option.some.inj (hm'.symm.trans hm)
  have hchain₁ : loadChain freshSettings { freshWorld with disk } "main" = .ok [unsettledFirst] := hgrown
  have hrun₁ : Replay.run [unsettledFirst] = .ok (.ofModels unsettledModels) := rfl
  have hbetween₁ : Diff.between (.ofModels unsettledModels) unsettledModels = .ok unsettledDiff := rfl
  have hfree : disk.node? (freshPlace ++ [Directory.fileName unsettledSecond.name]) = none :=
    (hwritten.node?_eq (by decide)).trans rfl
  have hfits : Disk.isName (Directory.fileName unsettledSecond.name) = true := by decide
  obtain ⟨q, w₂, hmake₂, hm₂⟩ := exists_make hwritten.wellFormed hwritten.opens rfl hchain₁ hrun₁ hbetween₁
    (by decide) (by decide) rfl nextMigration_second hfits hfree
  have hdoc₂ : ∀ m, q.migration = some m → Toml.faithful m.members = true := by
    intro m he
    obtain rfl : m = unsettledSecond := Option.some.inj (he.symm.trans hm₂)
    rw [Toml.faithful_eq]
    decide +kernel
  obtain ⟨chain₂, _, _, m₂, _, hchain₂, -, -, -, hm₂', hpath, -, -, hgrown₂⟩ :=
    made hwritten.wellFormed hwritten.opens rfl hmake₂ hdoc₂
  obtain rfl : chain₂ = [unsettledFirst] := Except.ok.inj (hchain₂.symm.trans hchain₁)
  obtain rfl : m₂ = unsettledSecond := Option.some.inj (hm₂'.symm.trans hm₂)
  refine ⟨p, _, q, w₂, hmake, (check_eq_ok_iff hchain₁).2 ⟨_, hrun₁⟩, hmake₂, by rw [hpath]; rfl, ?_⟩
  rw [check_eq_ok_iff hgrown₂]
  rintro ⟨t, ht⟩
  obtain ⟨_, hreached, happlied⟩ := Replay.run_concat.1 ht
  obtain rfl := Except.ok.inj (hreached.symm.trans hrun₁)
  have hwf := (Replay.reachable_of_run hrun₁).wellFormed
  exact absurd ((Diff.exists_settled_iff hwf hbetween₁).1 ⟨t, happlied⟩) (by decide)

end Schemata.Engine
