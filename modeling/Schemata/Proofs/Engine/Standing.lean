import Schemata.Engine.Status
import Schemata.Proofs.Engine.Adapter
import Schemata.Proofs.Engine.Keeping
import Schemata.Proofs.Engine.Make
import Schemata.Proofs.Engine.Migrate
import Schemata.Proofs.Ledger.Position

/-! Where an engine stands.

An engine stands well when its migrations resolve to a chain and its ledger records the first part of it
(`Standing`). Neither making migrations nor applying them changes that, whatever comes of it, as long as the files of
the ledger and those of the migrations are kept apart (`Apart`). -/
namespace Schemata.Engine
open Store Disk Ledger

/-! ### A ledger that fits its chain -/

section Records
variable {s : Settings} {engine : String} {w : World} {done rest : List Migration} {entries : List Entry}

theorem nodup_names_of_loadChain {chain : List Migration} (h : loadChain s w engine = .ok chain) :
    (chain.map (·.name)).Nodup := by
  obtain ⟨ms, -, h⟩ := bind_eq_ok_iff.1 h
  exact (Chain.linear_of_resolve h).2.1

variable (hchain : loadChain s w engine = .ok (done ++ rest)) (happlied : s.ledger.applied w engine = .ok entries)
  (hrecords : Records entries done)
include hchain happlied hrecords

theorem position_of_records :
    position s w engine = .ok ⟨done ++ rest, done.getLast?.map (·.name), entries, rest⟩ := by
  have hverify : Ledger.verify engine (done ++ rest) entries = .ok (done.getLast?.map (·.name)) := by
    simp only [Ledger.verify, verifyEntries_of_records hrecords, bind, Except.bind, pure, Except.pure, hrecords.last]
  simp only [position, hchain, happlied, hverify, Chain.pending_append (nodup_names_of_loadChain hchain), bind,
    Except.bind, pure, Except.pure]

theorem prepare_of_records :
    (∃ head schema, Replay.run (done ++ rest) = .ok head ∧ Replay.run done = .ok schema ∧
        prepare s w engine = .ok (rest, schema)) ∨
      ∃ failure, Replay.run (done ++ rest) = .error failure ∧ prepare s w engine = .error failure := by
  have hposition := position_of_records hchain happlied hrecords
  have hthrough := Replay.through_append (nodup_names_of_loadChain hchain)
  cases hrun : Replay.run (done ++ rest) with
  | error failure =>
    exact .inr ⟨failure, rfl, by simp only [prepare, hposition, hrun, bind, Except.bind]⟩
  | ok head =>
    obtain ⟨schema, hdone, -⟩ := Replay.foldlM_append_eq_ok_iff.1 hrun
    have hdone : Replay.run done = .ok schema := hdone
    refine .inl ⟨head, schema, rfl, hdone, ?_⟩
    simp only [prepare, hposition, hrun, hthrough, hdone, bind, Except.bind, pure, Except.pure]

end Records

/-! ### Standing well -/

/-- The files of the ledger and those of the migrations are kept apart. The directory of the migrations is at the
place `P`, that of the ledger at `Q`. -/
structure Apart (s : Settings) (engine : String) (P Q : Place) : Prop where
  fits : s.ledger.Fits engine
  /-- No file of the ledger lies on the way to the migrations. -/
  way : ∀ q ∈ placesFrom [] (Directory.own s.directory engine).steps, ¬ s.ledger.IsFile Q engine q
  /-- No file of the ledger is taken for a migration. -/
  files : ∀ name, Directory.isMigrationFile name = true → ¬ s.ledger.IsFile Q engine (P ++ [name])
  /-- No migration lies on the way to the ledger. -/
  reach : ∀ name, Directory.isMigrationFile name = true → P ++ [name] ∉ placesFrom [] s.ledger.steps

/-- The chain is made of the migrations that were applied and those that are pending, and the ledger records the
former. -/
structure Standing (s : Settings) (engine : String) (P Q : Place) (w : World) (done rest : List Migration)
    (entries : List Entry) : Prop where
  wellFormed : w.disk.WellFormed
  opens : w.disk.Opens [] (Directory.own s.directory engine).steps P
  reaches : w.disk.Opens [] s.ledger.steps Q
  chain : loadChain s w engine = .ok (done ++ rest)
  applied : s.ledger.applied w engine = .ok entries
  records : Records entries done

variable {s : Settings} {engine : String} {P Q : Place} {w w' : World} {done rest done' rest' : List Migration}
  {entries entries' : List Entry}

/-- The chain is the same when the files of the migrations are. -/
theorem loadChain_of_same {chain : List Migration} (hw : w.disk.WellFormed)
    (ho : w.disk.Opens [] (Directory.own s.directory engine).steps P) (hw' : w'.disk.WellFormed)
    (ho' : w'.disk.Opens [] (Directory.own s.directory engine).steps P)
    (hsame : ∀ name, Directory.isMigrationFile name = true → w'.disk.node? (P ++ [name]) = w.disk.node? (P ++ [name]))
    (h : loadChain s w engine = .ok chain) : loadChain s w' engine = .ok chain := by
  obtain ⟨ms, hms, h⟩ := bind_eq_ok_iff.1 h
  obtain ⟨ms', hms', hperm⟩ := Directory.migrations_of_same hw ho hw' ho' hsame hms
  exact bind_eq_ok_iff.2 ⟨ms', hms', Chain.resolve_of_perm h hperm⟩

namespace Standing

/-- The chain stays as it is when no migration is among what changes. -/
theorem of_changes (h : Standing s engine P Q w done rest entries) {made file : Place → Prop}
    (hw : w'.disk.WellFormed) (hreaches : w'.disk.Opens [] s.ledger.steps Q) (hc : ChangesAt w.disk w'.disk made file)
    (hway : ∀ q ∈ placesFrom [] (Directory.own s.directory engine).steps, ¬ file q)
    (hfiles : ∀ name, Directory.isMigrationFile name = true → ¬ made (P ++ [name]) ∧ ¬ file (P ++ [name]))
    (ha : s.ledger.applied w' engine = .ok entries') (hr : Records entries' done')
    (hsplit : done' ++ rest' = done ++ rest) :
    Standing s engine P Q w' done' rest' entries' := by
  have hopens := h.opens.of_changes h.wellFormed.rooted hc hway
  refine ⟨hw, hopens, hreaches, ?_, ha, hr⟩
  rw [hsplit]
  refine loadChain_of_same h.wellFormed h.opens hw hopens (fun name hname => ?_) h.chain
  exact hc.node?_eq (hfiles name hname).1 (hfiles name hname).2

/-- Whatever is recorded in the ledger, the chain stays as it is. -/
theorem of_kept (h : Standing s engine P Q w done rest entries) (hapart : Apart s engine P Q)
    (hk : s.ledger.Kept Q engine w w') (ha : s.ledger.applied w' engine = .ok entries')
    (hr : Records entries' done') (hsplit : done' ++ rest' = done ++ rest) :
    Standing s engine P Q w' done' rest' entries' :=
  h.of_changes hk.wellFormed hk.reaches hk.changes hapart.way
    (fun name hname => ⟨hapart.reach name hname, hapart.files name hname⟩) ha hr hsplit

/-- Whatever is found on the way to the migrations, the ledger stays as it is. -/
theorem applied_of_made (h : Standing s engine P Q w done rest entries) (hapart : Apart s engine P Q) {disk : Disk}
    {file : Place → Prop} (hw : disk.WellFormed)
    (hc : ChangesAt w.disk disk
      (fun q => q ∈ placesFrom [] (Directory.own s.directory engine).steps ∧ q <+: P) file)
    (hfile : ∀ q, file q → ∃ name, Directory.isMigrationFile name = true ∧ q = P ++ [name]) :
    disk.Opens [] s.ledger.steps Q ∧ s.ledger.applied { w with disk } engine = .ok entries := by
  have hopens : disk.Opens [] s.ledger.steps Q := by
    refine h.reaches.of_changes h.wellFormed.rooted hc fun q hq hf => ?_
    obtain ⟨name, hname, rfl⟩ := hfile q hf
    exact hapart.reach name hname hq
  refine ⟨hopens, ?_⟩
  rw [← h.applied]
  obtain ⟨hfits, hway, hfiles, -⟩ := hapart
  cases hl : s.ledger with
  | memory => rfl
  | directory path =>
    have hreaches := h.reaches
    rw [hl] at hfits hway hfiles hopens hreaches
    refine Files.applied_of_opens h.wellFormed.rooted hreaches hw.rooted hopens hfits (hc.node?_eq ?_ ?_)
    · exact fun hq => hway _ hq.1 (.inl rfl)
    · intro hf
      obtain ⟨name, hname, heq⟩ := hfile _ hf
      exact hfiles name hname (heq ▸ .inl rfl)

/-- The options of the engine and its clock make no difference. -/
theorem withOptions (h : Standing s engine P Q w done rest entries) (now : Calendar.Instant)
    (dryRun allowDestructive : Bool) :
    Standing { s with dryRun, allowDestructive } engine P Q { w with now } done rest entries where
  wellFormed := h.wellFormed
  opens := h.opens
  reaches := h.reaches
  chain := h.chain
  applied := by
    rw [← h.applied]
    cases s.ledger <;> rfl
  records := h.records

/-! ### Making a migration -/

section Making
variable {models : List Model} {label : Option String} {p : Plan} (h : Standing s engine P Q w done rest entries)
  (hapart : Apart s engine P Q)
include h hapart

theorem of_make (hdry : s.dryRun = false) (hmake : make s engine models label w = .ok p w')
    (hdoc : ∀ m, p.migration = some m → Toml.faithful m.members = true) :
    ∃ m, p.migration = some m ∧ Standing s engine P Q w' done (rest ++ [m.settled]) entries := by
  obtain ⟨chain, baseline, d, m, disk, hchain, -, -, hnext, hm, -, hwritten, rfl, hgrown⟩ :=
    made h.wellFormed h.opens hdry hmake hdoc
  obtain rfl : chain = done ++ rest := Except.ok.inj (hchain.symm.trans h.chain)
  have hmade := isNext_of_nextMigration hnext
  obtain rfl := hmade.database
  obtain ⟨hreaches, happlied⟩ := h.applied_of_made hapart hwritten.wellFormed hwritten.changes
    fun q hq => ⟨_, hmade.isMigrationFile, hq⟩
  refine ⟨m, hm, hwritten.wellFormed, hwritten.opens, hreaches, ?_, happlied, h.records⟩
  rw [hgrown, List.append_assoc]

theorem of_make_error {m : Migration} {failure : Failure} {disk : Disk} (hdatabase : m.database = engine)
    (hwrite : Directory.writeMigration s.directory m w.disk = .error failure disk) :
    Standing s engine P Q { w with disk } done rest entries := by
  subst hdatabase
  obtain ⟨hwf, hopens, hc⟩ := Directory.of_writeMigration_error h.wellFormed h.opens hwrite
  obtain ⟨hreaches, happlied⟩ := h.applied_of_made hapart hwf hc fun _ => False.elim
  refine ⟨hwf, hopens, hreaches, ?_, happlied, h.records⟩
  refine loadChain_of_same h.wellFormed h.opens hwf hopens (fun name _ => ?_) h.chain
  exact hc.node?_eq (fun hq => absurd hq.2.length_le (by simp)) not_false

end Making

/-! ### Applying migrations -/

theorem position_eq (h : Standing s engine P Q w done rest entries) :
    position s w engine = .ok ⟨done ++ rest, done.getLast?.map (·.name), entries, rest⟩ :=
  position_of_records h.chain h.applied h.records

/-- What applying the pending migrations leaves: a first part of them is applied, all of them if it succeeds. -/
def Advanced {γ α : Type} (s : Settings) (engine : String) (P Q : Place) (done rest : List Migration)
    (r : EStateM.Result Failure (Session γ) α) : Prop :=
  ∃ more left entries, rest = more ++ left ∧ Standing s engine P Q (after r).world (done ++ more) left entries ∧
    s.ledger.Locked Q (after r).world engine ∧ ∀ a t, r = .ok a t → left = []

/-- **Applying what is pending**, up to where it fails: each migration that is done is recorded. -/
theorem of_applyAll {γ : Type} (A : Adapter γ) {t : Session γ} (h : Standing s engine P Q t.world done rest entries)
    (hapart : Apart s engine P Q) (hlocked : s.ledger.Locked Q t.world engine) (hnow : t.world.now.Proper)
    (schema : State) (report : Report) :
    Advanced s engine P Q done rest (applyAll s.ledger A.inSession engine rest schema report t) := by
  induction rest generalizing t done entries schema report with
  | nil => exact ⟨[], [], entries, rfl, by rwa [List.append_nil], hlocked, fun _ _ _ => rfl⟩
  | cons m rest ih =>
    have hstay (connection : γ) (failure : Failure) : Advanced s engine P Q done (m :: rest)
        (.error failure { t with connection } : EStateM.Result Failure (Session γ) Report) :=
      ⟨[], m :: rest, entries, rfl, by rwa [List.append_nil], hlocked, fun _ _ he => by cases he⟩
    simp only [applyAll, bind, EStateM.bind, Adapter.run_inSession, onConnection]
    cases A.run m schema t.connection with
    | error failure connection => exact hstay connection failure
    | ok after connection =>
      simp only [onWorld]
      rcases LedgerPlace.record_cases h.wellFormed h.reaches hlocked h.applied hnow m.name m.checksum with
        ⟨w', hrecord, hkept, hlocked', happlied⟩ | ⟨failure, hrecord⟩
      · simp only [hrecord]
        have hstand : Standing s engine P Q w' (done ++ [m]) rest
            (entries ++ [⟨m.name, engine, m.checksum, t.world.now⟩]) :=
          h.of_kept hapart hkept happlied (h.records.concat m _) (List.append_assoc ..)
        obtain ⟨more, left, entries', hsplit, hend, hlocked'', hok⟩ :=
          ih (t := ⟨w', connection⟩) hstand hlocked' (hkept.now ▸ hnow) after (report.add m)
        rw [List.append_assoc] at hend
        exact ⟨m :: more, left, entries', by rw [hsplit]; rfl, hend, hlocked'', hok⟩
      · simp only [hrecord]
        exact hstay connection failure

/-- A run has the pending migrations before it when the whole chain replays, and does not begin otherwise. -/
theorem prepare_eq (h : Standing s engine P Q w done rest entries) :
    (∃ head schema, Replay.run (done ++ rest) = .ok head ∧ Replay.run done = .ok schema ∧
        prepare s w engine = .ok (rest, schema)) ∨
      ∃ failure, Replay.run (done ++ rest) = .error failure ∧ prepare s w engine = .error failure :=
  prepare_of_records h.chain h.applied h.records

theorem of_release (h : Standing s engine P Q w done rest entries) (hapart : Apart s engine P Q)
    (hlocked : s.ledger.Locked Q w engine) :
    Standing s engine P Q (s.ledger.release engine w) done rest entries ∧
      s.ledger.Free Q (s.ledger.release engine w) engine := by
  obtain ⟨hkept, hfree, happlied⟩ := LedgerPlace.release_spec h.wellFormed h.reaches hlocked
  exact ⟨h.of_kept hapart hkept (happlied.trans h.applied) h.records rfl, hfree⟩

section Migrating
variable {γ : Type} (A : Adapter γ) {t : Session γ} (h : Standing s engine P Q t.world done rest entries)
  (hapart : Apart s engine P Q)
include h hapart

/-- What is done while the lock is held: nothing, if the chain does not replay or the run is a dry one. -/
theorem of_migrateLocked (hlocked : s.ledger.Locked Q t.world engine) (hnow : t.world.now.Proper) :
    ∃ more left entries', rest = more ++ left ∧
      Standing s engine P Q (after (migrateLocked s A.inSession engine t)).world (done ++ more) left entries' ∧
      s.ledger.Locked Q (after (migrateLocked s A.inSession engine t)).world engine ∧
      ∀ report t', migrateLocked s A.inSession engine t = .ok report t' → s.dryRun = false →
        left = [] ∧ ∃ head, Replay.run (done ++ rest) = .ok head := by
  have hstay : Standing s engine P Q t.world (done ++ []) rest entries := by rwa [List.append_nil]
  rcases h.prepare_eq with ⟨head, schema, hreplay, -, hprepare⟩ | ⟨failure, -, hprepare⟩
  · cases hdry : s.dryRun with
    | true =>
      have hrun : migrateLocked s A.inSession engine t = .ok (.dry engine rest) t := by
        simp only [migrateLocked, hprepare, hdry, if_true]
      rw [hrun]
      exact ⟨[], rest, entries, rfl, hstay, hlocked, fun _ _ _ hwet => by cases hwet⟩
    | false =>
      rw [show migrateLocked s A.inSession engine t = _ from
        migrateLocked_of_prepare hprepare hdry A.inSession t.connection]
      obtain ⟨more, left, entries', hsplit, hend, hlocked', hok⟩ :=
        of_applyAll A h hapart hlocked hnow schema { engine }
      exact ⟨more, left, entries', hsplit, hend, hlocked', fun report t' he _ => ⟨hok report t' he, head, hreplay⟩⟩
  · rw [show migrateLocked s A.inSession engine t = _ from
      migrateLocked_of_prepare_error hprepare A.inSession t.connection]
    exact ⟨[], rest, entries, rfl, hstay, hlocked, fun _ _ he => by cases he⟩

/-- **Migrating**: a first part of what was pending is applied, and all of it if that succeeds. -/
theorem of_migrate (hnow : t.world.now.Proper) : ∃ more left entries', rest = more ++ left ∧
    Standing s engine P Q (after (migrate s A engine t)).world (done ++ more) left entries' ∧
    ∀ report t', migrate s A engine t = .ok report t' → s.dryRun = false →
      left = [] ∧ s.ledger.Free Q t'.world engine ∧ ∃ head, Replay.run (done ++ rest) = .ok head := by
  cases hacquire : s.ledger.acquire engine t.world with
  | error failure w' =>
    obtain ⟨hkept, happlied⟩ := LedgerPlace.acquire_error h.wellFormed h.reaches hapart.fits hacquire
    rw [show migrate s A engine t = .error failure ⟨w', t.connection⟩ from
      migrate_of_acquire_error hacquire A t.connection]
    refine ⟨[], rest, entries, rfl, ?_, fun _ _ he => by cases he⟩
    rw [List.append_nil]
    exact h.of_kept hapart hkept (happlied.trans h.applied) h.records rfl
  | ok _ held =>
    obtain ⟨hkept, hlocked, happlied⟩ := LedgerPlace.acquire_ok h.wellFormed h.reaches hapart.fits hacquire
    have hheld : Standing s engine P Q held done rest entries :=
      h.of_kept hapart hkept (happlied.trans h.applied) h.records rfl
    obtain ⟨more, left, entries', hsplit, hend, hlocked', hok⟩ :=
      of_migrateLocked A (t := ⟨held, t.connection⟩) hheld hapart hlocked (hkept.now ▸ hnow)
    obtain ⟨hreleased, hfree⟩ := hend.of_release hapart hlocked'
    refine ⟨more, left, entries', hsplit, ?_⟩
    rw [show migrate s A engine t = _ from migrate_of_acquire hacquire A t.connection]
    cases hwork : migrateLocked s A.inSession engine ⟨held, t.connection⟩ with
    | ok report t' =>
      rw [hwork] at hreleased hfree
      refine ⟨hreleased, fun _ _ he hdry => ?_⟩
      obtain ⟨hleft, hreplay⟩ := hok report t' hwork hdry
      cases he
      exact ⟨hleft, hfree, hreplay⟩
    | error failure t' =>
      rw [hwork] at hreleased
      exact ⟨hreleased, fun _ _ he => by cases he⟩

/-- **Nothing is pending**: whoever migrates then executes nothing and records nothing. -/
theorem migrate_idle (hrest : rest = []) (hfree : s.ledger.Free Q t.world engine) {head : State}
    (hreplay : Replay.run done = .ok head) :
    ∃ report t', migrate s A engine t = .ok report t' ∧ report.applied = [] ∧ report.changes = 0 ∧
      t'.connection = t.connection ∧ s.ledger.applied t'.world engine = .ok entries := by
  subst hrest
  obtain ⟨held, hacquire⟩ := LedgerPlace.acquire_of_free hfree
  obtain ⟨hkept, hlocked, happlied⟩ := LedgerPlace.acquire_ok h.wellFormed h.reaches hapart.fits hacquire
  have hheld : Standing s engine P Q held done [] entries :=
    h.of_kept hapart hkept (happlied.trans h.applied) h.records rfl
  obtain ⟨hidle, -⟩ := hheld.of_release hapart hlocked
  rcases hheld.prepare_eq with ⟨_, schema, -, -, hprepare⟩ | ⟨failure, hfailed, -⟩
  · rw [show migrate s A engine t = _ from migrate_of_acquire hacquire A t.connection]
    cases hdry : s.dryRun with
    | true =>
      rw [migrateLocked_of_dry hprepare hdry, mapState_ok]
      exact ⟨_, _, rfl, rfl, rfl, rfl, hidle.applied⟩
    | false =>
      rw [migrateLocked_of_prepare hprepare hdry]
      exact ⟨_, _, rfl, rfl, rfl, rfl, hidle.applied⟩
  · rw [List.append_nil, hreplay] at hfailed
    cases hfailed

end Migrating

end Standing

end Schemata.Engine
