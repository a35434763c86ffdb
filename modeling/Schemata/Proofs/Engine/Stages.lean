import Schemata.Proofs.Engine.Carry

/-! A chain that arrives in segments.

Whoever runs the engine each time that a segment of the chain has arrived (`Staged`) gets the script and the ledger
of a single run over the whole chain. After every run the two are abreast of what is there (`Abreast`): they
are what carrying out the chain so far comes to, and a run that finds them so leaves them so. -/
namespace Schemata

namespace Ledger

theorem Records.append {entries : List Entry} {done : List Migration} (h : Records entries done) (engine : String)
    (now : Calendar.Instant) (ms : List Migration) :
    Records (entries ++ ms.map fun m => ⟨m.name, engine, m.checksum, now⟩) (done ++ ms) := by
  simp [Records, h.symm, Function.comp_def]

end Ledger

namespace Engine
open Ddl Ledger

/-! ### Runs and what they leave -/

section Runs
variable {γ : Type}

/-- What a run leaves for the next one: the ledger as it reads, and the connection. -/
structure Left (γ : Type) where
  ledger : Except Failure (List Entry)
  connection : γ

/-- What is seen of a run: why it failed, if it did, the calls that its adapter got, and what it leaves. -/
structure Seen (γ : Type) where
  failure? : Option Failure
  calls : List (Change × State)
  left : Left γ

def failure? {ε σ α : Type} : EStateM.Result ε σ α → Option ε
  | .ok _ _ => none
  | .error failure _ => some failure

/-- A run, as it is seen. -/
def observe (s : Settings) (A : Adapter γ) (engine : String) (t : Session γ) : Seen γ where
  failure? := failure? (migrate s A engine t)
  calls := (after (migrate s A.watched engine (t.watch []))).connection.calls
  left := ⟨s.ledger.applied (after (migrate s A engine t)).world engine, (after (migrate s A engine t)).connection⟩

/-- A world in which the chain is there, and the ledger reads as it was left. The lock is free and the ledger takes
entries; nothing else is asked of the world. -/
structure Ready (s : Settings) (engine : String) (ledger : Except Failure (List Entry)) (chain : List Migration)
    (w : World) : Prop where
  clock : w.now.Proper
  writable : s.ledger.Writable w engine
  held : ∃ held, s.ledger.acquire engine w = .ok () held ∧ loadChain s held engine = .ok chain ∧
    s.ledger.applied held engine = ledger

/-- Runs, each when one more segment of the chain has arrived, in whatever world it finds then. -/
inductive Staged (s : Settings) (A : Adapter γ) (engine : String) :
    List Migration → Left γ → List (List Migration) → List (Seen γ) → Left γ → Prop
  | nil {available : List Migration} {left : Left γ} : Staged s A engine available left [] [] left
  | cons {available segment : List Migration} {before final : Left γ} {w : World} {segments : List (List Migration)}
      {runs : List (Seen γ)} (hready : Ready s engine before.ledger (available ++ segment) w)
      (hrest : Staged s A engine (available ++ segment) (observe s A engine ⟨w, before.connection⟩).left segments runs
        final) :
      Staged s A engine available before (segment :: segments)
        (observe s A engine ⟨w, before.connection⟩ :: runs) final

end Runs

/-- What an adapter is called for follows the changes that are outstanding. -/
theorem calls_observe {γ : Type} (s : Settings) (A : Adapter γ) (engine : String) (t : Session γ) :
    (observe s A engine t).calls <+: Change.paired ((outstanding s t.world engine).1.flatMap (·.changes))
      (outstanding s t.world engine).2 := by
  obtain ⟨more, hwatched, hmore⟩ := migrate_watched A s engine t []
  have hcalls : (observe s A engine t).calls = more := by
    simp only [observe, hwatched, List.nil_append]
    cases migrate s A engine t <;> rfl
  rwa [hcalls]

/-! ### One run -/

section OneRun
variable {γ : Type} {s : Settings} {engine : String} {w : World} {done rest : List Migration} {entries : List Entry}
  {head : State}

/-- **One run** carries out what the ledger has not recorded yet, from the state that the recorded part leads to. -/
theorem observe_of_ready (A : Adapter γ) (connection : γ) (hdry : s.dryRun = false)
    (hready : Ready s engine (.ok entries) (done ++ rest) w) (hrecords : Records entries done)
    (hreplay : Replay.run (done ++ rest) = .ok head) :
    ∃ reached entries', Replay.run done = .ok reached ∧
      (observe s A engine ⟨w, connection⟩).failure? = (A.carry rest reached connection).failure? ∧
      (observe s A engine ⟨w, connection⟩).left = ⟨.ok entries', (A.carry rest reached connection).connection⟩ ∧
      Records entries' (done ++ (A.carry rest reached connection).done) ∧
      (observe s A engine ⟨w, connection⟩).calls <+: Change.paired (rest.flatMap (·.changes)) reached := by
  obtain ⟨held, hacquire, hchain, happlied⟩ := hready.held
  rcases prepare_of_records hchain happlied hrecords with ⟨_, reached, -, hdone, hprepare⟩ | ⟨_, hfailed, -⟩
  · have hholds := LedgerPlace.holds_of_acquire hacquire hready.writable hready.clock happlied
    obtain ⟨w', hl, hrun⟩ := applyAll_carry A rest reached hholds connection { engine }
    have hmigrate : migrate s A engine ⟨w, connection⟩ =
        (A.carry rest reached connection).result { engine } (s.ledger.release engine w') := by
      rw [Begun.migrate_eq ⟨hacquire, hprepare⟩ hdry, hrun]
      simp only [Carried.result]
      cases (A.carry rest reached connection).failure? <;> rfl
    have hout : outstanding s w engine = (rest, reached) := by
      simp only [outstanding, start, hacquire, hprepare]
      rfl
    refine ⟨reached, entries ++ (A.carry rest reached connection).done.map (entryOf engine held.now), hdone, ?_, ?_,
      hrecords.append engine held.now _, ?_⟩
    · simp only [observe, hmigrate, Carried.result]
      cases (A.carry rest reached connection).failure? <;> rfl
    · have hafter : after (migrate s A engine ⟨w, connection⟩) =
          ⟨s.ledger.release engine w', (A.carry rest reached connection).connection⟩ := by
        rw [hmigrate, Carried.result]
        cases (A.carry rest reached connection).failure? <;> rfl
      simp only [observe, hafter, hl.applied_release]
    · have hcalls := calls_observe s A engine ⟨w, connection⟩
      rwa [hout] at hcalls
  · cases hfailed.symm.trans hreplay

end OneRun

/-! ### Run after run -/

/-- What carrying out a chain from its beginning comes to, with a script that has these statements. -/
def whole (committed : List Statement) (chain : List Migration) : Carried Script :=
  scriptAdapter.carry chain Ascending.empty ⟨committed, none⟩

/-- The ledger and the script are what carrying out the available chain comes to. -/
def Abreast (committed : List Statement) (available : List Migration) (left : Left Script) : Prop :=
  left.connection = (whole committed available).connection ∧
    ∃ entries, left.ledger = .ok entries ∧
      Records entries (whole committed available).done

section Stages
variable {s : Settings} {engine : String} {committed : List Statement} {available segment : List Migration}
  {before final : Left Script} {w : World} {segments : List (List Migration)} {runs : List (Seen Script)} {head : State}

theorem abreast_nil (committed : List Statement) : Abreast committed [] ⟨.ok [], ⟨committed, none⟩⟩ :=
  ⟨rfl, [], rfl, rfl⟩

/-- A run that finds ledger and script abreast of what was there leaves them abreast of what is there now. It fails as
a single run over what is there now would, and its calls follow the changes of that. -/
theorem Abreast.of_run (h : Abreast committed available before) (hdry : s.dryRun = false)
    (hready : Ready s engine before.ledger (available ++ segment) w)
    (hreplay : Replay.run (available ++ segment) = .ok head) :
    Abreast committed (available ++ segment) (observe s scriptAdapter engine ⟨w, before.connection⟩).left ∧
      (observe s scriptAdapter engine ⟨w, before.connection⟩).failure? =
        (whole committed (available ++ segment)).failure? ∧
      ∃ earlier, earlier ++ (observe s scriptAdapter engine ⟨w, before.connection⟩).calls <+:
        Change.paired ((available ++ segment).flatMap (·.changes)) Ascending.empty := by
  obtain ⟨hconnection, entries, hledger, hrecords⟩ := h
  obtain ⟨_, havailable, -⟩ := Replay.foldlM_append_eq_ok_iff.1 hreplay
  obtain ⟨done, rest, blocks, start, failure?, rfl, -, hdone, -, hpart, hall⟩ := carry_script havailable committed
  rw [whole, hall] at hconnection hrecords
  rw [hledger, List.append_assoc] at hready
  rw [List.append_assoc] at hreplay ⊢
  obtain ⟨start', entries', hdone', hfailure, hleft, hrecords', hcalls⟩ :=
    observe_of_ready scriptAdapter before.connection hdry hready hrecords hreplay
  obtain rfl : start = start' := Except.ok.inj (hdone.symm.trans hdone')
  have hwhole : whole committed (done ++ (rest ++ segment)) =
      { scriptAdapter.carry (rest ++ segment) start before.connection with
        done := done ++ (scriptAdapter.carry (rest ++ segment) start before.connection).done } := by
    rw [whole, Adapter.carry_append hdone (by rw [hpart]), hpart, hconnection]
  refine ⟨⟨?_, entries', ?_, ?_⟩, ?_, ?_⟩
  · rw [hleft, hwhole]
  · rw [hleft]
  · rw [hwhole]
    exact hrecords'
  · rw [hfailure, hwhole]
  · have hchanges := Replay.run_eq_ok_iff.1 hdone
    rw [List.flatMap_append, Change.paired_append hchanges]
    exact ⟨_, (List.prefix_append_right_inj _).2 hcalls⟩

/-! ### How the runs fail -/

/-- A chain that fails so far fails in the same way as it goes on. -/
theorem failure?_whole (committed : List Statement) (a b : List Migration) :
    (whole committed a).failure? = none ∨ (whole committed (a ++ b)).failure? = (whole committed a).failure? := by
  cases h : (whole committed a).failure? with
  | none => exact .inl rfl
  | some failure => exact .inr (by rw [whole, Adapter.carry_append_of_failure h, ← h, whole])

/-- Failures of runs in a row: none at first, and one and the same from the first that fails on. The last run fails
like the whole. -/
def FailLike (failures : List (Option Failure)) (whole : Option Failure) : Prop :=
  ∃ succeeded failed, failures = List.replicate succeeded none ++ List.replicate failed whole ∧
    (failures = [] ∨ 0 < failed)

theorem FailLike.cons {failures : List (Option Failure)} {first whole : Option Failure} (h : FailLike failures whole)
    (hfirst : first = none ∨ first = whole ∧ ∀ failure ∈ failures, failure = whole)
    (hlast : failures = [] → first = whole) : FailLike (first :: failures) whole := by
  obtain ⟨succeeded, failed, rfl, hfailed⟩ := h
  rcases hfirst with rfl | ⟨rfl, hall⟩
  · rcases hfailed with hnil | hpos
    · obtain rfl := hlast hnil
      exact ⟨0, 1, by rw [hnil]; rfl, .inr Nat.one_pos⟩
    · exact ⟨succeeded + 1, failed, rfl, .inr hpos⟩
  · exact ⟨0, (List.replicate succeeded none ++ List.replicate failed first).length + 1,
      by rw [List.replicate_succ, ← List.eq_replicate_of_mem hall]; rfl, .inr (Nat.succ_pos _)⟩

/-- **Run after run**, ledger and script keep abreast of the chain. The runs succeed until the first migration that
cannot be rendered has arrived, and fail because of it from then on. -/
theorem Abreast.of_staged (hdry : s.dryRun = false) (h : Abreast committed available before)
    (hreplay : Replay.run (available ++ segments.flatten) = .ok head)
    (hstaged : Staged s scriptAdapter engine available before segments runs final) :
    Abreast committed (available ++ segments.flatten) final ∧
      FailLike (runs.map (·.failure?))
        (whole committed (available ++ segments.flatten)).failure? ∧
      ((whole committed available).failure? = none ∨
        ∀ failure ∈ runs.map (·.failure?), failure =
          (whole committed (available ++ segments.flatten)).failure?) ∧
      ∀ run ∈ runs, ∃ earlier, earlier ++ run.calls <+:
        Change.paired ((available ++ segments.flatten).flatMap (·.changes)) Ascending.empty := by
  induction hstaged with
  | nil =>
    rw [List.flatten_nil, List.append_nil]
    exact ⟨h, ⟨0, 0, rfl, .inl rfl⟩, .inr fun failure hf => (by cases hf), fun run hrun => by cases hrun⟩
  | @cons available segment before final w segments runs hready hrest ih =>
    rw [List.flatten_cons, ← List.append_assoc] at hreplay ⊢
    obtain ⟨_, hnow, -⟩ := Replay.foldlM_append_eq_ok_iff.1 hreplay
    obtain ⟨hstep, hfailure, earlier, hcalls⟩ := h.of_run hdry hready hnow
    obtain ⟨hend, hlike, hlater, hothers⟩ := ih hstep hreplay
    have hbefore := failure?_whole committed available segment
    have hwhole := failure?_whole committed (available ++ segment) segments.flatten
    rw [List.map_cons, hfailure]
    have hsame : (whole committed (available ++ segment)).failure? = none ∨
        ∀ failure ∈ (whole committed (available ++ segment)).failure? :: runs.map (·.failure?), failure =
          (whole committed (available ++ segment ++ segments.flatten)).failure? := by
      rcases hwhole with hnone | hwhole
      · exact .inl hnone
      · exact hlater.imp_right fun hall => List.forall_mem_cons.2 ⟨hwhole.symm, hall⟩
    refine ⟨hend, hlike.cons (hsame.imp_right List.forall_mem_cons.1) fun hnil => ?_, ?_, fun run hrun => ?_⟩
    · obtain rfl := List.map_eq_nil_iff.1 hnil
      cases hrest
      rw [List.flatten_nil, List.append_nil]
    · rcases hbefore with hnone | hbefore
      · exact .inl hnone
      · rw [hbefore] at hsame ⊢
        exact hsame
    · rcases List.mem_cons.1 hrun with rfl | hrun
      · have hgrown := Change.paired_prefix ((available ++ segment).flatMap (·.changes))
          (segments.flatten.flatMap (·.changes)) Ascending.empty
        rw [← List.flatMap_append] at hgrown
        exact ⟨earlier, hcalls.trans hgrown⟩
      · exact hothers run hrun

end Stages

/-! ### At once or in stages -/

/-- Runs in stages come to the same as a single run over the whole chain. -/
structure AsOne (committed : List Statement) (chain : List Migration) (runs : List (Seen Script))
    (final : Left Script) (single : Seen Script) : Prop where
  /-- The same statements are committed in the same order, and no transaction is open. -/
  script : final.connection = single.left.connection
  /-- The ledgers have the same migrations with the same digests. -/
  ledger : ∃ entries entries', final.ledger = .ok entries ∧ single.left.ledger = .ok entries' ∧
    entries.map (fun e => (e.migration, e.checksum)) = entries'.map fun e => (e.migration, e.checksum)
  /-- What is committed and recorded is the part of the chain before the first migration that cannot be rendered. If
  there is one, the single run fails because of it. -/
  rendered : ∃ done rest blocks reached entries, chain = done ++ rest ∧
    blocks? done Ascending.empty = some (blocks, reached) ∧ Stops rest reached single.failure? ∧
    final.connection = ⟨committed ++ blocks, none⟩ ∧ final.ledger = .ok entries ∧ Records entries done
  /-- The runs in stages fail because of the same migration, from when it has arrived, and not before. -/
  failures : FailLike (runs.map (·.failure?)) single.failure?
  /-- Every call comes with the schema that all changes of the chain before it lead to, and the calls of a run follow
  one another as the changes do. -/
  calls : ∀ run ∈ single :: runs,
    run.calls <:+: Change.paired (chain.flatMap (·.changes)) Ascending.empty ∧
      ∀ call ∈ run.calls, ∃ before after, chain.flatMap (·.changes) = before ++ call.1 :: after ∧
        Change.applyAll before Ascending.empty = .ok call.2

/-- **It makes no difference when an engine is run.** However a chain that replays is cut into segments, and in
whatever worlds the runs find themselves, running the engine after each segment comes to the same as running it once
when the whole chain is there. -/
theorem asOne_of_staged {s : Settings} {engine : String} {committed : List Statement} {chain : List Migration}
    {segments : List (List Migration)} {runs : List (Seen Script)} {final : Left Script} {w : World} {head : State}
    (hdry : s.dryRun = false) (hcut : segments.flatten = chain) (hreplay : Replay.run chain = .ok head)
    (hstaged : Staged s scriptAdapter engine [] ⟨.ok [], ⟨committed, none⟩⟩ segments runs final)
    (hready : Ready s engine (.ok []) chain w) :
    AsOne committed chain runs final (observe s scriptAdapter engine ⟨w, ⟨committed, none⟩⟩) := by
  subst hcut
  obtain ⟨⟨hconnection, entries, hledger, hrecords⟩, hfail, -, hcalls⟩ :=
    (abreast_nil committed).of_staged hdry hreplay hstaged
  have hready : Ready s engine (.ok []) ([] ++ segments.flatten) w := hready
  obtain ⟨⟨hconnection', entries', hledger', hrecords'⟩, hfailure', hcalls'⟩ :=
    (abreast_nil committed).of_run hdry hready hreplay
  rw [List.nil_append] at hconnection hrecords hfail hcalls hconnection' hrecords' hfailure' hcalls'
  obtain ⟨done, rest, blocks, reached, failure?, hsplit, hblocks, -, hstops, -, hwhole⟩ :=
    carry_script hreplay committed
  have hwhole : whole committed segments.flatten = ⟨done, failure?, ⟨committed ++ blocks, none⟩⟩ := hwhole
  refine ⟨hconnection.trans hconnection'.symm, ⟨entries, entries', hledger, hledger', hrecords.trans hrecords'.symm⟩,
    ⟨done, rest, blocks, reached, entries, hsplit, hblocks, ?_, ?_, hledger, ?_⟩, ?_, fun run hrun => ?_⟩
  · rwa [hfailure', hwhole]
  · rw [hconnection, hwhole]
  · rwa [hwhole] at hrecords
  · rwa [hfailure']
  · have hfollow : run.calls <:+: Change.paired (segments.flatten.flatMap (·.changes)) Ascending.empty := by
      obtain ⟨earlier, later, hall⟩ : ∃ earlier, earlier ++ run.calls <+:
          Change.paired (segments.flatten.flatMap (·.changes)) Ascending.empty := by
        rcases List.mem_cons.1 hrun with rfl | hrun
        · exact hcalls'
        · exact hcalls run hrun
      exact ⟨earlier, later, hall⟩
    exact ⟨hfollow, fun call hcall => Change.of_mem_paired (hfollow.subset hcall)⟩

/-- Models that refer to those of the first migration. -/
def laterModels : List Model :=
  settledModels ++ [.ofFields "note" [.autoKey "id", { name := "tag", type := .foreignKey (.toModel "tag" .cascade) }]]

def laterDiff : Diff := .ofStates (.ofModels settledModels) (.ofModels laterModels)

def firstSegment : List Migration := [(firstMigration settledModels).settled]

def laterMigration : Migration := migrationBehind "main" firstSegment laterDiff "0002_20240101000000_create_note"

def secondSegment : List Migration := [laterMigration.settled]

/-- The disks on which the first and then the second migration have arrived. -/
theorem exists_arrivals : ∃ disk₁ disk₂,
    loadChain freshSettings { freshWorld with disk := disk₁ } "main" = .ok firstSegment ∧
      loadChain freshSettings { freshWorld with disk := disk₂ } "main" = .ok (firstSegment ++ secondSegment) := by
  have hbetween : Diff.between Ascending.empty settledModels = .ok (firstDiff settledModels) := rfl
  obtain ⟨p, w₁, hmake, hm⟩ := exists_make wellFormed_fresh opens_fresh rfl loadChain_fresh rfl hbetween
    (by decide) (by decide) rfl (nextMigration_first _) (by decide) (by decide)
  have hdoc : ∀ m, p.migration = some m → Toml.faithful m.members = true := by
    intro m he
    obtain rfl := Option.some.inj (hm.symm.trans he)
    exact faithful_settled
  obtain ⟨chain, -, -, m, disk, hchain, -, -, -, hm', -, hwritten, rfl, hgrown⟩ :=
    made wellFormed_fresh opens_fresh rfl hmake hdoc
  obtain rfl : chain = [] := Except.ok.inj (hchain.symm.trans loadChain_fresh)
  obtain rfl : m = firstMigration settledModels := Option.some.inj (hm'.symm.trans hm)
  have hchain₁ : loadChain freshSettings { freshWorld with disk } "main" = .ok firstSegment := hgrown
  have hrun₁ : Replay.run firstSegment = .ok (.ofModels settledModels) := rfl
  have hbetween₁ : Diff.between (.ofModels settledModels) laterModels = .ok laterDiff := rfl
  have hnext : nextMigration "main" firstSegment laterDiff none freshWorld.now = .ok laterMigration :=
    nextMigration_of_nextName rfl
  have hfits : Store.Disk.isName (Directory.fileName laterMigration.name) = true := by decide
  have hfree : disk.node? (freshPlace ++ [Directory.fileName laterMigration.name]) = none :=
    (hwritten.node?_eq (by decide)).trans rfl
  obtain ⟨q, w₂, hmake₂, hm₂⟩ := exists_make hwritten.wellFormed hwritten.opens rfl hchain₁ hrun₁ hbetween₁
    (by decide) (by decide) rfl hnext hfits hfree
  have hdoc₂ : ∀ m, q.migration = some m → Toml.faithful m.members = true := by
    intro m he
    obtain rfl : m = laterMigration := Option.some.inj (he.symm.trans hm₂)
    rw [Toml.faithful_eq]
    decide +kernel
  obtain ⟨chain₂, -, -, m₂, disk₂, hchain₂, -, -, -, hm₂', -, -, rfl, hgrown₂⟩ :=
    made hwritten.wellFormed hwritten.opens rfl hmake₂ hdoc₂
  obtain rfl : chain₂ = firstSegment := Except.ok.inj (hchain₂.symm.trans hchain₁)
  obtain rfl : m₂ = laterMigration := Option.some.inj (hm₂'.symm.trans hm₂)
  exact ⟨disk, disk₂, hchain₁, hgrown₂⟩

/-- Two migrations, of which the second refers to the first, in two runs and in one. -/
theorem asOne_arrivals : ∃ w runs final,
    Staged freshSettings scriptAdapter "main" [] ⟨.ok [], ⟨[], none⟩⟩ [firstSegment, secondSegment] runs final ∧
      Ready freshSettings "main" (.ok []) (firstSegment ++ secondSegment) w ∧
      AsOne [] (firstSegment ++ secondSegment) runs final
        (observe freshSettings scriptAdapter "main" ⟨w, ⟨[], none⟩⟩) := by
  obtain ⟨disk₁, disk₂, hchain₁, hchain₂⟩ := exists_arrivals
  let w₁ : World := { freshWorld with disk := disk₁ }
  let w : World := { freshWorld with disk := disk₂ }
  let first := observe freshSettings scriptAdapter "main" ⟨w₁, ⟨[], none⟩⟩
  -- The second run finds the ledger that the first one left, and its lock free.
  let w₂ : World := { w with memory.entries :=
    (after (migrate freshSettings scriptAdapter "main" ⟨w₁, ⟨[], none⟩⟩)).world.memory.entries }
  have hclock : freshWorld.now.Proper := by decide
  have hready₁ : Ready freshSettings "main" (.ok []) ([] ++ firstSegment) w₁ :=
    ⟨hclock, trivial, _, rfl, hchain₁, rfl⟩
  have hready₂ : Ready freshSettings "main" first.left.ledger ([] ++ firstSegment ++ secondSegment) w₂ :=
    ⟨hclock, trivial, _, rfl, hchain₂, rfl⟩
  have hready : Ready freshSettings "main" (.ok []) (firstSegment ++ secondSegment) w :=
    ⟨hclock, trivial, _, rfl, hchain₂, rfl⟩
  have hstaged : Staged freshSettings scriptAdapter "main" [] ⟨.ok [], ⟨[], none⟩⟩ [firstSegment, secondSegment] _ _ :=
    .cons hready₁ (.cons hready₂ .nil)
  have hreplay : Replay.run (firstSegment ++ secondSegment) = .ok (.ofModels laterModels) := rfl
  exact ⟨w, _, _, hstaged, hready, asOne_of_staged rfl rfl hreplay hstaged hready⟩

end Engine

end Schemata
