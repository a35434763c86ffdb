import Schemata.Proofs.Ddl.Reindexing
import Schemata.Proofs.Diff.Indexing
import Schemata.Schema.Normal

/-! The script of a history made of differences, read as an update of the registry of indexes.

From an empty database, the script makes of the registry that of the schema that the history leads to, migration
after migration. That takes live models that have every index once, and renamings that pass no name on to an index
before the one behind it has left it. -/
namespace Schemata

namespace Ddl
variable {s after : State}

/-- The blocks of a history come to what the statements of all its changes in a row come to. -/
theorem exists_statements_of_blocks {history : List Migration} {blocks : List Statement}
    (h : blocks? history s = some (blocks, after)) :
    ∃ statements, statements? (history.flatMap (·.changes)) s = some (statements, after) ∧
      ∀ reg : Registry, reg.run blocks = reg.run statements :=
  exists_foldlM_blocks (fun reg st => st.register reg) (fun _ => rfl) (fun _ => rfl) h

end Ddl

namespace Diff
open Change

/-! ### On the way of a history -/

section Way
variable {baseline after : State} {live : List Model} {d : Diff} (hb : baseline.WellFormed)
  (h : between baseline live = .ok d)
include hb h

theorem fits_of_between : ∀ call ∈ paired d.changes baseline, Ddl.Fits call.1 call.2 := by
  intro call hcall
  obtain ⟨s, hlive, -, rfl⟩ := eq_ofStates_of_between h
  obtain ⟨done, rest, hsplit, hdone⟩ := of_mem_paired hcall
  exact fits_of_split hb hlive.wellFormed hsplit hdone

/-- A difference keeps every index once exactly when the live models have every index once. -/
theorem indexedOnce_iff_of_between (hbo : baseline.IndexedOnce)
    (hafter : applyAll d.changes baseline = .ok after) :
    (∀ call ∈ paired d.changes baseline, call.2.IndexedOnce) ∧ after.IndexedOnce ↔
      ∀ m ∈ live, m.IndexedOnce := by
  have halike := alike_of_applyAll hb h hafter
  obtain ⟨s, hlive, -, rfl⟩ := eq_ofStates_of_between h
  have hmodels : (State.ofModels live).IndexedOnce ↔ ∀ m ∈ live, m.IndexedOnce := by
    rw [← hlive.eq_ofModels, State.indexedOnce_iff]
    exact forall_congr' fun m => imp_congr_left hlive.perm.mem_iff
  rw [halike.indexedOnce_iff, hmodels]
  refine and_iff_right_of_imp fun hall call hcall => ?_
  obtain ⟨done, rest, hsplit, hdone⟩ := of_mem_paired hcall
  exact indexedOnce_of_split hb hlive.wellFormed hbo (hlive.eq_ofModels ▸ hmodels.2 hall) hsplit hdone

end Way

section Evolved
variable {history : List Migration} {lives : List (List Model)} {final : State}

/-- The changes of a history, each with the schema right before it. -/
def calls (history : List Migration) : List (Change × State) :=
  paired (history.flatMap (·.changes)) Ascending.empty

theorem calls_append {done rest : List Migration} {s : State} (h : Replay.run done = .ok s) :
    calls (done ++ rest) = calls done ++ paired (rest.flatMap (·.changes)) s := by
  rw [calls, List.flatMap_append, paired_append (Replay.run_eq_ok_iff.1 h), calls]

theorem calls_concat {m : Migration} {s : State} (h : Replay.run history = .ok s) :
    calls (history ++ [m]) = calls history ++ paired m.changes s := by
  rw [calls_append h, List.flatMap_cons, List.flatMap_nil, List.append_nil]

theorem Evolved.fits (h : Evolved history lives) : ∀ call ∈ calls history, Ddl.Fits call.1 call.2 := by
  induction h with
  | start => exact fun _ hcall => absurd hcall List.not_mem_nil
  | grow m _ replayed compared written ih =>
    rw [calls_concat replayed, written]
    exact List.forall_mem_append.2
      ⟨ih, fits_of_between (Replay.reachable_of_run replayed).wellFormed compared⟩
  | rest _ _ _ _ ih => exact ih

/-- Every index is there once throughout a history exactly when it is so in the live models. -/
theorem Evolved.indexedOnce_iff (h : Evolved history lives) (hfinal : Replay.run history = .ok final) :
    (∀ call ∈ calls history, call.2.IndexedOnce) ∧ final.IndexedOnce ↔
      ∀ live ∈ lives, ∀ m ∈ live, m.IndexedOnce := by
  induction h generalizing final with
  | start =>
    cases hfinal
    exact iff_of_true ⟨fun _ hcall => absurd hcall List.not_mem_nil, fun _ _ hm => by cases hm⟩
      fun _ hlive => absurd hlive List.not_mem_nil
  | @grow history lives baseline live d m _ replayed compared written ih =>
    have hb := (Replay.reachable_of_run replayed).wellFormed
    obtain ⟨s, hs, hafter⟩ := Replay.run_concat.1 hfinal
    cases replayed.symm.trans hs
    rw [written] at hafter
    rw [calls_concat replayed, written, List.forall_mem_append, List.forall_mem_append, List.forall_mem_singleton,
      ← ih replayed]
    constructor
    · rintro ⟨⟨hbefore, hway⟩, hlast⟩
      have hbo := of_paired hafter hway hlast
      exact ⟨⟨hbefore, hbo⟩, (indexedOnce_iff_of_between hb compared hbo hafter).1 ⟨hway, hlast⟩⟩
    · rintro ⟨⟨hbefore, hbo⟩, hlive⟩
      obtain ⟨hway, hlast⟩ := (indexedOnce_iff_of_between hb compared hbo hafter).2 hlive
      exact ⟨⟨hbefore, hway⟩, hlast⟩
  | @rest history lives baseline live d _ replayed compared unchanged ih =>
    have hb := (Replay.reachable_of_run replayed).wellFormed
    cases replayed.symm.trans hfinal
    rw [isEmpty, List.isEmpty_iff] at unchanged
    have hafter : applyAll d.changes baseline = .ok baseline := by rw [unchanged]; rfl
    rw [List.forall_mem_append, List.forall_mem_singleton, ← ih replayed]
    refine (and_iff_left_of_imp fun hall => ?_).symm
    exact (indexedOnce_iff_of_between hb compared hall.2 hafter).1
      ⟨fun _ hcall => absurd (unchanged ▸ hcall) List.not_mem_nil, hall.2⟩

/-- Whether the live models never declare an index that one of their fields carries, and no renamed field gives an
index the name of one that is renamed behind it. -/
def Untangled (history : List Migration) (lives : List (List Model)) : Prop :=
  (∀ live ∈ lives, ∀ m ∈ live, m.IndexedOnce) ∧ ∀ call ∈ calls history, Ddl.Orderly call.1 call.2

instance (history : List Migration) (lives : List (List Model)) : Decidable (Untangled history lives) :=
  inferInstanceAs (Decidable ((∀ live ∈ lives, ∀ m ∈ live, m.IndexedOnce) ∧
    ∀ call ∈ calls history, Ddl.Orderly call.1 call.2))

/-- Blocks come to the schema that the history leads to. -/
theorem run_of_blocks {blocks : List Ddl.Statement}
    (h : Ddl.blocks? history Ascending.empty = some (blocks, final)) : Replay.run history = .ok final := by
  obtain ⟨statements, hstatements, -⟩ := Ddl.exists_statements_of_blocks h
  exact Replay.run_eq_ok_iff.2 (Ddl.applyAll_of_statements? hstatements)

theorem run_of_calls {blocks : List Ddl.Statement}
    (h : Ddl.blocks? history Ascending.empty = some (blocks, final))
    (hfits : ∀ call ∈ calls history, Ddl.Fits call.1 call.2)
    (hway : ∀ call ∈ calls history, call.2.Unambiguous) (hlast : final.Unambiguous) :
    Ddl.Registry.run ∅ blocks =
      if (∀ call ∈ calls history, call.2.IndexedOnce ∧ Ddl.Orderly call.1 call.2) ∧ final.IndexedOnce then
        some (Ddl.registryOf final)
      else none := by
  obtain ⟨statements, hstatements, hrun⟩ := Ddl.exists_statements_of_blocks h
  rw [hrun]
  exact Ddl.run_statements_registry hstatements (fun m hm => by cases hm) hway hlast hfits
    fun n m hm => by cases hm

theorem Evolved.untangled_iff (h : Evolved history lives) (hfinal : Replay.run history = .ok final) :
    Untangled history lives ↔
      (∀ call ∈ calls history, call.2.IndexedOnce ∧ Ddl.Orderly call.1 call.2) ∧ final.IndexedOnce := by
  rw [Untangled, ← h.indexedOnce_iff hfinal, and_right_comm]
  refine and_congr_left fun _ => ?_
  exact ⟨fun hall call hcall => ⟨hall.1 call hcall, hall.2 call hcall⟩,
    fun hall => ⟨fun call hcall => (hall call hcall).1, fun call hcall => (hall call hcall).2⟩⟩

/-- **The script of a history and the indexes.** Where, in every schema on the way, no two fields of a model have
one column and no two indexes one name, the script of a history made of differences makes of an empty registry that
of the schema, after every migration: if the live models never declare an index that one of their fields carries,
and a renamed field never gives an index the name of one that is renamed behind it. If not, the script comes to a
statement that makes an index of a name that is taken, or names one that is lacking. -/
theorem registry_of_evolved {blocks : List Ddl.Statement} (h : Evolved history lives)
    (hrendered : Ddl.blocks? history Ascending.empty = some (blocks, final))
    (hway : ∀ call ∈ calls history, call.2.Unambiguous) (hlast : final.Unambiguous) :
    (Untangled history lives → ∀ done rest, history = done ++ rest →
      ∃ own s, own <+: blocks ∧ Ddl.blocks? done Ascending.empty = some (own, s) ∧ Replay.run done = .ok s ∧
        Ddl.Registry.run ∅ own = some (Ddl.registryOf s) ∧
        (Ddl.registryOf s).names = s.indexNames.toFinset) ∧
    (¬ Untangled history lives → Ddl.Registry.run ∅ blocks = none) := by
  have hfinal := run_of_blocks hrendered
  constructor
  · rintro huntangled done rest rfl
    obtain ⟨hcalls, honce⟩ := (h.untangled_iff hfinal).1 huntangled
    have hfits := h.fits
    simp only [Ddl.blocks?_append, Option.bind_eq_some_iff, Option.map_eq_some_iff, Prod.mk.injEq] at hrendered
    obtain ⟨⟨own, s⟩, hown, ⟨more, t⟩, hmore, rfl, rfl⟩ := hrendered
    have hs := run_of_blocks hown
    obtain ⟨statements, hstatements, -⟩ := Ddl.exists_statements_of_blocks hmore
    have hrest := Ddl.applyAll_of_statements? hstatements
    rw [calls_append hs, List.forall_mem_append] at hway hcalls hfits
    have hso := of_paired hrest (fun call hcall => (hcalls.2 call hcall).1) honce
    refine ⟨own, s, List.prefix_append .., hown, hs, ?_, Ddl.names_registryOf s⟩
    rw [run_of_calls hown hfits.1 hway.1 (of_paired hrest hway.2 hlast), if_pos ⟨hcalls.1, hso⟩]
  · intro htangled
    rw [run_of_calls hrendered h.fits hway hlast, if_neg (mt (h.untangled_iff hfinal).2 htangled)]

end Evolved

/-- A model with a key, these fields and plain indexes over them, for examples. -/
def sampleIndexed (fields : List Field) (indexes : List (List String)) : List Model :=
  [{ Model.ofFields "T" (.autoKey "id" :: fields) with indexes := .ofList (indexes.map fun i => ⟨i, false⟩) }]

/-- The changes from one set of live models to the next one, for examples. -/
def sampleStep (before after : List Model) : List Change :=
  (ofStates (.ofModels before) (.ofModels after)).changes

/-- Two migrations, from nothing to one set of live models and from there to another one, for examples. -/
def sampleHistory (first second : List Model) : List Migration :=
  [⟨"a", "main", none, sampleStep [] first⟩, ⟨"b", "main", some "a", sampleStep first second⟩]

theorem evolved_sampleHistory {first second : List Model} {d e : Diff}
    (hfirst : between Ascending.empty first = .ok d) (hd : sampleStep [] first = d.changes)
    (hbaseline : applyAll (sampleStep [] first) Ascending.empty = .ok (.ofModels first))
    (hsecond : between (.ofModels first) second = .ok e) (he : sampleStep first second = e.changes) :
    Evolved (sampleHistory first second) [first, second] :=
  .grow _ (.grow _ .start rfl hfirst hd) (Replay.run_concat.2 ⟨_, rfl, hbaseline⟩) hsecond he

/-- A field that carries an index and is in another one, before another field, for examples. -/
def sampleLeading (field : String) (indexed : Bool) : List Model :=
  sampleIndexed [{ name := field, type := .text, indexed := true }, { name := "b", type := .text, indexed }]
    [[field, "b"]]

/-- A field with an index of its own and one that goes on to a second field, for examples. -/
def sampleNested (field : String) : List Model :=
  sampleIndexed [{ name := field, type := .text }, { name := "b", type := .text }] [[field], [field, "b"]]

/-- A field under two indexes is renamed and another one gets an index: there are three names in the end, and no
statement misses one on the way. But when the new name of the field makes the one index take the name of the other,
the script has no meaning. -/
theorem registry_of_evolved_sample :
    (∃ blocks final, Ddl.blocks? (sampleHistory (sampleLeading "a" false) (sampleLeading "c" true))
        Ascending.empty = some (blocks, final) ∧
      Ddl.Registry.run ∅ blocks = some (Ddl.registryOf final) ∧
      (Ddl.registryOf final).names = {"t_b_idx", "t_c_idx", "t_c_b_idx"}) ∧
    ∃ blocks final, Ddl.blocks? (sampleHistory (sampleNested "a") (sampleNested "a_b")) Ascending.empty =
        some (blocks, final) ∧ Ddl.Registry.run ∅ blocks = none := by
  constructor
  · have hevolved : Evolved (sampleHistory (sampleLeading "a" false) (sampleLeading "c" true))
        [sampleLeading "a" false, sampleLeading "c" true] := evolved_sampleHistory rfl rfl rfl rfl rfl
    obtain ⟨blocks, hrendered⟩ : ∃ blocks,
        Ddl.blocks? (sampleHistory (sampleLeading "a" false) (sampleLeading "c" true)) Ascending.empty =
          some (blocks, .ofModels (sampleLeading "c" true)) := ⟨_, rfl⟩
    obtain ⟨own, s, -, hown, -, hrun, hnames⟩ := (registry_of_evolved hevolved hrendered (by decide)
      (by decide)).1 (by decide) _ [] (List.append_nil _).symm
    cases hown.symm.trans hrendered
    exact ⟨_, _, hrendered, hrun, hnames.trans (by decide)⟩
  · have hevolved : Evolved (sampleHistory (sampleNested "a") (sampleNested "a_b"))
        [sampleNested "a", sampleNested "a_b"] := evolved_sampleHistory rfl rfl rfl rfl rfl
    obtain ⟨blocks, hrendered⟩ : ∃ blocks,
        Ddl.blocks? (sampleHistory (sampleNested "a") (sampleNested "a_b")) Ascending.empty =
          some (blocks, .ofModels (sampleNested "a_b")) := ⟨_, rfl⟩
    exact ⟨_, _, hrendered,
      (registry_of_evolved hevolved hrendered (by decide) (by decide)).2 (by decide)⟩

/-! ### Three ways to lose track -/

/-- Whether the script of some history of differences with the live models leaves other names of indexes than those
of the schema, although the models are in normal form and indexes always have names of their own. -/
def Misindexed (lives : List (List Model)) : Prop :=
  ∃ history, Evolved history lives ∧ (∀ live ∈ lives, ∀ m ∈ live, m.normalize = .ok m) ∧
    (∀ call ∈ calls history, call.2.DistinctIndexNames) ∧
    ∃ r ∈ Ddl.blocks? history Ascending.empty, r.2.DistinctIndexNames ∧
      (Ddl.Registry.run ∅ r.1).map Ddl.Registry.names ≠ some r.2.indexNames.toFinset

/-- A field carries the very index that its model declares. -/
def sampleTwice : List Model := sampleIndexed [{ name := "a", type := .text, indexed := true }] [["a"]]

/-- A field whose column has an index, behind others. -/
def sampleShared (others : List Field) : List Model :=
  sampleIndexed (others ++ [{ name := "b", type := .text, indexed := true, column := some "c" }]) []

/-- Each of the three conditions is needed. A declared index that a field carries is created twice. A renamed field
gives its own index the name that an index over two fields has yet to leave. And a removed field takes along the
index of another one that is in the same column. -/
theorem exists_misindexed : Misindexed [sampleTwice] ∧ Misindexed [sampleNested "a", sampleNested "a_b"] ∧
    Misindexed [sampleShared [{ name := "a", type := .text, column := some "c" }], sampleShared []] := by
  refine ⟨⟨[⟨"a", "main", none, sampleStep [] sampleTwice⟩], ?_, ?_, by decide, by decide⟩,
    ⟨sampleHistory (sampleNested "a") (sampleNested "a_b"), evolved_sampleHistory rfl rfl rfl rfl rfl, ?_,
      by decide, by decide⟩,
    ⟨sampleHistory (sampleShared [{ name := "a", type := .text, column := some "c" }]) (sampleShared []),
      evolved_sampleHistory rfl rfl rfl rfl rfl, ?_, by decide, by decide⟩⟩
  · exact .grow _ .start rfl (show between Ascending.empty sampleTwice = .ok (ofStates _ _) from rfl) rfl
  · exact List.forall_mem_singleton.2 (List.forall_mem_singleton.2 rfl)
  · exact List.forall_mem_cons.2 ⟨List.forall_mem_singleton.2 rfl,
      List.forall_mem_singleton.2 (List.forall_mem_singleton.2 rfl)⟩
  · exact List.forall_mem_cons.2 ⟨List.forall_mem_singleton.2 rfl,
      List.forall_mem_singleton.2 (List.forall_mem_singleton.2 rfl)⟩

end Diff

end Schemata
