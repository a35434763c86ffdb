import Schemata.Proofs.Ddl.Lookup
import Schemata.Proofs.Diff.Order

/-! The columns that foreign keys reference while a difference is rendered.

A change with a foreign key is rendered against the schema right before it, and there the field that the key
points at must be found. It is there unless the difference itself moves it. -/
namespace Schemata

/-- Whether every foreign key points at a field that is there. -/
def State.Grounded (s : State) : Prop :=
  ∀ n m k f r, s.model? n = some m → m.field? k = some f → f.relation? = some r → s.HasField r.model r.field

namespace State
variable {s t : State} {n k : String}

theorem HasField.of_alike (h : s.Alike t) (hs : s.HasField n k) : t.HasField n k := by
  obtain ⟨m, f, hm, hf⟩ := hs
  obtain ⟨m', hm', halike⟩ := rel_exists_right (hm ▸ h n)
  obtain ⟨f', hf', -⟩ := rel_exists_right (hf ▸ halike.field k)
  exact ⟨m', f', hm', hf'⟩

theorem Grounded.of_alike (h : s.Alike t) (ht : t.Grounded) : s.Grounded := by
  intro n m k f r hm hf hr
  obtain ⟨m', hm', halike⟩ := rel_exists_right (hm ▸ h n)
  obtain ⟨f', hf', hff⟩ := rel_exists_right (hf ▸ halike.field k)
  exact (ht n m' k f' r hm' hf' (hff.relation?.symm.trans hr)).of_alike h.symm

theorem grounded_of_firstRelationFault? (h : s.firstRelationFault? = none) : s.Grounded := by
  intro n m k f r hm hf hr
  have hin := State.mem_of_model? hm
  have hkey : (f, r) ∈ m.relations := Model.mem_relations.2 ⟨Keyed.mem_values_iff.2 ⟨k, hf⟩, hr⟩
  have hnone := List.findSome?_eq_none_iff.1 (List.findSome?_eq_none_iff.1 h m hin) (f, r) hkey
  simp only [relationFault?] at hnone
  split at hnone
  · cases hnone
  · rename_i target htarget
    split at hnone
    · obtain ⟨g, hg⟩ := Option.isSome_iff_exists.1 ‹_›
      exact ⟨target, g, htarget, hg⟩
    · cases hnone

end State

namespace Diff
open Change

/-! ### The schemas that differences lead to -/

theorem Evolved.grounded {history : List Migration} {lives : List (List Model)} {s : State}
    (h : Evolved history lives) (hs : Replay.run history = .ok s) : s.Grounded := by
  induction h generalizing s with
  | start =>
    cases hs
    rintro n m k f r hm
    cases hm
  | @grow history lives baseline live d m before replayed compared written ih =>
    obtain ⟨t, ht, happly⟩ := Replay.run_concat.1 hs
    cases replayed.symm.trans ht
    rw [written] at happly
    have halike := alike_of_applyAll (Replay.reachable_of_run replayed).wellFormed compared happly
    obtain ⟨state, hlive, hnone, -⟩ := eq_ofStates_of_between compared
    obtain rfl := hlive.eq_ofModels
    exact .of_alike halike (State.grounded_of_firstRelationFault? hnone)
  | rest before replayed compared unchanged ih => exact ih hs

end Diff

namespace Diff
open Change

section States
variable {baseline live : State} {done rest : List Change} {c : Change} {s : State} {n k : String}

/-! ### Foreign keys on the way -/

section Grounded
variable (hb : baseline.WellFormed) (hl : live.WellFormed) (hlg : live.Grounded)
include hb hl hlg

/-- Behind the new tables, a live foreign key finds its target, unless the difference makes the target. -/
theorem finds_of_live (hsplit : (ofStates baseline live).changes = done ++ c :: rest)
    (hs : applyAll done baseline = .ok s) (hrank : c.rank ≤ 5) (hlate : 0 < c.rank) {m : Model} {f : Field}
    {r : Relation} (hm : live.model? n = some m) (hf : m.field? k = some f) (hr : f.relation? = some r)
    (hnew : ¬ (ofStates baseline live).Makes r.model r.field) : Ddl.Finds r s none := by
  have hthere := hlg n m k f r hm hf hr
  have hfield : s.HasField r.model r.field := by
    refine hasField_of_split hsplit hs hrank (fun _ => not_renames_of_live hb hl hthere) ?_
    refine (of_live_hasField hb hl hthere hnew).imp id ?_
    rintro ⟨step, hstep, hname, hk⟩
    refine ⟨Creation.early step.1 step.2, mem_of_split hsplit ?_ hlate, hk⟩
    rw [changes_eq, creations_ofStates]
    exact List.mem_append_left _ (List.mem_map.2 ⟨step, hstep, by rw [hname]⟩)
  exact Ddl.finds_of_hasField hfield fun m hm => by cases hm

/-- In a new table, a foreign key finds its target, unless the difference makes the target. -/
theorem finds_of_createModel {fields : List Field}
    (hsplit : (ofStates baseline live).changes = done ++ .createModel n fields :: rest)
    (hs : applyAll done baseline = .ok s) {f : Field} (hf : f ∈ fields) {r : Relation}
    (hr : f.relation? = some r) (hnew : ¬ (ofStates baseline live).Makes r.model r.field) :
    Ddl.Finds r s (some (.ofFields n fields)) := by
  obtain ⟨before, m, waiting, behind, horder, rfl, rfl, rfl⟩ := order_of_split hsplit
  have hstep : (m, waiting) ∈ Creation.order (createdModelsOf baseline live) := by
    rw [horder]
    exact List.mem_append_cons_self
  obtain ⟨hm, hfresh⟩ := mem_created.1 (mem_order hstep)
  have hwf := hl.of_model? hm
  obtain ⟨hfield, hearly⟩ := (Creation.mem_early hwf).1 hf
  have hthere := hlg _ m _ f r hm hfield hr
  by_cases hself : m.name = r.model
  · -- the key points at the table that it is in
    refine Ddl.finds_of_creating hself ((Model.contains_ofFields (Creation.nodup_early hwf)).2 ?_)
    rcases of_live_hasField hb hl hthere hnew with ⟨old, _, hold, -⟩ | ⟨step, hin, hname, hk⟩
    · cases (hself ▸ hfresh).symm.trans hold
    · have he := eq_of_nodup_map nodup_order hin hstep (hname.trans hself.symm)
      rwa [he] at hk
  · refine Ddl.finds_of_hasField (hasField_of_split hsplit hs (Nat.zero_le _) (fun h => by cases h) ?_) ?_
    · refine (of_live_hasField hb hl hthere hnew).imp id ?_
      rintro ⟨step, hin, hname, hk⟩
      rw [horder, List.mem_append, List.mem_cons] at hin
      rcases hin with hin | rfl | hin
      · exact ⟨_, hname ▸ List.mem_map_of_mem hin, hk⟩
      · exact absurd hname hself
      · -- the target comes later, so the key would have had to wait
        have hpair := Creation.order_pairwise (createdModelsOf baseline live)
        rw [horder, List.pairwise_append, List.pairwise_cons] at hpair
        have hkey : (f, r) ∈ m.relations := Model.mem_relations.2 ⟨hwf.mem_values_iff.2 hfield, hr⟩
        exact absurd (hpair.2.1.1 step hin (f, r) hkey hname.symm) hearly
    · rintro x hx
      cases hx
      exact hself

end Grounded

end States

/-- **What the schema lacks when a difference is rendered.** A change of a difference is refused as a
violation only for a foreign key whose target is not there, and this only where the difference itself makes
the target, by adding it or by renaming a field to it, or renames the target that a changed field had
before. -/
theorem target_of_constraint {history : List Migration} {lives : List (List Model)} {baseline s : State}
    {live : List Model} {d : Diff} {done rest : List Change} {c : Change} {fault : Ddl.Fault}
    (hevolved : Evolved history lives) (hreplay : Replay.run history = .ok baseline)
    (h : between baseline live = .ok d) (hsplit : d.changes = done ++ c :: rest)
    (hs : applyAll done baseline = .ok s) (hrender : Ddl.render c s = .error fault)
    (hk : fault.kind = .constraint) :
    ∃ f r, f.relation? = some r ∧ fault = .unknownTarget f.name r.model r.field ∧
      (d.Makes r.model r.field ∨
        d.Renames r.model r.field ∧ ∃ n k target, c = .changeField n k f target) := by
  have hb := (Replay.reachable_of_run hreplay).wellFormed
  have hbg := hevolved.grounded hreplay
  obtain ⟨live', hlive, hnone, rfl⟩ := eq_ofStates_of_between h
  have hl := hlive.wellFormed
  have hlg := State.grounded_of_firstRelationFault? hnone
  have hin : c ∈ (ofStates baseline live').changes := by
    rw [hsplit]
    exact List.mem_append_right _ (List.mem_cons_self ..)
  cases Ddl.lacks_of_constraint hrender hk with
  | created n fields f mem dangles =>
    obtain ⟨r, hr, rfl, hlost⟩ := dangles
    refine ⟨f, r, hr, rfl, .inl ?_⟩
    by_contra hnew
    exact hlost (finds_of_createModel hb hl hlg hsplit hs mem hr hnew)
  | added n f dangles =>
    obtain ⟨r, hr, rfl, hlost⟩ := dangles
    obtain ⟨m, hm, hf⟩ := of_mem_addField hl hin
    refine ⟨f, r, hr, rfl, .inl ?_⟩
    by_contra hnew
    exact hlost (finds_of_live hb hl hlg hsplit hs (by simp [rank]) (by simp [rank]) hm hf hr hnew)
  | target n k source f dangles =>
    obtain ⟨r, hr, rfl, hlost⟩ := dangles
    obtain ⟨-, m, hm, hf⟩ := of_mem_changeField hin
    refine ⟨f, r, hr, rfl, .inl ?_⟩
    by_contra hnew
    exact hlost (finds_of_live hb hl hlg hsplit hs (by simp [rank]) (by simp [rank]) hm hf hr hnew)
  | source n k f target dangles =>
    obtain ⟨r, hr, rfl, hlost⟩ := dangles
    obtain ⟨⟨m, hm, hf⟩, -⟩ := of_mem_changeField hin
    refine ⟨f, r, hr, rfl, .inr ⟨?_, n, k, target, rfl⟩⟩
    by_contra hstays
    have hthere := hbg n m k f r hm hf hr
    have hfield := hasField_of_split hsplit hs (by simp [rank]) (fun _ => hstays) (.inl hthere)
    exact hlost (Ddl.finds_of_hasField hfield fun m hm => by cases hm)
  | renamed n source target lacks => exact absurd (hasField_of_renameField hb hl hsplit hs) lacks
  | indexed n i lacks =>
    have hthere := contains_of_addIndex hsplit hs
    rw [Ascending.contains, show Ascending.find? s n = none from lacks] at hthere
    cases hthere

/-- A foreign key to a field of that name, for examples. -/
def samplePointer (name : String) : Field :=
  { name := "a", type := .foreignKey ⟨"A", name, none, none, .cascade⟩ }

/-- A model and another one that points at its field, for examples. -/
def samplePair (name : String) : List Model :=
  [.ofFields "A" [{ name, type := .integer, unique := true }], .ofFields "B" [samplePointer name]]

/-- A field that a foreign key points at is renamed, and the foreign key with it. The change of the key is
rendered behind the renaming and against its old description, which still has the old name. -/
theorem exists_violation :
    let first := (ofStates Ascending.empty (.ofModels (samplePair "x"))).changes
    let history : List Migration := [⟨"a", "main", none, first⟩]
    let d := ofStates (.ofModels (samplePair "x")) (.ofModels (samplePair "y"))
    Evolved history [samplePair "x"] ∧ Replay.run history = .ok (.ofModels (samplePair "x")) ∧
      between (.ofModels (samplePair "x")) (samplePair "y") = .ok d ∧
      d.changes =
        [.renameField "A" "x" "y", .changeField "B" "a" (samplePointer "x") (samplePointer "y")] ∧
      ∃ s, Change.applyAll [.renameField "A" "x" "y"] (.ofModels (samplePair "x")) = .ok s ∧
        Ddl.render (.changeField "B" "a" (samplePointer "x") (samplePointer "y")) s =
          .error (.unknownTarget "a" "A" "x") ∧
        (Ddl.Fault.unknownTarget "a" "A" "x").kind = .constraint :=
  ⟨.grow _ .start rfl rfl rfl, rfl, rfl, rfl, _, rfl, rfl, rfl⟩

/-- The key that is refused points at the field that is renamed. -/
theorem target_of_constraint_sample :
    (ofStates (.ofModels (samplePair "x")) (.ofModels (samplePair "y"))).Makes "A" "x" ∨
      (ofStates (.ofModels (samplePair "x")) (.ofModels (samplePair "y"))).Renames "A" "x" := by
  have hevolved : Evolved
      [⟨"a", "main", none, (ofStates Ascending.empty (.ofModels (samplePair "x"))).changes⟩]
      [samplePair "x"] := .grow _ .start rfl rfl rfl
  have hreplay : Replay.run
      [⟨"a", "main", none, (ofStates Ascending.empty (.ofModels (samplePair "x"))).changes⟩] =
      .ok (.ofModels (samplePair "x")) := rfl
  have hbetween : between (.ofModels (samplePair "x")) (samplePair "y") =
      .ok (ofStates (.ofModels (samplePair "x")) (.ofModels (samplePair "y"))) := rfl
  have hsplit : (ofStates (.ofModels (samplePair "x")) (.ofModels (samplePair "y"))).changes =
      [.renameField "A" "x" "y"] ++ .changeField "B" "a" (samplePointer "x") (samplePointer "y") :: [] := rfl
  have hrename : ∃ s, Change.applyAll [.renameField "A" "x" "y"] (.ofModels (samplePair "x")) = .ok s ∧
      Ddl.render (.changeField "B" "a" (samplePointer "x") (samplePointer "y")) s =
        .error (.unknownTarget "a" "A" "x") := ⟨_, rfl, rfl⟩
  obtain ⟨s, hs, hrender⟩ := hrename
  obtain ⟨f, r, hr, hfault, hmoved⟩ := target_of_constraint hevolved hreplay hbetween hsplit hs hrender rfl
  obtain ⟨-, hmodel, hfield⟩ := Ddl.Fault.unknownTarget.inj hfault
  rw [← hmodel, ← hfield] at hmoved
  exact hmoved.imp id And.left

end Diff

end Schemata
