import Schemata.Proofs.Change.Fields
import Schemata.Proofs.Diff.Between
import Schemata.Proofs.History.Replay

/-! The difference between a schema and live models, carried out.

Name by name, the difference makes of what the baseline has what is live (`effects_about`). So it applies
as a whole, and what it leaves is the same as the live models. A history that is made of such differences
leads to the live models that it was last held against. -/
namespace Schemata

namespace Diff

/-! ### States -/

section States
variable {baseline live : State}

/-- A field is changed that is on both sides of a model that is on both sides. -/
theorem mem_changedFields {c : Located Revision} :
    c ∈ (ofStates baseline live).changedFields ↔ ∃ old new, baseline.model? c.model = some old ∧
      live.model? c.model = some new ∧ c.item ∈ Revision.changedFields old new := by
  have habout : c ∈ (ofStates baseline live).changedFields ↔
      c ∈ ((ofStates baseline live).about c.model).changedFields := by
    simp [about, List.mem_filter]
  have hpart := part_about baseline live c.model
  rw [habout]
  generalize (ofStates baseline live).about c.model = d at hpart
  cases hpart with
  | absent old new => simp [old, new, empty]
  | created m waiting old new => simp [old, Creation.create]
  | kept m m' old new =>
    obtain ⟨model, r⟩ := c
    obtain rfl := State.name_of_model? new
    simp [old, new, Revision.diff]
  | deleted m old new => simp [new, Deletion.diff_eq, about]

/-- No changed field has a default before that differs from itself. -/
def Comparable (d : Diff) : Prop := ∀ c ∈ d.changedFields, c.item.source.Comparable

instance (d : Diff) : Decidable d.Comparable :=
  inferInstanceAs (Decidable (∀ c ∈ d.changedFields, c.item.source.Comparable))

theorem comparable_of_baseline (hcb : baseline.Comparable) : (ofStates baseline live).Comparable := by
  intro c hc
  obtain ⟨old, new, hold, -, hr⟩ := mem_changedFields.1 hc
  have hsource := (Revision.mem_changedFields.1 hr).1
  exact State.comparable_iff.1 hcb _ old hold _ (Keyed.mem_values_iff.2 ⟨_, hsource⟩)

/-- The part of the difference that concerns a model makes of what the baseline has under its name what
is live under it. -/
theorem effects_about (hb : baseline.WellFormed) (hl : live.WellFormed)
    (hcomp : (ofStates baseline live).Comparable) (n : String) :
    ∃ o, Change.effects ((ofStates baseline live).about n).changes (baseline.model? n) = .ok o ∧
      Option.Rel Model.Alike o (live.model? n) := by
  have hpart := part_about baseline live n
  generalize (ofStates baseline live).about n = d at hpart ⊢
  cases hpart with
  | absent old new =>
    rw [old, new]
    exact ⟨none, rfl, .none⟩
  | created m waiting old new _ =>
    have hm := State.mem_of_model? new
    obtain ⟨m', heffects, halike⟩ := Creation.effects_create (hl m hm) waiting
    rw [old, new]
    exact ⟨some m', heffects, .some halike⟩
  | kept m m' old new =>
    obtain ⟨hm, hname⟩ := Ascending.find?_eq_some_iff.1 old
    obtain ⟨hm', hname'⟩ := Ascending.find?_eq_some_iff.1 new
    obtain ⟨x, heffects, halike⟩ := Revision.effects_diff (hb m hm) (hl m' hm')
      (hname.trans hname'.symm) fun r hr => hcomp ⟨n, r⟩ (mem_changedFields.2 ⟨m, m', old, new, hr⟩)
    rw [old, new]
    exact ⟨some x, heffects, .some halike⟩
  | deleted m old new =>
    have hm := State.mem_of_model? old
    rw [old, new]
    obtain rfl := State.name_of_model? old
    exact ⟨none, Deletion.effects_delete nodup_deleted (mem_deleted.2 ⟨old, new⟩) (hb m hm), .none⟩

/-- The difference of two states applies to the first and leads to the second, but for defaults that
differ from themselves, unless it changes a field that had one. -/
theorem exists_alike (hb : baseline.WellFormed) (hl : live.WellFormed)
    (hcomp : (ofStates baseline live).Comparable) :
    ∃ s, Change.applyAll (ofStates baseline live).changes baseline = .ok s ∧ s.Alike live := by
  have hparts := effects_about hb hl hcomp
  have happly : ∀ n, ∃ o, Change.effects (Change.concerning n (ofStates baseline live).changes)
      (baseline.model? n) = .ok o := by
    intro n
    obtain ⟨o, ho, -⟩ := hparts n
    rw [concerning_changes]
    exact ⟨o, ho⟩
  obtain ⟨s, hs⟩ : ∃ s, Change.applyAll (ofStates baseline live).changes baseline = .ok s :=
    Change.exists_applyFrom happly
  refine ⟨s, hs, fun n => ?_⟩
  obtain ⟨o, ho, halike⟩ := hparts n
  have hn := Change.effects_concerning hs n
  rw [concerning_changes, ho, Except.ok.injEq] at hn
  rwa [← hn]

/-- The difference of two states applies to the first and leads to the second. -/
theorem applyAll_ofStates (hb : baseline.WellFormed) (hl : live.WellFormed)
    (hcb : baseline.Comparable) (hcl : live.Comparable) :
    ∃ s, Change.applyAll (ofStates baseline live).changes baseline = .ok s ∧ s.same live = true := by
  obtain ⟨s, hs, halike⟩ := exists_alike hb hl (comparable_of_baseline hcb)
  exact ⟨s, hs, halike.same hcl⟩

end States

/-! ### Live models -/

/-- The difference with live models applies to the baseline and leads to the live models. -/
theorem applyAll_between {baseline : State} {live : List Model} {d : Diff} (hb : baseline.WellFormed)
    (hcb : baseline.Comparable) (hcl : ∀ m ∈ live, m.Comparable) (h : between baseline live = .ok d) :
    ∃ s, Change.applyAll d.changes baseline = .ok s ∧ s.same (State.ofModels live) = true := by
  obtain ⟨s, hs, -, rfl⟩ := eq_ofStates_of_between h
  rw [← hs.eq_ofModels]
  exact applyAll_ofStates hb hs.wellFormed hcb (hs.comparable hcl)

theorem changeField_mem_changes {d : Diff} {c : Located Revision} (h : c ∈ d.changedFields) :
    .changeField c.model c.item.field c.item.source c.item.target ∈ d.changes := by
  simp only [changes, List.mem_append, List.mem_map]
  exact .inl (.inl (.inl (.inl (.inr ⟨c, h, rfl⟩))))

/-- Where the difference with live models applies, it leads to the live models, but for defaults that differ
from themselves. -/
theorem alike_of_applyAll {baseline s : State} {live : List Model} {d : Diff} (hb : baseline.WellFormed)
    (h : between baseline live = .ok d) (hs : Change.applyAll d.changes baseline = .ok s) :
    s.Alike (.ofModels live) := by
  obtain ⟨state, hlive, -, rfl⟩ := eq_ofStates_of_between h
  obtain rfl := hlive.eq_ofModels
  obtain ⟨final, hfinal, halike⟩ := exists_alike hb hlive.wellFormed fun c hc =>
    Change.comparable_of_applyFrom hs (changeField_mem_changes hc)
  cases hs.symm.trans hfinal
  exact halike

/-! ### Histories made of differences -/

/-- A history made by holding one set of live models after the other against what it leads to: the
difference becomes a migration, and when there is none the history stays. -/
inductive Evolved : List Migration → List (List Model) → Prop
  | start : Evolved [] []
  | grow {history : List Migration} {lives : List (List Model)} {baseline : State}
      {live : List Model} {d : Diff} (m : Migration) (before : Evolved history lives)
      (replayed : Replay.run history = .ok baseline) (compared : between baseline live = .ok d)
      (written : m.changes = d.changes) : Evolved (history ++ [m]) (lives ++ [live])
  | rest {history : List Migration} {lives : List (List Model)} {baseline : State}
      {live : List Model} {d : Diff} (before : Evolved history lives)
      (replayed : Replay.run history = .ok baseline) (compared : between baseline live = .ok d)
      (unchanged : d.isEmpty = true) : Evolved history (lives ++ [live])

theorem Evolved.replay {history : List Migration} {lives : List (List Model)}
    (h : Evolved history lives) (hcomp : ∀ live ∈ lives, ∀ m ∈ live, m.Comparable) :
    ∃ s, Replay.run history = .ok s ∧ s.same (State.ofModels (lives.getLastD [])) = true := by
  induction h with
  | start => exact ⟨Ascending.empty, rfl, rfl⟩
  | @grow history lives baseline live d m _ replayed compared written ih =>
    obtain ⟨s, hs, hsame⟩ := ih fun l hl => hcomp l (List.mem_append_left _ hl)
    obtain rfl := Except.ok.inj (replayed.symm.trans hs)
    have hlive := hcomp live (List.mem_append_right _ (List.mem_singleton.2 rfl))
    obtain ⟨t, ht, htsame⟩ := applyAll_between (Replay.reachable_of_run replayed).wellFormed
      (State.comparable_of_same hsame) hlive compared
    refine ⟨t, Replay.run_concat.2 ⟨_, replayed, ?_⟩, ?_⟩
    · rw [written]
      exact ht
    · rw [List.getLastD_concat]
      exact htsame
  | @rest history lives baseline live d _ replayed compared unchanged ih =>
    obtain ⟨s, hs, hsame⟩ := ih fun l hl => hcomp l (List.mem_append_left _ hl)
    obtain rfl := Except.ok.inj (replayed.symm.trans hs)
    have hlive := hcomp live (List.mem_append_right _ (List.mem_singleton.2 rfl))
    obtain ⟨t, ht, htsame⟩ := applyAll_between (Replay.reachable_of_run replayed).wellFormed
      (State.comparable_of_same hsame) hlive compared
    rw [isEmpty, List.isEmpty_iff] at unchanged
    rw [unchanged] at ht
    cases ht
    refine ⟨_, replayed, ?_⟩
    rw [List.getLastD_concat]
    exact htsame

/-- **A difference carried out leads to the live models.** Whatever changes led to the baseline, the
difference with live models that are accepted applies to it change by change and leaves a state that is
the same as theirs. So a history that is made of differences always replays, and to the live models that it
was last held against. -/
theorem round_trip :
    (∀ (history : List Change) (baseline : State) (live : List Model) (d : Diff),
      Change.applyAll history Ascending.empty = .ok baseline → baseline.Comparable →
      (∀ m ∈ live, m.Comparable) → between baseline live = .ok d →
      ∃ s, Change.applyAll d.changes baseline = .ok s ∧ s.same (State.ofModels live) = true) ∧
    (∀ (history : List Migration) (lives : List (List Model)), Evolved history lives →
      (∀ live ∈ lives, ∀ m ∈ live, m.Comparable) →
      ∃ s, Replay.run history = .ok s ∧ s.same (State.ofModels (lives.getLastD [])) = true) := by
  refine ⟨fun history baseline live d hbaseline hcb hcl h => ?_, fun history lives h hcomp => ?_⟩
  · have hreachable : baseline.Reachable := ⟨history, hbaseline⟩
    exact applyAll_between hreachable.wellFormed hcb hcl h
  · exact h.replay hcomp

/-- A foreign key, for examples. -/
def sampleKey (name target : String) : Field :=
  { name, type := .foreignKey (.toModel target .cascade) }

/-- A baseline with a model that is changed and one that is deleted. -/
def sampleOld : List Model :=
  [{ Model.ofFields "user" [.autoKey "id", { name := "name", type := .text }] with
      indexes := .ofList [⟨["name"], true⟩] },
    .ofFields "old" [.autoKey "id", sampleKey "user" "user"]]

/-- Live models, two of which point at each other. -/
def sampleLive : List Model :=
  [{ Model.ofFields "user" [.autoKey "id", { name := "title", type := .text }] with
      indexes := .ofList [⟨["title"], true⟩] },
    .ofFields "post" [.autoKey "id", sampleKey "tag" "tag"],
    .ofFields "tag" [.autoKey "id", sampleKey "post" "post"]]

/-- A field is renamed under its index, a model is deleted and two that point at each other are created:
the difference applies, and the history of both steps replays. -/
theorem round_trip_sample :
    let first := (ofStates Ascending.empty (.ofModels sampleOld)).changes
    let d := ofStates (.ofModels sampleOld) (.ofModels sampleLive)
    d.deletedModels = ["old"] ∧ d.renamedFields.map (·.item) = [⟨"name", "title"⟩] ∧
      (∃ s, Change.applyAll d.changes (.ofModels sampleOld) = .ok s ∧
        s.same (State.ofModels sampleLive) = true) ∧
      Evolved [⟨"a", "main", none, first⟩, ⟨"b", "main", some "a", d.changes⟩] [sampleOld, sampleLive] ∧
      ∃ s, Replay.run [⟨"a", "main", none, first⟩, ⟨"b", "main", some "a", d.changes⟩] = .ok s ∧
        s.same (State.ofModels sampleLive) = true := by
  have hfirst : between Ascending.empty sampleOld =
      .ok (ofStates Ascending.empty (.ofModels sampleOld)) := rfl
  have hbaseline : Change.applyAll (ofStates Ascending.empty (.ofModels sampleOld)).changes
      Ascending.empty = .ok (.ofModels sampleOld) := rfl
  have hsecond : between (.ofModels sampleOld) sampleLive =
      .ok (ofStates (.ofModels sampleOld) (.ofModels sampleLive)) := rfl
  have hold : ∀ m ∈ sampleOld, m.Comparable := by decide
  have hlive : ∀ m ∈ sampleLive, m.Comparable := by decide
  have hevolved : Evolved
      [⟨"a", "main", none, (ofStates Ascending.empty (.ofModels sampleOld)).changes⟩,
        ⟨"b", "main", some "a", (ofStates (.ofModels sampleOld) (.ofModels sampleLive)).changes⟩]
      [sampleOld, sampleLive] :=
    .grow _ (.grow _ .start rfl hfirst rfl) (Replay.run_concat.2 ⟨_, rfl, hbaseline⟩) hsecond rfl
  refine ⟨rfl, rfl, ?_, hevolved, round_trip.2 _ _ hevolved ?_⟩
  · exact round_trip.1 _ _ _ _ hbaseline (by decide) hlive hsecond
  · intro models hmodels
    rcases List.mem_cons.1 hmodels with rfl | hmodels
    · exact hold
    · obtain rfl := List.mem_singleton.1 hmodels
      exact hlive

end Diff

end Schemata
