import Schemata.Proofs.Diff.Vacating

/-! The script of a difference, read as an update of the catalogue.

A model that is created or deleted shows no field on the way but its own, and a model on both sides shows
what its revision allows. So a script makes of the catalogue of the baseline that of the live models, unless
a revision takes a column before it is left: then it comes to a statement without meaning. -/
namespace Schemata

namespace Change
variable {whole m : Model} {c : Change} {o o' : Option Model}

/-- Whether the change brings in no field but those of the model. -/
def Draws (whole : Model) : Change → Prop
  | .createModel _ fields => ∀ f ∈ fields, whole.field? f.name = some f
  | .addField _ f => whole.field? f.name = some f
  | .removeField _ _ | .addIndex _ _ | .removeIndex _ _ | .deleteModel _ => True
  | .changeField _ _ _ _ | .renameField _ _ _ | .runData _ _ => False

/-- Whether the fields, if there is a model, are fields of the whole model. -/
def Within (whole : Model) (o : Option Model) : Prop :=
  ∀ m, o = some m → ∀ k f, m.field? k = some f → whole.field? k = some f

theorem within_none (whole : Model) : Within whole none := fun m hm => by cases hm

theorem within_self (whole : Model) : Within whole (some whole) := by
  rintro m hm k f hf
  cases hm
  exact hf

theorem field?_of_draws (hc : c.Draws whole) {f : Field} (hf : f ∈ c.brought) : whole.field? f.name = some f := by
  cases c with
  | createModel => exact hc f hf
  | addField =>
    obtain rfl := List.mem_singleton.1 hf
    exact hc
  | changeField => exact hc.elim
  | _ => cases hf

theorem within_of_effect (hc : c.Draws whole) (ho : Within whole o) (h : c.effect o = .ok o') :
    Within whole o' := by
  rintro m rfl k f hf
  rcases origin_of_turns (turns_of_effect h) hf with ⟨hin, rfl⟩ | ⟨m₀, rfl, hsame | ⟨_, _, _, rfl, -⟩⟩
  · exact field?_of_draws hc hin
  · exact ho m₀ rfl k f hsame
  · exact hc.elim

theorem within_of_effects {cs : List Change} (hc : ∀ c ∈ cs, c.Draws whole) (ho : Within whole o)
    (h : effects cs o = .ok o') : Within whole o' := by
  induction cs generalizing o with
  | nil =>
    cases h
    exact ho
  | cons c rest ih =>
    obtain ⟨p, hp, hrest⟩ := effects_cons_eq_ok_iff.1 h
    exact ih (fun c hin => hc c (List.mem_cons_of_mem _ hin))
      (within_of_effect (hc c (List.mem_cons_self ..)) ho hp) hrest

theorem Within.distinctColumns (h : Within whole (some m)) (hd : whole.DistinctColumns) :
    m.DistinctColumns :=
  hd.of_fields fun k f hf => ⟨f, h m rfl k f hf, rfl⟩

end Change

namespace Diff
open Change

section States
variable {baseline live : State} {n : String} {m : Model} {front : List Change}

theorem draws_of_create (hm : m.WellFormed) (waiting : List String) :
    ∀ c ∈ (Creation.create m waiting).changes, c.Draws m := by
  intro c hc
  rw [Creation.changes_create, List.mem_cons, List.mem_append] at hc
  rcases hc with rfl | hc | hc
  · exact fun f hf => ((Creation.mem_early hm).1 hf).1
  · obtain ⟨f, hf, rfl⟩ := List.mem_map.1 hc
    exact ((Creation.mem_late hm).1 hf).1
  · obtain ⟨i, -, rfl⟩ := List.mem_map.1 hc
    trivial

theorem draws_of_deletion {models : List Model} (hd : (models.map Model.name).Nodup) (hm : m ∈ models) :
    ∀ c ∈ (about m.name (Deletion.diff models)).changes, c.Draws m := by
  intro c hc
  rw [Deletion.changes_about_diff hd hm] at hc
  simp only [List.mem_append, List.mem_map, List.mem_singleton] at hc
  rcases hc with (⟨i, -, rfl⟩ | ⟨f, -, rfl⟩) | rfl <;> trivial

/-- What a model may show on the way: what it shows on its only side, or what its revision allows. -/
inductive OnPart (baseline live : State) (n : String) (front : List Change) (m : Model) : Prop
  | created (whole : Model) (old : baseline.model? n = none) (new : live.model? n = some whole)
      (within : Within whole (some m))
  | kept (old new : Model) (pair : (old, new) ∈ keptModelsOf baseline live) (name : n = new.name)
      (beginning : front <+: (Revision.diff old new).changes)
      (carried : effects front (some old) = .ok (some m))
  | deleted (whole : Model) (old : baseline.model? n = some whole) (within : Within whole (some m))

theorem onPart_of_effects (hl : live.WellFormed)
    (hfront : front <+: concerning n (ofStates baseline live).changes)
    (h : effects front (baseline.model? n) = .ok (some m)) : OnPart baseline live n front m := by
  rw [concerning_changes] at hfront
  have hpart := part_about baseline live n
  generalize (ofStates baseline live).about n = d at hpart hfront
  cases hpart with
  | absent old =>
    obtain rfl := List.prefix_nil.1 hfront
    rw [old] at h
    cases h
  | created whole waiting old new =>
    rw [old] at h
    have hdraws := draws_of_create (hl.of_model? new) waiting
    exact .created whole old new
      (within_of_effects (fun c hc => hdraws c (hfront.subset hc)) (within_none whole) h)
  | kept old new hold hnew =>
    rw [hold] at h
    obtain rfl := State.name_of_model? hnew
    exact .kept old new (mem_kept.2 ⟨hnew, hold⟩) rfl hfront h
  | deleted whole old new =>
    rw [old] at h
    obtain rfl := State.name_of_model? old
    have hdraws := draws_of_deletion nodup_deleted (mem_deleted.2 ⟨old, new⟩)
    exact .deleted whole old
      (within_of_effects (fun c hc => hdraws c (hfront.subset hc)) (within_self whole) h)

section WellFormed
variable (hb : baseline.WellFormed) (hl : live.WellFormed)
include hb

/-- A field is removed as the baseline has it, and the live models do not have it. -/
theorem of_mem_removeField {f : Field} (h : .removeField n f ∈ (ofStates baseline live).changes) :
    (∃ old, baseline.model? n = some old ∧ old.field? f.name = some f) ∧
      ∀ new, live.model? n = some new → new.field? f.name = none := by
  cases origin_of_mem rfl h with
  | created whole waiting old new ordered mem => simp [Creation.changes_create] at mem
  | kept old new hold hnew mem =>
    rw [Revision.changes_diff] at mem
    simp only [List.mem_append, List.mem_map, reduceCtorEq, and_false, exists_false, or_false,
      false_or, removeField.injEq] at mem
    obtain ⟨g, hg, -, rfl⟩ := mem
    rw [Revision.lostFields] at hg
    split at hg
    · cases hg
    · have hwf := hb.of_model? hold
      obtain ⟨hfield, hgone⟩ := (Revision.mem_removedFields hwf).1 hg
      refine ⟨⟨old, hold, hfield⟩, fun new' hnew' => ?_⟩
      cases hnew.symm.trans hnew'
      exact Keyed.contains_eq_false_iff.1 hgone
  | deleted whole old new mem =>
    simp only [reduceCtorEq, exists_false, removeField.injEq, true_and, or_false, false_or] at mem
    obtain ⟨g, hg, rfl⟩ := mem
    obtain ⟨m, hm, hname, r, hr⟩ := (Deletion.sound nodup_deleted).fields _ (Deletion.mem_fieldsOf.1 hg)
    obtain ⟨hm', -⟩ := mem_deleted.1 hm
    rw [show m.name = n from hname, old] at hm'
    cases hm'
    have hwf := hb.of_model? old
    refine ⟨⟨whole, old, hwf.mem_values_iff.1 (Model.mem_relations.1 hr).1⟩, fun new' hnew' => ?_⟩
    cases new.symm.trans hnew'

include hl

/-- A field that is removed is in the column that the change tells. -/
theorem fits_of_split {done rest : List Change} {c : Change} {s : State}
    (hsplit : (ofStates baseline live).changes = done ++ c :: rest)
    (hs : applyAll done baseline = .ok s) : Ddl.Fits c s := by
  cases c with
  | removeField n f =>
    intro m g hm hg
    have heffects := effects_concerning hs n
    rw [hm] at heffects
    have hin : .removeField n f ∈ (ofStates baseline live).changes := by
      rw [hsplit]
      exact List.mem_append_cons_self
    obtain ⟨⟨whole, hwhole, hf⟩, hlack⟩ := of_mem_removeField hb hin
    cases onPart_of_effects hl (concerning_front n ⟨_, hsplit.symm⟩) heffects with
    | created _ old => cases old.symm.trans hwhole
    | kept old new pair name beginning carried =>
      subst name
      obtain ⟨hnew, hold⟩ := mem_kept.1 pair
      cases hold.symm.trans hwhole
      obtain ⟨t, ht⟩ := Revision.onStep_of_effects (hb.of_model? hwhole) (hl.of_model? hnew) beginning carried
      rcases ht _ g hg with ⟨x, hx, hc, -⟩ | ⟨x, hx, -⟩
      · cases hf.symm.trans hx
        exact hc.symm
      · cases (hlack new hnew).symm.trans hx
    | deleted whole' old within =>
      cases old.symm.trans hwhole
      cases hf.symm.trans (within m rfl _ g hg)
      rfl
  | _ => trivial

variable (hdb : baseline.DistinctColumns) (hdl : live.DistinctColumns)
include hdb hdl

/-- No two fields of a model are in one column on the way of a difference exactly when its revisions leave
every column before they take it. -/
theorem distinctColumns_iff_vacates {final : State}
    (hfinal : applyAll (ofStates baseline live).changes baseline = .ok final) :
    (∀ done rest s, (ofStates baseline live).changes = done ++ rest → applyAll done baseline = .ok s →
        s.DistinctColumns) ↔
      ∀ p ∈ keptModelsOf baseline live, Revision.Vacates p.1 p.2 := by
  constructor
  · rintro h ⟨old, new⟩ hp
    obtain ⟨hnew, hold⟩ := mem_kept.1 hp
    have heffects := effects_concerning hfinal new.name
    rw [hold, concerning_of_kept hold hnew] at heffects
    refine (Revision.vacates_iff (hb.of_model? hold)
      (hl.of_model? hnew) (hdb _ old hold) (hdl _ new hnew) heffects).2 ?_
    intro front m hfront hm
    rw [← concerning_of_kept hold hnew] at hfront
    obtain ⟨done, ⟨rest, hrest⟩, rfl⟩ := List.prefix_filter_iff.1 hfront
    rw [← hrest] at hfinal
    obtain ⟨s, hs, -⟩ := applyAll_append_eq_ok_iff.1 hfinal
    have hleft := effects_concerning hs new.name
    rw [hold] at hleft
    exact h done rest s hrest.symm hs new.name m (Except.ok.inj (hleft.symm.trans hm))
  · intro hv done rest s hsplit hs n m hm
    have heffects := effects_concerning hs n
    rw [hm] at heffects
    cases onPart_of_effects hl (concerning_front n ⟨rest, hsplit.symm⟩) heffects with
    | created whole old new within => exact within.distinctColumns (hdl n whole new)
    | kept old new pair name beginning carried =>
      obtain ⟨hnew, hold⟩ := mem_kept.1 pair
      exact (hv _ pair).distinctColumns (hb.of_model? hold)
        (hl.of_model? hnew) (hdb _ old hold) (hdl _ new hnew) beginning carried
    | deleted whole old within => exact within.distinctColumns (hdb n whole old)

end WellFormed

end States

theorem catalogueOf_of_alike {s t : State} (h : s.Alike t) : Ddl.catalogueOf s = Ddl.catalogueOf t := by
  funext n
  have hn := h n
  rw [Ddl.catalogueOf, Ddl.catalogueOf]
  generalize s.model? n = o, t.model? n = p at hn ⊢
  cases hn with
  | none => rfl
  | some hm => rw [Option.map_some, Option.map_some, hm.columns_eq]

/-- Whether the revisions of a difference leave every column before they take it. -/
def Vacates (baseline : State) (live : List Model) : Prop :=
  ∀ p ∈ keptModelsOf baseline (.ofModels live), Revision.Vacates p.1 p.2

instance (baseline : State) (live : List Model) : Decidable (Vacates baseline live) :=
  inferInstanceAs (Decidable (∀ p ∈ keptModelsOf baseline (.ofModels live), Revision.Vacates p.1 p.2))

/-- **The script of a difference and the columns.** Where no two fields of a model have one column, neither
in the baseline nor in the live models, the script that carries the difference out makes of the catalogue of
the baseline that of the live models, if every column that passes from one field to another is left before
it is taken. If not, the script comes to a statement that names a column that is lacking, or makes one that
is there. -/
theorem run_between {history : List Change} {baseline after : State} {live : List Model} {d : Diff}
    {statements : List Ddl.Statement}
    (hbaseline : Change.applyAll history Ascending.empty = .ok baseline)
    (h : between baseline live = .ok d)
    (hrendered : Ddl.statements? d.changes baseline = some (statements, after))
    (hdb : baseline.DistinctColumns) (hdl : (State.ofModels live).DistinctColumns) :
    (Ddl.catalogueOf baseline).run statements =
      if Vacates baseline live then some (Ddl.catalogueOf (.ofModels live)) else none := by
  have hreachable : baseline.Reachable := ⟨history, hbaseline⟩
  have hb := hreachable.wellFormed
  have hafter := Ddl.applyAll_of_statements? hrendered
  have hcatalogue := catalogueOf_of_alike (alike_of_applyAll hb h hafter)
  obtain ⟨s, hlive, -, rfl⟩ := eq_ofStates_of_between h
  obtain rfl := hlive.eq_ofModels
  have hl := hlive.wellFormed
  have hrun := Ddl.run_statements hrendered hdb fun done c rest t hsplit ht =>
    fits_of_split hb hl hsplit ht
  have hiff := distinctColumns_iff_vacates hb hl hdb hdl hafter
  split
  · rename_i hv
    rw [hrun.1 (hiff.2 hv), hcatalogue]
  · rename_i hv
    have hcollide := mt hiff.1 hv
    simp only [not_forall] at hcollide
    obtain ⟨done, rest, t, hsplit, ht, hd⟩ := hcollide
    exact hrun.2 done rest t hsplit ht hd

/-- A model with one field, in a column of another name, for examples. -/
def sampleTable (field : String) (type : FieldType) : List Model :=
  [.ofFields "T" [{ name := field, type, column := some "c" }]]

/-- The new column of the table, for examples. -/
def sampleColumn : Ddl.Column where
  name := "c"
  type := .integer
  notNull := true
  unique := false
  default := none
  choices := none
  reference := none

/-- A field gives its column to a new field of another type. The new column is added before the old one,
of the same name, is dropped, so that the script has no meaning. -/
theorem exists_collision :
    Change.applyAll (ofStates Ascending.empty (.ofModels (sampleTable "a" .text))).changes
        Ascending.empty = .ok (.ofModels (sampleTable "a" .text)) ∧
      between (.ofModels (sampleTable "a" .text)) (sampleTable "b" .integer) =
        .ok (ofStates (.ofModels (sampleTable "a" .text)) (.ofModels (sampleTable "b" .integer))) ∧
      (State.ofModels (sampleTable "a" .text)).DistinctColumns ∧
      (State.ofModels (sampleTable "b" .integer)).DistinctColumns ∧
      Ddl.statements? (ofStates (.ofModels (sampleTable "a" .text))
          (.ofModels (sampleTable "b" .integer))).changes (.ofModels (sampleTable "a" .text)) =
        some ([.addColumn "T" sampleColumn, .dropColumn "T" "c"], .ofModels (sampleTable "b" .integer)) ∧
      (Ddl.catalogueOf (.ofModels (sampleTable "a" .text))).run
        [.addColumn "T" sampleColumn, .dropColumn "T" "c"] = none :=
  ⟨rfl, rfl, by decide, by decide, rfl, rfl⟩

/-- A model whose two fields are in columns of these names, for examples. -/
def sampleColumns (first second : String) : List Model :=
  [.ofFields "T" [{ name := "a", type := .text, column := some first },
    { name := "b", type := .text, column := some second }]]

/-- Two fields move on by one column. The first leaves its column before the second takes it. -/
theorem run_between_sample :
    let baseline := State.ofModels (sampleColumns "y" "x")
    ∃ statements after,
      Ddl.statements? (ofStates baseline (.ofModels (sampleColumns "z" "y"))).changes baseline =
        some (statements, after) ∧
      (Ddl.catalogueOf baseline).run statements =
        some (Ddl.catalogueOf (.ofModels (sampleColumns "z" "y"))) := by
  have hbaseline : Change.applyAll (ofStates Ascending.empty (.ofModels (sampleColumns "y" "x"))).changes
      Ascending.empty = .ok (.ofModels (sampleColumns "y" "x")) := rfl
  have hbetween : between (.ofModels (sampleColumns "y" "x")) (sampleColumns "z" "y") =
      .ok (ofStates (.ofModels (sampleColumns "y" "x")) (.ofModels (sampleColumns "z" "y"))) := rfl
  have hv : Vacates (.ofModels (sampleColumns "y" "x")) (sampleColumns "z" "y") := by decide
  obtain ⟨⟨statements, after⟩, hrendered⟩ := Option.isSome_iff_exists.1
    (show (Ddl.statements? (ofStates (.ofModels (sampleColumns "y" "x"))
      (.ofModels (sampleColumns "z" "y"))).changes (.ofModels (sampleColumns "y" "x"))).isSome = true
      from rfl)
  have hrun := run_between hbaseline hbetween hrendered (by decide) (by decide)
  rw [if_pos hv] at hrun
  exact ⟨statements, after, hrendered, hrun⟩

end Diff

end Schemata
