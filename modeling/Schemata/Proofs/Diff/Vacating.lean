import Schemata.Proofs.Ddl.Catalogue
import Schemata.Proofs.Diff.RoundTrip

/-! Columns while a difference is carried out.

Of a model on both sides, a column may pass from one field to another. A revision goes in steps: a field is
renamed, fields are changed, fields are added, fields are removed. At each step a field of the old model
leaves its column or a field of the new model takes one (`Revision.leaves`, `Revision.takes`), and the two
are in one column at once exactly when the one takes before the other leaves. No other part of a difference
brings two fields into one column. -/
namespace Schemata

namespace Revision
open Change

variable {old new m : Model} {k l : String} {f g : Field}

/-! ### The steps of a revision -/

/-- How many fields are changed before the named one; all of them, if it is not changed. -/
def turn (old new : Model) (name : String) : Nat :=
  (changedFields old new).findIdx (·.field == name)

/-- The step at which a field of the old model leaves its column: when it is renamed, when it is changed, or
at the end. -/
def leaves (old new : Model) (name : String) : Nat :=
  if (renamed? old new).any (·.source == name) then 1
  else if turn old new name < (changedFields old new).length then 2 + turn old new name
  else 3 + (changedFields old new).length

/-- The step at which a field of the new model takes its column: when one is renamed to it, when it is
changed, when it is added, or before the first step if nothing of it differs. -/
def takes (old new : Model) (name : String) : Nat :=
  if (renamed? old new).any (·.target == name) then 1
  else if old.fields.contains name && turn old new name == (changedFields old new).length then 0
  else 2 + turn old new name

/-- Whether every column that passes from a field of the old model to another field of the new one is left
before it is taken. -/
def Vacates (old new : Model) : Prop :=
  ∀ f ∈ old.fields.values, ∀ g ∈ new.fields.values, f.columnName = g.columnName → f.name ≠ g.name →
    leaves old new f.name ≤ takes old new g.name

instance (old new : Model) : Decidable (Vacates old new) :=
  inferInstanceAs (Decidable (∀ f ∈ old.fields.values, ∀ g ∈ new.fields.values,
    f.columnName = g.columnName → f.name ≠ g.name → leaves old new f.name ≤ takes old new g.name))

theorem turn_le (old new : Model) (name : String) :
    turn old new name ≤ (changedFields old new).length := List.findIdx_le_length

theorem turn_lt_iff : turn old new k < (changedFields old new).length ↔
    k ∈ (changedFields old new).map Revision.field := by
  rw [turn, List.findIdx_lt_length, List.mem_map]
  exact exists_congr fun r => and_congr_right fun _ => beq_iff_eq

theorem mem_take_iff {i : Nat} (hi : i ≤ (changedFields old new).length) :
    k ∈ ((changedFields old new).take i).map Revision.field ↔ turn old new k < i := by
  have hturn : ((changedFields old new).take i).findIdx (·.field == k) = min i (turn old new k) :=
    List.findIdx_take
  have hmem : ((changedFields old new).take i).findIdx (·.field == k) <
      ((changedFields old new).take i).length ↔
        k ∈ ((changedFields old new).take i).map Revision.field := by
    rw [List.findIdx_lt_length, List.mem_map]
    exact exists_congr fun r => and_congr_right fun _ => beq_iff_eq
  rw [← hmem, hturn, List.length_take]
  omega

/-- A renamed field is on one side under each of its names. -/
structure IsRenamed (old new : Model) (r : Renaming) (source target : Field) : Prop where
  removed : removedFields old new = [source]
  added : removedFields new old = [target]
  sourceName : r.source = source.name
  targetName : r.target = target.name
  found : old.field? r.source = some source
  made : new.field? r.target = some target
  free : old.field? r.target = none
  gone : new.field? r.source = none
  column : (source.rename r.target).columnName = target.columnName

theorem exists_isRenamed (hold : old.WellFormed) (hnew : new.WellFormed) {r : Renaming}
    (h : renamed? old new = some r) : ∃ source target, IsRenamed old new r source target := by
  obtain ⟨source, target, hremoved, hadded, hshape, rfl⟩ := renaming?_eq_some_iff.1 h
  obtain ⟨hsource, hgone⟩ := (mem_removedFields hold).1 (hremoved ▸ List.mem_singleton.2 rfl)
  obtain ⟨htarget, hfree⟩ := (mem_removedFields hnew).1 (hadded ▸ List.mem_singleton.2 rfl)
  refine ⟨source, target, hremoved, hadded, rfl, rfl, hsource, htarget, ?_, ?_, ?_⟩
  · exact Keyed.contains_eq_false_iff.1 hfree
  · exact Keyed.contains_eq_false_iff.1 hgone
  · exact (Field.alike_of_same hshape).columnName

theorem leaves_of_renamed {r : Renaming} (h : renamed? old new = some r) :
    leaves old new r.source = 1 := by
  simp [leaves, h]

theorem takes_of_renamed {r : Renaming} (h : renamed? old new = some r) :
    takes old new r.target = 1 := by
  simp [takes, h]

theorem leaves_of_ne (h : ∀ r, renamed? old new = some r → r.source ≠ k) :
    leaves old new k = if turn old new k < (changedFields old new).length then 2 + turn old new k
      else 3 + (changedFields old new).length := by
  rw [leaves, if_neg]
  rw [Option.any_eq_true]
  rintro ⟨r, hr, hk⟩
  exact h r hr (beq_iff_eq.1 hk)

theorem takes_of_ne (h : ∀ r, renamed? old new = some r → r.target ≠ k) :
    takes old new k =
      if old.fields.contains k && turn old new k == (changedFields old new).length then 0
      else 2 + turn old new k := by
  rw [takes, if_neg]
  rw [Option.any_eq_true]
  rintro ⟨r, hr, hk⟩
  exact h r hr (beq_iff_eq.1 hk)

/-- A field that is changed is in both models, so it is neither renamed nor the result of it. -/
theorem ne_of_changed (hold : old.WellFormed) (hnew : new.WellFormed)
    (hk : turn old new k < (changedFields old new).length) {r : Renaming}
    (h : renamed? old new = some r) : r.source ≠ k ∧ r.target ≠ k := by
  obtain ⟨source, target, hr⟩ := exists_isRenamed hold hnew h
  obtain ⟨x, hx, rfl⟩ := List.mem_map.1 (turn_lt_iff.1 hk)
  obtain ⟨hsource, htarget, -⟩ := mem_changedFields.1 hx
  constructor
  · intro he
    cases (he ▸ hr.gone).symm.trans htarget
  · intro he
    cases (he ▸ hr.free).symm.trans hsource

/-! ### Columns between the steps -/

/-- Whether, after step `t`, a field is under the name and in the column. -/
def Shows (old new : Model) (t : Nat) (name column : String) : Prop :=
  (∃ f, old.field? name = some f ∧ f.columnName = column ∧ t < leaves old new name) ∨
    ∃ g, new.field? name = some g ∧ g.columnName = column ∧ takes old new name ≤ t

/-- No two fields are in one column when every column is left before it is taken. -/
theorem Vacates.shows_inj (h : Vacates old new) (hold : old.WellFormed) (hnew : new.WellFormed)
    (hdo : old.DistinctColumns) (hdn : new.DistinctColumns) {t : Nat} {column : String}
    (hk : Shows old new t k column) (hl : Shows old new t l column) : k = l := by
  have hpass : ∀ {k l : String}, (∃ f, old.field? k = some f ∧ f.columnName = column ∧
      t < leaves old new k) → (∃ g, new.field? l = some g ∧ g.columnName = column ∧
      takes old new l ≤ t) → k = l := by
    rintro k l ⟨f, hf, hfc, hleaves⟩ ⟨g, hg, hgc, htakes⟩
    by_contra hne
    obtain rfl := hold.named k f hf
    obtain rfl := hnew.named l g hg
    have := h f (hold.mem_values_iff.2 hf) g (hnew.mem_values_iff.2 hg) (hfc.trans hgc.symm) hne
    omega
  rcases hk with hk | hk <;> rcases hl with hl | hl
  · obtain ⟨f, hf, hfc, -⟩ := hk
    obtain ⟨g, hg, hgc, -⟩ := hl
    exact Model.distinctColumns_iff.1 hdo k l f g hf hg (hfc.trans hgc.symm)
  · exact hpass hk hl
  · exact (hpass hl hk).symm
  · obtain ⟨f, hf, hfc, -⟩ := hk
    obtain ⟨g, hg, hgc, -⟩ := hl
    exact Model.distinctColumns_iff.1 hdn k l f g hf hg (hfc.trans hgc.symm)

/-! ### The model between the steps -/

/-- The old model without its outdated indexes and with its field renamed. -/
def moved (old new : Model) : Model :=
  match renamed? old new with
  | some r => (old.withoutIndexes (outdated old new (some r))).renamed r.source r.target
  | none => old.withoutIndexes (outdated old new none)

/-- The changes that come before fields are changed. -/
def moves (old new : Model) : List Change :=
  (outdated old new (renamed? old new)).map (.removeIndex new.name) ++
    (renamed? old new).toList.map fun r => .renameField new.name r.source r.target

theorem of_effects_moves {o : Option Model} (h : effects (moves old new) (some old) = .ok o) :
    o = some (moved old new) := by
  obtain ⟨p, hp, hrename⟩ := effects_append_eq_ok_iff.1 h
  obtain rfl := of_effects_removeIndexes hp
  cases hr : renamed? old new with
  | none =>
    rw [hr] at hrename
    cases hrename
    rw [moved, hr]
  | some r =>
    rw [hr] at hrename
    obtain ⟨q, hq, hrest⟩ := effects_cons_eq_ok_iff.1 hrename
    cases hrest
    cases turns_of_effect hq with
    | renameField hm => rw [(Model.of_renameField hm).2.2, moved, hr]

theorem field?_moved_of_none (h : renamed? old new = none) : (moved old new).field? k = old.field? k := by
  rw [moved, h]
  rfl

theorem field?_moved {r : Renaming} {source target : Field} (h : renamed? old new = some r)
    (hr : IsRenamed old new r source target) :
    (moved old new).field? k = if k = r.target then some (source.rename r.target)
      else if k = r.source then none else old.field? k := by
  have hfree : (old.withoutIndexes (outdated old new (some r))).field? r.target = none := hr.free
  rw [moved, h]
  refine (Model.field?_renamed hfree k).trans ?_
  rw [show (old.withoutIndexes (outdated old new (some r))).field? r.source = some source from hr.found]
  rfl

/-- A field that is added is in the new model only, and none was renamed. -/
theorem of_mem_gainedFields (hnew : new.WellFormed)
    (hf : f ∈ lostFields new old (renamed? old new)) :
    renamed? old new = none ∧ new.field? f.name = some f ∧ old.field? f.name = none := by
  cases h : renamed? old new with
  | some r =>
    rw [h] at hf
    cases hf
  | none =>
    rw [h] at hf
    obtain ⟨hfield, hlack⟩ := (mem_removedFields hnew).1 hf
    exact ⟨rfl, hfield, Keyed.contains_eq_false_iff.1 hlack⟩

theorem nodup_gainedFields (hnew : new.WellFormed) :
    ((lostFields new old (renamed? old new)).map Field.name).Nodup := by
  rw [lostFields]
  split
  · exact .nil
  · exact nodup_removedFields hnew

section Steps
variable (hold : old.WellFormed) (hnew : new.WellFormed)
include hold hnew

/-- Of the moved model, a field is either one of the old model that has not left yet or in the column of
the one that it was renamed to. -/
theorem of_field?_moved (hf : (moved old new).field? k = some f) :
    (old.field? k = some f ∧ ∀ r, renamed? old new = some r → r.source ≠ k) ∨
      ∃ g, new.field? k = some g ∧ g.columnName = f.columnName ∧ takes old new k = 1 := by
  cases h : renamed? old new with
  | none =>
    rw [field?_moved_of_none h] at hf
    exact .inl ⟨hf, fun r hr => by cases hr⟩
  | some r =>
    obtain ⟨source, target, hr⟩ := exists_isRenamed hold hnew h
    rw [field?_moved h hr] at hf
    split at hf
    · rename_i hk
      cases hf
      subst hk
      exact .inr ⟨target, hr.made, hr.column.symm, takes_of_renamed h⟩
    · split at hf
      · cases hf
      · rename_i hne
        refine .inl ⟨hf, fun r' hr' he => hne ?_⟩
        cases hr'
        exact he.symm

theorem field?_moved_of_ne (hf : old.field? k = some f)
    (hne : ∀ r, renamed? old new = some r → r.source ≠ k) : (moved old new).field? k = some f := by
  cases h : renamed? old new with
  | none => rw [field?_moved_of_none h, hf]
  | some r =>
    obtain ⟨source, target, hr⟩ := exists_isRenamed hold hnew h
    have ht : ¬ k = r.target := by
      rintro rfl
      cases hr.free.symm.trans hf
    rw [field?_moved h hr, if_neg ht, if_neg fun he => hne r h he.symm, hf]

/-- The model when the first `i` fields are changed. -/
theorem shows_revised {i : Nat} (hi : i ≤ (changedFields old new).length)
    (hf : ((moved old new).revised ((changedFields old new).take i)).field? k = some f) :
    Shows old new (1 + i) k f.columnName := by
  by_cases hk : k ∈ ((changedFields old new).take i).map Revision.field
  · have hturn := (mem_take_iff hi).1 hk
    have hn : turn old new k < (changedFields old new).length := by omega
    obtain ⟨r, hr, rfl⟩ := List.mem_map.1 hk
    obtain ⟨hsource, htarget, -⟩ := mem_changedFields.1 (List.mem_of_mem_take hr)
    have hmoved := field?_moved_of_ne hold hnew hsource fun x hx => (ne_of_changed hold hnew hn hx).1
    rw [Model.field?_revised_of_mem (nodup_changedFields.sublist ((List.take_sublist ..).map _)) hr
      (Option.isSome_of_eq_some hmoved)] at hf
    cases hf
    refine .inr ⟨r.target, htarget, rfl, ?_⟩
    rw [takes_of_ne fun x hx => (ne_of_changed hold hnew hn hx).2]
    split <;> omega
  · rw [Model.field?_revised_of_not_mem hk] at hf
    have hturn : ¬ turn old new k < i := fun h => hk ((mem_take_iff hi).2 h)
    rcases of_field?_moved hold hnew hf with ⟨hf, hne⟩ | ⟨g, hg, hc, htakes⟩
    · refine .inl ⟨f, hf, rfl, ?_⟩
      rw [leaves_of_ne hne]
      split <;> omega
    · exact .inr ⟨g, hg, hc, by omega⟩

/-- The model when all fields are changed and some are added. -/
theorem shows_grown {fs : List Field} (hsub : fs.Sublist (lostFields new old (renamed? old new)))
    (hf : (((moved old new).revised (changedFields old new)).withFields fs).field? k = some f) :
    Shows old new (2 + (changedFields old new).length) k f.columnName := by
  by_cases hk : k ∈ fs.map Field.name
  · obtain ⟨g, hg, rfl⟩ := List.mem_map.1 hk
    rw [Model.field?_withFields_of_mem ((nodup_gainedFields hnew).sublist (hsub.map _)) hg] at hf
    cases hf
    obtain ⟨hnone, hfield, -⟩ := of_mem_gainedFields hnew (hsub.subset hg)
    refine .inr ⟨_, hfield, rfl, ?_⟩
    have hturn := turn_le old new f.name
    rw [takes_of_ne fun r hr => by rw [hnone] at hr; cases hr]
    split <;> omega
  · rw [Model.field?_withFields_of_not_mem hk] at hf
    have hrevised : ((moved old new).revised ((changedFields old new).take
        (changedFields old new).length)).field? k = some f := by rwa [List.take_length]
    rcases shows_revised hold hnew (Nat.le_refl _) hrevised with ⟨g, hg, hc, hleaves⟩ | ⟨g, hg, hc, htakes⟩
    · refine .inl ⟨g, hg, hc, ?_⟩
      -- a field that has not left when all are changed is removed at the end
      rw [leaves] at hleaves ⊢
      split at hleaves
      · omega
      · split at hleaves
        · omega
        · rw [if_neg ‹_›, if_neg ‹_›]
          omega
    · exact .inr ⟨g, hg, hc, by omega⟩

/-- Conversely, what the step allows is there when the first `i` fields are changed. -/
theorem revised_of_shows {column : String} {i : Nat} (hi : i ≤ (changedFields old new).length)
    (h : Shows old new (1 + i) k column) :
    ∃ f, ((moved old new).revised ((changedFields old new).take i)).field? k = some f ∧
      f.columnName = column := by
  have hstay : ¬ turn old new k < i →
      ((moved old new).revised ((changedFields old new).take i)).field? k = (moved old new).field? k :=
    fun hturn => Model.field?_revised_of_not_mem fun hin => hturn ((mem_take_iff hi).1 hin)
  rcases h with ⟨f, hf, hc, hleaves⟩ | ⟨g, hg, hc, htakes⟩
  · have hne : ∀ r, renamed? old new = some r → r.source ≠ k := by
      rintro r hr rfl
      rw [leaves_of_renamed hr] at hleaves
      omega
    rw [leaves_of_ne hne] at hleaves
    refine ⟨f, ?_, hc⟩
    rw [hstay (by split at hleaves <;> omega)]
    exact field?_moved_of_ne hold hnew hf hne
  · by_cases hrenamed : ∃ r, renamed? old new = some r ∧ r.target = k
    · obtain ⟨r, hr, rfl⟩ := hrenamed
      obtain ⟨source, target, h⟩ := exists_isRenamed hold hnew hr
      have hturn : ¬ turn old new r.target < i := fun hlt =>
        (ne_of_changed hold hnew (Nat.lt_of_lt_of_le hlt hi) hr).2 rfl
      cases h.made.symm.trans hg
      exact ⟨_, by rw [hstay hturn, field?_moved hr h, if_pos rfl], h.column.trans hc⟩
    · rw [takes_of_ne fun r hr hk => hrenamed ⟨r, hr, hk⟩] at htakes
      split at htakes
      · rename_i hboth
        rw [Bool.and_eq_true, beq_iff_eq] at hboth
        obtain ⟨f, hf⟩ := Option.isSome_iff_exists.1 hboth.1
        have hsame : f.same g = true := by
          by_contra hdiffer
          have hin : (⟨k, f, g⟩ : Revision) ∈ changedFields old new :=
            mem_changedFields.2 ⟨hf, hg, Bool.eq_false_iff.2 hdiffer⟩
          have hturn : turn old new k < (changedFields old new).length :=
            turn_lt_iff.2 (List.mem_map_of_mem hin)
          omega
        refine ⟨f, ?_, (Field.alike_of_same hsame).columnName.trans hc⟩
        rw [hstay (by omega)]
        refine field?_moved_of_ne hold hnew hf ?_
        rintro r hr rfl
        obtain ⟨source, target, h⟩ := exists_isRenamed hold hnew hr
        cases h.gone.symm.trans hg
      · obtain ⟨r, hr, rfl⟩ := List.mem_map.1 ((mem_take_iff hi).2 (show turn old new k < i by omega))
        obtain ⟨hsource, htarget, -⟩ := mem_changedFields.1 (List.mem_of_mem_take hr)
        cases htarget.symm.trans hg
        have hturn := (mem_take_iff hi).1 (List.mem_map_of_mem hr)
        have hmoved := field?_moved_of_ne hold hnew hsource fun x hx =>
          (ne_of_changed hold hnew (Nat.lt_of_lt_of_le hturn hi) hx).1
        exact ⟨_, Model.field?_revised_of_mem (nodup_changedFields.sublist ((List.take_sublist ..).map _))
          hr (Option.isSome_of_eq_some hmoved), hc⟩

/-- Conversely, what the step allows is there when all fields are changed and added. -/
theorem grown_of_shows {column : String} (h : Shows old new (2 + (changedFields old new).length) k column) :
    ∃ f, (((moved old new).revised (changedFields old new)).withFields
      (lostFields new old (renamed? old new))).field? k = some f ∧ f.columnName = column := by
  by_cases hk : k ∈ (lostFields new old (renamed? old new)).map Field.name
  · obtain ⟨x, hx, rfl⟩ := List.mem_map.1 hk
    obtain ⟨-, hfield, hlack⟩ := of_mem_gainedFields hnew hx
    rcases h with ⟨f, hf, -⟩ | ⟨g, hg, hc, -⟩
    · cases hlack.symm.trans hf
    · cases hfield.symm.trans hg
      exact ⟨x, Model.field?_withFields_of_mem (nodup_gainedFields hnew) hx, hc⟩
  · rw [Model.field?_withFields_of_not_mem hk, ← List.take_length (l := changedFields old new)]
    refine revised_of_shows hold hnew (Nat.le_refl _) ?_
    rcases h with ⟨f, hf, hc, hleaves⟩ | ⟨g, hg, hc, htakes⟩
    · exact .inl ⟨f, hf, hc, by omega⟩
    · refine .inr ⟨g, hg, hc, ?_⟩
      -- a field that is taken last of all is added
      by_contra hlast
      obtain rfl := hnew.named k g hg
      have hne : ∀ r, renamed? old new = some r → r.target ≠ g.name := by
        rintro r hr he
        rw [← he, takes_of_renamed hr] at hlast
        omega
      rw [takes_of_ne hne] at htakes hlast
      split at hlast
      · omega
      · rename_i hboth
        have hturn := turn_le old new g.name
        have hlack : old.fields.contains g.name = false := by
          rw [Bool.and_eq_true, beq_iff_eq, not_and] at hboth
          exact Bool.eq_false_iff.2 fun hin => hboth hin (by omega)
        have hadded := (mem_removedFields hnew).2 ⟨hg, hlack⟩
        cases hr : renamed? old new with
        | none =>
          rw [lostFields, hr] at hk
          exact hk (List.mem_map_of_mem hadded)
        | some r =>
          obtain ⟨source, target, h⟩ := exists_isRenamed hold hnew hr
          rw [h.added, List.mem_singleton] at hadded
          exact hne r hr (h.targetName.trans (congrArg Field.name hadded.symm))

end Steps

/-! ### Changes in a row -/

theorem prefix_append {α : Type} {l a b : List α} (h : l <+: a ++ b) :
    l <+: a ∨ ∃ rest, l = a ++ rest ∧ rest <+: b := by
  obtain ⟨more, he⟩ := h
  rcases List.append_eq_append_iff.1 he with ⟨as, ha, -⟩ | ⟨bs, hl, hb⟩
  · exact .inl ⟨as, ha.symm⟩
  · exact .inr ⟨bs, hl, more, hb.symm⟩

/-- The beginning of two rows of changes is the beginning of the first, or all of it and the beginning of the
second. -/
theorem effects_prefix_append {a b front : List Change} {o p : Option Model} (hfront : front <+: a ++ b)
    (h : effects front o = .ok p) :
    front <+: a ∨ ∃ rest q, rest <+: b ∧ effects a o = .ok q ∧ effects rest q = .ok p := by
  rcases prefix_append hfront with hfront | ⟨rest, rfl, hrest⟩
  · exact .inl hfront
  · obtain ⟨q, hq, hp⟩ := effects_append_eq_ok_iff.1 h
    exact .inr ⟨rest, q, hrest, hq, hp⟩

theorem changes_eq_moves (old new : Model) :
    (diff old new).changes = moves old new ++
      ((changedFields old new).map (fun r => .changeField new.name r.field r.source r.target) ++
      ((lostFields new old (renamed? old new)).map (.addField new.name) ++
      ((missing old new (renamed? old new)).map (.addIndex new.name) ++
      (lostFields old new (renamed? old new)).map (.removeField new.name)))) := by
  rw [changes_diff, moves]
  simp only [List.append_assoc]

/-- The model with all its fields changed and added. -/
def grown (old new : Model) : Model :=
  ((moved old new).revised (changedFields old new)).withFields (lostFields new old (renamed? old new))

/-- What a revision may have come to between two of its changes. -/
inductive OnWay (old new : Model) : Model → Prop
  | dropping (is : List Index) : OnWay old new (old.withoutIndexes is)
  | changing (rs : List Revision) (beginning : rs <+: changedFields old new) :
      OnWay old new ((moved old new).revised rs)
  | growing (fs : List Field) (beginning : fs <+: lostFields new old (renamed? old new)) :
      OnWay old new (((moved old new).revised (changedFields old new)).withFields fs)
  | declaring (is : List Index) (beginning : is <+: missing old new (renamed? old new)) :
      OnWay old new ((grown old new).withIndexes is)
  | removing (fs : List Field) :
      OnWay old new (((grown old new).withIndexes (missing old new (renamed? old new))).withoutFields fs)

theorem onWay_of_moves {front : List Change} (hfront : front <+: moves old new)
    (h : effects front (some old) = .ok (some m)) : OnWay old new m := by
  rcases effects_prefix_append hfront h with hfront | ⟨rest, q, hrest, hq, hm⟩
  · obtain ⟨is, -, rfl⟩ := List.prefix_map_iff.1 hfront
    cases of_effects_removeIndexes h
    exact .dropping is
  · obtain ⟨rs, hrs, rfl⟩ := List.prefix_map_iff.1 hrest
    cases hr : renamed? old new with
    | none =>
      rw [hr, Option.toList_none, List.prefix_nil] at hrs
      subst hrs
      cases hm
      cases of_effects_removeIndexes hq
      exact .dropping _
    | some r =>
      rw [hr, Option.toList_some, List.prefix_cons_iff] at hrs
      rcases hrs with rfl | ⟨none', rfl, hnone⟩
      · cases hm
        cases of_effects_removeIndexes hq
        exact .dropping _
      · obtain rfl := List.prefix_nil.1 hnone
        have hmoves : effects (moves old new) (some old) = .ok (some m) := by
          rw [moves, effects_append hq, hr]
          exact hm
        cases of_effects_moves hmoves
        exact .changing [] List.nil_prefix

theorem onWay_of_effects {front : List Change} (hfront : front <+: (diff old new).changes)
    (h : effects front (some old) = .ok (some m)) : OnWay old new m := by
  rw [changes_eq_moves] at hfront
  rcases effects_prefix_append hfront h with hfront | ⟨rest, q, hrest, hq, hm⟩
  · exact onWay_of_moves hfront h
  obtain rfl := of_effects_moves hq
  rcases effects_prefix_append hrest hm with hfront | ⟨rest, q, hrest, hq, hm⟩
  · obtain ⟨rs, hrs, rfl⟩ := List.prefix_map_iff.1 hfront
    cases of_effects_changeFields hm
    exact .changing rs hrs
  obtain rfl := of_effects_changeFields hq
  rcases effects_prefix_append hrest hm with hfront | ⟨rest, q, hrest, hq, hm⟩
  · obtain ⟨fs, hfs, rfl⟩ := List.prefix_map_iff.1 hfront
    cases of_effects_addFields hm
    exact .growing fs hfs
  obtain rfl := of_effects_addFields hq
  rcases effects_prefix_append hrest hm with hfront | ⟨rest, q, hrest, hq, hm⟩
  · obtain ⟨is, his, rfl⟩ := List.prefix_map_iff.1 hfront
    cases of_effects_addIndexes hm
    exact .declaring is his
  obtain rfl := of_effects_addIndexes hq
  obtain ⟨fs, -, rfl⟩ := List.prefix_map_iff.1 hrest
  cases of_effects_removeFields hm
  exact .removing fs

/-- Whether every field of the model is in a column that some step of the revision allows. -/
def OnStep (old new m : Model) : Prop :=
  ∃ t, ∀ k f, m.field? k = some f → Shows old new t k f.columnName

theorem onStep_of_fields {m m' : Model} (h : OnStep old new m)
    (hsub : ∀ k f, m'.field? k = some f → m.field? k = some f) : OnStep old new m' := by
  obtain ⟨t, ht⟩ := h
  exact ⟨t, fun k f hf => ht k f (hsub k f hf)⟩

theorem onStep_old (old new : Model) : OnStep old new old := by
  refine ⟨0, fun k f hf => .inl ⟨f, hf, rfl, ?_⟩⟩
  rw [leaves]
  split
  · omega
  · split <;> omega

section Steps
variable (hold : old.WellFormed) (hnew : new.WellFormed)
include hold hnew

theorem OnWay.onStep (h : OnWay old new m) : OnStep old new m := by
  have hgrown : OnStep old new (grown old new) := ⟨_, fun k f hf => shows_grown hold hnew (.refl _) hf⟩
  cases h with
  | dropping is => exact onStep_of_fields (onStep_old old new) fun k f hf => hf
  | changing rs hrs =>
    rw [List.prefix_iff_eq_take.1 hrs]
    exact ⟨_, fun k f hf => shows_revised hold hnew hrs.length_le hf⟩
  | growing fs hfs => exact ⟨_, fun k f hf => shows_grown hold hnew hfs.sublist hf⟩
  | declaring is => exact onStep_of_fields hgrown fun k f hf => hf
  | removing fs =>
    refine onStep_of_fields hgrown fun k f hf => ?_
    rw [Model.field?_withoutFields] at hf
    split at hf
    · cases hf
    · exact hf

/-- On the way of a revision, every field is in a column that its step allows. -/
theorem onStep_of_effects {front : List Change} (hfront : front <+: (diff old new).changes)
    (h : effects front (some old) = .ok (some m)) : OnStep old new m :=
  (onWay_of_effects hfront h).onStep hold hnew

/-- No two fields are in one column on the way of a revision that leaves every column before it is taken. -/
theorem Vacates.distinctColumns (hv : Vacates old new) (hdo : old.DistinctColumns)
    (hdn : new.DistinctColumns) {front : List Change} (hfront : front <+: (diff old new).changes)
    (h : effects front (some old) = .ok (some m)) : m.DistinctColumns := by
  obtain ⟨t, ht⟩ := onStep_of_effects hold hnew hfront h
  refine Model.distinctColumns_iff.2 fun k l f g hf hg hc => ?_
  exact hv.shows_inj hold hnew hdo hdn (ht k f hf) (hc ▸ ht l g hg)

/-- If a column is taken before it is left, there is a step at which two fields are in it. -/
theorem exists_shows (hv : ¬ Vacates old new) (hdo : old.DistinctColumns) :
    ∃ t k l column, k ≠ l ∧ Shows old new t k column ∧ Shows old new t l column ∧
      ((∃ i, i ≤ (changedFields old new).length ∧ t = 1 + i) ∨
        t = 2 + (changedFields old new).length) := by
  simp only [Vacates, not_forall, not_le] at hv
  obtain ⟨f, hf, g, hg, hc, hne, hlate⟩ := hv
  have hf' := hold.mem_values_iff.1 hf
  have hg' := hnew.mem_values_iff.1 hg
  refine ⟨takes old new g.name, f.name, g.name, g.columnName, hne, .inl ⟨f, hf', hc, hlate⟩,
    .inr ⟨g, hg', rfl, Nat.le_refl _⟩, ?_⟩
  have hturn := turn_le old new g.name
  by_cases hrenamed : ∃ r, renamed? old new = some r ∧ r.target = g.name
  · obtain ⟨r, hr, he⟩ := hrenamed
    exact .inl ⟨0, Nat.zero_le _, he ▸ takes_of_renamed hr⟩
  · rw [takes_of_ne fun r hr hk => hrenamed ⟨r, hr, hk⟩]
    split
    · -- a field of which nothing differs was in its column before, and alone there
      rename_i hboth
      rw [Bool.and_eq_true, beq_iff_eq] at hboth
      obtain ⟨x, hx⟩ := Option.isSome_iff_exists.1 hboth.1
      have hshows : Shows old new (1 + 0) g.name g.columnName := by
        refine .inr ⟨g, hg', rfl, ?_⟩
        rw [takes_of_ne fun r hr hk => hrenamed ⟨r, hr, hk⟩, if_pos (by simpa using hboth)]
        omega
      obtain ⟨y, hy, hyc⟩ := revised_of_shows hold hnew (Nat.zero_le _) hshows
      rcases of_field?_moved hold hnew hy with ⟨hy, -⟩ | ⟨_, _, _, htakes⟩
      · exact absurd (Model.distinctColumns_iff.1 hdo _ _ f y hf' hy (hc.trans hyc.symm)) hne
      · rw [takes_of_ne fun r hr hk => hrenamed ⟨r, hr, hk⟩, if_pos (by simpa using hboth)] at htakes
        omega
    · by_cases hlast : turn old new g.name < (changedFields old new).length
      · exact .inl ⟨turn old new g.name + 1, hlast, by omega⟩
      · exact .inr (by omega)

/-- On the way of a revision, two fields are in one column at some point exactly when some column is taken
before it is left. -/
theorem vacates_iff (hdo : old.DistinctColumns) (hdn : new.DistinctColumns) {o : Option Model}
    (h : effects (diff old new).changes (some old) = .ok o) :
    Vacates old new ↔ ∀ front m, front <+: (diff old new).changes →
      effects front (some old) = .ok (some m) → m.DistinctColumns := by
  refine ⟨fun hv front m hfront hm => hv.distinctColumns hold hnew hdo hdn hfront hm, fun hall => ?_⟩
  by_contra hv
  rw [changes_eq_moves] at h
  obtain ⟨q, hq, hchanged⟩ := effects_append_eq_ok_iff.1 h
  obtain rfl := of_effects_moves hq
  obtain ⟨t, k, l, column, hne, hk, hl, ht⟩ := exists_shows hold hnew hv hdo
  have hcollide : ∀ {front : List Change} {m : Model} {f g : Field}, front <+: (diff old new).changes →
      effects front (some old) = .ok (some m) → m.field? k = some f → f.columnName = column →
      m.field? l = some g → g.columnName = column → False := by
    intro front m f g hfront hm hf hfc hg hgc
    exact hne (Model.distinctColumns_iff.1 (hall front m hfront hm) k l f g hf hg (hfc.trans hgc.symm))
  rcases ht with ⟨i, hi, rfl⟩ | rfl
  · obtain ⟨f, hf, hfc⟩ := revised_of_shows hold hnew hi hk
    obtain ⟨g, hg, hgc⟩ := revised_of_shows hold hnew hi hl
    rw [← List.take_append_drop i (changedFields old new), List.map_append, List.append_assoc] at hchanged
    obtain ⟨q, hfirst, -⟩ := effects_append_eq_ok_iff.1 hchanged
    obtain rfl := of_effects_changeFields hfirst
    refine hcollide ?_ ((effects_append hq).trans hfirst) hf hfc hg hgc
    rw [changes_eq_moves, List.prefix_append_right_inj]
    exact ((List.take_prefix i _).map _).trans (List.prefix_append ..)
  · obtain ⟨f, hf, hfc⟩ := grown_of_shows hold hnew hk
    obtain ⟨g, hg, hgc⟩ := grown_of_shows hold hnew hl
    obtain ⟨q, hfirst, hrest⟩ := effects_append_eq_ok_iff.1 hchanged
    obtain rfl := of_effects_changeFields hfirst
    obtain ⟨q, hadds, -⟩ := effects_append_eq_ok_iff.1 hrest
    obtain rfl := of_effects_addFields hadds
    refine hcollide ?_ ((effects_append hq).trans ((effects_append hfirst).trans hadds)) hf hfc hg hgc
    rw [changes_eq_moves, List.prefix_append_right_inj, List.prefix_append_right_inj]
    exact List.prefix_append ..

end Steps

end Revision

end Schemata
