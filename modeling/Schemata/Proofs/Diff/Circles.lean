import Schemata.Proofs.Diff.Sparing

/-! When a difference breaks foreign keys up.

Only a circle of foreign keys keeps every model from its turn: among models without one there is a model that points at
none of the others, and a model that none of the others points at (`exists_last`, `exists_first`). The models that are
left at each step have no circle if all of them had none, so one of them is always ready and no foreign key is broken
up. New models are then created whole, behind their targets, and old ones are deleted as they are, before their targets
(`Diff.Sequenced`). -/
namespace Schemata

/-! ### Foreign keys among models -/

/-- A foreign key of one of the models leads to another one of them. -/
def PointsWithin (models : List Model) (x y : String) : Prop :=
  x ≠ y ∧ (∃ m ∈ models, m.name = x ∧ m.PointsAt y) ∧ y ∈ models.map Model.name

instance (models : List Model) (x y : String) : Decidable (PointsWithin models x y) :=
  inferInstanceAs (Decidable (x ≠ y ∧ (∃ m ∈ models, m.name = x ∧ ∃ key ∈ m.relations, key.2.model = y) ∧ _))

/-- The foreign keys among the models do not run in a circle. -/
def Straight (models : List Model) : Prop := ∀ x, ¬ Relation.TransGen (PointsWithin models) x x

section Graph
variable {R : String → String → Prop} {l : List String} {models rest : List Model} {x y : String}

/-- Where no way comes back to its start, some element of a list leads to none of the list. -/
theorem exists_last (hR : ∀ x, ¬ Relation.TransGen R x x) (hl : l ≠ []) :
    ∃ x ∈ l, ∀ y ∈ l, ¬ Relation.TransGen R x y := by
  induction l with
  | nil => exact absurd rfl hl
  | cons a rest ih =>
    by_cases hrest : rest = []
    · subst hrest
      refine ⟨a, List.mem_cons_self .., fun y hy => ?_⟩
      obtain rfl := List.mem_singleton.1 hy
      exact hR y
    · obtain ⟨x, hx, hlast⟩ := ih hrest
      by_cases hway : Relation.TransGen R x a
      · -- where `a` leads to, `x` would lead to by `a`
        refine ⟨a, List.mem_cons_self .., fun y hy hon => ?_⟩
        rcases List.mem_cons.1 hy with rfl | hy
        · exact hR y hon
        · exact hlast y hy (hway.trans hon)
      · refine ⟨x, List.mem_cons_of_mem a hx, fun y hy => ?_⟩
        rcases List.mem_cons.1 hy with rfl | hy
        · exact hway
        · exact hlast y hy

theorem exists_first (hR : ∀ x, ¬ Relation.TransGen R x x) (hl : l ≠ []) :
    ∃ y ∈ l, ∀ x ∈ l, ¬ Relation.TransGen R x y := by
  obtain ⟨y, hy, hfirst⟩ := exists_last (R := Function.swap R) (fun x hx => hR x (Relation.transGen_swap.1 hx)) hl
  exact ⟨y, hy, fun x hx hway => hfirst x hx (Relation.transGen_swap.2 hway)⟩

theorem PointsWithin.subset (h : PointsWithin rest x y) (hsub : rest ⊆ models) : PointsWithin models x y := by
  obtain ⟨hne, ⟨m, hm, hname, hpoints⟩, htarget⟩ := h
  exact ⟨hne, ⟨m, hsub hm, hname, hpoints⟩, List.map_subset Model.name hsub htarget⟩

theorem Straight.subset (h : Straight models) (hsub : rest ⊆ models) : Straight rest :=
  fun x hx => h x (hx.lift id fun _ _ hstep => hstep.subset hsub)

/-- Foreign keys that only lead down run in no circle. -/
theorem straight_of_lt (rank : String → Nat) (h : ∀ m ∈ models, ∀ key ∈ m.relations, m.name ≠ key.2.model →
    key.2.model ∈ models.map Model.name → rank key.2.model < rank m.name) : Straight models := by
  have hstep : ∀ {x y}, PointsWithin models x y → rank y < rank x := by
    intro x y hpoints
    obtain ⟨hne, ⟨m, hm, rfl, key, hkey, rfl⟩, htarget⟩ := hpoints
    exact h m hm key hkey hne htarget
  have hdown : ∀ {x y}, Relation.TransGen (PointsWithin models) x y → rank y < rank x := by
    intro x y hway
    induction hway with
    | single hlast => exact hstep hlast
    | tail _ hlast ih => exact Nat.lt_trans (hstep hlast) ih
  exact fun x hx => Nat.lt_irrefl _ (hdown hx)

end Graph

/-! ### Creation -/

namespace Creation
variable {models remaining : List Model}

theorem exists_isReady (h : Straight remaining) (hne : remaining ≠ []) :
    ∃ m ∈ remaining, isReady remaining m = true := by
  obtain ⟨x, hx, hlast⟩ := exists_last (l := remaining.map Model.name) h (by simpa using hne)
  obtain ⟨m, hm, rfl⟩ := List.mem_map.1 hx
  refine ⟨m, hm, List.all_eq_true.2 fun target htarget => ?_⟩
  obtain ⟨hkeys, hother⟩ := List.mem_filter.1 htarget
  obtain ⟨key, hkey, rfl⟩ := List.mem_map.1 hkeys
  rw [Bool.not_eq_true', List.any_eq_false]
  intro y hy he
  have hleft : key.2.model ∈ remaining.map Model.name := beq_iff_eq.1 he ▸ List.mem_map_of_mem hy
  exact hlast _ hleft (.single ⟨(of_decide_eq_true hother).symm, ⟨m, hm, rfl, key, hkey, rfl⟩, hleft⟩)

theorem waiting_eq_nil_of_next? {step : Model × List String} (h : Straight remaining)
    (hn : next? remaining = some step) : step.2 = [] := by
  rw [next?] at hn
  split at hn
  · cases hn
    rfl
  · rename_i hnone
    have hne : remaining ≠ [] := by
      intro hnil
      subst hnil
      cases hn
    obtain ⟨m, hm, hready⟩ := exists_isReady h hne
    exact absurd hready (List.find?_eq_none.1 hnone m hm)

theorem waiting_eq_nil_of_orderFor {steps : Nat} (h : Straight remaining) :
    ∀ step ∈ orderFor steps remaining, step.2 = [] := by
  induction steps generalizing remaining with
  | zero =>
    intro step hstep
    cases hstep
  | succ steps ih =>
    intro step hstep
    rw [orderFor] at hstep
    split at hstep
    · cases hstep
    · rename_i m waiting hn
      rcases List.mem_cons.1 hstep with rfl | hstep
      · exact waiting_eq_nil_of_next? h hn
      · exact ih (h.subset List.filter_sublist.subset) step hstep

/-- The fields of a new model are those of its table and those that are added to it. -/
theorem early_append_late_perm (m : Model) (waiting : List String) :
    (early m waiting ++ late m waiting).Perm m.fields.values :=
  List.perm_append_comm.trans (List.filter_append_perm (fun f : Field => waiting.contains f.name) _)

/-- Behind the creation of a model no other one is created that it points at, unless its foreign keys wait. -/
theorem mem_front_of_pointsWithin (hd : (models.map Model.name).Nodup) (h : Straight models)
    {front back : List (Model × List String)} {m : Model} {waiting : List String} {y : String}
    (horder : order models = front ++ (m, waiting) :: back) (hy : PointsWithin models m.name y) :
    ∃ step ∈ front, step.1.name = y := by
  obtain ⟨hne, ⟨m', hm', hname, key, hkey, rfl⟩, htarget⟩ := hy
  have hin : ∀ step ∈ front ++ (m, waiting) :: back, step.1 ∈ models := fun step hstep =>
    (order_perm hd).subset (horder ▸ List.mem_map_of_mem hstep)
  obtain rfl := eq_of_nodup_map hd hm' (hin (m, waiting) (by simp)) hname
  obtain ⟨target, ht, htname⟩ := List.mem_map.1 htarget
  obtain ⟨step, hstep, rfl⟩ := List.mem_map.1 ((order_perm hd).symm.subset ht)
  rw [horder, List.mem_append, List.mem_cons] at hstep
  rcases hstep with hfront | rfl | hback
  · exact ⟨step, hfront, htname⟩
  · exact absurd htname hne
  · have hwaits := order_pairwise models
    rw [horder, List.pairwise_append, List.pairwise_cons] at hwaits
    have hwaiting : waiting = [] := waiting_eq_nil_of_orderFor h (m', waiting) (by
      rw [← order, horder]
      simp)
    have hwait := hwaits.2.1.1 step hback key hkey htname.symm
    rw [hwaiting] at hwait
    cases hwait

end Creation

/-! ### Deletion -/

namespace Deletion
variable {models remaining : List Model} {r r' : Released}

theorem exists_unreferenced (h : Straight remaining) (hne : remaining ≠ []) (r : Released) :
    ∃ m ∈ remaining, isReferenced remaining r m.name = false := by
  obtain ⟨y, hy, hfirst⟩ := exists_first (l := remaining.map Model.name) h (by simpa using hne)
  obtain ⟨m, hm, rfl⟩ := List.mem_map.1 hy
  refine ⟨m, hm, List.any_eq_false.2 fun x hx hreferenced => ?_⟩
  obtain ⟨hother, hkeys⟩ := Bool.and_eq_true_iff.1 hreferenced
  obtain ⟨key, hkey, hbinds⟩ := List.any_eq_true.1 hkeys
  have htarget : key.2.model = m.name := beq_iff_eq.1 (Bool.and_eq_true_iff.1 hbinds).1
  have hpoints : PointsWithin remaining x.name m.name :=
    ⟨of_decide_eq_true hother, ⟨x, hx, rfl, key, hkey, htarget⟩, hy⟩
  exact hfirst _ (List.mem_map_of_mem hx) (.single hpoints)

theorem released_eq_of_next? {name : String} (h : Straight remaining) (hn : next? remaining r = some (name, r')) :
    r' = r := by
  rw [next?] at hn
  split at hn
  · cases hn
    rfl
  · rename_i hnone
    have hne : remaining ≠ [] := by
      intro hnil
      subst hnil
      cases hn
    obtain ⟨m, hm, hfree⟩ := exists_unreferenced h hne r
    exact absurd hfree (by simpa using List.find?_eq_none.1 hnone m hm)

theorem released_eq_of_orderFor {steps : Nat} (h : Straight remaining) (r : Released) :
    (orderFor steps remaining r).2 = r := by
  induction steps generalizing remaining r with
  | zero => rfl
  | succ steps ih =>
    rw [orderFor]
    split
    · rfl
    · rename_i name r' hn
      obtain rfl := released_eq_of_next? h hn
      exact ih (h.subset List.filter_sublist.subset) r'

theorem removed_eq (h : Straight models) : removed models = {} := released_eq_of_orderFor h {}

/-- A model that another one points at is deleted behind it. -/
theorem mem_back_of_pointsWithin (hd : (models.map Model.name).Nodup) (h : Straight models) {front back : List String}
    {x y : String} (hnames : names models = front ++ x :: back) (hy : PointsWithin models x y) : y ∈ back := by
  obtain ⟨hne, ⟨m, hm, rfl, key, hkey, htarget⟩, hin⟩ := hy
  have hmem := (planned hd).perm.symm.subset hin
  rw [hnames, List.mem_append, List.mem_cons] at hmem
  rcases hmem with hfront | he | hback
  · obtain ⟨first, between, rfl⟩ := List.append_of_mem hfront
    rw [List.append_assoc, List.cons_append] at hnames
    have hlater : m ∈ models.filter fun x => (between ++ m.name :: back).contains x.name :=
      List.mem_filter.2 ⟨hm, List.contains_iff_mem.2 (by simp)⟩
    have hfree := (planned hd).settled first y _ hnames m hlater hne key hkey
    rw [removed_eq h] at hfree
    cases Released.binds_eq_false_iff.1 hfree htarget
  · exact absurd he.symm hne
  · exact hback

end Deletion

/-! ### The changes of a difference -/

/-- The model that the change creates. -/
def Change.created? : Change → Option String
  | .createModel n _ => some n
  | _ => none

/-- The model that the change deletes. -/
def Change.deleted? : Change → Option String
  | .deleteModel n => some n
  | _ => none

/-- The field that the change adds to the model of that name. -/
def Change.added? (n : String) : Change → Option Field
  | .addField model f => if model = n then some f else none
  | _ => none

namespace Diff
open Change

/-- New and old models are each accounted for once, and only circles of foreign keys are broken up. -/
structure Sequenced (new gone : List Model) (d : Diff) : Prop where
  created : ∀ n, (d.changes.filterMap created?).count n = if n ∈ new.map Model.name then 1 else 0
  deleted : ∀ n, (d.changes.filterMap deleted?).count n = if n ∈ gone.map Model.name then 1 else 0
  /-- Without a circle, new models have all of their fields from the start. -/
  whole : Straight new → ∀ m ∈ new, ∀ fields, .createModel m.name fields ∈ d.changes → fields = m.fields.values
  /-- Without a circle, new models come behind those that they point at. -/
  behind : Straight new → ∀ x y, PointsWithin new x y → ∀ done fields rest,
    d.changes = done ++ .createModel x fields :: rest → ∃ fields', .createModel y fields' ∈ done
  /-- Without a circle, nothing is taken from old models before they go. -/
  spared : Straight gone → ∀ m ∈ gone,
    (∀ f, .removeField m.name f ∉ d.changes) ∧ ∀ i, .removeIndex m.name i ∉ d.changes
  /-- Without a circle, old models go before those that they point at. -/
  before : Straight gone → ∀ x y, PointsWithin gone x y → ∀ done rest,
    d.changes = done ++ .deleteModel x :: rest → .deleteModel y ∈ rest
  /-- The fields of a new model are those that it is created with and those that are added to it. -/
  shared : ∀ m ∈ new, ∃ fields, .createModel m.name fields ∈ d.changes ∧
    (fields ++ d.changes.filterMap (added? m.name)).Perm m.fields.values

section States
variable {baseline live : State}

theorem filterMap_created? :
    (ofStates baseline live).changes.filterMap created? =
      (Creation.order (createdModelsOf baseline live)).map (·.1.name) := by
  have hrest :
      ((ofStates baseline live).alterations ++ (ofStates baseline live).deletions).filterMap created? = [] := by
    simp [alterations, deletions, List.filterMap_map, Function.comp_def, created?]
  rw [changes_eq, List.filterMap_append, hrest, List.append_nil, creations_ofStates, List.filterMap_map]
  simp [Function.comp_def, created?]

theorem filterMap_deleted? :
    (ofStates baseline live).changes.filterMap deleted? = Deletion.names (deletedModelsOf baseline live) := by
  have hfront :
      ((ofStates baseline live).creations ++ (ofStates baseline live).alterations).filterMap deleted? = [] := by
    simp [creations, alterations, List.filterMap_map, Function.comp_def, deleted?]
  rw [changes_eq, ← List.append_assoc, List.filterMap_append, hfront, List.nil_append, deletions_ofStates,
    List.filterMap_map]
  simp [Function.comp_def, deleted?]

theorem filterMap_added? (d : Diff) (n : String) :
    d.changes.filterMap (added? n) = (d.about n).changes.filterMap (added? n) := by
  rw [← concerning_changes, concerning, List.filterMap_filter]
  refine List.filterMap_congr fun c _ => ?_
  cases c <;> simp [model?, added?]

theorem about_of_created {m : Model} (hm : m ∈ createdModelsOf baseline live) :
    ∃ waiting, (ofStates baseline live).about m.name = Creation.create m waiting := by
  obtain ⟨hnew, hold⟩ := mem_created.1 hm
  have hpart := part_about baseline live m.name
  generalize (ofStates baseline live).about m.name = d at hpart ⊢
  cases hpart with
  | absent _ new => cases hnew.symm.trans new
  | created m' waiting _ new =>
    cases hnew.symm.trans new
    exact ⟨waiting, rfl⟩
  | kept _ _ old => cases hold.symm.trans old
  | deleted _ old => cases hold.symm.trans old

theorem sequenced_ofStates :
    Sequenced (createdModelsOf baseline live) (deletedModelsOf baseline live) (ofStates baseline live) where
  created n := by
    rw [filterMap_created?, nodup_order.count]
    have hperm := (Creation.order_perm (@nodup_created baseline live)).map Model.name
    rw [List.map_map] at hperm
    exact if_congr hperm.mem_iff rfl rfl
  deleted n := by
    have hperm := (Deletion.planned (@nodup_deleted baseline live)).perm
    rw [filterMap_deleted?, (hperm.nodup_iff.2 nodup_deleted).count]
    exact if_congr hperm.mem_iff rfl rfl
  whole h m hm fields hc := by
    obtain ⟨done, rest, hsplit⟩ := List.append_of_mem hc
    obtain ⟨front, m', waiting, back, horder, -, hname, rfl⟩ := order_of_split hsplit
    have hstep : (m', waiting) ∈ Creation.order (createdModelsOf baseline live) := by
      rw [horder]
      simp
    obtain rfl := eq_of_nodup_map nodup_created hm (mem_order hstep) hname
    obtain rfl : waiting = [] := Creation.waiting_eq_nil_of_orderFor h _ hstep
    simp [Creation.early]
  behind h x y hxy done fields rest hsplit := by
    obtain ⟨front, m, waiting, back, horder, rfl, rfl, -⟩ := order_of_split hsplit
    obtain ⟨step, hstep, rfl⟩ := Creation.mem_front_of_pointsWithin nodup_created h horder hxy
    exact ⟨_, List.mem_map_of_mem hstep⟩
  spared h m hm := by
    obtain ⟨hold, hnew⟩ := mem_deleted.1 hm
    have habout := Deletion.changes_about_diff nodup_deleted hm
    rw [Deletion.indexesOf, Deletion.fieldsOf, Deletion.removed_eq h, ← about_of_deleted hold hnew] at habout
    constructor
    · intro f hf
      rw [← mem_about_iff (n := m.name) rfl, habout] at hf
      simp at hf
    · intro i hi
      rw [← mem_about_iff (n := m.name) rfl, habout] at hi
      simp at hi
  before h x y hxy done rest hsplit := by
    obtain ⟨front, back, hnames, rfl⟩ := names_of_split hsplit
    exact List.mem_map_of_mem (Deletion.mem_back_of_pointsWithin nodup_deleted h hnames hxy)
  shared m hm := by
    obtain ⟨waiting, habout⟩ := about_of_created hm
    refine ⟨Creation.early m waiting, ?_, ?_⟩
    · rw [← mem_about_iff (n := m.name) rfl, habout, Creation.changes_create]
      exact List.mem_cons_self ..
    · have hadded : (Creation.create m waiting).changes.filterMap (added? m.name) = Creation.late m waiting := by
        rw [Creation.changes_create]
        simp [List.filterMap_cons, List.filterMap_append, List.filterMap_map, Function.comp_def, added?]
      rw [filterMap_added?, habout, hadded]
      exact Creation.early_append_late_perm m waiting

end States

/-! ### Live models -/

/-- The live models that the baseline does not have. -/
def newModels (baseline : State) (live : List Model) : List Model := live.filter fun m => !baseline.contains m.name

/-- The models of the baseline that are not live. -/
def goneModels (baseline : State) (live : List Model) : List Model :=
  baseline.toList.filter fun m => !live.any (·.name == m.name)

section Live
variable {baseline s : State} {live new new' gone : List Model} {d : Diff}

theorem createdModelsOf_perm (h : State.IsLive live s) : (createdModelsOf baseline s).Perm (newModels baseline live) :=
  h.perm.filter _

theorem deletedModelsOf_eq (h : State.IsLive live s) : deletedModelsOf baseline s = goneModels baseline live := by
  refine List.filter_congr fun m _ => congrArg _ (Bool.eq_iff_iff.2 ?_)
  rw [Ascending.contains_iff, (h.perm.map Model.name).mem_iff, List.any_eq_true, List.mem_map]
  simp only [beq_iff_eq]

theorem Sequenced.of_perm (h : Sequenced new gone d) (hperm : new.Perm new') : Sequenced new' gone d := by
  have hpoints : PointsWithin new = PointsWithin new' := by
    funext x y
    simp only [PointsWithin, hperm.mem_iff, (hperm.map Model.name).mem_iff]
  have hstraight : Straight new = Straight new' := by simp only [Straight, hpoints]
  refine { h with created := ?_, whole := ?_, behind := ?_, shared := ?_ }
  · simpa only [(hperm.map Model.name).mem_iff] using h.created
  · simpa only [hstraight, hperm.mem_iff] using h.whole
  · simpa only [hstraight, hpoints] using h.behind
  · simpa only [hperm.mem_iff] using h.shared

/-- **Only circles are broken up.** A difference with live models creates each new model once and deletes each old one
once. New models whose foreign keys do not run in a circle are created with all of their fields, behind the new models
that they point at, and old ones lose nothing before they go, ahead of the old models that they point at. In a circle
or not, no field of a new model is lost or made twice. -/
theorem sequenced_of_between (baseline : State) (live : List Model) (d : Diff) (h : between baseline live = .ok d) :
    Sequenced (newModels baseline live) (goneModels baseline live) d := by
  obtain ⟨s, hlive, -, rfl⟩ := eq_ofStates_of_between h
  have hsequenced := @sequenced_ofStates baseline s
  rw [deletedModelsOf_eq hlive] at hsequenced
  exact hsequenced.of_perm (createdModelsOf_perm hlive)

end Live

/-- Old models, one of which points at itself, at another one and at one that stays. -/
def sampleGone : List Model :=
  [.ofFields "user" [.autoKey "id"], .ofFields "log" [.autoKey "id", sampleKey "user" "user"],
    .ofFields "entry" [.autoKey "id", sampleKey "log" "log", sampleKey "user" "user", sampleKey "parent" "entry"]]

/-- New models that point at each other as the old ones do. -/
def sampleNew : List Model :=
  [.ofFields "user" [.autoKey "id"], .ofFields "post" [.autoKey "id", sampleKey "user" "user"],
    .ofFields "comment" [.autoKey "id", sampleKey "post" "post", sampleKey "user" "user", sampleKey "parent" "comment"]]

/-- A comment comes behind its post, though its name comes first, and an entry goes ahead of its log. -/
theorem sequenced_of_between_sample :
    let new := newModels (.ofModels sampleGone) sampleNew
    let gone := goneModels (.ofModels sampleGone) sampleNew
    Straight new ∧ PointsWithin new "comment" "post" ∧ Straight gone ∧ PointsWithin gone "entry" "log" ∧
      ∃ d, between (.ofModels sampleGone) sampleNew = .ok d ∧ Sequenced new gone d ∧ d.changes.length = 4 := by
  intro new gone
  obtain ⟨d, hd⟩ : ∃ d, between (.ofModels sampleGone) sampleNew = .ok d := ⟨_, rfl⟩
  have hsequenced := sequenced_of_between _ _ d hd
  refine ⟨straight_of_lt String.length (by decide), by decide, straight_of_lt String.length (by decide), by decide,
    d, hd, hsequenced, ?_⟩
  cases hd
  decide

end Diff

end Schemata
