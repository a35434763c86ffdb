import Mathlib.Data.List.Chain
import Schemata.Proofs.History.Growth

/-! What is wrong with a history that has no chain.

The faults of a history are told by its migrations alone: which parents are missing (`Lacks`), which migrations come
back to themselves from parent to parent (`Circular`), and which are nobody's parent (`IsHead`). What
`Chain.resolve` complains of is the first of these that there is, in an order of names, so the order of the
migrations and the migrations of other engines leave no trace in it (`resolve_faults`).

A way from parent to parent that meets a name again goes round from there, for a migration has one parent. Hence
the part of the way between the two meetings is a circle, and no other name is on it twice. -/
namespace Schemata.Chain

/-! ### Faults -/

/-- The migrations of the engine, in the order in which they come. -/
def own (engine : String) (migrations : List Migration) : List Migration :=
  migrations.filter (·.database == engine)

section Faults
variable (l : List Migration)

/-- The migration of that name is built on `parent`. -/
def BuiltOn (name parent : String) : Prop := ∃ m ∈ l, m.name = name ∧ m.parent = some parent

/-- The parent of the migration is not among the others. -/
def Lacks (m : Migration) (parent : String) : Prop := m.parent = some parent ∧ parent ∉ l.map (·.name)

/-- Some migration comes back to itself from parent to parent. -/
def Circular : Prop := ∃ m ∈ l, Relation.TransGen (BuiltOn l) m.name m.name

/-- A way from a migration to itself, from parent to parent, with no other one on it twice. -/
def IsCircle (path : List String) : Prop :=
  ∃ name between, path = name :: between ++ [name] ∧ (name :: between).Nodup ∧ path.IsChain (BuiltOn l)

/-- The way from `start` from parent to parent comes to the first name of `path` and goes round once, with no name on it
twice but that one. -/
def RunsInto (start : String) (path : List String) : Prop :=
  ∃ front name between, path = name :: between ++ [name] ∧ (front ++ name :: between).Nodup ∧
    (front ++ path).IsChain (BuiltOn l) ∧ (front ++ path).head? = some start

/-- The name is that of a migration that none is built on. -/
def IsHead (name : String) : Prop := name ∈ l.map (·.name) ∧ ∀ m ∈ l, m.parent ≠ some name

end Faults

section Order
variable {l l' : List Migration} (h : l.Perm l')
include h

theorem builtOn_of_perm : BuiltOn l = BuiltOn l' := by
  funext name parent
  simp only [BuiltOn, h.mem_iff]

theorem lacks_of_perm : Lacks l = Lacks l' := by
  funext m parent
  simp only [Lacks, (h.map (·.name)).mem_iff]

theorem circular_of_perm : Circular l = Circular l' := by
  simp only [Circular, builtOn_of_perm h, h.mem_iff]

theorem isCircle_of_perm : IsCircle l = IsCircle l' := by
  funext path
  simp only [IsCircle, builtOn_of_perm h]

theorem isHead_of_perm : IsHead l = IsHead l' := by
  funext name
  simp only [IsHead, (h.map (·.name)).mem_iff, h.mem_iff]

end Order

/-! ### Walks that leave no choice -/

section Walks
variable {α : Type} {R : α → α → Prop} {x y : α} {a b : List α}

theorem transGen_of_isChain (h : (x :: a ++ [y]).IsChain R) : Relation.TransGen R x y := by
  induction a generalizing x with
  | nil => exact .single (List.isChain_pair.1 h)
  | cons z a ih =>
    obtain ⟨hstep, hrest⟩ := List.isChain_cons_cons.1 h
    exact .trans (.single hstep) (ih hrest)

variable (hR : ∀ a b c, R a b → R a c → b = c)
include hR

/-- Two walks to the first meeting with `y` are one. -/
theorem unique_walk (ha : (x :: a ++ [y]).IsChain R) (hb : (x :: b ++ [y]).IsChain R) (hya : y ∉ a) (hyb : y ∉ b) :
    a = b := by
  induction a generalizing x b with
  | nil =>
    cases b with
    | nil => rfl
    | cons z b =>
      have hz := hR _ _ _ (List.isChain_pair.1 ha) (List.isChain_cons_cons.1 hb).1
      exact absurd (hz ▸ List.mem_cons_self) hyb
  | cons z a ih =>
    obtain ⟨hstep, hrest⟩ := List.isChain_cons_cons.1 ha
    cases b with
    | nil =>
      have hz := hR _ _ _ (List.isChain_pair.1 hb) hstep
      exact absurd (hz ▸ List.mem_cons_self) hya
    | cons w b =>
      obtain ⟨hstep', hrest'⟩ := List.isChain_cons_cons.1 hb
      obtain rfl := hR _ _ _ hstep hstep'
      rw [List.mem_cons, not_or] at hya hyb
      rw [ih hrest hrest' hya.2 hyb.2]

/-- On the walk to the first meeting with `y` nothing is met twice. -/
theorem nodup_walk (h : (a ++ [y]).IsChain R) (hy : y ∉ a) : a.Nodup := by
  induction a with
  | nil => exact .nil
  | cons x a ih =>
    rw [List.mem_cons, not_or] at hy
    refine List.nodup_cons.2 ⟨fun hx => ?_, ih h.tail hy.2⟩
    obtain ⟨front, back, rfl⟩ := List.append_of_mem hx
    -- the walk from where `x` is met again would be as long as the walk from its first meeting
    have hlater : (x :: back ++ [y]).IsChain R := by
      rw [← List.cons_append, List.append_assoc] at h
      exact h.right_of_append
    have hback : y ∉ back := fun hin => hy.2 (List.mem_append_right _ (List.mem_cons_of_mem _ hin))
    have hsame := congrArg List.length (unique_walk hR h hlater hy.2 hback)
    rw [List.length_append, List.length_cons] at hsame
    omega

end Walks

/-! ### Circles -/

section Circles
variable {known : Migrations}

theorem parentOf_eq_some_iff {name parent : String} :
    parentOf known name = some parent ↔ BuiltOn known.toList name parent := by
  rw [parentOf, Option.bind_eq_some_iff]
  simp only [Ascending.find?_eq_some_iff, BuiltOn, and_assoc]

theorem BuiltOn.unique {a b c : String} (hb : BuiltOn known.toList a b) (hc : BuiltOn known.toList a c) : b = c :=
  Option.some.inj ((parentOf_eq_some_iff.2 hb).symm.trans (parentOf_eq_some_iff.2 hc))

theorem isChain_lineage {steps : Nat} {name : String} :
    (lineage known steps name).IsChain (BuiltOn known.toList) := by
  induction steps generalizing name with
  | zero => exact .nil
  | succ steps ih =>
    rw [lineage]
    cases hp : parentOf known name with
    | none => exact .singleton name
    | some parent =>
      refine List.isChain_cons.2 ⟨fun y hy => ?_, ih⟩
      cases steps with
      | zero => cases hy
      | succ steps =>
        cases hy
        exact parentOf_eq_some_iff.1 hp

theorem of_firstLoop? {l path : List String} (h : firstLoop? l = some path) :
    ∃ front name between back, l = front ++ (name :: between ++ [name]) ++ back ∧ path = name :: between ++ [name] ∧
      name ∉ between ∧ (between.Nodup → (front ++ name :: between).Nodup) := by
  induction l with
  | nil => cases h
  | cons name rest ih =>
    rw [firstLoop?] at h
    split at h
    · rename_i hmem
      cases h
      obtain ⟨between, back, rfl, hnew⟩ := List.eq_append_cons_of_mem (List.contains_iff_mem.1 hmem)
      have hwalk : (between ++ name :: back).takeWhile (· ≠ name) = between := by
        have hother : ∀ x ∈ between, decide (x ≠ name) = true := fun x hx =>
          decide_eq_true fun he => hnew (he ▸ hx)
        rw [List.takeWhile_append_of_pos hother]
        simp
      exact ⟨[], name, between, back, by simp, by rw [hwalk], hnew,
        fun hbetween => List.nodup_cons.2 ⟨hnew, hbetween⟩⟩
    · rename_i hnot
      obtain ⟨front, x, between, back, rfl, hpath, hnew, hnodup⟩ := ih h
      refine ⟨name :: front, x, between, back, rfl, hpath, hnew, fun hbetween => ?_⟩
      refine List.nodup_cons.2 ⟨fun hin => hnot (List.contains_iff_mem.2 ?_), hnodup hbetween⟩
      rw [← List.append_assoc]
      exact List.mem_append_left _ (List.mem_append_left _ hin)

/-- What the search for circles finds is where the way from a migration runs into. -/
theorem runsInto_of_loopFrom? {name : String} {path : List String} (h : loopFrom? known name = some path) :
    RunsInto known.toList name path := by
  obtain ⟨front, x, between, back, hsplit, rfl, hnew, hnodup⟩ := of_firstLoop? h
  have hwhole : (lineage known (known.size + 1) name).IsChain (BuiltOn known.toList) := isChain_lineage
  have hhead : (lineage known (known.size + 1) name).head? = some name := rfl
  rw [hsplit] at hwhole hhead
  have hway := hwhole.left_of_append
  have hbetween := nodup_walk (R := BuiltOn known.toList) (fun _ _ _ => BuiltOn.unique) hway.right_of_append.tail hnew
  refine ⟨front, x, between, rfl, hnodup hbetween, hway, ?_⟩
  rwa [List.head?_append_of_ne_nil _ (by simp)] at hhead

theorem RunsInto.isCircle {l : List Migration} {start : String} {path : List String} (h : RunsInto l start path) :
    IsCircle l path := by
  obtain ⟨front, name, between, rfl, hnodup, hway, -⟩ := h
  exact ⟨name, between, rfl, (List.nodup_append.1 hnodup).2.1, hway.right_of_append⟩

theorem circular_of_isCircle {l : List Migration} {path : List String} (h : IsCircle l path) : Circular l := by
  obtain ⟨name, between, rfl, -, hway⟩ := h
  obtain ⟨m, hm, rfl⟩ : ∃ m ∈ l, m.name = name := by
    cases between with
    | nil =>
      obtain ⟨m, hm, hname, -⟩ := List.isChain_pair.1 hway
      exact ⟨m, hm, hname⟩
    | cons x between =>
      obtain ⟨m, hm, hname, -⟩ := (List.isChain_cons_cons.1 hway).1
      exact ⟨m, hm, hname⟩
  exact ⟨m, hm, transGen_of_isChain hway⟩

/-- The way to a parent is shorter. -/
theorem Ascent.shorter {m : Migration} {path : List Migration} {name : String} (h : Ascent known m path)
    (hm : m ∈ known.toList) (hr : Relation.TransGen (BuiltOn known.toList) m.name name) :
    ∃ x ∈ known.toList, x.name = name ∧ ∃ front, Ascent known x front ∧ front.length < path.length := by
  have hstep : ∀ {x : Migration} {front : List Migration} {y : String}, Ascent known x front → x ∈ known.toList →
      BuiltOn known.toList x.name y →
        ∃ p ∈ known.toList, p.name = y ∧ ∃ shorter, Ascent known p shorter ∧ shorter.length < front.length := by
    intro x front y ha hx hbuilt
    obtain ⟨x', hx', hname, hparent⟩ := hbuilt
    obtain rfl := Ascending.eq_of_key_eq hx' hx hname
    cases ha with
    | root hroot => cases hroot.symm.trans hparent
    | step hp hin ha =>
      refine ⟨_, hin, Option.some.inj (hp.symm.trans hparent), _, ha, ?_⟩
      rw [List.length_append]
      exact Nat.lt_succ_self _
  induction hr with
  | single hbuilt => exact hstep h hm hbuilt
  | tail _ hbuilt ih =>
    obtain ⟨x, hx, rfl, front, ha, hlt⟩ := ih
    obtain ⟨p, hp, hname, shorter, ha', hlt'⟩ := hstep ha hx hbuilt
    exact ⟨p, hp, hname, shorter, ha', Nat.lt_trans hlt' hlt⟩

theorem not_circular_of_acyclic (hc : Closed known) (hac : Acyclic known) : ¬ Circular known.toList := by
  intro hcircular
  obtain ⟨m, hm, hr⟩ := hcircular
  obtain ⟨path, ha⟩ := exists_ascent hc hac hm
  obtain ⟨x, hx, hname, front, ha', hlt⟩ := ha.shorter hm hr
  obtain rfl := Ascending.eq_of_key_eq hx hm hname
  exact absurd hlt (ha'.unique ha ▸ Nat.lt_irrefl _)

theorem circular_of_not_acyclic (h : ¬ Acyclic known) : Circular known.toList := by
  rw [← @firstCycle?_eq_none_iff "", firstCycle?, Option.map_eq_none_iff] at h
  obtain ⟨path, hpath⟩ := Option.ne_none_iff_exists'.1 h
  obtain ⟨m, -, hm⟩ := List.exists_of_findSome?_eq_some hpath
  exact circular_of_isCircle (runsInto_of_loopFrom? hm).isCircle

/-- A head comes to all that it is built on. -/
theorem Ascent.reaches {m x : Migration} {path : List Migration} (h : Ascent known m path) (hm : m ∈ known.toList)
    (hx : x ∈ path) : m.name = x.name ∨ Relation.TransGen (BuiltOn known.toList) m.name x.name := by
  induction h with
  | root => exact .inl (congrArg _ (List.mem_singleton.1 hx).symm)
  | @step m parent path hparent hp _ ih =>
    have hstep : BuiltOn known.toList m.name parent.name := ⟨m, hm, rfl, hparent⟩
    rcases List.mem_append.1 hx with hx | hx
    · rcases ih hp hx with he | hr
      · exact .inr (he ▸ .single hstep)
      · exact .inr (.trans (.single hstep) hr)
    · exact .inl (congrArg _ (List.mem_singleton.1 hx).symm)

end Circles

/-! ### What is complained of -/

section Complaints
variable {engine : String} {known : Migrations}

theorem missingParent?_eq_some_iff {m : Migration} {parent : String} :
    missingParent? known m = some parent ↔ Lacks known.toList m parent := by
  rw [missingParent?, Option.filter_eq_some_iff, Bool.not_eq_true', Ascending.contains_eq_false_iff]
  rfl

theorem closed_iff : Closed known ↔ ∀ m ∈ known.toList, ∀ parent, ¬ Lacks known.toList m parent := by
  simp only [Closed, Lacks, not_and, not_not, Ascending.contains_iff]

theorem lt_of_compare {a b : String} (h : compare a b = .lt) : a < b := compareOfLessAndEq_eq_lt.1 h

/-- Of several migrations whose parent is missing, the first by name is complained of. -/
theorem ofKnown_of_lacks (h : ∃ m ∈ known.toList, ∃ parent, Lacks known.toList m parent) :
    ∃ m ∈ known.toList, ∃ parent, Lacks known.toList m parent ∧
      (∀ x ∈ known.toList, ∀ p, Lacks known.toList x p → m.name ≤ x.name) ∧
      ofKnown engine known = .error (.missingDependency engine m.name parent) := by
  have hsome : firstMissing? engine known ≠ none := by
    rw [ne_eq, firstMissing?_eq_none_iff, closed_iff]
    obtain ⟨m, hm, parent, hlacks⟩ := h
    exact fun hnone => hnone m hm parent hlacks
  obtain ⟨failure, hfailure⟩ := Option.ne_none_iff_exists'.1 hsome
  obtain ⟨front, m, back, hsplit, hm, hfront⟩ := List.findSome?_eq_some_iff.1 hfailure
  obtain ⟨parent, hparent, rfl⟩ := Option.map_eq_some_iff.1 hm
  refine ⟨m, by simp [hsplit], parent, missingParent?_eq_some_iff.1 hparent, fun x hx p hlacks => ?_, ?_⟩
  · have hsorted := known.ascending
    rw [hsplit, List.pairwise_append, List.pairwise_cons] at hsorted
    rw [hsplit, List.mem_append, List.mem_cons] at hx
    rcases hx with hx | rfl | hx
    · have hnone := hfront x hx
      rw [missingParent?_eq_some_iff.2 hlacks] at hnone
      cases hnone
    · exact String.le_refl _
    · exact Std.le_of_lt (lt_of_compare (hsorted.2.1.1 x hx))
  · simp [ofKnown, hfailure]

theorem ofKnown_of_circular (engine : String) (hc : Closed known) (h : Circular known.toList) :
    ∃ path, IsCircle known.toList path ∧ ofKnown engine known = .error (.cycle engine path) := by
  have hsome : firstCycle? engine known ≠ none := fun hnone =>
    not_circular_of_acyclic hc (firstCycle?_eq_none_iff.1 hnone) h
  obtain ⟨failure, hfailure⟩ := Option.ne_none_iff_exists'.1 hsome
  obtain ⟨path, hpath, rfl⟩ := Option.map_eq_some_iff.1 hfailure
  obtain ⟨m, -, hm⟩ := List.exists_of_findSome?_eq_some hpath
  refine ⟨path, (runsInto_of_loopFrom? hm).isCircle, ?_⟩
  have hmissing : firstMissing? engine known = none := firstMissing?_eq_none_iff.2 hc
  simp [ofKnown, hmissing, hfailure]

theorem mem_names_heads {name : String} : name ∈ (heads known).map (·.name) ↔ IsHead known.toList name := by
  rw [List.mem_map, IsHead, List.mem_map]
  constructor
  · intro hname
    obtain ⟨m, hm, rfl⟩ := hname
    obtain ⟨hin, hnone⟩ := mem_heads.1 hm
    exact ⟨⟨m, hin, rfl⟩, hnone⟩
  · intro hhead
    obtain ⟨⟨m, hin, rfl⟩, hnone⟩ := hhead
    exact ⟨m, mem_heads.2 ⟨hin, hnone⟩, rfl⟩

theorem pairwise_names_heads : ((heads known).map (·.name)).Pairwise (· < ·) :=
  List.pairwise_map.2 ((known.ascending.sublist List.filter_sublist).imp lt_of_compare)

/-- Without missing parents and circles, every migration leads up to a head, and several heads are complained of. -/
theorem ofKnown_of_acyclic (engine : String) (hc : Closed known) (h : ¬ Circular known.toList) :
    (ofKnown engine known = .error (.multipleHeads engine ((heads known).map (·.name))) ↔ 2 ≤ (heads known).length) ∧
      ((heads known).length < 2 → ∃ chain, ofKnown engine known = .ok chain) ∧
      ∀ m ∈ known.toList, ∃ head ∈ heads known,
        head.name = m.name ∨ Relation.TransGen (BuiltOn known.toList) head.name m.name := by
  have hac : Acyclic known := Classical.byContradiction fun hnot => h (circular_of_not_acyclic hnot)
  have hmissing : firstMissing? engine known = none := firstMissing?_eq_none_iff.2 hc
  have hcycle : firstCycle? engine known = none := firstCycle?_eq_none_iff.2 hac
  refine ⟨?_, ?_, fun m hm => ?_⟩
  · rcases hheads : heads known with _ | ⟨head, _ | ⟨other, rest⟩⟩ <;>
      simp [ofKnown, hmissing, hcycle, hheads]
  · rcases hheads : heads known with _ | ⟨head, _ | ⟨other, rest⟩⟩ <;>
      simp [ofKnown, hmissing, hcycle, hheads]
  · obtain ⟨path, ha⟩ := exists_ascent hc hac hm
    obtain ⟨head, hhead, whole, hwhole, hpre⟩ := exists_head hm ha
    exact ⟨head, hhead, hwhole.reaches (mem_heads.1 hhead).1 (hpre.subset ha.mem_self)⟩

theorem ofKnown_ne_cycle (engine : String) (hc : Closed known) (h : ¬ Circular known.toList) (path : List String) :
    ofKnown engine known ≠ .error (.cycle engine path) := by
  intro hpath
  obtain ⟨hheads, hchain, -⟩ := ofKnown_of_acyclic engine hc h
  rcases Nat.lt_or_ge (heads known).length 2 with hfew | hmany
  · obtain ⟨chain, hok⟩ := hchain hfew
    cases hpath.symm.trans hok
  · cases hpath.symm.trans (hheads.2 hmany)

end Complaints

/-! ### The order of the migrations -/

section Resolve
variable {engine : String} {migrations migrations' : List Migration}

theorem exists_resolve_eq (h : ((own engine migrations).map (·.name)).Nodup) :
    ∃ known : Migrations, known.toList.Perm (own engine migrations) ∧
      resolve engine migrations = ofKnown engine known := by
  obtain ⟨known, hknown⟩ : ∃ known, byName engine (own engine migrations) = .ok known := exists_byName h
  refine ⟨known, byName_perm hknown, ?_⟩
  rw [resolve, show byName engine (migrations.filter (·.database == engine)) = .ok known from hknown]
  rfl

/-- **What is wrong with a history is a matter of its migrations alone**, not of their order or of other engines.
A missing parent is complained of first, at the least name; then a circle, exactly when some migration comes back
to itself; then several heads, all of them in order, and every migration is a head or below one. -/
theorem resolve_faults (engine : String) (migrations : List Migration)
    (hnames : ((own engine migrations).map (·.name)).Nodup) :
    let l := own engine migrations
    (∀ migrations', (own engine migrations').Perm l → resolve engine migrations' = resolve engine migrations) ∧
    ((∃ m ∈ l, ∃ parent, Lacks l m parent) → ∃ m ∈ l, ∃ parent, Lacks l m parent ∧
      (∀ x ∈ l, ∀ p, Lacks l x p → m.name ≤ x.name) ∧
      resolve engine migrations = .error (.missingDependency engine m.name parent)) ∧
    ((∀ m ∈ l, ∀ parent, ¬ Lacks l m parent) →
      ((∃ path, resolve engine migrations = .error (.cycle engine path)) ↔ Circular l) ∧
      (∀ path, resolve engine migrations = .error (.cycle engine path) → IsCircle l path) ∧
      (¬ Circular l → ∃ heads : List String, heads.Pairwise (· < ·) ∧ (∀ name, name ∈ heads ↔ IsHead l name) ∧
        (resolve engine migrations = .error (.multipleHeads engine heads) ↔ 2 ≤ heads.length) ∧
        (heads.length < 2 → ∃ chain, resolve engine migrations = .ok chain) ∧
        ∀ m ∈ l, ∃ head ∈ heads, head = m.name ∨ Relation.TransGen (BuiltOn l) head m.name)) := by
  intro l
  obtain ⟨known, hperm, hresolve⟩ := exists_resolve_eq hnames
  rw [hresolve]
  refine ⟨fun migrations' hl => ?_, ?_, ?_⟩
  · obtain ⟨known', hperm', hresolve'⟩ := exists_resolve_eq ((hl.map _).nodup_iff.2 hnames)
    rw [hresolve', Ascending.ext_perm (hperm'.trans (hl.trans hperm.symm))]
  · rw [← lacks_of_perm hperm]
    simp only [l, ← hperm.mem_iff]
    exact ofKnown_of_lacks
  · rw [← lacks_of_perm hperm, ← circular_of_perm hperm, ← isCircle_of_perm hperm, ← isHead_of_perm hperm,
      ← builtOn_of_perm hperm]
    simp only [l, ← hperm.mem_iff]
    intro hlacks
    have hc := closed_iff.2 hlacks
    by_cases hcircular : Circular known.toList
    · obtain ⟨path, hcircle, hpath⟩ := ofKnown_of_circular engine hc hcircular
      refine ⟨⟨fun _ => hcircular, fun _ => ⟨path, hpath⟩⟩, fun path' hpath' => ?_, absurd hcircular⟩
      cases hpath.symm.trans hpath'
      exact hcircle
    · obtain ⟨hheads, hchain, habove⟩ := ofKnown_of_acyclic engine hc hcircular
      have hno := ofKnown_ne_cycle engine hc hcircular
      refine ⟨⟨fun ⟨path, hpath⟩ => absurd hpath (hno path), fun hin => absurd hin hcircular⟩,
        fun path hpath => absurd hpath (hno path), fun _ => ⟨(heads known).map (·.name), pairwise_names_heads,
          fun _ => mem_names_heads, ?_, ?_, fun m hm => ?_⟩⟩
      · rwa [List.length_map]
      · rwa [List.length_map]
      · obtain ⟨head, hhead, hleads⟩ := habove m hm
        exact ⟨head.name, List.mem_map_of_mem hhead, hleads⟩

/-- A circle with a migration built on it, and one of another engine between them: the circle is complained of, from
the least name that leads into it, and in the other order as well. -/
theorem resolve_faults_sample :
    let migrations : List Migration := [⟨"d", "main", some "b", []⟩, ⟨"a", "main", some "c", []⟩,
      ⟨"b", "other", some "z", []⟩, ⟨"b", "main", some "a", []⟩, ⟨"c", "main", some "b", []⟩]
    ((own "main" migrations).map (·.name)).Nodup ∧
      resolve "main" migrations = .error (.cycle "main" ["a", "c", "b", "a"]) ∧
      resolve "main" migrations.reverse = .error (.cycle "main" ["a", "c", "b", "a"]) ∧
      IsCircle (own "main" migrations) ["a", "c", "b", "a"] := by
  intro migrations
  have hnames : ((own "main" migrations).map (·.name)).Nodup := by decide
  obtain ⟨horder, -, hfaults⟩ := resolve_faults "main" migrations hnames
  have hlacks : ∀ m ∈ own "main" migrations, ∀ parent, ¬ Lacks (own "main" migrations) m parent := by
    simp [own, Lacks, migrations]
  have hcycle : resolve "main" migrations = .error (.cycle "main" ["a", "c", "b", "a"]) := by rfl
  refine ⟨hnames, hcycle, ?_, (hfaults hlacks).2.1 _ hcycle⟩
  rw [horder _ ((List.reverse_perm migrations).filter _), hcycle]

end Resolve

end Schemata.Chain
