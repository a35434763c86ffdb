import Schemata.History.Chain
import Schemata.Proofs.Collection

/-! Which histories have a chain.

A history is linear when its migrations can be put in a row, each built on the one before it and the first
on none. `resolve_eq_ok_iff` says that `Chain.resolve` finds this row exactly when there is one, whatever
the order in which the migrations come.

The row is walked from its end. A walk by parents (`Ascent`) has no bound of its own: it comes to an end
because a walk that does not would meet a name again, and that was looked for before. That the walk from
the only head passes through every migration follows from the walks being parts of longer ones, up to
those that start at a head. -/
namespace Schemata.Chain

/-! ### Rows of migrations -/

/-- Each migration is built on the one before it, the first one on `parent`. -/
def Linear (parent : Option String) : List Migration → Prop
  | [] => True
  | m :: rest => m.parent = parent ∧ Linear (some m.name) rest

instance decidableLinear : (parent : Option String) → (l : List Migration) → Decidable (Linear parent l)
  | _, [] => isTrue trivial
  | parent, m :: rest =>
    have := decidableLinear (some m.name) rest
    inferInstanceAs (Decidable (m.parent = parent ∧ Linear (some m.name) rest))

theorem linear_snoc {parent : Option String} {path : List Migration} {last m : Migration}
    (h : Linear parent path) (hlast : path.getLast? = some last) (hm : m.parent = some last.name) :
    Linear parent (path ++ [m]) := by
  induction path generalizing parent with
  | nil => simp at hlast
  | cons x rest ih =>
    refine ⟨h.1, ?_⟩
    cases rest with
    | nil =>
      obtain rfl : x = last := by simpa using hlast
      exact ⟨hm, trivial⟩
    | cons y rest => exact ih h.2 (by simpa using hlast)

/-! ### Walks by parents -/

/-- The way from a first migration to `m`, which is found by going from `m` to its parent and on. -/
inductive Ascent (known : Migrations) : Migration → List Migration → Prop
  | root {m} : m.parent = none → Ascent known m [m]
  | step {m parent path} : m.parent = some parent.name → parent ∈ known.toList →
      Ascent known parent path → Ascent known m (path ++ [m])

namespace Ascent
variable {known : Migrations} {m : Migration} {path : List Migration}

theorem linear (h : Ascent known m path) : Linear none path ∧ path.getLast? = some m := by
  induction h with
  | root hm => exact ⟨⟨hm, trivial⟩, rfl⟩
  | step hm _ _ ih => exact ⟨linear_snoc ih.1 ih.2 hm, by simp⟩

theorem mem_self (h : Ascent known m path) : m ∈ path := List.mem_of_getLast? h.linear.2

theorem subset (h : Ascent known m path) (hm : m ∈ known.toList) : path ⊆ known.toList := by
  induction h with
  | root => simpa using hm
  | step _ hp _ ih =>
    intro x hx
    rcases List.mem_append.1 hx with hx | hx
    · exact ih hp hx
    · rw [List.mem_singleton.1 hx]
      exact hm

/-- There is one way only. -/
theorem unique {path' : List Migration} (h : Ascent known m path) (h' : Ascent known m path') :
    path = path' := by
  induction h generalizing path' with
  | root hm =>
    cases h' with
    | root => rfl
    | step hp => exact absurd (hm.symm.trans hp) (by simp)
  | step hm hp _ ih =>
    cases h' with
    | root hm' => exact absurd (hm'.symm.trans hm) (by simp)
    | step hm' hp' ha' =>
      have hname := Option.some.inj (hm.symm.trans hm')
      obtain rfl := Ascending.eq_of_key_eq hp hp' hname
      rw [ih ha']

/-- The ways to the migrations on the way are the beginnings of it. -/
theorem of_mem {x : Migration} (h : Ascent known m path) (hx : x ∈ path) :
    ∃ front, Ascent known x front ∧ front <+: path := by
  induction h with
  | root hm =>
    rw [List.mem_singleton.1 hx]
    exact ⟨_, .root hm, List.prefix_rfl⟩
  | @step m parent path hm hp ha ih =>
    rcases List.mem_append.1 hx with hx | hx
    · obtain ⟨front, hfront, hpre⟩ := ih hx
      exact ⟨front, hfront, hpre.trans (List.prefix_append _ _)⟩
    · rw [List.mem_singleton.1 hx]
      exact ⟨_, .step hm hp ha, List.prefix_rfl⟩

theorem nodup (h : Ascent known m path) : path.Nodup := by
  induction h with
  | root => simp
  | @step m parent path hm hp ha ih =>
    rw [List.nodup_append]
    refine ⟨ih, by simp, ?_⟩
    intro x hx y hy he
    rw [he, List.mem_singleton.1 hy] at hx
    -- a way that comes by its own end would be its own beginning
    obtain ⟨front, hfront, hpre⟩ := ha.of_mem hx
    have hlen := hpre.length_le
    rw [hfront.unique (.step hm hp ha), List.length_append, List.length_singleton] at hlen
    omega

theorem length_le (h : Ascent known m path) (hm : m ∈ known.toList) : path.length ≤ known.size :=
  h.nodup.length_le_of_subset (h.subset hm)

/-- The bounded walk follows the way, when it may take enough steps. -/
theorem ancestry_eq {steps : Nat} (h : Ascent known m path) (hs : path.length ≤ steps) :
    ancestry known steps m = path := by
  induction h generalizing steps with
  | root hm =>
    cases steps with
    | zero => simp at hs
    | succ steps => simp [ancestry, hm]
  | step hm hp _ ih =>
    cases steps with
    | zero => simp at hs
    | succ steps =>
      have hfind := Ascending.find?_of_mem hp
      simp only [ancestry, hm, Option.bind_some, hfind]
      rw [ih (by simpa using hs)]

theorem lineage_eq {steps : Nat} (h : Ascent known m path) (hm : m ∈ known.toList)
    (hs : path.length ≤ steps) : lineage known steps m.name = (path.map (·.name)).reverse := by
  induction h generalizing steps with
  | root hroot =>
    cases steps with
    | zero => simp at hs
    | succ steps => simp [lineage, parentOf, Ascending.find?_of_mem hm, hroot]
  | step hparent hp _ ih =>
    cases steps with
    | zero => simp at hs
    | succ steps =>
      have hfind := Ascending.find?_of_mem hm
      simp only [lineage, parentOf, hfind, Option.bind_some, hparent]
      rw [ih hp (by simpa using hs), List.map_append, List.reverse_append]
      rfl

/-- A migration built on `m` is at the end of a way that is longer by one. -/
theorem child {x : Migration} (h : Ascent known m path) (hm : m ∈ known.toList)
    (hx : x.parent = some m.name) : Ascent known x (path ++ [x]) := .step hx hm h

end Ascent

/-! ### Walks that come to an end -/

/-- Every parent that is named is there. -/
def Closed (known : Migrations) : Prop :=
  ∀ m ∈ known.toList, ∀ parent, m.parent = some parent → known.contains parent = true

theorem firstMissing?_eq_none_iff {engine : String} {known : Migrations} :
    firstMissing? engine known = none ↔ Closed known := by
  simp only [firstMissing?, List.findSome?_eq_none_iff, Option.map_eq_none_iff, missingParent?,
    Option.filter_eq_none_iff, Closed, Bool.not_eq_true', Bool.not_eq_false]

theorem firstLoop?_eq_none_iff {l : List String} : firstLoop? l = none ↔ l.Nodup := by
  induction l with
  | nil => simp [firstLoop?]
  | cons name rest ih =>
    simp only [firstLoop?, List.contains_iff_mem, List.nodup_cons]
    split
    · rename_i hmem
      simp [hmem]
    · rename_i hmem
      rw [ih]
      simp [hmem]

/-- What the search for circles looks for: a name that is met again. -/
def Acyclic (known : Migrations) : Prop :=
  ∀ m ∈ known.toList, (lineage known (known.size + 1) m.name).Nodup

theorem firstCycle?_eq_none_iff {engine : String} {known : Migrations} :
    firstCycle? engine known = none ↔ Acyclic known := by
  simp only [firstCycle?, Option.map_eq_none_iff, List.findSome?_eq_none_iff, loopFrom?,
    firstLoop?_eq_none_iff, Acyclic]

section Walks
variable {known : Migrations}

theorem exists_parent (hc : Closed known) {m : Migration} (hm : m ∈ known.toList) {name : String}
    (h : m.parent = some name) : ∃ parent ∈ known.toList, parent.name = name := by
  have hin := hc m hm name h
  rw [Ascending.contains_iff, List.mem_map] at hin
  exact hin

theorem lineage_cons {steps : Nat} {m : Migration} (hm : m ∈ known.toList) :
    lineage known (steps + 1) m.name =
      m.name :: (m.parent.map (lineage known steps)).getD [] := by
  simp only [lineage, parentOf, Ascending.find?_of_mem hm, Option.bind_some]
  cases m.parent <;> rfl

theorem lineage_subset (hc : Closed known) {steps : Nat} {m : Migration} (hm : m ∈ known.toList) :
    lineage known steps m.name ⊆ known.toList.map (·.name) := by
  induction steps generalizing m with
  | zero => simp [lineage]
  | succ steps ih =>
    rw [lineage_cons hm, List.cons_subset]
    refine ⟨List.mem_map_of_mem hm, ?_⟩
    cases hp : m.parent with
    | none => simp
    | some name =>
      obtain ⟨parent, hparent, rfl⟩ := exists_parent hc hm hp
      exact ih hparent

/-- A walk that is over before its bound has come to a first migration. -/
theorem exists_ascent_of_lineage (hc : Closed known) {steps : Nat} {m : Migration}
    (hm : m ∈ known.toList) (h : (lineage known steps m.name).length < steps) :
    ∃ path, Ascent known m path := by
  induction steps generalizing m with
  | zero => simp at h
  | succ steps ih =>
    rw [lineage_cons hm] at h
    cases hp : m.parent with
    | none => exact ⟨[m], .root hp⟩
    | some name =>
      obtain ⟨parent, hparent, rfl⟩ := exists_parent hc hm hp
      obtain ⟨path, ha⟩ := ih hparent (by simpa [hp] using h)
      exact ⟨path ++ [m], .step hp hparent ha⟩

/-- Where no parent is missing and there is no circle, every walk comes to an end. -/
theorem exists_ascent (hc : Closed known) (hac : Acyclic known) {m : Migration}
    (hm : m ∈ known.toList) : ∃ path, Ascent known m path := by
  suffices (lineage known (known.size + 1) m.name).length < known.size + 1 from
    exists_ascent_of_lineage hc hm this
  have hlen := (hac m hm).length_le_of_subset (lineage_subset hc hm)
  rw [List.length_map] at hlen
  exact Nat.lt_succ_of_le hlen

/-! ### Heads -/

theorem mem_heads {m : Migration} :
    m ∈ heads known ↔ m ∈ known.toList ∧ ∀ x ∈ known.toList, x.parent ≠ some m.name := by
  simp [heads]

/-- Every way is the beginning of the way to a head. -/
theorem exists_head {m : Migration} {path : List Migration} (hm : m ∈ known.toList)
    (ha : Ascent known m path) :
    ∃ head ∈ heads known, ∃ whole, Ascent known head whole ∧ path <+: whole := by
  by_cases hhead : ∀ x ∈ known.toList, x.parent ≠ some m.name
  · exact ⟨m, mem_heads.2 ⟨hm, hhead⟩, path, ha, List.prefix_rfl⟩
  · simp only [ne_eq, Classical.not_forall, Decidable.not_not] at hhead
    obtain ⟨x, hx, hparent⟩ := hhead
    have hchild := ha.child hm hparent
    have hbound := hchild.length_le hx
    obtain ⟨head, hh, whole, hwhole, hpre⟩ := exists_head hx hchild
    exact ⟨head, hh, whole, hwhole, (List.prefix_append path [x]).trans hpre⟩
termination_by known.size - path.length
decreasing_by
  rw [List.length_append, List.length_singleton] at hbound ⊢
  omega

end Walks

/-! ### Rows as walks -/

section Rows
variable {known : Migrations}

theorem Linear.left {parent : Option String} {front back : List Migration}
    (h : Linear parent (front ++ back)) : Linear parent front := by
  induction front generalizing parent with
  | nil => trivial
  | cons x rest ih => exact ⟨h.1, ih h.2⟩

theorem Linear.parent_of_next {parent : Option String} {front back : List Migration}
    {m next : Migration} (h : Linear parent (front ++ m :: next :: back)) :
    next.parent = some m.name := by
  induction front generalizing parent with
  | nil => exact h.2.1
  | cons x rest ih => exact ih h.2

theorem Ascent.extend {p m : Migration} {path front : List Migration} (h : Ascent known p path)
    (hp : p ∈ known.toList) (hl : Linear (some p.name) (front ++ [m]))
    (hk : front ++ [m] ⊆ known.toList) : Ascent known m (path ++ (front ++ [m])) := by
  induction front generalizing p path with
  | nil => exact h.child hp hl.1
  | cons x rest ih =>
    rw [List.cons_append, List.cons_subset] at hk
    have := ih (h.child hp hl.1) hk.1 hl.2 hk.2
    rwa [List.append_assoc] at this

/-- In a row the way to a migration is the row up to it. -/
theorem Linear.ascent {m : Migration} {front : List Migration} (hl : Linear none (front ++ [m]))
    (hk : front ++ [m] ⊆ known.toList) : Ascent known m (front ++ [m]) := by
  cases front with
  | nil => exact .root hl.1
  | cons x rest =>
    rw [List.cons_append, List.cons_subset] at hk
    exact (Ascent.root hl.1).extend hk.1 hl.2 hk.2

variable {chain : List Migration}

theorem Linear.exists_ascent {m : Migration} (hl : Linear none chain)
    (hperm : chain.Perm known.toList) (hm : m ∈ known.toList) :
    ∃ path, Ascent known m path ∧ path <+: chain := by
  obtain ⟨front, back, rfl⟩ := List.append_of_mem (hperm.mem_iff.2 hm)
  rw [List.append_cons] at hl hperm ⊢
  have hk := List.Subset.trans (List.subset_append_left _ back) hperm.subset
  exact ⟨front ++ [m], hl.left.ascent hk, List.prefix_append _ _⟩

theorem Linear.closed (hl : Linear none chain) (hperm : chain.Perm known.toList) : Closed known := by
  intro m hm name hname
  obtain ⟨path, ha, -⟩ := hl.exists_ascent hperm hm
  cases ha with
  | root hroot => exact absurd (hroot.symm.trans hname) (by simp)
  | step hparent hp _ =>
    rw [hname, Option.some.injEq] at hparent
    rw [hparent, Ascending.contains_iff]
    exact List.mem_map_of_mem hp

theorem Linear.acyclic (hl : Linear none chain) (hperm : chain.Perm known.toList) :
    Acyclic known := by
  intro m hm
  obtain ⟨path, ha, hpre⟩ := hl.exists_ascent hperm hm
  rw [ha.lineage_eq hm (Nat.le_succ_of_le (ha.length_le hm))]
  have hnames := (hperm.map (·.name)).nodup_iff.2 known.nodup_keys
  exact (List.reverse_perm _).nodup_iff.2 ((hpre.sublist.map (·.name)).nodup hnames)

/-- The last migration of a row is the only head. -/
theorem Linear.heads_eq {front : List Migration} {last : Migration}
    (hl : Linear none (front ++ [last])) (hperm : (front ++ [last]).Perm known.toList) :
    heads known = [last] := by
  have hlast : last ∈ known.toList := hperm.subset (by simp)
  have ha := hl.ascent hperm.subset
  have hnodup : (heads known).Nodup :=
    List.filter_sublist.nodup known.nodup
  refine List.perm_singleton.1 ((List.perm_ext_iff_of_nodup hnodup (by simp)).2 fun m => ?_)
  rw [mem_heads, List.mem_singleton]
  constructor
  · rintro ⟨hm, hhead⟩
    obtain ⟨f, b, hsplit⟩ := List.append_of_mem (hperm.mem_iff.2 hm)
    cases b with
    | nil => exact (List.singleton_inj.1 (List.append_inj' hsplit rfl).2).symm
    | cons next b =>
      rw [hsplit] at hl hperm
      exact absurd hl.parent_of_next (hhead next (hperm.subset (by simp)))
  · rintro rfl
    refine ⟨hlast, fun x hx hparent => ?_⟩
    -- a migration built on the last one would make a way longer than the row
    have hbound := (ha.child hlast hparent).length_le hx
    rw [List.length_append, hperm.length_eq] at hbound
    exact absurd hbound (by simp [Ascending.size])

end Rows

/-! ### The chain -/

theorem ofKnown_of_linear {engine : String} {known : Migrations} {chain : List Migration}
    (hperm : chain.Perm known.toList) (hl : Linear none chain) :
    ofKnown engine known = .ok chain := by
  have hmissing : firstMissing? engine known = none :=
    firstMissing?_eq_none_iff.2 (hl.closed hperm)
  have hcycle : firstCycle? engine known = none := firstCycle?_eq_none_iff.2 (hl.acyclic hperm)
  rcases List.eq_nil_or_concat chain with rfl | ⟨front, last, rfl⟩
  · have hnil : heads known = [] := by rw [heads, ← hperm.nil_eq]; rfl
    simp [ofKnown, hmissing, hcycle, hnil]
  · rw [List.concat_eq_append] at hperm hl ⊢
    have hlast : last ∈ known.toList := hperm.subset (by simp)
    have ha := hl.ascent hperm.subset
    simp [ofKnown, hmissing, hcycle, hl.heads_eq hperm, ha.ancestry_eq (ha.length_le hlast)]

theorem linear_of_ofKnown {engine : String} {known : Migrations} {chain : List Migration}
    (h : ofKnown engine known = .ok chain) : chain.Perm known.toList ∧ Linear none chain := by
  simp only [ofKnown] at h
  split at h
  · cases h
  · rename_i hnone
    obtain ⟨hmissing, hcycle⟩ :
        firstMissing? engine known = none ∧ firstCycle? engine known = none := by
      simpa using hnone
    have hc := firstMissing?_eq_none_iff.1 hmissing
    have hac := firstCycle?_eq_none_iff.1 hcycle
    split at h
    · rename_i hheads
      cases h
      suffices known.toList = [] by rw [this]; exact ⟨.refl _, trivial⟩
      refine List.eq_nil_iff_forall_not_mem.2 fun m hm => ?_
      obtain ⟨path, ha⟩ := exists_ascent hc hac hm
      obtain ⟨head, hhead, -⟩ := exists_head hm ha
      rw [hheads] at hhead
      cases hhead
    · rename_i head hheads
      have hhead : head ∈ known.toList := (mem_heads.1 (hheads ▸ List.mem_singleton.2 rfl)).1
      obtain ⟨whole, hwhole⟩ := exists_ascent hc hac hhead
      rw [hwhole.ancestry_eq (hwhole.length_le hhead)] at h
      cases h
      refine ⟨(List.perm_ext_iff_of_nodup hwhole.nodup known.nodup).2 fun m => ?_, hwhole.linear.1⟩
      refine ⟨fun hm => hwhole.subset hhead hm, fun hm => ?_⟩
      obtain ⟨path, ha⟩ := exists_ascent hc hac hm
      obtain ⟨other, hother, longest, hlongest, hpre⟩ := exists_head hm ha
      rw [hheads, List.mem_singleton] at hother
      subst hother
      exact hwhole.unique hlongest ▸ hpre.subset ha.mem_self
    · cases h

theorem byName_perm {engine : String} {migrations : List Migration} {known : Migrations}
    (h : byName engine migrations = .ok known) : known.toList.Perm migrations := by
  have hperm := (Ascending.foldlM_perm (fun {s a t} hadd => ?_) h).2
  · simpa using hperm
  · split at hadd
    · cases hadd
    · rename_i hnew
      cases hadd
      exact ⟨Bool.not_eq_true _ ▸ hnew, rfl⟩

theorem exists_byName {engine : String} {migrations : List Migration}
    (h : (migrations.map (·.name)).Nodup) : ∃ known, byName engine migrations = .ok known := by
  refine ⟨_, Ascending.foldlM_eq_ok (fun s m _ hnew => ?_) ?_⟩
  · rw [hnew]
    rfl
  · simpa using h

/-- **A history resolves exactly when it is linear**, and then to its one linear row: the engine's
migrations have distinct names and the chain is all of them, each behind the one it is built on and the
first built on none. The walk that gives the chain ends by itself: where the search for missing parents
and for circles finds nothing, the way up from any migration is finite, and every bound from the number of
migrations on leaves it whole. -/
theorem resolve_eq_ok_iff (engine : String) (migrations : List Migration) :
    (∀ chain, resolve engine migrations = .ok chain ↔
      chain.Perm (migrations.filter (·.database == engine)) ∧ (chain.map (·.name)).Nodup ∧
        Linear none chain) ∧
    (∀ known, byName engine (migrations.filter (·.database == engine)) = .ok known →
      firstMissing? engine known = none → firstCycle? engine known = none →
      ∀ m ∈ known.toList, ∃ path, Ascent known m path ∧
        ∀ bound, known.size ≤ bound → ancestry known bound m = path) := by
  constructor
  · intro chain
    constructor
    · intro h
      rw [resolve] at h
      cases hknown : byName engine (migrations.filter (·.database == engine)) with
      | error failure =>
        rw [hknown] at h
        cases h
      | ok known =>
        rw [hknown] at h
        obtain ⟨hperm, hl⟩ := linear_of_ofKnown h
        exact ⟨hperm.trans (byName_perm hknown), (hperm.map _).nodup_iff.2 known.nodup_keys, hl⟩
    · rintro ⟨hperm, hnames, hl⟩
      obtain ⟨known, hknown⟩ := exists_byName ((hperm.map _).nodup_iff.1 hnames)
      rw [resolve, hknown]
      exact ofKnown_of_linear (hperm.trans (byName_perm hknown).symm) hl
  · intro known _ hmissing hcycle m hm
    obtain ⟨path, ha⟩ :=
      exists_ascent (firstMissing?_eq_none_iff.1 hmissing) (firstCycle?_eq_none_iff.1 hcycle) hm
    exact ⟨path, ha, fun bound hbound => ha.ancestry_eq (Nat.le_trans (ha.length_le hm) hbound)⟩

/-- Three migrations in disorder, with one of another engine among them: they resolve, and the way up
from the last one ends at the first. -/
theorem resolve_shuffled :
    let known : Migrations :=
      ⟨[⟨"a", "main", none, []⟩, ⟨"b", "main", some "a", []⟩, ⟨"c", "main", some "b", []⟩], by decide⟩
    let migrations : List Migration := [⟨"c", "main", some "b", []⟩, ⟨"a", "other", some "z", []⟩,
      ⟨"b", "main", some "a", []⟩, ⟨"a", "main", none, []⟩]
    resolve "main" migrations = .ok known.toList ∧
      byName "main" (migrations.filter (·.database == "main")) = .ok known ∧
      firstMissing? "main" known = none ∧ firstCycle? "main" known = none ∧
      ∃ path, Ascent known ⟨"c", "main", some "b", []⟩ path ∧
        ∀ bound, 3 ≤ bound → ancestry known bound ⟨"c", "main", some "b", []⟩ = path := by
  intro known migrations
  obtain ⟨hchain, hway⟩ := resolve_eq_ok_iff "main" migrations
  have hknown : byName "main" (migrations.filter (·.database == "main")) = .ok known := rfl
  have hmissing : firstMissing? "main" known = none := rfl
  have hcycle : firstCycle? "main" known = none := rfl
  refine ⟨(hchain _).2 ⟨?_, by decide, by decide⟩, hknown, hmissing, hcycle, ?_⟩
  · exact List.reverse_perm (migrations.filter (·.database == "main"))
  · exact hway known hknown hmissing hcycle _ (by simp [known])

end Schemata.Chain
