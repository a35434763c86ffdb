import Schemata.Proofs.Ddl.Alteration
import Schemata.Proofs.Ddl.Catalogue

/-! Statements read as updates of a roster of constraints.

A constraint is on one column and has a name that no other one of its table has. Those that are written inside the
definition of a column get the names that the database has for them. A statement that makes a constraint or gives one
another name has no meaning where the name is taken, and one that drops or renames a constraint none where there is none
of the name (`Statement.constrain`). -/
namespace Schemata.Ddl

/-! ### Rosters -/

/-- A constraint in the database. -/
structure NamedConstraint where
  table : String
  column : String
  name : String
  deriving DecidableEq

namespace NamedConstraint

/-- The constraint after the one of the name `source` of the table was renamed to `target`. -/
def rename (table source target : String) (x : NamedConstraint) : NamedConstraint :=
  if x.table = table ∧ x.name = source then { x with name := target } else x

/-- The constraint after the column `source` of the table was renamed to `target`. -/
def recolumn (table source target : String) (x : NamedConstraint) : NamedConstraint :=
  if x.table = table ∧ x.column = source then { x with column := target } else x

end NamedConstraint

/-- The constraints of a database. -/
abbrev Roster := Finset NamedConstraint

namespace Roster

/-- Whether a constraint of the table has the name. -/
def Has (roster : Roster) (table name : String) : Prop := ∃ x ∈ roster, x.table = table ∧ x.name = name

instance (roster : Roster) (table name : String) : Decidable (roster.Has table name) :=
  inferInstanceAs (Decidable (∃ x ∈ roster, x.table = table ∧ x.name = name))

def add (x : NamedConstraint) (roster : Roster) : Option Roster :=
  if roster.Has x.table x.name then none else some (insert x roster)

def addAll (xs : List NamedConstraint) (roster : Roster) : Option Roster :=
  xs.foldlM (fun roster x => roster.add x) roster

end Roster

/-- All kinds of constraints that the definition of a column can have. -/
def ConstraintKind.all : List ConstraintKind := [.key, .fkey, .check]

/-- The constraint of the kind on the column, under the name that the database has for it. -/
def ConstraintKind.on (k : ConstraintKind) (table column : String) : NamedConstraint :=
  ⟨table, column, constraintNames table column k⟩

/-- The constraints in the definition of a column. -/
def Column.inline (table : String) (c : Column) : List NamedConstraint :=
  (ConstraintKind.all.filter fun k => (c.constraint? k).isSome).map (·.on table c.name)

/-- The roster after the statement; none when the statement makes a constraint of a name that is taken in its table,
or drops or renames one that is lacking. A constraint goes with its table and with its column. -/
def Statement.constrain : Statement → Roster → Option Roster
  | .createTable table columns _, roster => roster.addAll (columns.flatMap (·.inline table))
  | .addColumn table column, roster => roster.addAll (column.inline table)
  | .addUnique table name column, roster | .addCheck table name column _, roster
  | .addForeignKey table name column _, roster => roster.add ⟨table, column, name⟩
  | .dropConstraint table name, roster =>
    if roster.Has table name then some (roster.filter fun x => ¬ (x.table = table ∧ x.name = name)) else none
  | .renameConstraint table source target, roster =>
    if roster.Has table source ∧ ¬ roster.Has table target then
      some (roster.image (·.rename table source target))
    else none
  | .dropTable table, roster => some (roster.filter (·.table ≠ table))
  | .dropColumn table column, roster => some (roster.filter fun x => ¬ (x.table = table ∧ x.column = column))
  | .renameColumn table source target, roster => some (roster.image (·.recolumn table source target))
  | .setType _ _ _, roster | .setNotNull _ _, roster | .dropNotNull _ _, roster | .setDefault _ _ _, roster
  | .dropDefault _ _, roster | .createIndex _ _ _ _, roster | .dropIndex _, roster | .renameIndex _ _, roster
  | .data _ _, roster | .begin, roster | .commit, roster => some roster

/-- The roster after statements in a row. -/
def Roster.run (roster : Roster) (statements : List Statement) : Option Roster :=
  statements.foldlM (fun roster statement => statement.constrain roster) roster

namespace Roster
variable {roster : Roster}

theorem run_cons (statement : Statement) (rest : List Statement) :
    roster.run (statement :: rest) = (statement.constrain roster).bind (·.run rest) := by
  rw [run, List.foldlM_cons]
  rfl

theorem run_append (a b : List Statement) : roster.run (a ++ b) = (roster.run a).bind (·.run b) := by
  rw [run, List.foldlM_append]
  rfl

theorem run_of_still {statements : List Statement} (h : ∀ st ∈ statements, ∀ roster, st.constrain roster = some roster) :
    roster.run statements = some roster :=
  foldlM_eq_some_self h _

theorem has_union {a b : Roster} {table name : String} :
    (a ∪ b).Has table name ↔ a.Has table name ∨ b.Has table name := by
  simp only [Has, Finset.mem_union, or_and_right, exists_or]

theorem not_has_of_table {table : String} (h : ∀ x ∈ roster, x.table ≠ table) (name : String) :
    ¬ roster.Has table name := by
  rintro ⟨x, hx, ht, -⟩
  exact h x hx ht

end Roster

/-! ### The constraints of one table -/

/-- Constraints on columns of a table, under the names that the database has for them. -/
def roll (table : String) (held : Finset (String × ConstraintKind)) : Roster := held.image fun p => p.2.on table p.1

section Table
variable {rest : Roster} {table column : String} {held : Finset (String × ConstraintKind)} {k : ConstraintKind}
  (hrest : ∀ x ∈ rest, x.table ≠ table)

theorem roll_insert : roll table (insert (column, k) held) = insert (k.on table column) (roll table held) :=
  Finset.image_insert ..

theorem has_roll : (roll table held).Has table (constraintNames table column k) ↔ (column, k) ∈ held := by
  constructor
  · rintro ⟨x, hx, -, hname⟩
    obtain ⟨⟨c, l⟩, hp, rfl⟩ := Finset.mem_image.1 hx
    obtain ⟨rfl, rfl⟩ := constraintNames_inj.1 hname
    exact hp
  · intro h
    exact ⟨_, Finset.mem_image_of_mem _ h, rfl, rfl⟩

include hrest

theorem has_union_roll :
    (rest ∪ roll table held).Has table (constraintNames table column k) ↔ (column, k) ∈ held := by
  rw [Roster.has_union, has_roll, or_iff_right (Roster.not_has_of_table hrest _)]

theorem add_roll (h : (column, k) ∉ held) :
    (rest ∪ roll table held).add (k.on table column) = some (rest ∪ roll table (insert (column, k) held)) := by
  rw [Roster.add, roll_insert, Finset.union_insert]
  exact if_neg (mt (has_union_roll hrest).1 h)

theorem addAll_roll {new : List (String × ConstraintKind)} (hd : new.Nodup) (h : ∀ p ∈ new, p ∉ held) :
    (rest ∪ roll table held).addAll (new.map fun p => p.2.on table p.1) =
      some (rest ∪ roll table (held ∪ new.toFinset)) := by
  induction new generalizing held with
  | nil => simp [Roster.addAll]
  | cons p new ih =>
    obtain ⟨hp, hd⟩ := List.nodup_cons.1 hd
    have hfresh : ∀ q ∈ new, q ∉ insert p held := by
      intro q hq hin
      rcases Finset.mem_insert.1 hin with rfl | hin
      · exact hp hq
      · exact h q (List.mem_cons_of_mem _ hq) hin
    rw [List.map_cons, Roster.addAll, List.foldlM_cons, add_roll hrest (h p (List.mem_cons_self ..)),
      List.toFinset_cons, Finset.union_insert, ← Finset.insert_union]
    exact ih hd hfresh

theorem drop_roll (h : (column, k) ∈ held) :
    (Statement.dropConstraint table (constraintNames table column k)).constrain (rest ∪ roll table held) =
      some (rest ∪ roll table (held.erase (column, k))) := by
  have hstay : (rest.filter fun x => ¬ (x.table = table ∧ x.name = constraintNames table column k)) = rest :=
    Finset.filter_true_of_mem fun x hx he => hrest x hx he.1
  have hgone : ((roll table held).filter fun x => ¬ (x.table = table ∧ x.name = constraintNames table column k)) =
      roll table (held.erase (column, k)) := by
    rw [roll, Finset.filter_image, roll]
    refine congrArg _ (Finset.ext fun ⟨c, l⟩ => ?_)
    simp only [Finset.mem_filter, Finset.mem_erase, ConstraintKind.on, constraintNames_inj, ne_eq, Prod.mk.injEq, true_and]
    exact and_comm
  rw [Statement.constrain, if_pos ((has_union_roll hrest).2 h), Finset.filter_union, hstay, hgone]

theorem drop_roll_lacking (h : (column, k) ∉ held) :
    (Statement.dropConstraint table (constraintNames table column k)).constrain (rest ∪ roll table held) = none :=
  if_neg (mt (has_union_roll hrest).1 h)

theorem dropColumn_roll :
    (Statement.dropColumn table column).constrain (rest ∪ roll table held) =
      some (rest ∪ roll table (held.filter (·.1 ≠ column))) := by
  have hstay : (rest.filter fun x => ¬ (x.table = table ∧ x.column = column)) = rest :=
    Finset.filter_true_of_mem fun x hx he => hrest x hx he.1
  rw [Statement.constrain, Finset.filter_union, hstay, roll, Finset.filter_image, roll]
  simp [ConstraintKind.on]

theorem dropTable_roll : (Statement.dropTable table).constrain (rest ∪ roll table held) = some rest := by
  have hstay : rest.filter (·.table ≠ table) = rest := Finset.filter_true_of_mem hrest
  have hgone : (roll table held).filter (·.table ≠ table) = ∅ := by
    refine Finset.filter_false_of_mem fun x hx he => he ?_
    obtain ⟨p, -, rfl⟩ := Finset.mem_image.1 hx
    rfl
  rw [Statement.constrain, Finset.filter_union, hstay, hgone, Finset.union_empty]

end Table

/-! ### The constraints on one column -/

/-- The constraints of a column that has those of some kinds. -/
def bundle (column : String) (kinds : ConstraintKind → Bool) : Finset (String × ConstraintKind) :=
  ((ConstraintKind.all.filter kinds).map (column, ·)).toFinset

section Column
variable {rest : Roster} {table source target column : String} {base : Finset (String × ConstraintKind)}
  {kinds : ConstraintKind → Bool} {k : ConstraintKind}

theorem ConstraintKind.mem_all (k : ConstraintKind) : k ∈ ConstraintKind.all := by
  cases k <;> decide

theorem ConstraintKind.nodup_all : ConstraintKind.all.Nodup := by
  decide

theorem mem_bundle {p : String × ConstraintKind} : p ∈ bundle column kinds ↔ p.1 = column ∧ kinds p.2 = true := by
  obtain ⟨c, k⟩ := p
  simp only [bundle, List.mem_toFinset, List.mem_map, List.mem_filter, ConstraintKind.mem_all, true_and, Prod.mk.injEq]
  constructor
  · rintro ⟨l, hl, rfl, rfl⟩
    exact ⟨rfl, hl⟩
  · rintro ⟨rfl, hk⟩
    exact ⟨k, hk, rfl, rfl⟩

theorem insert_bundle :
    insert (column, k) (base ∪ bundle column kinds) = base ∪ bundle column (Function.update kinds k true) := by
  ext ⟨c, l⟩
  simp only [Finset.mem_insert, Finset.mem_union, mem_bundle, Prod.mk.injEq]
  by_cases hl : l = k
  · subst hl
    simp only [Function.update_self]
    tauto
  · rw [Function.update_of_ne hl]
    tauto

theorem erase_bundle (hbase : ∀ p ∈ base, p.1 ≠ column) :
    (base ∪ bundle column kinds).erase (column, k) = base ∪ bundle column (Function.update kinds k false) := by
  ext ⟨c, l⟩
  simp only [Finset.mem_erase, Finset.mem_union, mem_bundle, ne_eq, Prod.mk.injEq]
  by_cases hl : l = k
  · subst hl
    simp only [Function.update_self]
    have := hbase (c, l)
    tauto
  · rw [Function.update_of_ne hl]
    tauto

/-- The constraints of a column that was renamed are still named after it, until they are renamed too. -/
def stale (table source target : String) (ks : List ConstraintKind) : Roster :=
  (ks.map fun k => (⟨table, target, constraintNames table source k⟩ : NamedConstraint)).toFinset

theorem stale_cons (ks : List ConstraintKind) : stale table source target (k :: ks) =
    insert ⟨table, target, constraintNames table source k⟩ (stale table source target ks) := by
  rw [stale, List.map_cons, List.toFinset_cons, ← stale]

theorem mem_stale {x : NamedConstraint} {ks : List ConstraintKind} : x ∈ stale table source target ks ↔
    ∃ k ∈ ks, (⟨table, target, constraintNames table source k⟩ : NamedConstraint) = x := by
  rw [stale, List.mem_toFinset, List.mem_map]

theorem roll_union_bundle : roll table (base ∪ bundle column kinds) =
    roll table base ∪ stale table column column (ConstraintKind.all.filter kinds) := by
  ext x
  simp only [roll, Finset.mem_image, Finset.mem_union, or_and_right, exists_or, mem_stale, List.mem_filter,
    ConstraintKind.mem_all, true_and, ConstraintKind.on]
  refine or_congr_right ⟨?_, ?_⟩
  · rintro ⟨⟨c, k⟩, hp, rfl⟩
    obtain ⟨rfl, hk⟩ := mem_bundle.1 hp
    exact ⟨k, hk, rfl⟩
  · rintro ⟨k, hk, rfl⟩
    exact ⟨(column, k), mem_bundle.2 ⟨rfl, hk⟩, rfl⟩

theorem constrain_renameColumn (hrest : ∀ x ∈ rest, x.table ≠ table) (hbase : ∀ p ∈ base, p.1 ≠ source) :
    (Statement.renameColumn table source target).constrain (rest ∪ roll table (base ∪ bundle source kinds)) =
      some (rest ∪ roll table base ∪ stale table source target (ConstraintKind.all.filter kinds)) := by
  have hstay : (rest ∪ roll table base).image (·.recolumn table source target) = rest ∪ roll table base := by
    refine (Finset.image_congr fun x hx => ?_).trans Finset.image_id
    refine if_neg fun he => ?_
    rcases Finset.mem_union.1 hx with hx | hx
    · exact hrest x hx he.1
    · obtain ⟨p, hp, rfl⟩ := Finset.mem_image.1 hx
      exact hbase p hp he.2
  have hmoved : (stale table source source (ConstraintKind.all.filter kinds)).image (·.recolumn table source target) =
      stale table source target (ConstraintKind.all.filter kinds) := by
    ext x
    simp only [Finset.mem_image, mem_stale, exists_exists_and_eq_and, NamedConstraint.recolumn, and_self, if_true]
  rw [Statement.constrain, roll_union_bundle, ← Finset.union_assoc, Finset.image_union, hstay, hmoved]

theorem image_rename {r : Roster} {name name' : String} (h : ¬ r.Has table name) :
    r.image (·.rename table name name') = r := by
  refine (Finset.image_congr fun x hx => ?_).trans Finset.image_id
  exact if_neg fun he => h ⟨x, hx, he.1, he.2⟩

theorem has_stale {ks : List ConstraintKind} {name : String} :
    (stale table source target ks).Has table name ↔ ∃ k ∈ ks, constraintNames table source k = name := by
  constructor
  · rintro ⟨x, hx, -, rfl⟩
    obtain ⟨k, hk, rfl⟩ := mem_stale.1 hx
    exact ⟨k, hk, rfl⟩
  · rintro ⟨k, hk, rfl⟩
    exact ⟨_, mem_stale.2 ⟨k, hk, rfl⟩, rfl, rfl⟩

/-- The constraints of a column follow it, one after the other. -/
theorem run_renameConstraints {ks : List ConstraintKind} {r : Roster} (hne : source ≠ target) (hd : ks.Nodup)
    (hsource : ∀ k ∈ ks, ¬ r.Has table (constraintNames table source k))
    (htarget : ∀ k ∈ ks, ¬ r.Has table (constraintNames table target k)) :
    (r ∪ stale table source target ks).run (ks.map fun k =>
        .renameConstraint table (constraintNames table source k) (constraintNames table target k)) =
      some (r ∪ stale table target target ks) := by
  induction ks generalizing r with
  | nil => simp [Roster.run, stale]
  | cons k ks ih =>
    obtain ⟨hk, hd⟩ := List.nodup_cons.1 hd
    have hother : ¬ (stale table source target ks).Has table (constraintNames table source k) := by
      rw [has_stale]
      rintro ⟨l, hl, he⟩
      exact hk ((constraintNames_inj.1 he).2 ▸ hl)
    have hthere : (r ∪ stale table source target (k :: ks)).Has table (constraintNames table source k) :=
      Roster.has_union.2 (.inr (has_stale.2 ⟨k, List.mem_cons_self .., rfl⟩))
    have hfree : ¬ (r ∪ stale table source target (k :: ks)).Has table (constraintNames table target k) := by
      rw [Roster.has_union, has_stale]
      rintro (hin | ⟨l, -, he⟩)
      · exact htarget k (List.mem_cons_self ..) hin
      · exact hne (constraintNames_inj.1 he).1
    have hnext : (r ∪ stale table source target (k :: ks)).image
        (·.rename table (constraintNames table source k) (constraintNames table target k)) =
        insert (k.on table target) r ∪ stale table source target ks := by
      rw [Finset.image_union, image_rename (hsource k (List.mem_cons_self ..)), stale_cons, Finset.image_insert,
        image_rename hother, Finset.insert_union, Finset.union_insert, NamedConstraint.rename, if_pos ⟨rfl, rfl⟩]
      rfl
    have hlast : insert (k.on table target) r ∪ stale table target target ks =
        r ∪ stale table target target (k :: ks) := by
      rw [stale_cons, Finset.insert_union, Finset.union_insert]
      rfl
    have hmade : ∀ name, (insert (k.on table target) r).Has table name ↔
        constraintNames table target k = name ∨ r.Has table name := by
      intro name
      simp [Roster.Has, ConstraintKind.on]
    rw [List.map_cons, Roster.run_cons, Statement.constrain, if_pos ⟨hthere, hfree⟩, Option.bind_some, hnext, ← hlast]
    refine ih hd (fun l hl => ?_) fun l hl => ?_
    · rw [hmade]
      rintro (he | hin)
      · exact hne (constraintNames_inj.1 he).1.symm
      · exact hsource l (List.mem_cons_of_mem _ hl) hin
    · rw [hmade]
      rintro (he | hin)
      · exact hk ((constraintNames_inj.1 he).2 ▸ hl)
      · exact htarget l (List.mem_cons_of_mem _ hl) hin

end Column

end Schemata.Ddl
