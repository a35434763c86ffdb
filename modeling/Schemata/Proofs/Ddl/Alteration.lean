import Mathlib.Data.Finset.Option
import Mathlib.Logic.Function.Basic
import Schemata.Ddl.Render
import Schemata.Proofs.Change.Fields

/-! Statements read as changes of one column of a table.

A column has a type, may refuse nulls and have a default, and owns constraints and plain indexes, each under a name.
Those that are written inside the definition of a column get the names that the database has for them
(`PhysicalColumn.ofColumn`). A statement that names what is not there, or makes what is there already, has no meaning
(`Statement.alter`). Taking a column from one description to another leaves what a new column of the second description
would be (`alterColumn_agrees`). -/
namespace Schemata.Ddl

/-! ### Columns in the database -/

/-- What a column is held to. -/
inductive Constraint
  | unique
  | check (choices : List String)
  | foreignKey (reference : Reference)
  deriving DecidableEq

structure PhysicalColumn where
  name : String
  type : ColumnType
  notNull : Bool
  default : Option DefaultValue
  /-- The constraint of each name. -/
  constraints : String → Option Constraint
  /-- The names of the plain indexes over the column. -/
  indexes : Finset String

namespace PhysicalColumn

def addConstraint (c : PhysicalColumn) (name : String) (k : Constraint) : Option PhysicalColumn :=
  if (c.constraints name).isSome then none
  else some { c with constraints := Function.update c.constraints name (some k) }

def dropConstraint (c : PhysicalColumn) (name : String) : Option PhysicalColumn :=
  (c.constraints name).map fun _ => { c with constraints := Function.update c.constraints name none }

def renameConstraint (c : PhysicalColumn) (source target : String) : Option PhysicalColumn :=
  (c.constraints source).bind fun k =>
    (c.dropConstraint source).bind (·.addConstraint target k)

/-- Equality, with numbers among the defaults compared as numbers. -/
structure Agrees (c c' : PhysicalColumn) : Prop where
  name : c.name = c'.name
  type : c.type = c'.type
  notNull : c.notNull = c'.notNull
  default : c.default = c'.default ∨ sameOption DefaultValue.same c.default c'.default = true
  constraints : c.constraints = c'.constraints
  indexes : c.indexes = c'.indexes

end PhysicalColumn

open PhysicalColumn in
/-- The column after a statement about it; none when the statement is about another column, names a constraint or an
index that is lacking, or makes one that is there. A column takes its constraints and indexes along when it is
renamed. -/
def Statement.alter (table : String) : Statement → PhysicalColumn → Option PhysicalColumn
  | .renameColumn t source target, c =>
    if t = table ∧ source = c.name then some { c with name := target } else none
  | .renameConstraint t source target, c => if t = table then c.renameConstraint source target else none
  | .dropConstraint t name, c => if t = table then c.dropConstraint name else none
  | .addUnique t name column, c => if t = table ∧ column = c.name then c.addConstraint name .unique else none
  | .addCheck t name column choices, c =>
    if t = table ∧ column = c.name then c.addConstraint name (.check choices) else none
  | .addForeignKey t name column reference, c =>
    if t = table ∧ column = c.name then c.addConstraint name (.foreignKey reference) else none
  | .setType t column type, c => if t = table ∧ column = c.name then some { c with type } else none
  | .setNotNull t column, c => if t = table ∧ column = c.name then some { c with notNull := true } else none
  | .dropNotNull t column, c => if t = table ∧ column = c.name then some { c with notNull := false } else none
  | .setDefault t column value, c =>
    if t = table ∧ column = c.name then some { c with default := some value } else none
  | .dropDefault t column, c => if t = table ∧ column = c.name then some { c with default := none } else none
  | .createIndex unique name t columns, c =>
    if t = table ∧ columns = [c.name] ∧ unique = false ∧ name ∉ c.indexes then
      some { c with indexes := insert name c.indexes }
    else none
  | .dropIndex name, c => if name ∈ c.indexes then some { c with indexes := c.indexes.erase name } else none
  | .renameIndex source target, c =>
    if source ∈ c.indexes ∧ target ∉ c.indexes then some { c with indexes := insert target (c.indexes.erase source) }
    else none
  | .createTable _ _ _, _ | .dropTable _, _ | .addColumn _ _, _ | .dropColumn _ _, _ => none
  | .data _ _, c | .begin, c | .commit, c => some c

/-! ### Definitions -/

/-- The constraints that the definition of a column can have. -/
inductive ConstraintKind
  | key
  | check
  | fkey
  deriving DecidableEq

/-- The end of the names of such constraints. -/
def ConstraintKind.suffix : ConstraintKind → String
  | .key => "key"
  | .check => "check"
  | .fkey => "fkey"

def Column.constraint? (c : Column) : ConstraintKind → Option Constraint
  | .key => if c.unique then some .unique else none
  | .check => c.choices.map .check
  | .fkey => c.reference.map .foreignKey

/-- The names that the database has for constraints in the definition of a column. -/
def constraintNames (table column : String) (k : ConstraintKind) : String := constraintName table column k.suffix

/-- The constraints of a definition, under the given names. -/
def Column.named (c : Column) (names : ConstraintKind → String) (name : String) : Option Constraint :=
  if name = names .key then c.constraint? .key
  else if name = names .check then c.constraint? .check
  else if name = names .fkey then c.constraint? .fkey
  else none

namespace PhysicalColumn

/-- The column that a definition makes, with plain indexes over it. -/
def ofColumn (table : String) (c : Column) (indexes : Finset String) : PhysicalColumn where
  name := c.name
  type := c.type
  notNull := c.notNull
  default := c.default
  constraints := c.named (constraintNames table c.name)
  indexes

/-- The column after statements in a row. -/
def run (table : String) (statements : List Statement) (c : PhysicalColumn) : Option PhysicalColumn :=
  statements.foldlM (fun c statement => statement.alter table c) c

/-- The column that statements make of nothing: the first one defines it, and those behind it change it. -/
def made (table : String) : List Statement → Option PhysicalColumn
  | .addColumn t c :: rest => if t = table then run table rest (ofColumn table c ∅) else none
  | _ => none

theorem run_cons (table : String) (statement : Statement) (rest : List Statement) (c : PhysicalColumn) :
    run table (statement :: rest) c = (statement.alter table c).bind (run table rest) := by
  rw [run, List.foldlM_cons]
  rfl

theorem run_append_of {table : String} {a b : List Statement} {c c' : PhysicalColumn} {r : Option PhysicalColumn}
    (ha : run table a c = some c') (hb : run table b c' = r) : run table (a ++ b) c = r := by
  have hbind : run table (a ++ b) c = (run table a c).bind (run table b) := by
    rw [run, List.foldlM_append]
    rfl
  rw [hbind, ha, Option.bind_some, hb]

end PhysicalColumn

/-! ### Names of constraints -/

section Names
variable {table column column' : String} {k k' : ConstraintKind}

/-- The end of a name tells the kind of the constraint. -/
theorem take_constraintNames (table column : String) (k : ConstraintKind) :
    (constraintNames table column k).toList.reverse.take 4 = ("_" ++ k.suffix).toList.reverse.take 4 := by
  have hsplit : (constraintNames table column k).toList =
      (table ++ "_" ++ column).toList ++ ("_" ++ k.suffix).toList := by
    simp [constraintNames, constraintName]
  have hlong : 4 ≤ ("_" ++ k.suffix).toList.reverse.length := by
    cases k <;> decide
  rw [hsplit, List.reverse_append, List.take_append_of_le_length hlong]

theorem constraintNames_inj :
    constraintNames table column k = constraintNames table column' k' ↔ column = column' ∧ k = k' := by
  constructor
  · intro h
    have hkind : k = k' := by
      have hends := take_constraintNames table column k
      rw [h, take_constraintNames] at hends
      revert hends
      cases k <;> cases k' <;> decide
    subst hkind
    simpa [constraintNames, constraintName] using h
  · rintro ⟨rfl, rfl⟩
    rfl

theorem injective_constraintNames (table column : String) : Function.Injective (constraintNames table column) :=
  fun _ _ h => (constraintNames_inj.1 h).2

/-- Constraints that are named after one of two columns have names of their own. -/
theorem injective_of_mixed {names : ConstraintKind → String}
    (h : ∀ k, names k = constraintNames table column k ∨ names k = constraintNames table column' k) :
    Function.Injective names := by
  intro k k' he
  rcases h k with hk | hk <;> rcases h k' with hk' | hk' <;> rw [hk, hk'] at he <;>
    exact (constraintNames_inj.1 he).2

end Names

namespace Column
variable {c c' : Column} {names : ConstraintKind → String} {k : ConstraintKind} {f : String → Option Constraint}

theorem named_of_ne {name : String} (h : ∀ k, name ≠ names k) : c.named names name = none := by
  simp [named, h]

variable (hnames : Function.Injective names)
include hnames

theorem named_self (k : ConstraintKind) : c.named names (names k) = c.constraint? k := by
  cases k <;> simp [named, hnames.eq_iff]

theorem eq_named (hk : ∀ k, f (names k) = c.constraint? k) (hother : ∀ name, (∀ k, name ≠ names k) → f name = none) :
    f = c.named names := by
  funext name
  by_cases hname : ∃ k, name = names k
  · obtain ⟨k, rfl⟩ := hname
    rw [hk, named_self hnames]
  · rw [not_exists] at hname
    rw [hother name hname, named_of_ne hname]

/-- One constraint more, or less, or another one. -/
theorem update_named (hc' : ∀ l, l ≠ k → c'.constraint? l = c.constraint? l) :
    Function.update (c.named names) (names k) (c'.constraint? k) = c'.named names := by
  refine eq_named hnames (fun l => ?_) fun name hname => ?_
  · by_cases hl : l = k
    · rw [hl, Function.update_self]
    · rw [Function.update_of_ne fun he => hl (hnames he), named_self hnames, hc' l hl]
  · rw [Function.update_of_ne (hname k), named_of_ne hname]

end Column

/-! ### One constraint -/

namespace Column

/-- The definition without a constraint. -/
def without (c : Column) : ConstraintKind → Column
  | .key => { c with unique := false }
  | .check => { c with choices := none }
  | .fkey => { c with reference := none }

@[simp] theorem constraint?_without_self (c : Column) (k : ConstraintKind) : (c.without k).constraint? k = none := by
  cases k <;> rfl

theorem constraint?_without_of_ne {c : Column} {k l : ConstraintKind} (h : l ≠ k) :
    (c.without k).constraint? l = c.constraint? l := by
  cases k <;> cases l <;> first | rfl | exact absurd rfl h

/-- The definition has the constraints that the column of the field owns. -/
structure Owned (c : Column) (field : Field) : Prop where
  unique : c.unique = (field.unique && !field.primaryKey)
  reference : c.reference.isSome = field.relation?.isSome
  choices : c.choices.isSome = (choices? field).isSome

theorem without_of_none {c : Column} {k : ConstraintKind} (h : c.constraint? k = none) : c.without k = c := by
  cases c
  cases k <;> simp_all [constraint?, without]

end Column

namespace PhysicalColumn
variable {table : String} {c c' : Column} {k : ConstraintKind} {indexes : Finset String}

theorem constraints_ofColumn : (ofColumn table c indexes).constraints = c.named (constraintNames table c.name) := rfl

theorem dropConstraint_ofColumn {x : Constraint} (h : c.constraint? k = some x) :
    (ofColumn table c indexes).dropConstraint (constraintNames table c.name k) =
      some (ofColumn table (c.without k) indexes) := by
  have hinj := injective_constraintNames table c.name
  have hthere : (ofColumn table c indexes).constraints (constraintNames table c.name k) = some x :=
    (Column.named_self hinj k).trans h
  have hgone : Function.update (c.named (constraintNames table c.name)) (constraintNames table c.name k)
      ((c.without k).constraint? k) = (c.without k).named (constraintNames table c.name) :=
    Column.update_named hinj fun l hl => Column.constraint?_without_of_ne hl
  rw [Column.constraint?_without_self] at hgone
  rw [dropConstraint, hthere, Option.map_some, ofColumn, hgone]
  cases k <;> rfl

/-- A constraint that the definition `c'` has and `c`, for the rest the same, lacks. -/
theorem addConstraint_ofColumn {x : Constraint} (h : c'.without k = c) (hx : c'.constraint? k = some x) :
    (ofColumn table c indexes).addConstraint (constraintNames table c.name k) x = some (ofColumn table c' indexes) := by
  subst h
  have hinj := injective_constraintNames table c'.name
  have hname : (c'.without k).name = c'.name := by cases k <;> rfl
  have hfree : (ofColumn table (c'.without k) indexes).constraints (constraintNames table c'.name k) = none := by
    rw [constraints_ofColumn, hname, Column.named_self hinj, Column.constraint?_without_self]
  have hmore : Function.update ((c'.without k).named (constraintNames table c'.name)) (constraintNames table c'.name k)
      (c'.constraint? k) = c'.named (constraintNames table c'.name) :=
    Column.update_named hinj fun l hl => (Column.constraint?_without_of_ne hl).symm
  rw [hx] at hmore
  rw [addConstraint, hname, hfree, Option.isSome_none, if_neg Bool.false_ne_true, ofColumn, hname, hmore]
  cases k <;> rfl

/-- What the definition may have of a kind is dropped. -/
theorem run_drop (table : String) (c : Column) (k : ConstraintKind) (indexes : Finset String) :
    run table (if (c.constraint? k).isSome then [.dropConstraint table (constraintNames table c.name k)] else [])
      (ofColumn table c indexes) = some (ofColumn table (c.without k) indexes) := by
  cases h : c.constraint? k with
  | none =>
    rw [Column.without_of_none h]
    rfl
  | some x =>
    rw [Option.isSome_some, if_pos rfl, run_cons, Statement.alter, if_pos rfl, dropConstraint_ofColumn h]
    rfl

/-! ### Renaming -/

section Renaming
variable {names : ConstraintKind → String} {p : PhysicalColumn} {source target : String}

theorem injective_update (hnames : Function.Injective names) (k : ConstraintKind) {name : String}
    (hfree : ∀ l, name ≠ names l) : Function.Injective (Function.update names k name) := by
  intro l l' he
  grind [Function.update, Function.Injective]

theorem renameConstraint_eq {x : Constraint} (hnames : Function.Injective names) (hp : p.constraints = c.named names)
    (hx : c.constraint? k = some x) {name : String} (hfree : ∀ l, name ≠ names l) :
    p.renameConstraint (names k) name = some { p with constraints := c.named (Function.update names k name) } := by
  have hinj := injective_update hnames k hfree
  have hthere : p.constraints (names k) = some x := by rw [hp, Column.named_self hnames, hx]
  have hleft : Function.update p.constraints (names k) none name = none := by
    rw [Function.update_of_ne (hfree k), hp, Column.named_of_ne hfree]
  have hmoved : Function.update (Function.update p.constraints (names k) none) name (some x) =
      c.named (Function.update names k name) := by
    refine Column.eq_named hinj (fun l => ?_) fun other hother => ?_
    · by_cases hl : l = k
      · rw [hl, Function.update_self, Function.update_self, hx]
      · rw [Function.update_of_ne hl, Function.update_of_ne (hfree l).symm,
          Function.update_of_ne fun he => hl (hnames he), hp, Column.named_self hnames]
    · have hne : other ≠ name := by simpa using hother k
      rw [Function.update_of_ne hne]
      by_cases he : other = names k
      · rw [he, Function.update_self]
      · rw [Function.update_of_ne he, hp]
        refine Column.named_of_ne fun l => ?_
        by_cases hl : l = k
        · rwa [hl]
        · simpa [Function.update_of_ne hl] using hother l
  simp only [renameConstraint, dropConstraint, addConstraint, hthere, hleft, hmoved, Option.bind_some, Option.map_some,
    Option.isSome_none, Bool.false_eq_true, if_false]

/-- A constraint that the definition lacks may have any name. -/
theorem named_update_of_none (hnames : Function.Injective names) (h : c.constraint? k = none) {name : String}
    (hfree : ∀ l, name ≠ names l) : c.named (Function.update names k name) = c.named names := by
  have hinj := injective_update hnames k hfree
  refine Column.eq_named hnames (fun l => ?_) fun other hother => ?_
  · by_cases hl : l = k
    · subst hl
      rw [h]
      refine Column.named_of_ne fun l' => ?_
      by_cases hl' : l' = l
      · rw [hl', Function.update_self]
        exact (hfree l).symm
      · rw [Function.update_of_ne hl']
        exact fun he => hl' (hnames he).symm
    · have hsame : Function.update names k name l = names l := Function.update_of_ne hl _ _
      rw [← hsame, Column.named_self hinj]
  · by_cases he : other = name
    · have hself : Function.update names k name k = other := by rw [Function.update_self, he]
      rw [← hself, Column.named_self hinj, h]
    · refine Column.named_of_ne fun l => ?_
      by_cases hl : l = k
      · rwa [hl, Function.update_self]
      · rw [Function.update_of_ne hl]
        exact hother l

/-- The statements that name the constraints of some kinds after another column. -/
def renames (table source target : String) (c : Column) (kinds : List ConstraintKind) : List Statement :=
  kinds.flatMap fun k =>
    if (c.constraint? k).isSome then
      [.renameConstraint table (constraintNames table source k) (constraintNames table target k)]
    else []

theorem run_renames (hne : source ≠ target) {kinds : List ConstraintKind} (hkinds : kinds.Nodup)
    (hmixed : ∀ k, names k = constraintNames table source k ∨ names k = constraintNames table target k)
    (hleft : ∀ k ∈ kinds, names k = constraintNames table source k) (hp : p.constraints = c.named names) :
    run table (renames table source target c kinds) p =
      some { p with
        constraints := c.named fun k => if k ∈ kinds then constraintNames table target k else names k } := by
  induction kinds generalizing names p with
  | nil => simp [renames, run, ← hp]
  | cons k rest ih =>
    rw [List.nodup_cons] at hkinds
    have hself := hleft k List.mem_cons_self
    have hinj := injective_of_mixed hmixed
    have hfree : ∀ l, constraintNames table target k ≠ names l := by
      intro l he
      rcases hmixed l with hl | hl
      · exact hne ((constraintNames_inj.1 (he.trans hl)).1).symm
      · obtain rfl := (constraintNames_inj.1 (he.trans hl)).2
        exact hne (constraintNames_inj.1 (hself.symm.trans hl)).1
    have hstep : run table (renames table source target c [k]) p =
        some { p with constraints := c.named (Function.update names k (constraintNames table target k)) } := by
      cases hx : c.constraint? k with
      | none =>
        rw [named_update_of_none hinj hx hfree, ← hp]
        simp [renames, hx, run]
      | some x =>
        simp only [renames, List.flatMap_singleton, hx, Option.isSome_some, if_true, run_cons, Statement.alter, ← hself,
          renameConstraint_eq hinj hp hx hfree]
        rfl
    have hsplit : renames table source target c (k :: rest) =
        renames table source target c [k] ++ renames table source target c rest := by
      simp [renames]
    have hmixed' (l : ConstraintKind) :
        Function.update names k (constraintNames table target k) l = constraintNames table source l ∨
          Function.update names k (constraintNames table target k) l = constraintNames table target l := by
      by_cases hl : l = k
      · rw [hl, Function.update_self]
        exact .inr rfl
      · rw [Function.update_of_ne hl]
        exact hmixed l
    have hleft' : ∀ l ∈ rest,
        Function.update names k (constraintNames table target k) l = constraintNames table source l := by
      intro l hl
      have hne : l ≠ k := fun he => hkinds.1 (he ▸ hl)
      rw [Function.update_of_ne hne]
      exact hleft l (List.mem_cons_of_mem _ hl)
    have hnames : (fun l => if l ∈ rest then constraintNames table target l
        else Function.update names k (constraintNames table target k) l) =
        fun l => if l ∈ k :: rest then constraintNames table target l else names l := by
      funext l
      by_cases hl : l = k
      · simp [hl]
      · simp [hl]
    rw [hsplit, ← hnames]
    exact run_append_of hstep (ih hkinds.2 hmixed' hleft' rfl)

end Renaming

/-! ### The parts of an alteration -/

section Parts
variable {source target : Field} {schema : State}

theorem renameConstraints_eq (h : c.Owned source) (old new : String) :
    renameConstraints table source old new = renames table old new c [.key, .fkey, .check] := by
  obtain ⟨hu, hr, hc⟩ := h
  have hkey : (c.constraint? .key).isSome = (source.unique && !source.primaryKey) := by
    rw [← hu, Column.constraint?]
    cases c.unique <;> rfl
  have hfkey : (c.constraint? .fkey).isSome = source.relation?.isSome := by
    rw [← hr, Column.constraint?, Option.isSome_map]
  have hcheck : (c.constraint? .check).isSome = (choices? source).isSome := by
    rw [← hc, Column.constraint?, Option.isSome_map]
  simp only [renameConstraints, ownedSuffixes, renames, List.flatMap_cons, List.flatMap_nil, List.append_nil, hkey,
    hfkey, hcheck, List.map_append, constraintNames, ConstraintKind.suffix]
  split <;> split <;> split <;> rfl

theorem run_recolumn (hname : c.name = source.columnName) (h : c.Owned source) :
    run table (recolumn table source target) (ofColumn table c indexes) =
      some (ofColumn table { c with name := target.columnName } indexes) := by
  rw [recolumn]
  split
  · rename_i hsame
    rw [← hsame, ← hname]
    rfl
  · rename_i hne
    have hall : (fun k => if k ∈ [ConstraintKind.key, .fkey, .check] then constraintNames table target.columnName k
        else constraintNames table source.columnName k) = constraintNames table target.columnName := by
      funext k
      cases k <;> rfl
    have hmoved : Statement.alter table (.renameColumn table source.columnName target.columnName)
        (ofColumn table c indexes) =
        some { ofColumn table c indexes with name := target.columnName } := by
      simp only [Statement.alter, ofColumn, hname, and_self, if_true]
    have hsource : { ofColumn table c indexes with name := target.columnName }.constraints =
        c.named (constraintNames table source.columnName) := by rw [constraints_ofColumn, hname]
    rw [run_cons, hmoved, Option.bind_some, renameConstraints_eq h,
      run_renames hne (by decide) (fun _ => .inl rfl) (fun _ _ => rfl) hsource, hall]
    rfl

/-- The names of the plain index that a field carries. -/
def indexNames (table : String) (field : Field) : Finset String :=
  (field.implicitIndex?.map (·.nameFor table)).toFinset

theorem indexNames_cases (table : String) (field : Field) :
    field.implicitIndex? = none ∧ indexNames table field = ∅ ∨
      field.implicitIndex? = some ⟨[field.name], false⟩ ∧
        indexNames table field = {(Index.mk [field.name] false).nameFor table} := by
  rw [indexNames, Field.implicitIndex?]
  split
  · exact .inr ⟨rfl, rfl⟩
  · exact .inl ⟨rfl, rfl⟩

theorem run_single {st : Statement} {p p' : PhysicalColumn} (h : st.alter table p = some p') :
    run table [st] p = some p' := by
  rw [run_cons, h]
  rfl

theorem run_createIndex {columns : List String} {name : String} (hc : columns = [c.name]) (hfree : name ∉ indexes) :
    run table [.createIndex false name table columns] (ofColumn table c indexes) =
      some (ofColumn table c (insert name indexes)) :=
  run_single (if_pos ⟨rfl, hc, rfl, hfree⟩)

theorem run_unindex (hname : target.name = source.name) :
    run table (unindex table source target) (ofColumn table c (indexNames table source)) =
      some (ofColumn table c (indexNames table source ∩ indexNames table target)) := by
  rcases indexNames_cases table source with ⟨hs, hes⟩ | ⟨hs, hes⟩ <;>
    rcases indexNames_cases table target with ⟨ht, het⟩ | ⟨ht, het⟩ <;>
    simp only [unindex, hs, hes, ht, het, hname, Option.isSome_none, Option.isSome_some, Option.isNone_none,
      Option.isNone_some, Bool.and_true, Bool.and_false, Bool.false_eq_true, if_true, if_false, Finset.inter_self,
      Finset.empty_inter, Finset.inter_empty]
  · rfl
  · rfl
  · exact run_single ((if_pos (Finset.mem_singleton_self _)).trans (by rw [ofColumn, Finset.erase_singleton]; rfl))
  · rfl

theorem run_reindex (hname : target.name = source.name) (hc : c.name = target.columnName) :
    run table (reindex table source target) (ofColumn table c (indexNames table source ∩ indexNames table target)) =
      some (ofColumn table c (indexNames table target)) := by
  rcases indexNames_cases table source with ⟨hs, hes⟩ | ⟨hs, hes⟩ <;>
    rcases indexNames_cases table target with ⟨ht, het⟩ | ⟨ht, het⟩ <;>
    simp only [reindex, hs, hes, ht, het, hname, Finset.inter_self, Finset.empty_inter, Finset.inter_empty]
  · rfl
  · exact run_createIndex (by rw [hc]) (Finset.notMem_empty _)
  · rfl
  · rfl

/-- A constraint that the definition `c'` has and `c` lacks is added. -/
theorem run_add (k : ConstraintKind) {st : Statement} {x : Constraint} (h : c'.without k = c)
    (hx : c'.constraint? k = some x) (hst : st.alter table (ofColumn table c indexes) =
      (ofColumn table c indexes).addConstraint (constraintNames table c.name k) x) :
    run table [st] (ofColumn table c indexes) = some (ofColumn table c' indexes) :=
  run_single (hst.trans (addConstraint_ofColumn h hx))

theorem run_retype {type : ColumnType} {reference : Option Reference} (hname : c.name = target.columnName)
    (howned : c.Owned source) (hold : columnType source schema none = .ok c.type)
    (hnew : columnType target schema none = .ok type) (href : reference? target schema none = .ok reference) :
    ∃ retyped, retype table source target schema = .ok retyped ∧
      run table retyped (ofColumn table c indexes) =
        some (ofColumn table { c with type, choices := choices? target, reference } indexes) := by
  have hfkey : source.relation?.isSome = (c.constraint? .fkey).isSome := by
    rw [← howned.reference, Column.constraint?, Option.isSome_map]
  have hcheck : (choices? source).isSome = ((c.without .fkey).constraint? .check).isSome := by
    rw [← howned.choices, Column.constraint?, Option.isSome_map]
    rfl
  refine ⟨_, by simp only [retype, hold, hnew, href, bind, Except.bind, pure, Except.pure]; rfl, ?_⟩
  -- What the old type brought goes first, then the type changes, then comes what the new type brings.
  have hdropFkey := run_drop table c .fkey indexes
  have hdropCheck := run_drop table (c.without .fkey) .check indexes
  have htyped : run table (if c.type = type then [] else [.setType table target.columnName type])
      (ofColumn table { c with choices := none, reference := none } indexes) =
        some (ofColumn table { c with type, choices := none, reference := none } indexes) := by
    split
    · rename_i hsame
      rw [← hsame]
      rfl
    · exact run_single (if_pos ⟨rfl, hname.symm⟩)
  have haddFkey : run table
      (reference.map (.addForeignKey table (constraintName table target.columnName "fkey") target.columnName)).toList
      (ofColumn table { c with type, choices := none, reference := none } indexes) =
        some (ofColumn table { c with type, choices := none, reference } indexes) := by
    cases reference with
    | none => rfl
    | some r =>
      rw [← hname]
      exact run_add .fkey rfl rfl (if_pos ⟨rfl, rfl⟩)
  have haddCheck : run table
      ((choices? target).map
        (.addCheck table (constraintName table target.columnName "check") target.columnName)).toList
      (ofColumn table { c with type, choices := none, reference } indexes) =
        some (ofColumn table { c with type, choices := choices? target, reference } indexes) := by
    cases choices? target with
    | none => rfl
    | some choices =>
      rw [← hname]
      exact run_add .check rfl rfl (if_pos ⟨rfl, rfl⟩)
  rw [hfkey, hcheck, ← hname]
  rw [← hname] at htyped haddFkey haddCheck
  exact run_append_of (run_append_of (run_append_of (run_append_of hdropFkey hdropCheck) htyped) haddFkey) haddCheck

theorem run_renullify (hname : c.name = target.columnName) (h : c.notNull = !source.nullable) :
    run table (renullify table target.columnName source target) (ofColumn table c indexes) =
      some (ofColumn table { c with notNull := !target.nullable } indexes) := by
  rw [renullify]
  split
  · rename_i hsame
    rw [← hsame, ← h]
    rfl
  · split
    · rename_i hnull
      rw [hnull]
      exact run_single (if_pos ⟨rfl, hname.symm⟩)
    · rename_i hnull
      rw [Bool.eq_false_of_not_eq_true hnull]
      exact run_single (if_pos ⟨rfl, hname.symm⟩)

theorem run_redefault (table : String) (c : Column) (indexes : Finset String) (hname : c.name = target.columnName)
    (h : c.default = source.default) :
    ∃ value, (value = target.default ∨ sameOption DefaultValue.same value target.default = true) ∧
      run table (redefault table target.columnName source target) (ofColumn table c indexes) =
        some (ofColumn table { c with default := value } indexes) := by
  rw [redefault]
  split
  · rename_i hsame
    exact ⟨source.default, .inr hsame, by rw [← h]; rfl⟩
  · refine ⟨target.default, .inl rfl, ?_⟩
    cases target.default with
    | none => exact run_single (if_pos ⟨rfl, hname.symm⟩)
    | some value => exact run_single (if_pos ⟨rfl, hname.symm⟩)

theorem run_reunify (hname : c.name = target.columnName) (h : c.unique = source.unique) :
    run table (reunify table target.columnName source target) (ofColumn table c indexes) =
      some (ofColumn table { c with unique := target.unique } indexes) := by
  rw [reunify]
  split
  · rename_i hsame
    rw [← hsame, ← h]
    rfl
  · rename_i hne
    rw [← hname]
    split
    · rename_i hunique
      have hnone : c.unique = false := by rw [h]; simpa [hunique] using hne
      rw [hunique]
      refine run_add .key ?_ rfl (if_pos ⟨rfl, rfl⟩)
      show ({ c with unique := false } : Column) = c
      rw [← hnone]
    · rename_i hunique
      have hnone := Bool.eq_false_of_not_eq_true hunique
      have hunique : source.unique = true := by
        rw [← Bool.not_eq_false]
        exact fun hs => hne (hs.trans hnone.symm)
      have hthere : c.constraint? .key = some .unique := by
        rw [Column.constraint?, h, hunique]
        rfl
      rw [hnone]
      exact run_single ((if_pos rfl).trans (dropConstraint_ofColumn hthere))

end Parts

end PhysicalColumn

/-! ### The whole alteration -/

section Altering
variable {table : String} {schema : State} {field source target : Field}

/-- The field is no primary key, and the database does not count it up. -/
structure IsPlain (f : Field) : Prop where
  primaryKey : f.primaryKey = false
  autoIncrement : f.autoIncrement = false

/-- The field that a foreign key points at is there. -/
def Resolves (f : Field) (schema : State) : Prop := ∀ r, f.relation? = some r → schema.HasField r.model r.field

theorem exists_columnType (h : Resolves field schema) : ∃ type reference, columnType field schema none = .ok type ∧
    reference? field schema none = .ok reference ∧ reference.isSome = field.relation?.isSome := by
  cases hr : field.relation? with
  | none => exact ⟨.ofFieldType field.type, none, by rw [columnType, hr]; rfl, by rw [reference?, hr], rfl⟩
  | some r =>
    obtain ⟨m, f, hm, hf⟩ := h r hr
    have htarget : referencedField field schema none = .ok f := by
      simp only [referencedField, hr, Option.filter_none, Option.none_or, hm, Option.bind_some, hf]
    refine ⟨.ofFieldType f.type, some ⟨r.model, f.columnName, r.onDelete⟩, ?_, ?_, rfl⟩
    · rw [columnType, hr, if_pos Option.isSome_some, htarget]
      rfl
    · simp only [reference?, hr, htarget]
      rfl

theorem columnOf_eq {type : ColumnType} {reference : Option Reference} (hplain : IsPlain field)
    (htype : columnType field schema none = .ok type) (href : reference? field schema none = .ok reference) :
    columnOf field schema none = .ok
      ⟨field.columnName, type, !field.nullable, field.unique, field.default, choices? field, reference⟩ := by
  have hnew : newColumnType field schema none = .ok type := by
    rw [newColumnType, hplain.autoIncrement]
    split
    · cases ‹false = true›
    · cases ‹false = true›
    · exact htype
  simp only [columnOf, hnew, href, hplain.primaryKey, bind, Except.bind, pure, Except.pure, Bool.not_false,
    Bool.and_true]

open PhysicalColumn

/-- What a new column of the field is in the database. -/
theorem made_addColumn (table : String) {type : ColumnType} {reference : Option Reference} (hplain : IsPlain field)
    (htype : columnType field schema none = .ok type) (href : reference? field schema none = .ok reference) :
    ∃ create, addColumn table field schema = .ok create ∧ made table create = some (ofColumn table
      ⟨field.columnName, type, !field.nullable, field.unique, field.default, choices? field, reference⟩
      (indexNames table field)) := by
  refine ⟨.addColumn table ⟨field.columnName, type, !field.nullable, field.unique, field.default, choices? field,
    reference⟩ :: (field.implicitIndex?.map fun i => createIndex table i [field.columnName]).toList, ?_, ?_⟩
  · simp only [addColumn, hplain.primaryKey, columnOf_eq hplain htype href, bind, Except.bind, pure, Except.pure,
      Bool.false_eq_true, if_false]
  · rw [made, if_pos rfl]
    rcases indexNames_cases table field with ⟨hnone, hnames⟩ | ⟨hsome, hnames⟩
    · rw [hnone, hnames]
      rfl
    · rw [hsome, hnames]
      exact run_createIndex rfl (Finset.notMem_empty _)

theorem relation?_of_type (h : source.type = target.type) : source.relation? = target.relation? := by
  rw [Field.relation?, h, Field.relation?]

theorem referencedField_of_type {f : Field} (h : source.type = target.type)
    (hf : referencedField source schema none = .ok f) : referencedField target schema none = .ok f := by
  rw [referencedField, relation?_of_type h] at hf
  rw [referencedField]
  cases hr : target.relation? with
  | none => simp only [hr] at hf; cases hf
  | some r =>
    simp only [hr] at hf ⊢
    split at hf
    · exact hf
    · cases hf

/-- Type and foreign key of a column come from the type of the field alone. -/
theorem definition_of_type {type type' : ColumnType} {reference reference' : Option Reference}
    (h : source.type = target.type)
    (htype : columnType source schema none = .ok type) (htype' : columnType target schema none = .ok type')
    (href : reference? source schema none = .ok reference) (href' : reference? target schema none = .ok reference') :
    type = type' ∧ reference = reference' ∧ choices? source = choices? target := by
  have hchoices : choices? source = choices? target := by rw [choices?, h, choices?]
  have hrelation := relation?_of_type h
  cases hr : target.relation? with
  | none =>
    rw [columnType, hrelation, hr, h] at htype
    rw [columnType, hr] at htype'
    rw [reference?, hrelation, hr] at href
    rw [reference?, hr] at href'
    exact ⟨Except.ok.inj (htype.symm.trans htype'), Except.ok.inj (href.symm.trans href'), hchoices⟩
  | some r =>
    rw [hr] at hrelation
    rw [columnType, hrelation, if_pos Option.isSome_some] at htype
    rw [columnType, hr, if_pos Option.isSome_some] at htype'
    rw [reference?, hrelation] at href
    rw [reference?, hr] at href'
    cases hf : referencedField source schema none with
    | error e => rw [hf] at htype; cases htype
    | ok f =>
      rw [hf] at htype href
      rw [referencedField_of_type h hf] at htype' href'
      exact ⟨Except.ok.inj (htype.symm.trans htype'), Except.ok.inj (href.symm.trans href'), hchoices⟩

/-- The column goes from the type of one field to that of the other, also when there is nothing to do. -/
theorem run_typed (table : String) (c : Column) (indexes : Finset String) {type : ColumnType}
    {reference : Option Reference} (hname : c.name = target.columnName) (howned : c.Owned source)
    (hchoices : c.choices = choices? source) (hold : columnType source schema none = .ok c.type)
    (horef : reference? source schema none = .ok c.reference) (hnew : columnType target schema none = .ok type)
    (hnref : reference? target schema none = .ok reference) :
    ∃ retyped, (if source.type = target.type then pure [] else retype table source target schema) = .ok retyped ∧
      run table retyped (ofColumn table c indexes) =
        some (ofColumn table { c with type, choices := choices? target, reference } indexes) := by
  split
  · rename_i hsame
    obtain ⟨ht, hr, hch⟩ := definition_of_type hsame hold hnew horef hnref
    exact ⟨[], rfl, by rw [← ht, ← hr, ← hch, ← hchoices]; rfl⟩
  · exact run_retype hname howned hold hnew hnref

theorem alterColumn_of_typed {retyped : List Statement} (hs : IsPlain source) (ht : IsPlain target)
    (h : (if source.type = target.type then pure [] else retype table source target schema) = .ok retyped) :
    alterColumn table source target schema = .ok
      (recolumn table source target ++ unindex table source target ++ retyped ++
      renullify table target.columnName source target ++ redefault table target.columnName source target ++
      reunify table target.columnName source target ++ reindex table source target) := by
  have hkeeps : keepsKey source target = true := by
    rw [keepsKey, hs.primaryKey, ht.primaryKey, hs.autoIncrement, ht.autoIncrement]
    rfl
  rw [alterColumn, if_pos hkeeps]
  split at h
  · rename_i htype
    cases h
    rw [if_pos htype]
    rfl
  · rename_i htype
    rw [if_neg htype, h]
    rfl

/-- A column that is taken from one description of its field to another is, after the statements, the column that the
other description makes; and every statement finds what it names. -/
theorem alterColumn_agrees (hname : target.name = source.name) (hs : IsPlain source) (ht : IsPlain target)
    (hsource : Resolves source schema) (htarget : Resolves target schema) :
    ∃ create alter create' before after new,
      addColumn table source schema = .ok create ∧ made table create = some before ∧
      alterColumn table source target schema = .ok alter ∧ run table alter before = some after ∧
      addColumn table target schema = .ok create' ∧ made table create' = some new ∧ after.Agrees new := by
  obtain ⟨oldType, oldReference, hold, horef, hosome⟩ := exists_columnType hsource
  obtain ⟨newType, newReference, hnew, hnref, hnsome⟩ := exists_columnType htarget
  obtain ⟨create, hcreate, hbefore⟩ := made_addColumn table hs hold horef
  obtain ⟨create', hcreate', hmade⟩ := made_addColumn table ht hnew hnref
  let old : Column := ⟨source.columnName, oldType, !source.nullable, source.unique, source.default, choices? source,
    oldReference⟩
  have howned : old.Owned source := ⟨by rw [hs.primaryKey, Bool.not_false, Bool.and_true], hosome, rfl⟩
  obtain ⟨retyped, hretyped, htyped⟩ := run_typed table { old with name := target.columnName }
    (indexNames table source ∩ indexNames table target) rfl ⟨howned.unique, howned.reference, howned.choices⟩ rfl hold
    horef hnew hnref
  obtain ⟨value, hvalue, hdefault⟩ := run_redefault table
    ⟨target.columnName, newType, !target.nullable, source.unique, source.default, choices? target, newReference⟩
    (indexNames table source ∩ indexNames table target) rfl rfl
  have hrun := run_append_of (run_append_of (run_append_of (run_append_of (run_append_of (run_append_of
    (run_recolumn rfl howned) (run_unindex hname)) htyped) (run_renullify rfl rfl)) hdefault) (run_reunify rfl rfl))
    (run_reindex hname rfl)
  exact ⟨create, _, create', _, _, _, hcreate, hbefore, alterColumn_of_typed hs ht hretyped, hrun, hcreate', hmade,
    ⟨rfl, rfl, rfl, hvalue, rfl, rfl⟩⟩

/-- A schema with a model to point at. -/
def people : State := .ofModels [.ofFields "person" [.autoKey defaultKey]]

/-- The owner of a task, as a foreign key that may be left out. -/
def ownerKey : Field where
  name := "owner"
  type := .foreignKey (.toModel "person" .setNull)
  nullable := true
  indexed := true
  column := some "owner_id"

/-- The owner of a task, as one of few names. -/
def ownerName : Field where
  name := "owner"
  type := .choice ["ann", "bob"]
  unique := true
  default := some (.text "ann")

/-- Every part of the description changes, and the order of the statements is such that each finds what it names. -/
theorem alterColumn_agrees_owner : Resolves ownerKey people ∧ Resolves ownerName people ∧
    ∃ create alter create' before after new,
      addColumn "task" ownerKey people = .ok create ∧ made "task" create = some before ∧
      alterColumn "task" ownerKey ownerName people = .ok alter ∧ run "task" alter before = some after ∧
      addColumn "task" ownerName people = .ok create' ∧ made "task" create' = some new ∧ after.Agrees new := by
  have hkey : Resolves ownerKey people := by
    rintro r ⟨⟩
    exact ⟨.ofFields "person" [.autoKey defaultKey], .autoKey defaultKey, rfl, rfl⟩
  have hname : Resolves ownerName people := nofun
  exact ⟨hkey, hname, alterColumn_agrees rfl ⟨rfl, rfl⟩ ⟨rfl, rfl⟩ hkey hname⟩

example : alterColumn "task" ownerKey ownerName people = .ok [
    .renameColumn "task" "owner_id" "owner",
    .renameConstraint "task" "task_owner_id_fkey" "task_owner_fkey",
    .dropIndex "task_owner_idx",
    .dropConstraint "task" "task_owner_fkey",
    .setType "task" "owner" .text,
    .addCheck "task" "task_owner_check" "owner" ["ann", "bob"],
    .setNotNull "task" "owner",
    .setDefault "task" "owner" (.text "ann"),
    .addUnique "task" "task_owner_key" "owner"] := by
  rfl

end Altering

end Schemata.Ddl
