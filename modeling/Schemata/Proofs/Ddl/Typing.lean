import Schemata.Proofs.Ddl.Alteration
import Schemata.Proofs.Ddl.Catalogue

/-! The type of a foreign key's column.

A foreign key's column is made, or taken to, the type that the field it points at has by its own description
(`Ddl.columnType_of_reference`). That is the type of the referenced column if the field is no foreign key itself.
References that lead on (`Leads`) are not followed: a foreign key that points at a foreign key is an integer, whatever
the column at the end of the references is. -/
namespace Schemata.Ddl

/-- The type of the values in a column: those that the database counts up are plain numbers. -/
def ColumnType.values : ColumnType → ColumnType
  | .serial => .integer
  | .bigSerial => .bigInt
  | type => type

theorem ColumnType.values_ofFieldType (type : FieldType) : (ofFieldType type).values = ofFieldType type := by
  cases type <;> rfl

variable {schema : State} {creating : Option Model} {field target source base f g : Field} {type : ColumnType}
  {n k : Nat}

/-! ### One column -/

theorem isSome_of_referencedField (h : referencedField field schema creating = .ok target) :
    field.relation?.isSome = true := by
  rw [referencedField] at h
  cases hr : field.relation? with
  | none =>
    rw [hr] at h
    cases h
  | some r => rfl

theorem columnType_of_none (h : field.relation? = none) :
    columnType field schema creating = .ok (.ofFieldType field.type) := by
  rw [columnType, h]
  rfl

/-- The type of a foreign key is that of the description of the field it points at. -/
theorem columnType_of_reference (h : referencedField field schema creating = .ok target) :
    columnType field schema creating = .ok (.ofFieldType target.type) := by
  rw [columnType, if_pos (isSome_of_referencedField h), h]
  rfl

theorem exists_of_columnType {r : Relation} (hr : field.relation? = some r)
    (h : columnType field schema creating = .ok type) :
    ∃ target, referencedField field schema creating = .ok target ∧ type = .ofFieldType target.type := by
  rw [columnType, hr, if_pos Option.isSome_some] at h
  cases hf : referencedField field schema creating with
  | error fault =>
    rw [hf] at h
    cases h
  | ok f =>
    rw [hf] at h
    cases h
    exact ⟨f, rfl, rfl⟩

theorem ofFieldType_of_relation? {r : Relation} (h : field.relation? = some r) :
    ColumnType.ofFieldType field.type = .integer := by
  rw [Field.relation?] at h
  split at h
  · rename_i r hr
    rw [hr]
    rfl
  · cases h

theorem columnType_of_type (h : source.type = target.type) (ht : columnType target schema none = .ok type) :
    columnType source schema none = .ok type := by
  cases hr : target.relation? with
  | none =>
    rw [columnType_of_none hr] at ht
    rwa [columnType_of_none ((relation?_of_type h).trans hr), h]
  | some r =>
    obtain ⟨f, hf, rfl⟩ := exists_of_columnType hr ht
    exact columnType_of_reference (referencedField_of_type h.symm hf)

theorem values_of_columnType (h : columnType field schema creating = .ok type) : type.values = type := by
  cases hr : field.relation? with
  | none =>
    cases (columnType_of_none hr).symm.trans h
    exact ColumnType.values_ofFieldType _
  | some r =>
    obtain ⟨f, -, rfl⟩ := exists_of_columnType hr h
    exact ColumnType.values_ofFieldType _

theorem columnType_of_newColumnType (h : newColumnType field schema creating = .ok type) :
    columnType field schema creating = .ok type.values := by
  rw [newColumnType] at h
  split at h
  · rename_i hinteger _
    cases h
    rw [columnType_of_none (by rw [Field.relation?, hinteger]), hinteger]
    rfl
  · rename_i hbig _
    cases h
    rw [columnType_of_none (by rw [Field.relation?, hbig]), hbig]
    rfl
  · rw [h, values_of_columnType h]

/-- A new column of a field holds values of the field's type. -/
theorem columnType_of_columnOf {column : Column} (h : columnOf field schema creating = .ok column) :
    columnType field schema creating = .ok column.type.values := by
  obtain ⟨type, reference, htype, -, rfl⟩ := of_columnOf h
  exact columnType_of_newColumnType htype

theorem newColumnType_of_reference (h : referencedField field schema creating = .ok target) :
    newColumnType field schema creating = .ok (.ofFieldType target.type) := by
  have hsome := isSome_of_referencedField h
  rw [← columnType_of_reference h, newColumnType]
  -- the database counts up no foreign key
  split
  · rename_i hinteger _
    rw [Field.relation?, hinteger] at hsome
    cases hsome
  · rename_i hbig _
    rw [Field.relation?, hbig] at hsome
    cases hsome
  · rfl

theorem exists_columnOf_of_reference (h : referencedField field schema creating = .ok target) :
    ∃ column, columnOf field schema creating = .ok column ∧ column.type = .ofFieldType target.type := by
  obtain ⟨r, hr⟩ := Option.isSome_iff_exists.1 (isSome_of_referencedField h)
  have href : reference? field schema creating = .ok (some ⟨r.model, target.columnName, r.onDelete⟩) := by
    simp only [reference?, hr, h]
    rfl
  rw [columnOf, newColumnType_of_reference h, href]
  exact ⟨_, rfl, rfl⟩

/-! ### A change of a column -/

section Altering
variable {table table' column : String} {statements : List Statement}

theorem setType_mem_retype_iff (h : retype table source target schema = .ok statements) :
    .setType table' column type ∈ statements ↔ table' = table ∧ column = target.columnName ∧
      columnType target schema none = .ok type ∧ columnType source schema none ≠ .ok type := by
  obtain ⟨new, old, reference, ⟨hnew, hold, -⟩, rfl⟩ := of_retype h
  rw [hnew, hold]
  simp only [List.mem_append, Option.mem_toList, Option.map_eq_some_iff, List.mem_ite_nil_left, List.mem_ite_nil_right,
    List.mem_singleton, Statement.setType.injEq, Except.ok.injEq, ne_eq, reduceCtorEq, and_false, exists_false, or_false,
    false_or]
  constructor
  · rintro ⟨hne, rfl, rfl, rfl⟩
    exact ⟨rfl, rfl, rfl, hne⟩
  · rintro ⟨rfl, rfl, rfl, hne⟩
    exact ⟨hne, rfl, rfl, rfl⟩

/-- An alteration gives a column a type if that is the type of the field as it is to be and not of the field as it
was. -/
theorem setType_mem_alterColumn_iff (h : alterColumn table source target schema = .ok statements) :
    .setType table' column type ∈ statements ↔ table' = table ∧ column = target.columnName ∧
      columnType target schema none = .ok type ∧ columnType source schema none ≠ .ok type := by
  obtain ⟨-, retyped, hretyped, rfl⟩ := of_alterColumn h
  have hrecolumn : .setType table' column type ∉ recolumn table source target := by
    simp [recolumn, renameConstraints]
  have hunindex : .setType table' column type ∉ unindex table source target := by
    simp [unindex]
  have hrenullify : .setType table' column type ∉ renullify table target.columnName source target := by
    rw [renullify]
    split_ifs <;> simp
  have hredefault : .setType table' column type ∉ redefault table target.columnName source target := by
    rw [redefault]
    cases target.default <;> simp
  have hreunify : .setType table' column type ∉ reunify table target.columnName source target := by
    rw [reunify]
    split_ifs <;> simp
  have hreindex : .setType table' column type ∉ reindex table source target := by
    rw [reindex]
    split <;> simp [createIndex]
  -- only the statements for another type give a column a type
  simp only [List.mem_append, hrecolumn, hunindex, hrenullify, hredefault, hreunify, hreindex, false_or, or_false]
  rcases hretyped with ⟨hsame, rfl⟩ | hretyped
  · simp only [List.not_mem_nil, false_iff, not_and, not_not]
    exact fun _ _ ht => columnType_of_type hsame ht
  · exact setType_mem_retype_iff hretyped

end Altering

/-! ### References of references -/

/-- So many references lead from one field to another. -/
inductive Leads (schema : State) (creating : Option Model) : Field → Nat → Field → Prop
  | here (f : Field) : Leads schema creating f 0 f
  | on {f g base : Field} {n : Nat} (found : referencedField f schema creating = .ok g)
      (rest : Leads schema creating g n base) : Leads schema creating f (n + 1) base

/-- References that end in a field lead on to it from every field on the way. -/
theorem Leads.rest (h : Leads schema creating f n base) (hbase : base.relation? = none)
    (hg : Leads schema creating f k g) : ∃ j ≤ n, Leads schema creating g j base := by
  induction hg generalizing n with
  | here f => exact ⟨n, le_rfl, h⟩
  | on found _ ih =>
    cases h with
    | here =>
      have hsome := isSome_of_referencedField found
      rw [hbase] at hsome
      cases hsome
    | on found' rest =>
      cases found.symm.trans found'
      obtain ⟨j, hj, hleads⟩ := ih rest
      exact ⟨j, hj.trans (Nat.le_succ _), hleads⟩

/-- Only the last reference has the type of the field at the end. -/
theorem Leads.columnType (h : Leads schema creating f n base) (hbase : base.relation? = none) :
    columnType f schema creating = .ok (if n ≤ 1 then .ofFieldType base.type else .integer) := by
  cases h with
  | here => exact columnType_of_none hbase
  | on found rest =>
    rw [columnType_of_reference found]
    cases rest with
    | here => rfl
    | on found' =>
      obtain ⟨r, hr⟩ := Option.isSome_iff_exists.1 (isSome_of_referencedField found')
      rw [ofFieldType_of_relation? hr]
      rfl

/-- The columns along references have the type of the last one exactly when there is one reference at most, or that
type is integer. -/
theorem Leads.alike_iff (h : Leads schema creating f n base) (hbase : base.relation? = none) :
    (∀ k g, Leads schema creating f k g → Ddl.columnType g schema creating = .ok (.ofFieldType base.type)) ↔
      n ≤ 1 ∨ ColumnType.ofFieldType base.type = .integer := by
  constructor
  · intro hall
    have hf := (h.columnType hbase).symm.trans (hall 0 f (.here f))
    split at hf
    · exact .inl ‹_›
    · exact .inr (Except.ok.inj hf).symm
  · intro hfew k g hg
    obtain ⟨j, hj, hrest⟩ := h.rest hbase hg
    rw [hrest.columnType hbase]
    rcases hfew with hn | hinteger
    · rw [if_pos (hj.trans hn)]
    · rw [hinteger, ite_self]

/-! ### The type of a foreign key -/

/-- **A foreign key has the type of what it points at.** Its column is made with the type in the description of the
field it points at, and is taken to that type unless it has it already. The referenced column holds that type unless
it is itself a foreign key of another type than integer, so the columns along references are of one type when one
reference leads to the end or the type there is integer, and else they are not. -/
theorem type_of_reference (h : referencedField field schema creating = .ok target) :
    (∃ column, columnOf field schema creating = .ok column ∧ column.type = .ofFieldType target.type) ∧
      (creating = none → ∀ table source statements, alterColumn table source field schema = .ok statements →
        ∀ type, .setType table field.columnName type ∈ statements ↔
          type = .ofFieldType target.type ∧ columnType source schema none ≠ .ok type) ∧
      (∀ column, columnOf target schema creating = .ok column →
        (.ofFieldType target.type = column.type.values ↔
          target.relation? = none ∨ column.type.values = .integer)) ∧
      ∀ n base, Leads schema creating field n base → base.relation? = none →
        ((∀ k g, Leads schema creating field k g →
          columnType g schema creating = .ok (.ofFieldType base.type)) ↔
            n = 1 ∨ ColumnType.ofFieldType base.type = .integer) := by
  refine ⟨exists_columnOf_of_reference h, ?_, ?_, ?_⟩
  · rintro rfl table source statements hstatements type
    rw [setType_mem_alterColumn_iff hstatements, columnType_of_reference h, Except.ok.injEq]
    simp [eq_comm]
  · intro column hcolumn
    have htype := columnType_of_columnOf hcolumn
    cases hr : target.relation? with
    | none => simpa [columnType_of_none hr] using htype
    | some r => simp [ofFieldType_of_relation? hr, eq_comm]
  · intro n base hleads hbase
    rw [hleads.alike_iff hbase]
    cases hleads with
    | here =>
      have hsome := isSome_of_referencedField h
      rw [hbase] at hsome
      cases hsome
    | on found rest => simp

/-- Accounts that count beyond integers. -/
def accounts : Model := .ofFields "account" [{ name := "id", type := .bigInt, primaryKey := true, autoIncrement := true }]

/-- The profile of an account, which is its key. -/
def profileKey : Field where
  name := "account"
  type := .foreignKey (.toModel "account" .cascade)
  primaryKey := true

/-- Profiles by the account. -/
def profiles : Model := .ofFields "profile" [profileKey]

/-- The profile that a picture shows. -/
def pictureKey : Field where
  name := "profile"
  type := .foreignKey ⟨"profile", "account", none, none, .cascade⟩

/-- The key of a profile is a big integer as the account's is, and two references away the type is another. -/
theorem type_of_reference_sample :
    let schema := State.ofModels [accounts, profiles]
    (∃ column, columnOf profileKey schema none = .ok column ∧ column.type = .bigInt) ∧
      (∃ column, columnOf pictureKey schema none = .ok column ∧ column.type = .integer) ∧
      ¬ ∀ k g, Leads schema none pictureKey k g → columnType g schema none = .ok .bigInt := by
  intro schema
  have hprofile : referencedField profileKey schema none =
    .ok { name := "id", type := .bigInt, primaryKey := true, autoIncrement := true } := rfl
  have hpicture : referencedField pictureKey schema none = .ok profileKey := rfl
  obtain ⟨hmade, -⟩ := type_of_reference hprofile
  obtain ⟨hmade', -, -, hchain⟩ := type_of_reference hpicture
  refine ⟨hmade, hmade', fun hall => ?_⟩
  rcases (hchain 2 _ (.on hpicture (.on hprofile (.here _))) rfl).1 hall with hone | hinteger
  · cases hone
  · cases hinteger

/-- A foreign key that points at a foreign key may be of another type than that. -/
theorem exists_unlike_reference :
    let schema := State.ofModels [accounts, profiles]
    Change.applyAll [.createModel "account" accounts.fields.values, .createModel "profile" [profileKey]]
        Ascending.empty = .ok schema ∧
      referencedField pictureKey schema none = .ok profileKey ∧
      columnType profileKey schema none = .ok .bigInt ∧
      ∃ column, columnOf pictureKey schema none = .ok column ∧ column.type = .integer :=
  ⟨rfl, rfl, rfl, _, rfl, rfl⟩

end Schemata.Ddl
