import Schemata.Proofs.Change.Paired
import Schemata.Proofs.Ddl.Roster

/-! The statements of a change, read as an update of the roster of constraints.

The column of a field owns a constraint for each thing that the field is held to (`owns`). A new column has these inside
its definition, and the statements of a change name, make and drop the same ones. The one exception is the unique flag of
a primary key, whose constraint no definition has: turning it on or off makes or drops a constraint all the same
(`Change.flipsKey?`). -/
namespace Schemata

/-- What the change turns the unique flag of a primary key to, if it does. -/
def Change.flipsKey? : Change → Option Bool
  | .changeField _ _ source target =>
    if source.unique = target.unique ∨ target.primaryKey = false then none else some target.unique
  | _ => none

namespace Ddl

/-! ### The constraints of a schema -/

/-- Whether the column of the field owns a constraint of the kind. -/
def owns (f : Field) : ConstraintKind → Bool
  | .key => f.unique && !f.primaryKey
  | .check => (choices? f).isSome
  | .fkey => f.relation?.isSome

/-- The constraints that the column of a field owns. -/
def ownedBy (f : Field) : List (String × ConstraintKind) := (ConstraintKind.all.filter (owns f)).map (f.columnName, ·)

/-- The constraints that the columns of a model own. -/
def heldBy (m : Model) : Finset (String × ConstraintKind) := (m.fields.values.flatMap ownedBy).toFinset

/-- The roster of a database that holds the schema: every constraint that a column owns, under the name that the
database has for it. -/
def rosterOf (s : State) : Roster :=
  (s.toList.flatMap fun m => (m.fields.values.flatMap ownedBy).map fun p => p.2.on m.name p.1).toFinset

variable {m m' : Model} {k k' column : String} {kind : ConstraintKind} {f f' : Field} {p : String × ConstraintKind}

theorem mem_ownedBy : p ∈ ownedBy f ↔ p ∈ bundle f.columnName (owns f) := by
  rw [bundle, List.mem_toFinset, ownedBy]

theorem mem_heldBy : p ∈ heldBy m ↔ ∃ k f, m.field? k = some f ∧ p ∈ bundle f.columnName (owns f) := by
  simp only [heldBy, List.mem_toFinset, List.mem_flatMap, Keyed.mem_values_iff, mem_ownedBy]
  constructor
  · rintro ⟨f, ⟨k, hf⟩, hp⟩
    exact ⟨k, f, hf, hp⟩
  · rintro ⟨k, f, hf, hp⟩
    exact ⟨f, ⟨k, hf⟩, hp⟩

theorem mem_rosterOf {s : State} {x : NamedConstraint} :
    x ∈ rosterOf s ↔ ∃ m, s.model? x.table = some m ∧ x ∈ roll x.table (heldBy m) := by
  simp only [rosterOf, List.mem_toFinset, List.mem_flatMap (f := fun m : Model => _), roll, Finset.mem_image, heldBy]
  constructor
  · rintro ⟨m, hm, hx⟩
    obtain ⟨p, hp, rfl⟩ := List.mem_map.1 hx
    exact ⟨m, Ascending.find?_of_mem hm, p, hp, rfl⟩
  · rintro ⟨m, hm, p, hp, hx⟩
    obtain ⟨hin, hname⟩ := Ascending.find?_eq_some_iff.1 hm
    exact ⟨m, hin, List.mem_map.2 ⟨p, hp, by rw [← hx]; exact congrArg (p.2.on · p.1) hname⟩⟩

/-! ### One field more, less, or another -/

theorem mem_columns_of_heldBy (h : p ∈ heldBy m) : p.1 ∈ m.columns := by
  obtain ⟨k, f, hf, hp⟩ := mem_heldBy.1 h
  exact Model.mem_columns.2 ⟨k, f, hf, (mem_bundle.1 hp).1.symm⟩

theorem heldBy_withField (hfree : m.field? f.name = none) :
    heldBy (m.withFields [f]) = heldBy m ∪ bundle f.columnName (owns f) := by
  have hfield : ∀ k, (m.withFields [f]).field? k = if f.name = k then some f else m.field? k :=
    fun k => Keyed.get?_put ..
  ext p
  rw [Finset.mem_union, mem_heldBy, mem_heldBy]
  constructor
  · rintro ⟨k, g, hg, hp⟩
    rw [hfield] at hg
    split at hg
    · cases hg
      exact .inr hp
    · exact .inl ⟨k, g, hg, hp⟩
  · rintro (⟨k, g, hg, hp⟩ | hp)
    · have hne : ¬ f.name = k := by
        rintro rfl
        cases hfree.symm.trans hg
      exact ⟨k, g, by rw [hfield, if_neg hne, hg], hp⟩
    · exact ⟨f.name, f, by rw [hfield, if_pos rfl], hp⟩

theorem heldBy_withoutField {g : Field} (hm : m.DistinctColumns) (hg : m.field? f.name = some g)
    (hc : g.columnName = f.columnName) :
    heldBy (m.withoutFields [f]) = (heldBy m).filter (·.1 ≠ f.columnName) := by
  have hfield : ∀ k, (m.withoutFields [f]).field? k = if f.name = k then none else m.field? k :=
    fun k => Keyed.get?_erase ..
  ext p
  rw [Finset.mem_filter, mem_heldBy, mem_heldBy]
  constructor
  · rintro ⟨k, x, hx, hp⟩
    rw [hfield] at hx
    split at hx
    · cases hx
    · rename_i hne
      refine ⟨⟨k, x, hx, hp⟩, fun he => hne ?_⟩
      exact Model.distinctColumns_iff.1 hm _ _ g x hg hx (hc.trans (he.symm.trans (mem_bundle.1 hp).1))
  · rintro ⟨⟨k, x, hx, hp⟩, hne⟩
    have hk : ¬ f.name = k := by
      rintro rfl
      cases hg.symm.trans hx
      exact hne ((mem_bundle.1 hp).1.trans hc)
    exact ⟨k, x, by rw [hfield, if_neg hk, hx], hp⟩

/-- The constraints of the columns of other fields. -/
def heldBeside (m : Model) (column : String) : Finset (String × ConstraintKind) := (heldBy m).filter (·.1 ≠ column)

theorem ne_of_mem_heldBeside (h : p ∈ heldBeside m column) : p.1 ≠ column := (Finset.mem_filter.1 h).2

section Replaced
variable (h : m.Replaces m' k f k' f') (hm : m.DistinctColumns)
include h hm

theorem heldBy_eq : heldBy m = heldBeside m f.columnName ∪ bundle f.columnName (owns f) := by
  ext p
  rw [Finset.mem_union, heldBeside, Finset.mem_filter]
  constructor
  · intro hp
    by_cases hc : p.1 = f.columnName
    · obtain ⟨x, g, hg, hpg⟩ := mem_heldBy.1 hp
      obtain rfl := Model.distinctColumns_iff.1 hm x k g f hg h.found ((mem_bundle.1 hpg).1.symm.trans hc)
      cases h.found.symm.trans hg
      exact .inr hpg
    · exact .inl ⟨hp, hc⟩
  · rintro (hp | hp)
    · exact hp.1
    · exact mem_heldBy.2 ⟨k, f, h.found, hp⟩

theorem heldBy_replaced : heldBy m' = heldBeside m f.columnName ∪ bundle f'.columnName (owns f') := by
  ext p
  rw [Finset.mem_union, heldBeside, Finset.mem_filter, mem_heldBy, mem_heldBy]
  constructor
  · rintro ⟨x, g, hg, hp⟩
    rw [h.left] at hg
    split at hg
    · cases hg
      exact .inr hp
    · split at hg
      · cases hg
      · refine .inl ⟨⟨x, g, hg, hp⟩, fun hc => ‹¬ x = k› ?_⟩
        exact Model.distinctColumns_iff.1 hm x k g f hg h.found ((mem_bundle.1 hp).1.symm.trans hc)
  · rintro (⟨⟨x, g, hg, hp⟩, hc⟩ | hp)
    · have hx : ¬ x = k := by
        rintro rfl
        cases h.found.symm.trans hg
        exact hc (mem_bundle.1 hp).1
      have hx' : ¬ x = k' := by
        rintro rfl
        rcases h.free with rfl | hfree
        · exact hx rfl
        · cases hfree.symm.trans hg
      exact ⟨x, g, by rw [h.left, if_neg hx', if_neg hx, hg], hp⟩
    · exact ⟨k', f', by rw [h.left, if_pos rfl], hp⟩

/-- No other column is the one that the new field is in. -/
theorem ne_of_mem_heldBeside_replaced (hm' : m'.DistinctColumns) (hp : p ∈ heldBeside m f.columnName) :
    p.1 ≠ f'.columnName := by
  obtain ⟨hin, hne⟩ := Finset.mem_filter.1 hp
  rcases (h.distinctColumns_iff hm).1 hm' with hc | hnew
  · exact hc ▸ hne
  · exact fun he => hnew (he ▸ mem_columns_of_heldBy hin)

end Replaced

/-! ### New columns -/

section Columns
variable {rest : Roster} {n table : String} {schema : State} {creating : Option Model} {c : Column}
  {reference : Option Reference}

theorem isSome_of_reference? (h : reference? f schema creating = .ok reference) :
    reference.isSome = f.relation?.isSome := by
  rw [reference?] at h
  cases hr : f.relation? with
  | none =>
    rw [hr] at h
    cases h
    rfl
  | some r =>
    simp only [hr] at h
    cases ht : referencedField f schema creating with
    | error fault =>
      rw [ht] at h
      cases h
    | ok target =>
      rw [ht] at h
      cases h
      rfl

theorem isSome_constraint? (h : columnOf f schema creating = .ok c) (kind : ConstraintKind) :
    (c.constraint? kind).isSome = owns f kind := by
  obtain ⟨type, reference, -, href, rfl⟩ := of_columnOf h
  cases kind with
  | key =>
    rw [Column.constraint?, owns]
    split <;> simp_all
  | check => rw [Column.constraint?, Option.isSome_map, owns]
  | fkey => rw [Column.constraint?, Option.isSome_map, owns, isSome_of_reference? href]

/-- A new column has the constraints that it owns inside its definition. -/
theorem inline_of_columnOf (table : String) (h : columnOf f schema creating = .ok c) :
    c.inline table = (ownedBy f).map fun p => p.2.on table p.1 := by
  rw [Column.inline, ownedBy, List.map_map, name_of_columnOf h]
  simp only [isSome_constraint? h]
  rfl

theorem nodup_ownedBy (f : Field) : (ownedBy f).Nodup :=
  (ConstraintKind.nodup_all.filter _).map fun _ _ h => congrArg Prod.snd h

theorem Roster.run_addColumn (hrest : ∀ x ∈ rest, x.table ≠ n) {still : List Statement} (hfree : m.field? f.name = none)
    (hnew : f.columnName ∉ m.columns) (hc : columnOf f schema none = .ok c)
    (hstill : ∀ st ∈ still, ∀ roster, st.constrain roster = some roster) :
    (rest ∪ roll n (heldBy m)).run (.addColumn n c :: still) = some (rest ∪ roll n (heldBy (m.withFields [f]))) := by
  have hfresh : ∀ p ∈ ownedBy f, p ∉ heldBy m := fun p hp hin =>
    hnew ((mem_bundle.1 (mem_ownedBy.1 hp)).1 ▸ mem_columns_of_heldBy hin)
  rw [Roster.run_cons, Statement.constrain, inline_of_columnOf n hc, addAll_roll hrest (nodup_ownedBy f) hfresh,
    Option.bind_some, Roster.run_of_still hstill, heldBy_withField hfree]
  rfl

theorem Roster.run_createTable (hrest : ∀ x ∈ rest, x.table ≠ n) {fields : List Field} {own : List Statement}
    (hnames : (fields.map Field.name).Nodup) (hd : (Model.ofFields n fields).DistinctColumns)
    (hown : createTable n fields schema = .ok own) :
    rest.run own = some (rest ∪ roll n (heldBy (.ofFields n fields))) := by
  obtain ⟨columns, hcolumns, rfl⟩ := of_createTable hown
  have hinline : columns.flatMap (·.inline n) = (fields.flatMap ownedBy).map fun p => p.2.on n p.1 := by
    rw [List.flatMap_def, map_of_mapM hcolumns fun _ _ => inline_of_columnOf n, ← List.flatMap_def, List.map_flatMap]
  have hnodup : (fields.flatMap ownedBy).Nodup := by
    rw [Model.DistinctColumns, Model.values_ofFields n hnames] at hd
    refine List.nodup_flatMap.2 ⟨fun f _ => nodup_ownedBy f, (List.pairwise_map.1 hd).imp fun hne p hp hp' => hne ?_⟩
    exact (mem_bundle.1 (mem_ownedBy.1 hp)).1.symm.trans (mem_bundle.1 (mem_ownedBy.1 hp')).1
  have hnone : rest = rest ∪ roll n ∅ := by
    rw [roll, Finset.image_empty, Finset.union_empty]
  rw [Roster.run_cons, Statement.constrain, hinline, hnone, addAll_roll hrest hnodup fun p _ => Finset.notMem_empty p,
    Option.bind_some, Roster.run_of_still ?_, Finset.empty_union, heldBy, Model.values_ofFields n hnames]
  · rw [← hnone, roll]
  · intro st hst roster
    obtain ⟨i, -, rfl⟩ := List.mem_map.1 hst
    rfl

end Columns

/-! ### A column that changes -/

section Altering
variable {rest : Roster} {n : String} {base : Finset (String × ConstraintKind)} {kinds : ConstraintKind → Bool}
  {source target : Field} {schema : State} {own retyped : List Statement}

theorem renameConstraints_eq (table : String) (f : Field) (source target : String) :
    renameConstraints table f source target = (ConstraintKind.all.filter (owns f)).map fun k =>
      .renameConstraint table (constraintNames table source k) (constraintNames table target k) := by
  have hsuffixes : ownedSuffixes f = (ConstraintKind.all.filter (owns f)).map ConstraintKind.suffix := by
    show (if owns f .key then ["key"] else []) ++ (if owns f .fkey then ["fkey"] else []) ++
      (if owns f .check then ["check"] else []) = _
    rw [ConstraintKind.all]
    cases hkey : owns f .key <;> cases hfkey : owns f .fkey <;> cases hcheck : owns f .check <;>
      simp [hkey, hfkey, hcheck, ConstraintKind.suffix]
  rw [renameConstraints, hsuffixes, List.map_map]
  rfl

/-- The constraints of a column follow it to another name, if it takes one. -/
theorem Roster.run_renameColumn {source target : String} {tail : List Statement} (hrest : ∀ x ∈ rest, x.table ≠ n)
    (hsource : ∀ p ∈ base, p.1 ≠ source) (htarget : ∀ p ∈ base, p.1 ≠ target) :
    (rest ∪ roll n (base ∪ bundle source (owns f))).run
        ((if source = target then []
          else .renameColumn n source target :: renameConstraints n f source target) ++ tail) =
      (rest ∪ roll n (base ∪ bundle target (owns f))).run tail := by
  split
  · subst target
    rfl
  · rename_i hne
    have hfree : ∀ {column}, (∀ p ∈ base, p.1 ≠ column) → ∀ k,
        ¬ (rest ∪ roll n base).Has n (constraintNames n column k) := fun hcolumn k hin =>
      hcolumn _ ((has_union_roll hrest).1 hin) rfl
    rw [List.cons_append, Roster.run_cons, constrain_renameColumn hrest hsource, Option.bind_some, Roster.run_append,
      renameConstraints_eq, run_renameConstraints hne (ConstraintKind.nodup_all.filter _) (fun k _ => hfree hsource k)
        fun k _ => hfree htarget k, Option.bind_some, Finset.union_assoc, ← roll_union_bundle]

variable {column : String} {k : ConstraintKind} (hrest : ∀ x ∈ rest, x.table ≠ n) (hbase : ∀ p ∈ base, p.1 ≠ column)
include hrest hbase

omit hrest in
theorem mem_base_union_bundle : (column, k) ∈ base ∪ bundle column kinds ↔ kinds k = true := by
  rw [Finset.mem_union, mem_bundle, or_iff_right fun hin => hbase _ hin rfl]
  exact and_iff_right rfl

variable (kinds) in
/-- What the column may have of a kind is dropped. -/
theorem Roster.run_dropped (k : ConstraintKind) : (rest ∪ roll n (base ∪ bundle column kinds)).run
      (if kinds k = true then [.dropConstraint n (constraintNames n column k)] else []) =
    some (rest ∪ roll n (base ∪ bundle column (Function.update kinds k false))) := by
  split
  · rename_i hk
    rw [Roster.run_cons, drop_roll hrest ((mem_base_union_bundle hbase).2 hk), erase_bundle hbase]
    rfl
  · rename_i hk
    rw [← Bool.eq_false_of_not_eq_true hk, Function.update_eq_self]
    rfl

/-- What the column is to have of a kind that it lacks is added. -/
theorem Roster.run_added {α : Type} (o : Option α) (make : α → Statement) (hk : kinds k = false)
    (hmake : ∀ a roster, (make a).constrain roster = roster.add (k.on n column)) :
    (rest ∪ roll n (base ∪ bundle column kinds)).run (o.map make).toList =
      some (rest ∪ roll n (base ∪ bundle column (Function.update kinds k o.isSome))) := by
  cases o with
  | none =>
    rw [Option.isSome_none, ← hk, Function.update_eq_self]
    rfl
  | some a =>
    have hlack : (column, k) ∉ base ∪ bundle column kinds := by
      rw [mem_base_union_bundle hbase, hk]
      exact Bool.false_ne_true
    rw [Option.map_some, Option.toList_some, Roster.run_cons, hmake, add_roll hrest hlack, insert_bundle]
    rfl

/-- Another type drops the constraints of the old one and adds those of the new one. -/
theorem Roster.run_retype (hfkey : kinds .fkey = owns source .fkey) (hcheck : kinds .check = owns source .check)
    (hcolumn : target.columnName = column) (h : retype n source target schema = .ok retyped) :
    (rest ∪ roll n (base ∪ bundle column kinds)).run retyped =
      some (rest ∪ roll n (base ∪ bundle column (Function.update (owns target) .key (kinds .key)))) := by
  obtain ⟨newType, oldType, reference, ⟨-, -, href⟩, rfl⟩ := of_retype h
  subst hcolumn
  have hdropped : (rest ∪ roll n (base ∪ bundle target.columnName kinds)).run (if source.relation?.isSome then
      [.dropConstraint n (constraintName n target.columnName "fkey")] else []) =
      some (rest ∪ roll n (base ∪ bundle target.columnName (Function.update kinds .fkey false))) := by
    have h := Roster.run_dropped kinds hrest hbase .fkey
    rw [hfkey] at h
    exact h
  have hdropped' : (rest ∪ roll n (base ∪ bundle target.columnName (Function.update kinds .fkey false))).run
      (if (choices? source).isSome then [.dropConstraint n (constraintName n target.columnName "check")] else []) =
      some (rest ∪ roll n (base ∪ bundle target.columnName
        (Function.update (Function.update kinds .fkey false) .check false))) := by
    have h := Roster.run_dropped (Function.update kinds .fkey false) hrest hbase .check
    rw [Function.update_of_ne (by decide), hcheck] at h
    exact h
  have htyped : ∀ roster : Roster, roster.run (if oldType = newType then [] else
      [.setType n target.columnName newType]) = some roster := fun roster => by
    split <;> rfl
  have hlast : Function.update (Function.update (Function.update (Function.update kinds .fkey false) .check false)
      .fkey reference.isSome) .check (choices? target).isSome = Function.update (owns target) .key (kinds .key) := by
    rw [isSome_of_reference? href]
    funext k
    cases k <;> rfl
  rw [Roster.run_append, Roster.run_append, Roster.run_append, Roster.run_append, hdropped, Option.bind_some, hdropped',
    Option.bind_some, htyped, Option.bind_some,
    Roster.run_added hrest hbase (k := .fkey) reference _ rfl fun _ _ => rfl, Option.bind_some,
    Roster.run_added hrest hbase (k := .check) (choices? target) _ rfl fun _ _ => rfl, hlast]

/-- The constraint of the unique flag is made or dropped as the flag is turned on or off. For a primary key, which owns
none, there is one too many then, or none to drop. -/
theorem Roster.run_reunify (hkey : kinds .key = (source.unique && !source.primaryKey))
    (hkeeps : source.primaryKey = target.primaryKey) :
    (rest ∪ roll n (base ∪ bundle column kinds)).run (reunify n column source target) =
      if source.unique = target.unique ∨ target.primaryKey = false then
        some (rest ∪ roll n (base ∪ bundle column (Function.update kinds .key (owns target .key))))
      else if target.unique then some (rest ∪ roll n (base ∪ bundle column (Function.update kinds .key true)))
      else none := by
  rw [hkeeps] at hkey
  rw [reunify]
  by_cases hsame : source.unique = target.unique
  · have howns : owns target .key = kinds .key := by rw [hkey, owns, hsame]
    rw [if_pos hsame, if_pos (.inl hsame), howns, Function.update_eq_self]
    rfl
  rw [if_neg hsame]
  cases hon : target.unique with
  | true =>
    have hoff : source.unique = false := by simpa [hon] using hsame
    have hlack : kinds .key = false := by rw [hkey, hoff]; rfl
    have hadded := Roster.run_added hrest hbase (some ())
      (fun _ => .addUnique n (constraintName n column "key") column) hlack fun _ _ => rfl
    rw [if_pos rfl]
    refine hadded.trans ?_
    cases hkey' : target.primaryKey <;> simp [owns, hon, hoff, hkey']
  | false =>
    have hon' : source.unique = true := by simpa [hon] using hsame
    rw [if_neg Bool.false_ne_true, hon']
    cases hplain : target.primaryKey with
    | false =>
      have hthere : kinds .key = true := by rw [hkey, hon', hplain]; rfl
      have hdropped := Roster.run_dropped kinds hrest hbase .key
      rw [if_pos hthere] at hdropped
      rw [if_pos (.inr rfl), owns, hon, Bool.false_and]
      exact hdropped
    | true =>
      have hlack : (column, .key) ∉ base ∪ bundle column kinds := by
        rw [mem_base_union_bundle hbase, hkey, hplain, Bool.not_true, Bool.and_false]
        exact Bool.false_ne_true
      rw [if_neg (by decide), if_neg Bool.false_ne_true, Roster.run_cons]
      exact congrArg (Option.bind · _) (drop_roll_lacking hrest hlack)

omit hbase in
/-- The column of a changed field comes to own what the field is held to then. When the field is a primary key whose
unique flag changes, there is one constraint more than that, or the statements have no meaning. -/
theorem Roster.run_alterColumn (hsource : ∀ p ∈ base, p.1 ≠ source.columnName) (htarget : ∀ p ∈ base, p.1 ≠ target.columnName)
    (h : alterColumn n source target schema = .ok own) :
    (rest ∪ roll n (base ∪ bundle source.columnName (owns source))).run own =
      if source.unique = target.unique ∨ target.primaryKey = false then
        some (rest ∪ roll n (base ∪ bundle target.columnName (owns target)))
      else if target.unique then
        some (rest ∪ roll n (base ∪ bundle target.columnName (Function.update (owns target) .key true)))
      else none := by
  obtain ⟨hkeeps, retyped, hretyped, rfl⟩ := of_alterColumn h
  have hprimary : source.primaryKey = target.primaryKey := by
    rw [keepsKey, Bool.and_eq_true, beq_iff_eq] at hkeeps
    exact hkeeps.1
  have hunindex : ∀ roster : Roster, roster.run (unindex n source target) = some roster := fun roster => by
    rw [unindex]
    split <;> rfl
  have htyped : (rest ∪ roll n (base ∪ bundle target.columnName (owns source))).run retyped =
      some (rest ∪ roll n (base ∪ bundle target.columnName (Function.update (owns target) .key (owns source .key)))) := by
    rcases hretyped with ⟨hsame, rfl⟩ | hretyped
    · have howns : Function.update (owns target) .key (owns source .key) = owns source := by
        funext k
        cases k <;> simp [owns, choices?, Field.relation?, hsame]
      rw [howns]
      rfl
    · exact Roster.run_retype hrest htarget rfl rfl rfl hretyped
  have hnull : ∀ roster : Roster, roster.run (renullify n target.columnName source target) = some roster := fun roster => by
    rw [renullify]
    split
    · rfl
    · split <;> rfl
  have hdefault : ∀ roster : Roster, roster.run (redefault n target.columnName source target) = some roster :=
    fun roster => by
      rw [redefault]
      split
      · rfl
      · split <;> rfl
  have hreindex : ∀ roster : Roster, roster.run (reindex n source target) = some roster := fun roster => by
    rw [reindex]
    split <;> rfl
  rw [recolumn, Roster.run_renameColumn hrest hsource htarget, Roster.run_append, hunindex, Option.bind_some, Roster.run_append,
    Roster.run_append, Roster.run_append, Roster.run_append, htyped, Option.bind_some, hnull, Option.bind_some, hdefault,
    Option.bind_some, Roster.run_reunify hrest htarget rfl hprimary]
  split
  · rw [Function.update_idem, Function.update_eq_self]
    exact hreindex _
  · split
    · rw [Function.update_idem]
      exact hreindex _
    · rfl

end Altering

/-! ### A change of the schema -/

/-- The constraints of the other tables. -/
def elsewhere (s : State) (n : String) : Roster := (rosterOf s).filter (·.table ≠ n)

theorem table_of_mem_elsewhere {s : State} {n : String} : ∀ x ∈ elsewhere s n, x.table ≠ n :=
  fun _ hx => (Finset.mem_filter.1 hx).2

variable {c : Change} {s s' : State} {own : List Statement} {n : String}

theorem rosterOf_eq (hm : s.model? n = some m) : rosterOf s = elsewhere s n ∪ roll n (heldBy m) := by
  ext x
  rw [Finset.mem_union, elsewhere, Finset.mem_filter, mem_rosterOf]
  constructor
  · rintro ⟨m', hm', hx⟩
    by_cases htable : x.table = n
    · rw [htable, hm] at hm'
      cases hm'
      exact .inr (htable ▸ hx)
    · exact .inl ⟨⟨m', hm', hx⟩, htable⟩
  · rintro (⟨hx, -⟩ | hx)
    · exact hx
    · obtain ⟨p, -, rfl⟩ := Finset.mem_image.1 hx
      exact ⟨m, hm, hx⟩

theorem rosterOf_of_none (hm : s.model? n = none) : rosterOf s = elsewhere s n := by
  refine (Finset.filter_true_of_mem fun x hx he => ?_).symm
  obtain ⟨m, hmodel, -⟩ := mem_rosterOf.1 hx
  rw [he, hm] at hmodel
  cases hmodel

theorem elsewhere_of_apply (hc : c.model? = some n) (h : c.apply s = .ok s') : elsewhere s' n = elsewhere s n := by
  ext x
  rw [elsewhere, elsewhere, Finset.mem_filter, Finset.mem_filter, mem_rosterOf, mem_rosterOf]
  refine and_congr_left fun hne => ?_
  rw [Change.model?_of_apply_of_ne hc h hne]

theorem owns_of_alike {g : Field} (h : f.Alike g) : owns f = owns g := by
  have hunique : f.unique = g.unique := congrArg (·.unique) h.attributes
  have hprimary : f.primaryKey = g.primaryKey := congrArg (·.primaryKey) h.attributes
  funext k
  cases k with
  | key => rw [owns, owns, hunique, hprimary]
  | check => rw [owns, owns, choices?, choices?, h.type]
  | fkey => rw [owns, owns, h.relation?]

/-- What becomes of the roster of a schema that a change takes to another one. -/
structure Constrains (c : Change) (own : List Statement) (s s' : State) : Prop where
  keeps : c.flipsKey? = none → (rosterOf s).run own = some (rosterOf s')
  leaves : c.flipsKey? = some true → ∃ x ∉ rosterOf s', (rosterOf s).run own = some (insert x (rosterOf s'))
  fails : c.flipsKey? = some false → (rosterOf s).run own = none

theorem constrains_of_run (hc : c.flipsKey? = none) (h : (rosterOf s).run own = some (rosterOf s')) :
    Constrains c own s s' where
  keeps _ := h
  leaves he := by cases hc.symm.trans he
  fails he := by cases hc.symm.trans he

/-- What becomes of the constraints of one table is what becomes of all of them. -/
theorem constrains_of_table (hflip : c.flipsKey? = none) (hc : c.model? = some n) (h : c.apply s = .ok s')
    (hm : s.model? n = some m) (hm' : s'.model? n = some m')
    (hrun : (elsewhere s n ∪ roll n (heldBy m)).run own = some (elsewhere s n ∪ roll n (heldBy m'))) :
    Constrains c own s s' := by
  refine constrains_of_run hflip ?_
  rwa [rosterOf_eq hm, rosterOf_eq hm', elsewhere_of_apply hc h]

section Kinds

theorem constrain_createModel {fields : List Field} (hd' : s'.DistinctColumns)
    (h : (Change.createModel n fields).apply s = .ok s') (hr : render (.createModel n fields) s = .ok own) :
    Constrains (.createModel n fields) own s s' := by
  obtain ⟨hnone, hnames, hmodel⟩ := Change.of_effect_createModel (Change.effect_of_apply rfl h)
  refine constrains_of_run rfl ?_
  rw [rosterOf_of_none hnone, Roster.run_createTable table_of_mem_elsewhere hnames (hd' n _ hmodel) hr, rosterOf_eq hmodel,
    elsewhere_of_apply rfl h]

variable (hm : s.model? n = some m)
include hm

theorem constrain_deleteModel (hgone : s'.model? n = none) (h : (Change.deleteModel n).apply s = .ok s')
    (hr : render (.deleteModel n) s = .ok own) : Constrains (.deleteModel n) own s s' := by
  cases hr
  refine constrains_of_run rfl ?_
  rw [rosterOf_eq hm, Roster.run_cons, dropTable_roll table_of_mem_elsewhere, rosterOf_of_none hgone,
    elsewhere_of_apply rfl h]
  rfl

variable (hm' : s'.model? n = some m')
include hm'

theorem constrain_addField (hd : s.DistinctColumns) (hd' : s'.DistinctColumns) (ha : m.addField f = .ok m')
    (h : (Change.addField n f).apply s = .ok s') (hr : render (.addField n f) s = .ok own) :
    Constrains (.addField n f) own s s' := by
  obtain ⟨hfree, rfl⟩ := Model.of_addField ha
  have hnew := (Model.distinctColumns_withField (hd n m hm) hfree).1 (hd' n _ hm')
  obtain ⟨column, hcolumn, rfl⟩ := of_render_addField hr
  refine constrains_of_table rfl rfl h hm hm'
    (Roster.run_addColumn table_of_mem_elsewhere hfree hnew hcolumn fun st hst roster => ?_)
  obtain ⟨i, -, rfl⟩ := Option.map_eq_some_iff.1 (Option.mem_toList.1 hst)
  rfl

theorem constrain_removeField (hd : s.DistinctColumns) (ha : m.removeField f.name = .ok m')
    (h : (Change.removeField n f).apply s = .ok s') (hr : render (.removeField n f) s = .ok own)
    (hfit : Fits (.removeField n f) s) : Constrains (.removeField n f) own s s' := by
  cases hr
  obtain ⟨hin, rfl⟩ := Model.of_removeField ha
  obtain ⟨g, hg⟩ := Option.isSome_iff_exists.1 hin
  refine constrains_of_table rfl rfl h hm hm' ?_
  rw [Roster.run_cons, dropColumn_roll table_of_mem_elsewhere, heldBy_withoutField (hd n m hm) hg (hfit m g hm hg)]
  rfl

theorem constrain_changeField {name : String} {source target : Field} (hd : s.DistinctColumns)
    (hd' : s'.DistinctColumns) (ha : m.changeField name source target = .ok m')
    (h : (Change.changeField n name source target).apply s = .ok s')
    (hr : render (.changeField n name source target) s = .ok own) :
    Constrains (.changeField n name source target) own s s' := by
  obtain ⟨⟨current, hcurrent, hsame⟩, rfl⟩ := Model.of_changeField ha
  have hreplaces : m.Replaces (m.revised [⟨name, source, target⟩]) name current name target :=
    Model.replaces_revised hcurrent
  have halike := Field.alike_of_same hsame
  have hrun := Roster.run_alterColumn (table_of_mem_elsewhere (s := s))
    (fun p (hp : p ∈ heldBeside m current.columnName) => halike.columnName ▸ ne_of_mem_heldBeside hp)
    (fun p hp => ne_of_mem_heldBeside_replaced hreplaces (hd n m hm) (hd' n _ hm') hp) hr
  rw [← owns_of_alike halike, ← halike.columnName, ← heldBy_eq hreplaces (hd n m hm), ← rosterOf_eq hm] at hrun
  have hroster : rosterOf s' = elsewhere s n ∪ roll n (heldBeside m current.columnName ∪
      bundle target.columnName (owns target)) := by
    rw [rosterOf_eq hm', elsewhere_of_apply rfl h, heldBy_replaced hreplaces (hd n m hm)]
  rw [← hroster] at hrun
  by_cases hflip : source.unique = target.unique ∨ target.primaryKey = false
  · rw [if_pos hflip] at hrun
    exact constrains_of_run (if_pos hflip) hrun
  rw [if_neg hflip] at hrun
  have hc : (Change.changeField n name source target).flipsKey? = some target.unique := if_neg hflip
  refine ⟨fun hnone => ?_, fun hon => ?_, fun hoff => ?_⟩
  · cases hc.symm.trans hnone
  · have hon : target.unique = true := Option.some.inj (hc.symm.trans hon)
    have hlack : (target.columnName, .key) ∉ heldBeside m current.columnName ∪
        bundle target.columnName (owns target) := by
      rw [mem_base_union_bundle fun p hp =>
        ne_of_mem_heldBeside_replaced hreplaces (hd n m hm) (hd' n _ hm') hp, owns]
      simp [not_or.1 hflip]
    refine ⟨ConstraintKind.key.on n target.columnName, fun hin => hlack ?_, ?_⟩
    · rw [hroster] at hin
      exact (has_union_roll table_of_mem_elsewhere).1 ⟨_, hin, rfl, rfl⟩
    · rw [hrun, if_pos hon, ← insert_bundle, roll_insert, Finset.union_insert, ← hroster]
  · have hoff : target.unique = false := Option.some.inj (hc.symm.trans hoff)
    rw [hrun, hoff, if_neg Bool.false_ne_true]

theorem constrain_renameField {source target : String} (hd : s.DistinctColumns) (hd' : s'.DistinctColumns)
    (ha : m.renameField source target = .ok m') (h : (Change.renameField n source target).apply s = .ok s')
    (hr : render (.renameField n source target) s = .ok own) :
    Constrains (.renameField n source target) own s s' := by
  obtain ⟨hfree, ⟨f, hf⟩, rfl⟩ := Model.of_renameField ha
  have hreplaces := Model.replaces_renamed hf hfree
  have howns : owns (f.rename target) = owns f := by
    funext k
    cases k <;> rfl
  cases (render_renameField hm hf).symm.trans hr
  rw [renameField, State.name_of_model? hm]
  refine constrains_of_table rfl rfl h hm hm' ?_
  rw [heldBy_eq hreplaces (hd n m hm), heldBy_replaced hreplaces (hd n m hm), howns]
  refine (Roster.run_renameColumn table_of_mem_elsewhere (fun p => ne_of_mem_heldBeside)
    fun p => ne_of_mem_heldBeside_replaced hreplaces (hd n m hm) (hd' n _ hm')).trans ?_
  refine Roster.run_of_still fun st hst roster => ?_
  obtain ⟨i, -, rfl⟩ := List.mem_map.1 hst
  rfl

theorem constrain_addIndex {i : Index} (ha : m.addIndex i = .ok m') (h : (Change.addIndex n i).apply s = .ok s')
    (hr : render (.addIndex n i) s = .ok own) : Constrains (.addIndex n i) own s s' := by
  obtain rfl := Model.of_addIndex ha
  cases (render_addIndex hm).symm.trans hr
  exact constrains_of_table rfl rfl h hm hm' rfl

theorem constrain_removeIndex {i : Index} (ha : m.removeIndex i = .ok m')
    (h : (Change.removeIndex n i).apply s = .ok s') (hr : render (.removeIndex n i) s = .ok own) :
    Constrains (.removeIndex n i) own s s' := by
  obtain rfl := Model.of_removeIndex ha
  cases hr
  exact constrains_of_table rfl rfl h hm hm' rfl

end Kinds

/-- **The statements of a change** take the roster of the schema before it to that of the schema after it, unless the
unique flag of a primary key is turned on or off. Turned on, there is a constraint that no column owns then; turned off,
there is a statement without meaning among them. -/
theorem constrain_render (hr : render c s = .ok own) (h : c.apply s = .ok s') (hd : s.DistinctColumns)
    (hd' : s'.DistinctColumns) (hfit : Fits c s) : Constrains c own s s' := by
  obtain ⟨name, payload, rfl, rfl⟩ | ⟨n, o, o', hc, hm, hm', ht⟩ := Change.data_or_turns_of_apply h
  · obtain rfl := of_render_runData hr
    exact constrains_of_run rfl rfl
  cases ht with
  | runData => cases hc
  | createModel => exact constrain_createModel hd' h hr
  | deleteModel => cases hc; exact constrain_deleteModel hm hm' h hr
  | addField ha => cases hc; exact constrain_addField hm hm' hd hd' ha h hr
  | removeField ha => cases hc; exact constrain_removeField hm hm' hd ha h hr hfit
  | changeField _ ha => cases hc; exact constrain_changeField hm hm' hd hd' ha h hr
  | renameField ha => cases hc; exact constrain_renameField hm hm' hd hd' ha h hr
  | addIndex ha => cases hc; exact constrain_addIndex hm hm' ha h hr
  | removeIndex ha => cases hc; exact constrain_removeIndex hm hm' ha h hr

/-! ### Changes in a row -/

/-- What becomes of the roster of a schema along changes in a row. The first of them that turns the unique flag of a
primary key on or off decides. -/
structure ConstrainsAll (cs : List Change) (statements : List Statement) (s after : State) : Prop where
  keeps : cs.findSome? Change.flipsKey? = none → (rosterOf s).run statements = some (rosterOf after)
  leaves : cs.findSome? Change.flipsKey? = some true → ∃ done rest own t, cs = done ++ rest ∧
    statements? done s = some (own, t) ∧ ∃ x ∉ rosterOf t, (rosterOf s).run own = some (insert x (rosterOf t))
  fails : cs.findSome? Change.flipsKey? = some false → (rosterOf s).run statements = none

theorem run_statements_roster {cs : List Change} {after : State} {statements : List Statement}
    (h : statements? cs s = some (statements, after)) (hway : ∀ call ∈ Change.paired cs s, call.2.DistinctColumns)
    (hafter : after.DistinctColumns) (hfit : ∀ call ∈ Change.paired cs s, Fits call.1 call.2) :
    ConstrainsAll cs statements s after := by
  induction cs generalizing s statements with
  | nil =>
    cases h
    exact ⟨fun _ => rfl, nofun, nofun⟩
  | cons c rest ih =>
    obtain ⟨own, u, more, hr, ha, hmore, rfl⟩ := of_statements?_cons h
    rw [Change.paired_cons ha] at hway hfit
    rw [List.forall_mem_cons] at hway hfit
    have hnext := Change.of_paired (applyAll_of_statements? hmore) hway.2 hafter
    have hfirst := constrain_render hr ha hway.1 hnext hfit.1
    have hrest := ih hmore hway.2 hfit.2
    cases hc : c.flipsKey? with
    | none =>
      have hfind : (c :: rest).findSome? Change.flipsKey? = rest.findSome? Change.flipsKey? := by
        rw [List.findSome?_cons, hc]
      have hrun := hfirst.keeps hc
      refine ⟨fun hnone => ?_, fun hon => ?_, fun hoff => ?_⟩
      · rw [Roster.run_append, hrun]
        exact hrest.keeps (hfind ▸ hnone)
      · obtain ⟨done, behind, own', t, rfl, hown, x, hx, hleft⟩ := hrest.leaves (hfind ▸ hon)
        refine ⟨c :: done, behind, own ++ own', t, rfl, ?_, x, hx, ?_⟩
        · rw [statements?_cons hr ha, hown]
          rfl
        · rw [Roster.run_append, hrun]
          exact hleft
      · rw [Roster.run_append, hrun]
        exact hrest.fails (hfind ▸ hoff)
    | some on =>
      have hfind : (c :: rest).findSome? Change.flipsKey? = some on := by
        rw [List.findSome?_cons, hc]
      refine ⟨fun hnone => ?_, fun hon => ?_, fun hoff => ?_⟩
      · cases hfind.symm.trans hnone
      · obtain ⟨x, hx, hleft⟩ := hfirst.leaves (hc.trans (hfind.symm.trans hon))
        exact ⟨[c], rest, own, u, rfl, by rw [statements?_cons hr ha]; simp [statements?], x, hx, hleft⟩
      · rw [Roster.run_append, hfirst.fails (hc.trans (hfind.symm.trans hoff))]
        rfl

end Ddl

end Schemata
