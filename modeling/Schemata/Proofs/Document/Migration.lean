import Schemata.Document.Migration
import Schemata.Proofs.Document.Data

/-! Migrations read back from their documents.

What is written of a field, an index or a change is read back, from whatever order the members of its record
are in. The migration that comes back is the one that was written, but that defaults that are no numbers have
become one and the same (`Migration.settled`). -/
namespace Schemata

open Members

/-! ### Foreign keys and types -/

theorem OnDelete.ofDatum?_of_readsAs (p : OnDelete) {e : Datum} (h : (Datum.text p.word).readsAs e = true) :
    OnDelete.ofDatum? .change e = some p := by
  rw [Datum.eq_of_readsAs_text h]
  cases p <;> rfl

namespace Relation

theorem nodup_members (r : Relation) : (r.members.map Prod.fst).Nodup := by
  have hsub : (r.members.map Prod.fst).Sublist memberNames := by
    simp only [members, List.map_append]
    exact ((((List.Sublist.refl ["model", "field"]).append (names_ofOption "name" _ _)).append
      (names_ofOption "related_name" _ _)).append (.refl ["on_delete"]))
  exact hsub.nodup (by decide)

theorem ofDatum?_of_readsAs (r : Relation) {e : Datum} (h : r.toDatum.readsAs e = true) :
    ofDatum? .change e = some r := by
  obtain ⟨others, rfl, hall⟩ := exists_of_readsAs h r.nodup_members
  have hmodel := hall.text "model" (s := r.model) (by simp [members])
  have hfield : Members.defaulted others "field" Datum.text? defaultKey = some r.field :=
    hall.defaulted "field" (d := .text r.field) (by simp [members])
      fun e he => by rw [Datum.eq_of_readsAs_text he]; rfl
  have hname := hall.optionalText "name" (o := r.name)
    (by simp [members])
  have hrelated := hall.optionalText "related_name" (o := r.relatedName)
    (by simp [members])
  have hdelete := hall.required "on_delete" (d := .text r.onDelete.word)
    (by simp [members])
    fun e he => OnDelete.ofDatum?_of_readsAs r.onDelete he
  simp [ofDatum?, Datum.members?, hmodel, hfield, hname, hrelated, hdelete]

end Relation

namespace FieldType

/-- A type that is read from its parameters. -/
theorem ofDatum?_record {name : String} {d : Datum} (h : ofWord? name = none) :
    ofDatum? .change (.record [(name, d)]) = ofParameters? .change name d := by
  simp [ofDatum?, Datum.case?, h]

theorem ofDatum?_of_readsAs (t : FieldType) {e : Datum} (h : t.toDatum.readsAs e = true) :
    ofDatum? .change e = some t := by
  cases t with
  | varchar n =>
    obtain ⟨d, rfl, hd⟩ := exists_of_readsAs_single h
    obtain ⟨others, rfl, hall⟩ := exists_of_readsAs hd (by simp)
    have hn : Members.required others "max_length" Datum.word32? = some n :=
      hall.required "max_length" (d := .int n.toNat) (by simp) fun e he =>
        (congrArg Datum.word32? (Datum.eq_of_readsAs_int he)).trans (Datum.word32?_toNat n)
    rw [ofDatum?_record (by simp [ofWord?])]
    simp [ofParameters?, Datum.parameters?, hn]
  | decimal p s =>
    obtain ⟨d, rfl, hd⟩ := exists_of_readsAs_single h
    obtain ⟨others, rfl, hall⟩ := exists_of_readsAs hd (by simp)
    have hp := hall.required "precision" (d := .int p.toNat) (by simp)
      fun e he => (congrArg Datum.byte? (Datum.eq_of_readsAs_int he)).trans (Datum.byte?_toNat p)
    have hs := hall.required "scale" (d := .int s.toNat) (by simp)
      fun e he => (congrArg Datum.byte? (Datum.eq_of_readsAs_int he)).trans (Datum.byte?_toNat s)
    rw [ofDatum?_record (by simp [ofWord?])]
    simp [ofParameters?, Datum.parameters?, hp, hs]
  | choice choices =>
    obtain ⟨d, rfl, hd⟩ := exists_of_readsAs_single h
    obtain ⟨d', rfl, hd'⟩ := exists_of_readsAs_single hd
    have hlist := Datum.listOf?_of_readsAs Datum.text? (f := id) hd'
      fun s _ e he => by rw [Datum.eq_of_readsAs_text he]; rfl
    rw [ofDatum?_record (by simp [ofWord?])]
    simp [ofParameters?, Datum.parameters?, Members.required, hlist]
  | foreignKey r =>
    obtain ⟨d, rfl, hd⟩ := exists_of_readsAs_single h
    rw [ofDatum?_record (by simp [ofWord?])]
    simp [ofParameters?, Relation.ofDatum?_of_readsAs r hd]
  | _ =>
    rw [Datum.eq_of_readsAs_text h]
    simp [ofDatum?, Datum.case?, ofWord?, Datum.isUnit]

end FieldType

/-! ### Fields and indexes -/

namespace DefaultValue

/-- The default that is read where this one was written. -/
def settled : DefaultValue → DefaultValue
  | .float x => .float x.settled
  | d => d

theorem alike_settled (d : DefaultValue) : d.Alike d.settled := by
  cases d with
  | float x =>
    cases hx : x.isNaN with
    | false =>
      rw [settled, Binary64.settled_of_not_isNaN hx]
      exact .refl _
    | true => exact .inr ⟨⟨x, rfl, hx⟩, ⟨x.settled, rfl, x.isNaN_settled.trans hx⟩⟩
  | _ => exact .refl _

/-- A default that is read from its parameters. -/
theorem ofDatum?_record {name : String} {d : Datum} (h : name ≠ "null") :
    ofDatum? .change (.record [(name, d)]) = ofParameters? name d := by
  simp [ofDatum?, Datum.case?, h]

theorem ofDatum?_of_readsAs (v : DefaultValue) {e : Datum} (h : v.toDatum.readsAs e = true) :
    e ≠ .null ∧ ofDatum? .change e = some v.settled := by
  cases v with
  | null =>
    rw [Datum.eq_of_readsAs_text h]
    exact ⟨nofun, rfl⟩
  | bool b =>
    obtain ⟨d, rfl, hd⟩ := exists_of_readsAs_single h
    rw [ofDatum?_record (by decide), Datum.eq_of_readsAs_bool hd]
    exact ⟨nofun, rfl⟩
  | int n =>
    obtain ⟨d, rfl, hd⟩ := exists_of_readsAs_single h
    rw [ofDatum?_record (by decide), Datum.eq_of_readsAs_int hd]
    exact ⟨nofun, by simp [ofParameters?, Datum.int64?_toInt, settled]⟩
  | float x =>
    obtain ⟨d, rfl, hd⟩ := exists_of_readsAs_single h
    rw [ofDatum?_record (by decide), Datum.eq_of_readsAs_float hd]
    exact ⟨nofun, rfl⟩
  | text s =>
    obtain ⟨d, rfl, hd⟩ := exists_of_readsAs_single h
    rw [ofDatum?_record (by decide), Datum.eq_of_readsAs_text hd]
    exact ⟨nofun, rfl⟩
  | expression s =>
    obtain ⟨d, rfl, hd⟩ := exists_of_readsAs_single h
    rw [ofDatum?_record (by decide), Datum.eq_of_readsAs_text hd]
    exact ⟨nofun, rfl⟩

end DefaultValue

namespace Field

/-- The field that is read where this one was written. -/
def settled (f : Field) : Field := { f with default := f.default.map .settled }

theorem alike_settled (f : Field) : f.Alike f.settled := by
  refine ⟨rfl, ?_⟩
  rw [settled]
  cases f.default with
  | none => exact .none
  | some d => exact .some d.alike_settled

theorem nodup_members (f : Field) : (f.members.map Prod.fst).Nodup := by
  have hsub : (f.members.map Prod.fst).Sublist memberNames := by
    simp only [members, List.map_append]
    exact ((((((((List.Sublist.refl ["name", "type"]).append (names_ofFlag "nullable" _)).append
      (names_ofFlag "blank" _)).append (names_ofFlag "unique" _)).append
      (names_ofFlag "indexed" _)).append (names_ofFlag "primary_key" _)).append
      (names_ofFlag "auto_increment" _)).append (names_ofOption "default" _ _)).append
      (names_ofOption "column" _ _)
  exact hsub.nodup (by decide)

theorem ofDatum?_of_readsAs (f : Field) {e : Datum} (h : f.toDatum.readsAs e = true) :
    ofDatum? .change e = some f.settled := by
  obtain ⟨others, rfl, hall⟩ := exists_of_readsAs h f.nodup_members
  have hname := hall.text "name" (s := f.name) (by simp [members])
  have htype := hall.required "type" (d := f.type.toDatum)
    (by simp [members]) fun e he => FieldType.ofDatum?_of_readsAs f.type he
  have hnullable := hall.flag "nullable" (b := f.nullable)
    (by simp [members])
  have hblank := hall.flag "blank" (b := f.blank)
    (by simp [members])
  have hunique := hall.flag "unique" (b := f.unique)
    (by simp [members])
  have hindexed := hall.flag "indexed" (b := f.indexed)
    (by simp [members])
  have hkey := hall.flag "primary_key" (b := f.primaryKey)
    (by simp [members])
  have hauto := hall.flag "auto_increment" (b := f.autoIncrement)
    (by simp [members])
  have hdefault := hall.optional "default" (o := f.default)
    (by simp [members])
    fun v e he => DefaultValue.ofDatum?_of_readsAs v he
  have hcolumn := hall.optionalText "column" (o := f.column)
    (by simp [members])
  simp [ofDatum?, Datum.members?, hname, htype, hnullable, hblank, hunique, hindexed, hkey, hauto, hdefault,
    hcolumn, settled]

end Field

namespace Index

theorem nodup_members (i : Index) : (i.members.map Prod.fst).Nodup := by
  have hsub : (i.members.map Prod.fst).Sublist ["fields", "unique"] := (names_ofFlag "unique" _).cons_cons _
  exact hsub.nodup (by decide)

theorem ofDatum?_of_readsAs (i : Index) {e : Datum} (h : i.toDatum.readsAs e = true) :
    ofDatum? .change e = some i := by
  obtain ⟨others, rfl, hall⟩ := exists_of_readsAs h i.nodup_members
  have hfields := hall.required "fields" (d := .list (i.fields.map .text)) (by simp [members])
    fun e he => Datum.listOf?_of_readsAs Datum.text? (f := id) he
      fun s _ e he => by rw [Datum.eq_of_readsAs_text he]; rfl
  have hunique := hall.flag "unique" (b := i.unique) (by simp [members])
  simp [ofDatum?, Datum.members?, hfields, hunique]

end Index

/-! ### Changes -/

namespace Change

/-- The change that is read where this one was written. -/
def settled : Change → Change
  | .createModel name fields => .createModel name (fields.map .settled)
  | .addField model field => .addField model field.settled
  | .removeField model field => .removeField model field.settled
  | .changeField model field source target => .changeField model field source.settled target.settled
  | c => c

theorem nodup_members (c : Change) :
    (((("kind", .text c.kind) : String × Datum) :: c.parameters).map Prod.fst).Nodup := by
  cases c <;> simp [parameters]

theorem ofDatum?_of_readsAs (c : Change) {e : Datum} (h : c.toDatum.readsAs e = true) :
    ofDatum? e = some c.settled := by
  obtain ⟨others, rfl, hall⟩ := exists_of_readsAs h c.nodup_members
  have hkind := hall.text "kind" (s := c.kind) rfl
  have hfield (name : String) {f : Field} (hd : get? (("kind", .text c.kind) :: c.parameters) name = some f.toDatum) :
      Members.required others name (Field.ofDatum? .change) = some f.settled :=
    hall.required name hd fun e he => Field.ofDatum?_of_readsAs f he
  have hindex {i : Index} (hd : get? (("kind", .text c.kind) :: c.parameters) "index" = some i.toDatum) :
      Members.required others "index" (Index.ofDatum? .change) = some i :=
    hall.required "index" hd fun e he => Index.ofDatum?_of_readsAs i he
  rw [ofDatum?, textOf?, hkind]
  cases c with
  | createModel name fields =>
    have hname := hall.text "name" (s := name) rfl
    have hfields := hall.required "fields" (d := .list (fields.map Field.toDatum)) rfl
      fun e he => Datum.listOf?_of_readsAs (Field.ofDatum? .change) he
        fun f _ e he => Field.ofDatum?_of_readsAs f he
    simp [kind, ofParameters?, Datum.members?, textOf?, hname, hfields, settled]
  | deleteModel name =>
    have hname := hall.text "name" (s := name) rfl
    simp [kind, ofParameters?, Datum.members?, textOf?, hname, settled]
  | addField model field =>
    have hmodel := hall.text "model" (s := model) rfl
    simp [kind, ofParameters?, Datum.members?, textOf?, fieldOf?, hmodel, hfield "field" rfl, settled]
  | removeField model field =>
    have hmodel := hall.text "model" (s := model) rfl
    simp [kind, ofParameters?, Datum.members?, textOf?, fieldOf?, hmodel, hfield "field" rfl, settled]
  | changeField model field source target =>
    have hmodel := hall.text "model" (s := model) rfl
    have hname := hall.text "field" (s := field) rfl
    simp [kind, ofParameters?, Datum.members?, textOf?, fieldOf?, hmodel, hname, hfield "from" rfl,
      hfield "to" rfl, settled]
  | renameField model source target =>
    have hmodel := hall.text "model" (s := model) rfl
    have hfrom := hall.text "from" (s := source) rfl
    have hto := hall.text "to" (s := target) rfl
    simp [kind, ofParameters?, Datum.members?, textOf?, hmodel, hfrom, hto, settled]
  | addIndex model index =>
    have hmodel := hall.text "model" (s := model) rfl
    simp [kind, ofParameters?, Datum.members?, textOf?, indexOf?, hmodel, hindex rfl, settled]
  | removeIndex model index =>
    have hmodel := hall.text "model" (s := model) rfl
    simp [kind, ofParameters?, Datum.members?, textOf?, indexOf?, hmodel, hindex rfl, settled]
  | runData name payload =>
    have hname := hall.text "name" (s := name) rfl
    have hpayload := hall.text "payload" (s := payload) rfl
    simp [kind, ofParameters?, Datum.members?, textOf?, hname, hpayload, settled]

end Change

/-! ### Migrations -/

namespace Migration

/-- The migration that is read where this one was written. -/
def settled (m : Migration) : Migration := { m with changes := m.changes.map .settled }

theorem nodup_members (m : Migration) : (m.members.map Prod.fst).Nodup := by
  have hsub : (m.members.map Prod.fst).Sublist memberNames := by
    simp only [members, List.map_append]
    exact ((List.Sublist.refl ["name", "database"]).append (names_ofOption "depends_on" _ _)).append
      (.refl ["operations"])
  exact hsub.nodup (by decide)

theorem ofDatum?_of_readsAs (m : Migration) {e : Datum} (h : m.toDatum.readsAs e = true) :
    ofDatum? e = some m.settled := by
  obtain ⟨others, rfl, hall⟩ := exists_of_readsAs h m.nodup_members
  have hname := hall.text "name" (s := m.name) (by simp [members])
  have hdatabase := hall.text "database" (s := m.database) (by simp [members])
  have hparent := hall.optionalText "depends_on" (o := m.parent)
    (by simp [members])
  have hchanges : Members.defaulted others "operations" (Datum.listOf? Change.ofDatum?) [] =
      some (m.changes.map .settled) :=
    hall.defaulted "operations" (d := .list (m.changes.map Change.toDatum))
      (by simp [members])
      fun e he => Datum.listOf?_of_readsAs Change.ofDatum? he
        fun c _ e he => Change.ofDatum?_of_readsAs c he
  simp [ofDatum?, Datum.members?, hname, hdatabase, hparent, hchanges, settled]

/-- **A migration comes back from its document**, if the document is faithful and names what it has to. -/
theorem ofToml_toToml {m : Migration} (h : Toml.faithful m.members = true)
    (hname : Text.isBlankText m.name = false) (hdatabase : Text.isBlankText m.database = false) :
    ofToml m.toToml = .ok m.settled := by
  obtain ⟨e, he, hread⟩ := (Option.any_eq_true _ _).1 h
  rw [ofToml, toToml, he, Option.bind_some, ofDatum?_of_readsAs m hread]
  simp [checked, settled, hname, hdatabase]

end Migration

end Schemata
