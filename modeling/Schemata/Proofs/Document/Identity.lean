import Schemata.Proofs.Document.Migration

/-! Migrations that are their documents.

A document has one word for all numbers that are none, and such a number is not even equal to itself. A
migration without one (`Migration.Comparable`) is equal to itself, and it is the very migration that is
read from its document. So a document stands for one such migration, and a digest for one document. -/
namespace Schemata

/-- Elements that are the same as themselves, one by one. -/
theorem all_zip_self {α : Type} {same : α → α → Bool} {l : List α} (h : ∀ a ∈ l, same a a = true) :
    ((l.zip l).all fun p => same p.1 p.2) = true := by
  rw [List.all_eq_true]
  intro p hp
  rw [List.zip_eq_zipWith, List.zipWith_self] at hp
  obtain ⟨a, ha, rfl⟩ := List.mem_map.1 hp
  exact h a ha

namespace Field

theorem settled_eq_self {f : Field} (h : f.Comparable) : f.settled = f := by
  cases hd : f.default with
  | none => rw [settled, hd, Option.map_none, ← hd]
  | some d =>
    have hsettled : d.settled = d := by
      cases d with
      | float x => rw [DefaultValue.settled, Binary64.settled_of_not_isNaN (h x hd)]
      | _ => rfl
    rw [settled, hd, Option.map_some, hsettled, ← hd]

theorem map_settled_eq_self {fields : List Field} (h : ∀ f ∈ fields, f.Comparable) :
    fields.map settled = fields :=
  (List.map_congr_left fun f hf => settled_eq_self (h f hf)).trans fields.map_id'

end Field

namespace Change

/-- The fields that the change describes. -/
def described : Change → List Field
  | .createModel _ fields => fields
  | .addField _ field | .removeField _ field => [field]
  | .changeField _ _ source target => [source, target]
  | .deleteModel _ | .renameField _ _ _ | .addIndex _ _ | .removeIndex _ _ | .runData _ _ => []

/-- No default that the change describes is a number that differs from itself. -/
def Comparable (c : Change) : Prop := ∀ f ∈ c.described, f.Comparable

instance (c : Change) : Decidable c.Comparable :=
  inferInstanceAs (Decidable (∀ f ∈ c.described, f.Comparable))

variable {c : Change}

theorem settled_eq_self (h : c.Comparable) : c.settled = c := by
  cases c with
  | createModel name fields =>
    have hfields : fields.map Field.settled = fields := Field.map_settled_eq_self h
    rw [settled, hfields]
  | addField model field | removeField model field =>
    rw [settled, Field.settled_eq_self (h field List.mem_cons_self)]
  | changeField model field source target =>
    rw [settled, Field.settled_eq_self (h source List.mem_cons_self),
      Field.settled_eq_self (h target (List.mem_cons_of_mem _ List.mem_cons_self))]
  | _ => rfl

theorem same_self (h : c.Comparable) : c.same c = true := by
  cases c with
  | createModel name fields =>
    simp only [same, BEq.rfl, Bool.true_and]
    exact all_zip_self fun f hf => Field.same_self (h f hf)
  | addField model field | removeField model field =>
    simp only [same, BEq.rfl, Bool.true_and]
    exact Field.same_self (h field List.mem_cons_self)
  | changeField model field source target =>
    simp only [same, BEq.rfl, Bool.true_and, Bool.and_eq_true]
    exact ⟨Field.same_self (h source List.mem_cons_self),
      Field.same_self (h target (List.mem_cons_of_mem _ List.mem_cons_self))⟩
  | _ => simp [same]

end Change

namespace Migration

/-- No default in the migration is a number that differs from itself. -/
def Comparable (m : Migration) : Prop := ∀ c ∈ m.changes, c.Comparable

instance (m : Migration) : Decidable m.Comparable :=
  inferInstanceAs (Decidable (∀ c ∈ m.changes, c.Comparable))

variable {m : Migration}

theorem settled_eq_self (h : m.Comparable) : m.settled = m := by
  rw [settled, List.map_congr_left fun c hc => Change.settled_eq_self (h c hc), List.map_id']

theorem same_self (h : m.Comparable) : m.same m = true := by
  simp only [same, BEq.rfl, Bool.true_and]
  exact all_zip_self fun c hc => Change.same_self (h c hc)

/-- A migration that a document can stand for: it names itself and its engine, all its defaults are equal
to themselves, and the text of its document is read to the tree that was written. -/
structure Documented (m : Migration) : Prop where
  named : Text.isBlankText m.name = false
  placed : Text.isBlankText m.database = false
  comparable : m.Comparable
  faithful : Toml.faithful m.members = true

theorem Documented.ofToml_eq (h : m.Documented) : ofToml m.toToml = .ok m := by
  rw [ofToml_toToml h.faithful h.named h.placed, settled_eq_self h.comparable]

/-- **A document stands for its migration.** What is read from the document of a migration is this very
migration, equal to it and with the same digest, whatever its changes are and whatever they describe; and
no other migration has this document. -/
theorem ofToml_eq_ok_of_documented (h : m.Documented) :
    (∃ m', ofToml m.toToml = .ok m' ∧ m' = m ∧ m.same m' = true ∧ m'.checksum = m.checksum) ∧
      ∀ n : Migration, n.Documented → n.toToml = m.toToml → n = m := by
  refine ⟨⟨m, h.ofToml_eq, rfl, same_self h.comparable, rfl⟩, fun n hn hdoc => ?_⟩
  have hread : (.ok n : Except Failure Migration) = .ok m := by
    rw [← hn.ofToml_eq, ← h.ofToml_eq, hdoc]
  exact Except.ok.inj hread

/-- A migration with every kind of change. -/
def everyKind : Migration where
  name := "0002_20240101120000_a \"b\"\\n"
  database := "main"
  parent := some "0001_20240101120000_initial"
  changes := [
    .createModel "tag" [.autoKey "id",
      { name := "size", type := .varchar 40, nullable := true, default := some .null },
      { name := "rate", type := .decimal 10 2, default := some (.float ⟨0x3FF8000000000000⟩) },
      { name := "kind", type := .choice ["a", "b c", ""], default := some (.text "a\tb") },
      { name := "owner", nullable := true, indexed := true, column := some "owner_id"
        type := .foreignKey ⟨"user", "id", some "fk", none, .setNull⟩ }],
    .createModel "empty" [],
    .deleteModel "old",
    .addField "tag" { name := "n", type := .bigInt, unique := true, default := some (.int (-7)) },
    .removeField "tag" { name := "on", type := .boolean, default := some (.bool false) },
    .changeField "tag" "at" { name := "at", type := .date }
      { name := "at", type := .dateTime, blank := true, default := some (.expression "now()") },
    .renameField "tag" "kind" "sort",
    .addIndex "tag" ⟨["size", "n"], true⟩,
    .addIndex "tag" ⟨[], false⟩,
    .removeIndex "tag" ⟨["n"], false⟩,
    .runData "fill" "\x7b\"a\": 1\x7d"]

theorem documented_everyKind : everyKind.Documented where
  named := by decide +kernel
  placed := by decide +kernel
  comparable := by decide +kernel
  faithful := by
    rw [Toml.faithful_eq]
    decide +kernel

/-- The document of a migration with every kind of change stands for it. -/
theorem ofToml_everyKind :
    everyKind.Documented ∧
      (∃ m', ofToml everyKind.toToml = .ok m' ∧ m' = everyKind ∧ everyKind.same m' = true ∧
        m'.checksum = everyKind.checksum) ∧
      ∀ n : Migration, n.Documented → n.toToml = everyKind.toToml → n = everyKind :=
  ⟨documented_everyKind, ofToml_eq_ok_of_documented documented_everyKind⟩

end Migration

end Schemata
