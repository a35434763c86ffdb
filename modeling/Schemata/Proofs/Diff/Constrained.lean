import Schemata.Proofs.Ddl.Constraining
import Schemata.Proofs.Diff.Registered

/-! The script of a history made of differences, read as an update of the roster of constraints.

From an empty database, the script makes of the roster that of the schema that the history leads to, migration after
migration, as long as no live models turn the unique flag of a primary key on or off. -/
namespace Schemata

namespace State

theorem Alike.distinctColumns {s t : State} (h : s.Alike t) (ht : t.DistinctColumns) : s.DistinctColumns := by
  intro n m hm
  obtain ⟨m', hm', halike⟩ := rel_exists_right (hm ▸ h n)
  refine (ht n m' hm').of_fields fun k f hf => ?_
  obtain ⟨g, hg, hfg⟩ := rel_exists_right (hf ▸ halike.field k)
  exact ⟨g, hg, hfg.columnName.symm⟩

end State

namespace Diff
open Change

section Evolved
variable {history : List Migration} {lives : List (List Model)} {final : State} {blocks : List Ddl.Statement}

/-- A history leads to models whose fields are in columns of their own when the live models are such. -/
theorem Evolved.distinctColumns (h : Evolved history lives) (hfinal : Replay.run history = .ok final)
    (hlives : ∀ live ∈ lives, ∀ m ∈ live, m.DistinctColumns) : final.DistinctColumns := by
  induction h generalizing final with
  | start =>
    cases hfinal
    intro n m hm
    cases hm
  | @grow history lives baseline live d m _ replayed compared written ih =>
    obtain ⟨s, hs, hafter⟩ := Replay.run_concat.1 hfinal
    cases replayed.symm.trans hs
    rw [written] at hafter
    have halike := alike_of_applyAll (Replay.reachable_of_run replayed).wellFormed compared hafter
    obtain ⟨s, hlive, -, -⟩ := eq_ofStates_of_between compared
    rw [← hlive.eq_ofModels] at halike
    refine halike.distinctColumns (State.distinctColumns_iff.2 fun m hm => ?_)
    exact hlives live (List.mem_append_right _ (List.mem_singleton.2 rfl)) m (hlive.perm.subset hm)
  | rest _ _ _ _ ih => exact ih hfinal fun live hlive => hlives live (List.mem_append_left _ hlive)

/-- What the first change of a history that turns the unique flag of a primary key on or off turns it to. -/
def flipsKey? (history : List Migration) : Option Bool := (history.flatMap (·.changes)).findSome? Change.flipsKey?

/-- Where two fields of a model are in one column on the way, the script has no meaning for the columns. -/
theorem Evolved.run_columns (h : Evolved history lives)
    (hrendered : Ddl.blocks? history Ascending.empty = some (blocks, final))
    (hway : ¬ ∀ call ∈ calls history, call.2.DistinctColumns) :
    (Ddl.catalogueOf Ascending.empty).run blocks = none := by
  have hempty : State.DistinctColumns Ascending.empty := fun n m hm => by cases hm
  obtain ⟨statements, hstatements, hrun⟩ := Ddl.exists_foldlM_blocks
    (fun (cat : Ddl.Catalogue) st => st.update cat) (fun _ => rfl) (fun _ => rfl) hrendered
  simp only [not_forall] at hway
  obtain ⟨call, hcall, hd⟩ := hway
  obtain ⟨done, rest, hsplit, hdone⟩ := of_mem_paired hcall
  refine (hrun _).trans ((Ddl.run_statements hstatements hempty ?_).2 done _ _ hsplit hdone hd)
  intro done c rest t hsplit hdone
  refine h.fits (c, t) ?_
  rw [calls, hsplit, paired_append hdone]
  exact List.mem_append_right _ (List.mem_cons_self ..)

theorem constrainsAll_of_blocks (hrendered : Ddl.blocks? history Ascending.empty = some (blocks, final))
    (hfits : ∀ call ∈ calls history, Ddl.Fits call.1 call.2) (hway : ∀ call ∈ calls history, call.2.DistinctColumns)
    (hlast : final.DistinctColumns) :
    Ddl.ConstrainsAll (history.flatMap (·.changes)) blocks Ascending.empty final := by
  obtain ⟨statements, hstatements, hrun⟩ := Ddl.exists_foldlM_blocks
    (fun (roster : Ddl.Roster) st => st.constrain roster) (fun _ => rfl) (fun _ => rfl) hrendered
  have hall := Ddl.run_statements_roster hstatements hway hlast hfits
  exact ⟨fun hnone => (hrun _).trans (hall.keeps hnone), hall.leaves, fun hoff => (hrun _).trans (hall.fails hoff)⟩

/-- The first migrations of a history have the first blocks, and those behind them are carried out on the schema that
they lead to. -/
theorem exists_blocks_of_append {done rest : List Migration}
    (hrendered : Ddl.blocks? (done ++ rest) Ascending.empty = some (blocks, final)) :
    ∃ own s, own <+: blocks ∧ Ddl.blocks? done Ascending.empty = some (own, s) ∧
      calls (done ++ rest) = calls done ++ paired (rest.flatMap (·.changes)) s ∧
      applyAll (rest.flatMap (·.changes)) s = .ok final := by
  simp only [Ddl.blocks?_append, Option.bind_eq_some_iff, Option.map_eq_some_iff, Prod.mk.injEq] at hrendered
  obtain ⟨⟨own, s⟩, hown, ⟨more, t⟩, hmore, rfl, rfl⟩ := hrendered
  obtain ⟨statements, hstatements, -⟩ := Ddl.exists_statements_of_blocks hmore
  exact ⟨own, s, List.prefix_append .., hown, calls_append (run_of_blocks hown),
    Ddl.applyAll_of_statements? hstatements⟩

/-- **The script of a history and the constraints.** Where no two fields of a live model have one column, and none are in
one column on the way either, the script of a history made of differences makes of an empty roster that of the schema,
after every migration: unless the unique flag of a primary key is turned on or off. If the first such change turns it
off, the script comes to a statement that drops a constraint that is lacking; if it turns it on, there is a constraint
then that no column owns. Where two fields are in one column on the way, the script comes to a statement without meaning
for the columns. -/
theorem roster_of_evolved (h : Evolved history lives)
    (hrendered : Ddl.blocks? history Ascending.empty = some (blocks, final))
    (hlives : ∀ live ∈ lives, ∀ m ∈ live, m.DistinctColumns) :
    ((∀ call ∈ calls history, call.2.DistinctColumns) →
      (flipsKey? history = none → ∀ done rest, history = done ++ rest →
        ∃ own s, own <+: blocks ∧ Ddl.blocks? done Ascending.empty = some (own, s) ∧ Replay.run done = .ok s ∧
          Ddl.Roster.run ∅ own = some (Ddl.rosterOf s)) ∧
      (flipsKey? history = some false → Ddl.Roster.run ∅ blocks = none) ∧
      (flipsKey? history = some true → ∃ done rest own s, history.flatMap (·.changes) = done ++ rest ∧
        Ddl.statements? done Ascending.empty = some (own, s) ∧
        ∃ x ∉ Ddl.rosterOf s, Ddl.Roster.run ∅ own = some (insert x (Ddl.rosterOf s)))) ∧
    ((¬ ∀ call ∈ calls history, call.2.DistinctColumns) →
      (Ddl.catalogueOf Ascending.empty).run blocks = none) := by
  have hlast := h.distinctColumns (run_of_blocks hrendered) hlives
  refine ⟨fun hway => ?_, h.run_columns hrendered⟩
  have hall := constrainsAll_of_blocks hrendered h.fits hway hlast
  refine ⟨?_, hall.fails, hall.leaves⟩
  rintro hnone done rest rfl
  obtain ⟨own, s, hprefix, hown, hcalls, hrest⟩ := exists_blocks_of_append hrendered
  have hfits := h.fits
  rw [hcalls, List.forall_mem_append] at hway hfits
  have hbefore := constrainsAll_of_blocks hown hfits.1 hway.1 (of_paired hrest hway.2 hlast)
  refine ⟨own, s, hprefix, hown, run_of_blocks hown, hbefore.keeps ?_⟩
  rw [flipsKey?, List.flatMap_append, List.findSome?_append, Option.or_eq_none_iff] at hnone
  exact hnone.1

end Evolved

/-- A model with a field of its own column, one of a type and one that points back, for examples. -/
def sampleHeld (column link : String) (type : FieldType) : List Model :=
  [.ofFields "T" [.autoKey "id", { name := "code", type := .text, unique := true, column := some column },
    { name := "kind", type }, { name := link, type := .foreignKey (.toModel "T" .setNull), nullable := true }]]

/-- A model with a primary key, for examples. -/
def sampleKeyed (unique : Bool) : List Model :=
  [.ofFields "T" [{ name := "id", type := .integer, primaryKey := true, unique }]]

/-- A unique field takes another column, one out of a few becomes any, and one that points back is renamed: two
constraints follow and one goes. But a primary key that is no longer called unique has no constraint to drop. -/
theorem roster_of_evolved_sample :
    (∃ blocks final, Ddl.blocks? (sampleHistory (sampleHeld "c" "owner" (.choice ["x", "y"])) (sampleHeld "k" "boss" .text))
        Ascending.empty = some (blocks, final) ∧
      Ddl.Roster.run ∅ blocks = some {⟨"T", "k", "T_k_key"⟩, ⟨"T", "boss", "T_boss_fkey"⟩}) ∧
    ∃ blocks final, Ddl.blocks? (sampleHistory (sampleKeyed true) (sampleKeyed false)) Ascending.empty =
        some (blocks, final) ∧ Ddl.Roster.run ∅ blocks = none := by
  constructor
  · have hevolved : Evolved (sampleHistory (sampleHeld "c" "owner" (.choice ["x", "y"])) (sampleHeld "k" "boss" .text))
        [sampleHeld "c" "owner" (.choice ["x", "y"]), sampleHeld "k" "boss" .text] :=
      evolved_sampleHistory rfl rfl rfl rfl rfl
    obtain ⟨blocks, hrendered⟩ : ∃ blocks,
        Ddl.blocks? (sampleHistory (sampleHeld "c" "owner" (.choice ["x", "y"])) (sampleHeld "k" "boss" .text))
          Ascending.empty = some (blocks, .ofModels (sampleHeld "k" "boss" .text)) := ⟨_, rfl⟩
    obtain ⟨own, s, -, hown, -, hrun⟩ := ((roster_of_evolved hevolved hrendered (by decide)).1 (by decide)).1
      (by decide) _ [] (List.append_nil _).symm
    cases hown.symm.trans hrendered
    exact ⟨_, _, hrendered, hrun.trans (by decide)⟩
  · have hevolved : Evolved (sampleHistory (sampleKeyed true) (sampleKeyed false))
        [sampleKeyed true, sampleKeyed false] := evolved_sampleHistory rfl rfl rfl rfl rfl
    obtain ⟨blocks, hrendered⟩ : ∃ blocks,
        Ddl.blocks? (sampleHistory (sampleKeyed true) (sampleKeyed false)) Ascending.empty =
          some (blocks, .ofModels (sampleKeyed false)) := ⟨_, rfl⟩
    exact ⟨_, _, hrendered, ((roster_of_evolved hevolved hrendered (by decide)).1 (by decide)).2.1 (by decide)⟩

/-- Of a primary key that is no longer called unique a constraint is dropped that was never made, although the models
are in normal form and no two fields are ever in one column. -/
theorem exists_misheld : ∃ history lives, Evolved history lives ∧ (∀ live ∈ lives, ∀ m ∈ live, m.normalize = .ok m) ∧
    (∀ call ∈ calls history, call.2.DistinctColumns) ∧
    ∃ r ∈ Ddl.blocks? history Ascending.empty, r.2.DistinctColumns ∧
      .dropConstraint "T" "T_id_key" ∈ r.1 ∧ Ddl.Roster.run ∅ r.1 = none := by
  refine ⟨sampleHistory (sampleKeyed true) (sampleKeyed false), [sampleKeyed true, sampleKeyed false],
    evolved_sampleHistory rfl rfl rfl rfl rfl, ?_, by decide, ?_⟩
  · exact List.forall_mem_cons.2 ⟨List.forall_mem_singleton.2 rfl,
      List.forall_mem_singleton.2 (List.forall_mem_singleton.2 rfl)⟩
  · refine ⟨_, rfl, by decide, ?_, by decide⟩
    exact .tail _ (.tail _ (.tail _ (.tail _ (.head _))))

end Diff

end Schemata
