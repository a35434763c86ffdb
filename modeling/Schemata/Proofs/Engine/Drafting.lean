import Schemata.Proofs.Engine.Make
import Schemata.Proofs.Engine.Upkeep
import Schemata.Proofs.History.Naming

/-! Planning a migration without writing it.

What is planned is what would be written, and why there is no plan is why nothing would be (`drafts`). Whether the
directory of the engine can be made, and whether the file is there already, is not found out. -/
namespace Schemata.Engine
open Store Disk

/-- The settings, for a dry run. -/
def Settings.rehearsing (s : Settings) : Settings := { s with dryRun := true }

/-- The settings, for a run that is no dry one. -/
def Settings.acting (s : Settings) : Settings := { s with dryRun := false }

namespace Directory

/-- A migration whose file can have its name is written if the directory can be made and the file is not there. -/
theorem writeMigration_eq (directory : Path) {m : Migration} (hv : EngineName.isValid m.database = true)
    (hf : Path.IsFileName (fileName m.name)) (hfits : isName (fileName m.name) = true) (d : Disk) :
    writeMigration directory m d =
      match d.makeDirectory? (own directory m.database) with
      | none => .error .io d
      | some made =>
        match made.node? (endOf (own directory m.database).steps ++ [fileName m.name]) with
        | none => .ok ((own directory m.database).join (fileName m.name))
            (made.put (endOf (own directory m.database).steps ++ [fileName m.name]) (.text m.toToml))
        | some _ => .error (.alreadyWritten ((own directory m.database).join (fileName m.name))) made := by
  simp only [writeMigration, ofEngine_eq hv]
  cases hmade : d.makeDirectory? (own directory m.database) with
  | none => rfl
  | some made =>
    obtain ⟨p, hp⟩ := walk_of_walkMaking hmade
    obtain rfl : p = endOf (own directory m.database).steps := eq_of_walk hp
    have hlook := look_join hf hp
    rw [if_pos hfits] at hlook
    rw [fileName] at hlook ⊢
    dsimp only
    rw [hlook]
    cases made.node? (endOf (own directory m.database).steps ++ [m.name ++ "." ++ fileExtension]) <;> rfl

end Directory

theorem isValid_of_loadChain {s : Settings} {w : World} {engine : String} {chain : List Migration}
    (h : loadChain s w engine = .ok chain) : EngineName.isValid engine = true := by
  obtain ⟨ms, hms, -⟩ := bind_eq_ok_iff.1 h
  exact Directory.isValid_of_migrations hms

/-- What comes of writing the migration of a plan, depending on what is there when the directory of the engine was made,
if it had to be. -/
structure Writes (directory : Path) (engine : String) (w : World) (p : Plan) (m : Migration)
    (r : EStateM.Result Failure World Plan) : Prop where
  barred : w.disk.makeDirectory? (Directory.own directory engine) = none → r = .error .io w
  taken : ∀ made n, w.disk.makeDirectory? (Directory.own directory engine) = some made →
    made.node? (endOf (Directory.own directory engine).steps ++ [Directory.fileName m.name]) = some n →
    r = .error (.alreadyWritten ((Directory.own directory engine).join (Directory.fileName m.name)))
      { w with disk := made }
  written : ∀ made, w.disk.makeDirectory? (Directory.own directory engine) = some made →
    made.node? (endOf (Directory.own directory engine).steps ++ [Directory.fileName m.name]) = none →
    r = .ok { p with path := some ((Directory.own directory engine).join (Directory.fileName m.name)) }
      { w with
        disk := made.put (endOf (Directory.own directory engine).steps ++ [Directory.fileName m.name])
          (.text m.toToml) }

/-- A dry run of making a migration, next to one that writes it. -/
structure Drafts (s : Settings) (engine : String) (models : List Model) (label : Option String) (w : World) :
    Prop where
  unchanged : stateOf (make s.rehearsing engine models label w) = w
  /-- Why there is no plan is why nothing is written. -/
  refused : ∀ failure w', make s.rehearsing engine models label w = .error failure w' →
    make s.acting engine models label w = .error failure w
  /-- What is planned is what is written. -/
  planned : ∀ p w', make s.rehearsing engine models label w = .ok p w' → p.path = none ∧
    ∃ m, p.migration = some m ∧ Writes s.directory engine w p m (make s.acting engine models label w)

theorem IsNext.isName {engine : String} {chain : List Migration} {d : Diff} {now : Calendar.Instant} {m : Migration}
    (h : IsNext engine chain d now m) (hclock : now.Proper) : isName (Directory.fileName m.name) = true := by
  obtain ⟨number, label, hname⟩ := h.name
  rw [hname, Directory.fileName, String.append_assoc]
  exact MigrationName.isName_generate _ hclock _ (by decide) (by decide)

section Drafting
variable {s : Settings} {w : World} {engine : String} {models : List Model} {label : Option String} {p : Plan}
  {m : Migration}

theorem writes_of_plan (hdry : s.dryRun = false) (hclock : w.now.Proper) (h : plan s w engine models label = .ok p)
    (hm : p.migration = some m) : Writes s.directory engine w p m (make s engine models label w) := by
  obtain ⟨chain, baseline, d, hchain, -, -, -, ⟨-, hnone⟩ | ⟨-, m', hnext, hm'⟩⟩ := of_plan h
  · cases hnone.symm.trans hm
  · obtain rfl := Option.some.inj (hm'.symm.trans hm)
    have hmade := isNext_of_nextMigration hnext
    obtain rfl := hmade.database
    have hwrite := Directory.writeMigration_eq s.directory (isValid_of_loadChain hchain) hmade.isFileName
      (hmade.isName hclock) w.disk
    rw [make_of_plan hdry h hm, hwrite]
    constructor
    · intro hmade
      simp only [hmade]
    · intro made n hmade hnode
      simp only [hmade, hnode]
    · intro made hmade hnode
      simp only [hmade, hnode]

theorem Drafts.of_refused {failure : Failure} (hdraft : make s.rehearsing engine models label w = .error failure w)
    (hact : make s.acting engine models label w = .error failure w) : Drafts s engine models label w where
  unchanged := by rw [hdraft]; rfl
  refused failure' w' he := by
    cases hdraft.symm.trans he
    exact hact
  planned p w' he := by cases hdraft.symm.trans he

/-- **Planning a migration** changes nothing and comes to what making it comes to, but for what is in the way of its
file. -/
theorem drafts (s : Settings) (engine : String) (models : List Model) (label : Option String) (hclock : w.now.Proper) :
    Drafts s engine models label w := by
  cases hplan : plan s w engine models label with
  | error failure =>
    exact .of_refused (make_of_plan_error (s := s.rehearsing) hplan) (make_of_plan_error (s := s.acting) hplan)
  | ok p =>
    cases hm : p.migration with
    | none => exact .of_refused (make_of_none (s := s.rehearsing) hplan hm) (make_of_none (s := s.acting) hplan hm)
    | some m =>
      have hdraft := make_dry (s := s.rehearsing) rfl hplan hm
      refine ⟨by rw [hdraft]; rfl, fun failure w' he => ?_, fun p' w' he => ?_⟩
      · cases hdraft.symm.trans he
      · cases hdraft.symm.trans he
        obtain ⟨-, -, -, -, -, -, hpath, -⟩ := of_plan hplan
        exact ⟨hpath, m, hm, writes_of_plan (s := s.acting) rfl hclock hplan hm⟩

end Drafting

/-! ### Engines that can have no directory -/

section Unnamed
variable {engine : String} (hv : EngineName.isValid engine = true)
include hv

theorem steps_own_of_isValid :
    (Directory.own "migrations" engine).steps = [.into "migrations", .into engine] := by
  have hdirectory : Path.steps "migrations" = [.into "migrations"] := by decide +kernel
  rw [Directory.own, Path.steps_join (EngineName.isFileName hv), hdirectory]
  rfl

/-- As long as no engine has migrations, nobody looks whether one can have a directory. -/
theorem loadChain_of_isValid : loadChain freshSettings freshWorld engine = .ok [] := by
  have hmissing : freshWorld.disk.look (Directory.own "migrations" engine) = .missing := by
    have hwalk : freshWorld.disk.walk [] [.into "migrations", .into engine] = .missing := rfl
    simp only [look, Directory.own_ne_empty hv, Bool.false_eq_true, if_false, steps_own_of_isValid hv, hwalk]
  have hcontents : Directory.contents freshWorld.disk (Directory.own "migrations" engine) = .ok [] := by
    simp only [Directory.contents, exists?, hmissing]
  have hmigrations : Directory.migrations freshWorld.disk freshSettings.directory engine = .ok [] := by
    simp only [Directory.migrations, Directory.paths, freshSettings, Directory.ofEngine_eq hv, hcontents, bind,
      Except.bind, inOrder, List.mergeSort_nil]
    rfl
  simp only [loadChain, hmigrations, bind, Except.bind]
  exact Chain.resolve_of_linear (.refl []) List.nodup_nil trivial

theorem makeDirectory?_of_not_isName (hlong : isName engine = false) :
    freshWorld.disk.makeDirectory? (Directory.own freshSettings.directory engine) = none := by
  have hname : isName "migrations" = true := by decide
  simp only [freshSettings, makeDirectory?, steps_own_of_isValid hv, walkMaking, hname, hlong]
  rfl

end Unnamed

end Schemata.Engine
