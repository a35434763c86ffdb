import Schemata.Engine.Status
import Schemata.Proofs.Engine.Keeping
import Schemata.Proofs.Engine.Directory
import Schemata.Proofs.Store.Steady

/-! What an engine sees of a world.

The answers of an engine depend on its own files and on where two ways lead: that to its migrations and that to the
ledger. Two worlds that agree there are alike to the engine (`Alike`), and whatever it is asked has the same answer in
both (`SameAnswers`). -/
namespace Schemata.Engine
open Store Disk Ledger

/-! ### Reading the same files -/

namespace Directory
variable {d d' : Disk} {directory : Path} {engine : String} {p : Place}

theorem pairwise_namesInOrder (d : Disk) (p : Place) : (namesInOrder d p).Pairwise (· ≤ ·) := by
  have hsorted : (inOrder Prod.fst (d.children p)).Pairwise fun a b => decide (a.1 ≤ b.1) = true := by
    refine List.pairwise_mergeSort (fun a b c hab hbc => ?_) (fun a b => ?_) _
    · exact decide_eq_true (String.le_trans (of_decide_eq_true hab) (of_decide_eq_true hbc))
    · simpa using String.le_total a.1 b.1
  exact (List.pairwise_map.2 (hsorted.imp of_decide_eq_true)).filter _

/-- The names come in one order only. -/
theorem namesInOrder_eq (h : (fileNames d' p).Perm (fileNames d p)) : namesInOrder d' p = namesInOrder d p :=
  List.Perm.eq_of_pairwise (fun _ _ _ _ => String.le_antisymm) (pairwise_namesInOrder d' p) (pairwise_namesInOrder d p)
    ((namesInOrder_perm d' p).trans (h.trans (namesInOrder_perm d p).symm))

section Reading
variable (hv : EngineName.isValid engine = true)
include hv

theorem migrations_of_barred (h : d.Barred [] (own directory engine).steps) :
    migrations d directory engine = .error .io := by
  have hcontents : contents d (own directory engine) = .error .io := by
    rcases h.walk_eq with hwalk | ⟨p, node, hwalk, hne⟩
    · simp [contents, exists?, look, own_ne_empty hv, hwalk]
    · cases node with
      | directory => exact absurd rfl hne
      | text | binary =>
        cases hform : (own directory engine).isDirectoryForm <;>
          simp [contents, exists?, list?, look, own_ne_empty hv, hwalk, hform]
  simp only [migrations, paths, ofEngine_eq hv, hcontents, bind, Except.bind]

/-- The same files are read in the same way, or fail to be. -/
theorem migrations_congr (hd : d.WellFormed) (hd' : d'.WellFormed) (hway : d.SameWay d' (own directory engine).steps)
    (hsame : ∀ name, isMigrationFile name = true →
      d'.node? (endOf (own directory engine).steps ++ [name]) =
        d.node? (endOf (own directory engine).steps ++ [name])) :
    migrations d' directory engine = migrations d directory engine := by
  rcases hway with ⟨ho, ho'⟩ | ⟨hb, hb'⟩
  · generalize endOf (own directory engine).steps = p at ho ho' hsame
    have hperm : (fileNames d' p).Perm (fileNames d p) := by
      refine (List.perm_ext_iff_of_nodup (nodup_fileNames d' p) (nodup_fileNames d p)).2 fun name => ?_
      rw [mem_fileNames hd, mem_fileNames hd']
      exact and_congr_right fun _ => and_congr_right fun hm => by rw [hsame name hm]
    rw [migrations_eq_mapM hv hd ho, migrations_eq_mapM hv hd' ho', namesInOrder_eq hperm]
    refine mapM_congr fun name hin => ?_
    have hold := (namesInOrder_perm d p).subset hin
    exact readOwn_congr ((mem_fileNames hd).1 hold).1 (found_of_mem hd ho hold)
      (found_of_mem hd' ho' (hperm.symm.subset hold)) (hsame name ((mem_fileNames hd).1 hold).2.1)
  · rw [migrations_of_barred hv hb, migrations_of_barred hv hb']

end Reading

end Directory

/-! ### What an engine has of a world -/

section Views
variable {s : Settings} {engine : String} {w w' : World}

/-- The place of an engine's migrations. -/
def placeOf (s : Settings) (engine : String) : Place := endOf (Directory.own s.directory engine).steps

/-- The place of the ledger. -/
def LedgerPlace.place (l : LedgerPlace) : Place := endOf l.steps

/-- The places of the files that are an engine's: its migrations and what the ledger has of it. -/
def IsOwn (s : Settings) (engine : String) (q : Place) : Prop :=
  (∃ name, Directory.isMigrationFile name = true ∧ q = placeOf s engine ++ [name]) ∨
    s.ledger.IsFile s.ledger.place engine q

/-- Whether somebody holds the lock of the engine. -/
def LedgerPlace.IsHeld : LedgerPlace → World → String → Prop
  | .memory, w, engine => engine ∈ w.memory.held
  | .directory path, w, engine => ∃ p node, w.disk.look (path.join (Files.lockName engine)) = .found p node

/-- Two worlds that an engine cannot tell apart, but for the time. -/
structure Alike (s : Settings) (engine : String) (w w' : World) : Prop where
  wellFormed : w.disk.WellFormed
  wellFormed' : w'.disk.WellFormed
  way : w.disk.SameWay w'.disk (Directory.own s.directory engine).steps
  reach : w.disk.SameWay w'.disk s.ledger.steps
  files : ∀ q, IsOwn s engine q → w'.disk.node? q = w.disk.node? q
  entries : w'.memory.applied engine = w.memory.applied engine
  held : engine ∈ w'.memory.held ↔ engine ∈ w.memory.held

/-- The engine has the same answers in both worlds, whatever it is asked. -/
structure SameAnswers (s : Settings) (engine : String) (w w' : World) : Prop where
  migrations : Directory.migrations w'.disk s.directory engine = Directory.migrations w.disk s.directory engine
  applied : s.ledger.applied w' engine = s.ledger.applied w engine
  held : s.ledger.IsHeld w' engine ↔ s.ledger.IsHeld w engine
  status : status s w' engine = status s w engine
  check : check s w' engine = check s w engine
  plan : ∀ now dryRun allowDestructive models label,
    plan { s with dryRun, allowDestructive } { w' with now } engine models label =
      plan { s with dryRun, allowDestructive } { w with now } engine models label

/-! ### Functions of what is read -/

theorem loadChain_congr
    (hm : Directory.migrations w'.disk s.directory engine = Directory.migrations w.disk s.directory engine) :
    loadChain s w' engine = loadChain s w engine := by
  rw [loadChain, hm, loadChain]

section Congr
variable (hm : Directory.migrations w'.disk s.directory engine = Directory.migrations w.disk s.directory engine)
  (ha : s.ledger.applied w' engine = s.ledger.applied w engine)
include hm ha

theorem position_congr : position s w' engine = position s w engine := by
  rw [position, loadChain_congr hm, ha, position]

theorem prepare_congr : prepare s w' engine = prepare s w engine := by
  rw [prepare, position_congr hm ha, prepare]

theorem status_congr : status s w' engine = status s w engine := by
  rw [status, position_congr hm ha, status]

theorem plan_congr (hnow : w'.now = w.now) (models : List Model) (label : Option String) :
    plan s w' engine models label = plan s w engine models label := by
  rw [plan, loadChain_congr hm, ha, hnow, plan]

end Congr

theorem LedgerPlace.applied_withNow (l : LedgerPlace) (w : World) (now : Calendar.Instant) :
    l.applied { w with now } = l.applied w := by
  cases l <;> rfl

/-- The entries of an engine are read from files or are in memory. -/
theorem LedgerPlace.applied_congr (l : LedgerPlace) (hfiles : ∀ q, w'.disk.node? q = w.disk.node? q)
    (hentries : w'.memory.applied engine = w.memory.applied engine) : l.applied w' engine = l.applied w engine := by
  cases l with
  | memory => exact congrArg Except.ok hentries
  | directory path =>
    have hlook := look_congr hfiles
    simp only [LedgerPlace.applied, Files.applied, Files.readFile, exists?, read?, hlook]

/-! ### A ledger of files -/

section Files
variable {d : Disk} {path : Path} {p : Place} {name : String}

/-- What is looked for in a directory whose way opens. -/
theorem look_of_opens (hf : Path.IsFileName name) (hroot : d.Rooted) (ho : d.Opens [] path.steps p) {q : Place}
    {n : Node} :
    d.look (path.join name) = .found q n ↔ q = p ++ [name] ∧ isName name = true ∧ d.node? (p ++ [name]) = some n := by
  rcases ho.walk_or_free hroot with hfound | ⟨hfree, -, hmissing⟩
  · rw [look_join hf hfound]
    by_cases hname : isName name = true
    · rw [if_pos hname]
      cases hn : d.node? (p ++ [name]) <;> simp [hname, eq_comm]
    · simp [hname]
  · rw [look_join_eq_walk d hf, hmissing]
    simp [hfree [name] (by simp)]

theorem look_of_barred (hf : Path.IsFileName name) (hb : d.Barred [] path.steps) : d.look (path.join name) = .refused :=
  (look_join_eq_walk d hf).trans (hb.walk_append (List.cons_ne_nil _ _))

theorem applied_of_barred (hv : EngineName.isValid engine = true) (hb : d.Barred [] path.steps) :
    Files.applied d path engine = .error .io := by
  simp only [Files.applied_eq_readFile hv, Files.readFile, exists?, look_of_barred (Files.isFileName_entries hv) hb]

end Files

/-! ### Worlds that are alike -/

namespace Alike

theorem refl (hw : w.disk.WellFormed) (hway : w.disk.Steady (Directory.own s.directory engine).steps)
    (hreach : w.disk.Steady s.ledger.steps) : Alike s engine w w :=
  ⟨hw, hw, hway.sameWay, hreach.sameWay, fun _ _ => rfl, rfl, .rfl⟩

theorem withNow (h : Alike s engine w w') (now : Calendar.Instant) : Alike s engine { w with now } { w' with now } :=
  ⟨h.wellFormed, h.wellFormed', h.way, h.reach, h.files, h.entries, h.held⟩

theorem of_withNow {now now' : Calendar.Instant} (h : Alike s engine { w with now } { w' with now := now' }) :
    Alike s engine w w' :=
  ⟨h.wellFormed, h.wellFormed', h.way, h.reach, h.files, h.entries, h.held⟩

variable (h : Alike s engine w w')
include h

theorem symm : Alike s engine w' w :=
  ⟨h.wellFormed', h.wellFormed, h.way.symm, h.reach.symm, fun q hq => (h.files q hq).symm, h.entries.symm, h.held.symm⟩

variable (hv : EngineName.isValid engine = true)
include hv

theorem migrations_eq :
    Directory.migrations w'.disk s.directory engine = Directory.migrations w.disk s.directory engine :=
  Directory.migrations_congr hv h.wellFormed h.wellFormed' h.way fun name hname => h.files _ (.inl ⟨name, hname, rfl⟩)

theorem applied_eq (hfits : s.ledger.Fits engine) : s.ledger.applied w' engine = s.ledger.applied w engine := by
  have hreach := h.reach
  have hfiles : ∀ q, s.ledger.IsFile s.ledger.place engine q → w'.disk.node? q = w.disk.node? q :=
    fun q hq => h.files q (.inr hq)
  cases hl : s.ledger with
  | memory => exact congrArg Except.ok h.entries
  | directory path =>
    rw [hl] at hreach hfits hfiles
    rcases hreach with ⟨ho, ho'⟩ | ⟨hb, hb'⟩
    · exact Files.applied_of_opens h.wellFormed.rooted ho h.wellFormed'.rooted ho' hfits (hfiles _ (.inl rfl))
    · exact (applied_of_barred hv hb').trans (applied_of_barred hv hb).symm

theorem isHeld_iff : s.ledger.IsHeld w' engine ↔ s.ledger.IsHeld w engine := by
  have hreach := h.reach
  have hfiles : ∀ q, s.ledger.IsFile s.ledger.place engine q → w'.disk.node? q = w.disk.node? q :=
    fun q hq => h.files q (.inr hq)
  have hf := Files.isFileName_lock hv
  cases hl : s.ledger with
  | memory => exact h.held
  | directory path =>
    rw [hl] at hreach hfiles
    rcases hreach with ⟨ho, ho'⟩ | ⟨hb, hb'⟩
    · have hsame : w'.disk.node? (endOf path.steps ++ [Files.lockName engine]) =
          w.disk.node? (endOf path.steps ++ [Files.lockName engine]) := hfiles _ (.inr (.inr rfl))
      refine exists_congr fun q => exists_congr fun n => ?_
      rw [look_of_opens hf h.wellFormed'.rooted ho', look_of_opens hf h.wellFormed.rooted ho]
      exact and_congr_right fun _ => and_congr_right fun _ => iff_of_eq (congrArg (· = some n) hsame)
    · simp only [LedgerPlace.IsHeld, look_of_barred hf hb, look_of_barred hf hb']

/-- **Worlds that are alike** have the same answers. -/
theorem sameAnswers (hfits : s.ledger.Fits engine) : SameAnswers s engine w w' := by
  have hm := h.migrations_eq hv
  have ha := h.applied_eq hv hfits
  refine ⟨hm, ha, h.isHeld_iff hv, status_congr hm ha, ?_, fun now dryRun allowDestructive models label => ?_⟩
  · rw [check, loadChain_congr hm, check]
  · refine plan_congr ?_ ?_ ?_ models label
    · exact hm
    · exact (congrFun (s.ledger.applied_withNow w' now) engine).trans
        (ha.trans (congrFun (s.ledger.applied_withNow w now) engine).symm)
    · rfl

end Alike

end Views

end Schemata.Engine
