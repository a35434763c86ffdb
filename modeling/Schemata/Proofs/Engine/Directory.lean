import Schemata.Engine.Directory
import Schemata.Proofs.Document.Migration
import Schemata.Proofs.Ledger.Files
import Schemata.Proofs.Store.Ways

/-! The files of an engine's migrations.

What is read of an engine is what is in the files of its directory that have the right ending, in whatever
order they are listed. A file that is written is one more of them; nothing else that happens on the disk
makes a difference, as long as it leaves the way to the directory open and those files alone. -/
namespace Schemata

theorem EngineName.isFileName {engine : String} (h : EngineName.isValid engine = true) :
    Store.Path.IsFileName engine := by
  simp only [EngineName.isValid, Bool.and_eq_true, List.all_eq_true, Bool.not_eq_true'] at h
  obtain ⟨hne, hall⟩ := h
  refine ⟨fun hin => absurd (hall _ hin) (by decide), by simpa using hne, fun he => ?_, fun he => ?_⟩
  · exact absurd (hall '.' (by rw [he]; simp)) (by decide)
  · exact absurd (hall '.' (by rw [he]; simp)) (by decide)

namespace Store.Disk
variable {d d' : Disk} {p : Place} {name : String} {n : Node}

/-! ### What a directory holds -/

/-- What is in the directory at the place, by name. -/
def children (d : Disk) (p : Place) : List (String × Node) :=
  d.nodes.entries.filterMap fun e => (entryName? p e.1).map fun name => (name, e.2)

theorem entryName?_eq_some_iff {entry : Place} : entryName? p entry = some name ↔ entry = p ++ [name] := by
  rw [entryName?]
  constructor
  · intro h
    split at h
    · split at h
      · cases h
        assumption
      · cases h
    · cases h
  · rintro rfl
    simp

theorem mem_children (hd : d.WellFormed) :
    (name, n) ∈ d.children p ↔ Path.IsFileName name ∧ d.node? (p ++ [name]) = some n := by
  have hin : (name, n) ∈ d.children p ↔ d.nodes.get? (p ++ [name]) = some n := by
    simp only [children, List.mem_filterMap, Option.map_eq_some_iff, entryName?_eq_some_iff, Prod.mk.injEq,
      Keyed.get?_eq_some_iff]
    constructor
    · rintro ⟨e, he, key, hkey, rfl, rfl⟩
      rwa [← hkey]
    · exact fun he => ⟨_, he, name, rfl, rfl, rfl⟩
  rw [hin]
  constructor
  · intro hn
    have hf := hd.named _ _ _ hn
    exact ⟨hf, (get?_of_node? (not_isOutside hf)).2 hn⟩
  · rintro ⟨hf, hn⟩
    exact (get?_of_node? (not_isOutside hf)).1 hn

theorem nodup_children (d : Disk) (p : Place) : ((d.children p).map Prod.fst).Nodup := by
  have hsub (l : List (Place × Node)) :
      (((l.filterMap fun e => (entryName? p e.1).map fun name => (name, e.2)).map Prod.fst).map
        fun name => p ++ [name]).Sublist (l.map Prod.fst) := by
    induction l with
    | nil => exact .slnil
    | cons e rest ih =>
      cases hname : entryName? p e.1 with
      | none =>
        rw [List.filterMap_cons_none (by rw [hname]; rfl), List.map_cons]
        exact ih.cons _
      | some name =>
        rw [List.filterMap_cons_some (by rw [hname]; rfl), List.map_cons, List.map_cons, List.map_cons,
          ← entryName?_eq_some_iff.1 hname]
        exact ih.cons_cons _
  have hnodup := (hsub d.nodes.entries).nodup d.nodes.distinct
  exact List.Pairwise.of_map _ (fun a b hne he => hne (he ▸ rfl)) hnodup

end Store.Disk

namespace Engine.Directory
open Store Disk

variable {d d' : Disk} {directory : Path} {engine : String} {p : Place} {name : String} {m : Migration}

/-! ### Listing the files -/

/-- The directory of an engine. -/
def own (directory : Path) (engine : String) : Path := directory.join engine

/-- The file of a migration. -/
def fileName (migration : String) : String := migration ++ "." ++ fileExtension

/-- Whether the name is one of a file that holds a migration. -/
def isMigrationFile (name : String) : Bool := (Path.cutName name).2 == some fileExtension

/-- The names of the files that hold migrations. -/
def fileNames (d : Disk) (p : Place) : List String := ((d.children p).map Prod.fst).filter isMigrationFile

/-- The names of these files, in order. -/
def namesInOrder (d : Disk) (p : Place) : List String :=
  ((inOrder Prod.fst (d.children p)).map Prod.fst).filter isMigrationFile

theorem namesInOrder_perm (d : Disk) (p : Place) : (namesInOrder d p).Perm (fileNames d p) :=
  ((List.mergeSort_perm _ _).map Prod.fst).filter _

theorem isMigrationFile_fileName (h : name ≠ "") : isMigrationFile (fileName name) = true := by
  rw [isMigrationFile, fileName, Path.cutName_eq h (by decide)]
  rfl

theorem ofEngine_eq (hv : EngineName.isValid engine = true) :
    ofEngine directory engine = .ok (own directory engine) := by
  rw [ofEngine, Ledger.Files.check_of_valid hv]
  rfl

theorem ofEngine_of_invalid (hv : EngineName.isValid engine = false) :
    ofEngine directory engine = .error (.invalidEngine engine) := by
  rw [ofEngine, Ledger.Files.check_of_invalid hv]
  rfl

theorem isValid_of_migrations {ms : List Migration} (h : migrations d directory engine = .ok ms) :
    EngineName.isValid engine = true := by
  cases hv : EngineName.isValid engine with
  | true => rfl
  | false =>
    rw [migrations, paths, ofEngine_of_invalid hv] at h
    cases h

theorem mem_fileNames (hd : d.WellFormed) : name ∈ fileNames d p ↔
    Path.IsFileName name ∧ isMigrationFile name = true ∧ ∃ n, d.node? (p ++ [name]) = some n := by
  simp only [fileNames, List.mem_filter, List.mem_map, Prod.exists, exists_and_right, exists_eq_right,
    mem_children hd]
  constructor
  · rintro ⟨⟨n, hf, hn⟩, hm⟩
    exact ⟨hf, hm, n, hn⟩
  · rintro ⟨hf, hm, n, hn⟩
    exact ⟨⟨n, hf, hn⟩, hm⟩

theorem nodup_fileNames (d : Disk) (p : Place) : (fileNames d p).Nodup :=
  List.filter_sublist.nodup (nodup_children d p)

section Listing
variable (hv : EngineName.isValid engine = true) (hd : d.WellFormed)
  (ho : d.Opens [] (own directory engine).steps p)

include hv in
theorem own_ne_empty : (own directory engine).isEmpty = false := Path.join_ne_empty (EngineName.isFileName hv)

include hd ho

/-- The directory is there when anything is in it. -/
theorem found_of_mem (hin : name ∈ fileNames d p) :
    d.walk [] (own directory engine).steps = .found p .directory := by
  refine (ho.walk_or_free hd.rooted).resolve_right fun ⟨hfree, _, _⟩ => ?_
  obtain ⟨-, -, n, hn⟩ := (mem_fileNames hd).1 hin
  rw [hfree [name] (by simp)] at hn
  cases hn

include hv

/-- A directory that is not there yet is as good as an empty one. -/
theorem contents_eq : contents d (own directory engine) = .ok (d.children p) := by
  rcases ho.walk_or_free hd.rooted with hfound | ⟨hfree, hway, -⟩
  · have hlook : d.look (own directory engine) = .found p .directory := by
      simp [look, own_ne_empty hv, hfound]
    simp only [contents, exists?, list?, hlook]
    rfl
  · have hnone : d.children p = [] := by
      refine List.eq_nil_iff_forall_not_mem.2 fun e he => ?_
      have hn := ((mem_children hd).1 he).2
      rw [hfree [e.1] (by simp)] at hn
      cases hn
    have hexists : d.exists? (own directory engine) = some false := by
      rcases hway with hway | hway
      · simp only [exists?, look, own_ne_empty hv, Bool.false_eq_true, if_false, hway]
        cases (own directory engine).isDirectoryForm <;> rfl
      · simp [exists?, look, own_ne_empty hv, hway]
    simp only [contents, hexists, hnone]

/-- The migrations are read from the files in the order of their names. -/
theorem migrations_eq_mapM : migrations d directory engine =
    (namesInOrder d p).mapM fun name => readOwn d engine ((own directory engine).join name) := by
  have hnames : ∀ e ∈ inOrder Prod.fst (d.children p), Path.IsFileName e.1 := fun e he =>
    ((mem_children hd).1 ((List.mergeSort_perm _ _).subset he)).1
  have hpaths : paths d directory engine = .ok ((namesInOrder d p).map ((own directory engine).join ·)) := by
    simp only [paths, ofEngine_eq hv, contents_eq hv hd ho, bind, Except.bind, pure, Except.pure, Except.ok.injEq,
      namesInOrder]
    generalize inOrder Prod.fst (d.children p) = l at hnames
    induction l with
    | nil => rfl
    | cons e rest ih =>
      have hrest := ih fun x hx => hnames x (List.mem_cons_of_mem _ hx)
      have he : ((own directory engine).join e.1).extension? = (Path.cutName e.1).2 :=
        Path.extension?_join (hnames e List.mem_cons_self)
      rw [List.map_cons, List.map_cons, List.filter_cons, List.filter_cons, he, hrest, isMigrationFile]
      split
      · rw [List.map_cons]
      · rfl
  simp only [migrations, hpaths, bind, Except.bind, List.mapM_map]
  rfl

theorem migrations_eq : ∃ names : List String, names.Perm (fileNames d p) ∧
    migrations d directory engine =
      names.mapM fun name => readOwn d engine ((own directory engine).join name) :=
  ⟨namesInOrder d p, namesInOrder_perm d p, migrations_eq_mapM hv hd ho⟩

end Listing

/-! ### Reading a file -/

theorem readOwn_congr (hf : Path.IsFileName name) (hw : d.walk [] (own directory engine).steps = .found p .directory)
    (hw' : d'.walk [] (own directory engine).steps = .found p .directory)
    (hn : d'.node? (p ++ [name]) = d.node? (p ++ [name])) :
    readOwn d' engine ((own directory engine).join name) = readOwn d engine ((own directory engine).join name) := by
  have hlook : d'.look ((own directory engine).join name) = d.look ((own directory engine).join name) := by
    rw [look_join hf hw, look_join hf hw', hn]
  simp only [readOwn, readMigration, read?, hlook]

/-- A migration that was read has the name of its file and belongs to the engine. -/
theorem of_readOwn (hf : Path.IsFileName name)
    (h : readOwn d engine ((own directory engine).join name) = .ok m) :
    m.database = engine ∧ m.name = (Path.cutName name).1 := by
  obtain ⟨r, hread, h⟩ := bind_eq_ok_iff.1 h
  have hdatabase : r.database = engine ∧ r = m := by
    split at h
    · cases h
      exact ⟨by assumption, rfl⟩
    · cases h
  obtain ⟨hdatabase, rfl⟩ := hdatabase
  refine ⟨hdatabase, ?_⟩
  simp only [readMigration, Path.stem?_join hf] at hread
  split at hread
  · cases hread
  · split at hread
    · cases hread
    · cases hread
    · split at hread
      · cases hread
        assumption
      · cases hread

/-- Every migration that is read is in the file of its name. -/
theorem of_mem_migrations (hd : d.WellFormed) (ho : d.Opens [] (own directory engine).steps p) {ms : List Migration}
    (h : migrations d directory engine = .ok ms) (hm : m ∈ ms) :
    m.database = engine ∧ fileName m.name ∈ fileNames d p := by
  obtain ⟨names, hperm, heq⟩ := migrations_eq (isValid_of_migrations h) hd ho
  obtain ⟨name, hin, hread⟩ := exists_of_mem_mapM (heq ▸ h) hm
  have hin' := hperm.subset hin
  obtain ⟨hf, hfile, -⟩ := (mem_fileNames hd).1 hin'
  obtain ⟨hdatabase, hname⟩ := of_readOwn hf hread
  have hcut := Path.eq_of_cutName (beq_iff_eq.1 hfile)
  rw [← hname] at hcut
  exact ⟨hdatabase, by rw [fileName, ← hcut]; exact hin'⟩

/-! ### The same files, and more of them -/

/-- Files that are added are read as well, and those that were there are read as before. -/
theorem migrations_of_perm (hd : d.WellFormed) (ho : d.Opens [] (own directory engine).steps p) (hd' : d'.WellFormed)
    (ho' : d'.Opens [] (own directory engine).steps p) {more : List String} {ms added : List Migration}
    (hnames : (fileNames d' p).Perm (more ++ fileNames d p))
    (hkept : ∀ name ∈ fileNames d p, d'.node? (p ++ [name]) = d.node? (p ++ [name]))
    (hmore : (more.mapM fun name => readOwn d' engine ((own directory engine).join name)) = .ok added)
    (h : migrations d directory engine = .ok ms) :
    ∃ ms', migrations d' directory engine = .ok ms' ∧ ms'.Perm (added ++ ms) := by
  have hv := isValid_of_migrations h
  obtain ⟨names, hperm, heq⟩ := migrations_eq hv hd ho
  obtain ⟨names', hperm', heq'⟩ := migrations_eq hv hd' ho'
  rw [heq] at h
  have hsame : (names.mapM fun name => readOwn d' engine ((own directory engine).join name)) = .ok ms := by
    rw [← h]
    refine mapM_congr fun name hin => ?_
    have hold := hperm.subset hin
    have hnew : name ∈ fileNames d' p := hnames.symm.subset (List.mem_append_right _ hold)
    exact readOwn_congr ((mem_fileNames hd).1 hold).1 (found_of_mem hd ho hold) (found_of_mem hd' ho' hnew)
      (hkept name hold)
  have hall : (more ++ names).Perm names' := (hperm.append_left more).trans (hnames.symm.trans hperm'.symm)
  rw [heq']
  exact mapM_perm hall (mapM_append_eq_ok hmore hsame)

/-- What happens beside the files makes no difference. -/
theorem migrations_of_same (hd : d.WellFormed) (ho : d.Opens [] (own directory engine).steps p) (hd' : d'.WellFormed)
    (ho' : d'.Opens [] (own directory engine).steps p)
    (hsame : ∀ name, isMigrationFile name = true → d'.node? (p ++ [name]) = d.node? (p ++ [name]))
    {ms : List Migration} (h : migrations d directory engine = .ok ms) :
    ∃ ms', migrations d' directory engine = .ok ms' ∧ ms'.Perm ms := by
  have hnames : (fileNames d' p).Perm ([] ++ fileNames d p) := by
    refine (List.perm_ext_iff_of_nodup (nodup_fileNames d' p) (nodup_fileNames d p)).2 fun name => ?_
    rw [mem_fileNames hd, mem_fileNames hd']
    exact and_congr_right fun _ => and_congr_right fun hm => by rw [hsame name hm]
  have hkept : ∀ name ∈ fileNames d p, d'.node? (p ++ [name]) = d.node? (p ++ [name]) :=
    fun name hin => hsame name ((mem_fileNames hd).1 hin).2.1
  exact migrations_of_perm hd ho hd' ho' hnames hkept rfl h

/-! ### Writing a file -/

/-- What writing a migration leaves. -/
structure Written (d d' : Disk) (directory : Path) (m : Migration) (p : Place) : Prop where
  wellFormed : d'.WellFormed
  opens : d'.Opens [] (own directory m.database).steps p
  fits : isName (fileName m.name) = true
  fresh : d.node? (p ++ [fileName m.name]) = none
  there : d'.node? (p ++ [fileName m.name]) = some (.text m.toToml)
  /-- Nothing else is new but directories on the way. -/
  changes : ChangesAt d d' (fun q => q ∈ placesFrom [] (own directory m.database).steps ∧ q <+: p)
    (· = p ++ [fileName m.name])

theorem Written.node?_eq (h : Written d d' directory m p) (hne : name ≠ fileName m.name) :
    d'.node? (p ++ [name]) = d.node? (p ++ [name]) := by
  refine h.changes.node?_eq (fun ⟨_, hpre⟩ => ?_) (by simpa using hne)
  have hlen := hpre.length_le
  rw [List.length_append, List.length_singleton] at hlen
  omega

theorem of_writeMigration {path : Path} (hd : d.WellFormed) (ho : d.Opens [] (own directory m.database).steps p)
    (hf : Path.IsFileName (fileName m.name)) (h : writeMigration directory m d = .ok path d') :
    path = (own directory m.database).join (fileName m.name) ∧ Written d d' directory m p := by
  cases hv : EngineName.isValid m.database with
  | false => simp [writeMigration, ofEngine_of_invalid hv] at h
  | true =>
    obtain ⟨made, hmade, hwalk, hnew⟩ := ho.exists_made hd.rooted
    have hmd : d.makeDirectory? (own directory m.database) = some made := hmade
    have hlook := look_join hf hwalk
    rw [fileName] at hlook hf
    simp only [writeMigration, ofEngine_eq hv, hmd] at h
    by_cases hname : isName (m.name ++ "." ++ fileExtension) = true
    · rw [if_pos hname] at hlook
      cases hn : made.node? (p ++ [m.name ++ "." ++ fileExtension]) with
      | some node =>
        simp only [hn, Option.elim] at hlook
        simp [hlook] at h
      | none =>
        simp only [hn, Option.elim] at hlook
        simp only [hlook, EStateM.Result.ok.injEq] at h
        obtain ⟨rfl, rfl⟩ := h
        have hmwf := hd.makeDirectory? hmd
        have hdir := hmwf.node?_of_walk (node?_of_isOutside rfl) hwalk
        refine ⟨rfl, ?_, ?_, hname, ?_, ?_, ?_⟩
        · exact hmwf.put hf hdir (ne_directory_of_none hn)
        · exact opens_of_walk (walk_of_keepsDirectories (keepsDirectories_put (ne_directory_of_none hn)) hwalk)
        · rcases hnew (p ++ [fileName m.name]) with hsame | ⟨hnone, -, -⟩ | hfile
          · exact hsame.symm.trans hn
          · exact hnone
          · exact hfile.elim
        · exact node?_put_self (not_isOutside hf)
        · exact (hnew.mono (fun _ hq => hq) fun _ => False.elim).trans (changesAt_put rfl)
    · rw [if_neg hname] at hlook
      simp [hlook] at h

/-- A migration is written when its file is not there. -/
theorem exists_writeMigration (hd : d.WellFormed) (ho : d.Opens [] (own directory m.database).steps p)
    (hv : EngineName.isValid m.database = true) (hf : Path.IsFileName (fileName m.name))
    (hfits : isName (fileName m.name) = true) (hfree : d.node? (p ++ [fileName m.name]) = none) :
    ∃ path d', writeMigration directory m d = .ok path d' := by
  obtain ⟨made, hmade, hwalk, hnew⟩ := ho.exists_made hd.rooted
  have hmd : d.makeDirectory? (own directory m.database) = some made := hmade
  have hstill : made.node? (p ++ [fileName m.name]) = none :=
    (hnew.node?_eq (fun hq => absurd hq.2.length_le (by simp)) not_false).trans hfree
  have hlook := look_join hf hwalk
  rw [if_pos hfits, hstill, fileName] at hlook
  simp only [writeMigration, ofEngine_eq hv, hmd, hlook, Option.elim]
  exact ⟨_, _, rfl⟩

section Reading
variable (h : Written d d' directory m p) (hd : d.WellFormed) (hf : Path.IsFileName (fileName m.name))
  (hne : m.name ≠ "")
include h hd hf hne

theorem Written.fileNames_perm : (fileNames d' p).Perm (fileName m.name :: fileNames d p) := by
  have hfile := isMigrationFile_fileName hne
  have hnew : fileName m.name ∉ fileNames d p := by
    rw [mem_fileNames hd]
    rintro ⟨-, -, n, hn⟩
    rw [h.fresh] at hn
    cases hn
  refine (List.perm_ext_iff_of_nodup (nodup_fileNames d' p)
    (List.nodup_cons.2 ⟨hnew, nodup_fileNames d p⟩)).2 fun name => ?_
  rw [List.mem_cons, mem_fileNames hd, mem_fileNames h.wellFormed]
  by_cases heq : name = fileName m.name
  · rw [heq]
    exact ⟨fun _ => .inl rfl, fun _ => ⟨hf, hfile, _, h.there⟩⟩
  · rw [h.node?_eq heq]
    exact ⟨.inr, fun hin => hin.resolve_left heq⟩

/-- **The file that was written is one more of the engine's**, and what is read of it is the migration as it
comes back from its document. -/
theorem Written.migrations_eq (ho : d.Opens [] (own directory m.database).steps p)
    (hread : Migration.ofToml m.toToml = .ok m.settled) {ms : List Migration}
    (hms : migrations d directory m.database = .ok ms) :
    m.name ∉ ms.map (·.name) ∧
      ∃ ms', migrations d' directory m.database = .ok ms' ∧ ms'.Perm (m.settled :: ms) := by
  constructor
  · intro hin
    obtain ⟨x, hx, hname⟩ := List.mem_map.1 hin
    obtain ⟨-, hfile⟩ := of_mem_migrations hd ho hms hx
    obtain ⟨-, -, n, hn⟩ := (mem_fileNames hd).1 hfile
    rw [hname, h.fresh] at hn
    cases hn
  · have hperm := h.fileNames_perm hd hf hne
    have hwalk := found_of_mem h.wellFormed h.opens (hperm.symm.subset List.mem_cons_self)
    have hlook := look_join hf hwalk
    rw [if_pos h.fits, h.there, Option.elim] at hlook
    have hown : readOwn d' m.database ((own directory m.database).join (fileName m.name)) = .ok m.settled := by
      have hstem : (Path.cutName (fileName m.name)).1 = m.name := by
        rw [fileName, Path.cutName_eq hne (by decide)]
      simp only [readOwn, readMigration, Path.stem?_join hf, hstem, read?, hlook, hread, Migration.settled,
        bind, Except.bind, if_true]
      rfl
    have hmore : ([fileName m.name].mapM fun name => readOwn d' m.database ((own directory m.database).join name)) =
        .ok [m.settled] := mapM_cons_eq_ok_iff.2 ⟨_, _, hown, rfl, rfl⟩
    have hkept : ∀ name ∈ fileNames d p, d'.node? (p ++ [name]) = d.node? (p ++ [name]) := by
      refine fun name hin => h.node?_eq fun he => ?_
      obtain ⟨-, -, n, hn⟩ := (mem_fileNames hd).1 hin
      rw [he, h.fresh] at hn
      cases hn
    exact migrations_of_perm hd ho h.wellFormed h.opens hperm hkept hmore hms

end Reading

/-- A migration that could not be written leaves directories at most. -/
theorem of_writeMigration_error {failure : Failure} (hd : d.WellFormed)
    (ho : d.Opens [] (own directory m.database).steps p) (h : writeMigration directory m d = .error failure d') :
    d'.WellFormed ∧ d'.Opens [] (own directory m.database).steps p ∧
      ChangesAt d d' (fun q => q ∈ placesFrom [] (own directory m.database).steps ∧ q <+: p) fun _ => False := by
  cases hv : EngineName.isValid m.database with
  | false =>
    simp only [writeMigration, ofEngine_of_invalid hv, EStateM.Result.error.injEq] at h
    rw [← h.2]
    exact ⟨hd, ho, .refl d⟩
  | true =>
    obtain ⟨made, hmade, hwalk, hnew⟩ := ho.exists_made hd.rooted
    have hmd : d.makeDirectory? (own directory m.database) = some made := hmade
    simp only [writeMigration, ofEngine_eq hv, hmd] at h
    have hleft : made = d' := by
      split at h
      · cases h
      · exact (EStateM.Result.error.inj h).2
      · exact (EStateM.Result.error.inj h).2
    rw [← hleft]
    exact ⟨hd.makeDirectory? hmd, opens_of_walk hwalk, hnew⟩

end Engine.Directory

end Schemata
