import Schemata.Proofs.Engine.Make
import Schemata.Proofs.Engine.Standing
import Schemata.Proofs.Engine.Views
import Schemata.Proofs.Store.Spares

/-! The same operation in two worlds.

An engine that cannot tell two worlds apart does the same in both: it answers the same, makes the same directories,
changes the same files of its own and no others, and cannot tell the worlds apart afterwards (`perform_alike`). With
one world in the place of both, this says what an operation may change at all. -/
namespace Schemata.Engine
open Store Disk Ledger

/-! ### Operations -/

inductive Task (γ : Type)
  | make (models : List Model) (label : Option String)
  | migrate (adapter : Adapter γ) (connection : γ)

/-- What changes an engine's files, at a time and under the options of that time. -/
structure Operation (γ : Type) where
  task : Task γ
  now : Calendar.Instant
  dryRun : Bool := false
  allowDestructive : Bool := false

inductive Outcome (γ : Type)
  | made (plan : Except Failure Plan)
  | migrated (report : Except Failure Report) (connection : γ)

def Operation.settings {γ : Type} (x : Operation γ) (s : Settings) : Settings :=
  { s with dryRun := x.dryRun, allowDestructive := x.allowDestructive }

/-- What comes of an operation on an engine, and the world behind it. -/
def Operation.perform {γ : Type} (s : Settings) (engine : String) (x : Operation γ) (w : World) : Outcome γ × World :=
  let w := { w with now := x.now }
  match x.task with
  | .make models label =>
    match make (x.settings s) engine models label w with
    | .ok p w => (.made (.ok p), w)
    | .error failure w => (.made (.error failure), w)
  | .migrate A connection =>
    match migrate (x.settings s) A engine ⟨w, connection⟩ with
    | .ok report t => (.migrated (.ok report) t.connection, t.world)
    | .error failure t => (.migrated (.error failure) t.connection, t.world)

/-! ### Steps in two worlds -/

/-- Both runs answer the same and leave states that `R` relates, and `S` as well if they succeed. -/
inductive Twin {ε σ α : Type} (R S : σ → σ → Prop) : EStateM.Result ε σ α → EStateM.Result ε σ α → Prop
  | ok {a : α} {t t' : σ} : R t t' → S t t' → Twin R S (.ok a t) (.ok a t')
  | error {e : ε} {t t' : σ} : R t t' → Twin R S (.error e t) (.error e t')

section Steps
variable {s : Settings} {engine : String} {w w' v v' u u' : World}

/-- The place is on the way to the engine's migrations or to the ledger. -/
def OnWay (s : Settings) (engine : String) (q : Place) : Prop :=
  q ∈ placesFrom [] (Directory.own s.directory engine).steps ∨ q ∈ placesFrom [] s.ledger.steps

/-- Nothing but the engine's own is changed in memory. -/
structure OwnMemory (engine : String) (w v : World) : Prop where
  applied : ∀ e ≠ engine, v.memory.applied e = w.memory.applied e
  held : ∀ e ≠ engine, (e ∈ v.memory.held ↔ e ∈ w.memory.held)
  now : v.now = w.now

theorem OwnMemory.refl (engine : String) (w : World) : OwnMemory engine w w := ⟨fun _ _ => rfl, fun _ _ => .rfl, rfl⟩

theorem OwnMemory.trans (h : OwnMemory engine w v) (h' : OwnMemory engine v u) : OwnMemory engine w u :=
  ⟨fun e he => (h'.applied e he).trans (h.applied e he), fun e he => (h'.held e he).trans (h.held e he),
    h'.now.trans h.now⟩

theorem Twin.imp {ε σ α : Type} {R S R' S' : σ → σ → Prop} {r r' : EStateM.Result ε σ α} (h : Twin R S r r')
    (hR : ∀ t t', R t t' → R' t t') (hS : ∀ t t', S t t' → S' t t') : Twin R' S' r r' := by
  cases h with
  | ok hr hs => exact .ok (hR _ _ hr) (hS _ _ hs)
  | error hr => exact .error (hR _ _ hr)

theorem Twin.bind {ε σ α β : Type} {x : EStateM ε σ α} {f : α → EStateM ε σ β} {R S R' S' : σ → σ → Prop} {t t' : σ}
    (h : Twin R S (x t) (x t')) (herror : ∀ u u', R u u' → R' u u')
    (hf : ∀ a u u', R u u' → S u u' → Twin R' S' (f a u) (f a u')) : Twin R' S' ((x >>= f) t) ((x >>= f) t') := by
  simp only [Bind.bind, EStateM.bind]
  cases hx : x t <;> cases hx' : x t' <;> rw [hx, hx'] at h <;> cases h
  · exact hf _ _ _ (by assumption) (by assumption)
  · exact .error (herror _ _ (by assumption))

theorem Twin.onDisk {α : Type} {work : EStateM Failure Disk α} {R S : World → World → Prop}
    (h : Twin (fun d d' => R { w with disk := d } { w' with disk := d' })
      (fun d d' => S { w with disk := d } { w' with disk := d' }) (work w.disk) (work w'.disk)) :
    Twin R S (World.onDisk work w) (World.onDisk work w') := by
  simp only [World.onDisk]
  cases hd : work w.disk <;> cases hd' : work w'.disk <;> rw [hd, hd'] at h <;> cases h
  · exact .ok (by assumption) (by assumption)
  · exact .error (by assumption)

section Sessions
variable {γ α : Type} {t t' : Session γ}

theorem Twin.onWorld {work : Work α} {R S : World → World → Prop} (h : Twin R S (work t.world) (work t'.world))
    (hc : t'.connection = t.connection) :
    Twin (fun u u' => R u.world u'.world ∧ u'.connection = u.connection) (fun u u' => S u.world u'.world)
      (Engine.onWorld work t) (Engine.onWorld work t') := by
  simp only [Engine.onWorld]
  cases hw : work t.world <;> cases hw' : work t'.world <;> rw [hw, hw'] at h <;> cases h
  · exact .ok ⟨by assumption, hc⟩ (by assumption)
  · exact .error ⟨by assumption, hc⟩

/-- What is done with the connection alone. -/
theorem twin_onConnection {ε : Type} (work : EStateM ε γ α) (hc : t'.connection = t.connection) :
    Twin (fun u u' => u.world = t.world ∧ u'.world = t'.world ∧ u'.connection = u.connection) (fun _ _ => True)
      (onConnection work t) (onConnection work t') := by
  simp only [onConnection, hc]
  cases work t.connection with
  | ok a c => exact .ok ⟨rfl, rfl, rfl⟩ trivial
  | error e c => exact .error ⟨rfl, rfl, rfl⟩

end Sessions

/-- The worlds `v` and `v'` are what the same step of an engine makes of `w` and `w'`. -/
structure Stepped (s : Settings) (engine : String) (w w' v v' : World) : Prop where
  alike : Alike s engine v v'
  edited : ∃ made, (∀ q, made q → OnWay s engine q) ∧ Edited made (IsOwn s engine) w.disk v.disk ∧
    Edited made (IsOwn s engine) w'.disk v'.disk
  memory : OwnMemory engine w v
  memory' : OwnMemory engine w' v'

namespace Stepped

theorem refl (h : Alike s engine w w') : Stepped s engine w w' w w' :=
  ⟨h, ⟨_, fun _ => False.elim, .refl _, .refl _⟩, .refl engine w, .refl engine w'⟩

theorem trans (h : Stepped s engine w w' v v') (h' : Stepped s engine v v' u u') : Stepped s engine w w' u u' := by
  obtain ⟨made, hway, he, he'⟩ := h.edited
  obtain ⟨made', hway', hnext, hnext'⟩ := h'.edited
  exact ⟨h'.alike, ⟨_, fun q hq => hq.elim (hway q) (hway' q), he.trans hnext, he'.trans hnext'⟩,
    h.memory.trans h'.memory, h.memory'.trans h'.memory'⟩

end Stepped

/-- No file of the engine lies on its ways. -/
def Aside (s : Settings) (engine : String) : Prop := ∀ q, OnWay s engine q → ¬ IsOwn s engine q

section Disks
variable (h : Alike s engine w w') (haside : Aside s engine) {d d' : Disk}
include h haside

/-- A step that works on the disk only. -/
theorem Stepped.of_edited (hd : d.WellFormed) (hd' : d'.WellFormed) {made : Place → Prop}
    (hway : ∀ q, made q → OnWay s engine q) (he : Edited made (IsOwn s engine) w.disk d)
    (he' : Edited made (IsOwn s engine) w'.disk d') (hfiles : ∀ q, IsOwn s engine q → d'.node? q = d.node? q) :
    Stepped s engine w w' { w with disk := d } { w' with disk := d' } where
  alike :=
    { wellFormed := hd
      wellFormed' := hd'
      way := h.way.of_changes h.wellFormed.rooted h.wellFormed'.rooted he.changesAt he'.changesAt
        (fun q hq => haside q (.inl hq)) fun q hq => haside q (.inl hq)
      reach := h.reach.of_changes h.wellFormed.rooted h.wellFormed'.rooted he.changesAt he'.changesAt
        (fun q hq => haside q (.inr hq)) fun q hq => haside q (.inr hq)
      files := hfiles
      entries := h.entries
      held := h.held }
  edited := ⟨made, hway, he, he'⟩
  memory := ⟨fun _ _ => rfl, fun _ _ => .rfl, rfl⟩
  memory' := ⟨fun _ _ => rfl, fun _ _ => .rfl, rfl⟩

/-- A step that works on the engine's files only. -/
theorem Stepped.of_changes (hd : d.WellFormed) (hd' : d'.WellFormed)
    (hc : ChangesAt w.disk d (fun _ => False) (IsOwn s engine))
    (hc' : ChangesAt w'.disk d' (fun _ => False) (IsOwn s engine))
    (hfiles : ∀ q, IsOwn s engine q → d'.node? q = d.node? q) :
    Stepped s engine w w' { w with disk := d } { w' with disk := d' } :=
  of_edited h haside hd hd' (fun _ => False.elim) (.of_changesAt hc) (.of_changesAt hc') hfiles

/-- Making a way that opens. -/
theorem Stepped.exists_made {path : Path} (hway : ∀ q ∈ placesFrom [] path.steps, OnWay s engine q)
    (ho : w.disk.Opens [] path.steps (endOf path.steps)) (ho' : w'.disk.Opens [] path.steps (endOf path.steps)) :
    ∃ d d', w.disk.makeDirectory? path = some d ∧ w'.disk.makeDirectory? path = some d' ∧
      d.walk [] path.steps = .found (endOf path.steps) .directory ∧
      d'.walk [] path.steps = .found (endOf path.steps) .directory ∧
      Stepped s engine w w' { w with disk := d } { w' with disk := d' } := by
  obtain ⟨d, hmade, hwalk, hnew⟩ := ho.exists_made h.wellFormed.rooted
  obtain ⟨d', hmade', hwalk', hnew'⟩ := ho'.exists_made h.wellFormed'.rooted
  have hd := h.wellFormed.makeDirectory? hmade
  have hd' := h.wellFormed'.makeDirectory? hmade'
  have he := Edited.of_made ho h.wellFormed hmade hd fun q hq _ => haside q (hway q hq)
  have he' := Edited.of_made ho' h.wellFormed' hmade' hd' fun q hq _ => haside q (hway q hq)
  refine ⟨d, d', hmade, hmade', hwalk, hwalk', ?_⟩
  refine of_edited h haside hd hd' (fun q hq => hway q hq.1) he he' fun q hq => ?_
  have hnot : ¬ (q ∈ placesFrom [] path.steps ∧ q <+: endOf path.steps) := fun hm => haside q (hway q hm.1) hq
  rw [hnew.node?_eq hnot not_false, hnew'.node?_eq hnot not_false, h.files q hq]

/-- One more file of the engine. -/
theorem Stepped.put {q : Place} {n : Node} (hq : IsOwn s engine q) (hd : (w.disk.put q n).WellFormed)
    (hd' : (w'.disk.put q n).WellFormed) :
    Stepped s engine w w' { w with disk := w.disk.put q n } { w' with disk := w'.disk.put q n } := by
  refine of_changes h haside hd hd' (changesAt_put hq) (changesAt_put hq) fun q' hq' => ?_
  by_cases he : q = q'
  · subst he
    simp only [node?, Disk.put, Keyed.get?_put, if_true]
  · rw [node?_put_ne he, node?_put_ne he, h.files q' hq']

/-- A file of the engine is looked for in a directory that is made, and may be put there if its place is free. -/
theorem Stepped.exists_looked {path : Path} {name : String} (hf : Path.IsFileName name)
    (hway : ∀ q ∈ placesFrom [] path.steps, OnWay s engine q) (hown : IsOwn s engine (endOf path.steps ++ [name]))
    (ho : w.disk.Opens [] path.steps (endOf path.steps)) (ho' : w'.disk.Opens [] path.steps (endOf path.steps)) :
    ∃ d d', w.disk.makeDirectory? path = some d ∧ w'.disk.makeDirectory? path = some d' ∧
      Stepped s engine w w' { w with disk := d } { w' with disk := d' } ∧
      d'.look (path.join name) = d.look (path.join name) ∧
      ∀ q text, d.look (path.join name) = .free q →
        Stepped s engine w w' { w with disk := d.put q (.text text) } { w' with disk := d'.put q (.text text) } := by
  obtain ⟨d, d', hmade, hmade', hwalk, hwalk', hstep⟩ := exists_made h haside hway ho ho'
  have hsame : d'.node? (endOf path.steps ++ [name]) = d.node? (endOf path.steps ++ [name]) := hstep.alike.files _ hown
  refine ⟨d, d', hmade, hmade', hstep, by rw [look_join hf hwalk, look_join hf hwalk', hsame], fun q text hfree => ?_⟩
  obtain ⟨hq, hnone⟩ := of_walk_free (of_look_free hfree).1
  rw [← endOf, endOf_join hf] at hq
  subst hq
  have hput {e : Disk} (he : e.WellFormed) (hwalk : e.walk [] path.steps = .found (endOf path.steps) .directory)
      (hn : e.node? (endOf path.steps ++ [name]) = none) :
      (e.put (endOf path.steps ++ [name]) (.text text)).WellFormed :=
    he.put hf (he.node?_of_walk (node?_of_isOutside rfl) hwalk) (ne_directory_of_none hn)
  exact hstep.trans (.put hstep.alike haside hown (hput hstep.alike.wellFormed hwalk hnone)
    (hput hstep.alike.wellFormed' hwalk' (hsame.trans hnone)))

theorem Stepped.erase {q : Place} (hq : IsOwn s engine q) (hd : (w.disk.erase q).WellFormed)
    (hd' : (w'.disk.erase q).WellFormed) :
    Stepped s engine w w' { w with disk := w.disk.erase q } { w' with disk := w'.disk.erase q } := by
  refine of_changes h haside hd hd' (changesAt_erase hq) (changesAt_erase hq) fun q' hq' => ?_
  by_cases he : q = q'
  · subst he
    simp only [node?, Disk.erase, Keyed.get?_erase, if_true]
  · rw [node?_erase_ne he, node?_erase_ne he, h.files q' hq']

end Disks

/-- A step that works on the memory only. -/
theorem Stepped.of_memory (h : Alike s engine w w') {m m' : Memory} (hm : OwnMemory engine w { w with memory := m })
    (hm' : OwnMemory engine w' { w' with memory := m' }) (happlied : m'.applied engine = m.applied engine)
    (hheld : engine ∈ m'.held ↔ engine ∈ m.held) :
    Stepped s engine w w' { w with memory := m } { w' with memory := m' } :=
  ⟨⟨h.wellFormed, h.wellFormed', h.way, h.reach, h.files, happlied, hheld⟩,
    ⟨_, fun _ => False.elim, .refl _, .refl _⟩, hm, hm'⟩

end Steps

/-! ### The ledger -/

namespace LedgerPlace
variable {s : Settings} {engine : String} {w w' : World}

theorem isOwn_of_isFile {path : Path} (hl : s.ledger = .directory path) {q : Place}
    (hq : Files.IsFile (endOf path.steps) engine q) : IsOwn s engine q := by
  refine .inr ?_
  rw [hl]
  exact hq

section Files
variable {path : Path} (hl : s.ledger = .directory path) (h : Alike s engine w w') (haside : Aside s engine)
include hl h haside

section Taking
variable (hv : EngineName.isValid engine = true) (now : Calendar.Instant)
include hv

theorem acquire_files :
    Twin (fun d d' => Stepped s engine w w' { w with disk := d } { w' with disk := d' })
      (fun d d' => Files.Locked d path (endOf path.steps) engine ∧ Files.Locked d' path (endOf path.steps) engine)
      (Files.acquire path engine now w.disk) (Files.acquire path engine now w'.disk) := by
  have hreach := h.reach
  rw [hl] at hreach
  rcases hreach with ⟨ho, ho'⟩ | ⟨hb, hb'⟩
  · have hway : ∀ q ∈ placesFrom [] path.steps, OnWay s engine q := fun q hq => .inr (by rw [hl]; exact hq)
    obtain ⟨d, d', hmade, hmade', hstep, hlook, hput⟩ := Stepped.exists_looked h haside (Files.isFileName_lock hv) hway
      (isOwn_of_isFile hl (.inr (.inr rfl))) ho ho'
    have hlocked {held : Disk} (hrun : Files.acquire path engine now w.disk = .ok () held) :
        Files.Locked held path (endOf path.steps) engine := (Files.acquire_ok h.wellFormed ho hrun).2.2
    have hlocked' {held : Disk} (hrun : Files.acquire path engine now w'.disk = .ok () held) :
        Files.Locked held path (endOf path.steps) engine := (Files.acquire_ok h.wellFormed' ho' hrun).2.2
    simp only [Files.acquire, hmade, hmade', Files.lockPath_eq hv, hlook] at hlocked hlocked' ⊢
    cases hfound : d.look (path.join (Files.lockName engine)) with
    | free q =>
      rw [hfound] at hlocked hlocked'
      exact .ok (hput q _ hfound) ⟨hlocked rfl, hlocked' rfl⟩
    | found q node => exact .error hstep
    | missing => exact .error hstep
    | refused => exact .error hstep
  · have hnone : w.disk.makeDirectory? path = none := hb.walkMaking_eq
    have hnone' : w'.disk.makeDirectory? path = none := hb'.walkMaking_eq
    simp only [Files.acquire, hnone, hnone']
    exact .error (.refl h)

end Taking

section Holding
variable (hheld : Files.Locked w.disk path (endOf path.steps) engine)
  (hheld' : Files.Locked w'.disk path (endOf path.steps) engine)
include hheld hheld'

theorem record_files {e : Entry} (he : e.engine = engine) :
    Twin (fun d d' => Stepped s engine w w' { w with disk := d } { w' with disk := d' } ∧
        Files.Locked d path (endOf path.steps) engine ∧ Files.Locked d' path (endOf path.steps) engine)
      (fun _ _ => True) (Files.record path e w.disk) (Files.record path e w'.disk) := by
  subst he
  have hv := hheld.valid
  have hsame {q : Place} (hq : Files.IsFile (endOf path.steps) e.engine q) : w'.disk.node? q = w.disk.node? q :=
    h.files q (isOwn_of_isFile hl hq)
  have happlied : Files.applied w'.disk path e.engine = Files.applied w.disk path e.engine :=
    Files.applied_congr hheld.found hheld'.found (hsame (.inl rfl))
  simp only [Files.record, happlied, Files.entriesPath_eq hv, makeDirectory?_of_found hheld.found,
    makeDirectory?_of_found hheld'.found]
  cases Files.applied w.disk path e.engine with
  | error failure => exact .error ⟨.refl h, hheld, hheld'⟩
  | ok entries =>
    dsimp only
    by_cases hready : Files.Ready w.disk path e.engine (endOf path.steps)
    · have hready' := hready.of_files hheld'.found fun q => hsame
      rw [hready.replace_eq, hready'.replace_eq]
      refine .ok ⟨?_, hheld.replaced h.wellFormed hready _, hheld'.replaced h.wellFormed' hready' _⟩ trivial
      have hown (q : Place) : Files.IsFile (endOf path.steps) e.engine q → IsOwn s e.engine q := isOwn_of_isFile hl
      refine .of_changes h haside (Files.replaced_spec h.wellFormed hready _).1
        (Files.replaced_spec h.wellFormed' hready' _).1
        (Files.changesAt_replaced _ (hown _ (.inl rfl)) (hown _ (.inr (.inl rfl))))
        (Files.changesAt_replaced _ (hown _ (.inl rfl)) (hown _ (.inr (.inl rfl)))) fun q hq => ?_
      rw [Files.node?_replaced hv, Files.node?_replaced hv, h.files q hq]
    · have hnone {d : Disk} (hfound : d.walk [] path.steps = .found (endOf path.steps) .directory)
          (hnot : ¬ Files.Ready d path e.engine (endOf path.steps)) (text : String) :
          Files.replace d (path.join (Files.entriesName e.engine)) text = none := by
        cases hreplace : Files.replace d (path.join (Files.entriesName e.engine)) text with
        | none => rfl
        | some written => exact absurd (Files.Ready.of_replace hv hfound hreplace) hnot
      have hready' : ¬ Files.Ready w'.disk path e.engine (endOf path.steps) := fun hready' =>
        hready (hready'.of_files hheld.found fun q hq => (hsame hq).symm)
      rw [hnone hheld.found hready, hnone hheld'.found hready']
      exact .error ⟨.refl h, hheld, hheld'⟩

theorem release_files : Stepped s engine w w' { w with disk := Files.release path engine w.disk }
    { w' with disk := Files.release path engine w'.disk } := by
  obtain ⟨hwf, -⟩ := Files.release_spec h.wellFormed hheld
  obtain ⟨hwf', -⟩ := Files.release_spec h.wellFormed' hheld'
  rw [hheld.release_eq] at hwf ⊢
  rw [hheld'.release_eq] at hwf' ⊢
  exact .erase h haside (isOwn_of_isFile hl (.inr (.inr rfl))) hwf hwf'

end Holding

end Files

section Memory

variable (h : Alike s engine w w')
include h

theorem acquire_memory : Twin (Stepped s engine w w') (fun _ _ => True)
    (LedgerPlace.acquire .memory engine w) (LedgerPlace.acquire .memory engine w') := by
  have hother (w : World) : OwnMemory engine w { w with memory := { w.memory with held := engine :: w.memory.held } } :=
    ⟨fun _ _ => rfl, fun e he => by simp [he], rfl⟩
  rw [LedgerPlace.acquire_memory_eq, LedgerPlace.acquire_memory_eq]
  by_cases hheld : engine ∈ w.memory.held
  · rw [if_pos hheld, if_pos (h.held.2 hheld)]
    exact .error (.refl h)
  · rw [if_neg hheld, if_neg fun hheld' => hheld (h.held.1 hheld')]
    exact .ok (.of_memory h (hother w) (hother w') h.entries (by simp)) trivial

theorem record_memory (hnow : w'.now = w.now) (migration checksum : String) : Stepped s engine w w'
    { w with memory := w.memory.record ⟨migration, engine, checksum, w.now⟩ }
    { w' with memory := w'.memory.record ⟨migration, engine, checksum, w'.now⟩ } := by
  have hother (w : World) :
      OwnMemory engine w { w with memory := w.memory.record ⟨migration, engine, checksum, w.now⟩ } := by
    refine ⟨fun e he => ?_, fun _ _ => .rfl, rfl⟩
    simp [Memory.applied, Memory.record, Ne.symm he]
  have hentries : w'.memory.entries.filter (·.engine == engine) = w.memory.entries.filter (·.engine == engine) :=
    h.entries
  refine .of_memory h (hother w) (hother w') ?_ h.held
  simp [Memory.applied, Memory.record, hentries, hnow]

theorem release_memory : Stepped s engine w w' { w with memory := w.memory.release engine }
    { w' with memory := w'.memory.release engine } := by
  have hother (w : World) : OwnMemory engine w { w with memory := w.memory.release engine } :=
    ⟨fun _ _ => rfl, fun e he => by simp [Memory.release, he], rfl⟩
  exact .of_memory h (hother w) (hother w') h.entries (by simp [Memory.release])

end Memory

/-- Both worlds hold the lock. -/
def BothLocked (s : Settings) (engine : String) (w w' : World) : Prop :=
  s.ledger.Locked s.ledger.place w engine ∧ s.ledger.Locked s.ledger.place w' engine

variable (h : Alike s engine w w') (haside : Aside s engine)
include h haside

theorem acquire_alike (hv : EngineName.isValid engine = true) (hnow : w'.now = w.now) :
    Twin (Stepped s engine w w') (BothLocked s engine) (s.ledger.acquire engine w) (s.ledger.acquire engine w') := by
  cases hl : s.ledger with
  | memory =>
    exact (acquire_memory h).imp (fun _ _ => id) fun _ _ _ => by
      rw [BothLocked, hl]
      exact ⟨trivial, trivial⟩
  | directory path =>
    have hrun (w : World) : acquire (directory path) engine w = World.onDisk (Files.acquire path engine w.now) w := rfl
    rw [hrun, hrun, hnow]
    refine .onDisk ((acquire_files hl h haside hv w.now).imp (fun _ _ => id) fun d d' hlocked => ?_)
    rw [BothLocked, hl]
    exact hlocked

theorem record_alike (hlocked : BothLocked s engine w w') (hnow : w'.now = w.now) (migration checksum : String) :
    Twin (fun v v' => Stepped s engine w w' v v' ∧ BothLocked s engine v v') (fun _ _ => True)
      (s.ledger.record migration engine checksum w) (s.ledger.record migration engine checksum w') := by
  cases hl : s.ledger with
  | memory =>
    refine .ok ⟨record_memory h hnow migration checksum, ?_⟩ trivial
    rw [BothLocked, hl]
    exact ⟨trivial, trivial⟩
  | directory path =>
    rw [BothLocked, hl] at hlocked
    have hrun (w : World) : record (directory path) migration engine checksum w =
        World.onDisk (Files.record path ⟨migration, engine, checksum, w.now⟩) w := rfl
    rw [hrun, hrun, hnow]
    have hfiles := record_files hl h haside hlocked.1 hlocked.2 (e := ⟨migration, engine, checksum, w.now⟩) rfl
    refine .onDisk (hfiles.imp (fun d d' hstep => ⟨hstep.1, ?_⟩) fun _ _ => id)
    rw [BothLocked, hl]
    exact hstep.2

theorem release_alike (hlocked : BothLocked s engine w w') :
    Stepped s engine w w' (s.ledger.release engine w) (s.ledger.release engine w') := by
  cases hl : s.ledger with
  | memory => exact release_memory h
  | directory path =>
    rw [BothLocked, hl] at hlocked
    exact release_files hl h haside hlocked.1 hlocked.2

end LedgerPlace

/-! ### Migrating -/

section Migrating
variable {s : Settings} {engine : String} {γ : Type} {t t' u u' : Session γ}

/-- The sessions `u` and `u'` are what the same step of an engine makes of the worlds `w` and `w'`. -/
def SteppedIn (s : Settings) (engine : String) (w w' : World) (u u' : Session γ) : Prop :=
  Stepped s engine w w' u.world u'.world ∧ u'.connection = u.connection

/-- The same with the lock held in the end. -/
def SteppedLocked (s : Settings) (engine : String) (w w' : World) (u u' : Session γ) : Prop :=
  SteppedIn s engine w w' u u' ∧ LedgerPlace.BothLocked s engine u.world u'.world

theorem now_eq_of_stepped {w w' v v' : World} (h : Stepped s engine w w' v v') (hnow : w'.now = w.now) :
    v'.now = v.now :=
  h.memory'.now.trans (hnow.trans h.memory.now.symm)

variable (A : Adapter γ) (h : Alike s engine t.world t'.world) (hc : t'.connection = t.connection)
  (haside : Aside s engine) (hnow : t'.world.now = t.world.now)
include h hc haside hnow

theorem applyAll_alike (hlocked : LedgerPlace.BothLocked s engine t.world t'.world) (pending : List Migration)
    (schema : State) (report : Report) :
    Twin (SteppedLocked s engine t.world t'.world) (fun _ _ => True)
      (applyAll s.ledger A.inSession engine pending schema report t)
      (applyAll s.ledger A.inSession engine pending schema report t') := by
  induction pending generalizing t t' schema report with
  | nil => exact .ok ⟨⟨.refl h, hc⟩, hlocked⟩ trivial
  | cons m rest ih =>
    rw [applyAll, Adapter.run_inSession]
    refine (twin_onConnection (A.run m schema) hc).bind (fun u u' hran => ?_) fun after u u' hran _ => ?_
    · obtain ⟨hw, hw', hc⟩ := hran
      rw [← hw, ← hw'] at h hlocked ⊢
      exact ⟨⟨.refl h, hc⟩, hlocked⟩
    · obtain ⟨hw, hw', hc⟩ := hran
      rw [← hw, ← hw'] at h hlocked hnow ⊢
      have hrecord := LedgerPlace.record_alike h haside hlocked hnow m.name m.checksum
      refine (hrecord.onWorld hc).bind (fun v v' hone => ⟨⟨hone.1.1, hone.2⟩, hone.1.2⟩) fun _ v v' hone _ => ?_
      obtain ⟨⟨hstep, hlocked⟩, hc⟩ := hone
      have hlater := ih hstep.alike hc (now_eq_of_stepped hstep hnow) hlocked after (report.add m)
      exact hlater.imp (fun x x' hrest => ⟨⟨hstep.trans hrest.1.1, hrest.1.2⟩, hrest.2⟩) fun _ _ => id

variable (hv : EngineName.isValid engine = true) (hfits : s.ledger.Fits engine)
include hv hfits

theorem migrateLocked_alike (hlocked : LedgerPlace.BothLocked s engine t.world t'.world) :
    Twin (SteppedLocked s engine t.world t'.world) (fun _ _ => True) (migrateLocked s A.inSession engine t)
      (migrateLocked s A.inSession engine t') := by
  have hstay : SteppedLocked s engine t.world t'.world t t' := ⟨⟨.refl h, hc⟩, hlocked⟩
  simp only [migrateLocked, prepare_congr (h.migrations_eq hv) (h.applied_eq hv hfits)]
  cases prepare s t.world engine with
  | error failure => exact .error hstay
  | ok found =>
    obtain ⟨pending, schema⟩ := found
    dsimp only
    split
    · exact .ok hstay trivial
    · exact applyAll_alike A h hc haside hnow hlocked pending schema { engine }

variable (t t') in
/-- **Migrating** does the same in worlds that are alike. -/
theorem migrate_alike : Twin (SteppedIn s engine t.world t'.world) (fun _ _ => True) (migrate s A engine t)
    (migrate s A engine t') := by
  have hacquire := (LedgerPlace.acquire_alike h haside hv hnow).onWorld hc
  simp only [migrate, migrateIn, withLock]
  cases hlock : onWorld (s.ledger.acquire engine) t <;> cases hlock' : onWorld (s.ledger.acquire engine) t' <;>
    rw [hlock, hlock'] at hacquire <;> cases hacquire
  · rename_i u u' hstep hlocked
    have hwork := migrateLocked_alike A hstep.1.alike hstep.2 haside (now_eq_of_stepped hstep.1 hnow) hv hfits hlocked
    have hrelease {v v' : Session γ} (hv : SteppedLocked s engine u.world u'.world v v') :
        SteppedIn s engine t.world t'.world { v with world := s.ledger.release engine v.world }
          { v' with world := s.ledger.release engine v'.world } :=
      ⟨hstep.1.trans (hv.1.1.trans (LedgerPlace.release_alike hv.1.1.alike haside hv.2)), hv.1.2⟩
    dsimp only
    cases hrun : migrateLocked s A.inSession engine u <;> cases hrun' : migrateLocked s A.inSession engine u' <;>
      rw [hrun, hrun'] at hwork <;> cases hwork
    · exact .ok (hrelease (by assumption)) trivial
    · exact .error (hrelease (by assumption))
  · exact .error (by assumption)

end Migrating

/-! ### Making migrations -/

section Making
variable {s : Settings} {engine : String} {w w' : World} (h : Alike s engine w w') (haside : Aside s engine)
  (hv : EngineName.isValid engine = true)
include h haside hv

theorem writeMigration_alike {m : Migration} (hm : m.database = engine)
    (hf : Path.IsFileName (Directory.fileName m.name))
    (hfile : Directory.isMigrationFile (Directory.fileName m.name) = true) :
    Twin (fun d d' => Stepped s engine w w' { w with disk := d } { w' with disk := d' }) (fun _ _ => True)
      (Directory.writeMigration s.directory m w.disk) (Directory.writeMigration s.directory m w'.disk) := by
  subst hm
  rcases h.way with ⟨ho, ho'⟩ | ⟨hb, hb'⟩
  · obtain ⟨d, d', hmade, hmade', hstep, hlook, hput⟩ := Stepped.exists_looked h haside hf (fun q hq => .inl hq)
      (.inl ⟨_, hfile, rfl⟩) ho ho'
    rw [Directory.fileName] at hlook hput
    simp only [Directory.writeMigration, Directory.ofEngine_eq hv, hmade, hmade', hlook]
    cases hfound : d.look ((Directory.own s.directory m.database).join (m.name ++ "." ++ fileExtension)) with
    | free q => exact .ok (hput q _ hfound) trivial
    | found q node => exact .error hstep
    | missing => exact .error hstep
    | refused => exact .error hstep
  · have hnone : w.disk.makeDirectory? (Directory.own s.directory m.database) = none := hb.walkMaking_eq
    have hnone' : w'.disk.makeDirectory? (Directory.own s.directory m.database) = none := hb'.walkMaking_eq
    simp only [Directory.writeMigration, Directory.ofEngine_eq hv, hnone, hnone']
    exact .error (.refl h)

/-- **Making a migration** does the same in worlds that are alike. -/
theorem make_alike (hfits : s.ledger.Fits engine) (hnow : w'.now = w.now) (models : List Model)
    (label : Option String) :
    Twin (Stepped s engine w w') (fun _ _ => True) (make s engine models label w) (make s engine models label w') := by
  have hplan : plan s w' engine models label = plan s w engine models label :=
    plan_congr (h.migrations_eq hv) (h.applied_eq hv hfits) hnow models label
  cases hp : plan s w engine models label with
  | error failure =>
    rw [make_of_plan_error hp, make_of_plan_error (hplan.trans hp)]
    exact .error (.refl h)
  | ok p =>
    obtain ⟨chain, -, d, -, -, -, -, ⟨-, hm⟩ | ⟨-, m, hnext, hm⟩⟩ := of_plan hp
    · rw [make_of_none hp hm, make_of_none (hplan.trans hp) hm]
      exact .error (.refl h)
    · cases hdry : s.dryRun with
      | true =>
        rw [make_dry hdry hp hm, make_dry hdry (hplan.trans hp) hm]
        exact .ok (.refl h) trivial
      | false =>
        have hmade := isNext_of_nextMigration hnext
        have hwrite := writeMigration_alike h haside hv hmade.database hmade.isFileName hmade.isMigrationFile
        rw [make_of_plan hdry hp hm, make_of_plan hdry (hplan.trans hp) hm]
        generalize Directory.writeMigration s.directory m w.disk = r at hwrite
        generalize Directory.writeMigration s.directory m w'.disk = r' at hwrite
        cases hwrite with
        | ok hstep => exact .ok hstep trivial
        | error hstep => exact .error hstep

end Making

/-! ### Any operation -/

/-- **An operation does the same in worlds that are alike.** -/
theorem perform_alike {s : Settings} {engine : String} {w w' : World} {γ : Type} (x : Operation γ)
    (h : Alike s engine w w') (haside : Aside s engine) (hv : EngineName.isValid engine = true)
    (hfits : s.ledger.Fits engine) :
    (x.perform s engine w').1 = (x.perform s engine w).1 ∧
      Stepped s engine { w with now := x.now } { w' with now := x.now } (x.perform s engine w).2
        (x.perform s engine w').2 := by
  have hbegin : Alike (x.settings s) engine { w with now := x.now } { w' with now := x.now } :=
    ⟨h.wellFormed, h.wellFormed', h.way, h.reach, h.files, h.entries, h.held⟩
  have hend {v v' u u' : World} (h : Stepped (x.settings s) engine v v' u u') : Stepped s engine v v' u u' := by
    obtain ⟨⟨hwf, hwf', hway, hreach, hfiles, hentries, hheld⟩, hedited, hmemory, hmemory'⟩ := h
    exact ⟨⟨hwf, hwf', hway, hreach, hfiles, hentries, hheld⟩, hedited, hmemory, hmemory'⟩
  have haside : Aside (x.settings s) engine := haside
  simp only [Operation.perform]
  cases x.task with
  | make models label =>
    have hmake := make_alike hbegin haside hv hfits rfl models label
    dsimp only
    generalize make (x.settings s) engine models label { w with now := x.now } = r at hmake
    generalize make (x.settings s) engine models label { w' with now := x.now } = r' at hmake
    cases hmake with
    | ok hstep => exact ⟨rfl, hend hstep⟩
    | error hstep => exact ⟨rfl, hend hstep⟩
  | migrate A connection =>
    have hmigrate := migrate_alike ⟨{ w with now := x.now }, connection⟩ ⟨{ w' with now := x.now }, connection⟩ A hbegin
      rfl haside rfl hv hfits
    dsimp only
    generalize migrate (x.settings s) A engine ⟨{ w with now := x.now }, connection⟩ = r at hmigrate
    generalize migrate (x.settings s) A engine ⟨{ w' with now := x.now }, connection⟩ = r' at hmigrate
    cases hmigrate with
    | ok hstep => exact ⟨congrArg (Outcome.migrated _) hstep.2, hend hstep.1⟩
    | error hstep => exact ⟨congrArg (Outcome.migrated _) hstep.2, hend hstep.1⟩

end Schemata.Engine
