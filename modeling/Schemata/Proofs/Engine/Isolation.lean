import Schemata.Proofs.Engine.Course
import Schemata.Proofs.Engine.Parallel

/-! Engines do not disturb one another.

As long as no file of one of two engines lies on a way of either, and the ledger is not in the directory of one of them
(`Isolated`), what is done for one changes no answer of the other; and it makes no difference whose operations come
first (`isolated`). A directory of the ledger that has the name of a migration is in the way of its engine
(`exists_disturbance`). -/
namespace Schemata.Engine
open Store Disk Ledger

/-! ### Operations in a row -/

section Rows
variable {γ : Type} {s : Settings} {engine : String} {w w' : World}

/-- What comes of operations in a row, and the world behind them. -/
def performAll (s : Settings) (engine : String) : List (Operation γ) → World → List (Outcome γ) × World
  | [], w => ([], w)
  | x :: rest, w =>
    let (outcome, w) := x.perform s engine w
    let (more, w) := performAll s engine rest w
    (outcome :: more, w)

theorem Stepped.withNow {v v' : World} (h : Stepped s engine w w' v v') (now : Calendar.Instant) :
    Stepped s engine { w with now } { w' with now } { v with now } { v' with now } :=
  ⟨h.alike.withNow now, h.edited, ⟨h.memory.applied, h.memory.held, rfl⟩, ⟨h.memory'.applied, h.memory'.held, rfl⟩⟩

/-- Operations in a row do the same in worlds that are alike. -/
theorem performAll_alike (xs : List (Operation γ)) (h : Alike s engine w w') (haside : Aside s engine)
    (hv : EngineName.isValid engine = true) (hfits : s.ledger.Fits engine) (now : Calendar.Instant) :
    (performAll s engine xs w').1 = (performAll s engine xs w).1 ∧
      Stepped s engine { w with now } { w' with now } { (performAll s engine xs w).2 with now }
        { (performAll s engine xs w').2 with now } := by
  induction xs generalizing w w' with
  | nil => exact ⟨rfl, .refl (h.withNow now)⟩
  | cons x rest ih =>
    obtain ⟨hanswer, hstep⟩ := perform_alike x h haside hv hfits
    obtain ⟨hanswers, hsteps⟩ := ih hstep.alike
    refine ⟨?_, (hstep.withNow now).trans hsteps⟩
    simp only [performAll, hanswer, hanswers]

end Rows

/-! ### Two engines -/

/-- The files of two engines are in nobody's way, and the ledger is not in the directory of one of them. -/
structure Isolated (s : Settings) (a b : String) : Prop where
  fits : s.ledger.Fits a ∧ s.ledger.Fits b
  aside : ∀ q, OnWay s a q ∨ OnWay s b q → ¬ IsOwn s a q ∧ ¬ IsOwn s b q
  ledger : s.ledger.place ≠ placeOf s a ∧ s.ledger.place ≠ placeOf s b

theorem Isolated.symm {s : Settings} {a b : String} (h : Isolated s a b) : Isolated s b a :=
  ⟨h.fits.symm, fun q hq => (h.aside q hq.symm).symm, h.ledger.symm⟩

/-- A disk in good order, on which all ways of two engines open or are barred. -/
structure Placed (s : Settings) (a b : String) (w : World) : Prop where
  wellFormed : w.disk.WellFormed
  way : w.disk.Steady (Directory.own s.directory a).steps
  way' : w.disk.Steady (Directory.own s.directory b).steps
  reach : w.disk.Steady s.ledger.steps

theorem Placed.symm {s : Settings} {a b : String} {w : World} (h : Placed s a b w) : Placed s b a w :=
  ⟨h.wellFormed, h.way', h.way, h.reach⟩

section Isolating
variable {s : Settings} {a b : String} {w w' : World}

theorem placeOf_eq (hv : EngineName.isValid a = true) : placeOf s a = endOf s.directory.steps ++ [a] :=
  endOf_join (EngineName.isFileName hv)

theorem exists_of_isFile {l : LedgerPlace} {p q : Place} (h : l.IsFile p a q) : ∃ name, q = p ++ [name] := by
  cases l with
  | memory => exact h.elim
  | directory path => rcases h with rfl | rfl | rfl <;> exact ⟨_, rfl⟩

variable (hne : a ≠ b) (hva : EngineName.isValid a = true) (hvb : EngineName.isValid b = true) (hiso : Isolated s a b)
include hne hva hvb hiso

/-- The files of two engines are different ones. -/
theorem not_isOwn_of_isOwn {q : Place} (ha : IsOwn s a q) : ¬ IsOwn s b q := by
  intro hb
  rcases ha with ⟨name, -, rfl⟩ | ha
  · rcases hb with ⟨name', -, he⟩ | hb
    · have hplace := (List.append_inj' he rfl).1
      rw [placeOf_eq hva, placeOf_eq hvb] at hplace
      exact hne (List.singleton_inj.1 (List.append_inj' hplace rfl).2)
    · obtain ⟨name', he⟩ := exists_of_isFile hb
      exact hiso.ledger.1 (List.append_inj' he rfl).1.symm
  · rcases hb with ⟨name', -, rfl⟩ | hb
    · obtain ⟨name, he⟩ := exists_of_isFile ha
      exact hiso.ledger.2 (List.append_inj' he rfl).1.symm
    · cases hl : s.ledger with
      | memory =>
        rw [hl] at ha
        exact ha
      | directory path =>
        rw [hl] at ha hb
        exact hne (Files.IsFile.engine_eq ha hb)

variable {γ : Type} (hw : Placed s a b w) (xs : List (Operation γ))
include hw

/-- What is done for one engine leaves the other a world that it cannot tell from the one before. -/
theorem alike_performAll : Alike s b w (performAll s a xs w).2 := by
  have haside : Aside s a := fun q hq => (hiso.aside q (.inl hq)).1
  obtain ⟨-, hstep⟩ := performAll_alike xs (Alike.refl hw.wellFormed hw.way hw.reach) haside hva hiso.fits.1 w.now
  obtain ⟨made, hway, he, -⟩ := hstep.edited
  have hways (q : Place) (hq : OnWay s b q) : ¬ IsOwn s a q := (hiso.aside q (.inr hq)).1
  refine ⟨hw.wellFormed, hstep.alike.wellFormed, ?_, ?_, fun q hq => ?_, hstep.memory.applied b hne.symm,
    hstep.memory.held b hne.symm⟩
  · exact hw.way'.of_changes hw.wellFormed.rooted he.changesAt fun q hq => hways q (.inl hq)
  · exact hw.reach.of_changes hw.wellFormed.rooted he.changesAt fun q hq => hways q (.inr hq)
  · exact he.kept q (fun hmade => (hiso.aside q (.inl (hway q hmade))).2 hq)
      fun hown => not_isOwn_of_isOwn hne hva hvb hiso hown hq

end Isolating

/-! ### Either order -/

section Orders
variable {s : Settings} {a b : String} {w w₁ w₂ u v : World} (hne : a ≠ b) (hiso : Isolated s a b)
  (ha : Stepped s a w w₂ w₁ v) (hb : Stepped s b w w₁ w₂ u)
include ha hb

/-- The files are the same, whoever came first. -/
theorem node?_eq_of_stepped (hiso : Isolated s a b) (hown : ∀ q, IsOwn s a q → ¬ IsOwn s b q) (q : Place) :
    v.disk.node? q = u.disk.node? q := by
  obtain ⟨made, hway, he, he'⟩ := ha.edited
  obtain ⟨made', hway', hf, hf'⟩ := hb.edited
  by_cases hqa : IsOwn s a q
  · rw [ha.alike.files q hqa, hf'.kept q (fun hm => (hiso.aside q (.inr (hway' q hm))).1 hqa) (hown q hqa)]
  by_cases hqb : IsOwn s b q
  · rw [hb.alike.files q hqb, he'.kept q (fun hm => (hiso.aside q (.inl (hway q hm))).2 hqb) hqa]
  -- what neither has is there in the end if one of the two made it
  by_cases hma : made q <;> by_cases hmb : made' q
  · rw [he'.there q hma, hf'.there q hmb]
  · rw [he'.there q hma, hf'.kept q hmb hqb, he.there q hma]
  · rw [he'.kept q hma hqa, hf.there q hmb, hf'.there q hmb]
  · rw [he'.kept q hma hqa, hf.kept q hmb hqb, hf'.kept q hmb hqb, he.kept q hma hqa]

include hne

/-- The entries in memory are the same, whoever came first. -/
theorem entries_eq_of_stepped (engine : String) : v.memory.applied engine = u.memory.applied engine := by
  by_cases hea : engine = a
  · subst hea
    rw [ha.alike.entries, hb.memory'.applied engine hne]
  by_cases heb : engine = b
  · subst heb
    rw [hb.alike.entries, ha.memory'.applied engine hea]
  rw [ha.memory'.applied engine hea, hb.memory.applied engine heb, hb.memory'.applied engine heb,
    ha.memory.applied engine hea]

/-- Engines that each do the same whether or not the other came first cannot tell who did. -/
theorem alike_of_stepped (hiso : Isolated s a b) (hown : ∀ q, IsOwn s a q → ¬ IsOwn s b q) : Alike s a u v := by
  obtain ⟨made, hway, -, he⟩ := hb.edited
  have hw₁ := ha.alike.wellFormed
  have haside (q : Place) (hq : OnWay s a q) : ¬ IsOwn s b q := (hiso.aside q (.inl hq)).2
  have hkept : ChangesAt v.disk v.disk (fun _ => False) fun _ => False := .refl v.disk
  exact
    { wellFormed := hb.alike.wellFormed'
      wellFormed' := ha.alike.wellFormed'
      way := ha.alike.way.of_changes hw₁.rooted ha.alike.wellFormed'.rooted he.changesAt hkept
        (fun q hq => haside q (.inl hq)) fun _ _ => not_false
      reach := ha.alike.reach.of_changes hw₁.rooted ha.alike.wellFormed'.rooted he.changesAt hkept
        (fun q hq => haside q (.inr hq)) fun _ _ => not_false
      files := fun q _ => node?_eq_of_stepped ha hb hiso hown q
      entries := entries_eq_of_stepped hne ha hb a
      held := ha.alike.held.trans (hb.memory'.held a hne).symm }

end Orders

/-- The files and the entries of the ledger are the same, and two engines have the same answers. -/
structure Indistinct (s : Settings) (a b : String) (w w' : World) : Prop where
  files : ∀ q, w'.disk.node? q = w.disk.node? q
  entries : ∀ engine, s.ledger.applied w' engine = s.ledger.applied w engine
  answers : SameAnswers s a w w'
  answers' : SameAnswers s b w w'

/-- **Engines are isolated.** What is done for one changes no answer of the other; and whichever is worked on first,
all that is done has the same outcomes and leaves the same. -/
theorem isolated {s : Settings} {a b : String} {w : World} {γ δ : Type} (hne : a ≠ b)
    (hva : EngineName.isValid a = true) (hvb : EngineName.isValid b = true) (hiso : Isolated s a b)
    (hw : Placed s a b w) (xs : List (Operation γ)) :
    SameAnswers s b w (performAll s a xs w).2 ∧
      ∀ ys : List (Operation δ),
        (performAll s b ys (performAll s a xs w).2).1 = (performAll s b ys w).1 ∧
        (performAll s a xs (performAll s b ys w).2).1 = (performAll s a xs w).1 ∧
        Indistinct s a b (performAll s b ys (performAll s a xs w).2).2
          (performAll s a xs (performAll s b ys w).2).2 := by
  have hafter := alike_performAll hne hva hvb hiso hw xs
  refine ⟨hafter.sameAnswers hvb hiso.fits.2, fun ys => ?_⟩
  have hafter' := alike_performAll hne.symm hvb hva hiso.symm hw.symm ys
  obtain ⟨houtcome, hb⟩ := performAll_alike ys hafter (fun q hq => (hiso.aside q (.inr hq)).2) hvb hiso.fits.2 w.now
  obtain ⟨houtcome', ha⟩ := performAll_alike xs hafter' (fun q hq => (hiso.aside q (.inl hq)).1) hva hiso.fits.1 w.now
  have hown (q : Place) : IsOwn s a q → ¬ IsOwn s b q := not_isOwn_of_isOwn hne hva hvb hiso
  have hfiles (q : Place) := node?_eq_of_stepped ha hb hiso hown q
  have halike := alike_of_stepped hne ha hb hiso hown
  have halike' := (alike_of_stepped hne.symm hb ha hiso.symm fun q hqb hqa => hown q hqa hqb).symm
  exact ⟨houtcome, houtcome', hfiles,
    fun engine => s.ledger.applied_congr hfiles (entries_eq_of_stepped hne ha hb engine),
    halike.of_withNow.sameAnswers hva hiso.fits.1, halike'.of_withNow.sameAnswers hvb hiso.fits.2⟩

/-! ### Two engines on a new disk -/

theorem fits_audit : isName (Files.entriesName "audit") = true := by decide

theorem steps_audit : (Directory.own "migrations" "audit").steps = ["migrations", "audit"].map .into := by
  decide +kernel

theorem isolated_apart : Isolated apartSettings "main" "audit" := by
  have hplace : placeOf apartSettings "main" = ["migrations", "main"] := congrArg endOf steps_own
  have hplace' : placeOf apartSettings "audit" = ["migrations", "audit"] := congrArg endOf steps_audit
  have hledger : apartSettings.ledger.place = ["ledger"] := congrArg endOf steps_apart
  refine ⟨⟨fits_main, fits_audit⟩, fun q hq => ?_, ?_, ?_⟩
  · have hway : q = ["migrations"] ∨ q = ["migrations", "main"] ∨ q = ["migrations", "audit"] ∨ q = ["ledger"] := by
      have hdirectory : apartSettings.directory = "migrations" := rfl
      simp only [OnWay, hdirectory, steps_own, steps_audit, steps_apart] at hq
      simp [freshPlace, placesFrom, stepFrom] at hq
      grind
    simp only [IsOwn, hplace, hplace', hledger]
    rcases hway with rfl | rfl | rfl | rfl <;> simp [LedgerPlace.IsFile, apartSettings, Files.IsFile]
  · rw [hledger, hplace]
    decide
  · rw [hledger, hplace']
    decide

theorem placed_fresh : Placed apartSettings "main" "audit" freshWorld where
  wellFormed := wellFormed_fresh
  way := .inl (steps_own ▸ .make (by decide) (by decide))
  way' := by
    have hdirectory : apartSettings.directory = "migrations" := rfl
    refine .inl ?_
    rw [hdirectory, steps_audit]
    exact .make (by decide) (by decide)
  reach := by
    refine .inl ?_
    rw [steps_apart]
    exact .make (by decide) (by decide)

/-- What is made and applied for an engine on its first day. -/
def firstDay : List (Operation Unit) :=
  [⟨.make settledModels none, freshWorld.now, false, false⟩, ⟨.migrate idleAdapter (), freshWorld.now, false, false⟩]

theorem isolated_first_day : "main" ≠ "audit" ∧
    (EngineName.isValid "main" = true ∧ EngineName.isValid "audit" = true) ∧
    Isolated apartSettings "main" "audit" ∧ Placed apartSettings "main" "audit" freshWorld ∧
    SameAnswers apartSettings "audit" freshWorld (performAll apartSettings "main" firstDay freshWorld).2 ∧
    Indistinct apartSettings "main" "audit"
      (performAll apartSettings "audit" firstDay (performAll apartSettings "main" firstDay freshWorld).2).2
      (performAll apartSettings "main" firstDay (performAll apartSettings "audit" firstDay freshWorld).2).2 := by
  have hne : "main" ≠ "audit" := by decide
  have hv : EngineName.isValid "main" = true ∧ EngineName.isValid "audit" = true := by decide
  obtain ⟨hsame, horder⟩ := isolated (δ := Unit) hne hv.1 hv.2 isolated_apart placed_fresh firstDay
  exact ⟨hne, hv, isolated_apart, placed_fresh, hsame, (horder firstDay).2.2⟩

/-! ### In each other's way -/

section Standing
variable {s : Settings} {w : World} {engine : String}

theorem isOk_status (hchain : loadChain s w engine = .ok []) (hentries : s.ledger.applied w engine = .ok []) :
    (status s w engine).isOk = true := by
  have hposition : position s w engine = .ok ⟨[], none, [], []⟩ := by
    simp only [position, hchain, hentries, bind, Except.bind]
    rfl
  simp only [status, hposition]
  rfl

theorem isOk_status_eq_false {failure : Failure} (hentries : s.ledger.applied w engine = .error failure) :
    (status s w engine).isOk = false := by
  simp only [status, position, hentries]
  cases loadChain s w engine <;> rfl

end Standing

theorem Files.applied_of_missing {d : Disk} {directory : Path} {engine : String} (hv : EngineName.isValid engine = true)
    (h : d.look (directory.join (Files.entriesName engine)) = .missing) :
    Files.applied d directory engine = .ok [] := by
  simp only [Files.applied_eq_readFile hv, Files.readFile, exists?, h]

theorem Files.applied_of_unnamed {d : Disk} {directory : Path} {engine : String} {p : Place}
    (hv : EngineName.isValid engine = true) (hd : d.walk [] directory.steps = .found p .directory)
    (hlong : isName (Files.entriesName engine) = false) : Files.applied d directory engine = .error .io := by
  have hlook := look_join (Files.isFileName_entries hv) hd
  simp only [hlong, Bool.false_eq_true, if_false] at hlook
  simp only [Files.applied_eq_readFile hv, Files.readFile, exists?, hlook]

/-- Working on one engine disturbs the status of another. -/
structure Disturbs (s : Settings) (a b : String) (w : World) (x : Operation Unit) : Prop where
  distinct : a ≠ b
  valid : EngineName.isValid a = true ∧ EngineName.isValid b = true
  ledger : ∀ engine, EngineName.isValid engine = true → s.ledger.place ≠ placeOf s engine
  wellFormed : w.disk.WellFormed
  before : (status s w b).isOk = true
  after : (status s (x.perform s a w).2 b).isOk = false

def idleRun : Operation Unit := ⟨.migrate idleAdapter (), freshWorld.now, false, false⟩

/-- A ledger in a directory that has the name of a migration. -/
def crossedSettings : Settings where
  directory := "migrations"
  ledger := .directory "migrations/audit/x.toml"

/-- Ways out of a directory that is not there yet. -/
def detourSettings : Settings where
  directory := "x/../y"
  ledger := .directory "x/logs/ledger"

def detourWorld : World :=
  { freshWorld with
    disk := ((Disk.empty.put ["y"] .directory).put ["y", "audit"] .directory).put ["y", "audit", "first.toml"]
      (.text "") }

def longName : String := String.ofList (List.replicate 251 'b')

theorem place_ne_placeOf {s : Settings} (hlength : s.ledger.place.length ≠ (endOf s.directory.steps).length + 1)
    (engine : String) (hv : EngineName.isValid engine = true) : s.ledger.place ≠ placeOf s engine := by
  intro he
  rw [he, placeOf_eq hv] at hlength
  simp at hlength

theorem disturbs_crossed : Disturbs crossedSettings "main" "audit" freshWorld idleRun where
  distinct := by decide
  valid := by decide
  ledger := place_ne_placeOf (by decide +kernel)
  wellFormed := wellFormed_fresh
  before := by decide +kernel
  after := by decide +kernel

theorem disturbs_detour : Disturbs detourSettings "main" "audit" detourWorld idleRun where
  distinct := by decide
  valid := by decide
  ledger := place_ne_placeOf (by decide +kernel)
  wellFormed :=
    ((wellFormed_empty.put (p := []) ⟨by decide, by decide, by decide, by decide⟩ rfl (by decide)).put
      (p := ["y"]) ⟨by decide, by decide, by decide, by decide⟩ (by decide) (by decide)).put
      (p := ["y", "audit"]) ⟨by decide, by decide, by decide, by decide⟩ (by decide) (by decide)
  before := by decide +kernel
  after := by decide +kernel

/-- The name can be that of a directory but not of a file with an ending, which is noticed once the ledger is there. -/
theorem disturbs_long : Disturbs apartSettings "main" longName freshWorld idleRun := by
  have hne : "main" ≠ longName := by
    intro he
    have hsize : "main".utf8ByteSize = 251 * 'b'.utf8Size :=
      (congrArg String.utf8ByteSize he).trans (Files.utf8ByteSize_replicate 251 'b')
    exact absurd hsize (by decide)
  have hv : EngineName.isValid longName = true := Files.isValid_replicate (by decide) (by decide)
  have hname : isName longName = true := Files.isName_replicate (by decide) (by decide)
  have hlong : isName (Files.entriesName longName) = false := Files.not_isName_replicate (by decide)
  have hf := Files.isFileName_entries hv
  have hsteps : (Directory.own "migrations" longName).steps = ["migrations", longName].map .into := by
    have hdirectory : Path.steps "migrations" = ["migrations"].map .into := by decide +kernel
    rw [Directory.own, Path.steps_join (EngineName.isFileName hv), hdirectory]
    rfl
  have hway : freshWorld.disk.Opens [] (Directory.own apartSettings.directory longName).steps
      ["migrations", longName] := by
    have hdirectory : apartSettings.directory = "migrations" := rfl
    rw [hdirectory, hsteps]
    exact .make (by simp [hname]; decide) (by decide)
  have hmissing : freshWorld.disk.look (Path.join "ledger" (Files.entriesName longName)) = .missing := by
    have hledger : Path.steps "ledger" = ["ledger"].map .into := steps_apart
    rw [look_join_eq_walk _ hf, hledger]
    rfl
  have hfound : (idleRun.perform apartSettings "main" freshWorld).2.disk.walk [] (Path.steps "ledger") =
      .found ["ledger"] .directory := by decide +kernel
  refine ⟨hne, ⟨by decide, hv⟩, place_ne_placeOf (by decide +kernel), wellFormed_fresh, ?_, ?_⟩
  · exact isOk_status (loadChain_of_nil hv wellFormed_fresh hway rfl) (Files.applied_of_missing hv hmissing)
  · exact isOk_status_eq_false (Files.applied_of_unnamed hv hfound hlong)

/-- **Engines are disturbed** when files are in the way, when ways lead through what is missing and out again, and when
names are too long for files. -/
theorem exists_disturbance : Disturbs crossedSettings "main" "audit" freshWorld idleRun ∧
    Disturbs detourSettings "main" "audit" detourWorld idleRun ∧
    Disturbs apartSettings "main" longName freshWorld idleRun :=
  ⟨disturbs_crossed, disturbs_detour, disturbs_long⟩

end Schemata.Engine
