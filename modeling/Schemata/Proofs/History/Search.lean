import Schemata.Proofs.History.Faults

/-! The search for circles, without going any way twice.

A search that goes from each migration up to a first one, or to a name that an earlier way passed, or round to a name of
its own way, meets every migration once. It finds what `firstCycle?` finds (`search_eq`): an earlier way that did not go
round came to an end, and so does every way that joins it (`Ends`), while a way that goes round goes round in one circle
only, wherever it is noticed (`RunsInto.unique`). -/
namespace Schemata.Chain

section Search
variable (known : Migrations)

/-- The names behind `path` from `current` on, up to one that is finished; or the circle, if a name of the way comes
again. -/
def follow (finished : List String) : (steps : Nat) → (path : List String) → (current : Option String) →
    Except (List String) (List String)
  | 0, path, _ => .ok path
  | _ + 1, path, none => .ok path
  | steps + 1, path, some name =>
    if finished.contains name then .ok path
    else if path.contains name then .error (path.dropWhile (· ≠ name) ++ [name])
    else follow finished steps (path ++ [name]) (parentOf known name)

/-- The names that the search has finished after these migrations, or the circle that it met. -/
def searchFrom (finished : List String) (starts : List Migration) : Except (List String) (List String) :=
  starts.foldlM (fun finished m => (finished ++ ·) <$> follow known finished (known.size + 1) [] (some m.name)) finished

def search : Option (List String) :=
  match searchFrom known [] known.toList with
  | .error circle => some circle
  | .ok _ => none

end Search

/-! ### Ways that end -/

section Ends
variable {known : Migrations} {name start : String} {path path' : List String}

/-- The way from the name comes to a first migration. -/
def Ends (known : Migrations) (name : String) : Prop := ∃ m ∈ known.toList, m.name = name ∧ ∃ path, Ascent known m path

theorem Ends.of_parentOf (hname : name ∈ known.toList.map (·.name))
    (h : ∀ parent, parentOf known name = some parent → Ends known parent) : Ends known name := by
  obtain ⟨m, hm, rfl⟩ := List.mem_map.1 hname
  cases hp : m.parent with
  | none => exact ⟨m, hm, rfl, _, .root hp⟩
  | some parent =>
    obtain ⟨x, hx, rfl, front, ha⟩ := h parent (parentOf_eq_some_iff.2 ⟨m, hm, rfl, hp⟩)
    exact ⟨m, hm, rfl, _, .step hp hx ha⟩

theorem RunsInto.not_ends (h : RunsInto known.toList start path) : ¬ Ends known start := by
  intro hends
  obtain ⟨m, hm, rfl, ascent, ha⟩ := hends
  obtain ⟨front, name, between, rfl, -, hway, hhead⟩ := h
  have hround : Relation.TransGen (BuiltOn known.toList) name name := transGen_of_isChain hway.right_of_append
  -- the name that comes again has a way to its end, which is longer than itself
  obtain ⟨x, hx, rfl, rest, hrest⟩ : Ends known name := by
    cases front with
    | nil =>
      cases hhead
      exact ⟨m, hm, rfl, ascent, ha⟩
    | cons first front =>
      cases hhead
      have hfirst : (m.name :: front ++ [name]).IsChain (BuiltOn known.toList) := (List.isChain_split.1 hway).1
      obtain ⟨x, hx, hname, rest, hrest, -⟩ := ha.shorter hm (transGen_of_isChain hfirst)
      exact ⟨x, hx, hname, rest, hrest⟩
  obtain ⟨x', hx', hname, shorter, ha', hlt⟩ := hrest.shorter hx hround
  obtain rfl := Ascending.eq_of_key_eq hx' hx hname
  exact absurd hlt (ha'.unique hrest ▸ Nat.lt_irrefl _)

theorem ends_of_loopFrom? (hc : Closed known) {m : Migration} (hm : m ∈ known.toList)
    (h : loopFrom? known m.name = none) : Ends known m.name := by
  have hnodup := firstLoop?_eq_none_iff.1 h
  have hlen := hnodup.length_le_of_subset (lineage_subset hc hm)
  rw [List.length_map] at hlen
  obtain ⟨path, ha⟩ := exists_ascent_of_lineage hc hm (Nat.lt_succ_of_le hlen)
  exact ⟨m, hm, rfl, path, ha⟩

/-! ### Ways that go round -/

/-- Of two ways from one name, one is the beginning of the other. -/
theorem begins_or_begins {a b : List String} (ha : a.IsChain (BuiltOn known.toList))
    (hb : b.IsChain (BuiltOn known.toList)) (h : a.head? = b.head?) : a <+: b ∨ b <+: a := by
  induction a generalizing b with
  | nil => exact .inl List.nil_prefix
  | cons x a ih =>
    cases b with
    | nil => cases h
    | cons y b =>
      cases h
      rw [List.prefix_cons_inj, List.prefix_cons_inj]
      cases a with
      | nil => exact .inl List.nil_prefix
      | cons z a =>
        cases b with
        | nil => exact .inr List.nil_prefix
        | cons w b =>
          obtain ⟨hz, ha⟩ := List.isChain_cons_cons.1 ha
          obtain ⟨hw, hb⟩ := List.isChain_cons_cons.1 hb
          exact ih ha hb (congrArg some (hz.unique hw))

/-- A way goes round in one circle only. -/
theorem RunsInto.unique (h : RunsInto known.toList start path) (h' : RunsInto known.toList start path') :
    path = path' := by
  have hbegins : ∀ {front between front' between' : List String} {x x' : String},
      (front' ++ x' :: between').Nodup → front ++ (x :: between ++ [x]) <+: front' ++ (x' :: between' ++ [x']) →
        front ++ (x :: between ++ [x]) = front' ++ (x' :: between' ++ [x']) := by
    intro front between front' between' x x' hnodup hpre
    rw [← List.append_assoc front', List.prefix_concat_iff] at hpre
    refine hpre.elim (fun he => by rw [he, List.append_assoc]) fun hpre => ?_
    -- a way that has not closed yet has no name twice
    have hround := (List.nodup_append.1 (hpre.sublist.nodup hnodup)).2.1
    rw [List.cons_append, List.nodup_cons] at hround
    exact absurd (List.mem_append_right _ (List.mem_singleton.2 rfl)) hround.1
  obtain ⟨front, x, between, rfl, hnodup, hway, hhead⟩ := h
  obtain ⟨front', x', between', rfl, hnodup', hway', hhead'⟩ := h'
  have hsame : front ++ (x :: between ++ [x]) = front' ++ (x' :: between' ++ [x']) :=
    (begins_or_begins hway hway' (hhead.trans hhead'.symm)).elim (hbegins hnodup') fun hpre =>
      (hbegins hnodup hpre).symm
  rw [← List.append_assoc, ← List.append_assoc front'] at hsame
  obtain ⟨hopen, hlast⟩ := List.append_inj' hsame rfl
  obtain rfl := List.singleton_inj.1 hlast
  have hfresh : x ∉ front' := fun hin =>
    (List.nodup_append.1 hnodup').2.2 x hin x (List.mem_cons_self ..) rfl
  have hfresh' : x ∉ between' := (List.nodup_cons.1 (List.nodup_append.1 hnodup').2.1).1
  obtain ⟨-, -, rfl⟩ := (List.append_cons_inj_of_notMem hfresh hfresh').1 hopen.symm
  rfl

/-! ### What the search finds -/

theorem dropWhile_append_cons {front back : List String} (h : name ∉ front) :
    (front ++ name :: back).dropWhile (· ≠ name) = name :: back := by
  have hother : ∀ x ∈ front, decide (x ≠ name) = true := fun x hx => decide_eq_true fun he => h (he ▸ hx)
  rw [List.dropWhile_append_of_pos hother]
  simp

theorem nodup_concat (hnodup : path.Nodup) (hnot : ¬ path.contains name = true) : (path ++ [name]).Nodup := by
  refine List.nodup_append.2 ⟨hnodup, by simp, fun x hx y hy he => hnot ?_⟩
  rw [List.contains_iff_mem, ← List.mem_singleton.1 hy, ← he]
  exact hx

/-- A circle that is met is the one that the way runs into. -/
theorem runsInto_of_follow {finished circle : List String} {steps : Nat} {current : Option String}
    (hnodup : path.Nodup) (hway : ∀ name ∈ current, (path ++ [name]).IsChain (BuiltOn known.toList) ∧
      (path ++ [name]).head? = some start)
    (h : follow known finished steps path current = .error circle) : RunsInto known.toList start circle := by
  induction steps generalizing path current with
  | zero => cases h
  | succ steps ih =>
    cases current with
    | none => cases h
    | some name =>
      obtain ⟨hchain, hhead⟩ := hway name rfl
      rw [follow] at h
      split at h
      · cases h
      · split at h
        · rename_i hmem
          cases h
          obtain ⟨front, between, rfl, hnew⟩ := List.eq_append_cons_of_mem (List.contains_iff_mem.1 hmem)
          rw [dropWhile_append_cons hnew]
          rw [List.append_assoc] at hchain hhead
          exact ⟨front, name, between, rfl, hnodup, hchain, hhead⟩
        · rename_i hnot
          refine ih (nodup_concat hnodup hnot) (fun parent hparent => ?_) h
          constructor
          · rw [List.append_assoc]
            exact List.isChain_split.2 ⟨hchain, List.isChain_pair.2 (parentOf_eq_some_iff.1 hparent)⟩
          · rw [List.head?_append_of_ne_nil _ (by simp), hhead]

/-- A way that does not go round ends, with all that is on it, where the finished ones end. -/
theorem ends_of_follow (hc : Closed known) {finished : List String} (hfinished : ∀ x ∈ finished, Ends known x)
    {steps : Nat} {current : Option String} (hsteps : path.length + steps = known.size + 1)
    (hnodup : path.Nodup) (hsub : path ⊆ known.toList.map (·.name))
    (hcurrent : ∀ name ∈ current, name ∈ known.toList.map (·.name))
    (hback : (∀ name ∈ current, Ends known name) → ∀ x ∈ path, Ends known x)
    (h : follow known finished steps path current = .ok path') :
    (∀ name ∈ current, Ends known name) ∧ ∀ x ∈ path', Ends known x := by
  induction steps generalizing path current with
  | zero =>
    have hlen := hnodup.length_le_of_subset hsub
    rw [List.length_map] at hlen
    exact absurd hsteps (Nat.ne_of_lt (Nat.lt_succ_of_le hlen))
  | succ steps ih =>
    cases current with
    | none =>
      cases h
      have hends : ∀ name ∈ (none : Option String), Ends known name := fun name hname => by cases hname
      exact ⟨hends, hback hends⟩
    | some name =>
      have hin := hcurrent name rfl
      rw [follow] at h
      split at h
      · rename_i hdone
        cases h
        have hends : ∀ x ∈ some name, Ends known x := by
          intro x hx
          cases hx
          exact hfinished name (List.contains_iff_mem.1 hdone)
        exact ⟨hends, hback hends⟩
      · split at h
        · cases h
        · rename_i hnot
          have hends : (∀ parent ∈ parentOf known name, Ends known parent) → ∀ x ∈ some name, Ends known x := by
            intro hparent x hx
            cases hx
            exact .of_parentOf hin hparent
          have hlen : (path ++ [name]).length + steps = known.size + 1 := by
            rw [← hsteps, List.length_append, List.length_singleton, Nat.add_assoc, Nat.add_comm 1]
          have hsub' := List.append_subset.2 ⟨hsub, List.cons_subset.2 ⟨hin, List.nil_subset _⟩⟩
          have hcurrent' : ∀ parent ∈ parentOf known name, parent ∈ known.toList.map (·.name) := by
            intro parent hparent
            obtain ⟨m, hm, -, hp⟩ := parentOf_eq_some_iff.1 hparent
            exact Ascending.contains_iff.1 (hc m hm parent hp)
          have hback' : (∀ parent ∈ parentOf known name, Ends known parent) → ∀ x ∈ path ++ [name], Ends known x := by
            intro hparent x hx
            rcases List.mem_append.1 hx with hx | hx
            · exact hback (hends hparent) x hx
            · exact hends hparent x (List.mem_singleton.1 hx ▸ rfl)
          obtain ⟨hparent, hall⟩ := ih hlen (nodup_concat hnodup hnot) hsub' hcurrent' hback' h
          exact ⟨hends hparent, hall⟩

theorem searchFrom_spec (hc : Closed known) {starts : List Migration} (hstarts : starts ⊆ known.toList)
    {finished : List String} (hfinished : ∀ x ∈ finished, Ends known x) :
    (match searchFrom known finished starts with
      | .error circle => some circle
      | .ok _ => none) = starts.findSome? fun m => loopFrom? known m.name := by
  induction starts generalizing finished with
  | nil => rfl
  | cons m starts ih =>
    rw [List.cons_subset] at hstarts
    have hin := List.mem_map_of_mem (f := (·.name)) hstarts.1
    rw [searchFrom, List.foldlM_cons, List.findSome?_cons]
    cases hfollow : follow known finished (known.size + 1) [] (some m.name) with
    | error circle =>
      have hruns : RunsInto known.toList m.name circle := by
        refine runsInto_of_follow .nil ?_ hfollow
        intro name hname
        cases hname
        exact ⟨.singleton _, rfl⟩
      cases hloop : loopFrom? known m.name with
      | none => exact absurd (ends_of_loopFrom? hc hstarts.1 hloop) hruns.not_ends
      | some path => exact congrArg some (hruns.unique (runsInto_of_loopFrom? hloop))
    | ok path =>
      have hstart : ∀ name ∈ some m.name, name ∈ known.toList.map (·.name) := fun name hname =>
        Option.mem_some.1 hname ▸ hin
      have hlen : ([] : List String).length + (known.size + 1) = known.size + 1 := Nat.zero_add _
      obtain ⟨hends, hall⟩ := ends_of_follow hc hfinished hlen .nil (List.nil_subset _) hstart
        (fun _ x hx => by cases hx) hfollow
      have hnone : loopFrom? known m.name = none := Option.eq_none_iff_forall_ne_some.2 fun path hloop =>
        (runsInto_of_loopFrom? hloop).not_ends (hends m.name rfl)
      rw [hnone]
      refine ih hstarts.2 fun x hx => ?_
      exact (List.mem_append.1 hx).elim (hfinished x) (hall x)

/-- **The search meets the circle that `firstCycle?` finds**, and none when there is none, though it goes no way twice. -/
theorem search_eq (engine : String) (hc : Closed known) :
    firstCycle? engine known = (search known).map (.cycle engine) := by
  rw [firstCycle?, search, searchFrom_spec hc (List.Subset.refl _) fun x hx => by cases hx]

end Ends

end Schemata.Chain
