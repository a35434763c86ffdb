import Schemata.Collection.Ascending
import Schemata.Collection.Keyed

/-! What the elements of a collection are, beside what a look-up finds.

A look-up in a collection ordered by key finds exactly the element with that key, the keys are distinct,
and an element under a new key joins the others. A list that is put in one after the other, a key that is
taken being refused, is in the collection as a whole or not at all. What is computed for each element of a
list does not depend on their order. -/
namespace Schemata

theorem eq_of_nodup_map {κ α : Type} {key : α → κ} {l : List α} (hd : (l.map key).Nodup) {a b : α}
    (ha : a ∈ l) (hb : b ∈ l) (h : key a = key b) : a = b := by
  have hpair := List.pairwise_iff_getElem.1 (List.pairwise_map.1 hd)
  obtain ⟨i, hi, rfl⟩ := List.mem_iff_getElem.1 ha
  obtain ⟨j, hj, rfl⟩ := List.mem_iff_getElem.1 hb
  rcases Nat.lt_trichotomy i j with hij | rfl | hij
  · exact absurd h (hpair i j hi hj hij)
  · rfl
  · exact absurd h.symm (hpair j i hj hi hij)

/-! ### Computations over lists -/

section Computations
variable {ε α β : Type} {f : α → Except ε β}

/-- A computation that goes on with what comes of another one. -/
theorem bind_eq_ok_iff {γ : Type} {x : Except ε γ} {g : γ → Except ε β} {b : β} :
    (x >>= g) = .ok b ↔ ∃ c, x = .ok c ∧ g c = .ok b := by
  cases x <;> simp [bind, Except.bind]

theorem map_eq_ok_iff {γ : Type} {x : Except ε γ} {g : γ → β} {b : β} :
    x.map g = .ok b ↔ ∃ c, x = .ok c ∧ g c = b := by
  cases x <;> simp [Except.map]

theorem mapM_cons_eq_ok_iff {a : α} {l : List α} {bs : List β} :
    (a :: l).mapM f = .ok bs ↔ ∃ b rest, f a = .ok b ∧ l.mapM f = .ok rest ∧ bs = b :: rest := by
  rw [List.mapM_cons]
  simp only [bind_eq_ok_iff, pure, Except.pure, Except.ok.injEq, exists_and_left, eq_comm (a := bs)]

/-- In another order a computation comes to the same, in another order. -/
theorem exists_of_mapM_eq_ok {l : List α} {bs : List β} (h : l.mapM f = .ok bs) {a : α} (ha : a ∈ l) :
    ∃ b, f a = .ok b := by
  induction l generalizing bs with
  | nil => cases ha
  | cons x rest ih =>
    obtain ⟨b, more, hx, hrest, -⟩ := mapM_cons_eq_ok_iff.1 h
    rcases List.mem_cons.1 ha with rfl | ha
    · exact ⟨b, hx⟩
    · exact ih hrest ha

theorem mapM_perm {l l' : List α} (h : l.Perm l') {bs : List β} (hb : l.mapM f = .ok bs) :
    ∃ bs', l'.mapM f = .ok bs' ∧ bs'.Perm bs := by
  induction h generalizing bs with
  | nil => exact ⟨bs, hb, .refl bs⟩
  | cons a _ ih =>
    obtain ⟨b, rest, ha, hrest, rfl⟩ := mapM_cons_eq_ok_iff.1 hb
    obtain ⟨rest', hrest', hperm⟩ := ih hrest
    exact ⟨b :: rest', mapM_cons_eq_ok_iff.2 ⟨b, rest', ha, hrest', rfl⟩, hperm.cons b⟩
  | swap a a' l =>
    obtain ⟨b', tail, ha', htail, rfl⟩ := mapM_cons_eq_ok_iff.1 hb
    obtain ⟨b, rest, ha, hrest, rfl⟩ := mapM_cons_eq_ok_iff.1 htail
    exact ⟨b :: b' :: rest,
      mapM_cons_eq_ok_iff.2 ⟨b, _, ha, mapM_cons_eq_ok_iff.2 ⟨b', rest, ha', hrest, rfl⟩, rfl⟩, .swap b' b rest⟩
  | trans _ _ ih ih' =>
    obtain ⟨bs', hb', hperm⟩ := ih hb
    obtain ⟨bs'', hb'', hperm'⟩ := ih' hb'
    exact ⟨bs'', hb'', hperm'.trans hperm⟩

theorem mapM_append_eq_ok {l l' : List α} {bs bs' : List β} (h : l.mapM f = .ok bs) (h' : l'.mapM f = .ok bs') :
    (l ++ l').mapM f = .ok (bs ++ bs') := by
  rw [List.mapM_append, h, h']
  rfl

theorem mapM_congr {g : α → Except ε β} {l : List α} (h : ∀ a ∈ l, f a = g a) : l.mapM f = l.mapM g := by
  induction l with
  | nil => rfl
  | cons a rest ih =>
    rw [List.mapM_cons, List.mapM_cons, h a List.mem_cons_self, ih fun b hb => h b (List.mem_cons_of_mem _ hb)]

theorem map_of_mapM {γ : Type} {g : β → γ} {g' : α → γ} {l : List α} {bs : List β} (h : l.mapM f = .ok bs)
    (hg : ∀ a b, f a = .ok b → g b = g' a) : bs.map g = l.map g' := by
  induction l generalizing bs with
  | nil =>
    cases h
    rfl
  | cons a rest ih =>
    obtain ⟨b, more, ha, hrest, rfl⟩ := mapM_cons_eq_ok_iff.1 h
    rw [List.map_cons, List.map_cons, hg a b ha, ih hrest]

theorem exists_of_mem_mapM {l : List α} {bs : List β} (h : l.mapM f = .ok bs) {b : β} (hb : b ∈ bs) :
    ∃ a ∈ l, f a = .ok b := by
  induction l generalizing bs with
  | nil =>
    cases h
    cases hb
  | cons a rest ih =>
    obtain ⟨x, xs, ha, hrest, rfl⟩ := mapM_cons_eq_ok_iff.1 h
    rcases List.mem_cons.1 hb with rfl | hb
    · exact ⟨a, List.mem_cons_self, ha⟩
    · obtain ⟨a', hin, ha'⟩ := ih hrest hb
      exact ⟨a', List.mem_cons_of_mem _ hin, ha'⟩

/-- Steps that keep whatever they are given keep it in a row, too. -/
theorem foldlM_eq_some_self {σ : Type} {step : σ → α → Option σ} {l : List α} (h : ∀ a ∈ l, ∀ s, step s a = some s)
    (s : σ) : l.foldlM step s = some s := by
  induction l with
  | nil => rfl
  | cons a rest ih =>
    rw [List.foldlM_cons, h a List.mem_cons_self]
    exact ih fun b hb => h b (List.mem_cons_of_mem _ hb)

end Computations

namespace Ascending
variable {κ α : Type} [Ord κ] [Std.LawfulEqOrd κ] {key : α → κ}

theorem nodup_keys (s : Ascending key) : (s.toList.map key).Nodup := by
  refine List.pairwise_map.2 (s.ascending.imp ?_)
  intro a b hlt he
  rw [he, compare_key_self] at hlt
  exact absurd hlt (by decide)

theorem nodup (s : Ascending key) : s.toList.Nodup :=
  (List.pairwise_map.1 s.nodup_keys).imp fun hne he => hne (congrArg key he)

theorem eq_of_key_eq {s : Ascending key} {a b : α} (ha : a ∈ s.toList) (hb : b ∈ s.toList)
    (h : key a = key b) : a = b :=
  eq_of_nodup_map s.nodup_keys ha hb h

/-! ### Look-ups -/

section LookUps
variable [DecidableEq κ]

theorem find?_eq_some_iff {s : Ascending key} {k : κ} {a : α} :
    s.find? k = some a ↔ a ∈ s.toList ∧ key a = k := by
  constructor
  · intro h
    have hk := key_of_find? h
    rw [find?_eq_look] at h
    exact ⟨List.mem_of_find?_eq_some h, hk⟩
  · rintro ⟨ha, rfl⟩
    cases hb : s.find? (key a) with
    | none =>
      rw [find?_eq_look] at hb
      exact absurd (List.find?_eq_none.1 hb a ha) (by simp)
    | some b =>
      have hkey := key_of_find? hb
      rw [find?_eq_look] at hb
      exact congrArg some (eq_of_key_eq (List.mem_of_find?_eq_some hb) ha hkey)

theorem find?_of_mem {s : Ascending key} {a : α} (h : a ∈ s.toList) : s.find? (key a) = some a :=
  find?_eq_some_iff.2 ⟨h, rfl⟩

theorem contains_iff {s : Ascending key} {k : κ} : s.contains k = true ↔ k ∈ s.toList.map key := by
  rw [contains, Option.isSome_iff_exists, List.mem_map]
  exact exists_congr fun a => find?_eq_some_iff

theorem contains_eq_false_iff {s : Ascending key} {k : κ} :
    s.contains k = false ↔ k ∉ s.toList.map key := by
  rw [← contains_iff, Bool.not_eq_true]

theorem contains_iff_mem {s : Ascending (id : κ → κ)} {k : κ} :
    s.contains k = true ↔ k ∈ s.toList := by
  rw [contains_iff, List.map_id]

theorem ext_contains [Std.TransOrd κ] {s t : Ascending (id : κ → κ)}
    (h : ∀ k, s.contains k = true ↔ t.contains k = true) : s = t := by
  refine ext_find? fun k => Option.ext fun a => ?_
  rw [find?_eq_some_iff, find?_eq_some_iff, ← contains_iff_mem, ← contains_iff_mem, h]

/-- Collections of the same elements are equal, in whatever order these are listed. -/
theorem ext_perm [Std.TransOrd κ] {s t : Ascending key} (h : s.toList.Perm t.toList) : s = t := by
  refine ext_find? fun k => Option.ext fun a => ?_
  rw [find?_eq_some_iff, find?_eq_some_iff, h.mem_iff]

theorem contains_erase {s : Ascending key} {k k' : κ} :
    (s.erase k).contains k' = true ↔ k ≠ k' ∧ s.contains k' = true := by
  rw [contains, contains, find?_erase]
  by_cases h : k = k' <;> simp [h]

theorem contains_insert [Std.TransOrd κ] {s : Ascending key} {a : α} {k : κ} :
    (s.insert a).contains k = true ↔ key a = k ∨ s.contains k = true := by
  rw [contains, contains, find?_insert]
  by_cases h : key a = k <;> simp [h]

end LookUps

omit [Std.LawfulEqOrd κ] in
@[simp]
theorem toList_empty : (empty : Ascending key).toList = [] := rfl

/-! ### Added elements -/

theorem place_perm (a : α) {l : List α} (h : key a ∉ l.map key) : (place key a l).Perm (a :: l) := by
  induction l with
  | nil => exact .refl _
  | cons b rest ih =>
    simp only [List.map_cons, List.mem_cons, not_or] at h
    simp only [place]
    split
    · exact .refl _
    · rename_i he
      exact absurd (Std.LawfulEqCmp.compare_eq_iff_eq.1 he) h.1
    · exact ((ih h.2).cons b).trans (.swap a b rest)

section Insertion
variable [DecidableEq κ] [Std.TransOrd κ]

omit [DecidableEq κ] in
theorem mem_foldl_insert {a : α} {l : List α} {s : Ascending key}
    (h : a ∈ (l.foldl insert s).toList) : a ∈ l ∨ a ∈ s.toList := by
  induction l generalizing s with
  | nil => exact .inr h
  | cons b rest ih =>
    rcases ih h with h | h
    · exact .inl (List.mem_cons_of_mem b h)
    · rcases mem_place h with rfl | h
      · exact .inl (List.mem_cons_self ..)
      · exact .inr h

omit [DecidableEq κ] in
theorem mem_of_mem_ofList {a : α} {l : List α} (h : a ∈ (ofList l : Ascending key).toList) : a ∈ l :=
  (mem_foldl_insert h).resolve_right (by simp)

theorem contains_foldl_insert {k : κ} {l : List α} {s : Ascending key} :
    (l.foldl insert s).contains k = true ↔ k ∈ l.map key ∨ s.contains k = true := by
  induction l generalizing s with
  | nil => simp
  | cons a rest ih =>
    rw [List.foldl_cons, ih, List.map_cons, List.mem_cons, contains_insert, eq_comm, or_left_comm, or_assoc]

theorem contains_ofList {k : κ} {l : List α} :
    (ofList l : Ascending key).contains k = true ↔ k ∈ l.map key := by
  rw [ofList, contains_foldl_insert]
  exact or_iff_left (by simp [contains, find?])

theorem insert_perm {s : Ascending key} {a : α} (h : s.contains (key a) = false) :
    (s.insert a).toList.Perm (a :: s.toList) :=
  place_perm a (contains_eq_false_iff.1 h)

theorem foldl_insert_perm {l : List α} {s : Ascending key} (h : ((l ++ s.toList).map key).Nodup) :
    (l.foldl insert s).toList.Perm (l ++ s.toList) := by
  induction l generalizing s with
  | nil => exact .refl _
  | cons a rest ih =>
    have hmid : ((rest ++ a :: s.toList).map key).Nodup := (List.perm_middle.map key).nodup_iff.2 h
    have hnew : s.contains (key a) = false := by
      rw [contains_eq_false_iff]
      rw [List.cons_append, List.map_cons, List.nodup_cons, List.map_append, List.mem_append, not_or] at h
      exact h.1.2
    have hinsert : (rest ++ (s.insert a).toList).Perm (rest ++ a :: s.toList) := (insert_perm hnew).append_left rest
    exact (ih ((hinsert.map key).nodup_iff.2 hmid)).trans (hinsert.trans List.perm_middle)

/-- Elements under distinct keys are all in the collection that is made of them. -/
theorem ofList_perm {l : List α} (h : (l.map key).Nodup) : (ofList l : Ascending key).toList.Perm l := by
  have hperm : (ofList l : Ascending key).toList.Perm (l ++ []) :=
    foldl_insert_perm (s := empty) (by rwa [toList_empty, List.append_nil])
  rwa [List.append_nil] at hperm

variable {ε : Type} {add : Ascending key → α → Except ε (Ascending key)}

/-- Elements that were all put in are the new elements of the collection. -/
theorem foldlM_perm
    (hadd : ∀ {s a t}, add s a = .ok t → s.contains (key a) = false ∧ t = s.insert a)
    {l : List α} {s t : Ascending key} (h : l.foldlM add s = .ok t) :
    t = l.foldl insert s ∧ t.toList.Perm (l ++ s.toList) := by
  induction l generalizing s with
  | nil =>
    cases h
    exact ⟨rfl, .refl _⟩
  | cons a rest ih =>
    rw [List.foldlM_cons] at h
    obtain ⟨u, hs, h⟩ := bind_eq_ok_iff.1 h
    obtain ⟨hnew, rfl⟩ := hadd hs
    obtain ⟨heq, hperm⟩ := ih h
    refine ⟨heq, hperm.trans ?_⟩
    exact ((insert_perm hnew).append_left rest).trans List.perm_middle

omit [DecidableEq κ] [Std.TransOrd κ] [Std.LawfulEqOrd κ] in
theorem exists_of_foldlM {l : List α} {s t : Ascending key} (h : l.foldlM add s = .ok t) {a : α}
    (ha : a ∈ l) : ∃ s t, add s a = .ok t := by
  induction l generalizing s with
  | nil => cases ha
  | cons b rest ih =>
    rw [List.foldlM_cons] at h
    obtain ⟨u, hs, h⟩ := bind_eq_ok_iff.1 h
    rcases List.mem_cons.1 ha with rfl | ha
    · exact ⟨s, u, hs⟩
    · exact ih h ha

/-- Elements under distinct keys, none of them taken, can be put in. -/
theorem foldlM_eq_ok {l : List α} {s : Ascending key}
    (hadd : ∀ s, ∀ a ∈ l, s.contains (key a) = false → add s a = .ok (s.insert a))
    (h : ((l ++ s.toList).map key).Nodup) : l.foldlM add s = .ok (l.foldl insert s) := by
  induction l generalizing s with
  | nil => rfl
  | cons a rest ih =>
    have hmid : ((rest ++ a :: s.toList).map key).Nodup :=
      (List.perm_middle.map key).nodup_iff.2 h
    have hnew : s.contains (key a) = false := by
      rw [contains_eq_false_iff]
      intro hk
      rw [List.cons_append, List.map_cons, List.nodup_cons] at h
      exact h.1 (by rw [List.map_append]; exact List.mem_append_right _ hk)
    rw [List.foldlM_cons, hadd s a (List.mem_cons_self ..) hnew]
    refine ih (fun s b hb => hadd s b (List.mem_cons_of_mem a hb)) ?_
    exact (((insert_perm hnew).append_left rest).map key).nodup_iff.2 hmid

end Insertion

end Ascending

namespace Keyed
variable {κ α : Type} [DecidableEq κ]

/-! ### Entries -/

theorem find_of_mem {k : κ} {a : α} {l : List (κ × α)} (hd : (l.map Prod.fst).Nodup)
    (h : (k, a) ∈ l) : find k l = some a := by
  induction l with
  | nil => cases h
  | cons e rest ih =>
    obtain ⟨k', a'⟩ := e
    rw [List.map_cons, List.nodup_cons] at hd
    rcases List.mem_cons.1 h with he | h
    · cases he
      simp [find]
    · have hne : ¬ k' = k := by
        rintro rfl
        exact hd.1 (List.mem_map.2 ⟨_, h, rfl⟩)
      simp only [find, hne, if_false]
      exact ih hd.2 h

theorem mem_of_find {k : κ} {a : α} {l : List (κ × α)} (h : find k l = some a) : (k, a) ∈ l := by
  induction l with
  | nil => cases h
  | cons e rest ih =>
    obtain ⟨k', a'⟩ := e
    simp only [find] at h
    split at h
    · rename_i hk
      cases hk
      cases h
      exact List.mem_cons_self ..
    · exact List.mem_cons_of_mem _ (ih h)

theorem get?_eq_some_iff {t : Keyed κ α} {k : κ} {a : α} :
    t.get? k = some a ↔ (k, a) ∈ t.entries :=
  ⟨mem_of_find, find_of_mem t.distinct⟩

theorem mem_values_iff {t : Keyed κ α} {a : α} : a ∈ t.values ↔ ∃ k, t.get? k = some a := by
  simp only [values, List.mem_map, get?_eq_some_iff]
  exact ⟨fun ⟨e, he, hk⟩ => ⟨e.1, hk ▸ he⟩, fun ⟨k, hk⟩ => ⟨(k, a), hk, rfl⟩⟩

theorem contains_eq_isSome (t : Keyed κ α) (k : κ) : t.contains k = (t.get? k).isSome := rfl

theorem contains_eq_false_iff {t : Keyed κ α} {k : κ} : t.contains k = false ↔ t.get? k = none := by
  rw [contains_eq_isSome, Option.isSome_eq_false_iff, Option.isNone_iff_eq_none]

theorem contains_put {t : Keyed κ α} {k k' : κ} {a : α} :
    (t.put k a).contains k' = true ↔ k = k' ∨ t.contains k' = true := by
  rw [contains, contains, get?_put]
  by_cases h : k = k' <;> simp [h]

theorem contains_erase {t : Keyed κ α} {k k' : κ} :
    (t.erase k).contains k' = true ↔ k ≠ k' ∧ t.contains k' = true := by
  rw [contains, contains, get?_erase]
  by_cases h : k = k' <;> simp [h]

theorem not_mem_keys_iff {t : Keyed κ α} {k : κ} : k ∉ t.entries.map Prod.fst ↔ t.get? k = none := by
  rw [← Option.not_isSome_iff_eq_none]
  exact not_congr (find_isSome_iff k t.entries).symm

/-! ### Revised and moved entries -/

theorem find_revised (k k' : κ) (f : α → α) (l : List (κ × α)) :
    find k' (revised k f l) = if k = k' then (find k' l).map f else find k' l := by
  induction l with
  | nil => simp [revised, find]
  | cons e rest ih =>
    obtain ⟨x, a⟩ := e
    simp only [revised, List.map_cons] at ih ⊢
    by_cases hx : x = k
    · subst hx
      by_cases hk : x = k' <;> simp [find, hk, ih]
    · by_cases hk' : x = k'
      · subst hk'
        have hk : ¬ k = x := fun he => hx he.symm
        simp [find, hx, hk]
      · simp [find, hx, hk', ih]

theorem get?_revise (t : Keyed κ α) (k k' : κ) (f : α → α) :
    (t.revise k f).get? k' = if k = k' then (t.get? k').map f else t.get? k' :=
  find_revised k k' f t.entries

@[simp]
theorem contains_revise (t : Keyed κ α) (k k' : κ) (f : α → α) :
    (t.revise k f).contains k' = t.contains k' := by
  rw [contains, contains, get?_revise]
  split
  · rw [Option.isSome_map]
  · rfl

theorem find_rekeyed {k target : κ} (f : α → α) {l : List (κ × α)} (x : κ)
    (h : target ∉ l.map Prod.fst) :
    find x (rekeyed k target f l) =
      if x = target then (find k l).map f else if x = k then none else find x l := by
  induction l with
  | nil => simp [rekeyed, find]
  | cons e rest ih =>
    obtain ⟨y, a⟩ := e
    simp only [List.map_cons, List.mem_cons, not_or] at h
    have ih := ih h.2
    simp only [rekeyed, List.map_cons] at ih ⊢
    by_cases hy : y = k
    · subst hy
      by_cases hx : x = target
      · simp [find, hx]
      · have hx' : ¬ target = x := fun he => hx he.symm
        by_cases hxy : x = y
        · subst hxy
          simpa [find, hx, hx'] using ih
        · have hyx : ¬ y = x := fun he => hxy he.symm
          simpa [find, hx, hx', hxy, hyx] using ih
    · by_cases hx : x = target
      · have hyt : ¬ y = target := fun he => h.1 he.symm
        simpa [find, hy, hyt, hx] using ih
      · by_cases hyx : y = x
        · subst hyx
          simp [find, hy, hx]
        · simpa [find, hy, hx, hyx] using ih

theorem get?_rekey {t : Keyed κ α} {target : κ} (h : t.get? target = none) (k x : κ) (f : α → α) :
    (t.rekey k target f).get? x =
      if x = target then (t.get? k).map f else if x = k then none else t.get? x := by
  have hk := not_mem_keys_iff.2 h
  simp only [rekey, hk, dif_neg, not_false_eq_true]
  exact find_rekeyed f x hk

/-! ### Entries put one after the other -/

theorem place_of_not_mem {k : κ} {a : α} {l : List (κ × α)} (h : k ∉ l.map Prod.fst) :
    place k a l = l ++ [(k, a)] := by
  induction l with
  | nil => rfl
  | cons e rest ih =>
    obtain ⟨k', a'⟩ := e
    simp only [List.map_cons, List.mem_cons, not_or] at h
    have hne : ¬ k' = k := fun he => h.1 he.symm
    simp only [place, hne, if_false, List.cons_append, ih h.2]

theorem entries_foldl_put {l : List (κ × α)} {t : Keyed κ α}
    (h : ((t.entries ++ l).map Prod.fst).Nodup) :
    (l.foldl (fun t e => t.put e.1 e.2) t).entries = t.entries ++ l := by
  induction l generalizing t with
  | nil => simp
  | cons e rest ih =>
    have hnew : e.1 ∉ t.entries.map Prod.fst := by
      intro hk
      rw [List.map_append, List.nodup_append] at h
      exact h.2.2 e.1 hk e.1 (by simp) rfl
    have hput : (t.put e.1 e.2).entries = t.entries ++ [e] := place_of_not_mem hnew
    rw [List.foldl_cons, ih (by simpa [hput] using h), hput, List.append_assoc]
    rfl

theorem entries_ofList {l : List (κ × α)} (h : (l.map Prod.fst).Nodup) :
    (ofList l).entries = l :=
  entries_foldl_put (t := empty) h

theorem length_place_of_mem {k : κ} {a : α} {l : List (κ × α)} (h : k ∈ l.map Prod.fst) :
    (place k a l).length = l.length := by
  have := congrArg List.length (keys_place k a l)
  rwa [if_pos h, List.length_map, List.length_map] at this

theorem size_foldl_put_le (l : List (κ × α)) (t : Keyed κ α) :
    (l.foldl (fun t e => t.put e.1 e.2) t).size ≤ t.size + l.length := by
  induction l generalizing t with
  | nil => exact Nat.le_refl _
  | cons e rest ih =>
    have hput : (t.put e.1 e.2).size ≤ t.size + 1 := by
      by_cases h : e.1 ∈ t.entries.map Prod.fst
      · exact Nat.le_succ_of_le (Nat.le_of_eq (length_place_of_mem h))
      · have hentries : (t.put e.1 e.2).entries = t.entries ++ [e] := place_of_not_mem h
        rw [size, hentries, List.length_append]
        exact Nat.le_refl _
    have := ih (t.put e.1 e.2)
    rw [List.foldl_cons, List.length_cons]
    omega

/-- A table that is as large as the list that it was made of has all of the list in it. -/
theorem nodup_of_size_foldl_put {l : List (κ × α)} {t : Keyed κ α}
    (h : (l.foldl (fun t e => t.put e.1 e.2) t).size = t.size + l.length) :
    ((t.entries ++ l).map Prod.fst).Nodup := by
  induction l generalizing t with
  | nil => simpa using t.distinct
  | cons e rest ih =>
    rw [List.foldl_cons, List.length_cons] at h
    by_cases hk : e.1 ∈ t.entries.map Prod.fst
    · have hle := size_foldl_put_le rest (t.put e.1 e.2)
      have hsize : (t.put e.1 e.2).size = t.size := length_place_of_mem hk
      omega
    · have hput : (t.put e.1 e.2).entries = t.entries ++ [e] := place_of_not_mem hk
      have hsize : (t.put e.1 e.2).size = t.size + 1 := by rw [size, hput, List.length_append]; rfl
      have hrest := ih (t := t.put e.1 e.2) (by omega)
      rwa [hput, List.append_assoc] at hrest

theorem nodup_of_size_ofList {l : List (κ × α)} (h : (ofList l).size = l.length) :
    (l.map Prod.fst).Nodup :=
  nodup_of_size_foldl_put (t := empty) (by rw [show (empty : Keyed κ α).size = 0 from rfl, Nat.zero_add]; exact h)

theorem mem_place {k : κ} {a : α} {l : List (κ × α)} {e : κ × α} (h : e ∈ place k a l) :
    e = (k, a) ∨ e ∈ l := by
  induction l with
  | nil => simpa [place] using h
  | cons x rest ih =>
    simp only [place] at h
    split at h
    · rcases List.mem_cons.1 h with h | h
      · exact .inl h
      · exact .inr (List.mem_cons_of_mem _ h)
    · rcases List.mem_cons.1 h with h | h
      · exact .inr (h ▸ List.mem_cons_self ..)
      · exact (ih h).imp_right (List.mem_cons_of_mem _)

theorem mem_ofList {l : List (κ × α)} {e : κ × α} (h : e ∈ (ofList l).entries) : e ∈ l := by
  suffices ∀ t : Keyed κ α, e ∈ (l.foldl (fun t e => t.put e.1 e.2) t).entries →
      e ∈ t.entries ∨ e ∈ l by
    exact (this empty h).resolve_left (by simp [empty])
  clear h
  induction l with
  | nil => exact fun t h => .inl h
  | cons x rest ih =>
    intro t h
    rcases ih _ h with h | h
    · rcases mem_place h with rfl | h
      · exact .inr (List.mem_cons_self ..)
      · exact .inl h
    · exact .inr (List.mem_cons_of_mem _ h)

end Keyed

end Schemata
