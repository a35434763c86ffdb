/-! Elements in strictly ascending order of a key.

`Ascending key` holds the models of a schema, ordered by name, and the declared indexes of a model,
ordered by their fields. There is one element at most for each key, and two collections that find the
same elements are equal (`ext_find?`), so what was put in first leaves no trace. -/
namespace Schemata

/-- Elements in strictly ascending order of `key`. -/
structure Ascending {κ α : Type} [Ord κ] (key : α → κ) where
  toList : List α
  ascending : toList.Pairwise (fun a b => compare (key a) (key b) = .lt)

namespace Ascending
variable {κ α : Type} [Ord κ] {key : α → κ}

/-! ### Sorted lists -/

def place (key : α → κ) (a : α) : List α → List α
  | [] => [a]
  | b :: rest =>
    match compare (key a) (key b) with
    | .lt => a :: b :: rest
    | .eq => a :: rest
    | .gt => b :: place key a rest

theorem mem_place {a b : α} {l : List α} (h : b ∈ place key a l) : b = a ∨ b ∈ l := by
  induction l with
  | nil => simpa [place] using h
  | cons c rest ih =>
    simp only [place] at h
    split at h
    · simpa using h
    · simp only [List.mem_cons] at h ⊢
      rcases h with h | h
      · exact .inl h
      · exact .inr (.inr h)
    · simp only [List.mem_cons] at h ⊢
      rcases h with h | h
      · exact .inr (.inl h)
      · rcases ih h with h | h
        · exact .inl h
        · exact .inr (.inr h)

theorem pairwise_place [Std.TransOrd κ] [Std.LawfulEqOrd κ] (a : α) {l : List α}
    (h : l.Pairwise (fun a b => compare (key a) (key b) = .lt)) :
    (place key a l).Pairwise (fun a b => compare (key a) (key b) = .lt) := by
  induction l with
  | nil => simp [place]
  | cons c rest ih =>
    have hc := List.pairwise_cons.1 h
    simp only [place]
    split
    · rename_i hlt
      refine List.pairwise_cons.2 ⟨?_, h⟩
      intro x hx
      rcases List.mem_cons.1 hx with hx | hx
      · exact hx ▸ hlt
      · exact Std.TransCmp.lt_trans hlt (hc.1 x hx)
    · rename_i heq
      have he := Std.LawfulEqCmp.compare_eq_iff_eq.1 heq
      refine List.pairwise_cons.2 ⟨?_, hc.2⟩
      intro x hx
      rw [he]
      exact hc.1 x hx
    · rename_i hgt
      refine List.pairwise_cons.2 ⟨?_, ih hc.2⟩
      intro x hx
      rcases mem_place hx with hx | hx
      · exact hx ▸ Std.OrientedCmp.gt_iff_lt.1 hgt
      · exact hc.1 x hx

/-! ### Collections -/

def empty : Ascending key := ⟨[], .nil⟩

instance : Inhabited (Ascending key) := ⟨empty⟩

def size (s : Ascending key) : Nat := s.toList.length

def isEmpty (s : Ascending key) : Bool := s.toList.isEmpty

def find? (s : Ascending key) (k : κ) : Option α :=
  s.toList.find? (fun a => compare (key a) k = .eq)

def contains (s : Ascending key) (k : κ) : Bool := (s.find? k).isSome

/-- The collection with `a`, in the place of the element that had its key. -/
def insert [Std.TransOrd κ] [Std.LawfulEqOrd κ] (s : Ascending key) (a : α) : Ascending key :=
  ⟨place key a s.toList, pairwise_place a s.ascending⟩

def erase (s : Ascending key) (k : κ) : Ascending key :=
  ⟨s.toList.filter (fun a => compare (key a) k ≠ .eq), s.ascending.filter _⟩

def ofList [Std.TransOrd κ] [Std.LawfulEqOrd κ] (l : List α) : Ascending key :=
  l.foldl insert empty

/-! ### What a look-up finds -/

section Views
variable [DecidableEq κ] [Std.TransOrd κ] [Std.LawfulEqOrd κ]

/-- Looking a key up in a list, said with equality of keys. -/
def look (key : α → κ) (k : κ) (l : List α) : Option α := l.find? (fun a => key a = k)

omit [Std.TransOrd κ] in
theorem find?_eq_look (s : Ascending key) (k : κ) : s.find? k = look key k s.toList := by
  have hk : (fun a => decide (compare (key a) k = .eq)) = fun a => decide (key a = k) := by
    funext a
    simp [Std.LawfulEqCmp.compare_eq_iff_eq]
  simp only [find?, look, hk]

omit [DecidableEq κ] [Std.TransOrd κ] in
theorem compare_key_self (k : κ) : compare k k = .eq := Std.LawfulEqCmp.compare_eq_iff_eq.2 rfl

omit [Std.TransOrd κ] in
theorem look_place (a : α) (k : κ) {l : List α}
    (h : l.Pairwise (fun a b => compare (key a) (key b) = .lt)) :
    look key k (place key a l) = if key a = k then some a else look key k l := by
  induction l with
  | nil => by_cases ha : key a = k <;> simp [look, place, ha]
  | cons c rest ih =>
    have hc := List.pairwise_cons.1 h
    simp only [place]
    split
    · by_cases ha : key a = k <;> simp [look, ha]
    · rename_i heq
      have he := Std.LawfulEqCmp.compare_eq_iff_eq.1 heq
      by_cases ha : key a = k
      · simp [look, ha]
      · have hck : ¬ key c = k := fun hx => ha (he.trans hx)
        simp [look, ha, hck]
    · rename_i hgt
      have ih := ih hc.2
      by_cases hck : key c = k
      · have ha : ¬ key a = k := by
          intro hx
          rw [hx, hck, compare_key_self] at hgt
          exact absurd hgt (by decide)
        simp [look, hck, ha]
      · simp only [look, List.find?_cons, hck, decide_false] at ih ⊢
        exact ih

theorem find?_insert (s : Ascending key) (a : α) (k : κ) :
    (s.insert a).find? k = if key a = k then some a else s.find? k := by
  simp only [find?_eq_look]
  exact look_place a k s.ascending

omit [Std.TransOrd κ] in
theorem find?_erase (s : Ascending key) (k k' : κ) :
    (s.erase k).find? k' = if k = k' then none else s.find? k' := by
  simp only [find?_eq_look, erase, look, ne_eq, Std.LawfulEqCmp.compare_eq_iff_eq]
  induction s.toList with
  | nil => simp
  | cons c rest ih =>
    by_cases hck : key c = k
    · by_cases hkk : k = k'
      · simp_all
      · have : ¬ key c = k' := fun hx => hkk (hck.symm.trans hx)
        simp_all
    · by_cases hc' : key c = k'
      · have : ¬ k = k' := fun hx => hck (hc'.trans hx.symm)
        simp_all
      · simp_all

omit [Std.TransOrd κ] in
theorem key_of_find? {s : Ascending key} {k : κ} {a : α} (h : s.find? k = some a) : key a = k := by
  rw [find?_eq_look] at h
  simpa using List.find?_some (p := fun b => decide (key b = k)) h

omit [Std.TransOrd κ] in
theorem look_of_above {a : α} {l : List α} (h : ∀ b ∈ l, compare (key a) (key b) = .lt) :
    look key (key a) l = none := by
  refine List.find?_eq_none.2 fun b hb he => ?_
  have hlt := h b hb
  rw [of_decide_eq_true he, compare_key_self] at hlt
  exact absurd hlt (by decide)

theorem ext_look {l m : List α} (hl : l.Pairwise (fun a b => compare (key a) (key b) = .lt))
    (hm : m.Pairwise (fun a b => compare (key a) (key b) = .lt))
    (h : ∀ k, look key k l = look key k m) : l = m := by
  induction l generalizing m with
  | nil =>
    cases m with
    | nil => rfl
    | cons b m => exact absurd (h (key b)) (by simp [look])
  | cons a l ih =>
    cases m with
    | nil => exact absurd (h (key a)) (by simp [look])
    | cons b m =>
      rw [List.pairwise_cons] at hl hm
      have hab : a = b := by
        have ha : some a = look key (key a) (b :: m) := by simpa [look] using h (key a)
        have hb : look key (key b) (a :: l) = some b := by simpa [look] using h (key b)
        by_cases he : key a = key b
        · simpa [look, he] using ha
        · have he' : ¬ key b = key a := fun hx => he hx.symm
          simp only [look, List.find?_cons, he, he', decide_false] at ha hb
          have h1 := hm.1 a (List.mem_of_find?_eq_some ha.symm)
          have h2 := hl.1 b (List.mem_of_find?_eq_some hb)
          have h3 := Std.TransCmp.lt_trans h1 h2
          rw [compare_key_self] at h3
          exact absurd h3 (by decide)
      subst hab
      rw [ih hl.2 hm.2 fun k => ?_]
      by_cases hk : key a = k
      · subst hk
        rw [look_of_above hl.1, look_of_above hm.1]
      · simpa [look, hk] using h k

/-- Two collections that find the same elements are equal. -/
theorem ext_find? {s t : Ascending key} (h : ∀ k, s.find? k = t.find? k) : s = t := by
  obtain ⟨l, hl⟩ := s
  obtain ⟨m, hm⟩ := t
  have : l = m := ext_look hl hm fun k => by simpa only [find?_eq_look] using h k
  subst this
  rfl

end Views

end Ascending

end Schemata
