/-! Entries under distinct keys, in the order in which the keys were first put.

`Keyed κ α` is the table behind a model's fields and behind a directory tree. Looking a key up
(`get?`) is the view that the operations are described by; the order of `entries` is what is written
out. Putting under a known key replaces the entry where it stands, putting under a new key appends. -/
namespace Schemata

/-- Entries under distinct keys, in the order in which the keys were first put. -/
structure Keyed (κ α : Type) where
  entries : List (κ × α)
  distinct : (entries.map Prod.fst).Nodup

namespace Keyed
variable {κ α : Type} [DecidableEq κ]

/-! ### Lists of entries -/

def find (k : κ) : List (κ × α) → Option α
  | [] => none
  | (k', a) :: rest => if k' = k then some a else find k rest

def place (k : κ) (a : α) : List (κ × α) → List (κ × α)
  | [] => [(k, a)]
  | (k', a') :: rest => if k' = k then (k, a) :: rest else (k', a') :: place k a rest

def without (k : κ) (l : List (κ × α)) : List (κ × α) :=
  l.filter (fun e => e.1 ≠ k)

def revised (k : κ) (f : α → α) (l : List (κ × α)) : List (κ × α) :=
  l.map (fun e => if e.1 = k then (e.1, f e.2) else e)

def rekeyed (k k' : κ) (f : α → α) (l : List (κ × α)) : List (κ × α) :=
  l.map (fun e => if e.1 = k then (k', f e.2) else e)

theorem keys_place (k : κ) (a : α) (l : List (κ × α)) :
    (place k a l).map Prod.fst = if k ∈ l.map Prod.fst then l.map Prod.fst else l.map Prod.fst ++ [k] := by
  induction l with
  | nil => simp [place]
  | cons e rest ih =>
    obtain ⟨k', a'⟩ := e
    by_cases h : k' = k
    · subst h; simp [place]
    · have h' : ¬ k = k' := fun he => h he.symm
      simp only [place, h, if_false, List.map_cons, ih, List.mem_cons, h', false_or]
      split <;> simp

theorem keys_revised (k : κ) (f : α → α) (l : List (κ × α)) :
    (revised k f l).map Prod.fst = l.map Prod.fst := by
  induction l with
  | nil => rfl
  | cons e rest ih =>
    simp only [revised, List.map_cons, List.map_map] at ih ⊢
    rw [ih]
    split <;> rfl

theorem keys_rekeyed (k k' : κ) (f : α → α) (l : List (κ × α)) :
    (rekeyed k k' f l).map Prod.fst = (l.map Prod.fst).map (fun x => if x = k then k' else x) := by
  induction l with
  | nil => rfl
  | cons e rest ih =>
    simp only [rekeyed, List.map_cons, List.map_map] at ih ⊢
    rw [ih]
    split <;> simp_all

theorem nodup_place {k : κ} {a : α} {l : List (κ × α)} (h : (l.map Prod.fst).Nodup) :
    ((place k a l).map Prod.fst).Nodup := by
  rw [keys_place]
  split
  · exact h
  · rename_i hk
    rw [List.nodup_append]
    refine ⟨h, by simp, ?_⟩
    intro x hx y hy
    simp only [List.mem_singleton] at hy
    subst hy
    intro he
    exact hk (he ▸ hx)

theorem nodup_without {k : κ} {l : List (κ × α)} (h : (l.map Prod.fst).Nodup) :
    ((without k l).map Prod.fst).Nodup :=
  (List.filter_sublist.map Prod.fst).nodup h

theorem nodup_rekeyed {k k' : κ} {f : α → α} {l : List (κ × α)} (h : (l.map Prod.fst).Nodup)
    (hk : k' ∉ l.map Prod.fst) : ((rekeyed k k' f l).map Prod.fst).Nodup := by
  rw [keys_rekeyed]
  generalize l.map Prod.fst = keys at h hk
  induction keys with
  | nil => simp
  | cons x rest ih =>
    rw [List.nodup_cons] at h
    simp only [List.mem_cons, not_or] at hk
    rw [List.map_cons, List.nodup_cons]
    refine ⟨?_, ih h.2 hk.2⟩
    simp only [List.mem_map, not_exists, not_and]
    intro y hy
    by_cases hxk : x = k <;> by_cases hyk : y = k <;> simp only [hxk, hyk, if_true, if_false]
    · subst hxk; subst hyk; exact absurd hy h.1
    · intro he; exact hk.2 (he ▸ hy)
    · intro he; exact hk.1 he
    · intro he; exact h.1 (he ▸ hy)

/-! ### Tables -/

def empty : Keyed κ α := ⟨[], by simp⟩

instance : Inhabited (Keyed κ α) := ⟨empty⟩

def keys (t : Keyed κ α) : List κ := t.entries.map Prod.fst

def values (t : Keyed κ α) : List α := t.entries.map Prod.snd

def size (t : Keyed κ α) : Nat := t.entries.length

def get? (t : Keyed κ α) (k : κ) : Option α := find k t.entries

def contains (t : Keyed κ α) (k : κ) : Bool := (t.get? k).isSome

def put (t : Keyed κ α) (k : κ) (a : α) : Keyed κ α :=
  ⟨place k a t.entries, nodup_place t.distinct⟩

theorem nodup_putFirst {k : κ} {a : α} {l : List (κ × α)} (h : (l.map Prod.fst).Nodup) :
    (((k, a) :: without k l).map Prod.fst).Nodup := by
  rw [List.map_cons, List.nodup_cons]
  refine ⟨?_, nodup_without h⟩
  simp [without]

/-- The table with `a` under `k` in front. -/
def putFirst (t : Keyed κ α) (k : κ) (a : α) : Keyed κ α :=
  ⟨(k, a) :: without k t.entries, nodup_putFirst t.distinct⟩

def erase (t : Keyed κ α) (k : κ) : Keyed κ α :=
  ⟨without k t.entries, nodup_without t.distinct⟩

/-- The table with `f` applied to the entry under `k`, if there is one. -/
def revise (t : Keyed κ α) (k : κ) (f : α → α) : Keyed κ α :=
  ⟨revised k f t.entries, by rw [keys_revised]; exact t.distinct⟩

/-- The table with the entry under `k` moved to the key `k'`, at its position, and `f` applied to it.
A key that is taken is left alone, and so is the whole table then. -/
def rekey (t : Keyed κ α) (k k' : κ) (f : α → α) : Keyed κ α :=
  if h : k' ∈ t.entries.map Prod.fst then t
  else ⟨rekeyed k k' f t.entries, nodup_rekeyed t.distinct h⟩

/-- The entries put one after the other: of equal keys the last value wins, at the first place. -/
def ofList (l : List (κ × α)) : Keyed κ α := l.foldl (fun t e => t.put e.1 e.2) empty

/-- The list as a table, if its keys are distinct. -/
def ofDistinct? (l : List (κ × α)) : Option (Keyed κ α) :=
  if h : (l.map Prod.fst).Nodup then some ⟨l, h⟩ else none

/-! ### What a look-up finds -/

theorem find_isSome_iff (k : κ) (l : List (κ × α)) : (find k l).isSome ↔ k ∈ l.map Prod.fst := by
  induction l with
  | nil => simp [find]
  | cons e rest ih =>
    obtain ⟨k', a⟩ := e
    by_cases h : k' = k
    · subst h; simp [find]
    · have h' : ¬ k = k' := fun he => h he.symm
      simp only [find, h, if_false, ih, List.map_cons, List.mem_cons, h', false_or]

theorem find_place (k k' : κ) (a : α) (l : List (κ × α)) :
    find k (place k' a l) = if k' = k then some a else find k l := by
  induction l with
  | nil => simp [place, find]
  | cons e rest ih =>
    obtain ⟨x, b⟩ := e
    by_cases hx : x = k'
    · subst hx
      simp only [place, if_true, find]
      split <;> rfl
    · simp only [place, hx, if_false, find, ih]
      by_cases hxk : x = k
      · have : ¬ k' = k := fun he => hx (hxk.trans he.symm)
        simp [hxk, this]
      · simp [hxk]

theorem find_without (k k' : κ) (l : List (κ × α)) :
    find k (without k' l) = if k' = k then none else find k l := by
  induction l with
  | nil => simp [without, find]
  | cons e rest ih =>
    obtain ⟨x, b⟩ := e
    simp only [without] at ih ⊢
    by_cases hx : x = k'
    · subst hx
      simp only [List.filter_cons, ne_eq, not_true_eq_false, decide_false, Bool.false_eq_true,
        if_false, ih, find]
      split <;> rfl
    · simp only [List.filter_cons, ne_eq, hx, not_false_eq_true, decide_true, if_true, find, ih]
      by_cases hxk : x = k
      · have : ¬ k' = k := fun he => hx (hxk.trans he.symm)
        simp [hxk, this]
      · simp [hxk]

@[simp]
theorem get?_empty (k : κ) : (empty : Keyed κ α).get? k = none := rfl

theorem get?_put (t : Keyed κ α) (k k' : κ) (a : α) :
    (t.put k a).get? k' = if k = k' then some a else t.get? k' :=
  find_place k' k a t.entries

theorem get?_erase (t : Keyed κ α) (k k' : κ) :
    (t.erase k).get? k' = if k = k' then none else t.get? k' :=
  find_without k' k t.entries

theorem contains_iff (t : Keyed κ α) (k : κ) : t.contains k = true ↔ k ∈ t.keys := by
  simp only [contains, get?, keys]
  exact find_isSome_iff k t.entries

end Keyed

end Schemata
