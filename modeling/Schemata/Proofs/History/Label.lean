import Mathlib.Data.List.Chain
import Mathlib.Data.List.DropRight
import Schemata.Proofs.History.Name

/-! Labels in their one form.

A label is canonical when it is made of small letters and digits, with single underscores between them, and is not too
long. Whatever text a label is made from, it comes out canonical (`canonical_clean`), and a text that is canonical
already is left alone (`clean_eq_self_iff`). -/
namespace Schemata.Label

/-- A small letter or a digit. -/
def isWordChar (c : Char) : Bool := 'a' ≤ c && c ≤ 'z' || '0' ≤ c && c ≤ '9'

/-! ### Letters -/

/-- What holds of all characters up to 127 can be tried out. -/
theorem of_toNat_lt {P : Char → Prop} (h : ∀ n < 128, P (Char.ofNat n)) {c : Char} (hc : c.toNat < 128) : P c := by
  rw [← Char.ofNat_toNat c]
  exact h _ hc

theorem toNat_lt_of_isWordChar {c : Char} (h : isWordChar c = true) : c.toNat < 128 := by
  simp only [isWordChar, Bool.or_eq_true, Bool.and_eq_true, decide_eq_true_eq, Char.le_def,
    UInt32.le_iff_toNat_le] at h
  rcases h with ⟨-, hlast⟩ | ⟨-, hlast⟩ <;> exact Nat.lt_of_le_of_lt hlast (by decide)

theorem isWordChar_toLower {c : Char} (h : c.isAlphanum = true) : isWordChar c.toLower = true := by
  have hlast := (Text.toNat_of_isAlphanum h).2
  exact of_toNat_lt (P := fun c => c.isAlphanum = true → isWordChar c.toLower = true) (by decide +kernel) (by omega) h

/-- Small letters and digits are taken over as they are. -/
theorem of_isWordChar {c : Char} (h : isWordChar c = true) : c.isAlphanum = true ∧ c.toLower = c :=
  of_toNat_lt (P := fun c => isWordChar c = true → c.isAlphanum = true ∧ c.toLower = c) (by decide +kernel)
    (toNat_lt_of_isWordChar h) h

theorem ne_underscore {c : Char} (h : isWordChar c = true) : c ≠ '_' := by
  rintro rfl
  exact absurd h (by decide)

/-! ### Words with single underscores between them -/

/-- Words of small letters and digits, each underscore with a word right before it. Behind a word the list may begin
with an underscore. -/
structure Joined (inWord : Bool) (cs : List Char) : Prop where
  letters : ∀ c ∈ cs, isWordChar c = true ∨ c = '_'
  /-- No two underscores stand side by side. -/
  single : cs.IsChain fun a b => a = '_' → b ≠ '_'
  /-- An underscore needs a word before it. -/
  first : inWord = false → cs.head? ≠ some '_'

namespace Joined
variable {inWord : Bool} {c : Char} {cs ds : List Char}

theorem nil : Joined inWord [] := ⟨by simp, .nil, by simp⟩

/-- Behind a small letter or digit anything may follow, and behind an underscore only a word. -/
theorem cons (hc : isWordChar c = true ∨ c = '_') (hfirst : inWord = false → c ≠ '_')
    (h : Joined (isWordChar c) cs) : Joined inWord (c :: cs) where
  letters := List.forall_mem_cons.2 ⟨hc, h.letters⟩
  single := by
    refine List.isChain_cons.2 ⟨fun d hd he hd' => ?_, h.single⟩
    subst he hd'
    exact h.first (by decide) hd
  first := fun hw => by simpa using hfirst hw

theorem tail (h : Joined inWord (c :: cs)) : Joined (isWordChar c) cs where
  letters := (List.forall_mem_cons.1 h.letters).2
  single := (List.isChain_cons.1 h.single).2
  first := fun hc hd => by
    have he : c = '_' := (h.letters c List.mem_cons_self).resolve_left (by simp [hc])
    exact (List.isChain_cons.1 h.single).1 _ hd he rfl

theorem of_front (h : Joined inWord cs) (hp : ds <+: cs) : Joined inWord ds where
  letters := fun c hc => h.letters c (hp.subset hc)
  single := List.IsChain.prefix h.single hp
  first := fun hw hd => by
    obtain ⟨rest, rfl⟩ := hp
    exact h.first hw (by rw [List.head?_append, hd]; rfl)

end Joined

theorem joined_joinWords (inWord : Bool) (cs : List Char) : Joined inWord (joinWords inWord cs) := by
  induction cs generalizing inWord with
  | nil => exact .nil
  | cons c rest ih =>
    rw [joinWords]
    split
    · have hc := isWordChar_toLower ‹c.isAlphanum = true›
      exact .cons (.inl hc) (fun _ => ne_underscore hc) (hc ▸ ih true)
    · split
      · exact .cons (.inr rfl) (fun hw => by simp_all) (ih false)
      · have hout : inWord = false := by simpa using ‹¬inWord = true›
        exact hout ▸ ih false

theorem joinWords_eq_self {inWord : Bool} {cs : List Char} (h : Joined inWord cs) : joinWords inWord cs = cs := by
  induction cs generalizing inWord with
  | nil => rfl
  | cons c rest ih =>
    rw [joinWords]
    rcases h.letters c List.mem_cons_self with hc | rfl
    · obtain ⟨hletter, hlower⟩ := of_isWordChar hc
      rw [if_pos hletter, hlower, ih (hc ▸ h.tail)]
    · have hin : inWord = true := by
        cases inWord with
        | true => rfl
        | false => exact absurd rfl (h.first rfl)
      have hrest : joinWords false rest = rest := ih h.tail
      rw [if_neg (by decide), if_pos hin, hrest]

/-! ### Canonical labels -/

theorem dropTrailing_front (cs : List Char) : dropTrailing cs <+: cs := List.rdropWhile_prefix (· == '_') cs

theorem getLast?_dropTrailing (cs : List Char) : (dropTrailing cs).getLast? ≠ some '_' := by
  intro hlast
  have hne : dropTrailing cs ≠ [] := fun he => by simp [he] at hlast
  rw [List.getLast?_eq_getLast_of_ne_nil hne] at hlast
  have hnot : ¬ ((dropTrailing cs).getLast hne == '_') = true := List.rdropWhile_last_not (· == '_') cs hne
  exact hnot (beq_iff_eq.2 (Option.some.inj hlast))

theorem dropTrailing_eq_self {cs : List Char} (h : cs.getLast? ≠ some '_') : dropTrailing cs = cs := by
  refine List.rdropWhile_eq_self_iff.2 fun hne hlast => h ?_
  rw [List.getLast?_eq_getLast_of_ne_nil hne, beq_iff_eq.1 hlast]

/-- Words of small letters and digits with single underscores between them, not too long in all. -/
structure Canonical (label : String) : Prop where
  letters : ∀ c ∈ label.toList, isWordChar c = true ∨ c = '_'
  single : label.toList.IsChain fun a b => a = '_' → b ≠ '_'
  first : label.toList.head? ≠ some '_'
  last : label.toList.getLast? ≠ some '_'
  short : label.length ≤ longestLabel

theorem Canonical.joined {label : String} (h : Canonical label) : Joined false label.toList :=
  ⟨h.letters, h.single, fun _ => h.first⟩

/-- Whatever a label is made from, it is canonical. -/
theorem canonical_clean (text : String) : Canonical (clean text) := by
  have hlist : (clean text).toList = cleanChars text.toList := String.toList_ofList
  have hfront : cleanChars text.toList <+: (joinWords false text.toList).take longestLabel := dropTrailing_front _
  have hjoined := (joined_joinWords false text.toList).of_front (hfront.trans (List.take_prefix _ _))
  rw [← hlist] at hfront hjoined
  refine ⟨hjoined.letters, hjoined.single, hjoined.first rfl, ?_, ?_⟩
  · rw [hlist]
    exact getLast?_dropTrailing _
  · exact Nat.le_trans hfront.length_le (List.length_take_le _ _)

/-- Canonical labels are the texts that making a label leaves alone. -/
theorem clean_eq_self_iff {text : String} : clean text = text ↔ Canonical text := by
  refine ⟨fun h => h ▸ canonical_clean text, fun h => ?_⟩
  have hshort : text.toList.length ≤ longestLabel := h.short
  rw [clean, cleanChars, joinWords_eq_self h.joined, List.take_of_length_le hshort, dropTrailing_eq_self h.last,
    String.ofList_toList]

/-! ### Labels of migrations -/

theorem ofText_eq (text : String) : ofText text = if clean text = "" then auto else clean text := by
  simp [ofText, String.isEmpty_iff]

theorem ofText_ne_empty (text : String) : ofText text ≠ "" := by
  intro he
  rw [ofText] at he
  split at he
  · exact absurd he (by decide)
  · exact ‹¬_› (by rw [he]; rfl)

theorem canonical_auto : Canonical auto := clean_eq_self_iff.1 (by decide)

theorem canonical_ofText (text : String) : Canonical (ofText text) := by
  rw [ofText]
  split
  · exact canonical_auto
  · exact canonical_clean text

/-- A label that says something is taken over as it is. -/
theorem ofText_eq_self {label : String} (h : Canonical label) (hne : label ≠ "") : ofText label = label := by
  rw [ofText, clean_eq_self_iff.2 h]
  exact if_neg (by simpa using hne)

theorem canonical_initial : Canonical initial := clean_eq_self_iff.1 (by decide)

/-- What is suggested is a label already. -/
theorem canonical_suggest (changes : List Change) (first : Bool) :
    Canonical (suggest changes first) ∧ suggest changes first ≠ "" := by
  simp only [suggest]
  split
  · exact ⟨canonical_initial, by decide⟩
  · split
    · exact ⟨canonical_ofText _, ofText_ne_empty _⟩
    · exact ⟨canonical_auto, by decide⟩

end Schemata.Label
