import Schemata.Text.Digits

/-! Decimals written out are read back: the value of the digits of a number is the number. -/
namespace Schemata.Text

theorem digitsValue_append (a b : List Char) :
    digitsValue (a ++ b) = Nat.ofDigitChars 10 b (digitsValue a) := by
  simp [digitsValue, Nat.ofDigitChars_eq_foldl]

theorem digitsValue_append_zeros (a : List Char) (n : Nat) :
    digitsValue (a ++ List.replicate n '0') = Nat.pow 10 n * digitsValue a := by
  rw [digitsValue_append, Nat.ofDigitChars_replicate_zero]
  rfl

@[simp]
theorem digitsValue_paddedDigits (width n : Nat) : digitsValue (paddedDigits width n) = n := by
  have hzeros : digitsValue (List.replicate (width - (Nat.toDigits 10 n).length) '0') = 0 := by
    have h := digitsValue_append_zeros [] (width - (Nat.toDigits 10 n).length)
    rwa [List.nil_append] at h
  rw [paddedDigits, digitsValue_append, hzeros, Nat.ofDigitChars_ten_toDigits]

theorem isDigit_of_mem_paddedDigits {width n : Nat} {c : Char} (h : c ∈ paddedDigits width n) :
    isDigit c = true := by
  rcases List.mem_append.1 h with h | h
  · rw [List.eq_of_mem_replicate h]
    decide
  · exact Nat.isDigit_of_mem_toDigits (by decide) (by decide) h

theorem paddedDigits_ne_nil (width n : Nat) : paddedDigits width n ≠ [] := by
  simp [paddedDigits]

theorem le_length_paddedDigits (width n : Nat) : width ≤ (paddedDigits width n).length := by
  simp only [paddedDigits, List.length_append, List.length_replicate]
  omega

theorem length_paddedDigits_le {width most n : Nat} (hw : width ≤ most) (hpos : 0 < most) (h : n < Nat.pow 10 most) :
    (paddedDigits width n).length ≤ most := by
  have hlen := (Nat.length_toDigits_le_iff (by decide : 1 < 10) hpos).2 h
  simp only [paddedDigits, List.length_append, List.length_replicate]
  omega

theorem length_paddedDigits {width n : Nat} (hw : 0 < width) (h : n < Nat.pow 10 width) :
    (paddedDigits width n).length = width :=
  Nat.le_antisymm (length_paddedDigits_le (Nat.le_refl _) hw h) (le_length_paddedDigits width n)

theorem ofDigitChars_lt {cs : List Char} (h : ∀ c ∈ cs, isDigit c = true) (init : Nat) :
    Nat.ofDigitChars 10 cs init < (init + 1) * Nat.pow 10 cs.length := by
  induction cs generalizing init with
  | nil => simp
  | cons c rest ih =>
    have hc : c.toNat - '0'.toNat ≤ 9 := by
      have hd := h c List.mem_cons_self
      simp only [isDigit, Bool.and_eq_true, decide_eq_true_eq, Char.le_def,
        UInt32.le_iff_toNat_le] at hd
      have hhigh : c.toNat ≤ 57 := hd.2
      show c.toNat - 48 ≤ 9
      omega
    rw [Nat.ofDigitChars_cons]
    refine Nat.lt_of_lt_of_le (ih (fun x hx => h x (List.mem_cons_of_mem _ hx)) _) ?_
    calc (10 * init + (c.toNat - '0'.toNat) + 1) * Nat.pow 10 rest.length
        ≤ ((init + 1) * 10) * Nat.pow 10 rest.length := Nat.mul_le_mul_right _ (by omega)
      _ = (init + 1) * (Nat.pow 10 rest.length * 10) := by
        rw [Nat.mul_assoc, Nat.mul_comm 10]

/-- Digits stand for less than the least number that has more of them. -/
theorem digitsValue_lt {cs : List Char} (h : ∀ c ∈ cs, isDigit c = true) :
    digitsValue cs < Nat.pow 10 cs.length := by
  have hlt := ofDigitChars_lt h 0
  rwa [Nat.zero_add, Nat.one_mul] at hlt

/-- The digits of a number in front of something else are what is read as digits. -/
theorem takeWhile_paddedDigits {width n : Nat} {rest : List Char} (h : rest.takeWhile isDigit = []) :
    (paddedDigits width n ++ rest).takeWhile isDigit = paddedDigits width n := by
  rw [List.takeWhile_append_of_pos fun c hc => isDigit_of_mem_paddedDigits hc, h, List.append_nil]

end Schemata.Text
