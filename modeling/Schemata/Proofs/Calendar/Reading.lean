import Schemata.Calendar.Reading
import Schemata.Proofs.Calendar.Date
import Schemata.Proofs.Text.Digits

/-! The text of a point in time reads back as that point in time, and what is read can be written. -/
namespace Schemata.Calendar
open Text

/-- A point in time that a clock can show. -/
structure Instant.Proper (t : Instant) : Prop where
  inRange : inRange t.seconds = true
  nanos : t.nanos < 2000000000
  /-- Only the last second of a minute has a leap second behind it. -/
  leap : 1000000000 ≤ t.nanos → t.seconds % 60 = 59

instance (t : Instant) : Decidable t.Proper :=
  decidable_of_iff (inRange t.seconds = true ∧ t.nanos < 2000000000 ∧
      (1000000000 ≤ t.nanos → t.seconds % 60 = 59))
    ⟨fun ⟨hrange, hnanos, hleap⟩ => ⟨hrange, hnanos, hleap⟩, fun h => ⟨h.inRange, h.nanos, h.leap⟩⟩

/-! ### Numbers and marks -/

theorem not_isBlank_of_isDigit {c : Char} (h : isDigit c = true) : isBlank c = false := by
  simp only [isDigit, Bool.and_eq_true, decide_eq_true_eq, Char.le_def, UInt32.le_iff_toNat_le] at h
  have hlow : 48 ≤ c.toNat := h.1
  have hhigh : c.toNat ≤ 57 := h.2
  simp [isBlank]
  omega

theorem skipBlanks_cons {c : Char} (h : isBlank c = false) (cs : List Char) :
    skipBlanks (c :: cs) = c :: cs := by
  simp [skipBlanks, h]

/-- Digits in front are not skipped. -/
theorem exists_digit (width n : Nat) : ∃ c cs, isDigit c = true ∧ paddedDigits width n = c :: cs := by
  cases h : paddedDigits width n with
  | nil => exact absurd h (paddedDigits_ne_nil width n)
  | cons c cs => exact ⟨c, cs, isDigit_of_mem_paddedDigits (h ▸ List.mem_cons_self), rfl⟩

theorem skipBlanks_digits (width n : Nat) (rest : List Char) :
    skipBlanks (paddedDigits width n ++ rest) = paddedDigits width n ++ rest := by
  obtain ⟨c, cs, hc, h⟩ := exists_digit width n
  rw [h, List.cons_append, skipBlanks_cons (not_isBlank_of_isDigit hc)]

theorem mark?_cons {c : Char} (h : isBlank c = false) (cs : List Char) :
    mark? c (c :: cs) = some cs := by
  simp [mark?, skipBlanks_cons h]

theorem number?_digits {most width n : Nat} {rest : List Char}
    (hlen : (paddedDigits width n).length ≤ most) (h : rest.takeWhile isDigit = []) :
    number? most (paddedDigits width n ++ rest) = some (n, rest) := by
  have hne : (paddedDigits width n).isEmpty = false := by simpa using paddedDigits_ne_nil width n
  simp only [number?, takeWhile_paddedDigits h, List.take_of_length_le hlen, hne, Bool.false_eq_true,
    if_false, digitsValue_paddedDigits, List.drop_left]

theorem part?_digits {low high n : Nat} {rest : List Char} (h99 : n < 100)
    (h : rest.takeWhile isDigit = []) (hlow : low ≤ n) (hhigh : n ≤ high) :
    part? low high (paddedDigits 2 n ++ rest) = some (n, rest) := by
  have hlen : (paddedDigits 2 n).length ≤ 2 := Nat.le_of_eq (length_paddedDigits (by decide) h99)
  simp only [part?, skipBlanks_digits, number?_digits hlen h, bind, Option.bind]
  rw [if_pos ⟨hlow, hhigh⟩]

theorem takeWhile_cons_mark {c : Char} (h : isDigit c = false) (cs : List Char) :
    (c :: cs).takeWhile isDigit = [] := by
  simp [h]

/-! ### Date and time -/

theorem year?_of_digit {c : Char} (hc : isDigit c = true) (cs : List Char) :
    year? (c :: cs) = (number? 4 (c :: cs)).map fun r => ((r.1 : Int), r.2) := by
  have hminus : c ≠ '-' := fun he => absurd (he ▸ hc) (by decide)
  have hplus : c ≠ '+' := fun he => absurd (he ▸ hc) (by decide)
  unfold year?
  rw [skipBlanks_cons (not_isBlank_of_isDigit hc)]
  split
  · rename_i h; exact absurd (List.cons.inj h).1 hminus
  · rename_i h; exact absurd (List.cons.inj h).1 hplus
  · rfl

/-- Behind a sign, a year has as many digits as there are. -/
theorem number?_of_sign (width n : Nat) (rest : List Char) :
    number? (paddedDigits width n ++ '-' :: rest).length (paddedDigits width n ++ '-' :: rest) =
      some (n, '-' :: rest) := by
  refine number?_digits ?_ (takeWhile_cons_mark (by decide) rest)
  rw [List.length_append]
  exact Nat.le_add_right _ _

theorem year?_yearDigits (year : Int) (rest : List Char) :
    year? (yearDigits year ++ '-' :: rest) = some (year, '-' :: rest) := by
  unfold yearDigits
  split
  · rename_i hy
    simp only [Bool.and_eq_true, decide_eq_true_eq] at hy
    have hlen : (paddedDigits 4 year.toNat).length ≤ 4 :=
      Nat.le_of_eq (length_paddedDigits (by decide) (show year.toNat < 10000 by omega))
    have hnumber := number?_digits hlen (takeWhile_cons_mark (by decide : isDigit '-' = false) rest)
    obtain ⟨c, cs, hc, hcs⟩ := exists_digit 4 year.toNat
    rw [hcs, List.cons_append] at hnumber ⊢
    rw [year?_of_digit hc, hnumber, Option.map_some, Int.toNat_of_nonneg hy.1]
  · by_cases hneg : year < 0
    · simp only [if_pos hneg, List.cons_append, year?, skipBlanks_cons (by decide : isBlank '-' = false),
        number?_of_sign, Option.map_some]
      congr 2
      omega
    · simp only [if_neg hneg, List.cons_append, year?, skipBlanks_cons (by decide : isBlank '+' = false),
        number?_of_sign, Option.map_some]
      congr 2
      omega

theorem date?_date (d : Date) (h : d.Valid) {rest : List Char} (hrest : rest.takeWhile isDigit = []) :
    date? (yearDigits d.year ++ '-' :: paddedDigits 2 d.month ++ '-' :: paddedDigits 2 d.day ++ rest) =
      some (d, rest) := by
  have hday : d.day < 100 := by have hd := h.day_le; omega
  have hmonth : d.month < 100 := by have hm := h.month.2; omega
  have hd := part?_digits hday hrest h.day.1 h.day.2
  have hm : part? 1 12 (paddedDigits 2 d.month ++ '-' :: (paddedDigits 2 d.day ++ rest)) =
      some (d.month, '-' :: (paddedDigits 2 d.day ++ rest)) :=
    part?_digits hmonth (takeWhile_cons_mark (by decide) _) h.month.1 h.month.2
  simp only [List.append_assoc, List.cons_append, date?, year?_yearDigits, bind, Option.bind,
    mark?_cons (by decide : isBlank '-' = false), hm, hd]
  rfl

/-! ### The time of day -/

/-- A fraction is read from as many digits as are written. -/
theorem fraction?_digits {width n : Nat} (hw : 0 < width) (hw9 : width ≤ 9) (h : n < Nat.pow 10 width) :
    fraction? ('.' :: paddedDigits width n ++ ['Z']) = some (Nat.pow 10 (9 - width) * n, ['Z']) := by
  have htake : (paddedDigits width n ++ ['Z']).takeWhile isDigit = paddedDigits width n :=
    takeWhile_paddedDigits (takeWhile_cons_mark (by decide) [])
  have hne : (paddedDigits width n).isEmpty = false := by simpa using paddedDigits_ne_nil width n
  have hlen := length_paddedDigits hw h
  have hnine : (paddedDigits width n ++ List.replicate 9 '0').take 9 =
      paddedDigits width n ++ List.replicate (9 - width) '0' := by
    rw [List.take_append, hlen, List.take_of_length_le (by omega), List.take_replicate]
    congr 2
    omega
  simp only [List.cons_append, fraction?, htake, hne, Bool.false_eq_true, if_false, hnine,
    digitsValue_append_zeros, digitsValue_paddedDigits, List.drop_left]

theorem fraction?_fraction (t : Instant) :
    fraction? (t.fraction ++ ['Z']) = some (t.nanos % 1000000000, ['Z']) := by
  have hn : t.nanos % 1000000000 < 1000000000 := Nat.mod_lt _ (by decide)
  unfold Instant.fraction
  generalize t.nanos % 1000000000 = n at hn
  simp only []
  split
  · rename_i h0
    rw [h0]
    rfl
  · split
    · rename_i h6
      rw [fraction?_digits (by decide) (by decide) (show n / 1000000 < 1000 by omega)]
      congr 2
      show 1000000 * (n / 1000000) = n
      omega
    · split
      · rename_i h3
        rw [fraction?_digits (by decide) (by decide) (show n / 1000 < 1000000 by omega)]
        congr 2
        show 1000 * (n / 1000) = n
        omega
      · rw [fraction?_digits (by decide) (by decide) (show n < 1000000000 by omega)]
        congr 2
        show 1 * n = n
        omega

theorem takeWhile_fraction (t : Instant) : (t.fraction ++ ['Z']).takeWhile isDigit = [] := by
  unfold Instant.fraction
  simp only []
  repeat' split
  all_goals exact takeWhile_cons_mark (by decide) _

namespace Instant
variable {t : Instant}

theorem secondOfDay_lt (t : Instant) : t.secondOfDay < 86400 := by
  unfold secondOfDay
  omega

/-- The second that is shown tells the second of the day and whether it is a leap second. -/
theorem Proper.second (h : t.Proper) :
    t.second ≤ 60 ∧ min t.second 59 = t.secondOfDay % 60 ∧
      t.nanos % 1000000000 + (if t.second = 60 then 1000000000 else 0) = t.nanos := by
  obtain ⟨-, hnanos, hleap⟩ := h
  have hmod : t.secondOfDay % 60 = (t.seconds % 60).toNat := by unfold secondOfDay; omega
  unfold Instant.second
  by_cases hn : 1000000000 ≤ t.nanos
  · have h59 : t.secondOfDay % 60 = 59 := by rw [hmod, hleap hn]; rfl
    have hone : t.nanos / 1000000000 = 1 := by omega
    rw [h59, hone]
    refine ⟨by decide, by decide, ?_⟩
    simp
    omega
  · have hzero : t.nanos / 1000000000 = 0 := by omega
    rw [hzero, Nat.add_zero, if_neg (by omega)]
    omega

theorem timeOfDay?_time (h : t.Proper) :
    timeOfDay? (paddedDigits 2 t.hour ++ ':' :: paddedDigits 2 t.minute ++
        ':' :: paddedDigits 2 t.second ++ (t.fraction ++ ['Z'])) =
      some (t.secondOfDay, t.nanos, ['Z']) := by
  have hday := t.secondOfDay_lt
  obtain ⟨h60, hsecond, hnanos⟩ := h.second
  have hhour : t.hour ≤ 23 := by unfold hour; omega
  have hminute : t.minute ≤ 59 := by unfold minute; omega
  have hh : part? 0 23 (paddedDigits 2 t.hour ++ ':' :: (paddedDigits 2 t.minute ++ ':' ::
      (paddedDigits 2 t.second ++ (t.fraction ++ ['Z'])))) = some (t.hour, _) :=
    part?_digits (by omega) (takeWhile_cons_mark (by decide) _) (Nat.zero_le _) hhour
  have hm : part? 0 59 (paddedDigits 2 t.minute ++ ':' ::
      (paddedDigits 2 t.second ++ (t.fraction ++ ['Z']))) = some (t.minute, _) :=
    part?_digits (by omega) (takeWhile_cons_mark (by decide) _) (Nat.zero_le _) hminute
  have hs : part? 0 60 (paddedDigits 2 t.second ++ (t.fraction ++ ['Z'])) = some (t.second, _) :=
    part?_digits (by omega) (takeWhile_fraction t) (Nat.zero_le _) h60
  have hsum : t.hour * 3600 + t.minute * 60 + min t.second 59 = t.secondOfDay := by
    rw [hsecond]
    unfold hour minute
    omega
  simp only [List.append_assoc, List.cons_append, timeOfDay?, hh, hm, hs, bind, Option.bind,
    mark?_cons (by decide : isBlank ':' = false), fraction?_fraction, hsum, hnanos]
  rfl

theorem offset?_zulu : offset? ['Z'] = some (0, []) := by decide

/-- **The text of a point in time reads back as that point in time.** -/
theorem read?_rfc3339 (h : t.Proper) : read? t.rfc3339 = some t := by
  have hdate := date?_date t.date (Date.ofDays_valid _)
    (takeWhile_cons_mark (by decide : isDigit 'T' = false) (paddedDigits 2 t.hour ++
      ':' :: (paddedDigits 2 t.minute ++ ':' :: (paddedDigits 2 t.second ++ (t.fraction ++ ['Z'])))))
  have htime := timeOfDay?_time h
  have hlocal : t.date.toDays * 86400 + t.secondOfDay = t.seconds := by
    rw [date, Date.toDays_ofDays]
    unfold secondOfDay
    omega
  simp only [List.append_assoc, List.cons_append] at hdate htime
  simp only [read?, rfc3339, dateAndTime, String.toList_ofList, List.append_assoc, List.cons_append,
    hdate, htime, bind, Option.bind, offset?_zulu, hlocal, Int.sub_zero]
  rw [if_pos ⟨by decide, by decide, by decide, h.inRange, h.inRange⟩]

end Instant

/-! ### What can be read -/

theorem of_fraction? {cs rest : List Char} {nanos : Nat} (h : fraction? cs = some (nanos, rest)) :
    nanos < 1000000000 := by
  unfold fraction? at h
  split at h
  · rename_i cs
    simp only [] at h
    split at h
    · cases h
    · simp only [Option.some.injEq, Prod.mk.injEq] at h
      rw [← h.1]
      have hlen : ((cs.takeWhile isDigit ++ List.replicate 9 '0').take 9).length = 9 := by
        simp
      have hdigits : ∀ c ∈ (cs.takeWhile isDigit ++ List.replicate 9 '0').take 9,
          isDigit c = true := by
        intro c hc
        rcases List.mem_append.1 (List.mem_of_mem_take hc) with hc | hc
        · exact List.all_eq_true.1 List.all_takeWhile c hc
        · rw [List.eq_of_mem_replicate hc]
          decide
      have hlt := digitsValue_lt hdigits
      rwa [hlen] at hlt
  · simp only [Option.some.injEq, Prod.mk.injEq] at h
    omega

theorem of_timeOfDay? {cs rest : List Char} {second nanos : Nat}
    (h : timeOfDay? cs = some (second, nanos, rest)) :
    nanos < 2000000000 ∧ (1000000000 ≤ nanos → second % 60 = 59) := by
  simp only [timeOfDay?, bind, Option.bind_eq_some_iff, pure, Option.some.injEq,
    Prod.mk.injEq] at h
  obtain ⟨_, -, _, -, _, -, _, -, r, -, ⟨n, cs⟩, hn, hsecond, hnanos, -⟩ := h
  have hlt := of_fraction? hn
  simp only [] at hsecond hnanos
  split at hnanos
  · omega
  · omega

theorem of_hoursAndMinutes? {cs rest : List Char} {offset : Int}
    (h : hoursAndMinutes? cs = some (offset, rest)) : offset % 60 = 0 := by
  unfold hoursAndMinutes? at h
  split at h
  · split at h
    · simp only [] at h
      split at h
      · simp only [Option.some.injEq, Prod.mk.injEq] at h
        omega
      · cases h
    · cases h
  · cases h

/-- Offsets are whole minutes. -/
theorem of_offset? {cs rest : List Char} {offset : Int} (h : offset? cs = some (offset, rest)) :
    offset % 60 = 0 := by
  unfold offset? at h
  split at h
  · simp only [Option.some.injEq, Prod.mk.injEq] at h
    omega
  · simp only [Option.some.injEq, Prod.mk.injEq] at h
    omega
  · exact of_hoursAndMinutes? h
  · simp only [Option.map_eq_some_iff, Prod.mk.injEq] at h
    obtain ⟨r, hr, hneg, -⟩ := h
    have hmod := of_hoursAndMinutes? hr
    omega
  · simp only [Option.map_eq_some_iff, Prod.mk.injEq] at h
    obtain ⟨r, hr, hneg, -⟩ := h
    have hmod := of_hoursAndMinutes? hr
    omega
  · split at h
    · simp only [Option.some.injEq, Prod.mk.injEq] at h
      omega
    · cases h
  · cases h

/-- What is read from a text is a point in time that a clock can show. -/
theorem Instant.proper_of_read? {text : String} {t : Instant} (h : read? text = some t) :
    t.Proper := by
  simp only [read?, bind, Option.bind_eq_some_iff] at h
  obtain ⟨⟨date, cs⟩, -, h⟩ := h
  cases cs with
  | nil => cases h
  | cons c cs =>
    simp only [Option.bind_eq_some_iff] at h
    obtain ⟨⟨second, nanos, cs⟩, htime, ⟨offset, rest⟩, hoffset, h⟩ := h
    have hsecond := of_timeOfDay? htime
    have hminutes := of_offset? hoffset
    simp only [] at h
    split at h
    · rename_i hc
      simp only [Option.some.injEq] at h
      subst h
      refine ⟨hc.2.2.2.2, hsecond.1, fun hleap => ?_⟩
      have h59 := hsecond.2 hleap
      show (date.toDays * 86400 + second - offset) % 60 = 59
      omega
    · cases h

end Schemata.Calendar
