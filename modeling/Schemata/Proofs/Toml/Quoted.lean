import Schemata.Toml.Quoted

/-! Every string reads back from between its quotes, whichever form was chosen for it. -/
namespace Schemata.Toml
open Text

/-! ### Characters -/

theorem isPlain_of_not_isControl {c : Char} (h : isControl c = false) (hn : c ≠ '\n') :
    isPlain c = true := by
  simp only [isControl, Bool.or_eq_false_iff, Bool.and_eq_false_iff, decide_eq_false_iff_not,
    bne_eq_false_iff_eq, beq_eq_false_iff_ne, ne_eq] at h
  simp only [isPlain, Bool.or_eq_true, beq_iff_eq, Bool.and_eq_true, decide_eq_true_eq, bne_iff_ne]
  obtain ⟨(hlow | htab) | hfeed, hdel⟩ := h
  · exact .inr ⟨by omega, hdel⟩
  · exact .inl htab
  · exact absurd hfeed hn

theorem lt_of_isControl {c : Char} (h : isControl c = true) : c.toNat < 128 := by
  simp only [isControl, Bool.or_eq_true, Bool.and_eq_true, decide_eq_true_eq, beq_iff_eq] at h
  omega

/-- How a character other than a line feed stands for itself between double quotes. -/
inductive Escaped (c : Char) : List Char → Prop
  | plain (hp : isPlain c = true) (hb : c ≠ '\\') : Escaped c [c]
  | letter (l : Char) (hl : unescape? l = some c) (hs : isSpace l = false) (hn : l ≠ '\n') :
    Escaped c ['\\', l]
  | code (a b d e : Char) (va vb vd ve : Nat) (ha : hexValue? a = some va)
    (hb : hexValue? b = some vb) (hd : hexValue? d = some vd) (he : hexValue? e = some ve)
    (hv : scalar? (16 * (16 * (16 * va + vb) + vd) + ve) = some c) : Escaped c ['\\', 'u', a, b, d, e]

theorem Escaped.head? {c : Char} {piece : List Char} (h : Escaped c piece) (tail : List Char) :
    (piece ++ tail).head? = some c ∨ (piece ++ tail).head? = some '\\' := by
  cases h with
  | plain => exact .inl rfl
  | letter => exact .inr rfl
  | code => exact .inr rfl

theorem hexValue?_digit : ∀ n < 16, hexValue? (Nat.digitChar n).toUpper = some n := by decide

theorem scalar?_toNat {c : Char} (h : c.toNat < 128) : scalar? c.toNat = some c := by
  rw [scalar?, if_pos (.inl (by omega)), Char.ofNat_toNat]

theorem char_eq {c d : Char} (h : c.toNat = d.toNat) : c = d := Char.toNat_inj.1 h

theorem escaped_of_escapeLetter? {c letter : Char} (h : escapeLetter? c = some letter) :
    Escaped c ['\\', letter] := by
  unfold escapeLetter? at h
  split at h
  · rename_i hc
    obtain rfl : c = '\x08' := char_eq hc
    cases h
    exact .letter _ rfl rfl (by decide)
  split at h
  · subst c
    cases h
    exact .letter _ rfl rfl (by decide)
  split at h
  · rename_i hc
    obtain rfl : c = '\x0c' := char_eq hc
    cases h
    exact .letter _ rfl rfl (by decide)
  split at h
  · subst c
    cases h
    exact .letter _ rfl rfl (by decide)
  split at h
  · subst c
    cases h
    exact .letter _ rfl rfl (by decide)
  · cases h

theorem escaped_escapeControl {c : Char} (h : c.toNat < 128) : Escaped c (escapeControl c) := by
  have hdigits : hexDigits 4 c.toNat = [Nat.digitChar (c.toNat / 16 / 16 / 16 % 16),
      Nat.digitChar (c.toNat / 16 / 16 % 16), Nat.digitChar (c.toNat / 16 % 16),
      Nat.digitChar (c.toNat % 16)] := by
    simp [hexDigits]
  rw [escapeControl, hdigits]
  have hmod (n : Nat) : n % 16 < 16 := Nat.mod_lt _ (by decide)
  have hvalue : 16 * (16 * (16 * (c.toNat / 16 / 16 / 16 % 16) + c.toNat / 16 / 16 % 16) +
      c.toNat / 16 % 16) + c.toNat % 16 = c.toNat := by omega
  exact .code _ _ _ _ _ _ _ _ (hexValue?_digit _ (hmod _)) (hexValue?_digit _ (hmod _))
    (hexValue?_digit _ (hmod _)) (hexValue?_digit _ (hmod _)) (by rw [hvalue, scalar?_toNat h])

theorem escaped_escapeChar {c : Char} (hn : c ≠ '\n') : Escaped c (escapeChar c) := by
  unfold escapeChar
  split
  · exact escaped_of_escapeLetter? ‹_›
  · rename_i hl
    split
    · exact escaped_escapeControl (lt_of_isControl ‹_›)
    · rename_i hc
      have hb : c ≠ '\\' := fun he => by subst he; exact absurd hl (by decide)
      exact .plain (isPlain_of_not_isControl (by simpa using hc) hn) hb

theorem unescape?_u : unescape? 'u' = none := rfl

theorem codeLength?_u : codeLength? 'u' = some 4 := rfl

/-! ### On one line -/

theorem readLine?_escaped {c : Char} {piece : List Char} (h : Escaped c piece) (hq : c ≠ '"')
    (tail : List Char) :
    readLine? '"' true .plain (piece ++ tail) =
      (readLine? '"' true .plain tail).map fun r => (c :: r.1, r.2) := by
  cases h with
  | plain hp hb => simp [readLine?, hq, hb, hp]
  | letter l hl hs hn => simp [readLine?, hl]
  | code a b d e va vb vd ve ha hb hd he hv =>
    simp [readLine?, unescape?_u, codeLength?_u, ha, hb, hd, he, hv]

/-- What is escaped for one line reads back up to the closing quote. -/
theorem readLine?_escapeLine (cs rest : List Char) :
    readLine? '"' true .plain (escapeLine cs ++ '"' :: rest) = some (cs, rest) := by
  induction cs with
  | nil => simp [escapeLine, readLine?]
  | cons c cs ih =>
    have hpiece : readLine? '"' true .plain ((if c = '\n' then ['\\', 'n'] else
        if c = '"' then ['\\', '"'] else escapeChar c) ++ (escapeLine cs ++ '"' :: rest)) =
        some (c :: cs, rest) := by
      by_cases hn : c = '\n'
      · subst hn
        simp [readLine?, unescape?, ih]
      · by_cases hq : c = '"'
        · subst hq
          simp [readLine?, unescape?, ih]
        · rw [if_neg hn, if_neg hq, readLine?_escaped (escaped_escapeChar hn) hq, ih]
          rfl
    rw [escapeLine, List.append_assoc]
    exact hpiece

/-- What stands as it is reads back up to the closing mark. -/
theorem readLine?_literal {mark : Char} {cs : List Char} (hm : mark ∉ cs)
    (hp : ∀ c ∈ cs, isPlain c = true) (rest : List Char) :
    readLine? mark false .plain (cs ++ mark :: rest) = some (cs, rest) := by
  induction cs with
  | nil => simp [readLine?]
  | cons c cs ih =>
    rw [List.mem_cons, not_or] at hm
    have hc := hp c List.mem_cons_self
    have hrest := ih hm.2 fun x hx => hp x (List.mem_cons_of_mem _ hx)
    simp [readLine?, Ne.symm hm.1, hc, hrest]

/-! ### In a block -/

theorem readBlock?_escaped {c : Char} {piece : List Char} (h : Escaped c piece) (hq : c ≠ '"')
    {marks : Nat} (hm : marks < 3) (tail : List Char) :
    readBlock? '"' true (.text false marks) (piece ++ tail) =
      (readBlock? '"' true (.text false 0) tail).map fun r =>
        (List.replicate marks '"' ++ c :: r.1, r.2) := by
  have h3 : ¬ 3 ≤ marks := by omega
  cases h with
  | plain hp hb => simp [readBlock?, hq, hb, hp, h3]
  | letter l hl hs hn => simp [readBlock?, hl, hs, hn, h3, Option.map_map, Function.comp_def]
  | code a b d e va vb vd ve ha hb hd he hv =>
    have hs : isSpace 'u' = false := rfl
    simp [readBlock?, unescape?_u, codeLength?_u, ha, hb, hd, he, hv, hs, h3, Option.map_map,
      Function.comp_def]

/-- The closing marks, with marks of the text right before them. -/
theorem readBlock?_end {mark : Char} {escapes : Bool} {marks : Nat} (hm : marks < 3)
    {rest : List Char} (hr : rest.head? ≠ some mark) :
    readBlock? mark escapes (.text false marks) (List.replicate 3 mark ++ rest) =
      some (List.replicate marks mark, rest) := by
  have hthree : readBlock? mark escapes (.text false (marks + 3)) rest =
      some (List.replicate marks mark, rest) := by
    cases rest with
    | nil => simp [readBlock?]
    | cons c rest =>
      have hc : c ≠ mark := by simpa using hr
      simp [readBlock?, hc]
  have h1 : marks < 5 := by omega
  have h2 : marks + 1 < 5 := by omega
  have h3 : marks + 1 + 1 < 5 := by omega
  simpa [List.replicate, readBlock?, h1, h2, h3] using hthree

/-- What is escaped for a block reads back, `run` marks of it having been read already. -/
theorem readBlock?_escapeBlock {run : Nat} (hrun : run < 3) (cs : List Char) {rest : List Char}
    (hr : rest.head? ≠ some '"') :
    readBlock? '"' true (.text false run) (escapeBlock run cs ++ (List.replicate 3 '"' ++ rest)) =
      some (List.replicate run '"' ++ cs, rest) := by
  induction cs generalizing run with
  | nil => rw [escapeBlock, List.nil_append, readBlock?_end hrun hr, List.append_nil]
  | cons c cs ih =>
    have hzero := @ih 0 (by decide)
    have h3 : ¬ 3 ≤ run := by omega
    rw [List.replicate_zero, List.nil_append] at hzero
    by_cases hq : c = '"'
    · subst hq
      by_cases htwo : run < 2
      · have hnext := @ih (run + 1) (by omega)
        have h5 : run < 5 := by omega
        have hsame : List.replicate (run + 1) '"' ++ cs = List.replicate run '"' ++ '"' :: cs := by
          rw [List.replicate_succ', List.append_assoc]
          rfl
        rw [hsame] at hnext
        simpa [escapeBlock, htwo, readBlock?, h5] using hnext
      · simp [escapeBlock, htwo, readBlock?, h3, isSpace, unescape?] at hzero ⊢
        rw [hzero]
    · by_cases hn : c = '\n'
      · subst hn
        simp [escapeBlock, readBlock?, h3] at hzero ⊢
        rw [hzero]
      · rw [escapeBlock, if_neg hq, if_neg hn, List.append_assoc,
          readBlock?_escaped (escaped_escapeChar hn) hq hrun, hzero]
        rfl

theorem le_longestRunFrom (mark : Char) (run : Nat) (cs : List Char) :
    run ≤ longestRunFrom mark run cs := by
  induction cs generalizing run with
  | nil => exact Nat.le_refl _
  | cons c cs ih =>
    rw [longestRunFrom]
    split
    · exact Nat.le_trans (Nat.le_succ _) (ih _)
    · exact Nat.le_max_left _ _

/-- What stands as it is in a block reads back when no run of marks in it could end the block. -/
theorem readBlock?_literal {mark : Char} {run : Nat} {cs : List Char}
    (hrun : longestRunFrom mark run cs < 3) (hp : ∀ c ∈ cs, isPlain c = true ∨ c = '\n')
    {rest : List Char} (hr : rest.head? ≠ some mark) :
    readBlock? mark false (.text false run) (cs ++ (List.replicate 3 mark ++ rest)) =
      some (List.replicate run mark ++ cs, rest) := by
  induction cs generalizing run with
  | nil =>
    have hmarks : run < 3 := hrun
    rw [List.nil_append, readBlock?_end hmarks hr, List.append_nil]
  | cons c cs ih =>
    have hrest := fun x hx => hp x (List.mem_cons_of_mem _ hx)
    have hlt := Nat.lt_of_le_of_lt (le_longestRunFrom mark run (c :: cs)) hrun
    rw [longestRunFrom] at hrun
    by_cases hc : c = mark
    · subst hc
      rw [if_pos rfl] at hrun
      have hnext := ih hrun hrest
      have h5 : run < 5 := by omega
      have hsame : List.replicate (run + 1) c ++ cs = List.replicate run c ++ c :: cs := by
        rw [List.replicate_succ', List.append_assoc]
        rfl
      rw [hsame] at hnext
      simpa [readBlock?, h5] using hnext
    · rw [if_neg hc] at hrun
      have hzero := @ih 0 (by omega) hrest
      have hplain := hp c List.mem_cons_self
      have h3 : ¬ 3 ≤ run := by omega
      rw [List.replicate_zero, List.nil_append] at hzero
      simpa [readBlock?, hc, h3, hplain] using hzero

/-! ### In any form -/

/-- What comes behind a string is not a quote. -/
def NoQuote (rest : List Char) : Prop := rest.head? ≠ some '"' ∧ rest.head? ≠ some '\''

theorem dropLineFeed_of_ne {cs : List Char} (h : cs.head? ≠ some '\n') : dropLineFeed cs = cs := by
  unfold dropLineFeed
  split
  · exact absurd rfl h
  · rfl

/-- An escaped text begins with the characters it is to begin with. -/
theorem head?_escapeBlock {cs : List Char} (h : cs.head? ≠ some '\n') {tail : List Char}
    (ht : tail.head? ≠ some '\n') : (escapeBlock 0 cs ++ tail).head? ≠ some '\n' := by
  cases cs with
  | nil => exact ht
  | cons c cs =>
    have hc : c ≠ '\n' := by simpa using h
    rw [escapeBlock]
    by_cases hq : c = '"'
    · simp [hq]
    · rw [if_neg hq, if_neg hc, List.append_assoc]
      rcases (escaped_escapeChar hc).head? (escapeBlock 0 cs ++ tail) with he | he
      · simpa [he] using hc
      · simp [he]

theorem head?_escapeLine (c : Char) (cs tail : List Char) :
    (escapeLine (c :: cs) ++ tail).head? ≠ some '"' := by
  rw [escapeLine, List.append_assoc]
  by_cases hn : c = '\n'
  · simp [hn]
  · by_cases hq : c = '"'
    · simp [hq]
    · rw [if_neg hn, if_neg hq]
      rcases (escaped_escapeChar hn).head? (escapeLine cs ++ tail) with he | he
      · simpa [he] using hq
      · simp [he]

theorem readQuoted?_double {body : List Char} (h : ∀ tail, body ≠ '"' :: '"' :: tail) :
    readQuoted? ('"' :: body) = readLine? '"' true .plain body := by
  unfold readQuoted?
  split
  · rename_i he; exact absurd (List.cons.inj he).2 (h _)
  · rename_i he; exact absurd (List.cons.inj he).1 (by decide)
  · rename_i he; rw [(List.cons.inj he).2]
  · rename_i he; exact absurd (List.cons.inj he).1 (by decide)
  · rename_i _ _ he _; exact absurd rfl (he body)

theorem readQuoted?_single {body : List Char} (h : ∀ tail, body ≠ '\'' :: '\'' :: tail) :
    readQuoted? ('\'' :: body) = readLine? '\'' false .plain body := by
  unfold readQuoted?
  split
  · rename_i he; exact absurd (List.cons.inj he).1 (by decide)
  · rename_i he; exact absurd (List.cons.inj he).2 (h _)
  · rename_i he; exact absurd (List.cons.inj he).1 (by decide)
  · rename_i he; rw [(List.cons.inj he).2]
  · rename_i he; exact absurd rfl (he body)

/-- A string in double quotes on one line. -/
theorem readQuoted?_line (cs : List Char) {rest : List Char} (h : NoQuote rest) :
    readQuoted? ('"' :: escapeLine cs ++ ['"'] ++ rest) = some (cs, rest) := by
  rw [List.append_assoc, List.cons_append, List.singleton_append, readQuoted?_double,
    readLine?_escapeLine]
  intro tail he
  cases cs with
  | nil => exact h.1 (by rw [(List.cons.inj he).2]; rfl)
  | cons c cs => exact head?_escapeLine c cs _ (by rw [he]; rfl)

/-- A string in single quotes on one line. -/
theorem readQuoted?_literalLine {cs : List Char} (hm : '\'' ∉ cs) (hp : ∀ c ∈ cs, isPlain c = true)
    {rest : List Char} (h : NoQuote rest) :
    readQuoted? ('\'' :: cs ++ ['\''] ++ rest) = some (cs, rest) := by
  rw [List.append_assoc, List.cons_append, List.singleton_append, readQuoted?_single,
    readLine?_literal hm hp]
  intro tail he
  cases cs with
  | nil => exact h.2 (by rw [(List.cons.inj he).2]; rfl)
  | cons c cs => exact hm (by rw [← (List.cons.inj he).1]; exact List.mem_cons_self)

/-- A line feed behind the opening marks is written when there is one in the text. -/
theorem dropLineFeed_lines {lines : Bool} {cs : List Char} (h : lines = false → cs.head? ≠ some '\n') :
    dropLineFeed ((if lines then ['\n'] else []) ++ cs) = cs := by
  cases lines with
  | true => rfl
  | false => exact dropLineFeed_of_ne (h rfl)

theorem head?_of_contains {cs : List Char} (h : cs.contains '\n' = false) : cs.head? ≠ some '\n' := by
  intro he
  have hmem := List.mem_of_mem_head? (Option.mem_def.2 he)
  simp [hmem] at h

/-- A string in three double quotes. -/
theorem readQuoted?_block (cs : List Char) {rest : List Char} (h : NoQuote rest) :
    readQuoted? (triple '"' (cs.contains '\n') (escapeBlock 0 cs) ++ rest) = some (cs, rest) := by
  have hread := readBlock?_escapeBlock (by decide : 0 < 3) cs h.1
  have hdrop : dropLineFeed ((if cs.contains '\n' then ['\n'] else []) ++
      (escapeBlock 0 cs ++ (List.replicate 3 '"' ++ rest))) =
      escapeBlock 0 cs ++ (List.replicate 3 '"' ++ rest) :=
    dropLineFeed_lines fun hl => head?_escapeBlock (head?_of_contains hl) (by simp [List.replicate])
  have hshape : triple '"' (cs.contains '\n') (escapeBlock 0 cs) ++ rest =
      '"' :: '"' :: '"' :: ((if cs.contains '\n' then ['\n'] else []) ++
        (escapeBlock 0 cs ++ (List.replicate 3 '"' ++ rest))) := by
    simp [triple, List.replicate]
  rw [hshape, readQuoted?, hdrop, hread]
  rfl

/-- A string in three single quotes. -/
theorem readQuoted?_literalBlock {cs : List Char} (hm : longestRun '\'' cs < 3)
    (hp : ∀ c ∈ cs, isPlain c = true ∨ c = '\n') {rest : List Char} (h : NoQuote rest) :
    readQuoted? (triple '\'' (cs.contains '\n') cs ++ rest) = some (cs, rest) := by
  have hread := readBlock?_literal hm hp h.2
  have hdrop : dropLineFeed ((if cs.contains '\n' then ['\n'] else []) ++
      (cs ++ (List.replicate 3 '\'' ++ rest))) = cs ++ (List.replicate 3 '\'' ++ rest) := by
    refine dropLineFeed_lines fun hl => ?_
    cases cs with
    | nil => simp [List.replicate]
    | cons c cs =>
      have hne := head?_of_contains hl
      exact hne
  have hshape : triple '\'' (cs.contains '\n') cs ++ rest =
      '\'' :: '\'' :: '\'' :: ((if cs.contains '\n' then ['\n'] else []) ++
        (cs ++ (List.replicate 3 '\'' ++ rest))) := by
    simp [triple, List.replicate]
  rw [hshape, readQuoted?, hdrop, hread]
  rfl

theorem not_mem_of_longestRunFrom {mark : Char} {run : Nat} {cs : List Char}
    (h : longestRunFrom mark run cs = 0) : mark ∉ cs := by
  induction cs generalizing run with
  | nil => simp
  | cons c cs ih =>
    rw [longestRunFrom] at h
    split at h
    · have hle := le_longestRunFrom mark (run + 1) cs
      omega
    · rename_i hc
      rw [List.mem_cons, not_or]
      exact ⟨Ne.symm hc, @ih 0 (by omega)⟩

/-- **Every string reads back from the form that was chosen for it.** -/
theorem readQuoted?_quoted (cs : List Char) {rest : List Char} (h : NoQuote rest) :
    readQuoted? (quoted cs ++ rest) = some (cs, rest) := by
  have hplain (hc : (!cs.any isControl) = true) : ∀ c ∈ cs, isPlain c = true ∨ c = '\n' := by
    intro c hmem
    simp only [Bool.not_eq_true', List.any_eq_false, Bool.not_eq_true] at hc
    by_cases hn : c = '\n'
    · exact .inr hn
    · exact .inl (isPlain_of_not_isControl (hc c hmem) hn)
  unfold quoted
  simp only []
  split
  · exact readQuoted?_line cs h
  split
  · rename_i hc
    simp only [Bool.and_eq_true, beq_iff_eq] at hc
    refine readQuoted?_literalLine (not_mem_of_longestRunFrom hc.2) (fun c hmem => ?_) h
    refine (hplain hc.1.1 c hmem).resolve_right fun hn => ?_
    subst hn
    simp [hmem] at hc
  split
  · exact readQuoted?_block cs h
  split
  · rename_i hc
    simp only [Bool.and_eq_true, decide_eq_true_eq] at hc
    exact readQuoted?_literalBlock (Nat.lt_succ_of_le hc.2) (hplain hc.1) h
  split
  · exact readQuoted?_block cs h
  · exact readQuoted?_line cs h

end Schemata.Toml
