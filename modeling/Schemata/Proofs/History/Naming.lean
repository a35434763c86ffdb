import Schemata.Proofs.Calendar.Reading
import Schemata.Proofs.Collection
import Schemata.Proofs.History.Label
import Schemata.Store.Disk

/-! Generated names read back, and the numbers that come next.

Neither the number nor the time of a name has an underscore, so that the name is cut at the right places whatever the
label is (`parse_generate`). The number that comes next is above all numbers of the history, and there is one unless
the last number of all is taken (`isAbove_nextName`). -/
namespace Schemata
open Text Calendar

/-! ### Times in names -/

namespace Calendar.Instant

/-- Two digits are enough for each part below the year. -/
theorem Proper.parts_lt {t : Instant} (h : t.Proper) :
    t.date.month < 100 ∧ t.date.day < 100 ∧ t.hour < 100 ∧ t.minute < 100 ∧ t.second < 100 := by
  have hdate : t.date.Valid := Date.ofDays_valid _
  have hmonth := hdate.month
  have hday := hdate.day_le
  have hclock := t.secondOfDay_lt
  have hsecond := h.second.1
  unfold hour minute
  omega

/-- A point in time that a clock can show, in a year of four digits. -/
structure FourDigit (t : Instant) : Prop where
  proper : t.Proper
  year : 0 ≤ t.date.year ∧ t.date.year ≤ 9999

instance (t : Instant) : Decidable t.FourDigit :=
  decidable_of_iff (t.Proper ∧ 0 ≤ t.date.year ∧ t.date.year ≤ 9999)
    ⟨fun ⟨hproper, hyear⟩ => ⟨hproper, hyear⟩, fun h => ⟨h.proper, h.year⟩⟩

namespace FourDigit
variable {t : Instant}

theorem yearDigits_eq (h : t.FourDigit) : yearDigits t.date.year = paddedDigits 4 t.date.year.toNat := by
  rw [yearDigits, if_pos (by simpa using h.year)]

theorem isDigit_of_mem_stamp (h : t.FourDigit) {c : Char} (hc : c ∈ t.stamp.toList) : isDigit c = true := by
  simp only [stamp, String.toList_ofList, stampDigits, h.yearDigits_eq, List.mem_append] at hc
  rcases hc with ((((hc | hc) | hc) | hc) | hc) | hc <;> exact isDigit_of_mem_paddedDigits hc

/-- Four digits for the year and two for each part below it. -/
theorem length_stamp (h : t.FourDigit) : t.stamp.toList.length = 14 := by
  have htwo : ∀ n < 100, (paddedDigits 2 n).length = 2 := fun n hn => length_paddedDigits (by decide) hn
  have hyear : (paddedDigits 4 t.date.year.toNat).length = 4 :=
    length_paddedDigits (by decide) (show t.date.year.toNat < 10000 by have := h.year; omega)
  obtain ⟨hmonth, hday, hhour, hminute, hsecond⟩ := h.proper.parts_lt
  simp only [stamp, String.toList_ofList, stampDigits, h.yearDigits_eq, List.length_append, hyear, htwo _ hmonth,
    htwo _ hday, htwo _ hhour, htwo _ hminute, htwo _ hsecond]

end FourDigit
end Calendar.Instant

/-! ### Names that read back -/

namespace MigrationName

theorem ne_underscore_of_isDigit {c : Char} (h : isDigit c = true) : c ≠ '_' := by
  rintro rfl
  exact absurd h (by decide)

/-- A text is cut at its first underscore. -/
theorem cut?_append {cs : List Char} (h : ∀ c ∈ cs, isDigit c = true) (rest : List Char) :
    cut? (cs ++ '_' :: rest) = some (cs, rest) := by
  have hne : ∀ c ∈ cs, decide (c ≠ '_') = true := fun c hc => decide_eq_true (ne_underscore_of_isDigit (h c hc))
  rw [cut?, List.dropWhile_append_of_pos hne, List.takeWhile_append_of_pos hne]
  simp

/-- A generated name is read as what it was generated from. -/
theorem parse?_generate (sequence : UInt32) {time : Instant} (h : time.FourDigit) (label : String) :
    parse? (generate sequence time label) = some ⟨sequence, time.stamp, Label.ofText label⟩ := by
  have hnumber : ∀ c ∈ paddedDigits 4 sequence.toNat, isDigit c = true := fun _ => isDigit_of_mem_paddedDigits
  have hstamp : ∀ c ∈ time.stamp.toList, isDigit c = true := fun _ => h.isDigit_of_mem_stamp
  have hlabel : (Label.ofText label).toList.isEmpty = false := by
    simpa [List.isEmpty_eq_false_iff] using Label.ofText_ne_empty label
  simp only [parse?, toList_generate, cut?_append hnumber, cut?_append hstamp, bind, Option.bind,
    digitsValue_paddedDigits]
  rw [if_pos ⟨le_length_paddedDigits _ _, List.all_eq_true.2 hnumber, h.length_stamp, List.all_eq_true.2 hstamp,
    by simp [hlabel], sequence.toNat_lt⟩, UInt32.ofNat_toNat, String.ofList_toList, String.ofList_toList]

theorem parse_of_parse? {name : String} {parsed : MigrationName} (h : parse? name = some parsed) :
    parse name = .ok parsed := by
  rw [parse, h]

/-- **Names read back, and labels have one form.** A name that is generated in a year of four digits parses, with its
number, the fourteen digits of its time and its label, which is `auto` when the text says nothing. The label of any
text is canonical and is made from itself, so that a label that is suggested comes back as it is. -/
theorem parse_generate :
    (∀ (sequence : UInt32) (time : Instant) (text : String), time.FourDigit →
      parse (generate sequence time text) =
          .ok ⟨sequence, time.stamp, if Label.clean text = "" then "auto" else Label.clean text⟩ ∧
        time.stamp.length = 14 ∧ ∀ c ∈ time.stamp.toList, isDigit c = true) ∧
    (∀ text : String, Label.Canonical (Label.clean text) ∧ Label.clean (Label.clean text) = Label.clean text) ∧
    ∀ (changes : List Change) (first : Bool) (sequence : UInt32) (time : Instant), time.FourDigit →
      parse (generate sequence time (Label.suggest changes first)) =
        .ok ⟨sequence, time.stamp, Label.suggest changes first⟩ := by
  refine ⟨fun sequence time text h => ⟨?_, h.length_stamp, fun _ => h.isDigit_of_mem_stamp⟩, fun text => ?_, ?_⟩
  · rw [parse_of_parse? (parse?_generate sequence h text), Label.ofText_eq, Label.auto]
  · exact ⟨Label.canonical_clean text, Label.clean_eq_self_iff.2 (Label.canonical_clean text)⟩
  · intro changes first sequence time h
    obtain ⟨hcanonical, hne⟩ := Label.canonical_suggest changes first
    rw [parse_of_parse? (parse?_generate sequence h _), Label.ofText_eq_self hcanonical hne]

/-- A number of five digits, a leap second, and a text with foreign letters around its words. -/
theorem parse_generate_leap :
    (Instant.mk 1483228799 1000000000).FourDigit ∧
      parse (generate 12345 (.mk 1483228799 1000000000) "¿Größe -- 2?") =
        .ok ⟨12345, "20161231235960", "gr_e_2"⟩ ∧
      parse (generate 12345 (.mk 1483228799 1000000000) (Label.suggest [.deleteModel "Größe_"] false)) =
        .ok ⟨12345, "20161231235960", "delete_gr_e"⟩ := by
  have htime : (Instant.mk 1483228799 1000000000).FourDigit := by decide
  refine ⟨htime, ?_, ?_⟩
  · rw [(parse_generate.1 12345 _ _ htime).1]
    exact congrArg Except.ok (by decide +kernel)
  · rw [parse_generate.2.2 _ _ 12345 _ htime]
    exact congrArg Except.ok (by decide +kernel)

end MigrationName

/-! ### Names of files -/

theorem Calendar.Instant.Proper.year {t : Instant} (h : t.Proper) : -1000000 < t.date.year ∧ t.date.year < 1000000 := by
  have hrange := h.inRange
  simp only [Calendar.inRange, Bool.and_eq_true, decide_eq_true_eq] at hrange
  obtain ⟨era, year, month, day, hparts, hdate⟩ := exists_parts (t.seconds / 86400)
  have hdays := hparts.days_eq
  have hyear := hparts.year_lt
  have hin := hparts.inYear
  simp only [firstDay] at hdays hin
  rw [Instant.date, hdate, dateOf]
  dsimp only
  split <;> omega

/-- Four to six digits and a sign for the year, and two digits for each part below it. -/
theorem Calendar.Instant.Proper.length_stamp_le {t : Instant} (h : t.Proper) : t.stamp.toList.length ≤ 17 := by
  have htwo : ∀ n < 100, (paddedDigits 2 n).length ≤ 2 := fun n hn => length_paddedDigits_le (by decide) (by decide) hn
  have hyear : (yearDigits t.date.year).length ≤ 7 := by
    have hsix (width n : Nat) (hw : width ≤ 6) (hn : n < 1000000) : (paddedDigits width n).length ≤ 6 :=
      length_paddedDigits_le hw (by decide) hn
    have hbounds := h.year
    rw [yearDigits]
    split
    · exact Nat.le_succ_of_le (hsix _ _ (by decide) (by omega))
    · exact Nat.succ_le_succ (hsix _ _ (by split <;> decide) (by omega))
  obtain ⟨hmonth, hday, hhour, hminute, hsecond⟩ := h.parts_lt
  have hdate := Nat.add_le_add (htwo _ hmonth) (htwo _ hday)
  have hclock := Nat.add_le_add (htwo _ hhour) (Nat.add_le_add (htwo _ hminute) (htwo _ hsecond))
  simp only [Instant.stamp, String.toList_ofList, Instant.stampDigits, List.length_append]
  omega

theorem toNat_of_isNamePart {c : Char} (h : isNamePart c = true) : 0 < c.toNat ∧ c.toNat ≤ 127 := by
  simp only [isNamePart, Bool.or_eq_true, beq_iff_eq] at h
  obtain ((h | rfl) | rfl) | rfl := h
  · have := toNat_of_isAlphanum h
    omega
  all_goals decide

namespace MigrationName

theorem length_generate_le (sequence : UInt32) {time : Instant} (h : time.Proper) (text : String) :
    (generate sequence time text).length ≤ 77 := by
  have hnumber : (paddedDigits 4 sequence.toNat).length ≤ 10 :=
    length_paddedDigits_le (by decide) (by decide) (Nat.lt_trans sequence.toNat_lt (by decide))
  have hlabel : (Label.ofText text).toList.length ≤ 48 := (Label.canonical_ofText text).short
  have hstamp := h.length_stamp_le
  rw [← String.length_toList, toList_generate]
  simp only [List.length_append, List.length_cons]
  omega

/-- A generated name with a short ending is not too long for a file. -/
theorem isName_generate (sequence : UInt32) {time : Instant} (h : time.Proper) (text : String) {ending : String}
    (hending : (ending.toList.all fun c => isNamePart c || c == '.') = true) (hshort : ending.length ≤ 100) :
    Store.Disk.isName (generate sequence time text ++ ending) = true := by
  have hascii : ∀ c ∈ (generate sequence time text ++ ending).toList, 0 < c.toNat ∧ c.toNat ≤ 127 := by
    intro c hc
    rw [String.toList_append, List.mem_append] at hc
    rcases hc with hc | hc
    · exact toNat_of_isNamePart (isNamePart_of_mem_generate hc)
    · have hpart := List.all_eq_true.1 hending c hc
      rw [Bool.or_eq_true, beq_iff_eq] at hpart
      rcases hpart with hpart | rfl
      · exact toNat_of_isNamePart hpart
      · decide
  have hzero : (generate sequence time text ++ ending).toList.contains '\x00' = false := by
    rw [List.contains_eq_mem, decide_eq_false_iff_not]
    exact fun hc => absurd (hascii _ hc).1 (by decide)
  have hlength := length_generate_le sequence h text
  rw [Store.Disk.isName, hzero, utf8ByteSize_eq_length fun c hc => (hascii c hc).2, String.length_append]
  simp only [Bool.not_false, Bool.and_true, decide_eq_true_eq]
  omega

end MigrationName

/-! ### Numbers that come next -/

theorem toNat_foldl_max_lt_iff {numbers : List UInt32} {first : UInt32} {bound : Nat} :
    (numbers.foldl max first).toNat < bound ↔ first.toNat < bound ∧ ∀ n ∈ numbers, n.toNat < bound := by
  induction numbers generalizing first with
  | nil => simp
  | cons n rest ih =>
    rw [List.foldl_cons, ih, UInt32.toNat_max, List.forall_mem_cons, Nat.max_lt, and_assoc]

/-- The number is above the numbers of all names in the history that have one, and above the length of the
history. -/
def IsAbove (history : List Migration) (number : UInt32) : Prop :=
  (∀ m ∈ history, ∀ n, m.sequence? = some n → n < number) ∧ history.length < number.toNat

/-- There is a number left: no name of the history has the last one, and the history has not as many migrations as
there are. -/
structure HasNumbersLeft (history : List Migration) : Prop where
  names : ∀ m ∈ history, m.sequence? ≠ some lastNumber
  length : history.length < lastNumber.toNat

/-- There is no number behind the history: one of its names has the last number, or its length does, cut to the size
of a number. -/
def IsSpent (history : List Migration) : Prop :=
  (∃ m ∈ history, m.sequence? = some lastNumber) ∨ history.length % 4294967296 = lastNumber.toNat

/-- The highest number is the least that is not below any name of the history or its length, which is cut to the size
of a number. -/
theorem highestNumber_lt_iff {history : List Migration} {bound : Nat} :
    (highestNumber history).toNat < bound ↔
      (∀ m ∈ history, ∀ n, m.sequence? = some n → n.toNat < bound) ∧ history.length % 4294967296 < bound := by
  have hfilter : (∀ n ∈ history.filterMap Migration.sequence?, n.toNat < bound) ↔
      ∀ m ∈ history, ∀ n, m.sequence? = some n → n.toNat < bound := by
    simp only [List.mem_filterMap, forall_exists_index, and_imp]
    exact ⟨fun h m hm n hn => h n m hm hn, fun h n m hm hn => h m hm n hn⟩
  have hlength : (UInt32.ofNat history.length).toNat = history.length % 4294967296 := UInt32.toNat_ofNat'
  rw [highestNumber, UInt32.toNat_max, Nat.max_lt, toNat_foldl_max_lt_iff, hfilter, hlength]
  exact ⟨fun ⟨⟨_, hnames⟩, hlen⟩ => ⟨hnames, hlen⟩,
    fun ⟨hnames, hlen⟩ => ⟨⟨Nat.zero_lt_of_lt hlen, hnames⟩, hlen⟩⟩

variable {history : List Migration}

theorem highestNumber_le (history : List Migration) : (highestNumber history).toNat ≤ lastNumber.toNat :=
  Nat.le_of_lt_succ (highestNumber history).toNat_lt

/-- The highest number is the last one exactly when there is none behind the history. -/
theorem highestNumber_eq_lastNumber_iff : highestNumber history = lastNumber ↔ IsSpent history := by
  have hlt : (highestNumber history).toNat < lastNumber.toNat ↔ ¬ IsSpent history := by
    have hname (n : UInt32) : n.toNat < lastNumber.toNat ↔ n ≠ lastNumber := by
      have hle : n.toNat ≤ lastNumber.toNat := Nat.le_of_lt_succ n.toNat_lt
      rw [Ne, ← UInt32.toNat_inj]
      omega
    have hlength : history.length % 4294967296 < lastNumber.toNat ↔
        history.length % 4294967296 ≠ lastNumber.toNat := by
      have hlast : lastNumber.toNat = 4294967295 := rfl
      omega
    rw [highestNumber_lt_iff, hlength, IsSpent, not_or]
    refine and_congr_left fun _ => ?_
    simp only [hname, not_exists, not_and]
    exact ⟨fun h m hm hlast => h m hm _ hlast rfl, fun h m hm n hn he => h m hm (he ▸ hn)⟩
  have hle := highestNumber_le history
  rw [← UInt32.toNat_inj, ← not_iff_not, ← hlt]
  omega

theorem hasNumbersLeft_iff : HasNumbersLeft history ↔ ¬ IsSpent history ∧ history.length < lastNumber.toNat := by
  refine ⟨fun h => ⟨?_, h.length⟩, fun ⟨hspent, hlength⟩ => ⟨fun m hm hn => hspent (.inl ⟨m, hm, hn⟩), hlength⟩⟩
  have hlast : lastNumber.toNat = 4294967295 := rfl
  have hlength := h.length
  rintro (⟨m, hm, hn⟩ | hspent)
  · exact h.names m hm hn
  · omega

theorem nextSequence_of_isSpent (h : IsSpent history) : nextSequence history = .error .overflow :=
  if_pos (highestNumber_eq_lastNumber_iff.2 h)

theorem nextSequence_of_not_isSpent (h : ¬ IsSpent history) :
    nextSequence history = .ok (highestNumber history + 1) :=
  if_neg (mt highestNumber_eq_lastNumber_iff.1 h)

/-- The number that comes next is above those of all names, and above the length of the history too unless the history
has as many migrations as there are numbers. -/
theorem above_of_not_isSpent (h : ¬ IsSpent history) :
    (∀ m ∈ history, ∀ n, m.sequence? = some n → n < highestNumber history + 1) ∧
      (IsAbove history (highestNumber history + 1) ↔ HasNumbersLeft history) := by
  have hle := highestNumber_le history
  have hlast : lastNumber.toNat = 4294967295 := rfl
  have hne : (highestNumber history).toNat ≠ lastNumber.toNat :=
    mt UInt32.toNat_inj.1 (mt highestNumber_eq_lastNumber_iff.1 h)
  have hnext : (highestNumber history + 1).toNat = (highestNumber history).toNat + 1 := by
    rw [UInt32.toNat_add, show (1 : UInt32).toNat = 1 from rfl]
    omega
  obtain ⟨hnames, hlength⟩ := highestNumber_lt_iff.1 (Nat.lt_succ_self (highestNumber history).toNat)
  have habove : ∀ m ∈ history, ∀ n, m.sequence? = some n → n < highestNumber history + 1 := fun m hm n hn =>
    UInt32.lt_iff_toNat_lt.2 (hnext ▸ hnames m hm n hn)
  rw [hasNumbersLeft_iff, and_iff_right h]
  refine ⟨habove, fun hall => ?_, fun hlen => ⟨habove, ?_⟩⟩
  · exact Nat.lt_of_lt_of_le hall.2 (Nat.le_of_lt_succ (highestNumber history + 1).toNat_lt)
  · omega

/-- **A next name parses and is above the history as long as there are numbers left.** Unless the last number of all is
taken there is one, with a number larger than that of every name of the history, so that it is none of these names; it is
larger than the length of the history too unless there are as many migrations as numbers. Behind the last number there is
no next name. -/
theorem isAbove_nextName (history : List Migration) (text : String) {time : Instant} (h : time.FourDigit) :
    (IsSpent history → nextName history text time = .error .overflow) ∧
      (¬ IsSpent history → ∃ next name, nextName history text time = .ok next ∧
        MigrationName.parse next = .ok name ∧
        (∀ m ∈ history, ∀ n, m.sequence? = some n → n < name.sequence) ∧ next ∉ history.map (·.name) ∧
        (IsAbove history name.sequence ↔ HasNumbersLeft history)) := by
  refine ⟨fun hspent => ?_, fun hleft => ?_⟩
  · rw [nextName, nextSequence_of_isSpent hspent]
    rfl
  · obtain ⟨hnames, habove⟩ := above_of_not_isSpent hleft
    have hparse := MigrationName.parse?_generate (highestNumber history + 1) h text
    refine ⟨_, _, nextName_eq_ok_iff.2 ⟨_, nextSequence_of_not_isSpent hleft, rfl⟩,
      MigrationName.parse_of_parse? hparse, hnames, fun hmem => ?_, habove⟩
    obtain ⟨m, hm, hname⟩ := List.mem_map.1 hmem
    have hsequence : m.sequence? = some (highestNumber history + 1) := by
      rw [Migration.sequence?, hname, hparse]
      rfl
    exact absurd (UInt32.lt_iff_toNat_lt.1 (hnames m hm _ hsequence)) (Nat.lt_irrefl _)

/-- Migrations of one engine that change nothing, by their names. -/
def named (names : List String) : List Migration := names.map fun name => ⟨name, "main", none, []⟩

/-- One name has the number nine and the other has none. -/
def halfNumbered : List Migration := named ["0009_20240101000000_x", "hand"]

theorem isAbove_nextName_sample :
    (Instant.mk 1704110400 0).FourDigit ∧ HasNumbersLeft halfNumbered ∧
      nextName halfNumbered "x" ⟨1704110400, 0⟩ = .ok "0010_20240101120000_x" ∧
      "0010_20240101120000_x" ∉ halfNumbered.map (·.name) ∧
      ∃ name, MigrationName.parse "0010_20240101120000_x" = .ok name ∧ IsAbove halfNumbered name.sequence := by
  have htime : (Instant.mk 1704110400 0).FourDigit := by decide
  have hleft : HasNumbersLeft halfNumbered := ⟨by decide +kernel, by decide⟩
  have hnext : nextName halfNumbered "x" ⟨1704110400, 0⟩ = .ok "0010_20240101120000_x" := rfl
  obtain ⟨next, name, hnext', hparse, -, hfresh, habove⟩ :=
    (isAbove_nextName halfNumbered "x" htime).2 (hasNumbersLeft_iff.1 hleft).1
  obtain rfl := Except.ok.inj (hnext'.symm.trans hnext)
  exact ⟨htime, hleft, hnext, hfresh, name, hparse, habove.2 hleft⟩

/-- The last number of all is taken. -/
def exhausted : List Migration := named ["0000_20240101120000_x", "4294967295_20240101120000_x"]

/-- **There is no next name** behind the last number. -/
theorem nextName_exhausted :
    (Instant.mk 1704110400 0).FourDigit ∧ exhausted.length < lastNumber.toNat ∧
      nextName exhausted "x" ⟨1704110400, 0⟩ = .error .overflow :=
  ⟨by decide, by decide, rfl⟩

end Schemata
