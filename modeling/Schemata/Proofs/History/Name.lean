import Schemata.History.Name
import Schemata.Proofs.Collection
import Schemata.Proofs.Store.Path
import Schemata.Proofs.Text.Digits
import Schemata.Text.Blank

/-! Names that are generated are names of files: they are made of digits, signs, letters and underscores,
whatever the label and the clock are. -/
namespace Schemata

/-- Whether the character may stand in a generated name: a letter, a digit, an underscore or a sign. -/
def isNamePart (c : Char) : Bool := c.isAlphanum || c == '_' || c == '+' || c == '-'

namespace Text

theorem toNat_of_isAlphanum {c : Char} (h : c.isAlphanum = true) : 48 ≤ c.toNat ∧ c.toNat ≤ 122 := by
  delta Char.isAlphanum Char.isAlpha Char.isUpper Char.isLower Char.isDigit at h
  simp only [Bool.or_eq_true, Bool.and_eq_true, decide_eq_true_eq, ge_iff_le, UInt32.le_iff_toNat_le] at h
  rcases h with (⟨hfirst, hlast⟩ | ⟨hfirst, hlast⟩) | ⟨hfirst, hlast⟩ <;>
    exact ⟨Nat.le_trans (by decide) hfirst, Nat.le_trans hlast (by decide)⟩

/-- ASCII characters are one byte each. -/
theorem utf8ByteSize_eq_length {s : String} (h : ∀ c ∈ s.toList, c.toNat ≤ 127) : s.utf8ByteSize = s.length := by
  have hlist (cs : List Char) (hcs : ∀ c ∈ cs, c.toNat ≤ 127) : (String.ofList cs).utf8ByteSize = cs.length := by
    induction cs with
    | nil => rfl
    | cons c rest ih =>
      obtain ⟨hc, hrest⟩ := List.forall_mem_cons.1 hcs
      have hone : c.utf8Size = 1 := if_pos (show c.val ≤ 127 from UInt32.le_iff_toNat_le.2 hc)
      rw [← List.singleton_append, String.ofList_append, String.utf8ByteSize_append, ih hrest]
      simp [hone, Nat.add_comm]
  rw [← String.length_toList, ← hlist s.toList h, String.ofList_toList]

theorem isNamePart_of_isDigit {c : Char} (h : isDigit c = true) : isNamePart c = true := by
  have hd : c.isDigit = true := by
    simpa [isDigit, Char.isDigit, Char.le_def] using h
  simp [isNamePart, Char.isAlphanum, hd]

theorem isNamePart_of_mem_paddedDigits {width n : Nat} {c : Char} (h : c ∈ paddedDigits width n) :
    isNamePart c = true :=
  isNamePart_of_isDigit (isDigit_of_mem_paddedDigits h)

end Text

open Text

theorem Label.isNamePart_toLower {c : Char} (h : c.isAlphanum = true) : isNamePart c.toLower = true := by
  suffices c.toLower.isAlphanum = true by simp [isNamePart, this]
  delta Char.toLower
  split
  · rename_i hu
    have hle : 97 ≤ c.val.toNat + 32 ∧ c.val.toNat + 32 ≤ 122 := by
      have hfirst : 65 ≤ c.val.toNat := UInt32.le_iff_toNat_le.1 hu.1
      have hlast : c.val.toNat ≤ 90 := UInt32.le_iff_toNat_le.1 hu.2
      omega
    have hval : (c.val + ('a'.val - 'A'.val)).toNat = c.val.toNat + 32 := by
      rw [UInt32.toNat_add, show ('a'.val - 'A'.val).toNat = 32 from rfl]
      exact Nat.mod_eq_of_lt (by omega)
    have hlower : 'a'.val ≤ c.val + ('a'.val - 'A'.val) ∧ c.val + ('a'.val - 'A'.val) ≤ 'z'.val :=
      ⟨UInt32.le_iff_toNat_le.2 (hval ▸ hle.1), UInt32.le_iff_toNat_le.2 (hval ▸ hle.2)⟩
    delta Char.isAlphanum Char.isAlpha Char.isLower
    rw [decide_eq_true hlower.1, decide_eq_true hlower.2, Bool.and_true, Bool.or_true, Bool.true_or]
  · exact h

theorem Label.isNamePart_of_mem_joinWords {inWord : Bool} {cs : List Char} {c : Char} (h : c ∈ joinWords inWord cs) :
    isNamePart c = true := by
  induction cs generalizing inWord with
  | nil => cases h
  | cons x rest ih =>
    rw [joinWords] at h
    split at h
    · rcases List.mem_cons.1 h with rfl | h
      · exact isNamePart_toLower ‹_›
      · exact ih h
    · split at h
      · rcases List.mem_cons.1 h with rfl | h
        · rfl
        · exact ih h
      · exact ih h

theorem Label.isNamePart_of_mem_ofText {text : String} {c : Char} (h : c ∈ (ofText text).toList) :
    isNamePart c = true := by
  rw [ofText] at h
  split at h
  · have hall : auto.toList.all isNamePart = true := by decide
    exact List.all_eq_true.1 hall c h
  · rw [clean, String.toList_ofList, cleanChars, dropTrailing, List.mem_reverse] at h
    have hin := List.mem_reverse.1 ((List.dropWhile_sublist _).subset h)
    exact isNamePart_of_mem_joinWords (List.mem_of_mem_take hin)

theorem Calendar.isNamePart_of_mem_yearDigits {year : Int} {c : Char} (h : c ∈ yearDigits year) :
    isNamePart c = true := by
  rw [yearDigits] at h
  split at h
  · exact isNamePart_of_mem_paddedDigits h
  · rcases List.mem_cons.1 h with rfl | h
    · split <;> rfl
    · exact isNamePart_of_mem_paddedDigits h

theorem Calendar.Instant.isNamePart_of_mem_stamp {time : Instant} {c : Char} (h : c ∈ time.stamp.toList) :
    isNamePart c = true := by
  simp only [stamp, String.toList_ofList, stampDigits, List.mem_append] at h
  rcases h with ((((h | h) | h) | h) | h) | h
  · exact isNamePart_of_mem_yearDigits h
  all_goals exact isNamePart_of_mem_paddedDigits h

namespace MigrationName

theorem toList_generate (sequence : UInt32) (time : Calendar.Instant) (label : String) :
    (generate sequence time label).toList = paddedDigits 4 sequence.toNat ++
      '_' :: (time.stamp.toList ++ '_' :: (Label.ofText label).toList) := by
  simp [generate, padded]

theorem isNamePart_of_mem_generate {sequence : UInt32} {time : Calendar.Instant} {label : String} {c : Char}
    (h : c ∈ (generate sequence time label).toList) : isNamePart c = true := by
  rw [toList_generate, List.mem_append, List.mem_cons, List.mem_append, List.mem_cons] at h
  rcases h with h | rfl | h | rfl | h
  · exact isNamePart_of_mem_paddedDigits h
  · rfl
  · exact Calendar.Instant.isNamePart_of_mem_stamp h
  · rfl
  · exact Label.isNamePart_of_mem_ofText h

/-- With any ending, a generated name is one that a file can have. -/
theorem isFileName_generate {sequence : UInt32} {time : Calendar.Instant} {label ending : String}
    (he : '/' ∉ ending.toList) : Store.Path.IsFileName (generate sequence time label ++ ending) := by
  have hin : '_' ∈ (generate sequence time label ++ ending).toList := by simp [toList_generate]
  refine ⟨?_, List.ne_nil_of_mem hin, fun hx => ?_, fun hx => ?_⟩
  · rw [String.toList_append, List.mem_append, not_or]
    exact ⟨fun hs => absurd (isNamePart_of_mem_generate hs) (by decide), he⟩
  · rw [hx] at hin
    revert hin
    decide
  · rw [hx] at hin
    revert hin
    decide

theorem isBlankText_generate (sequence : UInt32) (time : Calendar.Instant) (label : String) :
    isBlankText (generate sequence time label) = false := by
  have hin : '_' ∈ (generate sequence time label).toList := by simp [toList_generate]
  exact List.all_eq_false.2 ⟨'_', hin, by decide⟩

end MigrationName

/-- The next name is the one with the next number, if there is one. -/
theorem nextName_eq_ok_iff {history : List Migration} {label name : String} {time : Calendar.Instant} :
    nextName history label time = .ok name ↔
      ∃ number, nextSequence history = .ok number ∧ MigrationName.generate number time label = name := by
  simp [nextName, bind_eq_ok_iff, pure, Except.pure]

end Schemata
