import Schemata.Store.Path

/-! Where the path of a file in a directory leads: the steps of the directory, and one more. -/
namespace Schemata

namespace Text

theorem pieces_cons_of_ne {separator c : Char} (h : c ≠ separator) (cs : List Char) :
    ∃ first more, pieces separator cs = first :: more ∧
      pieces separator (c :: cs) = (c :: first) :: more := by
  cases hp : pieces separator cs with
  | nil => exact absurd hp (pieces_ne_nil separator cs)
  | cons first more => exact ⟨first, more, rfl, by simp only [pieces, if_neg h, hp]⟩

theorem pieces_append (separator : Char) (a b : List Char) :
    pieces separator (a ++ separator :: b) = pieces separator a ++ pieces separator b := by
  induction a with
  | nil => simp [pieces]
  | cons c rest ih =>
    by_cases hc : c = separator
    · simp only [List.cons_append, pieces, if_pos hc, ih]
    · obtain ⟨first, more, hr, hcr⟩ := pieces_cons_of_ne hc rest
      obtain ⟨first', more', hr', hcr'⟩ := pieces_cons_of_ne hc (rest ++ separator :: b)
      rw [ih, hr, List.cons_append, List.cons.injEq] at hr'
      rw [List.cons_append, hcr', hcr, ← hr'.1, ← hr'.2, List.cons_append]

theorem pieces_of_not_mem {separator : Char} {cs : List Char} (h : separator ∉ cs) :
    pieces separator cs = [cs] := by
  induction cs with
  | nil => rfl
  | cons c rest ih =>
    rw [List.mem_cons, not_or] at h
    obtain ⟨first, more, hr, hcr⟩ := pieces_cons_of_ne (Ne.symm h.1) rest
    rw [ih h.2, List.cons.injEq] at hr
    rw [hcr, ← hr.1, ← hr.2]

theorem not_mem_of_mem_pieces {separator : Char} {cs piece : List Char} (h : piece ∈ pieces separator cs) :
    separator ∉ piece := by
  induction cs generalizing piece with
  | nil =>
    rw [pieces, List.mem_singleton] at h
    rw [h]
    exact List.not_mem_nil
  | cons c rest ih =>
    by_cases hc : c = separator
    · rw [pieces, if_pos hc, List.mem_cons] at h
      rcases h with rfl | h
      · exact List.not_mem_nil
      · exact ih h
    · obtain ⟨first, more, hr, hcr⟩ := pieces_cons_of_ne hc rest
      rw [hcr, List.mem_cons] at h
      rcases h with rfl | h
      · rw [List.mem_cons, not_or]
        exact ⟨Ne.symm hc, ih (hr ▸ List.mem_cons_self)⟩
      · exact ih (hr ▸ List.mem_cons_of_mem _ h)

end Text

namespace Store.Path
open Text

/-- A name that a file in a directory can be given: one piece, and none that leads elsewhere. -/
structure IsFileName (name : String) : Prop where
  noSlash : '/' ∉ name.toList
  ne_empty : name.toList ≠ []
  ne_here : name.toList ≠ ['.']
  ne_above : name.toList ≠ ['.', '.']

namespace IsFileName
variable {name : String}

theorem pieces_eq (h : IsFileName name) : pieces '/' name.toList = [name.toList] :=
  pieces_of_not_mem h.noSlash

theorem stepOf?_eq (h : IsFileName name) : stepOf? name.toList = some (.into name) := by
  unfold stepOf?
  split
  · exact absurd ‹_› h.ne_empty
  · exact absurd ‹_› h.ne_here
  · exact absurd ‹_› h.ne_above
  · rw [String.ofList_toList]

theorem not_isAbsolute (h : IsFileName name) : isAbsolute name = false := by
  have hp : ¬ "/".toList <+: name.toList := fun hp => h.noSlash (hp.subset (by simp))
  simpa [isAbsolute] using hp

end IsFileName

theorem isAbsolute_iff {p : Path} : isAbsolute p = true ↔ ['/'] <+: p.toList := by
  simp [isAbsolute]

theorem endsWith_iff {p : Path} : p.endsWith "/" = true ↔ ['/'] <:+ p.toList := by
  rw [← String.endsWith_toSlice, String.Slice.endsWith_string_iff]
  simp

/-- The pieces of a path to a file in a directory are those of the directory, without an empty one at the
end, and the name. -/
theorem toList_join {directory : Path} {name : String} (h : IsFileName name)
    (hd : directory ≠ "") :
    ∃ front, (join directory name).toList = front ++ '/' :: name.toList ∧
      (directory.toList = front ∨ directory.toList = front ++ ['/']) := by
  have hempty : directory.isEmpty = false := by simpa using hd
  unfold join
  simp only [h.not_isAbsolute, hempty, Bool.or_self, Bool.false_eq_true, if_false]
  split
  · obtain ⟨front, hf⟩ := endsWith_iff.1 ‹_›
    exact ⟨front, by rw [String.toList_append, ← hf, List.append_assoc]; rfl, .inr hf.symm⟩
  · exact ⟨directory.toList, by simp [String.toList_append], .inl rfl⟩

theorem steps_join {directory : Path} {name : String} (h : IsFileName name) :
    steps (join directory name) = steps directory ++ [.into name] := by
  by_cases hd : directory = ""
  · subst hd
    have hj : join "" name = name := by simp [join]
    have hs : steps "" = [] := by decide
    rw [hj, hs, steps, h.not_isAbsolute, h.pieces_eq]
    simp [h.stepOf?_eq]
  · obtain ⟨front, hj, hf⟩ := toList_join h hd
    have hne : directory.toList ≠ [] := by simpa using hd
    have habs : isAbsolute (join directory name) = isAbsolute directory := by
      rw [Bool.eq_iff_iff, isAbsolute_iff, isAbsolute_iff, hj]
      cases front with
      | nil => simp_all
      | cons c rest => rcases hf with hf | hf <;> simp [hf]
    have hpieces : (pieces '/' directory.toList).filterMap stepOf? =
        (pieces '/' front).filterMap stepOf? := by
      rcases hf with hf | hf
      · rw [hf]
      · rw [hf, pieces_append]
        simp [pieces, stepOf?]
    rw [steps, steps, habs, hj, pieces_append, h.pieces_eq, hpieces, List.filterMap_append]
    simp [h.stepOf?_eq]

theorem not_isDirectoryForm_join {directory : Path} {name : String} (h : IsFileName name) :
    isDirectoryForm (join directory name) = false := by
  have hlast : (pieces '/' (join directory name).toList).getLast? = some name.toList := by
    by_cases hd : directory = ""
    · subst hd
      have hj : join "" name = name := by simp [join]
      rw [hj, h.pieces_eq]
      rfl
    · obtain ⟨front, hj, -⟩ := toList_join h hd
      rw [hj, pieces_append, h.pieces_eq]
      simp
  unfold isDirectoryForm
  rw [hlast]
  have hne := h.ne_empty
  have hhere := h.ne_here
  split
  · simp_all
  · simp_all
  · rfl

theorem join_ne_empty {directory : Path} {name : String} (h : IsFileName name) :
    (join directory name).isEmpty = false := by
  have hne : join directory name ≠ "" := by
    intro he
    have hs : steps (join directory name) = steps directory ++ [.into name] := steps_join h
    rw [he] at hs
    have hempty : steps "" = [] := by decide
    simp [hempty] at hs
  simpa using hne

/-- Names that a path goes into are names that files can have. -/
theorem isFileName_of_mem_steps {p : Path} {name : String} (h : .into name ∈ steps p) : IsFileName name := by
  have hin : Step.into name ∈ (pieces '/' p.toList).filterMap stepOf? := by
    rcases List.mem_append.1 h with h | h
    · split at h
      · simp at h
      · cases h
    · exact h
  obtain ⟨piece, hpiece, hstep⟩ := List.mem_filterMap.1 hin
  have hslash := not_mem_of_mem_pieces hpiece
  unfold stepOf? at hstep
  split at hstep
  · cases hstep
  · cases hstep
  · cases hstep
  · rename_i hempty hhere habove
    cases hstep
    exact ⟨by rwa [String.toList_ofList], by rwa [String.toList_ofList], by rwa [String.toList_ofList],
      by rwa [String.toList_ofList]⟩

/-! ### Names with an ending -/

theorem fileName?_join {directory : Path} {name : String} (h : IsFileName name) :
    fileName? (join directory name) = some name := by
  rw [fileName?, steps_join h, List.getLast?_concat]

theorem stem?_join {directory : Path} {name : String} (h : IsFileName name) :
    stem? (join directory name) = some (cutName name).1 := by
  rw [stem?, fileName?_join h]
  rfl

theorem extension?_join {directory : Path} {name : String} (h : IsFileName name) :
    extension? (join directory name) = (cutName name).2 := by
  rw [extension?, fileName?_join h]
  rfl

/-- A name is cut at its last point. -/
theorem cutName_of_split {name : String} {front behind : List Char} (h : name.toList = front ++ behind)
    (hb : '.' ∉ behind) (hf : front = [] ∨ ∃ stem, front = stem ++ ['.']) :
    cutName name = match front.dropLast with
      | [] => (name, none)
      | stem => (String.ofList stem, some (String.ofList behind)) := by
  have hstop : front.reverse.takeWhile (· ≠ '.') = [] := by
    rcases hf with rfl | ⟨stem, rfl⟩
    · rfl
    · simp
  have hbehind : (name.toList.reverse.takeWhile (· ≠ '.')).reverse = behind := by
    rw [h, List.reverse_append,
      List.takeWhile_append_of_pos (by simpa using fun c hc (heq : c = '.') => hb (heq ▸ hc)), hstop,
      List.append_nil, List.reverse_reverse]
  have hbefore : name.toList.take (name.toList.length - behind.length) = front := by
    rw [h]
    simp
  cases hdrop : front.dropLast with
  | nil => simp only [cutName, hbehind, hbefore, hdrop]
  | cons c rest => simp only [cutName, hbehind, hbefore, hdrop]

theorem exists_split (cs : List Char) : ∃ front behind, cs = front ++ behind ∧ '.' ∉ behind ∧
    (front = [] ∨ ∃ stem, front = stem ++ ['.']) := by
  induction cs with
  | nil => exact ⟨[], [], rfl, List.not_mem_nil, .inl rfl⟩
  | cons c rest ih =>
    obtain ⟨front, behind, rfl, hb, hf⟩ := ih
    rcases hf with rfl | ⟨stem, rfl⟩
    · by_cases hc : c = '.'
      · exact ⟨['.'], behind, by rw [hc]; rfl, hb, .inr ⟨[], rfl⟩⟩
      · exact ⟨[], c :: behind, rfl, by simp [hb, Ne.symm hc], .inl rfl⟩
    · exact ⟨c :: (stem ++ ['.']), behind, rfl, hb, .inr ⟨c :: stem, rfl⟩⟩

theorem cutName_eq {stem ending : String} (hs : stem ≠ "") (he : '.' ∉ ending.toList) :
    cutName (stem ++ "." ++ ending) = (stem, some ending) := by
  have hsplit : (stem ++ "." ++ ending).toList = (stem.toList ++ ['.']) ++ ending.toList := by simp
  have hne : stem.toList ≠ [] := by simpa using hs
  rw [cutName_of_split hsplit he (.inr ⟨_, rfl⟩), List.dropLast_concat]
  split
  · exact absurd ‹_› hne
  · rw [String.ofList_toList, String.ofList_toList]

/-- A name that has an ending is what is before its last point, the point and the ending. -/
theorem eq_of_cutName {name ending : String} (h : (cutName name).2 = some ending) :
    name = (cutName name).1 ++ "." ++ ending := by
  obtain ⟨front, behind, hsplit, hb, hf⟩ := exists_split name.toList
  rw [cutName_of_split hsplit hb hf] at h ⊢
  rcases hf with rfl | ⟨stem, rfl⟩
  · cases h
  · rw [List.dropLast_concat] at h ⊢
    cases stem with
    | nil => cases h
    | cons c rest =>
      cases h
      rw [← String.ofList_toList (s := name), hsplit]
      simp [String.ofList_append, String.append_assoc]

end Store.Path

end Schemata
