import Schemata.Proofs.Change.WellFormed
import Schemata.Schema.Normal

/-! The normal form of a description.

A description is in normal form when it has one key, leaves the uniqueness of a single field to the field and has no
fault (`Model.Normal`): exactly then it is its own normal form (`normalize_eq_self_iff`). The normal form of any other
description says the same as the description, with the default key in front if it declares none and with every unique
index over one field turned into an attribute of that field (`normalizesTo_of_normalize`). -/
namespace Schemata

namespace Index

/-- The unique index over one field. -/
def sole (field : String) : Index := ⟨[field], true⟩

/-- Whether the index says of one field that it is unique. -/
def isSole (i : Index) : Bool := i.unique && i.fields.length == 1

theorem isSole_iff {i : Index} : i.isSole = true ↔ ∃ field, i = sole field := by
  obtain ⟨fields, unique⟩ := i
  simp only [isSole, sole, Bool.and_eq_true, beq_iff_eq, List.length_eq_one_iff, mk.injEq]
  exact ⟨fun ⟨hu, field, hf⟩ => ⟨field, hf, hu⟩, fun ⟨field, hf, hu⟩ => ⟨hu, field, hf⟩⟩

end Index

namespace Ascending

theorem toList_erase {κ : Type} [Ord κ] [Std.LawfulEqOrd κ] [DecidableEq κ] (s : Ascending (id : κ → κ)) (k : κ) :
    (s.erase k).toList = s.toList.filter (· ≠ k) := by
  refine List.filter_congr fun a _ => ?_
  simp [Std.LawfulEqCmp.compare_eq_iff_eq]

end Ascending

namespace Model
variable {m r : Model} {i : Index} {is : List Index}

/-! ### Indexes that become attributes -/

/-- The entry of a field that is unique by itself or by one of the indexes. -/
def marked (is : List Index) (e : String × Field) : String × Field :=
  (e.1, { e.2 with unique := e.2.unique || is.contains (.sole e.1) })

/-- Whether the model has the field that the index says is unique. -/
def folds (m : Model) (i : Index) : Bool := i.isSole && i.fields.all m.fields.contains

theorem folds_sole (m : Model) (field : String) : m.folds (.sole field) = m.fields.contains field := by
  simp [folds, Index.isSole, Index.sole]

theorem foldIndex_sole (m : Model) (field : String) :
    m.foldIndex (.sole field) =
      if m.fields.contains field then
        { m with
          fields := m.fields.revise field fun f => { f with unique := true }
          indexes := m.indexes.erase (.sole field) }
      else m := by
  simp [foldIndex, Index.sole]

theorem foldIndex_of_not_isSole (h : i.isSole = false) : m.foldIndex i = m := by
  rw [foldIndex]
  split
  · rename_i field hfields
    have hunique : i.unique = false := by simpa [Index.isSole, hfields] using h
    simp [hunique]
  · rfl

theorem marked_of_not_isSole (h : i.isSole = false) : marked [i] = id := by
  funext e
  have hne : Index.sole e.1 ≠ i := fun he => by
    rw [Index.isSole_iff.2 ⟨e.1, he.symm⟩] at h
    cases h
  simp [marked, hne]

theorem marked_cons (i : Index) (is : List Index) : marked (i :: is) = marked is ∘ marked [i] := by
  funext e
  simp [marked, Bool.or_assoc]

/-- **One index.** The field that the index is about, if it is there, is unique from then on. -/
theorem entries_foldIndex (m : Model) (i : Index) :
    (m.foldIndex i).fields.entries = m.fields.entries.map (marked [i]) := by
  cases hi : i.isSole with
  | false => rw [foldIndex_of_not_isSole hi, marked_of_not_isSole hi, List.map_id]
  | true =>
    obtain ⟨field, rfl⟩ := Index.isSole_iff.1 hi
    rw [foldIndex_sole]
    split
    · refine List.map_congr_left fun e _ => ?_
      by_cases he : e.1 = field
      · simp [marked, he]
      · simp [marked, Index.sole, he]
    · rename_i hfree
      refine (List.map_id _).symm.trans (List.map_congr_left fun e he => ?_)
      have hne : e.1 ≠ field := by
        rintro rfl
        exact hfree (Option.isSome_of_eq_some (Keyed.get?_eq_some_iff.2 he))
      simp [marked, Index.sole, hne]

theorem indexes_foldIndex (m : Model) (i : Index) :
    (m.foldIndex i).indexes.toList = m.indexes.toList.filter fun j => !(j = i && m.folds i) := by
  cases hi : i.isSole with
  | false =>
    simp only [foldIndex_of_not_isSole hi, folds, hi, Bool.false_and, Bool.and_false, Bool.not_false]
    exact (List.filter_eq_self.2 fun _ _ => rfl).symm
  | true =>
    obtain ⟨field, rfl⟩ := Index.isSole_iff.1 hi
    rw [foldIndex_sole, folds_sole]
    split
    · rename_i hthere
      simp [hthere, Ascending.toList_erase]
    · rename_i hfree
      simp only [Bool.eq_false_iff.2 hfree, Bool.and_false, Bool.not_false]
      exact (List.filter_eq_self.2 fun _ _ => rfl).symm

theorem name_foldIndex (m : Model) (i : Index) : (m.foldIndex i).name = m.name := by
  rw [foldIndex]
  split
  · split <;> rfl
  · rfl

theorem contains_of_entries {is : List Index} (h : r.fields.entries = m.fields.entries.map (marked is)) (k : String) :
    r.fields.contains k = m.fields.contains k := by
  rw [Bool.eq_iff_iff, Keyed.contains_iff, Keyed.contains_iff, Keyed.keys, Keyed.keys, h, List.map_map]
  rfl

theorem folds_foldIndex (m : Model) (i j : Index) : (m.foldIndex i).folds j = m.folds j := by
  have hcontains : (m.foldIndex i).fields.contains = m.fields.contains :=
    funext (contains_of_entries (entries_foldIndex m i))
  rw [folds, folds, hcontains]

/-- **Indexes in a row.** Each of them marks its field, if the model has it, and is gone then. -/
theorem foldl_foldIndex (is : List Index) (m : Model) :
    (is.foldl foldIndex m).name = m.name ∧
      (is.foldl foldIndex m).fields.entries = m.fields.entries.map (marked is) ∧
      (is.foldl foldIndex m).indexes.toList = m.indexes.toList.filter fun j => !(is.contains j && m.folds j) := by
  induction is generalizing m with
  | nil =>
    have hmarked : marked [] = id := by
      funext e
      simp [marked]
    refine ⟨rfl, ?_, (List.filter_eq_self.2 fun _ _ => rfl).symm⟩
    rw [List.foldl_nil, hmarked, List.map_id]
  | cons i rest ih =>
    obtain ⟨hname, hentries, hindexes⟩ := ih (m.foldIndex i)
    refine ⟨hname.trans (name_foldIndex m i), ?_, ?_⟩
    · rw [List.foldl_cons, hentries, entries_foldIndex, List.map_map, ← marked_cons]
    · rw [List.foldl_cons, hindexes, indexes_foldIndex, List.filter_filter]
      refine List.filter_congr fun j _ => ?_
      rw [folds_foldIndex, List.contains_cons]
      by_cases hj : j = i
      · cases hfolds : m.folds i <;> simp [hj, hfolds]
      · simp [hj, beq_eq_false_iff_ne.2 hj]

/-! ### Normal forms -/

/-- One key, nothing said by an index that a field can say itself, and no fault. -/
structure Normal (m : Model) : Prop where
  key : m.fields.values.countP (·.primaryKey) = 1
  folded : ∀ i ∈ m.indexes.toList, i.isSole = false
  faultless : m.fault? = none

/-- The entry of the key that a model gets when it declares none. -/
def missingKey (m : Model) : List (String × Field) :=
  if m.primaryKey?.isSome then [] else [(defaultKey, .autoKey defaultKey)]

/-- `r` says what `m` says: there is the default key in front if `m` declares no key, every other field is where it
was and as it was, but for what the unique indexes over one field say of it, and the other indexes are declared as
before. -/
structure NormalizesTo (m r : Model) : Prop where
  name : r.name = m.name
  fields : r.fields.entries = (m.missingKey ++ m.fields.entries).map (marked m.indexes.toList)
  indexes : r.indexes.toList = m.indexes.toList.filter (!·.isSole)

theorem isSome_primaryKey?_iff : m.primaryKey?.isSome = true ↔ 0 < m.fields.values.countP (·.primaryKey) := by
  rw [primaryKey?, List.find?_isSome, List.countP_pos_iff]

theorem of_withKey {k : Model} (h : m.withKey = .ok k) :
    k.name = m.name ∧ k.fields.entries = m.missingKey ++ m.fields.entries ∧ k.indexes = m.indexes ∧
      k.primaryKey?.isSome = true := by
  rw [withKey] at h
  rw [missingKey]
  split at h
  · rename_i hkey
    cases h
    rw [if_pos hkey]
    exact ⟨rfl, rfl, rfl, hkey⟩
  · rename_i hkey
    split at h <;> cases h
    rename_i hfree
    rw [if_neg hkey]
    refine ⟨rfl, ?_, rfl, rfl⟩
    have hkept : Keyed.without defaultKey m.fields.entries = m.fields.entries :=
      List.filter_eq_self.2 fun e he => by
        have hne : e.1 ≠ defaultKey := fun hk => hfree (hk ▸ Option.isSome_of_eq_some (Keyed.get?_eq_some_iff.2 he))
        simpa using hne
    exact congrArg ((defaultKey, Field.autoKey defaultKey) :: ·) hkept

theorem of_normalize (h : m.normalize = .ok r) : ∃ k, m.withKey = .ok k ∧ r = k.foldIndexes ∧ r.fault? = none := by
  obtain ⟨k, hk, h⟩ := bind_eq_ok_iff.1 h
  dsimp only at h
  split at h <;> cases h
  exact ⟨k, hk, rfl, ‹_›⟩

/-- A mark changes no key. -/
theorem countP_marked (h : r.fields.entries = m.fields.entries.map (marked is)) :
    r.fields.values.countP (·.primaryKey) = m.fields.values.countP (·.primaryKey) := by
  rw [Keyed.values, Keyed.values, h, List.map_map, List.countP_map, List.countP_map]
  rfl

theorem countP_le_one (h : m.fault? = none) : m.fields.values.countP (·.primaryKey) ≤ 1 := by
  simp only [fault?, Option.orElse_eq_orElse, Option.orElse_eq_or, Option.or_eq_none_iff] at h
  have hkeys := h.2.1
  rw [primaryKeyFault?] at hkeys
  split at hkeys
  · cases hkeys
  · omega

/-- No index of the model without a fault is left that could have been folded. -/
theorem folds_of_faultless {k : Model} (hr : r = k.foldIndexes) (hfault : r.fault? = none) (hi : i ∈ k.indexes.toList) :
    k.folds i = i.isSole := by
  obtain ⟨-, hentries, hindexes⟩ := foldl_foldIndex k.indexes.toList k
  rw [← foldIndexes, ← hr] at hentries hindexes
  cases hsole : i.isSole with
  | false => simp [folds, hsole]
  | true =>
    obtain ⟨field, rfl⟩ := Index.isSole_iff.1 hsole
    rw [folds_sole]
    cases hfree : k.fields.contains field with
    | true => rfl
    | false =>
      have hleft : Index.sole field ∈ r.indexes.toList := by
        rw [hindexes, List.mem_filter, folds_sole]
        exact ⟨hi, by simp [hfree]⟩
      have hthere := (wellFormed_of_fault? hfault).indexed _ hleft field (List.mem_singleton.2 rfl)
      rwa [contains_of_entries hentries, hfree] at hthere

theorem normal_of_normalize (h : m.normalize = .ok r) : r.Normal := by
  obtain ⟨k, hk, hr, hfault⟩ := of_normalize h
  obtain ⟨-, hentries, hindexes⟩ := foldl_foldIndex k.indexes.toList k
  rw [← foldIndexes, ← hr] at hentries hindexes
  obtain ⟨-, -, -, hkey⟩ := of_withKey hk
  refine ⟨?_, fun i hi => ?_, hfault⟩
  · have hpos := isSome_primaryKey?_iff.1 hkey
    rw [← countP_marked hentries] at hpos
    have hle := countP_le_one hfault
    omega
  · rw [hindexes, List.mem_filter] at hi
    obtain ⟨hin, hkept⟩ := hi
    simpa [hin, folds_of_faultless hr hfault hin] using hkept

theorem Normal.normalize_eq (h : m.Normal) : m.normalize = .ok m := by
  have hkey : m.primaryKey?.isSome = true := isSome_primaryKey?_iff.2 (by rw [h.key]; exact Nat.one_pos)
  have hfold : ∀ is : List Index, (∀ i ∈ is, i.isSole = false) → is.foldl foldIndex m = m := by
    intro is his
    induction is with
    | nil => rfl
    | cons i rest ih =>
      rw [List.foldl_cons, foldIndex_of_not_isSole (his i (List.mem_cons_self ..))]
      exact ih fun j hj => his j (List.mem_cons_of_mem _ hj)
  have hfolded : m.foldIndexes = m := hfold _ h.folded
  simp [normalize, withKey, hkey, hfolded, h.faultless, bind, Except.bind]

/-- The descriptions in normal form are those that are their own normal forms. -/
theorem normalize_eq_self_iff : m.normalize = .ok m ↔ m.Normal :=
  ⟨normal_of_normalize, Normal.normalize_eq⟩

/-- **Normalization.** What it gives is in normal form, is not changed by normalizing it again, and says what the
description says. -/
theorem normalizesTo_of_normalize (h : m.normalize = .ok r) : r.Normal ∧ r.normalize = .ok r ∧ m.NormalizesTo r := by
  have hnormal := normal_of_normalize h
  obtain ⟨k, hk, hr, hfault⟩ := of_normalize h
  obtain ⟨hname, hentries, hindexes, -⟩ := of_withKey hk
  obtain ⟨hname', hentries', hindexes'⟩ := foldl_foldIndex k.indexes.toList k
  rw [← foldIndexes, ← hr] at hname' hentries' hindexes'
  refine ⟨hnormal, hnormal.normalize_eq, hname'.trans hname, ?_, ?_⟩
  · rw [hentries', hentries, hindexes]
  · rw [hindexes', ← hindexes]
    refine List.filter_congr fun i hi => ?_
    rw [folds_of_faultless hr hfault hi, List.contains_iff_mem.2 hi, Bool.true_and]

/-- A description without a key that says of the key to come, and of a field, that they are unique. -/
def sampleAccount : Model :=
  { Model.ofFields "account" [{ name := "mail", type := .text }, { name := "handle", type := .text, indexed := true }] with
    indexes := .ofList [.sole "mail", ⟨["mail", "handle"], true⟩, .sole "id"] }

/-- The key is put first, the two indexes over one field are folded, and the index over two fields stays. -/
theorem normalizesTo_sampleAccount :
    ∃ r, sampleAccount.normalize = .ok r ∧ r.fields.keys = ["id", "mail", "handle"] ∧
      r.fields.values.map (·.unique) = [true, true, false] ∧ r.indexes.toList = [⟨["mail", "handle"], true⟩] ∧
      r.Normal ∧ r.normalize = .ok r ∧ sampleAccount.NormalizesTo r := by
  obtain ⟨r, hr⟩ : ∃ r, sampleAccount.normalize = .ok r := ⟨_, by rfl⟩
  refine ⟨r, hr, ?_, ?_, ?_, normalizesTo_of_normalize hr⟩ <;>
  · cases hr
    decide

end Model

end Schemata
