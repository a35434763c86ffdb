import Schemata.Proofs.Collection
import Schemata.Proofs.Schema.Alike
import Schemata.Toml.Reader
import Schemata.Toml.Writer

/-! What comes back of data that was written as a document.

A document says what the members of a record are and not in which order they stand, for a table's plain
values are written before its parts; and it has one word for all numbers that are none. Everything else
comes back as it was (`Datum.readsAs`). A document is faithful when its text is read to such data
(`Toml.faithful`). -/
namespace Schemata

/-- The number that is read where this one was written. -/
def Binary64.settled (x : Binary64) : Binary64 := if x.isNaN then nan false else x

theorem Binary64.settled_of_not_isNaN {x : Binary64} (h : x.isNaN = false) : x.settled = x := by
  simp [settled, h]

theorem Binary64.isNaN_settled (x : Binary64) : x.settled.isNaN = x.isNaN := by
  cases h : x.isNaN with
  | false => rw [settled_of_not_isNaN h, h]
  | true =>
    rw [settled, if_pos h]
    decide

namespace Datum

mutual

/-- Whether the second tree is what is read where the first one was written. -/
def readsAs : Datum → Datum → Bool
  | .null, .null => true
  | .bool a, .bool b => a == b
  | .int a, .int b => a == b
  | .float a, .float b => b == a.settled
  | .text a, .text b => a == b
  | .moment, .moment => true
  | .list a, .list b => itemsReadAs a b
  | .record a, .record b => a.length == b.length && membersReadAs a b
  | _, _ => false

def itemsReadAs : List Datum → List Datum → Bool
  | [], [] => true
  | a :: as, b :: bs => readsAs a b && itemsReadAs as bs
  | _, _ => false

/-- Whether each of the members is found among the others. -/
def membersReadAs : List (String × Datum) → List (String × Datum) → Bool
  | [], _ => true
  | (name, a) :: rest, others =>
    (match Keyed.find name others with
      | some b => readsAs a b
      | none => false) && membersReadAs rest others

end

end Datum

/-- Whether the text of the document is read to what was written. -/
def Toml.faithful (ms : Members) : Bool := (Toml.read? (Toml.write ms)).any ((Datum.record ms).readsAs ·)

/-- The characters of a document, line by line. -/
def Toml.chars : List Toml.Item → List Char
  | [] => []
  | first :: rest => first.line.toList ++ rest.flatMap fun i => i.nextLine.toList

theorem Toml.toList_writeItems (items : List Toml.Item) : (Toml.writeItems items).toList = Toml.chars items := by
  cases items with
  | nil => rfl
  | cons first rest => simp only [writeItems, chars, String.toList_append, String.toList_join, List.flatMap_map]

/-- Whether a document is faithful is seen line by line, without its text as a whole. -/
theorem Toml.faithful_eq (ms : Members) : Toml.faithful ms = (do
    let cs := Toml.unifyLineEnds (Toml.dropMark (Toml.chars (Toml.Item.ofMembers ms)))
    return Datum.record (← Toml.assemble? (← Toml.lines? (cs.length + 1) cs))).any ((Datum.record ms).readsAs ·) := by
  simp only [faithful, read?, write, toList_writeItems]

namespace Datum

/-! ### Single values

On two constructors the comparison reduces by itself; the equations of its matches, one for every pair of them, are not
needed. -/

theorem eq_of_readsAs_text {s : String} {e : Datum} (h : (text s).readsAs e = true) : e = text s := by
  cases e with
  | text t => rw [eq_of_beq (show (s == t) = true from h)]
  | _ => cases h

theorem eq_of_readsAs_bool {b : Bool} {e : Datum} (h : (bool b).readsAs e = true) : e = bool b := by
  cases e with
  | bool c => rw [eq_of_beq (show (b == c) = true from h)]
  | _ => cases h

theorem eq_of_readsAs_int {n : Int} {e : Datum} (h : (int n).readsAs e = true) : e = int n := by
  cases e with
  | int m => rw [eq_of_beq (show (n == m) = true from h)]
  | _ => cases h

theorem eq_of_readsAs_float {x : Binary64} {e : Datum} (h : (float x).readsAs e = true) :
    e = float x.settled := by
  cases e with
  | float y => rw [eq_of_beq (show (y == x.settled) = true from h)]
  | _ => cases h

theorem intIn?_of_mem {low high n : Int} (h : low ≤ n ∧ n < high) : intIn? low high (int n) = some n :=
  if_pos h

theorem word32?_toNat (n : UInt32) : word32? (int n.toNat) = some n := by
  have hlt := n.toNat_lt
  rw [word32?, intIn?_of_mem (by omega), Option.map_some, Int.toNat_natCast, UInt32.ofNat_toNat]

theorem byte?_toNat (n : UInt8) : byte? (int n.toNat) = some n := by
  have hlt := n.toNat_lt
  rw [byte?, intIn?_of_mem (by omega), Option.map_some, Int.toNat_natCast, UInt8.ofNat_toNat]

theorem int64?_toInt (n : Int64) : int64? (int n.toInt) = some n := by
  have hlow := n.le_toInt
  have hhigh := n.toInt_lt
  rw [int64?, intIn?_of_mem (by omega), Option.map_some, Int64.ofInt_toInt]

/-! ### Lists -/

/-- A list is read item by item. -/
theorem listOf?_of_readsAs {α β : Type} {write : α → Datum} (read : Datum → Option β) {f : α → β}
    {as : List α} {e : Datum} (h : (list (as.map write)).readsAs e = true)
    (hread : ∀ a ∈ as, ∀ e, (write a).readsAs e = true → read e = some (f a)) :
    e.listOf? read = some (as.map f) := by
  cases e with
  | list others =>
    replace h : itemsReadAs (as.map write) others = true := h
    show others.mapM read = some (as.map f)
    induction as generalizing others with
    | nil =>
      cases others with
      | nil => rfl
      | cons b bs => cases h
    | cons a as ih =>
      cases others with
      | nil => cases h
      | cons b bs =>
        obtain ⟨hab, hrest⟩ : (write a).readsAs b = true ∧ itemsReadAs (as.map write) bs = true :=
          Bool.and_eq_true_iff.1 h
        have hb := hread a List.mem_cons_self b hab
        have hbs := ih (fun a ha => hread a (List.mem_cons_of_mem _ ha)) bs hrest
        simp [hb, hbs]
  | _ => cases h

/-! ### Records -/

theorem find_of_membersReadAs {ms others : Members} (h : membersReadAs ms others = true) {name : String}
    {d : Datum} (hd : Keyed.find name ms = some d) :
    ∃ e, Keyed.find name others = some e ∧ d.readsAs e = true := by
  induction ms with
  | nil => cases hd
  | cons m rest ih =>
    obtain ⟨key, a⟩ := m
    rw [membersReadAs, Bool.and_eq_true] at h
    rw [Keyed.find] at hd
    split at hd
    · cases hd
      subst key
      cases he : Keyed.find name others with
      | none => simp [he] at h
      | some e => exact ⟨e, rfl, by simpa [he] using h.1⟩
    · exact ih h.2 hd

end Datum

namespace Members

/-- Whether the second members are what is read where the first were written. -/
def ReadAs (ms others : Members) : Prop :=
  ∀ name, Option.Rel (fun d e => d.readsAs e = true) (ms.get? name) (others.get? name)

theorem exists_of_readsAs {ms : Members} {e : Datum} (h : (Datum.record ms).readsAs e = true)
    (hd : (ms.map Prod.fst).Nodup) : ∃ others, e = .record others ∧ ms.ReadAs others := by
  cases e with
  | record others =>
    simp only [Datum.readsAs, Bool.and_eq_true, beq_iff_eq] at h
    refine ⟨others, rfl, fun name => ?_⟩
    simp only [get?]
    cases hm : Keyed.find name ms with
    | some d =>
      obtain ⟨e, he, hde⟩ := Datum.find_of_membersReadAs h.2 hm
      rw [he]
      exact .some hde
    | none =>
      have hsub : ms.map Prod.fst ⊆ others.map Prod.fst := by
        intro key hkey
        obtain ⟨d, hkd⟩ := Option.isSome_iff_exists.1 ((Keyed.find_isSome_iff key ms).2 hkey)
        obtain ⟨e, he, -⟩ := Datum.find_of_membersReadAs h.2 hkd
        exact (Keyed.find_isSome_iff key others).1 (by rw [he]; rfl)
      have hback := Model.subset_of_length hd hsub (by simpa using h.1.symm)
      have hnone : Keyed.find name others = none := by
        rw [← Option.not_isSome_iff_eq_none, Keyed.find_isSome_iff]
        intro hin
        have := (Keyed.find_isSome_iff name ms).2 (hback hin)
        rw [hm] at this
        cases this
      rw [hnone]
      exact .none
  | _ => simp [Datum.readsAs] at h

/-- A record of one member is one of one member. -/
theorem exists_of_readsAs_single {name : String} {d e : Datum}
    (h : (Datum.record [(name, d)]).readsAs e = true) :
    ∃ d', e = .record [(name, d')] ∧ d.readsAs d' = true := by
  obtain ⟨others, rfl, hall⟩ := exists_of_readsAs h (by simp)
  simp only [Datum.readsAs, Bool.and_eq_true, beq_iff_eq, List.length_singleton] at h
  obtain ⟨⟨key, d'⟩, rfl⟩ := List.length_eq_one_iff.1 h.1.symm
  have hname := hall name
  simp only [get?, Keyed.find, if_true] at hname
  split at hname
  · subst key
    cases hname with
    | some hd => exact ⟨d', rfl, hd⟩
  · cases hname

/-! ### Members that are written under conditions -/

@[simp]
theorem get?_append (ms ns : Members) (name : String) : (ms ++ ns).get? name = (ms.get? name).or (ns.get? name) := by
  simp only [get?]
  induction ms with
  | nil => rfl
  | cons m rest ih =>
    rw [List.cons_append, Keyed.find, Keyed.find]
    split
    · rfl
    · exact ih

@[simp]
theorem get?_cons (key : String) (d : Datum) (ms : Members) (name : String) :
    get? ((key, d) :: ms) name = if key = name then some d else ms.get? name := rfl

@[simp]
theorem get?_nil (name : String) : get? [] name = none := rfl

@[simp]
theorem get?_ofFlag (key : String) (value : Bool) (name : String) :
    (ofFlag key value).get? name = if key = name ∧ value = true then some (.bool true) else none := by
  cases value <;> simp [ofFlag, get?, Keyed.find]

@[simp]
theorem get?_ofOption {α : Type} (key : String) (write : α → Datum) (value : Option α) (name : String) :
    (ofOption key write value).get? name = if key = name then value.map write else none := by
  cases value <;> simp [ofOption, get?, Keyed.find]

theorem names_ofFlag (key : String) (value : Bool) : ((ofFlag key value).map Prod.fst).Sublist [key] := by
  cases value <;> simp [ofFlag]

theorem names_ofOption {α : Type} (key : String) (write : α → Datum) (value : Option α) :
    ((ofOption key write value).map Prod.fst).Sublist [key] := by
  cases value <;> simp [ofOption]

/-! ### Reading members -/

namespace ReadAs
variable {ms others : Members}

theorem get?_eq (h : ms.ReadAs others) {name : String} {d : Datum} (hd : ms.get? name = some d) :
    ∃ e, others.get? name = some e ∧ d.readsAs e = true := by
  have hname := h name
  rw [hd] at hname
  exact rel_exists_right hname

theorem get?_eq_none (h : ms.ReadAs others) {name : String} (hd : ms.get? name = none) : others.get? name = none := by
  have hname := h name
  rw [hd] at hname
  cases ho : others.get? name with
  | none => rfl
  | some e =>
    rw [ho] at hname
    cases hname

theorem required {α : Type} {read : Datum → Option α} {a : α} (h : ms.ReadAs others) (name : String)
    {d : Datum} (hd : ms.get? name = some d) (hread : ∀ e, d.readsAs e = true → read e = some a) :
    others.required name read = some a := by
  obtain ⟨e, he, hde⟩ := h.get?_eq hd
  rw [Members.required, he]
  exact hread e hde

theorem text (h : ms.ReadAs others) (name : String) {s : String} (hd : ms.get? name = some (.text s)) :
    others.required name Datum.text? = some s :=
  h.required name hd fun e he => by rw [Datum.eq_of_readsAs_text he]; rfl

theorem defaulted {α : Type} {read : Datum → Option α} {a fallback : α} (h : ms.ReadAs others)
    (name : String) {d : Datum} (hd : ms.get? name = some d) (hread : ∀ e, d.readsAs e = true → read e = some a) :
    others.defaulted name read fallback = some a := by
  obtain ⟨e, he, hde⟩ := h.get?_eq hd
  rw [Members.defaulted, he]
  exact hread e hde

theorem optional {α β : Type} {read : Datum → Option β} {write : α → Datum} {f : α → β} {o : Option α}
    (h : ms.ReadAs others) (name : String) (hd : ms.get? name = o.map write)
    (hread : ∀ a e, (write a).readsAs e = true → e ≠ .null ∧ read e = some (f a)) :
    others.optional name read = some (o.map f) := by
  cases o with
  | none =>
    rw [Members.optional, Members.defaulted, h.get?_eq_none hd]
    rfl
  | some a =>
    obtain ⟨e, he, hde⟩ := h.get?_eq hd
    obtain ⟨hnull, hr⟩ := hread a e hde
    rw [Members.optional, Members.defaulted, he]
    cases e with
    | null => exact absurd rfl hnull
    | _ => simp [hr]

theorem optionalText (h : ms.ReadAs others) (name : String) {o : Option String} (hd : ms.get? name = o.map .text) :
    others.optional name Datum.text? = some o := by
  have hread : others.optional name Datum.text? = some (o.map id) :=
    h.optional name hd fun s e he => by rw [Datum.eq_of_readsAs_text he]; exact ⟨nofun, rfl⟩
  rwa [Option.map_id] at hread

theorem flag (h : ms.ReadAs others) (name : String) {b : Bool}
    (hd : ms.get? name = if b then some (.bool true) else none) : others.flag name = some b := by
  cases b with
  | false =>
    rw [Members.flag, Members.defaulted, h.get?_eq_none hd]
  | true =>
    refine h.defaulted name hd fun e he => ?_
    rw [Datum.eq_of_readsAs_bool he]
    rfl

end ReadAs

end Members

end Schemata
