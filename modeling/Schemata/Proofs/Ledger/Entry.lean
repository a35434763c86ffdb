import Schemata.Ledger.Entry
import Schemata.Proofs.Calendar.Reading
import Schemata.Proofs.Toml.Lines

/-! The document of a ledger reads back as the entries that it was written for. -/
namespace Schemata.Ledger
open Toml

/-! ### One entry -/

namespace Entry

theorem ofDatum?_toDatum {e : Entry} (h : e.appliedAt.Proper) : ofDatum? e.toDatum = some e := by
  simp [ofDatum?, toDatum, members, Datum.members?, Members.required, Members.get?, Keyed.find,
    Datum.text?, Calendar.Instant.read?_rfc3339 h]

theorem proper_of_ofDatum? {d : Datum} {e : Entry} (h : ofDatum? d = some e) : e.appliedAt.Proper := by
  simp only [ofDatum?, bind, Option.bind_eq_some_iff, pure, Option.some.injEq, Members.required] at h
  obtain ⟨_, -, _, -, _, -, _, -, _, ⟨_, -, _, -, hread⟩, rfl⟩ := h
  exact Calendar.Instant.proper_of_read? hread

/-- The items of an entry. -/
def items (e : Entry) : List Item :=
  [.element ["entries"], .entry ["migration"] (.text e.migration),
    .entry ["engine"] (.text e.engine), .entry ["checksum"] (.text e.checksum),
    .entry ["applied_at"] (.text e.appliedAt.rfc3339)]

/-- The lines of an entry. -/
def lines (e : Entry) : List Char :=
  elementLine "entries" ++ (textLine "migration" e.migration ++ (textLine "engine" e.engine ++
    (textLine "checksum" e.checksum ++ textLine "applied_at" e.appliedAt.rfc3339)))

theorem isBare_entries : IsBare "entries" := ⟨by decide, by decide⟩

theorem isBare_migration : IsBare "migration" := ⟨by decide, by decide⟩

theorem isBare_engine : IsBare "engine" := ⟨by decide, by decide⟩

theorem isBare_checksum : IsBare "checksum" := ⟨by decide, by decide⟩

theorem isBare_appliedAt : IsBare "applied_at" := ⟨by decide, by decide⟩

theorem lines?_lines (e : Entry) (most : Nat) (tail : List Char) :
    lines? (most + 5) (e.lines ++ tail) = (lines? most tail).map (e.items ++ ·) := by
  simp only [lines, List.append_assoc, lines?_elementLine isBare_entries,
    lines?_textLine isBare_migration, lines?_textLine isBare_engine,
    lines?_textLine isBare_checksum, lines?_textLine isBare_appliedAt, Option.map_map]
  rfl

theorem not_mem_lines (e : Entry) : '\r' ∉ e.lines := by
  simp [lines, not_mem_elementLine isBare_entries, not_mem_textLine isBare_migration,
    not_mem_textLine isBare_engine, not_mem_textLine isBare_checksum,
    not_mem_textLine isBare_appliedAt]

theorem length_lines (e : Entry) : 5 ≤ e.lines.length := by
  have hlen : 5 ≤ (elementLine "entries").length := by decide
  rw [lines, List.length_append]
  omega

/-- The table that an entry is read to. -/
def table (e : Entry) : Table :=
  .mk .header [("migration", .value (.text e.migration)), ("engine", .value (.text e.engine)),
    ("checksum", .value (.text e.checksum)), ("applied_at", .value (.text e.appliedAt.rfc3339))]

theorem toMembers_table (e : Entry) : e.table.toMembers = e.members := rfl

end Entry

/-! ### Writing -/

theorem ofElements_entries (entries : List Entry) :
    Item.ofElements ["entries"] (entries.map Entry.toDatum) = entries.flatMap Entry.items := by
  induction entries with
  | nil => rfl
  | cons e rest ih => simp [Item.ofElements, ih, Item.ofElement, Entry.toDatum, Entry.members,
      Item.entries, Item.isPart, Item.ofParts, Item.ofPart, Entry.items]

theorem ofMembers_document {entries : List Entry} (h : entries ≠ []) :
    Item.ofMembers (document entries) = entries.flatMap Entry.items := by
  have hrecords : (entries.map Entry.toDatum).all Item.isRecord = true := by
    simp [Item.isRecord, Entry.toDatum]
  have hpart : Item.isPart (.list (entries.map Entry.toDatum)) = true := by
    simp [Item.isPart, hrecords, h]
  simp [document, Item.ofMembers, Item.entries, hpart, Item.ofParts, Item.ofPart,
    ofElements_entries]

theorem toList_items (e : Entry) :
    (e.items.map Item.line).flatMap String.toList = e.lines := by
  simp only [Entry.items, Entry.lines, List.map_cons, List.map_nil, List.flatMap_cons,
    List.flatMap_nil, List.append_nil, toList_line_element Entry.isBare_entries,
    toList_line_entry Entry.isBare_migration, toList_line_entry Entry.isBare_engine,
    toList_line_entry Entry.isBare_checksum, toList_line_entry Entry.isBare_appliedAt]

theorem toList_nextItems (e : Entry) :
    (e.items.map Item.nextLine).flatMap String.toList = '\n' :: e.lines := by
  rw [← toList_items]
  simp [Entry.items, Item.nextLine, Item.isHeader]

theorem toList_nextLines (entries : List Entry) :
    ((entries.flatMap Entry.items).map Item.nextLine).flatMap String.toList =
      entries.flatMap fun e => '\n' :: e.lines := by
  induction entries with
  | nil => rfl
  | cons e rest ih =>
    rw [List.flatMap_cons, List.map_append, List.flatMap_append, ih, toList_nextItems,
      List.flatMap_cons]

theorem toList_write (e : Entry) (rest : List Entry) :
    (write (e :: rest)).toList = e.lines ++ rest.flatMap fun e => '\n' :: e.lines := by
  rw [write, Toml.write, ofMembers_document (List.cons_ne_nil e rest), List.flatMap_cons,
    ← toList_nextLines, ← toList_items]
  simp [Entry.items, writeItems, String.toList_join, Item.nextLine, Item.isHeader]

/-! ### Reading -/

theorem lines?_flatMap (entries : List Entry) {most : Nat} (h : 6 * entries.length < most) :
    lines? most (entries.flatMap fun e => '\n' :: e.lines) = some (entries.flatMap Entry.items) := by
  induction entries generalizing most with
  | nil =>
    obtain ⟨most, rfl⟩ : ∃ n, most = n + 1 := ⟨most - 1, by simp at h; omega⟩
    rfl
  | cons e rest ih =>
    obtain ⟨most, rfl⟩ : ∃ n, most = n + 6 := ⟨most - 6, by simp at h; omega⟩
    have hrest := @ih most (by simp at h; omega)
    rw [List.flatMap_cons, List.cons_append, lines?_feed, Entry.lines?_lines, hrest]
    rfl

theorem length_flatMap_lines (entries : List Entry) :
    6 * entries.length ≤ (entries.flatMap fun e => '\n' :: e.lines).length := by
  induction entries with
  | nil => exact Nat.le_refl _
  | cons e rest ih =>
    have hlen := e.length_lines
    simp only [List.flatMap_cons, List.length_append, List.length_cons]
    omega

theorem not_mem_flatMap_lines (entries : List Entry) :
    '\r' ∉ entries.flatMap fun e => '\n' :: e.lines := by
  simp [Entry.not_mem_lines]

/-- The text of a document of entries is read into their items. -/
theorem lines?_write (e : Entry) (rest : List Entry) :
    lines? ((write (e :: rest)).toList.length + 1) (write (e :: rest)).toList =
      some ((e :: rest).flatMap Entry.items) := by
  have hlen := e.length_lines
  have hrest := length_flatMap_lines rest
  rw [toList_write, List.length_append]
  generalize hmost : e.lines.length + (rest.flatMap fun e => '\n' :: e.lines).length + 1 = most
  obtain ⟨most, rfl⟩ : ∃ n, most = n + 5 := ⟨most - 5, by omega⟩
  rw [Entry.lines?_lines, lines?_flatMap rest (by omega)]
  rfl

theorem unify_write (e : Entry) (rest : List Entry) :
    unifyLineEnds (dropMark (write (e :: rest)).toList) = (write (e :: rest)).toList := by
  rw [toList_write]
  have hmark : dropMark (e.lines ++ rest.flatMap fun e => '\n' :: e.lines) =
      e.lines ++ rest.flatMap fun e => '\n' :: e.lines := rfl
  rw [hmark]
  refine unifyLineEnds_of_not_mem ?_
  rw [List.mem_append, not_or]
  exact ⟨e.not_mem_lines, not_mem_flatMap_lines rest⟩

/-! ### The tree -/

/-- What is put together of a document with these elements. -/
def assembled (first : List Table) (last : Table) : Assembly :=
  ⟨.mk .header [("entries", .elements first last)], ["entries"]⟩

theorem foldlM_items_first (e : Entry) :
    e.items.foldlM Assembly.add Assembly.empty = some (assembled [] e.table) := by
  rfl

theorem foldlM_items (e : Entry) (first : List Table) (last : Table) :
    e.items.foldlM Assembly.add (assembled first last) =
      some (assembled (first ++ [last]) e.table) := by
  rfl

/-- The elements of a document are in the order of its entries. -/
theorem foldlM_flatMap_items (entries : List Entry) (first : List Table) (last : Table) :
    ∃ first' last', (entries.flatMap Entry.items).foldlM Assembly.add (assembled first last) =
        some (assembled first' last') ∧
      first' ++ [last'] = first ++ last :: entries.map Entry.table := by
  induction entries generalizing first last with
  | nil => exact ⟨first, last, rfl, rfl⟩
  | cons e rest ih =>
    obtain ⟨first', last', hfold, heq⟩ := ih (first ++ [last]) e.table
    refine ⟨first', last', ?_, by rw [heq]; simp⟩
    rw [List.flatMap_cons, List.foldlM_append, foldlM_items]
    exact hfold

theorem listToDatum_eq (tables : List Table) :
    Table.listToDatum tables = tables.map fun t => .record t.toMembers := by
  induction tables with
  | nil => rfl
  | cons t rest ih => rw [Table.listToDatum, ih, List.map_cons]

theorem toMembers_assembled (first : List Table) (last : Table) :
    (assembled first last).root.toMembers =
      [("entries", .list ((first ++ [last]).map fun t => .record t.toMembers))] := by
  simp [assembled, Table.toMembers, Table.membersToDatum, Node.toDatum, listToDatum_eq]

theorem assemble?_items (e : Entry) (rest : List Entry) :
    assemble? ((e :: rest).flatMap Entry.items) = some (document (e :: rest)) := by
  obtain ⟨first', last', hfold, heq⟩ := foldlM_flatMap_items rest [] e.table
  have hall : (e.items ++ rest.flatMap Entry.items).foldlM Assembly.add Assembly.empty =
      some (assembled first' last') := by
    rw [List.foldlM_append, foldlM_items_first]
    exact hfold
  rw [List.flatMap_cons, assemble?, hall, Option.map_some, toMembers_assembled, heq]
  simp [document, Entry.toMembers_table, Entry.toDatum, Function.comp_def]

/-! ### Both together -/

theorem mapM_ofDatum? {entries : List Entry} (h : ∀ e ∈ entries, e.appliedAt.Proper) :
    (entries.map Entry.toDatum).mapM Entry.ofDatum? = some entries := by
  induction entries with
  | nil => rfl
  | cons e rest ih =>
    have hrest := ih fun x hx => h x (List.mem_cons_of_mem _ hx)
    simp [List.mapM_cons, Entry.ofDatum?_toDatum (h e List.mem_cons_self), hrest]

theorem exists_of_mapM {items : List Datum} {entries : List Entry}
    (h : items.mapM Entry.ofDatum? = some entries) :
    ∀ e ∈ entries, ∃ d, Entry.ofDatum? d = some e := by
  induction items generalizing entries with
  | nil =>
    have hnil : entries = [] := by simpa using h.symm
    simp [hnil]
  | cons d rest ih =>
    simp only [List.mapM_cons, bind, Option.bind_eq_some_iff, pure, Option.some.injEq] at h
    obtain ⟨first, hfirst, others, hothers, rfl⟩ := h
    intro e he
    rcases List.mem_cons.1 he with rfl | he
    · exact ⟨d, hfirst⟩
    · exact ih hothers e he

theorem read?_write (e : Entry) (rest : List Entry) :
    Toml.read? (write (e :: rest)) = some (.record (document (e :: rest))) := by
  simp only [Toml.read?, unify_write, lines?_write, bind, Option.bind, assemble?_items]
  rfl

/-- **A ledger reads back as the entries that it was written for.** -/
theorem read_write {entries : List Entry} (h : ∀ e ∈ entries, e.appliedAt.Proper) :
    read (write entries) = .ok entries := by
  cases entries with
  | nil =>
    have hnone : (Toml.read? (write [])).bind ofDocument? = some [] := by decide +kernel
    simp only [read, hnone]
  | cons e rest =>
    simp only [read, read?_write, Option.bind_some, ofDocument?, Datum.members?, document, bind,
      Members.defaulted, Members.get?, Keyed.find, if_true, Datum.listOf?, mapM_ofDatum? h]

/-- All entries that are read were recorded at a time that a clock can show. -/
theorem proper_of_read {text : String} {entries : List Entry} (h : read text = .ok entries) :
    ∀ e ∈ entries, e.appliedAt.Proper := by
  have hdocument : (Toml.read? text).bind ofDocument? = some entries := by
    unfold read at h
    split at h
    · rename_i read hread
      rwa [Except.ok.inj h] at hread
    · cases h
  simp only [Option.bind_eq_some_iff, ofDocument?, bind, Members.defaulted] at hdocument
  obtain ⟨d, -, members, -, hentries⟩ := hdocument
  split at hentries
  · rename_i d _
    cases d with
    | list items =>
      intro e he
      obtain ⟨d, hd⟩ := exists_of_mapM hentries e he
      exact Entry.proper_of_ofDatum? hd
    | _ => cases hentries
  · simp only [Option.some.injEq] at hentries
    subst hentries
    simp

end Schemata.Ledger
