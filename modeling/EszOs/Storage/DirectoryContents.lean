import EszOs.Storage.DirectoryEntries

/-!
# Well-formed directory clusters

The records of a FAT directory are those of live entries, each behind its own long-name records,
deleted records, a volume label and the dot entries.

* `decode_contents_iff`: the entries that are read are those of the live entries exactly if the
  deleted records are harmless: none is an 8.3 record, and the deleted long-name records before a
  live entry do not change its name.
* `getEntriesInDir_contents`: the same for `get_entries_in_dir` on a cluster.
-/

namespace EszOs

/-! ## Contents -/

/-- The first byte of a deleted record. -/
def deletedMark : UInt8 := 0xE5

/-- A long-name record in use; its first byte is a sequence number, maybe with the mark of the
last piece. -/
def IsLongRecord (r : DirectoryEntry) : Prop :=
  r.isLFN = true ∧ r.firstByte.toNat < 128 ∧ 1 ≤ r.firstByte.toNat % 64 ∧ r.firstByte.toNat % 64 ≤ 20

instance (r : DirectoryEntry) : Decidable (IsLongRecord r) := inferInstanceAs (Decidable (_ ∧ _))

/-- The text of long-name records in their order on the disk. -/
def longText (records : List DirectoryEntry) : CString :=
  records.flatMap DirectoryEntry.longNamePart

/-- An 8.3 record in use, with the long-name records before it. -/
structure LiveEntry where
  record : DirectoryEntry
  longRecords : List DirectoryEntry
  used : record.firstByte ≠ 0
  not_deleted : record.firstByte ≠ deletedMark
  short : record.kind = .short
  long : ∀ r ∈ longRecords, IsLongRecord r
  fits : (longText longRecords).length < nameBytes

/-- The name from the entry's own records. -/
def LiveEntry.name (e : LiveEntry) : CString :=
  if e.longRecords = [] then e.record.shortName else longText e.longRecords

/-- What a directory is made of. -/
inductive DirItem
  | live (e : LiveEntry)
  | deleted (r : DirectoryEntry) (mark : r.firstByte = deletedMark)
  | label (r : DirectoryEntry) (used : r.firstByte ≠ 0) (not_deleted : r.firstByte ≠ deletedMark)
      (isLabel : r.isLFN = false ∧ r.volumeID = true)
  | dot (r : DirectoryEntry) (isDot : r.isDot = true)

namespace DirItem

def records : DirItem → List DirectoryEntry
  | live e => e.longRecords ++ [e.record]
  | deleted r _ => [r]
  | label r _ _ _ => [r]
  | dot r _ => [r]

/-- The entry that a reader of the directory expects. -/
def entry? : DirItem → Option Entry
  | live e => some (e.record.toEntry e.name)
  | _ => none

end DirItem

/-- A cluster holds the items, and behind them an end mark or nothing. -/
def IsContents (clusterSizeInBytes : Nat) (entries : Nat → DirectoryEntry) (items : List DirItem) :
    Prop :=
  ∃ rest, (List.range (maxEntryCount clusterSizeInBytes)).map entries =
      items.flatMap DirItem.records ++ rest ∧ ∀ r ∈ rest.head?, r.firstByte = 0

/-- The deleted records do not show, where `stray` are the deleted long-name records since the last
live entry. -/
def Harmless : List DirectoryEntry → List DirItem → Prop
  | _, [] => True
  | stray, .live e :: items =>
    (stray = [] ∨ longText stray ++ longText e.longRecords = e.name) ∧ Harmless [] items
  | stray, .deleted r _ :: items =>
    match r.kind with
    | .skipped => Harmless stray items
    | .long => (longText (stray ++ [r])).length < nameBytes ∧ Harmless (stray ++ [r]) items
    | .short => False
  | stray, .label .. :: items => Harmless stray items
  | stray, .dot .. :: items => Harmless stray items

/-! ## The records of an item -/

theorem IsLongRecord.kind {r : DirectoryEntry} (h : IsLongRecord r) : r.kind = .long := by
  obtain ⟨hlfn, -, -, hle⟩ := h
  have hdot : r.isDot = false := by
    have hne : r.firstByte ≠ 0x2E := fun h0 => by
      rw [h0] at hle
      exact absurd hle (by decide)
    simp [DirectoryEntry.isDot, hne]
  simp [DirectoryEntry.kind, hdot, hlfn]

theorem IsLongRecord.used {r : DirectoryEntry} (h : IsLongRecord r) : r.firstByte ≠ 0 := by
  intro h0
  have := h.2.2.1
  rw [h0] at this
  exact absurd this (by decide)

theorem kind_of_isDot {r : DirectoryEntry} (h : r.isDot = true) : r.kind = .skipped := if_pos h

theorem used_of_isDot {r : DirectoryEntry} (h : r.isDot = true) : r.firstByte ≠ 0 := by
  intro h0
  simp [DirectoryEntry.isDot, h0] at h

theorem kind_of_isLabel {r : DirectoryEntry} (h : r.isLFN = false ∧ r.volumeID = true) :
    r.kind = .skipped := by
  simp [DirectoryEntry.kind, h.1, h.2]

/-- No record of an item is an end mark. -/
theorem DirItem.records_used (item : DirItem) : ∀ r ∈ item.records, r.firstByte ≠ 0 := by
  intro r hr
  cases item with
  | live e =>
    rcases List.mem_append.mp hr with hr | hr
    · exact (e.long r hr).used
    · rw [List.mem_singleton.mp hr]
      exact e.used
  | deleted s mark =>
    rw [List.mem_singleton.mp hr, mark]
    decide
  | label s used _ _ =>
    rw [List.mem_singleton.mp hr]
    exact used
  | dot s isDot =>
    rw [List.mem_singleton.mp hr]
    exact used_of_isDot isDot

theorem IsContents.usedRecords {clusterSizeInBytes : Nat} {entries : Nat → DirectoryEntry}
    {items : List DirItem} (h : IsContents clusterSizeInBytes entries items) :
    usedRecords clusterSizeInBytes entries = items.flatMap DirItem.records := by
  obtain ⟨rest, hrecords, hend⟩ := h
  have hused : ∀ r ∈ items.flatMap DirItem.records, decide (r.firstByte ≠ 0) = true := fun r hr => by
    obtain ⟨item, -, hr⟩ := List.mem_flatMap.mp hr
    exact decide_eq_true (item.records_used r hr)
  rw [EszOs.usedRecords, hrecords, List.takeWhile_append_of_pos hused]
  cases rest with
  | nil => rw [List.takeWhile_nil, List.append_nil]
  | cons r rest =>
    rw [List.takeWhile_cons_of_neg (by simp [hend r rfl]), List.append_nil]

/-! ## Reading the items -/

@[simp] theorem longText_nil : longText [] = [] := rfl

@[simp] theorem longText_cons (r : DirectoryEntry) (records : List DirectoryEntry) :
    longText (r :: records) = r.longNamePart ++ longText records := rfl

@[simp] theorem longText_append (records records' : List DirectoryEntry) :
    longText (records ++ records') = longText records ++ longText records' :=
  List.flatMap_append

/-- The name that is collected from records. -/
def collected (records : List DirectoryEntry) : Option CString :=
  if records = [] then none else some (longText records)

theorem collected_getD (records : List DirectoryEntry) :
    (collected records).getD [] = longText records := by
  rw [collected]
  split
  · rename_i h
    rw [h]
    rfl
  · rfl

section Decode

variable {pending : Option CString} {r : DirectoryEntry} {records stray own : List DirectoryEntry}

theorem decode_skipped (h : r.kind = .skipped) :
    decode pending (r :: records) = decode pending records := by
  rw [decode, h]

theorem decode_long (h : r.kind = .long) : decode (collected stray) (r :: records) =
    if (longText (stray ++ [r])).length < nameBytes then decode (collected (stray ++ [r])) records
    else none := by
  have htext : (collected stray).getD [] ++ r.longNamePart = longText (stray ++ [r]) := by
    rw [collected_getD, longText_append, longText_cons, longText_nil, List.append_nil]
  have hsome : collected (stray ++ [r]) = some (longText (stray ++ [r])) := if_neg (by simp)
  rw [decode, h, hsome, ← htext]
  rfl

theorem decode_short (h : r.kind = .short) : decode pending (r :: records) =
    (decode none records).map (r.toEntry (pending.getD r.shortName) :: ·) := by
  rw [decode, h]

/-- The long-name records of an entry are collected behind those that are there. -/
theorem decode_longRecords (hown : ∀ r ∈ own, r.kind = .long) :
    decode (collected stray) (own ++ records) =
      if own = [] ∨ (longText (stray ++ own)).length < nameBytes then
        decode (collected (stray ++ own)) records
      else none := by
  induction own generalizing stray with
  | nil => simp
  | cons r own ih =>
    have hassoc : stray ++ [r] ++ own = stray ++ r :: own := by simp
    have hle : (longText (stray ++ [r])).length ≤ (longText (stray ++ r :: own)).length := by
      rw [← hassoc, longText_append (stray ++ [r]), List.length_append]
      exact Nat.le_add_right _ _
    rw [List.cons_append, decode_long (hown r List.mem_cons_self),
      ih fun s hs => hown s (List.mem_cons_of_mem _ hs), hassoc]
    by_cases hfit : (longText (stray ++ r :: own)).length < nameBytes
    · rw [if_pos (Nat.lt_of_le_of_lt hle hfit), if_pos (.inr hfit), if_pos (.inr hfit)]
    · rw [if_neg (not_or.mpr ⟨List.cons_ne_nil r own, hfit⟩)]
      by_cases hnil : own = []
      · subst hnil
        exact if_neg hfit
      · rw [if_neg (not_or.mpr ⟨hnil, hfit⟩), ite_self]

/-- There is an entry for each 8.3 record. -/
theorem decode_length {entries : List Entry} (h : decode pending records = some entries) :
    entries.length = records.countP fun r => r.kind = .short := by
  induction records generalizing pending entries with
  | nil =>
    rw [decode] at h
    rw [← Option.some.inj h]
    rfl
  | cons r records ih =>
    rw [decode] at h
    cases hkind : r.kind with
    | skipped =>
      rw [hkind] at h
      rw [List.countP_cons_of_neg (by simp [hkind])]
      exact ih h
    | long =>
      rw [hkind] at h
      rw [List.countP_cons_of_neg (by simp [hkind])]
      simp only at h
      split at h
      · exact ih h
      · cases h
    | short =>
      rw [hkind] at h
      obtain ⟨es, hes, rfl⟩ := Option.map_eq_some_iff.mp h
      rw [List.countP_cons_of_pos (by simp [hkind]), List.length_cons, ih hes]

end Decode

/-! ## Deleted records -/

theorem entries_live (e : LiveEntry) (items : List DirItem) :
    (DirItem.live e :: items).filterMap DirItem.entry? =
      e.record.toEntry e.name :: items.filterMap DirItem.entry? := rfl

/-- Every live entry has an 8.3 record. -/
theorem entries_length_le (items : List DirItem) : (items.filterMap DirItem.entry?).length ≤
    (items.flatMap DirItem.records).countP fun r => r.kind = .short := by
  induction items with
  | nil => rfl
  | cons item items ih =>
    rw [List.flatMap_cons, List.countP_append]
    cases item with
    | live e =>
      rw [entries_live, List.length_cons, DirItem.records, List.countP_append,
        List.countP_cons_of_pos (by simp [e.short])]
      omega
    | deleted r mark =>
      rw [List.filterMap_cons_none rfl]
      omega
    | label r used not_deleted isLabel =>
      rw [List.filterMap_cons_none rfl]
      omega
    | dot r isDot =>
      rw [List.filterMap_cons_none rfl]
      omega

/-- The name that is put out for an entry behind deleted long-name records. -/
theorem collected_name_iff (stray : List DirectoryEntry) (e : LiveEntry) :
    (collected (stray ++ e.longRecords)).getD e.record.shortName = e.name ↔
      stray = [] ∨ longText stray ++ longText e.longRecords = e.name := by
  rw [collected]
  by_cases hstray : stray = []
  · subst hstray
    refine iff_of_true ?_ (.inl rfl)
    rw [List.nil_append, LiveEntry.name]
    split
    · rfl
    · rfl
  · rw [if_neg (by simp [hstray]), longText_append]
    simp [hstray]

/-- An entry's own name fits. -/
theorem LiveEntry.name_length_lt (e : LiveEntry) : e.name.length < nameBytes := by
  rw [name]
  split
  · exact Nat.lt_of_le_of_lt e.record.shortName_length_le (by decide)
  · exact e.fits

theorem decode_live (stray : List DirectoryEntry) (e : LiveEntry) (records : List DirectoryEntry)
    (entries : List Entry) :
    decode (collected stray) (e.longRecords ++ [e.record] ++ records) =
        some (e.record.toEntry e.name :: entries) ↔
      (stray = [] ∨ longText stray ++ longText e.longRecords = e.name) ∧
        decode none records = some entries := by
  rw [List.append_assoc, decode_longRecords fun r hr => (e.long r hr).kind]
  split
  · rw [List.singleton_append, decode_short e.short, Option.map_eq_some_iff,
      ← collected_name_iff stray e]
    constructor
    · rintro ⟨es, hes, heq⟩
      obtain ⟨hentry, rfl⟩ := List.cons.inj heq
      exact ⟨congrArg Entry.name hentry, hes⟩
    · rintro ⟨hname, hes⟩
      exact ⟨entries, hes, by rw [hname]⟩
  · rename_i hfit
    refine iff_of_false (by simp) fun h => hfit (.inr ?_)
    rcases h.1 with rfl | hname
    · exact e.fits
    · rw [longText_append, hname]
      exact e.name_length_lt

/-- The entries of the live records are read exactly if the deleted records are harmless. -/
theorem decode_contents_iff (stray : List DirectoryEntry) (items : List DirItem) :
    decode (collected stray) (items.flatMap DirItem.records) =
      some (items.filterMap DirItem.entry?) ↔ Harmless stray items := by
  induction items generalizing stray with
  | nil => exact iff_of_true rfl trivial
  | cons item items ih =>
    rw [List.flatMap_cons]
    cases item with
    | live e =>
      rw [entries_live]
      exact (decode_live stray e _ _).trans (and_congr_right fun _ => ih [])
    | deleted r mark =>
      rw [List.filterMap_cons_none rfl, DirItem.records, List.singleton_append, Harmless]
      cases hkind : r.kind with
      | skipped =>
        rw [decode_skipped hkind]
        exact ih stray
      | long =>
        rw [decode_long hkind]
        split
        · rename_i hfit
          exact (ih (stray ++ [r])).trans (and_iff_right hfit).symm
        · rename_i hfit
          exact iff_of_false (by simp) fun h => hfit h.1
      | short =>
        refine iff_of_false (fun h => ?_) id
        have hlength := decode_length h
        have hle := entries_length_le items
        rw [List.countP_cons_of_pos (by simp [hkind])] at hlength
        omega
    | label r used not_deleted isLabel =>
      rw [List.filterMap_cons_none rfl, DirItem.records, List.singleton_append,
        decode_skipped (kind_of_isLabel isLabel)]
      exact ih stray
    | dot r isDot =>
      rw [List.filterMap_cons_none rfl, DirItem.records, List.singleton_append,
        decode_skipped (kind_of_isDot isDot)]
      exact ih stray

/-- On a well-formed cluster `get_entries_in_dir` puts out the entries of the live records, each
with its own name, exactly if the deleted records are harmless. -/
theorem getEntriesInDir_contents {clusterSizeInBytes : Nat} {entries : Nat → DirectoryEntry}
    {items : List DirItem} (h : IsContents clusterSizeInBytes entries items) :
    (getEntriesInDir clusterSizeInBytes entries (clearedEntries clusterSizeInBytes) 0).map
        Listing.entries = .ok (items.filterMap DirItem.entry?) ↔ Harmless [] items := by
  rw [getEntriesInDir_decode, h.usedRecords, ← decode_contents_iff]
  show listed (decode none _) = _ ↔ decode none _ = _
  cases decode none (items.flatMap DirItem.records) with
  | none => exact iff_of_false (by simp [listed]) (by simp)
  | some es => simp [listed]

/-- The record of the file FOO.TXT, empty. -/
def fooRecord : DirectoryEntry := fun i =>
  if i.val = 11 then 0x20 else (literal "FOO     TXT").getD i 0

/-- The record of FOO.TXT after the file is deleted. -/
def deletedFooRecord : DirectoryEntry := fun i => if i.val = 0 then deletedMark else fooRecord i

theorem fooRecord_used : fooRecord.firstByte ≠ 0 := by decide

theorem fooRecord_not_deleted : fooRecord.firstByte ≠ deletedMark := by decide

theorem fooRecord_short : fooRecord.kind = .short := by decide

def foo : LiveEntry where
  record := fooRecord
  longRecords := []
  used := fooRecord_used
  not_deleted := fooRecord_not_deleted
  short := fooRecord_short
  long := fun _ h => by cases h
  fits := by decide

/-- A cluster with records. -/
def recordArray (records : List DirectoryEntry) (i : Nat) : DirectoryEntry :=
  records.getD i fun _ => 0

/-- A volume label. -/
def labelRecord : DirectoryEntry := fun i =>
  if i.val = 11 then 0x08 else (literal "ESZ-OS     ").getD i 0

/-- The entry `.`. -/
def dotRecord : DirectoryEntry := fun i =>
  if i.val = 11 then 0x10 else (literal ".          ").getD i 0

/-- A long-name record with the letter x, deleted. -/
def deletedLongRecord : DirectoryEntry := fun i =>
  if i.val = 0 then deletedMark else if i.val = 1 then 0x78 else if i.val = 11 then 0x0F else 0

/-- A label, a dot entry and a deleted long-name record beside the file. -/
theorem getEntriesInDir_foo :
    (getEntriesInDir 160 (recordArray [labelRecord, dotRecord, fooRecord, deletedLongRecord])
      (clearedEntries 160) 0).map Listing.entries = .ok [fooRecord.toEntry (literal "foo.txt")] := by
  have hcontents : IsContents 160
      (recordArray [labelRecord, dotRecord, fooRecord, deletedLongRecord])
      [.label labelRecord (by decide) (by decide) (by decide), .dot dotRecord (by decide), .live foo,
        .deleted deletedLongRecord rfl] :=
    ⟨[fun _ => 0], rfl, fun r hr => by cases hr; rfl⟩
  have hname : foo.name = literal "foo.txt" := by decide +kernel
  have hharmless : Harmless [] [.label labelRecord (by decide) (by decide) (by decide),
      .dot dotRecord (by decide), .live foo, .deleted deletedLongRecord rfl] :=
    ⟨.inl rfl, by decide +kernel, trivial⟩
  rw [(getEntriesInDir_contents hcontents).mpr hharmless]
  show Except.ok [foo.record.toEntry foo.name] = _
  rw [hname]
  rfl

/-- A deleted file is put out. -/
theorem getEntriesInDir_deletedFoo :
    ¬ ∀ (clusterSizeInBytes : Nat) (entries : Nat → DirectoryEntry) (items : List DirItem),
      IsContents clusterSizeInBytes entries items →
      (getEntriesInDir clusterSizeInBytes entries (clearedEntries clusterSizeInBytes) 0).map
        Listing.entries = .ok (items.filterMap DirItem.entry?) := by
  intro h
  have hcontents : IsContents 64 (recordArray [deletedFooRecord]) [.deleted deletedFooRecord rfl] :=
    ⟨[fun _ => 0], rfl, fun r hr => by cases hr; rfl⟩
  have hentries := h 64 _ _ hcontents
  have hlength : ((getEntriesInDir 64 (recordArray [deletedFooRecord]) (clearedEntries 64) 0).map
      Listing.entries).toOption.map List.length = some 1 := by
    decide +kernel
  rw [hentries] at hlength
  exact absurd hlength (by decide)

end EszOs
