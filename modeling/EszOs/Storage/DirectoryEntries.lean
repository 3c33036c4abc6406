import EszOs.Config
import EszOs.Lib.Stretches
import EszOs.Types.Text

/-!
# Reading a directory cluster (`storage/filesystem/fat32/fat32.cpp`)

A cluster of a directory is an array of 32-byte records. A long name is stored in the records before
the record of its file, and `get_entries_in_dir` collects it in the `Name` of the next output entry.

* `getEntriesInDir_decode`: what the function returns is `decode`, a function of the records alone.
* `getEntriesInDir_bounds`: the output array is always large enough. The names fit exactly if no
  stretch of records without an 8.3 record holds more long-name characters than a `Name`.
-/

namespace EszOs

/-! ## Records -/

/-- The bytes of a `Directory_Entry`, which is also an `LFN_Entry_Struct`. -/
abbrev DirectoryEntry := Fin 32 → UInt8

namespace DirectoryEntry

variable (e : DirectoryEntry)

/-- `Name[0]`, which is also the sequence number of a long-name record. -/
def firstByte : UInt8 := e 0

def attributes : UInt8 := e 11

def volumeID : Bool := e.attributes.toNat.testBit 3

def directory : Bool := e.attributes.toNat.testBit 4

/-- `isLFN`: the bits ReadOnly, Hidden, System and VolumeID. -/
def isLFN : Bool :=
  e.attributes.toNat.testBit 0 && e.attributes.toNat.testBit 1 && e.attributes.toNat.testBit 2 &&
    e.attributes.toNat.testBit 3

def firstClusterHigh : Nat := (e 20).toNat + 256 * (e 21).toNat

def firstClusterLow : Nat := (e 26).toNat + 256 * (e 27).toNat

def firstCluster : Nat := e.firstClusterHigh <<< 16 ||| e.firstClusterLow

def fileSize : Nat :=
  (e 28).toNat + 256 * ((e 29).toNat + 256 * ((e 30).toNat + 256 * (e 31).toNat))

def nameChars1 : List (UInt8 × UInt8) := [(e 1, e 2), (e 3, e 4), (e 5, e 6), (e 7, e 8), (e 9, e 10)]

def nameChars2 : List (UInt8 × UInt8) :=
  [(e 14, e 15), (e 16, e 17), (e 18, e 19), (e 20, e 21), (e 22, e 23), (e 24, e 25)]

def nameChars3 : List (UInt8 × UInt8) := [(e 28, e 29), (e 30, e 31)]

/-- `String(part1, part2, part3)` of a long-name record. -/
def longNamePart : CString :=
  utf16TextToAscii e.nameChars1 ++ utf16TextToAscii e.nameChars2 ++ utf16TextToAscii e.nameChars3

/-- The first 8 bytes of `Name`, which are copied to `namePart`. -/
def nameField : List UInt8 := [e 0, e 1, e 2, e 3, e 4, e 5, e 6, e 7]

/-- The last 3 bytes of `Name`, which are copied to `extPart`. -/
def extField : List UInt8 := [e 8, e 9, e 10]

/-- `namePart` after it is trimmed. -/
def namePart : CString := strTrim (cstring [e 0, e 1, e 2, e 3, e 4, e 5, e 6, e 7])

/-- `extPart` after it is trimmed. -/
def extPart : CString := strTrim (cstring [e 8, e 9, e 10])

/-- The name of an 8.3 record. -/
def shortName : CString :=
  if e.extPart = [] then strToLower e.namePart
  else strToLower (e.namePart ++ literal "." ++ e.extPart)

/-- The entries `.` and `..`. -/
def isDot : Bool :=
  (e.firstByte == 0x2E && e 1 == space) ||
    (e.firstByte == 0x2E && e 1 == 0x2E && e 2 == space)

end DirectoryEntry

/-! ## Entries -/

/-- The size of `Entry::Name`. -/
def nameBytes : Nat := 256

/-- `Entry`; the name is the C string in `Name`. A cleared one has the default values. -/
structure Entry where
  name : CString := []
  size : Nat := 0
  isDirectory : Bool := false
  firstCluster : Nat := 0
  found : Bool := false
  deriving DecidableEq

/-- An entry of zero bytes. -/
def Entry.empty : Entry := {}

/-- Where `get_entries_in_dir` leaves its memory. -/
inductive DirFault
  /-- A name is stored behind `Entry::Name`. -/
  | nameOverrun
  /-- `outEntries` is accessed behind its end. -/
  | outEntriesOverrun
  deriving DecidableEq

/-- Put a name into `Name`, with its terminator. -/
def Entry.setName (slot : Entry) (name : CString) : Except DirFault Entry :=
  if name.length + 1 ≤ nameBytes then .ok { slot with name := name } else .error .nameOverrun

/-- The output of `get_entries_in_dir` and its `gotLongName`. -/
structure Listing where
  outEntries : List Entry
  outEntryCount : Nat
  gotLongName : Bool

/-- The entries that are counted. -/
def Listing.entries (l : Listing) : List Entry := l.outEntries.take l.outEntryCount

/-- Change `outEntries[outEntryCount]`. -/
def Listing.modifySlot (l : Listing) (f : Entry → Except DirFault Entry) :
    Except DirFault Listing :=
  match l.outEntries[l.outEntryCount]? with
  | none => .error .outEntriesOverrun
  | some slot => do
    let slot ← f slot
    return { l with outEntries := l.outEntries.set l.outEntryCount slot }

/-- The data of an 8.3 record besides its name. -/
def Entry.setData (slot : Entry) (e : DirectoryEntry) : Entry :=
  { slot with size := e.fileSize, isDirectory := e.directory, firstCluster := e.firstCluster }

/-- Copy the 8.3 name if no long name was collected. -/
def Listing.copyShortName (l : Listing) (e : DirectoryEntry) : Except DirFault Listing :=
  if l.gotLongName then .ok l else l.modifySlot fun slot => slot.setName e.shortName

/-- The body of the loop, behind the check for the end. -/
def entryStep (l : Listing) (e : DirectoryEntry) : Except DirFault Listing :=
  if e.isDot then .ok l
  else if ¬ e.isLFN ∧ e.volumeID then .ok l
  else if e.isLFN then do
    let l ← l.modifySlot fun slot => slot.setName (strAdd slot.name e.longNamePart)
    return { l with gotLongName := true }
  else do
    let l ← l.copyShortName e
    let l ← l.modifySlot fun slot => .ok (slot.setData e)
    return { l with outEntryCount := l.outEntryCount + 1, gotLongName := false }

/-- The loop of `get_entries_in_dir`; `n` records are left, the next one is record `i`. -/
def entriesLoop (entries : Nat → DirectoryEntry) : Nat → Nat → Listing → Except DirFault Listing
  | 0, _, l => .ok l
  | n + 1, i, l =>
    if (entries i).firstByte = 0 then .ok l
    else do
      let l ← entryStep l (entries i)
      entriesLoop entries n (i + 1) l

/-- The number of records of a cluster. -/
def maxEntryCount (clusterSizeInBytes : Nat) : Nat := u32 (clusterSizeInBytes / 32)

def getEntriesInDir (clusterSizeInBytes : Nat) (entries : Nat → DirectoryEntry)
    (outEntries : List Entry) (outEntryCount : Nat) : Except DirFault Listing :=
  entriesLoop entries (maxEntryCount clusterSizeInBytes) 0
    { outEntries, outEntryCount, gotLongName := false }

/-- The output array as the callers pass it, after `memory_clear`. -/
def clearedEntries (clusterSizeInBytes : Nat) : List Entry :=
  List.replicate (maxEntryCount clusterSizeInBytes) .empty

/-- The records before the end mark or the end of the cluster. -/
def usedRecords (clusterSizeInBytes : Nat) (entries : Nat → DirectoryEntry) :
    List DirectoryEntry :=
  ((List.range (maxEntryCount clusterSizeInBytes)).map entries).takeWhile fun e => e.firstByte ≠ 0

/-! ## The kinds of records -/

/-- What the loop does with a record: pass over it, collect its characters, or put out an entry. -/
inductive RecordKind
  | skipped
  | long
  | short
  deriving DecidableEq

def DirectoryEntry.kind (e : DirectoryEntry) : RecordKind :=
  if e.isDot then .skipped
  else if e.isLFN then .long
  else if e.volumeID then .skipped
  else .short

/-- The entry of an 8.3 record with a name. -/
def DirectoryEntry.toEntry (e : DirectoryEntry) (name : CString) : Entry :=
  { name, size := e.fileSize, isDirectory := e.directory, firstCluster := e.firstCluster }

/-- The entries of the records, when the long-name records before them hold `pending`; `none` if a
name gets too long. -/
def decode : Option CString → List DirectoryEntry → Option (List Entry)
  | _, [] => some []
  | pending, e :: records =>
    match e.kind with
    | .skipped => decode pending records
    | .long =>
      let name := pending.getD [] ++ e.longNamePart
      if name.length + 1 ≤ nameBytes then decode (some name) records else none
    | .short => (decode none records).map (e.toEntry (pending.getD e.shortName) :: ·)

/-- Every entry comes from a record. -/
theorem mem_decode {pending : Option CString} {records : List DirectoryEntry} {entries : List Entry}
    (h : decode pending records = some entries) {e : Entry} (he : e ∈ entries) :
    ∃ r ∈ records, ∃ name, e = r.toEntry name := by
  induction records generalizing pending entries with
  | nil =>
    rw [decode] at h
    rw [← Option.some.inj h] at he
    cases he
  | cons r records ih =>
    have htail : ∀ {pending entries}, decode pending records = some entries → e ∈ entries →
        ∃ r' ∈ r :: records, ∃ name, e = r'.toEntry name := fun h he => by
      obtain ⟨r', hr', hname⟩ := ih h he
      exact ⟨r', List.mem_cons_of_mem _ hr', hname⟩
    rw [decode] at h
    cases hkind : r.kind with
    | skipped =>
      rw [hkind] at h
      exact htail h he
    | long =>
      rw [hkind] at h
      simp only at h
      split at h
      · exact htail h he
      · cases h
    | short =>
      rw [hkind] at h
      obtain ⟨es, hes, rfl⟩ := Option.map_eq_some_iff.mp h
      rcases List.mem_cons.mp he with rfl | he
      · exact ⟨r, List.mem_cons_self, _, rfl⟩
      · exact htail hes he

namespace DirectoryEntry

variable {e : DirectoryEntry}

theorem namePart_length_le (e : DirectoryEntry) : e.namePart.length ≤ 8 :=
  Nat.le_trans (strTrim_length_le _) (cstring_length_le _)

theorem extPart_length_le (e : DirectoryEntry) : e.extPart.length ≤ 3 :=
  Nat.le_trans (strTrim_length_le _) (cstring_length_le _)

theorem fileSize_lt (e : DirectoryEntry) : e.fileSize < 2 ^ 32 := by
  have h0 := (e 28).toNat_lt
  have h1 := (e 29).toNat_lt
  have h2 := (e 30).toNat_lt
  have h3 := (e 31).toNat_lt
  rw [fileSize]
  omega

/-- `8.3` -/
theorem shortName_length_le (e : DirectoryEntry) : e.shortName.length ≤ 12 := by
  have hname := e.namePart_length_le
  have hext := e.extPart_length_le
  have hdot : (literal ".").length = 1 := rfl
  rw [shortName]
  split
  · rw [strToLower_length]
    omega
  · rw [strToLower_length, List.length_append, List.length_append, hdot]
    omega

end DirectoryEntry

/-! ## One record -/

/-- The free slots of the output array, the first with the name so far. -/
def freeSlots (pending : Option CString) : Nat → List Entry
  | 0 => []
  | k + 1 => { name := pending.getD [] } :: List.replicate k .empty

/-- The listing holds the entries `done` and the name `pending`, and `k` slots are free. -/
structure Holds (done : List Entry) (pending : Option CString) (k : Nat) (l : Listing) : Prop where
  slots : l.outEntries = done ++ freeSlots pending k
  count : l.outEntryCount = done.length
  got : l.gotLongName = pending.isSome

variable {done : List Entry} {pending : Option CString} {k : Nat} {l : Listing}
  {e : DirectoryEntry}

theorem Holds.entries (h : Holds done pending k l) : l.entries = done := by
  rw [Listing.entries, h.slots, h.count, List.take_left]

theorem modifySlot_eq {slot : Entry} {free : List Entry}
    (hslots : l.outEntries = done ++ slot :: free) (hcount : l.outEntryCount = done.length)
    (f : Entry → Except DirFault Entry) :
    l.modifySlot f = (f slot).map fun s => { l with outEntries := done ++ s :: free } := by
  have hslot : l.outEntries[l.outEntryCount]? = some slot := by
    rw [hslots, hcount, List.getElem?_append_right (Nat.le_refl _), Nat.sub_self]
    rfl
  have hset : ∀ s, l.outEntries.set l.outEntryCount s = done ++ s :: free := fun s => by
    rw [hslots, hcount, List.set_append_right _ _ (Nat.le_refl _), Nat.sub_self]
    rfl
  rw [Listing.modifySlot, hslot]
  cases hf : f slot with
  | error d => simp [hf, Except.map, bind, Except.bind]
  | ok s => simp [hf, Except.map, bind, Except.bind, pure, Except.pure, hset]

theorem Entry.setName_of_le {slot : Entry} {name : CString} (h : name.length + 1 ≤ nameBytes) :
    slot.setName name = .ok { slot with name := name } := if_pos h

theorem Entry.setName_of_not_le {slot : Entry} {name : CString}
    (h : ¬ name.length + 1 ≤ nameBytes) : slot.setName name = .error .nameOverrun := if_neg h

theorem entryStep_skipped (h : e.kind = .skipped) : entryStep l e = .ok l := by
  unfold DirectoryEntry.kind at h
  unfold entryStep
  grind

theorem entryStep_long (h : e.kind = .long) : entryStep l e = do
    let l ← l.modifySlot fun slot => slot.setName (strAdd slot.name e.longNamePart)
    return { l with gotLongName := true } := by
  unfold DirectoryEntry.kind at h
  unfold entryStep
  grind

theorem entryStep_short (h : e.kind = .short) : entryStep l e = do
    let l ← l.copyShortName e
    let l ← l.modifySlot fun slot => .ok (slot.setData e)
    return { l with outEntryCount := l.outEntryCount + 1, gotLongName := false } := by
  unfold DirectoryEntry.kind at h
  unfold entryStep
  grind

/-- The characters of a long-name record are added to the name. -/
theorem Holds.long (h : Holds done pending (k + 1) l) (hkind : e.kind = .long)
    (hfit : (pending.getD [] ++ e.longNamePart).length + 1 ≤ nameBytes) :
    ∃ l', entryStep l e = .ok l' ∧
      Holds done (some (pending.getD [] ++ e.longNamePart)) (k + 1) l' := by
  have hmod := modifySlot_eq h.slots h.count fun slot =>
    slot.setName (strAdd slot.name e.longNamePart)
  rw [strAdd, Entry.setName_of_le hfit] at hmod
  rw [entryStep_long hkind, hmod]
  exact ⟨_, rfl, rfl, h.count, rfl⟩

theorem Holds.long_overrun (h : Holds done pending (k + 1) l) (hkind : e.kind = .long)
    (hfit : ¬ (pending.getD [] ++ e.longNamePart).length + 1 ≤ nameBytes) :
    entryStep l e = .error .nameOverrun := by
  rw [entryStep_long hkind, modifySlot_eq h.slots h.count, strAdd, Entry.setName_of_not_le hfit]
  rfl

/-- The name of an entry is copied only if no long name was collected. -/
theorem Holds.copyShortName (h : Holds done pending (k + 1) l) :
    ∃ l', l.copyShortName e = .ok l' ∧
      l'.outEntries = done ++ { name := pending.getD e.shortName } :: List.replicate k .empty ∧
      l'.outEntryCount = done.length := by
  have hfit : e.shortName.length + 1 ≤ nameBytes :=
    Nat.le_trans (Nat.succ_le_succ e.shortName_length_le) (by decide)
  cases pending with
  | some name =>
    have hgot : l.gotLongName = true := h.got
    exact ⟨l, if_pos hgot, h.slots, h.count⟩
  | none =>
    have hgot : l.gotLongName = false := h.got
    have hmod := modifySlot_eq h.slots h.count fun slot => slot.setName e.shortName
    rw [Entry.setName_of_le hfit] at hmod
    exact ⟨_, (if_neg (by simp [hgot])).trans hmod, rfl, h.count⟩

/-- An 8.3 record is put out with the name so far, or else with its own. -/
theorem Holds.short (h : Holds done pending (k + 1) l) (hkind : e.kind = .short) :
    ∃ l', entryStep l e = .ok l' ∧
      Holds (done ++ [e.toEntry (pending.getD e.shortName)]) none k l' := by
  obtain ⟨l', hname, hslots, hcount⟩ := h.copyShortName
  rw [entryStep_short hkind, hname]
  have hdata := modifySlot_eq hslots hcount fun slot => .ok (slot.setData e)
  simp only [bind, Except.bind, hdata, Except.map]
  refine ⟨_, rfl, ?_, ?_, rfl⟩
  · show _ = done ++ [_] ++ freeSlots none k
    rw [List.append_assoc]
    cases k with
    | zero => rfl
    | succ k => rfl
  · show l'.outEntryCount + 1 = _
    rw [hcount, List.length_append]
    rfl

/-! ## The loop -/

/-- The result of `decode` as the result of the function. -/
def listed (entries : Option (List Entry)) : Except DirFault (List Entry) :=
  match entries with
  | none => .error .nameOverrun
  | some entries => .ok entries

/-- From a listing with a free slot for every record that is left, the loop puts out what `decode`
does. -/
theorem entriesLoop_decode (entries : Nat → DirectoryEntry) {n i : Nat} (hk : n ≤ k)
    (h : Holds done pending k l) :
    (entriesLoop entries n i l).map Listing.entries =
      (listed (decode pending
        (((List.range' i n).map entries).takeWhile fun e => e.firstByte ≠ 0))).map (done ++ ·) := by
  induction n generalizing i k l done pending with
  | zero =>
    show Except.ok l.entries = Except.ok (done ++ [])
    rw [h.entries, List.append_nil]
  | succ n ih =>
    obtain ⟨k, rfl⟩ : ∃ j, k = j + 1 := ⟨k - 1, by omega⟩
    rw [entriesLoop, List.range'_succ, List.map_cons, List.takeWhile_cons]
    by_cases hend : (entries i).firstByte = 0
    · rw [if_pos hend, if_neg (by simpa using hend)]
      show Except.ok l.entries = Except.ok (done ++ [])
      rw [h.entries, List.append_nil]
    · rw [if_neg hend, if_pos (by simpa using hend), decode]
      cases hkind : (entries i).kind with
      | skipped =>
        rw [entryStep_skipped hkind]
        exact ih (Nat.le_of_succ_le hk) h
      | long =>
        by_cases hfit : (pending.getD [] ++ (entries i).longNamePart).length + 1 ≤ nameBytes
        · obtain ⟨l', hstep, hl'⟩ := h.long hkind hfit
          simp only [hfit, if_true]
          rw [hstep]
          exact ih (Nat.le_of_succ_le hk) hl'
        · simp only [hfit, if_false]
          rw [h.long_overrun hkind hfit]
          rfl
      | short =>
        obtain ⟨l', hstep, hl'⟩ := h.short hkind
        rw [hstep]
        refine (ih (Nat.le_of_succ_le_succ hk) hl').trans ?_
        cases decode none (((List.range' (i + 1) n).map entries).takeWhile fun e => e.firstByte ≠ 0) with
        | none => rfl
        | some es => exact congrArg Except.ok (List.append_assoc done [_] es)

/-- The function on a cleared array puts out what `decode` does with the records in use. -/
theorem getEntriesInDir_decode (clusterSizeInBytes : Nat) (entries : Nat → DirectoryEntry) :
    (getEntriesInDir clusterSizeInBytes entries (clearedEntries clusterSizeInBytes) 0).map
        Listing.entries = listed (decode none (usedRecords clusterSizeInBytes entries)) := by
  have hholds : Holds [] none (maxEntryCount clusterSizeInBytes)
      { outEntries := clearedEntries clusterSizeInBytes, outEntryCount := 0,
        gotLongName := false } := by
    refine ⟨?_, rfl, rfl⟩
    show clearedEntries clusterSizeInBytes = freeSlots none _
    rw [clearedEntries]
    cases maxEntryCount clusterSizeInBytes with
    | zero => rfl
    | succ k => rfl
  rw [getEntriesInDir, entriesLoop_decode entries (Nat.le_refl _) hholds, usedRecords,
    List.range_eq_range']
  generalize decode none _ = es
  cases es with
  | none => rfl
  | some es => rfl

/-! ## The bounds -/

/-- The characters that a record adds to a name. -/
def longNameChars (e : DirectoryEntry) : Nat :=
  if e.kind = .long then e.longNamePart.length else 0

/-- The names fit exactly if the running total of characters does. -/
theorem decode_isSome_iff {pending : Option CString} {records : List DirectoryEntry}
    (hpending : (pending.getD []).length < nameBytes) :
    (decode pending records).isSome ↔
      Stretches.Fits longNameChars (fun e => e.kind = .short) (nameBytes - 1)
        (pending.getD []).length records := by
  induction records generalizing pending with
  | nil => exact iff_of_true rfl trivial
  | cons e records ih =>
    rw [decode]
    cases hkind : e.kind with
    | skipped =>
      have hchars : longNameChars e = 0 := if_neg (by simp [hkind])
      rw [Stretches.fits_add (by simp [hkind]), hchars, Nat.add_zero]
      exact (ih hpending).trans (iff_and_self.mpr fun _ => Nat.le_sub_one_of_lt hpending)
    | long =>
      have hchars : longNameChars e = e.longNamePart.length := if_pos hkind
      rw [Stretches.fits_add (by simp [hkind]), hchars, ← List.length_append]
      by_cases hfit : (pending.getD [] ++ e.longNamePart).length + 1 ≤ nameBytes
      · simp only [hfit, if_true]
        exact (@ih (some _) hfit).trans (iff_and_self.mpr fun _ => Nat.le_sub_one_of_lt hfit)
      · simp only [hfit, if_false]
        refine iff_of_false (by simp) fun h => hfit ?_
        have : 0 < nameBytes := by decide
        omega
    | short =>
      rw [Stretches.fits_reset (by simp [hkind])]
      simpa using @ih none (by decide)

/-- What the function returns is what `decode` reads. -/
theorem getEntriesInDir_ok_iff {clusterSizeInBytes : Nat} {entries : Nat → DirectoryEntry}
    {P : List Entry → Prop} :
    (∃ l, getEntriesInDir clusterSizeInBytes entries (clearedEntries clusterSizeInBytes) 0 = .ok l ∧
        P l.entries) ↔
      ∃ es, decode none (usedRecords clusterSizeInBytes entries) = some es ∧ P es := by
  have h := getEntriesInDir_decode clusterSizeInBytes entries
  generalize getEntriesInDir _ _ _ _ = result at h
  cases result with
  | error d =>
    refine iff_of_false (by simp) ?_
    rintro ⟨es, hes, -⟩
    rw [hes] at h
    cases h
  | ok l =>
    cases hes : decode none (usedRecords clusterSizeInBytes entries) with
    | none =>
      rw [hes] at h
      cases h
    | some es =>
      rw [hes] at h
      have heq : l.entries = es := Except.ok.inj h
      simp [heq]

/-- No name is too long. -/
def NamesFit (records : List DirectoryEntry) : Prop :=
  ∀ stretch, stretch <:+: records → (∀ e ∈ stretch, e.kind ≠ .short) →
    Stretches.total longNameChars stretch < nameBytes

theorem namesFit_iff {records : List DirectoryEntry} :
    NamesFit records ↔ (decode none records).isSome := by
  rw [decode_isSome_iff (by decide)]
  refine Iff.trans ?_ Stretches.fits_zero_iff.symm
  refine forall₂_congr fun stretch _ => ?_
  have hpos : 0 < nameBytes := by decide
  have hunbroken : Stretches.Unbroken (fun e : DirectoryEntry => decide (e.kind = .short)) stretch ↔
      ∀ e ∈ stretch, e.kind ≠ .short := by
    simp [Stretches.Unbroken]
  rw [hunbroken, Nat.le_sub_one_iff_lt hpos]

theorem getEntriesInDir_ne_outEntriesOverrun (clusterSizeInBytes : Nat)
    (entries : Nat → DirectoryEntry) :
    getEntriesInDir clusterSizeInBytes entries (clearedEntries clusterSizeInBytes) 0 ≠
      .error .outEntriesOverrun := by
  intro hfault
  have h := getEntriesInDir_decode clusterSizeInBytes entries
  rw [hfault] at h
  cases hes : decode none (usedRecords clusterSizeInBytes entries) with
  | none =>
    rw [hes] at h
    cases h
  | some es =>
    rw [hes] at h
    cases h

/-- No entry is put out behind the array. No name is longer than `Name` exactly if the long-name
records of every stretch without an 8.3 record hold fewer characters than `Name` has bytes. -/
theorem getEntriesInDir_bounds (clusterSizeInBytes : Nat) (entries : Nat → DirectoryEntry) :
    let result := getEntriesInDir clusterSizeInBytes entries (clearedEntries clusterSizeInBytes) 0
    result ≠ .error .outEntriesOverrun ∧
      ((∃ l, result = .ok l) ↔ NamesFit (usedRecords clusterSizeInBytes entries)) := by
  refine ⟨getEntriesInDir_ne_outEntriesOverrun _ _, ?_⟩
  have hok := @getEntriesInDir_ok_iff clusterSizeInBytes entries fun _ => True
  simp only [and_true] at hok
  rw [hok, namesFit_iff, Option.isSome_iff_exists]

/-- A record of thirteen characters `a`. -/
def fullLongRecord : DirectoryEntry := fun i =>
  if i = 0 then 0x41 else if i = 11 then 0x0F else if i = 12 ∨ i = 13 ∨ i = 26 ∨ i = 27 then 0
  else if i.val % 2 = (if i < 11 then 1 else 0) then 0x61 else 0

/-- Twenty such records hold 260 characters. -/
theorem getEntriesInDir_overrun :
    ¬ ∀ (clusterSizeInBytes : Nat) (entries : Nat → DirectoryEntry), ∃ l,
      getEntriesInDir clusterSizeInBytes entries (clearedEntries clusterSizeInBytes) 0 = .ok l := by
  intro h
  obtain ⟨l, hl⟩ := h 640 fun _ => fullLongRecord
  have hfault : (getEntriesInDir 640 (fun _ => fullLongRecord) (clearedEntries 640)
      0).toOption.isNone := by
    decide +kernel
  rw [hl] at hfault
  cases hfault

end EszOs
