import EszOs.Storage.DirectoryChain
import EszOs.Types.StringOwnership

/-!
# The blocks of a lookup (`storage/filesystem/fat32/fat32.cpp`)

`find_entry` and `get_entries` with their allocations: the sections of the path, an array of entries
for each directory, the cluster that is parsed, and the pieces of the names in it. What is found is
the business of `Storage/Fat32.lean` and given here by `entriesRead`.

* `readDirEntriesBlocks_owns`: reading a directory leaves no block.
* `lookups_balanced`: `find_entry` leaves no block on any exit, `get_entries` the one that it returns.
-/

namespace EszOs

open BlockHeap

/-! ## `types/string/string.cpp`, `types/utf16/utf16.cpp` -/

section Source

variable (A : Allocator Nat)

/-- A block for a text that is not longer than `text`. -/
def derivedStr (f : CString → CString) (text : CharPtr) : StringProgram Nat := do
  let text ← readStr text
  let returnString ← mallocStr A (text.length + 1)
  BlockHeap.store returnString (f text)
  return returnString

/-- `str_trim` -/
def strTrimBlock (text : CharPtr) : StringProgram Nat := derivedStr A strTrim text

/-- `str_to_lower` -/
def strToLowerBlock (text : CharPtr) : StringProgram Nat := derivedStr A strToLower text

/-- `utf16_text_to_ascii` -/
def utf16TextToAsciiBlock (text : List (UInt8 × UInt8)) : StringProgram Nat := do
  let returnString ← mallocStr A (text.length + 1)
  BlockHeap.store returnString (utf16TextToAscii text)
  return returnString

/-- `str_split`, for the parts of the text: `outSplits`. -/
def strSplitBlocks : List CString → StringProgram (List Nat)
  | [] => return []
  | text :: texts => do
    let part ← mallocStr A (text.length + 1)
    BlockHeap.store part text
    let outSplits ← strSplitBlocks texts
    return part :: outSplits

/-! ## Directories -/

/-- The pieces of a long name and the temporary `String`. -/
def longNameBlocks (e : DirectoryEntry) : StringProgram Unit := do
  let part1 ← utf16TextToAsciiBlock A e.nameChars1
  let part2 ← utf16TextToAsciiBlock A e.nameChars2
  let part3 ← utf16TextToAsciiBlock A e.nameChars3
  let name ← construct A [.chars (.block part1), .chars (.block part2), .chars (.block part3)]
  let _ ← BlockHeap.load name
  BlockHeap.free name
  BlockHeap.free part1
  BlockHeap.free part2
  BlockHeap.free part3

/-- Copy the text of a block and free it. -/
def takeText (p : Nat) : StringProgram CString := do
  let text ← BlockHeap.load p
  BlockHeap.free p
  return text

/-- The 8.3 name. -/
def shortNameBlocks (e : DirectoryEntry) : StringProgram Unit := do
  let trimmed ← strTrimBlock A (.text (cstring e.nameField))
  let namePart ← takeText trimmed
  let trimmed ← strTrimBlock A (.text (cstring e.extField))
  let extPart ← takeText trimmed
  if extPart.isEmpty then
    let lower ← strToLowerBlock A (.text namePart)
    let _ ← takeText lower
  else
    let name ← construct A [.chars (.text namePart), .chars (.text (literal ".")),
      .chars (.text extPart)]
    let lower ← strToLowerBlock A (.block name)
    BlockHeap.free name
    let _ ← takeText lower

/-- The body of the loop of `get_entries_in_dir`, behind the check for the end: `gotLongName` then. -/
def recordBlocks (gotLongName : Bool) (e : DirectoryEntry) : StringProgram Bool :=
  if e.isDot then return gotLongName
  else if ¬ e.isLFN ∧ e.volumeID then return gotLongName
  else if e.isLFN then do
    longNameBlocks A e
    return true
  else do
    if ¬ gotLongName then shortNameBlocks A e
    return false

/-- `get_entries_in_dir` -/
def entriesBlocks (gotLongName : Bool) : List DirectoryEntry → StringProgram Unit
  | [] => return ()
  | e :: entries =>
    if e.firstByte = 0 then return ()
    else do
      let gotLongName ← recordBlocks A gotLongName e
      entriesBlocks gotLongName entries

/-- `read_dir_entries` -/
def readDirEntriesBlocks (v : Volume) (cluster : Nat) : StringProgram Unit :=
  if cluster < 2 ∨ eocStart ≤ cluster then return ()
  else do
    let tempBuffer ← BlockHeap.malloc A v.context.clusterSizeInBytes []
    entriesBlocks A false (clusterRecords v cluster)
    BlockHeap.free tempBuffer

/-! ## `find_entry` and `get_entries` -/

/-- `sizeof(Entry)` -/
def entryBytes : Nat := 272

/-- A cleared array for the entries of a directory. -/
def entryArray (v : Volume) : StringProgram Nat := do
  let maxEntries := maxEntryCount v.context.clusterSizeInBytes
  let entries ← BlockHeap.malloc A (entryBytes * maxEntries) []
  BlockHeap.store entries []
  return entries

/-- The entries in the array. If a name runs over its field it stays in the array, since a record has
at most 13 characters of it; what the array holds then is `stray`. -/
def entriesRead (v : Volume) (stray : Nat → List Entry) (cluster : Nat) : List Entry :=
  (dirEntries v cluster).toOption.getD (stray cluster)

/-- `free_path_sections` -/
def freePathSections (pathSections : List Nat) : StringProgram Unit := destroyArgs pathSections

/-- The loop of `find_entry`, for the sections with their texts. -/
def findEntryLoopBlocks (v : Volume) (stray : Nat → List Entry) :
    List (Nat × CString) → Nat → StringProgram (Option Nat)
  | [], currCluster => return some currCluster
  | (pathSection, text) :: pathSections, currCluster => do
    let entries ← entryArray A v
    readDirEntriesBlocks A v currCluster
    let _ ← BlockHeap.load entries
    let _ ← BlockHeap.load pathSection
    BlockHeap.free entries
    match (entriesRead v stray currCluster).find? fun e => e.isDirectory && strEqual e.name text with
    | none => return none
    | some e => findEntryLoopBlocks v stray pathSections e.firstCluster

/-- The entry that is returned for the last section. -/
def lastEntry (v : Volume) (stray : Nat → List Entry) (text : CString) (currCluster : Nat) : Entry :=
  match (entriesRead v stray currCluster).find? fun e => strEqual e.name text with
  | none => .empty
  | some e => { e with found := true }

/-- `find_entry` behind `str_split`. -/
def findSectionsBlocks (v : Volume) (stray : Nat → List Entry) (texts : List CString) :
    StringProgram Entry := do
  let pathSections ← strSplitBlocks A texts
  let found ← findEntryLoopBlocks A v stray (pathSections.zip texts).dropLast v.context.rootCluster
  match found with
  | none =>
    freePathSections pathSections
    return .empty
  | some currCluster =>
    let entries ← entryArray A v
    readDirEntriesBlocks A v currCluster
    let _ ← BlockHeap.load entries
    let _ ← BlockHeap.load (pathSections.getLastD 0)
    BlockHeap.free entries
    freePathSections pathSections
    return lastEntry v stray (texts.getLastD []) currCluster

/-- `find_entry`; `none` if a section is stored behind `pathSections`. -/
def findEntryBlocks (v : Volume) (stray : Nat → List Entry) (path : CString) :
    Option (StringProgram Entry) :=
  let normalizedPath := normalizedPath path
  if normalizedPath = [] ∨ isRootPath normalizedPath then some (return rootEntry v)
  else if maxPathDepth < (strSplit normalizedPath slash).length then none
  else some (findSectionsBlocks A v stray (strSplit normalizedPath slash))

/-- `get_entries`: `outEntries` and the number of entries. -/
def getEntriesBlocks (v : Volume) (stray : Nat → List Entry) (path : CString) :
    Option (StringProgram (Option Nat × Nat)) :=
  (findEntryBlocks A v stray path).map fun findEntry => do
    let dir ← findEntry
    if ¬ dir.found ∨ ¬ dir.isDirectory then return (none, 0)
    else
      let outEntries ← entryArray A v
      readDirEntriesBlocks A v dir.firstCluster
      return (some outEntries, (entriesRead v stray dir.firstCluster).length)

end Source

section

variable (A : Allocator Nat) {P : Multiset Nat}

/-! ## Names -/

theorem derivedStr_owns (f : CString → CString) {text : CharPtr} (htext : text.Readable P) :
    Owns P (derivedStr A f text) fun p M => M = p ::ₘ P := by
  refine (readStr_owns htext).bindEq fun text => ?_
  refine (mallocStr_owns A _).bindEq fun p => ?_
  refine (Owns.store (Multiset.mem_cons_self p P) _).bindEq fun _ => ?_
  exact Owns.pure rfl

theorem utf16TextToAsciiBlock_owns (text : List (UInt8 × UInt8)) :
    Owns P (utf16TextToAsciiBlock A text) fun p M => M = p ::ₘ P := by
  refine (mallocStr_owns A _).bindEq fun p => ?_
  refine (Owns.store (Multiset.mem_cons_self p P) _).bindEq fun _ => ?_
  exact Owns.pure rfl

theorem takeText_owns (p : Nat) : Owns (p ::ₘ P) (takeText p) fun _ M => M = P := by
  refine (Owns.load (Multiset.mem_cons_self p P)).bindEq fun text => ?_
  refine Owns.free.bindEq fun _ => ?_
  exact Owns.pure rfl

/-- A `String` of C strings leaves its block only. -/
theorem construct_chars_owns {texts : List CharPtr} (htexts : ∀ s ∈ texts, s.Readable P) :
    Owns P (construct A (texts.map .chars)) fun p M => M = p ::ₘ P := by
  have hreadable : ∀ arg ∈ texts.map Part.chars, arg.Readable P := by
    intro arg harg
    obtain ⟨s, hs, rfl⟩ := List.mem_map.mp harg
    exact htexts s hs
  have hleaks : ((texts.map Part.chars).map Part.leaks).sum = 0 := by
    rw [List.map_map, List.sum_eq_zero]
    intro n hn
    obtain ⟨s, -, rfl⟩ := List.mem_map.mp hn
    rfl
  refine (construct_owns A hreadable).imp ?_
  rintro p M ⟨leaked, rfl, hcard⟩
  rw [hleaks, Multiset.card_eq_zero] at hcard
  rw [hcard, Multiset.zero_add]

theorem longNameBlocks_owns (e : DirectoryEntry) :
    Owns P (longNameBlocks A e) fun _ M => M = P := by
  refine (utf16TextToAsciiBlock_owns A _).bindEq fun part1 => ?_
  refine (utf16TextToAsciiBlock_owns A _).bindEq fun part2 => ?_
  refine (utf16TextToAsciiBlock_owns A _).bindEq fun part3 => ?_
  have hreverse : part3 ::ₘ part2 ::ₘ part1 ::ₘ P = part1 ::ₘ part2 ::ₘ part3 ::ₘ P := by
    rw [Multiset.cons_swap part3, Multiset.cons_swap part3, Multiset.cons_swap part2]
  rw [hreverse]
  have htexts : ∀ s ∈ [CharPtr.block part1, .block part2, .block part3],
      s.Readable (part1 ::ₘ part2 ::ₘ part3 ::ₘ P) := by
    simp [CharPtr.Readable]
  refine (construct_chars_owns A htexts).bindEq fun name => ?_
  refine (Owns.load (Multiset.mem_cons_self name _)).bindEq fun _ => ?_
  refine Owns.free.bindEq fun _ => ?_
  refine Owns.free.bindEq fun _ => ?_
  refine Owns.free.bindEq fun _ => ?_
  exact Owns.free

theorem shortNameBlocks_owns (e : DirectoryEntry) :
    Owns P (shortNameBlocks A e) fun _ M => M = P := by
  have htext : ∀ text, CharPtr.Readable P (.text text) := fun _ => trivial
  refine (derivedStr_owns A strTrim (htext _)).bindEq fun trimmed => ?_
  refine (takeText_owns trimmed).bindEq fun namePart => ?_
  refine (derivedStr_owns A strTrim (htext _)).bindEq fun trimmed => ?_
  refine (takeText_owns trimmed).bindEq fun extPart => ?_
  have htexts : ∀ s ∈ [CharPtr.text namePart, .text (literal "."), .text extPart], s.Readable P := by
    simp [CharPtr.Readable]
  split
  · refine (derivedStr_owns A strToLower (htext _)).bindEq fun lower => ?_
    refine (takeText_owns lower).bindEq fun _ => ?_
    exact Owns.pure rfl
  · refine (construct_chars_owns A htexts).bindEq fun name => ?_
    have hname : CharPtr.Readable (name ::ₘ P) (.block name) := Multiset.mem_cons_self name P
    refine (derivedStr_owns A strToLower hname).bindEq fun lower => ?_
    rw [Multiset.cons_swap]
    refine Owns.free.bindEq fun _ => ?_
    refine (takeText_owns lower).bindEq fun _ => ?_
    exact Owns.pure rfl

/-! ## Directories -/

theorem recordBlocks_owns (gotLongName : Bool) (e : DirectoryEntry) :
    Owns P (recordBlocks A gotLongName e) fun _ M => M = P := by
  unfold recordBlocks
  split
  · exact Owns.pure rfl
  split
  · exact Owns.pure rfl
  split
  · refine (longNameBlocks_owns A e).bindEq fun _ => ?_
    exact Owns.pure rfl
  · cases gotLongName with
    | true => exact Owns.pure rfl
    | false =>
      refine (shortNameBlocks_owns A e).bindEq fun _ => ?_
      exact Owns.pure rfl

theorem entriesBlocks_owns (gotLongName : Bool) (entries : List DirectoryEntry) :
    Owns P (entriesBlocks A gotLongName entries) fun _ M => M = P := by
  induction entries generalizing gotLongName with
  | nil => exact Owns.pure rfl
  | cons e entries ih =>
    rw [entriesBlocks]
    split
    · exact Owns.pure rfl
    · exact (recordBlocks_owns A gotLongName e).bindEq fun gotLongName => ih gotLongName

/-- Reading a directory leaves no block. -/
theorem readDirEntriesBlocks_owns (v : Volume) (cluster : Nat) :
    Owns P (readDirEntriesBlocks A v cluster) fun _ M => M = P := by
  unfold readDirEntriesBlocks
  split
  · exact Owns.pure rfl
  · refine (Owns.malloc A _ _).bindEq fun tempBuffer => ?_
    refine (entriesBlocks_owns A false _).bindEq fun _ => ?_
    exact Owns.free

theorem entryArray_owns (v : Volume) : Owns P (entryArray A v) fun p M => M = p ::ₘ P := by
  refine (Owns.malloc A _ _).bindEq fun entries => ?_
  refine (Owns.store (Multiset.mem_cons_self entries P) _).bindEq fun _ => ?_
  exact Owns.pure rfl

/-! ## Lookups -/

theorem strSplitBlocks_owns (texts : List CString) :
    Owns P (strSplitBlocks A texts) fun parts M => M = ↑parts + P ∧ parts.length = texts.length := by
  induction texts generalizing P with
  | nil => exact Owns.pure ⟨(Multiset.zero_add P).symm, rfl⟩
  | cons text texts ih =>
    refine (mallocStr_owns A _).bindEq fun part => ?_
    refine (Owns.store (Multiset.mem_cons_self part P) _).bindEq fun _ => ?_
    refine ih.bind fun parts M ⟨hM, hlength⟩ => ?_
    refine Owns.pure ⟨?_, congrArg (· + 1) hlength⟩
    rw [hM, ← Multiset.cons_coe, Multiset.cons_add, Multiset.add_cons]

variable {v : Volume} {stray : Nat → List Entry}

/-- The cluster of the directory that the sections lead to. -/
def directoryOf (v : Volume) (stray : Nat → List Entry) : List CString → Nat → Option Nat
  | [], currCluster => some currCluster
  | text :: texts, currCluster =>
    match (entriesRead v stray currCluster).find? fun e => e.isDirectory && strEqual e.name text with
    | none => none
    | some e => directoryOf v stray texts e.firstCluster

/-- The entry that is returned for the sections. -/
def sectionsEntry (v : Volume) (stray : Nat → List Entry) (texts : List CString) : Entry :=
  (directoryOf v stray texts.dropLast v.context.rootCluster).elim .empty
    (lastEntry v stray (texts.getLastD []))

/-- The entry that `find_entry` returns. -/
def foundEntry (v : Volume) (stray : Nat → List Entry) (path : CString) : Entry :=
  let normalizedPath := normalizedPath path
  if normalizedPath = [] ∨ isRootPath normalizedPath then rootEntry v
  else sectionsEntry v stray (strSplit normalizedPath slash)

theorem findEntryLoopBlocks_owns {pathSections : List (Nat × CString)}
    (hlive : ∀ s ∈ pathSections, s.1 ∈ P) (currCluster : Nat) :
    Owns P (findEntryLoopBlocks A v stray pathSections currCluster) fun found M =>
      M = P ∧ found = directoryOf v stray (pathSections.map Prod.snd) currCluster := by
  induction pathSections generalizing currCluster with
  | nil => exact Owns.pure ⟨rfl, rfl⟩
  | cons s pathSections ih =>
    obtain ⟨hs, hrest⟩ := List.forall_mem_cons.mp hlive
    refine (entryArray_owns A v).bindEq fun entries => ?_
    refine (readDirEntriesBlocks_owns A v currCluster).bindEq fun _ => ?_
    refine (Owns.load (Multiset.mem_cons_self entries P)).bindEq fun _ => ?_
    refine (Owns.load (Multiset.mem_cons_of_mem hs)).bindEq fun _ => ?_
    refine Owns.free.bindEq fun _ => ?_
    rw [List.map_cons, directoryOf]
    cases (entriesRead v stray currCluster).find? fun e => e.isDirectory && strEqual e.name s.2 with
    | none => exact Owns.pure ⟨rfl, rfl⟩
    | some e => exact ih hrest e.firstCluster

theorem findSectionsBlocks_owns {texts : List CString} (hne : texts ≠ []) :
    Owns P (findSectionsBlocks A v stray texts) fun e M =>
      M = P ∧ e = sectionsEntry v stray texts := by
  refine (strSplitBlocks_owns A texts).bind fun pathSections M ⟨hM, hlength⟩ => ?_
  subst hM
  have hmem : ∀ p ∈ pathSections, p ∈ (pathSections : Multiset Nat) + P := fun p hp =>
    Multiset.mem_add.mpr (.inl hp)
  have hlive : ∀ s ∈ (pathSections.zip texts).dropLast, s.1 ∈ (pathSections : Multiset Nat) + P :=
    fun s hs => hmem _ (List.of_mem_zip (List.mem_of_mem_dropLast hs)).1
  have htexts : (pathSections.zip texts).dropLast.map Prod.snd = texts.dropLast := by
    rw [List.map_dropLast, List.map_snd_zip (Nat.le_of_eq hlength.symm)]
  refine (findEntryLoopBlocks_owns A hlive _).bind fun found M ⟨hM, hfound⟩ => ?_
  subst hM
  rw [htexts] at hfound
  rw [sectionsEntry, ← hfound]
  cases found with
  | none =>
    refine (destroyArgs_owns pathSections).bindEq fun _ => ?_
    exact Owns.pure ⟨rfl, rfl⟩
  | some currCluster =>
    have hlast : pathSections.getLastD 0 ∈ pathSections := by
      have hpart : pathSections ≠ [] := by
        rintro rfl
        exact hne (List.length_eq_zero_iff.mp hlength.symm)
      rw [List.getLastD_eq_getLast?, List.getLast?_eq_some_getLast hpart]
      exact List.getLast_mem hpart
    refine (entryArray_owns A v).bindEq fun entries => ?_
    refine (readDirEntriesBlocks_owns A v currCluster).bindEq fun _ => ?_
    refine (Owns.load (Multiset.mem_cons_self entries _)).bindEq fun _ => ?_
    refine (Owns.load (Multiset.mem_cons_of_mem (hmem _ hlast))).bindEq fun _ => ?_
    refine Owns.free.bindEq fun _ => ?_
    refine (destroyArgs_owns pathSections).bindEq fun _ => ?_
    exact Owns.pure ⟨rfl, rfl⟩

/-- `find_entry` leaves the blocks as they were. -/
theorem findEntryBlocks_owns {path : CString} {m : StringProgram Entry}
    (h : findEntryBlocks A v stray path = some m) :
    Owns P m fun e M => M = P ∧ e = foundEntry v stray path := by
  rw [findEntryBlocks] at h
  split at h
  · rename_i hroot
    cases h
    exact Owns.pure ⟨rfl, (if_pos hroot).symm⟩
  rename_i hroot
  have hentry : foundEntry v stray path =
      sectionsEntry v stray (strSplit (normalizedPath path) slash) := if_neg hroot
  split at h
  · cases h
  · cases h
    rw [hentry]
    exact findSectionsBlocks_owns A (strSplit_ne_nil _ _)

/-- `get_entries` leaves the block that it returns. -/
theorem getEntriesBlocks_owns {path : CString} {m : StringProgram (Option Nat × Nat)}
    (h : getEntriesBlocks A v stray path = some m) :
    Owns P m fun r M => M = ↑r.1.toList + P ∧
      (r.1.isSome ↔ (foundEntry v stray path).found ∧ (foundEntry v stray path).isDirectory) ∧
      r.2 = if r.1.isSome then (entriesRead v stray (foundEntry v stray path).firstCluster).length
        else 0 := by
  obtain ⟨findEntry, hfind, rfl⟩ := Option.map_eq_some_iff.mp h
  refine (findEntryBlocks_owns A hfind).bind fun dir M ⟨hM, hdir⟩ => ?_
  subst hM hdir
  split
  · rename_i hnot
    refine Owns.pure ⟨(Multiset.zero_add _).symm, iff_of_false (by simp) fun h => ?_, rfl⟩
    exact hnot.elim (fun hn => hn h.1) fun hn => hn h.2
  · rename_i hdir
    rw [not_or, not_not, not_not] at hdir
    refine (entryArray_owns A v).bindEq fun outEntries => ?_
    refine (readDirEntriesBlocks_owns A v _).bindEq fun _ => ?_
    exact Owns.pure ⟨rfl, iff_of_true rfl hdir, rfl⟩

/-! ## What is found -/

theorem entriesRead_of_ok {cluster : Nat} {entries : List Entry}
    (h : dirEntries v cluster = .ok entries) : entriesRead v stray cluster = entries := by
  rw [entriesRead, h]
  rfl

theorem directoryOf_of_ok {texts : List CString} {currCluster : Nat} {found : Option Nat}
    (h : findEntryLoop v texts currCluster = .ok found) :
    directoryOf v stray texts currCluster = found := by
  induction texts generalizing currCluster with
  | nil => exact Except.ok.inj h
  | cons text texts ih =>
    obtain ⟨entries, hdir, hrest⟩ := PathLookup.bind_eq_ok.mp h
    rw [directoryOf, entriesRead_of_ok hdir]
    cases hfind : entries.find? fun e => e.isDirectory && strEqual e.name text with
    | none =>
      simp only [hfind] at hrest
      exact Except.ok.inj hrest
    | some e =>
      simp only [hfind] at hrest
      exact ih hrest

/-- If no name runs over its field it is the entry of `findEntry`. -/
theorem foundEntry_of_ok {path : CString} {e : Entry} (h : findEntry v path = .ok e) :
    foundEntry v stray path = e := by
  rw [findEntry] at h
  rw [foundEntry]
  split at h
  · rename_i hroot
    rw [if_pos hroot]
    exact Except.ok.inj h
  rename_i hroot
  rw [if_neg hroot]
  split at h
  · cases h
  obtain ⟨found, hloop, hlast⟩ := PathLookup.bind_eq_ok.mp (mapError_eq_ok.mp h)
  rw [sectionsEntry, directoryOf_of_ok hloop]
  cases found with
  | none => exact Except.ok.inj hlast
  | some currCluster =>
    simp only [findLast] at hlast
    cases hdir : dirEntries v currCluster with
    | error d =>
      rw [hdir] at hlast
      cases hlast
    | ok entries =>
      rw [hdir] at hlast
      rw [Option.elim_some, lastEntry, entriesRead_of_ok hdir]
      exact Except.ok.inj hlast

/-- With sections that fit `pathSections`, from any heap: `find_entry` leaves the blocks that were
allocated, on every exit, and `get_entries` in addition the one in `outEntries`, which there is
exactly if the path leads to a directory. -/
theorem lookups_balanced (v : Volume) (stray : Nat → List Entry) {path : CString}
    (hdepth : (strSplit (normalizedPath path) slash).length ≤ maxPathDepth)
    (heap : BlockHeap Nat CString) :
    ∃ find get, findEntryBlocks A v stray path = some find ∧
      getEntriesBlocks A v stray path = some get ∧
      ∃ e heap₁ r heap₂, find.exec heap = (.ok e, heap₁) ∧ heap₁.live = heap.live ∧
        get.exec heap = (.ok r, heap₂) ∧ heap₂.live = ↑r.1.toList + heap.live ∧
        (r.1.isSome ↔ e.found ∧ e.isDirectory) ∧ ∀ e', findEntry v path = .ok e' → e = e' := by
  obtain ⟨find, hfind⟩ : ∃ find, findEntryBlocks A v stray path = some find := by
    rw [findEntryBlocks]
    split
    · exact ⟨_, rfl⟩
    · rw [if_neg (Nat.not_lt.mpr hdepth)]
      exact ⟨_, rfl⟩
  obtain ⟨get, hget⟩ : ∃ get, getEntriesBlocks A v stray path = some get :=
    ⟨_, by rw [getEntriesBlocks, hfind]; rfl⟩
  have hstart : heap.live = 0 + heap.live := (Multiset.zero_add _).symm
  obtain ⟨e, heap₁, M, hexec, ⟨hM, he⟩, hlive⟩ := findEntryBlocks_owns A hfind heap _ hstart
  obtain ⟨r, heap₂, N, hexec', ⟨hN, hsome, -⟩, hlive'⟩ := getEntriesBlocks_owns A hget heap _ hstart
  rw [hM, Multiset.zero_add] at hlive
  rw [hN, Multiset.add_zero] at hlive'
  rw [← he] at hsome
  refine ⟨find, get, hfind, hget, e, heap₁, r, heap₂, hexec, hlive, hexec', hlive', hsome, ?_⟩
  intro e' he'
  rw [he, foundEntry_of_ok he']

end

/-- The file in the root directory. -/
theorem lookups_balanced_foo : ∃ find e heap, findEntryBlocks behindAll fooVolume (fun _ => [])
      (literal "/foo.txt") = some find ∧
    find.exec (BlockHeap.empty []) = (.ok e, heap) ∧ heap.live = 0 := by
  have hdepth : (strSplit (normalizedPath (literal "/foo.txt")) slash).length ≤ maxPathDepth := by
    decide
  obtain ⟨find, -, hfind, -, e, heap, -, -, hexec, hlive, -⟩ :=
    lookups_balanced behindAll fooVolume (fun _ => []) hdepth (BlockHeap.empty [])
  exact ⟨find, e, heap, hfind, hexec, hlive⟩

end EszOs
