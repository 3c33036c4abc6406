import EszOs.Storage.LookupBlocks
import EszOs.Storage.FileRead
import EszOs.Types.StringNulls

/-!
# Lookups and reads on a full heap (`storage/filesystem/fat32/fat32.cpp`)

The functions of the driver that allocate, on the kernel heap, with the null pointer that `malloc`
returns. The sectors are copied into the memory of the heap; what is found in a directory is given by
`entriesRead`.

* `Call`: the functions of the driver and of the string library that allocate.
* `readClusterChain_served`: without the null pointer `read_cluster_chain` is the one of
  `Storage/ClusterChain.lean`.
* `calls_checkNull_iff`: a call stores through the null pointer exactly if a request of it is refused, but
  for the three that leave a block of no bytes alone, and for clusters of no bytes.
* `copiesNothing_iff`: when that is, on a heap that is reached.
-/

namespace EszOs

namespace NullChecks

open NullProgram (store storeWith Strict Doomed Tolerant Oblivious)
open PathLookup (bind_eq_ok)
open Program (exec exec_bind_ok)

/-! ## Directories -/

/-- `AHCI_READ_DMA_EXT` of a volume. -/
def ahciRead (v : Volume) (lba count : Nat) (ramOutputPtr : Option Nat) : HeapProgram Unit :=
  storeWith ramOutputPtr (count * sectorSize) fun ramOutputPtr h =>
    { h with mem := readSectors v h.mem lba count ramOutputPtr }

/-- A part of a long name is added to the name of an entry. -/
def addLongName (outEntries : Option Nat) (e : DirectoryEntry) : HeapProgram Unit := do
  let part1 ← utf16TextToAscii e.nameChars1
  let part2 ← utf16TextToAscii e.nameChars2
  let part3 ← utf16TextToAscii e.nameChars3
  let name ← construct [.chars (EszOs.utf16TextToAscii e.nameChars1),
    .chars (EszOs.utf16TextToAscii e.nameChars2), .chars (EszOs.utf16TextToAscii e.nameChars3)]
  store outEntries (e.longNamePart.length + 1)
  free name
  free part1
  free part2
  free part3

/-- The 8.3 name is copied to an entry. -/
def copyShortName (outEntries : Option Nat) (e : DirectoryEntry) : HeapProgram Unit := do
  let trimmed ← strTrim (cstring e.nameField)
  free trimmed
  let trimmed ← strTrim (cstring e.extField)
  free trimmed
  if e.extPart.isEmpty then
    let lower ← strToLower e.namePart
    store outEntries (e.shortName.length + 1)
    free lower
  else
    let name ← construct [.chars e.namePart, .chars (literal "."), .chars e.extPart]
    let lower ← strToLower (e.namePart ++ literal "." ++ e.extPart)
    free name
    store outEntries (e.shortName.length + 1)
    free lower

/-- The body of the loop of `get_entries_in_dir`, behind the check for the end: `gotLongName` then. -/
def recordCalls (outEntries : Option Nat) (gotLongName : Bool) (e : DirectoryEntry) :
    HeapProgram Bool :=
  if e.isDot then return gotLongName
  else if ¬ e.isLFN ∧ e.volumeID then return gotLongName
  else if e.isLFN then do
    addLongName outEntries e
    return true
  else do
    if ¬ gotLongName then copyShortName outEntries e
    -- `Size`, `IsDirectory` and `FirstCluster`
    store outEntries 9
    return false

/-- `get_entries_in_dir` -/
def entriesCalls (outEntries : Option Nat) (gotLongName : Bool) :
    List DirectoryEntry → HeapProgram Unit
  | [] => return ()
  | e :: entries =>
    if e.firstByte = 0 then return ()
    else do
      let gotLongName ← recordCalls outEntries gotLongName e
      entriesCalls outEntries gotLongName entries

def readDirEntries (v : Volume) (cluster : Nat) (outEntries : Option Nat) : HeapProgram Unit :=
  if cluster < 2 ∨ eocStart ≤ cluster then return ()
  else do
    let tempBuffer ← malloc v.context.clusterSizeInBytes
    ahciRead v (clusterToLba v.context cluster) v.context.sectorsPerCluster tempBuffer
    entriesCalls outEntries false (clusterRecords v cluster)
    free tempBuffer

/-! ## `find_entry` and `get_entries` -/

/-- The size of an array for the entries of a directory. -/
def entryArraySize (v : Volume) : Nat := entryBytes * maxEntryCount v.context.clusterSizeInBytes

/-- The directory is read into a new array. -/
def readDirectory (v : Volume) (cluster : Nat) : HeapProgram (Option Nat) := do
  let entries ← malloc (entryArraySize v)
  memoryClear entries (entryArraySize v)
  readDirEntries v cluster entries
  return entries

/-- The loop of `find_entry` over the sections but the last. -/
def findEntryLoop (v : Volume) (stray : Nat → List Entry) : List CString → Nat →
    HeapProgram (Option Nat)
  | [], currCluster => return some currCluster
  | pathSection :: pathSections, currCluster => do
    let entries ← readDirectory v currCluster
    free entries
    match (entriesRead v stray currCluster).find? fun e =>
      e.isDirectory && strEqual e.name pathSection with
    | none => return none
    | some e => findEntryLoop v stray pathSections e.firstCluster

/-- `find_entry` behind the check for the root. -/
def findSections (v : Volume) (stray : Nat → List Entry) (texts : List CString) :
    HeapProgram Entry := do
  let pathSections ← strSplit (texts.take (maxPathDepth + 1))
  if maxPathDepth < texts.length then NullProgram.fault .pathSectionsOverrun
  else
    let found ← findEntryLoop v stray texts.dropLast v.context.rootCluster
    match found with
    | none =>
      freeAll pathSections
      return .empty
    | some currCluster =>
      let entries ← readDirectory v currCluster
      free entries
      freeAll pathSections
      return lastEntry v stray (texts.getLastD []) currCluster

def findEntry (v : Volume) (stray : Nat → List Entry) (path : CString) : HeapProgram Entry :=
  let normalizedPath := normalizedPath path
  if normalizedPath = [] ∨ isRootPath normalizedPath then return rootEntry v
  else findSections v stray (EszOs.strSplit normalizedPath slash)

/-- `get_entries`: `outEntries` and the number of entries. -/
def getEntries (v : Volume) (stray : Nat → List Entry) (path : CString) :
    HeapProgram (Option Nat × Nat) := do
  let dir ← findEntry v stray path
  if ¬ dir.found ∨ ¬ dir.isDirectory then return (none, 0)
  else
    let outEntries ← readDirectory v dir.firstCluster
    return (outEntries, (entriesRead v stray dir.firstCluster).length)

/-! ## `read_cluster_chain` -/

/-- One iteration; the null pointer is the address 0. -/
def copyCluster (v : Volume) (outBuffer : Option Nat) (s : ChainState) : HeapProgram Unit := do
  let n := v.context.clusterSizeInBytes
  let tempBuffer ← malloc n
  ahciRead v (clusterToLba v.context s.currCluster) v.context.sectorsPerCluster tempBuffer
  storeWith outBuffer n fun outBuffer h =>
    let dest := u64 (outBuffer + s.bufferWriteOffset)
    { h with mem := memoryCopy h.mem dest (tempBuffer.getD 0) n }
  free tempBuffer

/-- The first `fuel` iterations of the loop. -/
def chainLoop (v : Volume) (outBuffer : Option Nat) : Nat → ChainState → HeapProgram Unit
  | 0, _ => return ()
  | fuel + 1, s =>
    if s.Reads then do
      copyCluster v outBuffer s
      chainLoop v outBuffer fuel (s.next v)
    else return ()

/-- `read_cluster_chain`, with the first `fuel` iterations of its loop. -/
def readClusterChain (v : Volume) (fuel startCluster size : Nat) : HeapProgram (Option Nat) :=
  if ¬ IsDataCluster startCluster then return none
  else do
    let outBuffer ← malloc (outBufferSize v size)
    chainLoop v outBuffer fuel (.first startCluster)
    return outBuffer

/-! ## Stores through the null pointer -/

variable {v : Volume} {stray : Nat → List Entry} {heap : Heap}

theorem storeWith_strict (p n : Nat) (f : Nat → Heap → Heap) :
    Strict (storeWith (some p) n f : HeapProgram Unit) fun _ => True := Strict.store p f

theorem sectorsPerCluster_pos (h : 0 < v.context.clusterSizeInBytes) :
    0 < v.context.sectorsPerCluster * sectorSize := by
  rw [v.context.clusterSizeInBytes_eq] at h
  exact Nat.mul_pos (Nat.pos_of_mul_pos_right h) (by decide)

theorem sectorsPerCluster_eq_zero (h : v.context.clusterSizeInBytes = 0) :
    v.context.sectorsPerCluster = 0 := by
  rw [v.context.clusterSizeInBytes_eq] at h
  exact (Nat.mul_eq_zero.mp h).resolve_right (Nat.ne_of_gt v.bytesPerSector_pos)

theorem addLongName_strict (p : Nat) (e : DirectoryEntry) :
    Strict (addLongName (some p) e) fun _ => True := by
  refine (filledStr_strict (.inr (Nat.succ_pos _))).bindBlock fun part1 => ?_
  refine (filledStr_strict (.inr (Nat.succ_pos _))).bindBlock fun part2 => ?_
  refine (filledStr_strict (.inr (Nat.succ_pos _))).bindBlock fun part3 => ?_
  refine (construct_strict _).bindBlock fun name => ?_
  refine (store_strict p _).bind fun _ _ => ?_
  refine (free_strict name).bind fun _ _ => ?_
  refine (free_strict part1).bind fun _ _ => ?_
  refine (free_strict part2).bind fun _ _ => ?_
  exact free_strict part3

theorem copyShortName_strict (p : Nat) (e : DirectoryEntry) :
    Strict (copyShortName (some p) e) fun _ => True := by
  refine (filledStr_strict (.inl (Nat.succ_pos _))).bindBlock fun trimmed => ?_
  refine (free_strict trimmed).bind fun _ _ => ?_
  refine (filledStr_strict (.inl (Nat.succ_pos _))).bindBlock fun trimmed => ?_
  refine (free_strict trimmed).bind fun _ _ => ?_
  split
  · refine (filledStr_strict (.inl (Nat.succ_pos _))).bindBlock fun lower => ?_
    refine (store_strict p _).bind fun _ _ => ?_
    exact free_strict lower
  · refine (construct_strict _).bindBlock fun name => ?_
    refine (filledStr_strict (.inl (Nat.succ_pos _))).bindBlock fun lower => ?_
    refine (free_strict name).bind fun _ _ => ?_
    refine (store_strict p _).bind fun _ _ => ?_
    exact free_strict lower

theorem recordCalls_strict (p : Nat) (gotLongName : Bool) (e : DirectoryEntry) :
    Strict (recordCalls (some p) gotLongName e) fun _ => True := by
  unfold recordCalls
  split
  · exact Strict.pure trivial
  split
  · exact Strict.pure trivial
  split
  · refine (addLongName_strict p e).bind fun _ _ => ?_
    exact Strict.pure trivial
  · have hdata : Strict (store (some p) 9 >>= fun _ => pure false : HeapProgram Bool)
        fun _ => True := by
      refine (store_strict p 9).bind fun _ _ => ?_
      exact Strict.pure trivial
    cases gotLongName with
    | true => exact hdata
    | false => exact (copyShortName_strict p e).bind fun _ _ => hdata

theorem entriesCalls_strict (p : Nat) (gotLongName : Bool) (entries : List DirectoryEntry) :
    Strict (entriesCalls (some p) gotLongName entries) fun _ => True := by
  induction entries generalizing gotLongName with
  | nil => exact Strict.pure trivial
  | cons e entries ih =>
    rw [entriesCalls]
    split
    · exact Strict.pure trivial
    · exact (recordCalls_strict p gotLongName e).bind fun gotLongName _ => ih gotLongName

/-- A cluster without bytes has no records. -/
theorem clusterRecords_nil (h : v.context.clusterSizeInBytes = 0) (cluster : Nat) :
    clusterRecords v cluster = [] := by
  rw [clusterRecords, h]
  rfl

/-- The null pointer for `tempBuffer`: the sectors are stored through it, or it is freed. -/
theorem tempBuffer_doomed {outEntries : Option Nat} {cluster : Nat} :
    Doomed heap (do
      ahciRead v (clusterToLba v.context cluster) v.context.sectorsPerCluster none
      entriesCalls outEntries false (clusterRecords v cluster)
      free none : HeapProgram Unit) := by
  rcases Nat.eq_zero_or_pos (v.context.sectorsPerCluster * sectorSize) with hnone | hpos
  · have hcluster : v.context.clusterSizeInBytes = 0 := by
      by_contra h
      exact absurd hnone (Nat.ne_of_gt (sectorsPerCluster_pos (Nat.pos_of_ne_zero h)))
    rw [ahciRead, hnone, clusterRecords_nil hcluster]
    exact Doomed.after rfl (Doomed.after rfl Doomed.free)
  · exact (Doomed.store hpos _).bind

theorem readDirEntries_strict (cluster p : Nat) :
    Strict (readDirEntries v cluster (some p)) fun _ => True := by
  unfold readDirEntries
  split
  · exact Strict.pure trivial
  · refine Strict.malloc (fun tempBuffer => ?_) fun heap _ => tempBuffer_doomed
    refine (storeWith_strict tempBuffer _ _).bind fun _ _ => ?_
    refine (entriesCalls_strict p false _).bind fun _ _ => ?_
    exact free_strict tempBuffer

/-! ## Lookups -/

/-- After an array of no bytes is refused `tempBuffer` is refused too. -/
theorem readDirEntries_doomed {cluster n : Nat} {α : Type} {f : Unit → HeapProgram α}
    (hrefused : kernelHeap.malloc heap n = some (none, heap))
    (hn : n ≤ v.context.clusterSizeInBytes) (hf : ¬ IsDataCluster cluster → Doomed heap (f ())) :
    Doomed heap (readDirEntries v cluster none >>= f) := by
  unfold readDirEntries
  by_cases hdata : cluster < 2 ∨ eocStart ≤ cluster
  · rw [if_pos hdata]
    exact Doomed.after rfl (hf (not_isDataCluster.mpr hdata))
  · rw [if_neg hdata]
    exact (Doomed.after (NullProgram.exec_malloc_refused hrefused hn) tempBuffer_doomed).bind

/-- A directory that is read, where the program is doomed with an array of no bytes. -/
theorem readDirectory_bind {α : Type} {Q : α → Prop} {cluster : Nat}
    {f : Option Nat → HeapProgram α} (hsome : ∀ p, Strict (f (some p)) Q)
    (hnone : ∀ heap, 0 < entryArraySize v ∨ IsDataCluster cluster ∨ Doomed heap (f none)) :
    Strict (readDirectory v cluster >>= f) Q := by
  unfold readDirectory memoryClear malloc
  simp only [bind_assoc, pure_bind]
  refine Strict.malloc (fun p => ?_) fun heap hrefused => ?_
  · refine (store_strict p _).bind fun _ _ => ?_
    refine (readDirEntries_strict cluster p).bind fun _ _ => ?_
    exact hsome p
  · rcases Nat.eq_zero_or_pos (entryArraySize v) with hsize | hpos
    · rw [hsize] at hrefused ⊢
      refine Doomed.after rfl ?_
      refine readDirEntries_doomed hrefused (Nat.zero_le _) fun hdata => ?_
      have hdoomed := (hnone heap).resolve_left (hsize ▸ Nat.lt_irrefl 0)
      exact hdoomed.resolve_left hdata
    · exact (store_doomed hpos).bind

theorem findEntryLoop_strict (texts : List CString) (currCluster : Nat) :
    Strict (findEntryLoop v stray texts currCluster) fun _ => True := by
  induction texts generalizing currCluster with
  | nil => exact Strict.pure trivial
  | cons text texts ih =>
    refine readDirectory_bind (fun entries => ?_) fun heap => .inr (.inr Doomed.free.bind)
    refine (free_strict entries).bind fun _ _ => ?_
    cases (entriesRead v stray currCluster).find? fun e => e.isDirectory && strEqual e.name text with
    | none => exact Strict.pure trivial
    | some e => exact ih e.firstCluster

/-- A directory without room for a record has no entries. -/
theorem entriesRead_nil (h : maxEntryCount v.context.clusterSizeInBytes = 0) (cluster : Nat) :
    entriesRead v stray cluster = [] := by
  refine entriesRead_of_ok ?_
  rw [dirEntries, EszOs.readDirEntries, clearedEntries, h]
  split
  · rfl
  · simp only [getEntriesInDir, h]
    rfl

/-- An entry is found in a directory with room for it. -/
theorem lastEntry_found {text : CString} {cluster : Nat}
    (h : (lastEntry v stray text cluster).found = true) : 0 < entryArraySize v := by
  refine Nat.mul_pos (by decide) (Nat.pos_of_ne_zero fun h0 => ?_)
  rw [lastEntry, entriesRead_nil h0] at h
  cases h

theorem findSections_strict (texts : List CString) :
    Strict (findSections v stray texts) fun e => e.found = true → 0 < entryArraySize v := by
  refine (strSplit_strict _).bind fun pathSections hsections => ?_
  split
  · exact Strict.fault _
  refine (findEntryLoop_strict _ _).bind fun found _ => ?_
  cases found with
  | none =>
    refine (freeAll_strict hsections.1).bind fun _ _ => ?_
    exact Strict.pure nofun
  | some currCluster =>
    refine readDirectory_bind (fun entries => ?_) fun heap => .inr (.inr Doomed.free.bind)
    refine (free_strict entries).bind fun _ _ => ?_
    refine (freeAll_strict hsections.1).bind fun _ _ => ?_
    exact Strict.pure lastEntry_found

theorem findEntry_strict (v : Volume) (stray : Nat → List Entry) (path : CString) :
    Strict (findEntry v stray path) fun e =>
      e.found = true → 0 < entryArraySize v ∨ LeadsToRoot path ∧ e = rootEntry v := by
  rw [findEntry]
  split
  · rename_i hroot
    exact Strict.pure fun _ => .inr ⟨hroot, rfl⟩
  · exact (findSections_strict _).imp fun e he hfound => .inl (he hfound)

/-- The array of `get_entries` has no bytes, and nothing is read into it. -/
def ReadsNoRoot (v : Volume) (path : CString) : Prop :=
  LeadsToRoot path ∧ entryArraySize v = 0 ∧ ¬ IsDataCluster v.context.rootCluster

theorem getEntries_strict {path : CString} (h : ¬ ReadsNoRoot v path) :
    Strict (getEntries v stray path) fun _ => True := by
  refine (findEntry_strict v stray path).bind fun dir hdir => ?_
  split
  · exact Strict.pure trivial
  · rename_i hnot
    rw [not_or, not_not, not_not] at hnot
    refine readDirectory_bind (fun _ => Strict.pure trivial) fun heap => ?_
    rcases hdir hnot.1 with hsize | ⟨hroot, rfl⟩
    · exact .inl hsize
    · by_contra hcon
      rw [not_or, not_or] at hcon
      exact h ⟨hroot, Nat.eq_zero_of_not_pos hcon.1, hcon.2.1⟩

theorem getEntries_tolerant {path : CString} (h : ReadsNoRoot v path) :
    Tolerant (getEntries v stray path) := by
  obtain ⟨hroot, hsize, hdata⟩ := h
  have hfind : findEntry v stray path = pure (rootEntry v) := if_pos hroot
  rw [getEntries, hfind, pure_bind, if_neg (by simp [rootEntry]), readDirectory, hsize]
  refine Tolerant.bind (Tolerant.malloc.bind fun entries => ?_) fun _ => Tolerant.pure _
  refine (store_tolerant entries).bind fun _ => ?_
  rw [readDirEntries, rootEntry, if_pos (not_isDataCluster.mp hdata)]
  exact (Tolerant.pure ()).bind fun _ => Tolerant.pure _

/-! ## Reading a chain -/

/-- A store of no bytes through the null pointer is none. -/
theorem storeWith_strict_none {p : Option Nat} {n : Nat} (h : p = none → n = 0)
    (f : Nat → Heap → Heap) : Strict (storeWith p n f : HeapProgram Unit) fun _ => True := by
  cases p with
  | none =>
    rw [h rfl]
    exact Strict.pure trivial
  | some p => exact storeWith_strict p n f

theorem copyCluster_strict {outBuffer : Option Nat} (s : ChainState)
    (h : outBuffer = none → v.context.clusterSizeInBytes = 0) :
    Strict (copyCluster v outBuffer s) fun _ => True := by
  refine Strict.malloc (fun tempBuffer => ?_) fun heap _ => ?_
  · refine (storeWith_strict tempBuffer _ _).bind fun _ _ => ?_
    refine (storeWith_strict_none h _).bind fun _ _ => ?_
    exact free_strict tempBuffer
  · rcases Nat.eq_zero_or_pos v.context.clusterSizeInBytes with hsize | hpos
    · have hsectors : v.context.sectorsPerCluster * sectorSize = 0 := by
        rw [sectorsPerCluster_eq_zero hsize, Nat.zero_mul]
      rw [ahciRead, hsectors, hsize]
      exact Doomed.after rfl (Doomed.after rfl Doomed.free)
    · exact (Doomed.store (sectorsPerCluster_pos hpos) _).bind

/-- The null pointer for `outBuffer`: the first cluster is copied to it. -/
theorem copyCluster_doomed {n : Nat} (s : ChainState) (h : 0 < v.context.clusterSizeInBytes)
    (hrefused : kernelHeap.malloc heap n = some (none, heap)) :
    Doomed heap (copyCluster v none s) := by
  refine Doomed.malloc hrefused fun tempBuffer heap' => ?_
  cases tempBuffer with
  | none => exact (Doomed.store (sectorsPerCluster_pos h) _).bind
  | some tempBuffer => exact Doomed.afterStore fun heap => (Doomed.store h _).bind

theorem chainLoop_strict {outBuffer : Option Nat} (fuel : Nat) (s : ChainState)
    (h : outBuffer = none → v.context.clusterSizeInBytes = 0) :
    Strict (chainLoop v outBuffer fuel s) fun _ => True := by
  induction fuel generalizing s with
  | zero => exact Strict.pure trivial
  | succ fuel ih =>
    rw [chainLoop]
    split
    · exact (copyCluster_strict s h).bind fun _ _ => ih (s.next v)
    · exact Strict.pure trivial

theorem chainLoop_oblivious (outBuffer : Option Nat) (fuel : Nat) (s : ChainState) :
    Oblivious (chainLoop v outBuffer fuel s) := by
  induction fuel generalizing s with
  | zero => exact Oblivious.pure ()
  | succ fuel ih =>
    rw [chainLoop]
    split
    · refine Oblivious.bind ?_ fun _ => ih (s.next v)
      refine Oblivious.malloc.bind fun tempBuffer => ?_
      refine (Oblivious.store tempBuffer _).bind fun _ => ?_
      exact (Oblivious.store outBuffer _).bind fun _ => Oblivious.free tempBuffer
    · exact Oblivious.pure ()

/-- The clusters of the chain have no bytes. -/
def ReadsEmptyClusters (v : Volume) (startCluster : Nat) : Prop :=
  IsDataCluster startCluster ∧ v.context.clusterSizeInBytes = 0

theorem readClusterChain_strict {startCluster : Nat} (h : ¬ ReadsEmptyClusters v startCluster)
    (fuel size : Nat) :
    Strict (readClusterChain v (fuel + 1) startCluster size) fun _ => True := by
  rw [readClusterChain]
  split
  · exact Strict.pure trivial
  rename_i hdata
  have hpos : 0 < v.context.clusterSizeInBytes :=
    Nat.pos_of_ne_zero fun hsize => h ⟨not_not.mp hdata, hsize⟩
  refine Strict.malloc (fun outBuffer => ?_) fun heap hrefused => ?_
  · have hsome : some outBuffer = none → v.context.clusterSizeInBytes = 0 := nofun
    refine (chainLoop_strict _ _ hsome).bind fun _ _ => ?_
    exact Strict.pure trivial
  · have hreads : (ChainState.first startCluster).Reads := not_not.mp hdata
    rw [chainLoop, if_pos hreads]
    exact (copyCluster_doomed _ hpos hrefused).bind.bind

/-! ## Chains that are served -/

section

variable {start size : Nat} {live : Live} {bs : List Blocks.Block} {refused : Bool}

theorem exec_malloc_served {h h' : Heap} {n ptr : Nat} (hmalloc : h.malloc n = some (some ptr, h')) :
    exec (malloc n) ⟨h, refused⟩ = (.ok (some ptr), ⟨h', refused⟩) := by
  have hkernel : kernelHeap.malloc h n = some (some ptr, h') := hmalloc
  rw [malloc, NullProgram.exec_malloc]
  simp only [hkernel]

theorem exec_free_served {h h' : Heap} {ptr : Nat} (hfree : h.free ptr = some h') :
    exec (free (some ptr)) ⟨h, refused⟩ = (.ok (), ⟨h', refused⟩) :=
  NullProgram.exec_free_eq_ok.mpr ⟨hfree, rfl⟩

theorem exec_ahciRead (lba count : Nat) {h : Heap} {ptr : Nat} :
    exec (ahciRead v lba count (some ptr)) ⟨h, refused⟩ =
      (.ok (), ⟨{ h with mem := readSectors v h.mem lba count ptr }, refused⟩) := by
  refine NullProgram.exec_storeWith fun hcount => ?_
  have hmem : readSectors v h.mem lba count ptr = h.mem := by
    funext x
    exact readSectors_outside (by omega)
  rw [hmem]

/-- The copy to `outBuffer`. -/
theorem exec_copy (dest tempBuffer n : Nat) {h : Heap} {outBuffer : Nat} :
    exec (storeWith (some outBuffer) n fun outBuffer h =>
        { h with mem := memoryCopy h.mem (u64 (outBuffer + dest)) tempBuffer n } : HeapProgram Unit)
      ⟨h, refused⟩ =
      (.ok (), ⟨{ h with mem := memoryCopy h.mem (u64 (outBuffer + dest)) tempBuffer n }, refused⟩) := by
  refine NullProgram.exec_storeWith fun hsize => ?_
  subst hsize
  rfl

/-- Without the null pointer an iteration is the one of `EszOs.copyCluster`. -/
theorem copyCluster_served {outBuffer : Nat} {s : ChainState} {h h' : Heap}
    (hcopy : EszOs.copyCluster v outBuffer s h = .ok h') :
    exec (copyCluster v (some outBuffer) s) ⟨h, refused⟩ = (.ok (), ⟨h', refused⟩) := by
  obtain ⟨⟨tempBuffer, h₁⟩, hallocate, hrelease⟩ := bind_eq_ok.mp hcopy
  have hmalloc : h.malloc v.context.clusterSizeInBytes = some (some tempBuffer, h₁) :=
    allocate_eq_ok.mp hallocate
  have hfree := release_eq_ok.mp hrelease
  rw [copyCluster]
  simp only [exec_bind_ok (exec_malloc_served hmalloc), exec_bind_ok (exec_ahciRead _ _),
    Option.getD_some, exec_bind_ok (exec_copy _ _ _)]
  exact exec_free_served hfree

theorem chainLoop_served {outBuffer fuel : Nat} {s : ChainState} {h h' : Heap}
    (hloop : EszOs.chainLoop v outBuffer fuel s h = .ok h') :
    exec (chainLoop v (some outBuffer) fuel s) ⟨h, refused⟩ = (.ok (), ⟨h', refused⟩) := by
  induction fuel generalizing s h with
  | zero =>
    rw [EszOs.chainLoop] at hloop
    split at hloop
    · cases hloop
    · cases hloop
      rfl
  | succ fuel ih =>
    rw [EszOs.chainLoop] at hloop
    rw [chainLoop]
    split at hloop
    · rename_i hreads
      obtain ⟨h₁, hcopy, hrest⟩ := bind_eq_ok.mp hloop
      rw [if_pos hreads, exec_bind_ok (copyCluster_served hcopy)]
      exact ih hrest
    · rename_i hstop
      cases hloop
      rw [if_neg hstop]
      rfl

/-- Without the null pointer `read_cluster_chain` is the one of `Storage/ClusterChain.lean`, for every
size of a cluster. -/
theorem readClusterChain_served {fuel startCluster n : Nat} {h : Heap} {r : Nat × Heap}
    (hdata : IsDataCluster startCluster)
    (hread : EszOs.readClusterChain v fuel h startCluster n = .ok r) :
    (readClusterChain v fuel startCluster n).run h = (.ok (some r.1), ⟨r.2, false⟩) := by
  rw [EszOs.readClusterChain, if_neg (not_not_intro hdata)] at hread
  obtain ⟨⟨outBuffer, h₁⟩, hallocate, hread⟩ := bind_eq_ok.mp hread
  have hmalloc : h.malloc (outBufferSize v n) = some (some outBuffer, h₁) :=
    allocate_eq_ok.mp hallocate
  rw [readClusterChain, if_neg (not_not_intro hdata), NullProgram.run,
    exec_bind_ok (exec_malloc_served hmalloc)]
  cases hloop : EszOs.chainLoop v outBuffer fuel (.first startCluster) h₁ with
  | error fault =>
    simp only [hloop] at hread
    cases hread
  | ok h' =>
    simp only [hloop] at hread
    cases hread
    rw [exec_bind_ok (chainLoop_served hloop)]
    rfl

/-! ## Clusters of no bytes -/

variable {tempBuffer : Option Nat}

theorem exec_ahciRead_empty (hsize : v.context.clusterSizeInBytes = 0) (lba : Nat) :
    exec (ahciRead v lba v.context.sectorsPerCluster tempBuffer) ⟨heap, refused⟩ =
      (.ok (), ⟨heap, refused⟩) := by
  rw [ahciRead, sectorsPerCluster_eq_zero hsize, Nat.zero_mul]
  rfl

/-- An iteration does what `free` does with the block that `malloc` gives it. -/
theorem copyCluster_empty (hsize : v.context.clusterSizeInBytes = 0) {s : ChainState} {heap₁ : Heap}
    {refused₁ : Bool}
    (hmalloc : exec (malloc 0) ⟨heap, refused⟩ = (.ok tempBuffer, ⟨heap₁, refused₁⟩)) :
    exec (copyCluster v none s) ⟨heap, refused⟩ = exec (free tempBuffer) ⟨heap₁, refused₁⟩ := by
  have hcopy : ∀ f, exec (storeWith none 0 f : HeapProgram Unit) ⟨heap₁, refused₁⟩ =
      (.ok (), ⟨heap₁, refused₁⟩) := fun f => rfl
  rw [copyCluster]
  simp only [hsize, exec_bind_ok hmalloc, exec_bind_ok (exec_ahciRead_empty hsize _),
    exec_bind_ok (hcopy _)]

/-- On a heap with a free block every `tempBuffer` is served. -/
theorem chainLoop_empty_served (hsize : v.context.clusterSizeInBytes = 0)
    (hi : HeapInv start size heap live bs) (hfree : ∃ b ∈ bs, b.used = false) (fuel : Nat)
    (s : ChainState) :
    ∃ heap', exec (chainLoop v none fuel s) ⟨heap, refused⟩ = (.ok (), ⟨heap', refused⟩) := by
  induction fuel generalizing heap s with
  | zero => exact ⟨heap, rfl⟩
  | succ fuel ih =>
    rw [chainLoop]
    split
    · rcases allocate_cases hi 0 with ⟨-, hunfit⟩ | ⟨ptr, h₁, bs₁, hok, hi₁, -, hundo⟩
      · obtain ⟨b, hb, hused⟩ := hfree
        rcases hunfit b hb with hshort | htaken
        · exact absurd hshort (Nat.not_lt_zero _)
        · exact absurd htaken (by rw [hused]; exact Bool.false_ne_true)
      · have hmalloc : heap.malloc 0 = some (some ptr, h₁) := allocate_eq_ok.mp hok
        obtain ⟨h₂, hrelease, hi₂⟩ := hundo h₁ hi₁
        obtain ⟨heap', hloop⟩ := ih hi₂ (s.next v)
        have hiteration : exec (copyCluster v none s) ⟨heap, refused⟩ = (.ok (), ⟨h₂, refused⟩) := by
          rw [copyCluster_empty hsize (exec_malloc_served hmalloc)]
          exact exec_free_served hrelease
        exact ⟨heap', by rw [exec_bind_ok hiteration, hloop]⟩
    · exact ⟨heap, rfl⟩

/-- On a heap without one the first `tempBuffer` is refused. -/
theorem chainLoop_empty_refused (hsize : v.context.clusterSizeInBytes = 0)
    (hrefused : kernelHeap.malloc heap 0 = some (none, heap)) (fuel : Nat) {s : ChainState}
    (hreads : s.Reads) : (chainLoop v none (fuel + 1) s).Refused heap := by
  have hmalloc : exec (malloc 0) ⟨heap, false⟩ = (.ok none, ⟨heap, true⟩) := by
    rw [malloc, NullProgram.exec_malloc]
    simp only [hrefused]
  have hiteration : exec (copyCluster v none s) ⟨heap, false⟩ = (.error .nullStore, ⟨heap, true⟩) :=
    copyCluster_empty hsize hmalloc
  rw [chainLoop, if_pos hreads, NullProgram.Refused, NullProgram.run,
    Program.exec_bind_error hiteration]

end

/-! ## Calls -/

/-- A call of a function that allocates. A `String` is given by its block and its text. -/
inductive Call
  | mallocStr (size : UInt64)
  | mallocEmptyStr
  | strRepeat (text : CString) (amount : UInt64)
  | strCombine (a b : CString)
  | strCombineChar (a : CString)
  | toStringU64 (inputValue : UInt64) (base : UInt8)
  | toStringI64 (inputValue : Int64) (base : UInt8)
  | strCutEndMalloc (text : CString)
  | strCutStart (text : CString) (n : UInt64)
  | strMoveRight (text : CString) (moveAmount : UInt64)
  | strTrimStart (text : CString)
  | strTrimEnd (text : CString)
  | strTrim (text : CString)
  | strToUpper (text : CString)
  | strToLower (text : CString)
  | strSplit (text : CString) (splitChar : UInt8)
  | strReplace (searchTextLen replacedByLen : UInt64) (texts : List CString)
  | utf16TextToAscii (text : List (UInt8 × UInt8))
  | construct (args : List Argument)
  | copy (text : CString)
  | assign (data : Nat) (b : CString)
  | addAssign (data : Nat) (text b : CString)
  | addAssignChar (data : Nat) (text : CString)
  | findEntry (v : Volume) (stray : Nat → List Entry) (path : CString)
  | getEntries (v : Volume) (stray : Nat → List Entry) (path : CString)
  | readDirEntries (v : Volume) (cluster outEntries : Nat)
  /-- With the first iterations of the loop: one and `fuel` more. -/
  | readClusterChain (v : Volume) (fuel startCluster size : Nat)

/-- A program without its result. -/
def discard {α : Type} (m : HeapProgram α) : HeapProgram Unit := do
  let _ ← m
  return ()

def Call.program : Call → HeapProgram Unit
  | mallocStr size => discard (NullChecks.mallocStr size.toNat)
  | mallocEmptyStr => discard NullChecks.mallocEmptyStr
  | strRepeat text amount => discard (NullChecks.strRepeat text amount)
  | strCombine a b => discard (NullChecks.strCombine a b)
  | strCombineChar a => discard (NullChecks.strCombineChar a)
  | toStringU64 inputValue base => discard (NullChecks.toStringU64 inputValue base)
  | toStringI64 inputValue base => discard (NullChecks.toStringI64 inputValue base)
  | strCutEndMalloc text => discard (NullChecks.strCutEndMalloc text)
  | strCutStart text n => discard (NullChecks.strCutStart text n)
  | strMoveRight text moveAmount => discard (NullChecks.strMoveRight text moveAmount)
  | strTrimStart text => discard (NullChecks.strTrimStart text)
  | strTrimEnd text => discard (NullChecks.strTrimEnd text)
  | strTrim text => discard (NullChecks.strTrim text)
  | strToUpper text => discard (NullChecks.strToUpper text)
  | strToLower text => discard (NullChecks.strToLower text)
  | strSplit text splitChar => discard (NullChecks.strSplit (EszOs.strSplit text splitChar))
  | strReplace searchTextLen replacedByLen texts =>
    NullChecks.strReplace searchTextLen replacedByLen texts
  | utf16TextToAscii text => discard (NullChecks.utf16TextToAscii text)
  | construct args => discard (NullChecks.construct args)
  | copy text => discard (copyStr text)
  | assign data b => discard (NullChecks.assign data b)
  | addAssign data text b => discard (NullChecks.addAssign data text b)
  | addAssignChar data text => discard (NullChecks.addAssignChar data text)
  | findEntry v stray path => discard (NullChecks.findEntry v stray path)
  | getEntries v stray path => discard (NullChecks.getEntries v stray path)
  | readDirEntries v cluster outEntries => NullChecks.readDirEntries v cluster (some outEntries)
  | readClusterChain v fuel startCluster size =>
    discard (NullChecks.readClusterChain v (fuel + 1) startCluster size)

/-- The block has no bytes, and the call leaves it alone. -/
def Call.KeepsEmpty : Call → Prop
  | mallocStr size => size = 0
  | strCutStart text n => n.toNat = text.length + 1
  | getEntries v _ path => ReadsNoRoot v path
  | _ => False

/-- The call reads clusters of no bytes. -/
def Call.ReadsEmpty : Call → Prop
  | readClusterChain v _ startCluster _ => ReadsEmptyClusters v startCluster
  | _ => False

/-- Nothing is copied to `outBuffer`: that it is refused does no harm, and no `tempBuffer` is. -/
def Call.CopiesNothing (h : Heap) : Call → Prop
  | readClusterChain v fuel startCluster _ => ReadsEmptyClusters v startCluster ∧
      kernelHeap.malloc h 1 = some (none, h) ∧
        ¬ (chainLoop v none (fuel + 1) (.first startCluster)).Refused h
  | _ => False

theorem discard_strict {α : Type} {m : HeapProgram α} {Q : α → Prop} (hm : Strict m Q) :
    Strict (discard m) fun _ => True :=
  hm.bind fun _ _ => Strict.pure trivial

theorem discard_tolerant {α : Type} {m : HeapProgram α} (hm : Tolerant m) : Tolerant (discard m) :=
  hm.bind fun _ => Tolerant.pure ()

theorem Call.program_strict {call : Call} (h : ¬ call.KeepsEmpty) (hclusters : ¬ call.ReadsEmpty) :
    Strict call.program fun _ => True := by
  have hfilled : ∀ {size n : Nat}, Strict (discard (filledStr (size + 1) n)) fun _ => True :=
    discard_strict (filledStr_strict (.inl (Nat.succ_pos _)))
  cases call with
  | mallocStr size =>
    refine discard_strict (mallocStr_strict (Nat.pos_of_ne_zero fun h0 => h ?_))
    exact UInt64.toNat_inj.mp h0
  | mallocEmptyStr => exact discard_strict mallocEmptyStr_strict
  | strRepeat text amount => exact discard_strict (strRepeat_strict text amount)
  | strCombine a b => exact discard_strict (strCombine_strict a b)
  | strCombineChar a => exact hfilled
  | toStringU64 inputValue base => exact discard_strict (toStringU64_strict inputValue base)
  | toStringI64 inputValue base => exact discard_strict (toStringI64_strict inputValue base)
  | strCutEndMalloc text => exact hfilled
  | strCutStart text n => exact discard_strict (strCutStart_strict h)
  | strMoveRight text moveAmount =>
    exact discard_strict (filledStr_strict (.inr (Nat.add_pos_right _ (Nat.succ_pos _))))
  | strTrimStart text => exact hfilled
  | strTrimEnd text => exact hfilled
  | strTrim text => exact hfilled
  | strToUpper text => exact hfilled
  | strToLower text => exact hfilled
  | strSplit text splitChar => exact discard_strict (strSplit_strict _)
  | strReplace searchTextLen replacedByLen texts => exact strReplace_strict _ _ texts
  | utf16TextToAscii text => exact hfilled
  | construct args => exact discard_strict (construct_strict args)
  | copy text => exact discard_strict (copyStr_strict text)
  | assign data b => exact discard_strict (replaceData_strict (copyStr_strict b) data)
  | addAssign data text b => exact discard_strict (replaceData_strict (strCombine_strict text b) data)
  | addAssignChar data text =>
    refine discard_strict (replaceData_strict ?_ data)
    exact filledStr_strict (.inl (Nat.succ_pos _))
  | findEntry v stray path => exact discard_strict (findEntry_strict v stray path)
  | getEntries v stray path => exact discard_strict (getEntries_strict h)
  | readDirEntries v cluster outEntries => exact readDirEntries_strict cluster outEntries
  | readClusterChain v fuel startCluster size =>
    exact discard_strict (readClusterChain_strict hclusters fuel size)

theorem Call.program_tolerant {call : Call} (h : call.KeepsEmpty) : Tolerant call.program := by
  cases call with
  | mallocStr size =>
    cases h
    exact discard_tolerant mallocStr_tolerant
  | strCutStart text n =>
    refine discard_tolerant ?_
    have hn : n.toNat = text.length + 1 := h
    have hsize : u64 (text.length + 2 ^ 64 - n.toNat + 1) = 0 := by
      rw [u64]
      omega
    rw [NullChecks.strCutStart, hsize, Nat.sub_eq_zero_of_le (by omega)]
    exact filledStr_tolerant
  | getEntries v stray path => exact discard_tolerant (getEntries_tolerant h)
  | _ => exact h.elim

theorem refused_bind_pure {α β : Type} {m : HeapProgram α} {b : β} {h : Heap} :
    (m >>= fun _ => pure b : HeapProgram β).Refused h ↔ m.Refused h := by
  unfold NullProgram.Refused NullProgram.run
  rw [Program.exec_bind]
  rcases Program.exec m ⟨h, false⟩ with ⟨e | a, s⟩ <;> exact Iff.rfl

/-- Clusters of no bytes: `outBuffer` may be the null pointer. -/
theorem readClusterChain_checksNull_iff {fuel startCluster size : Nat} {h : Heap}
    (hempty : ReadsEmptyClusters v startCluster) :
    (Call.readClusterChain v fuel startCluster size).program.ChecksNull h ↔
      ¬ (Call.readClusterChain v fuel startCluster size).program.Refused h ∨
        (Call.readClusterChain v fuel startCluster size).CopiesNothing h := by
  obtain ⟨hdata, hsize⟩ := hempty
  have hbuffer : outBufferSize v size = 1 := by
    rw [outBufferSize, hsize]
    rfl
  have hprogram : (Call.readClusterChain v fuel startCluster size).program =
      malloc 1 >>= fun outBuffer =>
        chainLoop v outBuffer (fuel + 1) (.first startCluster) >>= fun _ => pure () := by
    rw [Call.program, discard, readClusterChain, if_neg (not_not_intro hdata), hbuffer]
    simp only [bind_assoc, pure_bind]
  have hstrict : ∀ outBuffer, Strict (chainLoop v outBuffer (fuel + 1) (.first startCluster) >>=
      fun _ => pure () : HeapProgram Unit) fun _ => True := by
    intro outBuffer
    exact (chainLoop_strict _ _ fun _ => hsize).bind fun _ _ => Strict.pure trivial
  have hnone : Oblivious (chainLoop v none (fuel + 1) (.first startCluster) >>=
      fun _ => pure () : HeapProgram Unit) :=
    (chainLoop_oblivious none _ _).bind fun _ => Oblivious.pure ()
  rw [hprogram, malloc, NullProgram.checksNull_malloc_iff hstrict hnone, refused_bind_pure]
  exact or_congr_right (and_iff_right ⟨hdata, hsize⟩).symm

/-- On the kernel heap: the free blocks have no bytes, and there is one. -/
theorem copiesNothing_iff {start size n fuel startCluster : Nat} {live : Live}
    {bs : List Blocks.Block} {h : Heap} (hi : HeapInv start size h live bs) :
    (Call.readClusterChain v fuel startCluster n).CopiesNothing h ↔
      ReadsEmptyClusters v startCluster ∧ (∀ b ∈ bs, b.used = false → b.length = 0) ∧
        ∃ b ∈ bs, b.used = false := by
  refine and_congr_right fun hempty => and_congr ?_ ?_
  · rcases hi.malloc_cases 1 with ⟨hunfit, hrefused⟩ | ⟨pre, b, post, rfl, -, hfit, hserved⟩
    · refine iff_of_true hrefused fun b hb hfree => ?_
      rcases hunfit b hb with hshort | hused
      · exact Nat.lt_one_iff.mp hshort
      · exact absurd hused (by rw [hfree]; exact Bool.false_ne_true)
    · refine iff_of_false ?_ fun hall => hfit ?_
      · intro hrefused
        have hsame := hserved.symm.trans hrefused
        cases hsame
      · by_cases hfree : b.used = false
        · exact .inl (Nat.lt_one_iff.mpr (hall b (by simp) hfree))
        · exact .inr (Bool.eq_true_of_not_eq_false hfree)
  · have hsize := hempty.2
    have hreads : (ChainState.first startCluster).Reads := hempty.1
    constructor
    · intro hserved
      rcases hi.malloc_cases 0 with ⟨-, hrefused⟩ | ⟨pre, b, post, rfl, -, hfit, -⟩
      · exact absurd (chainLoop_empty_refused hsize hrefused fuel hreads) hserved
      · refine ⟨b, by simp, ?_⟩
        exact Bool.eq_false_of_not_eq_true fun hused => hfit (.inr hused)
    · intro hfree
      obtain ⟨heap', hloop⟩ : ∃ heap', exec (chainLoop v none (fuel + 1) (.first startCluster))
          ⟨h, false⟩ = (.ok (), ⟨heap', false⟩) := chainLoop_empty_served hsize hi hfree _ _
      rw [NullProgram.Refused, NullProgram.run, hloop]
      exact Bool.false_ne_true

/-- From every heap, a call stores nothing through a null pointer that `malloc` returns to it exactly
if `malloc` returns none to it, or the block has no bytes and is left alone, or nothing is copied to
the block. -/
theorem calls_checkNull_iff (call : Call) (h : Heap) :
    call.program.ChecksNull h ↔
      ¬ call.program.Refused h ∨ call.KeepsEmpty ∨ call.CopiesNothing h := by
  by_cases hempty : call.KeepsEmpty
  · exact iff_of_true ((Call.program_tolerant hempty).checksNull h) (.inr (.inl hempty))
  rw [or_iff_right hempty]
  by_cases hclusters : call.ReadsEmpty
  · cases call with
    | readClusterChain v fuel startCluster size => exact readClusterChain_checksNull_iff hclusters
    | _ => exact hclusters.elim
  · have hcopies : ¬ call.CopiesNothing h := by
      intro hcopies
      cases call with
      | readClusterChain v fuel startCluster size => exact hclusters hcopies.1
      | _ => exact hcopies
    rw [(Call.program_strict hempty hclusters h).checksNull_iff]
    exact (or_iff_left hcopies).symm

/-- 32 MiB are more than the kernel heap has. -/
theorem mallocStr_null : ¬ (Call.mallocStr 0x2000000).program.ChecksNull freshHeap := by
  have hempty : ¬ (Call.mallocStr 0x2000000).KeepsEmpty := fun h =>
    absurd (show (0x2000000 : UInt64) = 0 from h) (by decide)
  rw [(Call.program_strict hempty id freshHeap).checksNull_iff, not_not]
  show ((Call.mallocStr 0x2000000).program.run freshHeap).2.refused = true
  decide +kernel

end NullChecks

end EszOs
