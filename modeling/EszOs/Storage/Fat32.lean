import EszOs.Lib.Bytes
import EszOs.Storage.DirectoryEntries
import EszOs.Storage.Filesystem

/-!
# Finding entries (`storage/filesystem/fat32/fat32.cpp`)

A volume is the context from its boot sector and the sectors as they are read. The allocations of
`find_entry` and `get_entries` are left out.
-/

namespace EszOs

open Bytes

/-! ## The context -/

def eocStart : Nat := 0x0FFFFFF8

def sectorSize : Nat := 512

structure FAT32Context where
  fatStartLBA : Nat
  dataRegionStartLBA : Nat
  rootCluster : Nat
  sectorsPerCluster : Nat
  bytesPerSector : Nat
  rootDirLBA : Nat
  clusterSizeInBytes : Nat
  fatStartLBA_lt : fatStartLBA < 2 ^ 32
  dataRegionStartLBA_lt : dataRegionStartLBA < 2 ^ 64
  rootCluster_lt : rootCluster < 2 ^ 32
  sectorsPerCluster_lt : sectorsPerCluster < 2 ^ 8
  bytesPerSector_lt : bytesPerSector < 2 ^ 16
  clusterSizeInBytes_eq : clusterSizeInBytes = sectorsPerCluster * bytesPerSector

/-- `init_fat32` with the first sector of the partition in `buffer`. -/
def initFat32 (startLBA : Nat) (buffer : Mem) : FAT32Context :=
  let bytesPerSector := readLE buffer 11 2
  let sectorsPerCluster := readLE buffer 13 1
  let reservedSectors := readLE buffer 14 2
  let amountOfFATCopies := readLE buffer 16 1
  let sectorsPerFAT := readLE buffer 36 4
  let rootBeginClusterNumber := readLE buffer 44 4
  let fatStartLBA := u32 (startLBA + reservedSectors)
  let dataRegionStartLBA := u64 (fatStartLBA + u32 (amountOfFATCopies * sectorsPerFAT))
  { fatStartLBA
    dataRegionStartLBA
    rootCluster := rootBeginClusterNumber
    sectorsPerCluster
    bytesPerSector
    rootDirLBA :=
      u64 (dataRegionStartLBA + u32 (u32 (rootBeginClusterNumber + 2 ^ 32 - 2) * sectorsPerCluster))
    clusterSizeInBytes := sectorsPerCluster * bytesPerSector
    fatStartLBA_lt := Nat.mod_lt _ (by decide)
    dataRegionStartLBA_lt := u64_lt _
    rootCluster_lt := readLE_lt buffer 44 4
    sectorsPerCluster_lt := readLE_lt buffer 13 1
    bytesPerSector_lt := readLE_lt buffer 11 2
    clusterSizeInBytes_eq := rfl }

/-- A context with one sector of 512 bytes in a cluster. -/
def smallContext : FAT32Context where
  fatStartLBA := 32
  dataRegionStartLBA := 64
  rootCluster := 2
  sectorsPerCluster := 1
  bytesPerSector := 512
  rootDirLBA := 64
  clusterSizeInBytes := 512
  fatStartLBA_lt := by decide
  dataRegionStartLBA_lt := by decide
  rootCluster_lt := by decide
  sectorsPerCluster_lt := by decide
  bytesPerSector_lt := by decide
  clusterSizeInBytes_eq := rfl

theorem smallContext_pos : 0 < smallContext.bytesPerSector := by decide

def clusterToLba (context : FAT32Context) (cluster : Nat) : Nat :=
  u64 (context.dataRegionStartLBA + u32 (u32 (cluster + 2 ^ 32 - 2) * context.sectorsPerCluster))

/-- A volume: `read lba count` are the bytes that a read of `count` sectors leaves in its buffer. -/
structure Volume where
  context : FAT32Context
  read : Nat → Nat → Mem
  bytesPerSector_pos : 0 < context.bytesPerSector

def getFatSectorToRead (context : FAT32Context) (cluster : Nat) : Nat :=
  u64 (u32 (cluster * 4) / context.bytesPerSector + context.fatStartLBA)

def getNextCluster (v : Volume) (cluster : Nat) : Nat :=
  let fatSector := getFatSectorToRead v.context cluster
  let offsetInSector := u32 (cluster * 4) % v.context.bytesPerSector
  let buffer := v.read fatSector 1
  readLE buffer (offsetInSector / 4 * 4) 4 &&& 0x0FFFFFFF

/-- The numbers of clusters with data; the others end a chain. -/
def IsDataCluster (cluster : Nat) : Prop := 2 ≤ cluster ∧ cluster < eocStart

instance (cluster : Nat) : Decidable (IsDataCluster cluster) :=
  inferInstanceAs (Decidable (_ ∧ _))

theorem not_isDataCluster {cluster : Nat} :
    ¬ IsDataCluster cluster ↔ cluster < 2 ∨ eocStart ≤ cluster := by
  rw [IsDataCluster]
  omega

/-! ## Directories -/

/-- A buffer as an array of directory records. -/
def directoryEntries (buffer : Mem) (i : Nat) : DirectoryEntry := fun j => buffer (32 * i + j)

/-- `read_dir_entries`: `outEntries` and `outEntryCount` then. -/
def readDirEntries (v : Volume) (cluster : Nat) (outEntries : List Entry) (outEntryCount : Nat) :
    Except DirFault (List Entry × Nat) :=
  if cluster < 2 ∨ eocStart ≤ cluster then .ok (outEntries, outEntryCount)
  else
    let tempBuffer := v.read (clusterToLba v.context cluster) v.context.sectorsPerCluster
    (getEntriesInDir v.context.clusterSizeInBytes (directoryEntries tempBuffer) outEntries
      outEntryCount).map fun l => (l.outEntries, l.outEntryCount)

/-- The entries of a directory as the callers of `read_dir_entries` read them: into a cleared array,
from index 0. -/
def dirEntries (v : Volume) (cluster : Nat) : Except DirFault (List Entry) :=
  (readDirEntries v cluster (clearedEntries v.context.clusterSizeInBytes) 0).map
    fun r => r.1.take r.2

/-! ## `find_entry` -/

/-- `normalizedPath` -/
def normalizedPath (path : CString) : CString :=
  if path.head? = some slash then path.tail else path

def isRootPath (path : CString) : Bool := path == [slash]

/-- What makes `find_entry` leave its memory. -/
inductive FindFault
  /-- A section is stored behind `pathSections`. -/
  | pathSectionsOverrun
  | directory (fault : DirFault)
  deriving DecidableEq

/-- The stores of `find_entry` into `pathSections`. -/
def findEntryStores (path : CString) : List (Nat × CString) :=
  let normalizedPath := normalizedPath path
  if normalizedPath = [] ∨ isRootPath normalizedPath then []
  else strSplitStores slash normalizedPath [] 0

/-- The stores of `filesystem_change_directory` into `pathSections`. -/
def changeDirectoryStores (path : CString) : List (Nat × CString) :=
  if path = [] then []
  else if isAbsolutePath path then []
  else strSplitStores slash path [] 0

/-- The loop of `find_entry` over all sections but the last: the cluster of the directory. -/
def findEntryLoop (v : Volume) : List CString → Nat → Except DirFault (Option Nat)
  | [], currCluster => .ok (some currCluster)
  | pathSection :: pathSections, currCluster =>
    (dirEntries v currCluster).bind fun entries =>
      match entries.find? fun e => e.isDirectory && strEqual e.name pathSection with
      | none => .ok none
      | some e => findEntryLoop v pathSections e.firstCluster

/-- The lookup of the last section. -/
def findLast (v : Volume) (pathSection : CString) (currCluster : Nat) : Except DirFault Entry :=
  (dirEntries v currCluster).map fun entries =>
    match entries.find? fun e => strEqual e.name pathSection with
    | none => .empty
    | some e => { e with found := true }

/-- `find_entry` behind `str_split`. -/
def findSections (v : Volume) (pathSections : List CString) : Except DirFault Entry :=
  (findEntryLoop v pathSections.dropLast v.context.rootCluster).bind fun
    | none => .ok .empty
    | some currCluster => findLast v (pathSections.getLastD []) currCluster

def rootEntry (v : Volume) : Entry :=
  { isDirectory := true, firstCluster := v.context.rootCluster, found := true }

def findEntry (v : Volume) (path : CString) : Except FindFault Entry :=
  let normalizedPath := normalizedPath path
  if normalizedPath = [] ∨ isRootPath normalizedPath then .ok (rootEntry v)
  else if ∃ s ∈ findEntryStores path, maxPathDepth ≤ s.1 then .error .pathSectionsOverrun
  else (findSections v (strSplit normalizedPath slash)).mapError .directory

/-- `get_entries`: the entries in `outEntries`; their number is the result. -/
def getEntries (v : Volume) (path : CString) : Except FindFault (List Entry) :=
  (findEntry v path).bind fun dir =>
    if ¬ dir.found ∨ ¬ dir.isDirectory then .ok []
    else (dirEntries v dir.firstCluster).mapError .directory

/-- The path leads to the root without a look into a directory. -/
def LeadsToRoot (path : CString) : Prop :=
  normalizedPath path = [] ∨ isRootPath (normalizedPath path) = true

/-! ## The depth of a path -/

/-- `cd` stops at a path whose sections do not fit. -/
theorem filesystemChangeDirectory_eq_none (currentPath path : CString) :
    filesystemChangeDirectory currentPath path = none ↔
      ∃ s ∈ changeDirectoryStores path, maxPathDepth ≤ s.1 := by
  have hstores := @strSplitStores_lt_iff path slash maxPathDepth
  unfold filesystemChangeDirectory changeDirectoryStores
  by_cases hnil : path = []
  · simp [hnil]
  · by_cases habs : isAbsolutePath path = true
    · simp [hnil, habs]
    · have hexists : (∃ s ∈ strSplitStores slash path [] 0, maxPathDepth ≤ s.1) ↔
          (strSplit path slash).length > maxPathDepth := by
        rw [strSplit_length, ← not_iff_not]
        refine Iff.trans ?_ (hstores.trans (by omega))
        simp
      rw [if_neg hnil, if_neg habs, if_neg hnil, if_neg habs, hexists]
      simp only
      split
      · simp [*]
      · rename_i hle
        refine iff_of_false ?_ hle
        split <;> simp

theorem normalizedPath_of_relative {path : CString} (h : isAbsolutePath path = false) :
    normalizedPath path = path := by
  rw [normalizedPath, if_neg]
  simpa [isAbsolutePath] using h

/-- The sections are stored inside `pathSections` by `find_entry` and by `cd` exactly if the path
has fewer slashes than `pathSections` entries, besides one at its start. -/
theorem pathSections_inBounds_iff (path : CString) :
    ((∀ s ∈ findEntryStores path, s.1 < maxPathDepth) ∧
        ∀ s ∈ changeDirectoryStores path, s.1 < maxPathDepth) ↔
      (normalizedPath path).count slash < maxPathDepth := by
  have hfind : (∀ s ∈ findEntryStores path, s.1 < maxPathDepth) ↔
      (normalizedPath path).count slash < maxPathDepth := by
    rw [findEntryStores]
    split
    · rename_i hroot
      refine iff_of_true (by simp) ?_
      rcases hroot with hnil | hroot
      · rw [hnil]
        decide
      · rw [eq_of_beq hroot]
        decide
    · exact strSplitStores_lt_iff
  refine ⟨fun h => hfind.mp h.1, fun h => ⟨hfind.mpr h, ?_⟩⟩
  rw [changeDirectoryStores]
  split
  · simp
  · split
    · simp
    · rename_i habs
      rw [normalizedPath_of_relative (Bool.eq_false_iff.mpr habs)] at h
      exact strSplitStores_lt_iff.mpr h

/-- `cd` with 64 slashes. -/
theorem pathSections_overrun :
    ¬ ∀ path : CString, (∀ s ∈ findEntryStores path, s.1 < maxPathDepth) ∧
      ∀ s ∈ changeDirectoryStores path, s.1 < maxPathDepth := by
  intro h
  have hcd := (h (0x61 :: List.replicate 64 slash)).2
  exact absurd (strSplitStores_lt_iff.mp hcd) (by decide)

end EszOs
