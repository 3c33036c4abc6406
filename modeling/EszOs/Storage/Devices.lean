import Mathlib.Data.List.FinRange
import EszOs.Storage.Layout
import EszOs.Storage.Mbr

/-!
# The drives (`storage/storage.cpp`)

`init_storage` reads the partition table of each drive behind a ready port, selects the first FAT32
partition it finds and reads its boot sector.

* `initStorage_eq_some`: which partition is selected, in terms of the bytes on the drives.
* `initStorage_mounts`: a mounted volume stays inside of its partition.
-/

namespace EszOs

open Bytes Ranges

/-! ## Definitions -/

/-- A drive: the registers of its port, what a read of sectors leaves in the buffer, and the answer to
the identify command. -/
structure Drive where
  SIG : Nat
  SPD : Nat
  read : Nat → Nat → Mem
  identify : Option Mem

/-- `StorageDevice`; the texts and the number of sectors in it are never set. -/
structure StorageDevice where
  portIndex : Nat
  signature : Nat
  ready : Bool
  speedGen : Nat
  identified : Bool
  identificationInformation : Mem
  partitions : Fin 4 → PartitionInfo
  partitionCount : Nat

/-- An entry of `StorageDevices` at boot. -/
def StorageDevice.zero : StorageDevice :=
  ⟨0, 0, false, 0, false, fun _ => 0, fun _ => ⟨0, 0, .unknown, false⟩, 0⟩

/-- `fill_partition_infos`; `parse_mbr` fills its four partitions if it returns true. -/
def fillPartitionInfos (drive : Drive) (storageDevice : StorageDevice) : Bool × StorageDevice :=
  let buffer := drive.read 0 1
  let partitions := parseMbr buffer storageDevice.partitions
  if partitions.1 = false then (false, storageDevice)
  else (true, { storageDevice with
    partitions := partitions.2
    partitionCount := storageDevice.partitionCount + 4 })

/-- One turn of the loop of `setup_storage_devices`. -/
def setupStorageDevice (drive : Drive) (portIndex : Nat) (device : StorageDevice) : StorageDevice :=
  let device := { device with
    portIndex, signature := drive.SIG, speedGen := drive.SPD, ready := false, identified := false }
  let device := (fillPartitionInfos drive device).2
  let device := match drive.identify with
    | none => device
    | some response => { device with identificationInformation := response, identified := true }
  { device with ready := true }

/-- `setup_storage_devices` with the ready ports that were found. -/
def setupStorageDevices (drives : Nat → Drive) (readyPorts : List Nat) : List StorageDevice :=
  readyPorts.map fun portIndex => setupStorageDevice (drives portIndex) portIndex .zero

/-- The inner loop of `search_suitable_storage_partition`: a FAT32 partition of one device. -/
def searchPartition (device : StorageDevice) : Option (Fin 4) :=
  (List.finRange 4).find? fun j =>
    j.val < device.partitionCount && (device.partitions j).type == .fat32

/-- `search_suitable_storage_partition` from device `i` on. -/
def searchFrom : Nat → List StorageDevice → Option (Nat × Fin 4)
  | _, [] => none
  | i, device :: devices =>
    match searchPartition device with
    | none => searchFrom (i + 1) devices
    | some j => some (i, j)

/-- What `init_storage` sets. -/
structure Mounted where
  storageDevices : List StorageDevice
  selectedStorageDevice : Nat
  selectedPartition : Fin 4
  context : FAT32Context

/-- `init_storage`; `none` if it returns false. -/
def initStorage (drives : Nat → Drive) (readyPorts : List Nat) : Option Mounted :=
  let storageDevices := setupStorageDevices drives readyPorts
  if storageDevices.length = 0 then none
  else
    match searchFrom 0 storageDevices with
    | none => none
    | some (i, j) =>
      let selectedStorageDevice := storageDevices.getD i .zero
      let selectedPartition := selectedStorageDevice.partitions j
      match selectedPartition.type with
      | .fat32 =>
        let drive := drives selectedStorageDevice.portIndex
        let startLBA := selectedPartition.startLBA.toNat
        some
          { storageDevices
            selectedStorageDevice := i
            selectedPartition := j
            context := initFat32 startLBA (drive.read startLBA 1) }
      | _ => none

/-! ## The partitions of a device -/

/-- Entry `j` of the partition table in the first sector of a drive is one for FAT32. -/
def HasFat32 (drive : Drive) (j : Fin 4) : Prop :=
  HasSignature (drive.read 0 1) ∧
    ((partitionEntry (drive.read 0 1) j).partitionType = 0x0B ∨
      (partitionEntry (drive.read 0 1) j).partitionType = 0x0C)

theorem filesystemType_fat32 {t : UInt8} : filesystemType t = .fat32 ↔ t = 0x0B ∨ t = 0x0C := by
  constructor
  · intro h
    by_contra hne
    simp only [filesystemType, if_neg hne] at h
    repeat' split at h
    all_goals cases h
  · rintro (rfl | rfl) <;> decide

section Device

variable (drive : Drive) (portIndex : Nat)

theorem setupStorageDevice_portIndex :
    (setupStorageDevice drive portIndex .zero).portIndex = portIndex := by
  rw [setupStorageDevice, fillPartitionInfos]
  cases drive.identify <;> simp only <;> split <;> rfl

theorem setupStorageDevice_partitions :
    (setupStorageDevice drive portIndex .zero).partitionCount =
        (if HasSignature (drive.read 0 1) then 4 else 0) ∧
      (HasSignature (drive.read 0 1) → ∀ j,
        (setupStorageDevice drive portIndex .zero).partitions j =
          (partitionEntry (drive.read 0 1) j).info) := by
  rw [setupStorageDevice, fillPartitionInfos, parseMbr]
  by_cases hsig : HasSignature (drive.read 0 1)
  · cases drive.identify <;> simp [hsig, StorageDevice.zero]
  · cases drive.identify <;> simp [hsig, StorageDevice.zero]

variable {drive portIndex}

/-- The search in one device goes by the first sector of its drive. -/
theorem searchPartition_eq (j : Fin 4) :
    (j.val < (setupStorageDevice drive portIndex .zero).partitionCount &&
        ((setupStorageDevice drive portIndex .zero).partitions j).type == .fat32) = true ↔
      HasFat32 drive j := by
  obtain ⟨hcount, hpartitions⟩ := setupStorageDevice_partitions drive portIndex
  have hj := j.isLt
  by_cases hsig : HasSignature (drive.read 0 1)
  · rw [hcount, if_pos hsig, hpartitions hsig j, HasFat32]
    simp [hj, hsig, PartitionEntry.info, filesystemType_fat32]
  · rw [hcount, if_neg hsig, HasFat32]
    simp [hsig]

theorem searchPartition_some {j : Fin 4}
    (h : searchPartition (setupStorageDevice drive portIndex .zero) = some j) :
    HasFat32 drive j ∧ ∀ j' < j, ¬ HasFat32 drive j' := by
  obtain ⟨hj, as, bs, hsplit, has⟩ := List.find?_eq_some_iff_append.mp h
  refine ⟨(searchPartition_eq j).mp hj, fun j' hlt hj' => ?_⟩
  have hmem : j' ∈ as := by
    have hall : j' ∈ as ++ j :: bs := hsplit ▸ List.mem_finRange j'
    have hsorted : (as ++ j :: bs).Pairwise (· < ·) := hsplit ▸ List.pairwise_lt_finRange 4
    rcases List.mem_append.mp hall with hmem | hmem
    · exact hmem
    · rcases List.mem_cons.mp hmem with rfl | hmem
      · exact absurd hlt (lt_irrefl _)
      · have hgt := (List.pairwise_cons.mp (List.pairwise_append.mp hsorted).2.1).1 j' hmem
        exact absurd hlt (lt_asymm hgt)
  have hnot := has j' hmem
  rw [(searchPartition_eq j').mpr hj'] at hnot
  cases hnot

theorem searchPartition_none
    (h : searchPartition (setupStorageDevice drive portIndex .zero) = none) (j : Fin 4) :
    ¬ HasFat32 drive j := fun hj =>
  List.find?_eq_none.mp h j (List.mem_finRange j) ((searchPartition_eq j).mpr hj)

end Device

/-! ## The search over all devices -/

section Search

variable {drives : Nat → Drive} {readyPorts : List Nat}

theorem searchFrom_none {i : Nat}
    (h : searchFrom i (setupStorageDevices drives readyPorts) = none) :
    ∀ port ∈ readyPorts, ∀ j, ¬ HasFat32 (drives port) j := by
  induction readyPorts generalizing i with
  | nil => simp
  | cons port readyPorts ih =>
    rw [setupStorageDevices, List.map_cons, searchFrom] at h
    cases hp : searchPartition (setupStorageDevice (drives port) port .zero) with
    | some j => simp [hp] at h
    | none =>
      rw [hp] at h
      exact List.forall_mem_cons.mpr ⟨searchPartition_none hp, ih h⟩

/-- The first FAT32 partition of the first device that has one. -/
theorem searchFrom_some {i₀ i : Nat} {j : Fin 4}
    (h : searchFrom i₀ (setupStorageDevices drives readyPorts) = some (i, j)) :
    ∃ k port, i = i₀ + k ∧ readyPorts[k]? = some port ∧ HasFat32 (drives port) j ∧
      (∀ j' < j, ¬ HasFat32 (drives port) j') ∧
      ∀ port' ∈ readyPorts.take k, ∀ j', ¬ HasFat32 (drives port') j' := by
  induction readyPorts generalizing i₀ with
  | nil => cases h
  | cons port readyPorts ih =>
    rw [setupStorageDevices, List.map_cons, searchFrom] at h
    cases hp : searchPartition (setupStorageDevice (drives port) port .zero) with
    | some j' =>
      simp only [hp, Option.some.injEq, Prod.mk.injEq] at h
      obtain ⟨rfl, rfl⟩ := h
      obtain ⟨hj, hfirst⟩ := searchPartition_some hp
      exact ⟨0, port, rfl, rfl, hj, hfirst, by simp⟩
    | none =>
      rw [hp] at h
      obtain ⟨k, port', rfl, hport, hj, hfirst, hearlier⟩ := ih h
      refine ⟨k + 1, port', by omega, hport, hj, hfirst, ?_⟩
      rw [List.take_succ_cons]
      exact List.forall_mem_cons.mpr ⟨searchPartition_none hp, hearlier⟩

end Search

/-! ## Mounting -/

/-- The partition `j` of a drive, as its table gives it: its first sector and the number of them. -/
def partitionSectors (drive : Drive) (j : Fin 4) : Nat × Nat :=
  ((partitionEntry (drive.read 0 1) j).startLBA.toNat,
    (partitionEntry (drive.read 0 1) j).sectorAmount.toNat)

/-- The boot sector of a partition. -/
def bootSector (drive : Drive) (j : Fin 4) : Mem := drive.read (partitionSectors drive j).1 1

/-- What `init_storage` has selected: a FAT32 partition of the drive at `port`, with none on an
earlier drive or earlier on this one. -/
structure Mounts (drives : Nat → Drive) (readyPorts : List Nat) (m : Mounted) (port : Nat) : Prop where
  device : readyPorts[m.selectedStorageDevice]? = some port
  fat32 : HasFat32 (drives port) m.selectedPartition
  first : ∀ j < m.selectedPartition, ¬ HasFat32 (drives port) j
  earlier : ∀ port' ∈ readyPorts.take m.selectedStorageDevice, ∀ j, ¬ HasFat32 (drives port') j
  context : m.context = initFat32 (partitionSectors (drives port) m.selectedPartition).1
    (bootSector (drives port) m.selectedPartition)
  /-- The driver reads inside of the partition, if the volume is a valid one that fits into it. -/
  inside :
    let sectors := partitionSectors (drives port) m.selectedPartition
    let layout := bootLayout sectors.1 (bootSector (drives port) m.selectedPartition)
    layout.Valid → layout.totalSectors ≤ sectors.2 → m.context.bytesPerSector = sectorSize →
      ∀ c, layout.IsCluster c →
        Within (clusterToLba m.context c, m.context.sectorsPerCluster) sectors ∧
          Within (getFatSectorToRead m.context c, 1) sectors

/-- The sectors that the driver reads for a cluster are among those of the volume. -/
theorem reads_within {startLBA : Nat} {buffer : Mem} {c : Nat}
    (h : (bootLayout startLBA buffer).Valid)
    (h512 : (initFat32 startLBA buffer).bytesPerSector = sectorSize)
    (hc : (bootLayout startLBA buffer).IsCluster c) :
    Within (clusterToLba (initFat32 startLBA buffer) c, (initFat32 startLBA buffer).sectorsPerCluster)
        (startLBA, (bootLayout startLBA buffer).totalSectors) ∧
      Within (getFatSectorToRead (initFat32 startLBA buffer) c, 1)
        (startLBA, (bootLayout startLBA buffer).totalSectors) := by
  have hcluster := VolumeLayout.cluster_within hc
  rw [clusterToLba_layout h hc, (getFatSectorToRead_layout h512 h hc).1]
  obtain ⟨l, hl⟩ : ∃ l, l = bootLayout startLBA buffer := ⟨_, rfl⟩
  have hstart : l.startLBA = startLBA := by rw [hl]; rfl
  rw [← hl] at h hc hcluster ⊢
  have hfits := h.fits
  constructor
  · have hregion : Within l.dataRegion (startLBA, l.totalSectors) := by
      simp only [Within, VolumeLayout.dataRegion, VolumeLayout.dataStart, VolumeLayout.fatStart,
        hstart] at hfits ⊢
      omega
    exact ⟨hregion.1.trans hcluster.1, hcluster.2.trans hregion.2⟩
  · have hword : 4 * c / sectorSize < l.sectorsPerFAT := by
      have hcovers := h.covers
      have hlast := hc.2
      simp only [sectorSize] at hcovers ⊢
      omega
    have hcopy : l.sectorsPerFAT ≤ l.amountOfFATCopies * l.sectorsPerFAT :=
      Nat.le_mul_of_pos_left _ h.copies
    generalize 4 * c / sectorSize = q at hword
    simp only [Within, VolumeLayout.dataStart, VolumeLayout.fatStart, hstart] at hfits ⊢
    omega

section Init

variable {drives : Nat → Drive} {readyPorts : List Nat}

/-- The device and the partition that were found. -/
theorem selected_eq {i port : Nat} {j : Fin 4} (hport : readyPorts[i]? = some port)
    (hj : HasFat32 (drives port) j) :
    let device := (setupStorageDevices drives readyPorts).getD i .zero
    device.portIndex = port ∧
      device.partitions j = (partitionEntry ((drives port).read 0 1) j).info ∧
      (device.partitions j).type = .fat32 := by
  have hdevice : (setupStorageDevices drives readyPorts).getD i .zero =
      setupStorageDevice (drives port) port .zero := by
    rw [List.getD_eq_getElem?_getD, setupStorageDevices, List.getElem?_map, hport]
    rfl
  have hpartition := (setupStorageDevice_partitions (drives port) port).2 hj.1 j
  simp only [hdevice, setupStorageDevice_portIndex, hpartition, true_and]
  exact filesystemType_fat32.mpr hj.2

theorem initStorage_eq_some {m : Mounted} (h : initStorage drives readyPorts = some m) :
    ∃ port, Mounts drives readyPorts m port := by
  rw [initStorage] at h
  simp only at h
  split at h
  · cases h
  · split at h
    · cases h
    · rename_i i j hsearch
      obtain ⟨k, port, hk, hport, hj, hfirst, hearlier⟩ := searchFrom_some hsearch
      rw [Nat.zero_add] at hk
      subst hk
      obtain ⟨hindex, hpartition, htype⟩ := selected_eq hport hj
      rw [hindex, htype, hpartition] at h
      cases h
      exact ⟨port,
        { device := hport
          fat32 := hj
          first := hfirst
          earlier := hearlier
          context := rfl
          inside := fun hvalid htotal h512 c hc => by
            obtain ⟨hdata, hfat⟩ := reads_within hvalid h512 hc
            exact ⟨⟨hdata.1, hdata.2.trans (Nat.add_le_add_left htotal _)⟩,
              ⟨hfat.1, hfat.2.trans (Nat.add_le_add_left htotal _)⟩⟩ }⟩

theorem initStorage_eq_none (h : initStorage drives readyPorts = none) :
    ∀ port ∈ readyPorts, ∀ j, ¬ HasFat32 (drives port) j := by
  rw [initStorage] at h
  simp only at h
  split at h
  · rename_i hnil
    rw [setupStorageDevices, List.length_map, List.length_eq_zero_iff] at hnil
    rw [hnil]
    simp
  · split at h
    · rename_i hsearch
      exact searchFrom_none hsearch
    · rename_i i j hsearch
      obtain ⟨k, port, hk, hport, hj, -, -⟩ := searchFrom_some hsearch
      rw [Nat.zero_add] at hk
      subst hk
      rw [(selected_eq hport hj).2.2] at h
      cases h

/-- `init_storage` succeeds exactly if some ready drive has a partition table with a FAT32 partition;
then it has selected the first one of the first such drive, and what the driver reads for the
clusters of a valid volume lies inside of that partition. -/
theorem initStorage_mounts (drives : Nat → Drive) (readyPorts : List Nat) :
    ((initStorage drives readyPorts).isSome = true ↔
        ∃ port ∈ readyPorts, ∃ j, HasFat32 (drives port) j) ∧
      ∀ m, initStorage drives readyPorts = some m → ∃ port, Mounts drives readyPorts m port := by
  refine ⟨?_, fun m h => initStorage_eq_some h⟩
  cases h : initStorage drives readyPorts with
  | none =>
    have hno := initStorage_eq_none h
    simp only [Option.isSome_none, Bool.false_eq_true, false_iff]
    rintro ⟨port, hport, j, hj⟩
    exact hno port hport j hj
  | some m =>
    obtain ⟨port, hm⟩ := initStorage_eq_some h
    exact iff_of_true rfl ⟨port, List.mem_of_getElem? hm.device, m.selectedPartition, hm.fat32⟩

/-- Drive 3 has a partition for Linux and then one for FAT32; drive 1 has no partition table. -/
example :
    let table (j : Fin 4) : PartitionInfo :=
      if j = 0 then ⟨63, 100, .ext, true⟩ else ⟨2048 * UInt32.ofNat j, 150, .fat32, false⟩
    let drives (port : Nat) : Drive :=
      { SIG := 0x101, SPD := 3, identify := none
        read := fun lba _ =>
          if port = 3 then if lba = 0 then writeMbr (fun _ => 0) table else smallBootSector
          else fun _ => 0 }
    (initStorage drives [1, 3]).map (fun m =>
      (m.selectedStorageDevice, m.selectedPartition, m.context.dataRegionStartLBA)) =
        some (1, 1, 2048 + 32 + 2) := by
  decide +kernel

end Init

end EszOs
