import EszOs.Lib.Ranges
import EszOs.Storage.Fat32

/-!
# The layout of a volume (`storage/filesystem/fat32/fat32.cpp`)

A volume starts with its reserved sectors, then come the copies of the FAT, then the clusters.
`VolumeLayout` is this layout in numbers without a bound; the code computes it with integers of 8 to
64 bits.

* `initFat32_eq`: on a valid volume `init_fat32` finds the starts of the FAT and of the data region.
* `initFat32_layout`: `cluster_to_lba` and `get_fat_sector_to_read` find what the layout says.
-/

namespace EszOs

open Bytes Ranges

/-! ## The layout -/

/-- The sizes that a boot sector gives, in sectors. -/
structure VolumeLayout where
  startLBA : Nat
  reservedSectors : Nat
  amountOfFATCopies : Nat
  sectorsPerFAT : Nat
  sectorsPerCluster : Nat
  totalSectors : Nat

/-- The layout of the volume that starts at `startLBA` with the sector in `buffer`. -/
def bootLayout (startLBA : Nat) (buffer : Mem) : VolumeLayout where
  startLBA
  reservedSectors := readLE buffer 14 2
  amountOfFATCopies := readLE buffer 16 1
  sectorsPerFAT := readLE buffer 36 4
  sectorsPerCluster := readLE buffer 13 1
  totalSectors := readLE buffer 32 4

namespace VolumeLayout

variable (l : VolumeLayout)

def fatStart : Nat := l.startLBA + l.reservedSectors

/-- The sectors of a copy of the FAT. -/
def fat (i : Nat) : Nat × Nat := piece l.fatStart l.sectorsPerFAT i

def dataStart : Nat := l.fatStart + l.amountOfFATCopies * l.sectorsPerFAT

/-- The sectors behind the copies of the FAT. -/
def dataRegion : Nat × Nat := (l.dataStart, l.startLBA + l.totalSectors - l.dataStart)

/-- The number of clusters that the data region has room for. -/
def clusterCount : Nat := l.dataRegion.2 / l.sectorsPerCluster

/-- The numbers of the clusters; the first one is 2. -/
def IsCluster (cluster : Nat) : Prop := 2 ≤ cluster ∧ cluster < l.clusterCount + 2

/-- The sectors of a cluster. -/
def cluster (cluster : Nat) : Nat × Nat := piece l.dataStart l.sectorsPerCluster (cluster - 2)

/-- A FAT32 volume whose sectors all have a number below `2 ^ 32`. -/
structure Valid : Prop where
  reserved : 1 ≤ l.reservedSectors
  copies : 1 ≤ l.amountOfFATCopies
  clusterSize : 1 ≤ l.sectorsPerCluster
  fits : l.dataStart ≤ l.startLBA + l.totalSectors
  below : l.startLBA + l.totalSectors ≤ 2 ^ 32
  /-- The larger numbers end a chain. -/
  numbers : l.clusterCount + 2 ≤ eocStart
  /-- The FAT has a word for each cluster. -/
  covers : 4 * (l.clusterCount + 2) ≤ l.sectorsPerFAT * sectorSize

variable {l} {c c' : Nat}

theorem cluster_within (h : l.IsCluster c) : Within (l.cluster c) l.dataRegion := by
  have hindex : c - 2 < l.clusterCount := by
    have := h.1
    have := h.2
    omega
  have hpiece : Within (l.cluster c) (l.dataStart, l.clusterCount * l.sectorsPerCluster) :=
    piece_within hindex
  have hroom : l.clusterCount * l.sectorsPerCluster ≤ l.dataRegion.2 := Nat.div_mul_le_self _ _
  exact ⟨hpiece.1, hpiece.2.trans (Nat.add_le_add_left hroom _)⟩

theorem cluster_apart (h : l.IsCluster c) (h' : l.IsCluster c') (hne : c ≠ c') :
    Apart (l.cluster c) (l.cluster c') := by
  apply piece_apart
  have := h.1
  have := h'.1
  omega

/-- Every cluster is behind every copy of the FAT. -/
theorem cluster_apart_fat {i : Nat} (hi : i < l.amountOfFATCopies) :
    Apart (l.cluster c) (l.fat i) := by
  have hfat : Within (l.fat i) (l.fatStart, l.amountOfFATCopies * l.sectorsPerFAT) := piece_within hi
  exact .inr (hfat.2.trans (Nat.le_add_right _ _))

end VolumeLayout

/-! ## The code -/

def offsetInSector (context : FAT32Context) (cluster : Nat) : Nat :=
  u32 (cluster * 4) % context.bytesPerSector

/-- What the code computes is in the layout. -/
structure FollowsLayout (context : FAT32Context) (l : VolumeLayout) (c : Nat) : Prop where
  exact : (clusterToLba context c, context.sectorsPerCluster) = l.cluster c
  inside : Within (clusterToLba context c, context.sectorsPerCluster) l.dataRegion
  apart (c' : Nat) : l.IsCluster c' → c ≠ c' →
    Apart (clusterToLba context c, context.sectorsPerCluster)
      (clusterToLba context c', context.sectorsPerCluster)
  outside (i : Nat) : i < l.amountOfFATCopies →
    Apart (clusterToLba context c, context.sectorsPerCluster) (l.fat i)
  /-- `get_next_cluster` reads the word at the offset. -/
  lookup (v : Volume) : v.context = context → getNextCluster v c =
    readLE (v.read (getFatSectorToRead context c) 1) (offsetInSector context c) 4 &&& 0x0FFFFFFF
  fatSector : Within (getFatSectorToRead context c, 1) (l.fat 0)
  fatOffset : (getFatSectorToRead context c - (l.fat 0).1) * sectorSize +
    offsetInSector context c = 4 * c

variable {startLBA : Nat} {buffer : Mem}

/-- On a valid volume the starts that `init_fat32` computes do not wrap. -/
theorem initFat32_eq (h : (bootLayout startLBA buffer).Valid) :
    (initFat32 startLBA buffer).fatStartLBA = (bootLayout startLBA buffer).fatStart ∧
      (initFat32 startLBA buffer).dataRegionStartLBA = (bootLayout startLBA buffer).dataStart := by
  obtain ⟨l, hl⟩ : ∃ l, l = bootLayout startLBA buffer := ⟨_, rfl⟩
  rw [← hl] at h ⊢
  have hstart : l.startLBA = startLBA := by rw [hl]; rfl
  have hfat : 1 ≤ l.sectorsPerFAT := by
    have := h.covers
    simp only [sectorSize] at this
    omega
  have hcopies : 1 ≤ l.amountOfFATCopies * l.sectorsPerFAT := Nat.mul_pos h.copies hfat
  have hreserved := h.reserved
  have hfits := h.fits
  have hbelow := h.below
  simp only [VolumeLayout.dataStart, VolumeLayout.fatStart] at hfits ⊢
  have hfatStart : u32 (l.startLBA + l.reservedSectors) = l.startLBA + l.reservedSectors :=
    u32_of_lt (by omega)
  have hregion : u32 (l.amountOfFATCopies * l.sectorsPerFAT) = l.amountOfFATCopies * l.sectorsPerFAT :=
    u32_of_lt (by omega)
  have hcode : (initFat32 startLBA buffer).fatStartLBA = u32 (l.startLBA + l.reservedSectors) := by
    rw [hl]
    rfl
  have hcode' : (initFat32 startLBA buffer).dataRegionStartLBA =
      u64 (u32 (l.startLBA + l.reservedSectors) + u32 (l.amountOfFATCopies * l.sectorsPerFAT)) := by
    rw [hl]
    rfl
  rw [hcode, hcode', hfatStart, hregion]
  exact ⟨rfl, u64_of_lt (by omega)⟩

/-- On a valid volume with sectors of 512 bytes. -/
theorem clusterToLba_layout (h : (bootLayout startLBA buffer).Valid) {c : Nat}
    (hc : (bootLayout startLBA buffer).IsCluster c) :
    (clusterToLba (initFat32 startLBA buffer) c, (initFat32 startLBA buffer).sectorsPerCluster) =
      (bootLayout startLBA buffer).cluster c := by
  have hinside := VolumeLayout.cluster_within hc
  obtain ⟨l, hl⟩ : ∃ l, l = bootLayout startLBA buffer := ⟨_, rfl⟩
  have hregion := (initFat32_eq h).2
  have hsectors : (initFat32 startLBA buffer).sectorsPerCluster = l.sectorsPerCluster := by
    rw [hl]
    rfl
  rw [← hl] at h hc hinside hregion ⊢
  have h2 := hc.1
  have hlast := hc.2
  have hnumbers := h.numbers
  have hfits := h.fits
  have hbelow := h.below
  have hsize := h.clusterSize
  have hend := hinside.2
  simp only [eocStart] at hnumbers
  simp only [VolumeLayout.cluster, VolumeLayout.dataRegion, piece] at hend ⊢
  have hindex : u32 (c + 2 ^ 32 - 2) = c - 2 := by
    rw [u32]
    omega
  rw [clusterToLba, hregion, hsectors, hindex, u32_of_lt (by omega), u64_of_lt (by omega)]

/-- The word of a cluster is in the first FAT. -/
theorem getFatSectorToRead_layout (h512 : (initFat32 startLBA buffer).bytesPerSector = sectorSize)
    (h : (bootLayout startLBA buffer).Valid) {c : Nat}
    (hc : (bootLayout startLBA buffer).IsCluster c) :
    getFatSectorToRead (initFat32 startLBA buffer) c =
        (bootLayout startLBA buffer).fatStart + 4 * c / sectorSize ∧
      offsetInSector (initFat32 startLBA buffer) c = 4 * c % sectorSize := by
  have hstart := (initFat32_eq h).1
  have hlt := (initFat32 startLBA buffer).fatStartLBA_lt
  have hlast := hc.2
  have hnumbers := h.numbers
  simp only [eocStart] at hnumbers
  have hbyte : u32 (c * 4) = 4 * c := by
    rw [u32_of_lt (by omega), Nat.mul_comm]
  rw [getFatSectorToRead, offsetInSector, hbyte, h512, ← hstart, Nat.add_comm]
  refine ⟨u64_of_lt ?_, rfl⟩
  simp only [sectorSize]
  omega

/-- On a valid volume with sectors of 512 bytes the code follows the layout for every cluster. -/
theorem initFat32_layout (h512 : (initFat32 startLBA buffer).bytesPerSector = sectorSize)
    (h : (bootLayout startLBA buffer).Valid) {c : Nat}
    (hc : (bootLayout startLBA buffer).IsCluster c) :
    FollowsLayout (initFat32 startLBA buffer) (bootLayout startLBA buffer) c := by
  have hexact := clusterToLba_layout h hc
  obtain ⟨hsector, hoffset⟩ := getFatSectorToRead_layout h512 h hc
  have hword : 4 * c + 4 ≤ (bootLayout startLBA buffer).sectorsPerFAT * sectorSize := by
    have := h.covers
    have := hc.2
    omega
  have hfirst : ((bootLayout startLBA buffer).fat 0).1 = (bootLayout startLBA buffer).fatStart := by
    rw [VolumeLayout.fat, piece, Nat.zero_mul, Nat.add_zero]
  refine ⟨hexact, ?_, fun c' hc' hne => ?_, fun i hi => ?_, fun v hv => ?_, ⟨?_, ?_⟩, ?_⟩
  · rw [hexact]
    exact VolumeLayout.cluster_within hc
  · rw [hexact, clusterToLba_layout h hc']
    exact VolumeLayout.cluster_apart hc hc' hne
  · rw [hexact]
    exact VolumeLayout.cluster_apart_fat hi
  · have hword : offsetInSector (initFat32 startLBA buffer) c / 4 * 4 =
        offsetInSector (initFat32 startLBA buffer) c := by
      rw [hoffset]
      simp only [sectorSize]
      omega
    rw [← hword, ← hv]
    rfl
  · rw [hsector, hfirst]
    exact Nat.le_add_right _ _
  · have hlength : ((bootLayout startLBA buffer).fat 0).2 =
        (bootLayout startLBA buffer).sectorsPerFAT := rfl
    simp only [hsector, hfirst, hlength, sectorSize] at hword ⊢
    omega
  · rw [hsector, hfirst, hoffset, Nat.add_sub_cancel_left]
    exact Nat.div_add_mod' _ _

/-- The boot sector of a volume with 150 sectors: 32 are reserved, then come two copies of a FAT of one
sector and 116 clusters of one sector. -/
def smallBootSector : Mem := fun i =>
  match i with
  | 12 => 2
  | 13 => 1
  | 14 => 32
  | 16 => 2
  | 32 => 150
  | 36 => 1
  | 44 => 2
  | _ => 0

theorem initFat32_layout_small :
    FollowsLayout (initFat32 2048 smallBootSector) (bootLayout 2048 smallBootSector) 117 :=
  initFat32_layout (by decide)
    ⟨by decide, by decide, by decide, by decide, by decide, by decide, by decide⟩
    ⟨by decide, by decide⟩

end EszOs
