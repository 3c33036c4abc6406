import EszOs.Lib.Bytes

/-!
# The partition table (`storage/partitioning/mbr/mbr.cpp`)

`parse_mbr` reads the four entries of the table in the first sector of a disk. It finds the partitions that a table
was written for (`parseMbr_writeMbr`).
-/

namespace EszOs

open Bytes

/-! ## Definitions -/

inductive FilesystemType
  | unknown | empty | gptProtective | fat12 | fat16 | fat32 | ntfs | ext
  deriving DecidableEq

structure PartitionInfo where
  startLBA : UInt32
  sectorCount : UInt32
  type : FilesystemType
  bootable : Bool
  deriving DecidableEq

/-- `MBR_PARTITION_TABLE_OFFSET` -/
def mbrPartitionTableOffset : Nat := 0x1BE

/-- `Partition_Entry`, without the addresses in cylinders, heads and sectors. -/
structure PartitionEntry where
  bootFlag : UInt8
  partitionType : UInt8
  startLBA : UInt32
  sectorAmount : UInt32

/-- Entry `i` of the table. -/
def partitionEntry (sectorBuffer : Mem) (i : Nat) : PartitionEntry :=
  let a := mbrPartitionTableOffset + 16 * i
  { bootFlag := sectorBuffer a
    partitionType := sectorBuffer (a + 4)
    startLBA := UInt32.ofNat (readLE sectorBuffer (a + 8) 4)
    sectorAmount := UInt32.ofNat (readLE sectorBuffer (a + 12) 4) }

/-- The `switch` over the partition types. -/
def filesystemType (partitionType : UInt8) : FilesystemType :=
  if partitionType = 0x01 then .fat12
  else if partitionType = 0x06 ∨ partitionType = 0x04 then .fat16
  else if partitionType = 0x0B ∨ partitionType = 0x0C then .fat32
  else if partitionType = 0xEE then .gptProtective
  else if partitionType = 0x83 then .ext
  else if partitionType = 0x07 then .ntfs
  else if partitionType = 0x00 then .empty
  else .unknown

def PartitionEntry.info (e : PartitionEntry) : PartitionInfo where
  startLBA := e.startLBA
  sectorCount := e.sectorAmount
  type := filesystemType e.partitionType
  bootable := e.bootFlag == 0x80

/-- The signature `0xAA55`. -/
def HasSignature (sectorBuffer : Mem) : Prop := sectorBuffer 510 = 0x55 ∧ sectorBuffer 511 = 0xAA

instance (sectorBuffer : Mem) : Decidable (HasSignature sectorBuffer) :=
  inferInstanceAs (Decidable (_ ∧ _))

/-- `parse_mbr`: the result and `outPartitions`. -/
def parseMbr (sectorBuffer : Mem) (outPartitions : Fin 4 → PartitionInfo) :
    Bool × (Fin 4 → PartitionInfo) :=
  if ¬ HasSignature sectorBuffer then
    (false, fun i => { outPartitions i with type := .empty })
  else (true, fun i => (partitionEntry sectorBuffer i).info)

/-! ## Writing a table -/

/-- A partition type for each file system that has one. -/
def FilesystemType.code : FilesystemType → UInt8
  | .unknown => 0xFF
  | .empty => 0x00
  | .gptProtective => 0xEE
  | .fat12 => 0x01
  | .fat16 => 0x06
  | .fat32 => 0x0C
  | .ntfs => 0x07
  | .ext => 0x83

theorem filesystemType_code (t : FilesystemType) : filesystemType t.code = t := by
  cases t <;> decide

/-- Byte `k` of an entry, where `old` was before. -/
def entryByte (p : PartitionInfo) (old : UInt8) (k : Nat) : UInt8 :=
  if k = 0 then if p.bootable then 0x80 else 0x00
  else if k = 4 then p.type.code
  else if 8 ≤ k ∧ k < 12 then UInt8.ofNat (p.startLBA.toNat / 256 ^ (k - 8))
  else if 12 ≤ k then UInt8.ofNat (p.sectorCount.toNat / 256 ^ (k - 12))
  else old

/-- The sector `boot` with a table for the partitions in it. -/
def writeMbr (boot : Mem) (partitions : Fin 4 → PartitionInfo) : Mem := fun x =>
  if x = 510 then 0x55
  else if x = 511 then 0xAA
  else if h : mbrPartitionTableOffset ≤ x ∧ x < 510 then
    entryByte (partitions ⟨(x - mbrPartitionTableOffset) / 16, by
      simp only [mbrPartitionTableOffset] at h ⊢
      omega⟩) (boot x) ((x - mbrPartitionTableOffset) % 16)
  else boot x

section Written

variable (boot : Mem) (partitions : Fin 4 → PartitionInfo)

theorem writeMbr_signature : HasSignature (writeMbr boot partitions) := ⟨rfl, rfl⟩

theorem writeMbr_entry (i : Fin 4) {k : Nat} (hk : k < 16) :
    writeMbr boot partitions (mbrPartitionTableOffset + 16 * i + k) =
      entryByte (partitions i) (boot (mbrPartitionTableOffset + 16 * i + k)) k := by
  have hi := i.isLt
  have hrange : mbrPartitionTableOffset ≤ mbrPartitionTableOffset + 16 * i.val + k ∧
      mbrPartitionTableOffset + 16 * i.val + k < 510 := by
    simp only [mbrPartitionTableOffset]
    omega
  have hindex : (mbrPartitionTableOffset + 16 * i.val + k - mbrPartitionTableOffset) / 16 = i := by
    omega
  have hbyte : (mbrPartitionTableOffset + 16 * i.val + k - mbrPartitionTableOffset) % 16 = k := by
    omega
  rw [writeMbr, if_neg (by omega), if_neg (by omega), dif_pos hrange]
  simp only [hindex, hbyte]

/-- A field of four bytes of an entry. -/
theorem writeMbr_word (i : Fin 4) {a : Nat} {w : UInt32} (ha : a + 4 ≤ 16)
    (hbyte : ∀ k < 4, ∀ old, entryByte (partitions i) old (a + k) = UInt8.ofNat (w.toNat / 256 ^ k)) :
    UInt32.ofNat (readLE (writeMbr boot partitions) (mbrPartitionTableOffset + 16 * i + a) 4) = w := by
  have hword : readLE (writeMbr boot partitions) (mbrPartitionTableOffset + 16 * i + a) 4 =
      readLE (writeLE (fun _ => 0) 0 4 w.toNat) 0 4 := by
    refine readLE_shift fun k hk => ?_
    rw [Nat.add_assoc, writeMbr_entry boot partitions i (by omega), hbyte k hk, writeLE, if_pos (by omega),
      Nat.zero_add, Nat.sub_zero]
  have hlt : w.toNat < 256 ^ 4 := w.toNat_lt
  rw [hword, readLE_writeLE, Nat.mod_eq_of_lt hlt, UInt32.ofNat_toNat]

end Written

/-- Whatever else is in the sector, `parse_mbr` finds the partitions that the table was written
for. -/
theorem parseMbr_writeMbr (boot : Mem) (partitions out : Fin 4 → PartitionInfo) :
    parseMbr (writeMbr boot partitions) out = (true, partitions) := by
  rw [parseMbr, if_neg (Decidable.not_not.mpr (writeMbr_signature boot partitions))]
  refine congrArg (Prod.mk true) (funext fun i => ?_)
  have hflag : writeMbr boot partitions (mbrPartitionTableOffset + 16 * i) =
      if (partitions i).bootable then 0x80 else 0x00 := writeMbr_entry boot partitions i (by decide : 0 < 16)
  have htype : writeMbr boot partitions (mbrPartitionTableOffset + 16 * i + 4) =
      (partitions i).type.code := writeMbr_entry boot partitions i (by decide)
  have hstart := writeMbr_word boot partitions i (a := 8)
    (w := (partitions i).startLBA) (by decide) fun k hk old => by
      rw [entryByte, if_neg (by omega), if_neg (by omega), if_pos (by omega), Nat.add_sub_cancel_left]
  have hcount := writeMbr_word boot partitions i (a := 12)
    (w := (partitions i).sectorCount) (by decide) fun k hk old => by
      rw [entryByte, if_neg (by omega), if_neg (by omega), if_neg (by omega), if_pos (by omega),
        Nat.add_sub_cancel_left]
  have hbootable : ((if (partitions i).bootable then 0x80 else 0x00 : UInt8) == 0x80) =
      (partitions i).bootable := by
    cases (partitions i).bootable <;> decide
  simp only [PartitionEntry.info, partitionEntry, hflag, htype, hstart, hcount, filesystemType_code,
    hbootable]

end EszOs
