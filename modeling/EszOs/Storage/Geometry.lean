import EszOs.Storage.ClusterChain

/-!
# The geometry that `init_fat32` accepts (`storage/filesystem/fat32/fat32.cpp`)

`init_fat32` takes the sizes of sectors and clusters from the boot sector and always returns true.
The device has sectors of 512 bytes whatever the boot sector says, and so have the buffers of
`get_next_cluster`. Here the operations stop where the two do not agree: at a division by zero, at a
lookup behind the buffer, and at a cluster that the read does not fill (`geometry_safe_iff`).
-/

namespace EszOs

open Bytes

/-- A mounted partition: the context, and the bytes that a read of `count` sectors from `lba` on
leaves in its buffer. -/
structure Partition where
  context : FAT32Context
  read : Nat → Nat → Mem

inductive GeometryFault
  | divisionByZero
  /-- A lookup behind the words of the sector buffer. -/
  | lookupOutside
  /-- A cluster buffer that the read does not fill. -/
  | notFilled
  deriving DecidableEq

/-! ## The operations -/

/-- The number of words of the sector buffer of `get_next_cluster`. -/
def fatWords : Nat := sectorSize / 4

/-- `get_next_cluster` -/
def fatLookup (p : Partition) (cluster : Nat) : Except GeometryFault Nat :=
  if p.context.bytesPerSector = 0 then .error .divisionByZero
  else
    let fatSector := getFatSectorToRead p.context cluster
    let offsetInSector := u32 (cluster * 4) % p.context.bytesPerSector
    if offsetInSector / 4 < fatWords then
      .ok (readLE (p.read fatSector 1) (offsetInSector / 4 * 4) 4 &&& 0x0FFFFFFF)
    else .error .lookupOutside

/-- The read of a cluster into a buffer of `ClusterSizeInBytes` bytes, all of which are used. -/
def clusterBuffer (p : Partition) (cluster : Nat) : Except GeometryFault Mem :=
  if p.context.clusterSizeInBytes ≤ p.context.sectorsPerCluster * sectorSize then
    .ok (p.read (clusterToLba p.context cluster) p.context.sectorsPerCluster)
  else .error .notFilled

/-- The buffer that `read_dir_entries` parses, if it reads the cluster at all. -/
def directoryBuffer (p : Partition) (cluster : Nat) : Except GeometryFault (Option Mem) :=
  if cluster < 2 ∨ eocStart ≤ cluster then .ok none else (clusterBuffer p cluster).map some

/-- The buffers that at most `fuel` turns of the loop of `read_cluster_chain` copy. -/
def chainBuffers (p : Partition) : Nat → Nat → Except GeometryFault (List Mem)
  | 0, _ => .ok []
  | fuel + 1, currCluster =>
    if IsDataCluster currCluster then
      (clusterBuffer p currCluster).bind fun buffer =>
        (fatLookup p currCluster).bind fun next =>
          (chainBuffers p fuel next).map (buffer :: ·)
    else .ok []

/-- Every operation gets through: `find_entry` and `get_entries` parse the buffers of directories,
`fat32_read` copies those of a chain. -/
structure GeometrySafe (p : Partition) : Prop where
  directory (cluster : Nat) : ∃ buffer, directoryBuffer p cluster = .ok buffer
  chain (fuel startCluster : Nat) : ∃ buffers, chainBuffers p fuel startCluster = .ok buffers

/-! ## When they get through -/

variable {p : Partition}

/-- A lookup that gets through is the one of the volume. -/
theorem fatLookup_eq (v : Volume) {cluster : Nat} (h : v.context.bytesPerSector ≤ sectorSize) :
    fatLookup ⟨v.context, v.read⟩ cluster = .ok (getNextCluster v cluster) := by
  have hlt := Nat.mod_lt (u32 (cluster * 4)) v.bytesPerSector_pos
  have hword : u32 (cluster * 4) % v.context.bytesPerSector / 4 < fatWords := by
    simp only [fatWords, sectorSize] at h ⊢
    omega
  rw [fatLookup, if_neg (Nat.ne_of_gt v.bytesPerSector_pos)]
  exact if_pos hword

theorem clusterBuffer_ok (cluster : Nat) (h : p.context.bytesPerSector ≤ sectorSize) :
    clusterBuffer p cluster =
      .ok (p.read (clusterToLba p.context cluster) p.context.sectorsPerCluster) := by
  refine if_pos ?_
  rw [p.context.clusterSizeInBytes_eq]
  exact Nat.mul_le_mul_left _ h

/-- Every chain can be followed for sectors of at most 512 bytes. -/
theorem chainBuffers_ok (hpos : 0 < p.context.bytesPerSector)
    (h : p.context.bytesPerSector ≤ sectorSize) (fuel cluster : Nat) :
    ∃ buffers, chainBuffers p fuel cluster = .ok buffers := by
  induction fuel generalizing cluster with
  | zero => exact ⟨[], rfl⟩
  | succ fuel ih =>
    rw [chainBuffers]
    split
    · obtain ⟨buffers, hrest⟩ := ih (getNextCluster ⟨p.context, p.read, hpos⟩ cluster)
      have hlookup : fatLookup p cluster =
          .ok (getNextCluster ⟨p.context, p.read, hpos⟩ cluster) :=
        fatLookup_eq ⟨p.context, p.read, hpos⟩ h
      refine ⟨p.read (clusterToLba p.context cluster) p.context.sectorsPerCluster :: buffers, ?_⟩
      rw [clusterBuffer_ok cluster h, Except.bind, hlookup, Except.bind, hrest]
      rfl
    · exact ⟨[], rfl⟩

/-- A chain that starts at the cluster whose word is the first behind a sector of 512 bytes. -/
theorem bytesPerSector_of_chain {buffers : List Mem} (h : chainBuffers p 1 fatWords = .ok buffers) :
    0 < p.context.bytesPerSector ∧ p.context.bytesPerSector ≤ sectorSize := by
  have hdata : IsDataCluster fatWords := by decide
  rw [chainBuffers, if_pos hdata] at h
  cases hbuffer : clusterBuffer p fatWords with
  | error f =>
    rw [hbuffer] at h
    cases h
  | ok buffer =>
    rw [hbuffer, Except.bind] at h
    by_cases h0 : p.context.bytesPerSector = 0
    · rw [fatLookup, if_pos h0] at h
      cases h
    · refine ⟨Nat.pos_of_ne_zero h0, ?_⟩
      by_contra hlarge
      have hoffset : u32 (fatWords * 4) % p.context.bytesPerSector = sectorSize :=
        Nat.mod_eq_of_lt (Nat.lt_of_not_le hlarge)
      rw [fatLookup, if_neg h0, hoffset, if_neg (by decide)] at h
      cases h

/-- With the context from a boot sector every operation gets through exactly if the boot sector
says that a sector has 1 to 512 bytes. -/
theorem geometry_safe_iff (startLBA : Nat) (buffer : Mem) (read : Nat → Nat → Mem) :
    GeometrySafe ⟨initFat32 startLBA buffer, read⟩ ↔
      0 < readLE buffer 11 2 ∧ readLE buffer 11 2 ≤ 512 := by
  constructor
  · intro h
    obtain ⟨buffers, hchain⟩ := h.chain 1 fatWords
    exact bytesPerSector_of_chain hchain
  · rintro ⟨hpos, h⟩
    refine ⟨fun cluster => ?_, fun fuel cluster => chainBuffers_ok hpos h fuel cluster⟩
    rw [directoryBuffer]
    split
    · exact ⟨none, rfl⟩
    · exact ⟨_, by rw [clusterBuffer_ok cluster h]; rfl⟩

/-- A boot sector with 1024 bytes in a sector. -/
theorem geometry_not_safe :
    ¬ ∀ (startLBA : Nat) (buffer : Mem) (read : Nat → Nat → Mem),
      GeometrySafe ⟨initFat32 startLBA buffer, read⟩ := by
  intro h
  obtain ⟨buffers, hchain⟩ := (h 0 (store (fun _ => 0) 12 4) fun _ _ _ => 0).chain 1 fatWords
  exact absurd (bytesPerSector_of_chain hchain).2 (by decide)

end EszOs
