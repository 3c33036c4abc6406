import EszOs.Lib.Chains
import EszOs.Memory.Fill
import EszOs.Memory.Heap
import EszOs.Storage.Fat32

/-!
# Reading a chain of clusters (`storage/filesystem/fat32/fat32.cpp`)

The loop of `read_cluster_chain` follows the FAT. What it copies does not change where it goes next,
so the clusters and the offsets of the copies depend on the FAT alone.

* `readClusterChain_ends_iff`: the loop ends exactly if no cluster is visited twice.
* `readClusterChain_inside_iff`: the copies are inside the buffer exactly if the chain is not longer
  than the size that the buffer was made for.
-/

namespace EszOs

open Bytes

/-! ## The loop -/

/-- The variables of the loop. -/
structure ChainState where
  currCluster : Nat
  bufferWriteOffset : Nat

namespace ChainState

/-- The variables before the loop. -/
def first (startCluster : Nat) : ChainState := { currCluster := startCluster, bufferWriteOffset := 0 }

/-- The variables after one iteration. -/
def next (v : Volume) (s : ChainState) : ChainState where
  currCluster := getNextCluster v s.currCluster
  bufferWriteOffset := u64 (s.bufferWriteOffset + v.context.clusterSizeInBytes)

/-- The condition of the loop. -/
def Reads (s : ChainState) : Prop := IsDataCluster s.currCluster

instance (s : ChainState) : Decidable s.Reads := inferInstanceAs (Decidable (IsDataCluster _))

end ChainState

/-- The size of `outBuffer`. -/
def outBufferSize (v : Volume) (size : Nat) : Nat :=
  u64 (divideRoundUp size v.context.clusterSizeInBytes * v.context.clusterSizeInBytes + 1)

/-- The clusters of a chain in the FAT. -/
abbrev IsClusterChain (v : Volume) : Nat → List Nat → Prop :=
  Chains.IsChain (getNextCluster v) IsDataCluster

/-! ## The memory -/

/-- Why a read does not return. -/
inductive ReadFault
  /-- `malloc` returned the null pointer. -/
  | allocationFailed
  /-- A loop is still running. -/
  | outOfFuel
  deriving DecidableEq

/-- `malloc`, where the null pointer is a fault. -/
def allocate (h : Heap) (size : Nat) : Except ReadFault (Nat × Heap) :=
  match h.malloc size with
  | none => .error .outOfFuel
  | some (none, _) => .error .allocationFailed
  | some (some ptr, h) => .ok (ptr, h)

/-- `free`, where a loop that is still running is a fault. -/
def release (h : Heap) (ptr : Nat) : Except ReadFault Heap := (h.free ptr).elim (.error .outOfFuel) .ok

/-- `AHCI_READ_DMA_EXT` of a volume. -/
def readSectors (v : Volume) (m : Mem) (lba count ramOutputPtr : Nat) : Mem := fun x =>
  if ramOutputPtr ≤ x ∧ x < ramOutputPtr + count * sectorSize then v.read lba count (x - ramOutputPtr)
  else m x

/-- One iteration: the heap after it. -/
def copyCluster (v : Volume) (outBuffer : Nat) (s : ChainState) (h : Heap) : Except ReadFault Heap :=
  (allocate h v.context.clusterSizeInBytes).bind fun (tempBuffer, h) =>
    let m := readSectors v h.mem (clusterToLba v.context s.currCluster) v.context.sectorsPerCluster
      tempBuffer
    let m := memoryCopy m (u64 (outBuffer + s.bufferWriteOffset)) tempBuffer
      v.context.clusterSizeInBytes
    release { h with mem := m } tempBuffer

/-- The loop of `read_cluster_chain`. -/
def chainLoop (v : Volume) (outBuffer : Nat) : Nat → ChainState → Heap → Except ReadFault Heap
  | 0, s, h => if s.Reads then .error .outOfFuel else .ok h
  | fuel + 1, s, h =>
    if s.Reads then (copyCluster v outBuffer s h).bind (chainLoop v outBuffer fuel (s.next v))
    else .ok h

/-- `read_cluster_chain`: the pointer that is returned and the heap. -/
def readClusterChain (v : Volume) (fuel : Nat) (h : Heap) (startCluster size : Nat) :
    Except ReadFault (Nat × Heap) :=
  if ¬ IsDataCluster startCluster then .ok (0, h)
  else
    (allocate h (outBufferSize v size)).bind fun (outBuffer, h) =>
      (chainLoop v outBuffer fuel (.first startCluster) h).map fun h => (outBuffer, h)

def fat32Read (v : Volume) (fuel : Nat) (h : Heap) (entry : Entry) : Except ReadFault (Nat × Heap) :=
  (readClusterChain v fuel h entry.firstCluster entry.size).map fun (fileData, h) =>
    (fileData, { h with mem := store h.mem (u64 (fileData + entry.size)) 0 })

/-! ## Where the loop goes -/

variable {v : Volume}

@[simp] theorem ChainState.first_bufferWriteOffset (startCluster : Nat) :
    (ChainState.first startCluster).bufferWriteOffset = 0 := rfl

@[simp] theorem ChainState.next_bufferWriteOffset (s : ChainState) :
    (s.next v).bufferWriteOffset = u64 (s.bufferWriteOffset + v.context.clusterSizeInBytes) := rfl

theorem currCluster_iterate (s : ChainState) (n : Nat) :
    ((ChainState.next v)^[n] s).currCluster = (getNextCluster v)^[n] s.currCluster := by
  induction n with
  | zero => rfl
  | succ n ih => rw [Function.iterate_succ_apply', Function.iterate_succ_apply', ← ih]; rfl

theorem going_iff {s : ChainState} {n : Nat} :
    Chains.Going (ChainState.next v) ChainState.Reads s n ↔
      Chains.Going (getNextCluster v) IsDataCluster s.currCluster n := by
  refine forall₂_congr fun i _ => ?_
  rw [ChainState.Reads, currCluster_iterate]

/-- The offset after `n` iterations, if it does not wrap. -/
theorem bufferWriteOffset_iterate {s : ChainState} (n : Nat)
    (h : s.bufferWriteOffset + n * v.context.clusterSizeInBytes < 2 ^ 64) :
    ((ChainState.next v)^[n] s).bufferWriteOffset =
      s.bufferWriteOffset + n * v.context.clusterSizeInBytes := by
  induction n with
  | zero => rw [Nat.zero_mul]; rfl
  | succ n ih =>
    rw [Nat.succ_mul] at h ⊢
    rw [Function.iterate_succ_apply', ChainState.next_bufferWriteOffset, ih (by omega),
      u64_of_lt (by omega), Nat.add_assoc]

/-- The loop of `read_cluster_chain` ends exactly if no cluster of the chain is visited twice. -/
theorem readClusterChain_ends_iff (v : Volume) (startCluster : Nat) :
    Chains.Ends (ChainState.next v) ChainState.Reads (.first startCluster) ↔
      Chains.NoReturn (getNextCluster v) IsDataCluster startCluster := by
  have hfinite : {c | IsDataCluster c}.Finite :=
    (Set.finite_lt_nat eocStart).subset fun c hc => hc.2
  rw [← Chains.ends_iff hfinite]
  refine exists_congr fun n => not_congr ?_
  rw [ChainState.Reads, currCluster_iterate]
  rfl

/-- All copies are inside the buffer exactly if the clusters that are followed fit. -/
theorem readClusterChain_inside_iff (v : Volume) (startCluster size : Nat) :
    (∀ n, Chains.Going (ChainState.next v) ChainState.Reads (.first startCluster) (n + 1) →
        ((ChainState.next v)^[n] (.first startCluster)).bufferWriteOffset +
          v.context.clusterSizeInBytes ≤ outBufferSize v size) ↔
      ∀ n, Chains.Going (getNextCluster v) IsDataCluster startCluster n →
        n * v.context.clusterSizeInBytes ≤ outBufferSize v size := by
  have hsize : outBufferSize v size < 2 ^ 64 := u64_lt _
  constructor
  · intro h n hn
    induction n with
    | zero => rw [Nat.zero_mul]; exact Nat.zero_le _
    | succ n ih =>
      have hle := ih (hn.mono (Nat.le_succ n))
      have hcopy := h n (going_iff.mpr hn)
      rw [bufferWriteOffset_iterate n (by rw [ChainState.first_bufferWriteOffset]; omega)] at hcopy
      rw [Nat.succ_mul]
      simpa using hcopy
  · intro h n hn
    have hle := h (n + 1) (going_iff.mp hn)
    rw [Nat.succ_mul] at hle
    rw [bufferWriteOffset_iterate n (by rw [ChainState.first_bufferWriteOffset]; omega)]
    simpa using hle

/-! ## Two damaged FATs -/

/-- The bytes of each sector. -/
abbrev Disk := Nat → Mem

/-- The bytes from the sector `lba` on. -/
def Disk.bytesFrom (disk : Disk) (lba : Nat) : Mem := fun i =>
  disk (lba + i / sectorSize) (i % sectorSize)

/-- A volume whose sectors are those of a disk. -/
def Disk.volume (disk : Disk) (context : FAT32Context) (h : 0 < context.bytesPerSector) : Volume where
  context
  read lba _ := disk.bytesFrom lba
  bytesPerSector_pos := h

/-- A disk for `smallContext` with the entries of the FAT. -/
def fatDisk (fat : List Nat) : Disk := fun lba i =>
  if lba = smallContext.fatStartLBA then UInt8.ofNat (fat.getD (i / 4) 0 >>> (8 * (i % 4)))
  else UInt8.ofNat (lba + i)

def fatVolume (fat : List Nat) : Volume := (fatDisk fat).volume smallContext smallContext_pos

/-- A cluster that is its own next one. -/
theorem readClusterChain_not_ends :
    ¬ ∀ (v : Volume) (startCluster : Nat),
      Chains.Ends (ChainState.next v) ChainState.Reads (.first startCluster) := by
  intro h
  obtain ⟨n, hn⟩ := h (fatVolume [0, 0, 2]) 2
  have hnext : getNextCluster (fatVolume [0, 0, 2]) 2 = 2 := by decide +kernel
  rw [ChainState.Reads, currCluster_iterate] at hn
  refine hn ?_
  rw [show (ChainState.first 2).currCluster = 2 from rfl, Function.iterate_fixed hnext]
  decide

/-- A file of one byte with two clusters. -/
theorem readClusterChain_not_inside :
    ¬ ∀ (v : Volume) (startCluster size n : Nat),
      Chains.Going (ChainState.next v) ChainState.Reads (.first startCluster) (n + 1) →
        ((ChainState.next v)^[n] (.first startCluster)).bufferWriteOffset +
          v.context.clusterSizeInBytes ≤ outBufferSize v size := by
  intro h
  have hnext : getNextCluster (fatVolume [0, 0, 3, eocStart]) 2 = 3 := by decide +kernel
  have hgoing : Chains.Going (ChainState.next (fatVolume [0, 0, 3, eocStart])) ChainState.Reads
      (.first 2) 2 := by
    refine going_iff.mpr (Chains.going_succ.mpr ⟨by decide, Chains.going_succ.mpr ⟨?_, by simp⟩⟩)
    rw [show (ChainState.first 2).currCluster = 2 from rfl, hnext]
    decide
  exact absurd (h _ 2 1 1 hgoing) (by decide)

end EszOs
