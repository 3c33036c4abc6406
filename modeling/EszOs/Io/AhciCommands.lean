import EszOs.Io.AhciBuffers

/-!
# What an AHCI command asks for (`io/ahci/ahci.cpp`)

The sector and the number of sectors are scattered over the bytes of the command FIS, the number of
bytes is a field of 22 bits.

* `buildTransfer_asksFor_iff`: the fields give the request back exactly if its bytes fit into the field.
* `transfer_matches_iff`: then as many bytes are reserved and copied.
-/

namespace EszOs

open Bytes

/-! ## Reading a command back -/

/-- The six bytes of the sector. -/
def H2DRegisterFIS.lbaAddress (f : H2DRegisterFIS) : Nat :=
  f.LBA0 + f.LBA1 * 2 ^ 8 + f.LBA2 * 2 ^ 16 + f.LBA3 * 2 ^ 24 + f.LBA4 * 2 ^ 32 + f.LBA5 * 2 ^ 40

def H2DRegisterFIS.sectorCount (f : H2DRegisterFIS) : Nat := f.CountHigh * 2 ^ 8 + f.CountLow

/-- `DBC` is one less than the number of bytes. -/
def PRDTBits.byteCount (p : PRDTBits) : Nat := p.DBC + 1

/-- The command is for `q` sectors from `lba` on. -/
structure AHCICommandTable.AsksFor (table : AHCICommandTable) (lba q : Nat) : Prop where
  lba : table.CFIS.lbaAddress = lba
  count : table.CFIS.sectorCount = q
  bytes : table.PRDT.byteCount = q * sectorSizeBytes

namespace AHCIState

/-! ## The two transfers -/

/-- What both commands write into the command header and the command table. -/
def buildTransfer (s : AHCIState) (commandTablePhysAddr dataBufferPhysAddr : Nat) (write : Bool)
    (commandCode lba : Nat) (sectorQuantity : UInt16) : AHCIState :=
  let s := s.setCommandHeader commandTablePhysAddr write
  let s := s.buildCommand commandTablePhysAddr commandCode
  let s := s.fillLBAAddress commandTablePhysAddr lba
  let s := s.fillSectorQuantity commandTablePhysAddr sectorQuantity
  s.setAhciPrdt commandTablePhysAddr dataBufferPhysAddr (sectorQuantity.toNat * sectorSizeBytes)

/-- `n` bytes are copied into the data buffer. -/
def copyIn (s : AHCIState) (dataBufferPhysAddr ramInputPtr n : Nat) : AHCIState :=
  { s with mem := memoryCopy s.mem (u64 (dataBufferPhysAddr + s.hhdmOffset)) ramInputPtr n }

/-- `n` bytes are copied out of the data buffer. -/
def copyOut (s : AHCIState) (dataBufferPhysAddr ramOutputPtr n : Nat) : AHCIState :=
  { s with mem := memoryCopy s.mem ramOutputPtr (u64 (dataBufferPhysAddr + s.hhdmOffset)) n }

variable {c : Controller} {s s' : AHCIState} {table data lba ptr : Nat} {q : UInt16}

theorem ahciReadDmaExt_eq
    (h : s.allocateBuffers (q.toNat * sectorSizeBytes) = (some (table, data), s')) :
    s.ahciReadDmaExt c lba q ptr =
      ((s'.buildTransfer table data false readDmaExt lba q).runCommand c).2.copyOut data ptr
        (q.toNat * sectorSizeBytes) := by
  simp only [ahciReadDmaExt, h]
  rfl

theorem ahciWrtieDmaExt_eq
    (h : s.allocateBuffers (q.toNat * sectorSizeBytes) = (some (table, data), s')) :
    s.ahciWrtieDmaExt c lba q ptr =
      (((s'.buildTransfer table data true writeDmaExt lba q).copyIn data ptr
        (q.toNat * sectorSizeBytes)).runCommand c).2 := by
  simp only [ahciWrtieDmaExt, h]
  rfl

/-- The fields give the request back exactly if the bytes of its sectors fit into 22 bits. -/
theorem buildTransfer_asksFor_iff (hl : lba < 2 ^ 48) (hq : 0 < q.toNat) (write : Bool) (code : Nat) :
    ((s.buildTransfer table data write code lba q).commandTable table).AsksFor lba q.toNat ↔
      q.toNat ≤ 8192 := by
  have hlt := q.toNat_lt
  have hdbc : ((s.buildTransfer table data write code lba q).commandTable table).PRDT.DBC =
      (q.toNat * sectorSizeBytes - 1) % 2 ^ 22 := by
    simp only [buildTransfer, setAhciPrdt, setTable_self, u32, sectorSizeBytes]
    omega
  constructor
  · intro h
    have hbytes := h.bytes
    rw [PRDTBits.byteCount, hdbc] at hbytes
    simp only [sectorSizeBytes] at hbytes
    omega
  · intro hle
    refine ⟨?_, ?_, ?_⟩
    · simp only [buildTransfer, setAhciPrdt, fillSectorQuantity, fillLBAAddress, setTable_self,
        H2DRegisterFIS.lbaAddress, Nat.shiftRight_eq_div_pow]
      omega
    · simp only [buildTransfer, setAhciPrdt, fillSectorQuantity, setTable_self,
        H2DRegisterFIS.sectorCount, Nat.shiftRight_eq_div_pow]
      omega
    · rw [PRDTBits.byteCount, hdbc]
      simp only [sectorSizeBytes]
      omega

/-! ## The data buffer -/

/-- The pages of the `n` bytes from physical address `a` on are in use. -/
def Reserved (s : AHCIState) (a n : Nat) : Prop :=
  ∀ x, a ≤ x → x < a + n → bitRead s.pmm.bitmap (x / pageSize) = true

/-- The pages that a data buffer gets cover its bytes. -/
theorem allocateBuffers_reserved {n : Nat} (hc : s.pmm.count ≤ 2 ^ 52) (hn : n < 2 ^ 32)
    (h : s.allocateBuffers n = (some (table, data), s')) : s'.Reserved data n := by
  cases hm : pmmMallocPage s.pmm with
  | none => simp [allocateBuffers, allocateCommandTable, hm] at h
  | some r =>
    cases hm' : pmmMallocPages { s.pmm with bitmap := r.2 } (divideRoundUp n pageSize) with
    | none => simp [allocateBuffers, allocateCommandTable, hm, allocateDataBuffer, hm'] at h
    | some r' =>
      simp only [allocateBuffers, allocateCommandTable, hm, allocateDataBuffer, setTable_pmm,
        setPmm_pmm, hm', Prod.mk.injEq, Option.some.injEq] at h
      obtain ⟨⟨-, rfl⟩, rfl⟩ := h
      have hcover := le_divideRoundUp_mul (a := n) (b := pageSize) (by decide) (by
        simp only [pageSize]
        omega)
      have hpages : u64 (pageSize * divideRoundUp n pageSize) = divideRoundUp n pageSize * pageSize := by
        rw [Nat.mul_comm, u64_of_lt]
        rw [divideRoundUp_eq (by decide) (by simp only [pageSize]; omega)]
        simp only [pageSize]
        omega
      have hreserves := pmmMalloc_reserves (b := { s.pmm with bitmap := r.2 }) hc (u64_lt _) hm'
      rw [hpages] at hreserves
      exact fun x h1 h2 => (hreserves x h1 (by omega)).2

end AHCIState

/-! ## A request -/

open AHCIState

/-- A command with data is what was requested, for as many bytes as its buffer has room for and as are
copied. -/
structure TransferMatches (s' built : AHCIState) (table data lba q : Nat) (copies : Nat → Prop) :
    Prop where
  asksFor : (built.commandTable table).AsksFor lba q
  reserved : s'.Reserved data (built.commandTable table).PRDT.byteCount
  copied : copies (built.commandTable table).PRDT.byteCount

/-- `AHCI_READ_DMA_EXT` with its buffers: `built` is the state in which the controller is started. -/
def ReadMatches (c : Controller) (s s' : AHCIState) (table data lba : Nat) (q : UInt16) (ptr : Nat) :
    Prop :=
  let built := s'.buildTransfer table data false readDmaExt lba q
  TransferMatches s' built table data lba q.toNat fun n =>
    s.ahciReadDmaExt c lba q ptr = (built.runCommand c).2.copyOut data ptr n

/-- `AHCI_WRTIE_DMA_EXT`; the data is copied before the controller is started. -/
def WrtieMatches (c : Controller) (s s' : AHCIState) (table data lba : Nat) (q : UInt16) (ptr : Nat) :
    Prop :=
  let built := s'.buildTransfer table data true writeDmaExt lba q
  TransferMatches s' built table data lba q.toNat fun n =>
    s.ahciWrtieDmaExt c lba q ptr = ((built.copyIn data ptr n).runCommand c).2

/-- The commands for `q` sectors match the request exactly if the bytes fit into 22 bits. -/
theorem transfer_matches_iff {c : Controller} {s s' : AHCIState} {table data lba : Nat} {q : UInt16}
    (hc : s.pmm.count ≤ 2 ^ 52) (hl : lba < 2 ^ 48) (hq : 0 < q.toNat) (ptr : Nat)
    (h : s.allocateBuffers (q.toNat * sectorSizeBytes) = (some (table, data), s')) :
    (ReadMatches c s s' table data lba q ptr ∧ WrtieMatches c s s' table data lba q ptr) ↔
      q.toNat ≤ 8192 := by
  constructor
  · intro hmatches
    exact (buildTransfer_asksFor_iff hl hq false readDmaExt).mp hmatches.1.asksFor
  · intro hle
    have hlt := q.toNat_lt
    have hasks : ∀ write code,
        ((s'.buildTransfer table data write code lba q).commandTable table).AsksFor lba q.toNat :=
      fun write code => (buildTransfer_asksFor_iff hl hq write code).mpr hle
    have hread := hasks false readDmaExt
    have hwrite := hasks true writeDmaExt
    have hreserved : s'.Reserved data (q.toNat * sectorSizeBytes) :=
      allocateBuffers_reserved hc (by simp only [sectorSizeBytes]; omega) h
    refine ⟨⟨hread, ?_, ?_⟩, hwrite, ?_, ?_⟩
    · rwa [hread.bytes]
    · rw [hread.bytes]
      exact ahciReadDmaExt_eq h
    · rwa [hwrite.bytes]
    · rw [hwrite.bytes]
      exact ahciWrtieDmaExt_eq h

/-- Where the allocations succeed they return two addresses. -/
theorem exists_allocateBuffers {s : AHCIState} {n : Nat} (h : (s.allocateBuffers n).1.isSome = true) :
    ∃ table data s', s.allocateBuffers n = (some (table, data), s') := by
  obtain ⟨⟨table, data⟩, hr⟩ := Option.isSome_iff_exists.mp h
  exact ⟨table, data, (s.allocateBuffers n).2, Prod.ext hr rfl⟩

/-- Eight sectors. -/
theorem transfer_matches_eight : ∃ table data s',
    (AHCIState.fresh ⟨fun _ => 0, 8⟩).allocateBuffers ((8 : UInt16).toNat * sectorSizeBytes) =
        (some (table, data), s') ∧
      ReadMatches .idle (.fresh ⟨fun _ => 0, 8⟩) s' table data 5 8 0 := by
  obtain ⟨table, data, s', h⟩ := exists_allocateBuffers (show ((AHCIState.fresh
    ⟨fun _ => 0, 8⟩).allocateBuffers ((8 : UInt16).toNat * sectorSizeBytes)).1.isSome = true by
      decide +kernel)
  have hc : (AHCIState.fresh ⟨fun _ => 0, 8⟩).pmm.count ≤ 2 ^ 52 := by decide
  have hl : 5 < 2 ^ 48 := by decide
  have hq : 0 < (8 : UInt16).toNat := by decide
  have hle : (8 : UInt16).toNat ≤ 8192 := by decide
  have hmatches : ReadMatches .idle _ s' table data 5 8 0 ∧ WrtieMatches .idle _ s' table data 5 8 0 :=
    (transfer_matches_iff hc hl hq 0 h).mpr hle
  exact ⟨table, data, s', h, hmatches.1⟩

/-- 8193 sectors: the controller is asked for the bytes of one. -/
theorem transfer_not_matches :
    ¬ ∀ (c : Controller) (s s' : AHCIState) (table data lba : Nat) (q : UInt16) (ptr : Nat),
      s.pmm.count ≤ 2 ^ 52 → lba < 2 ^ 48 → 0 < q.toNat →
      s.allocateBuffers (q.toNat * sectorSizeBytes) = (some (table, data), s') →
        ReadMatches c s s' table data lba q ptr ∧ WrtieMatches c s s' table data lba q ptr := by
  intro hall
  obtain ⟨table, data, s', h⟩ := exists_allocateBuffers (show ((AHCIState.fresh
    ⟨fun _ => 0, 1026⟩).allocateBuffers ((8193 : UInt16).toNat * sectorSizeBytes)).1.isSome = true by
      decide +kernel)
  have hc : (AHCIState.fresh ⟨fun _ => 0, 1026⟩).pmm.count ≤ 2 ^ 52 := by decide
  have hasks := (hall .idle _ s' table data 0 8193 0 hc (by decide) (by decide) h).1.asksFor
  rw [buildTransfer_asksFor_iff (by decide) (by decide)] at hasks
  exact absurd hasks (by decide)

end EszOs
