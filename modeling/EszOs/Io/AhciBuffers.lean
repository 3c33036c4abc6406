import EszOs.Io.Ahci
import EszOs.Memory.PmmRuns

/-!
# The buffers of the AHCI commands

No command gives a page back. So the pages in use stay the same over a sequence of commands only if
it is empty or no page is free at its start (`runAll_usedPages_iff`).

The registers for the upper halves of addresses are set to 0. So the controller gets the addresses
that were allocated exactly if the PMM found them below 4 GiB (`handsOver_iff`).
-/

namespace EszOs

open Bytes

namespace AHCIState

/-! ## What the steps leave alone -/

/-- Waiting only reads. -/
theorem awaitLoop_snd (busy : Nat → Bool) (n : Nat) (s : AHCIState) :
    ∃ k, (awaitLoop busy n s).2 = { s with reads := k } := by
  induction n generalizing s with
  | zero => exact ⟨s.reads, rfl⟩
  | succ n ih =>
    rw [awaitLoop]
    split
    · obtain ⟨k, hk⟩ := ih { s with reads := s.reads + 1 }
      exact ⟨k, hk⟩
    · exact ⟨_, rfl⟩

/-- What the driver keeps while the controller works: all but the memory, the counter of the reads
and the bits of a port that start and stop it. -/
structure SameBuffers (s s' : AHCIState) : Prop where
  pmm : s'.pmm = s.pmm
  commandList : s'.commandList = s.commandList
  commandTable : s'.commandTable = s.commandTable
  clb : s'.port.CLB = s.port.CLB
  clbu : s'.port.CLBU = s.port.CLBU
  fb : s'.port.FB = s.port.FB
  fbu : s'.port.FBU = s.port.FBU

theorem SameBuffers.refl (s : AHCIState) : SameBuffers s s := ⟨rfl, rfl, rfl, rfl, rfl, rfl, rfl⟩

theorem SameBuffers.trans {s₁ s₂ s₃ : AHCIState} (h : SameBuffers s₁ s₂) (h' : SameBuffers s₂ s₃) :
    SameBuffers s₁ s₃ :=
  ⟨h'.pmm.trans h.pmm, h'.commandList.trans h.commandList, h'.commandTable.trans h.commandTable,
    h'.clb.trans h.clb, h'.clbu.trans h.clbu, h'.fb.trans h.fb, h'.fbu.trans h.fbu⟩

theorem sameBuffers_awaitLoop (busy : Nat → Bool) (n : Nat) (s : AHCIState) :
    SameBuffers s (awaitLoop busy n s).2 := by
  obtain ⟨k, hk⟩ := awaitLoop_snd busy n s
  rw [hk]
  exact ⟨rfl, rfl, rfl, rfl, rfl, rfl, rfl⟩

variable (c : Controller) (s : AHCIState)

theorem sameBuffers_runCommand : SameBuffers s (s.runCommand c).2 := by
  have h := sameBuffers_awaitLoop (fun k => c.CI k &&& 1 != 0) timeout (s.startAHCICommand c)
  exact ⟨h.pmm, h.commandList, h.commandTable, h.clb, h.clbu, h.fb, h.fbu⟩

theorem sameBuffers_setSataPortStatus (activate : Bool) :
    SameBuffers s (s.setSataPortStatus c activate).2 := by
  have hport : ∀ (s : AHCIState) (st fre : Nat),
      SameBuffers s { s with port := { s.port with ST := st, FRE := fre } } :=
    fun _ _ _ => ⟨rfl, rfl, rfl, rfl, rfl, rfl, rfl⟩
  have hfis := fun s k => sameBuffers_awaitLoop (fun i => c.FR i != k) timeout s
  have hlist := fun s k => sameBuffers_awaitLoop (fun i => c.CR i != k) timeout s
  have hready := sameBuffers_awaitLoop (fun k => c.BSY k == 1 || c.DRDY k == 0) timeout
  cases activate with
  | false =>
    have h₁ := (hport s 0 s.port.FRE).trans (hlist _ 0)
    simp only [setSataPortStatus, Bool.false_eq_true, ↓reduceIte]
    split
    · exact h₁
    · exact (h₁.trans (hport _ _ 0)).trans (hfis _ 0)
  | true =>
    have h₁ := (hport s s.port.ST 1).trans (hfis _ 1)
    have h₂ := h₁.trans (hready _)
    simp only [setSataPortStatus, ↓reduceIte]
    split
    · exact h₁
    · split
      · exact h₂
      · exact (h₂.trans (hport _ 1 _)).trans (hlist _ 1)

/-! ## What a command leaves behind -/

/-- The low halves of the addresses, which `SetCommandHeader` and `set_ahci_prdt` write; `f` is the
state after the command that got its buffers in state `s`. -/
structure GaveTable (s f : AHCIState) (table : Nat) : Prop where
  pmm : f.pmm = s.pmm
  ctba : (f.commandList f.port.CLB).CTBA = u32 table
  ctbau : (f.commandList f.port.CLB).CTBAU = 0

structure GaveData (f : AHCIState) (table data : Nat) : Prop where
  dba : (f.commandTable table).PRDT.DBA = u32 data
  dbau : (f.commandTable table).PRDT.DBAU = 0

variable {c s} {s' : AHCIState} {table data : Nat}

theorem gaveTable_runCommand {s₀ : AHCIState} (hpmm : s₀.pmm = s'.pmm)
    (hctba : (s₀.commandList s₀.port.CLB).CTBA = u32 table)
    (hctbau : (s₀.commandList s₀.port.CLB).CTBAU = 0) :
    GaveTable s' (s₀.runCommand c).2 table := by
  have h := sameBuffers_runCommand c s₀
  exact ⟨h.pmm.trans hpmm, by rw [h.commandList, h.clb, hctba], by rw [h.commandList, h.clb, hctbau]⟩

@[simp] theorem setPmm_pmm (bits : Mem) : (s.setPmm bits).pmm = { s.pmm with bitmap := bits } := rfl

@[simp] theorem setTable_pmm (a : Nat) (t : AHCICommandTable) : (s.setTable a t).pmm = s.pmm := rfl

@[simp] theorem setHeader_self (a : Nat) (header : AHCICommandHeader) :
    (s.setHeader a header).commandList a = header := by
  simp [setHeader]

@[simp] theorem setTable_self (a : Nat) (t : AHCICommandTable) :
    (s.setTable a t).commandTable a = t := by
  simp [setTable]

/-- The end of the commands with data. -/
theorem gave_of_setAhciPrdt {s₀ : AHCIState} {size : Nat} (hpmm : s₀.pmm = s'.pmm)
    (hctba : (s₀.commandList s₀.port.CLB).CTBA = u32 table)
    (hctbau : (s₀.commandList s₀.port.CLB).CTBAU = 0) :
    let f := ((s₀.setAhciPrdt table data size).runCommand c).2
    GaveTable s' f table ∧ GaveData f table data := by
  have h := sameBuffers_runCommand c (s₀.setAhciPrdt table data size)
  have hprdt : ((s₀.setAhciPrdt table data size).commandTable table).PRDT =
      ⟨u32 data, 0, u32 (size + (2 ^ 32 - 1)) % 2 ^ 22⟩ := by
    simp only [setAhciPrdt, setTable_self]
  refine ⟨gaveTable_runCommand hpmm hctba hctbau, ⟨?_, ?_⟩⟩
  · rw [h.commandTable, hprdt]
  · rw [h.commandTable, hprdt]

theorem ahciIdentifyDevice_gave (h : s.allocateBuffers pageSize = (some (table, data), s')) :
    GaveTable s' (s.ahciIdentifyDevice c).2 table ∧
      GaveData (s.ahciIdentifyDevice c).2 table data := by
  simp only [ahciIdentifyDevice, h]
  exact gave_of_setAhciPrdt rfl (congrArg _ (setHeader_self ..)) (congrArg _ (setHeader_self ..))

section

variable {lba ptr : Nat} {q : UInt16}

theorem ahciWrtieDmaExt_gave
    (h : s.allocateBuffers (q.toNat * sectorSizeBytes) = (some (table, data), s')) :
    GaveTable s' (s.ahciWrtieDmaExt c lba q ptr) table ∧
      GaveData (s.ahciWrtieDmaExt c lba q ptr) table data := by
  simp only [ahciWrtieDmaExt, h]
  exact gave_of_setAhciPrdt rfl (congrArg _ (setHeader_self ..)) (congrArg _ (setHeader_self ..))

theorem ahciReadDmaExt_gave
    (h : s.allocateBuffers (q.toNat * sectorSizeBytes) = (some (table, data), s')) :
    GaveTable s' (s.ahciReadDmaExt c lba q ptr) table ∧
      GaveData (s.ahciReadDmaExt c lba q ptr) table data := by
  simp only [ahciReadDmaExt, h]
  let s₁ := (((s'.setCommandHeader table false).buildCommand table readDmaExt).fillLBAAddress table
    lba).fillSectorQuantity table q
  let f := ((s₁.setAhciPrdt table data (q.toNat * sectorSizeBytes)).runCommand c).2
  have hgave : GaveTable s' f table ∧ GaveData f table data :=
    gave_of_setAhciPrdt rfl (congrArg _ (setHeader_self ..)) (congrArg _ (setHeader_self ..))
  exact ⟨⟨hgave.1.pmm, hgave.1.ctba, hgave.1.ctbau⟩, ⟨hgave.2.dba, hgave.2.dbau⟩⟩

end

theorem ahciFlushCacheExt_gave (h : s.allocateCommandTable = (some table, s')) :
    GaveTable s' (s.ahciFlushCacheExt c) table := by
  simp only [ahciFlushCacheExt, h]
  refine gaveTable_runCommand rfl ?_ ?_
  · simp [buildCommand, setTable, setHeader, setCommandHeader]
  · simp [buildCommand, setTable, setHeader, setCommandHeader]

/-! ## No page comes back -/

theorem allocateCommandTable_of_full (h : ∀ p, ¬ s.pmm.Free p) :
    s.allocateCommandTable = (none, s) := by
  rw [allocateCommandTable, pmmMallocPage, pmmMalloc_of_full h]

theorem allocateDataBuffer_of_full {n : Nat} (h : ∀ p, ¬ s.pmm.Free p) :
    s.allocateDataBuffer n = (none, s) := by
  simp only [allocateDataBuffer, pmmMallocPages, pmmMalloc_of_full h]

theorem allocateBuffers_of_full {n : Nat} (h : ∀ p, ¬ s.pmm.Free p) :
    s.allocateBuffers n = (none, s) := by
  simp only [allocateBuffers, allocateCommandTable_of_full h, allocateDataBuffer_of_full h]

theorem allocateBuffers_snd (n : Nat) :
    (s.allocateBuffers n).2 = (s.allocateCommandTable.2.allocateDataBuffer n).2 := by
  simp only [allocateBuffers]
  split <;> rfl

theorem usedPages_subset_allocateCommandTable :
    s.pmm.usedPages ⊆ s.allocateCommandTable.2.pmm.usedPages := by
  cases hm : pmmMallocPage s.pmm with
  | none => simp only [allocateCommandTable, hm, subset_refl]
  | some r =>
    obtain ⟨p, -, -, -, hbits⟩ := pmmMallocPage_some hm
    simp only [allocateCommandTable, hm]
    exact fun q hq => (hbits q).trans (by rw [show bitRead s.pmm.bitmap q = true from hq, Bool.or_true])

theorem usedPages_subset_allocateDataBuffer (n : Nat) :
    s.pmm.usedPages ⊆ (s.allocateDataBuffer n).2.pmm.usedPages := by
  cases hm : pmmMallocPages s.pmm (divideRoundUp n pageSize) with
  | none => simp only [allocateDataBuffer, hm, subset_refl]
  | some r =>
    obtain ⟨p, -, -, -, hbits⟩ := pmmMalloc_some rfl hm
    simp only [allocateDataBuffer, hm]
    exact fun q hq => (hbits q).trans (by rw [show bitRead s.pmm.bitmap q = true from hq, Bool.or_true])

/-- A command table is a page that was free. -/
theorem allocateCommandTable_takes (h : ∃ p, s.pmm.Free p) :
    ∃ p, s.pmm.Free p ∧ p ∈ s.allocateCommandTable.2.pmm.usedPages := by
  obtain ⟨p, hp⟩ := h
  cases hm : pmmMallocPage s.pmm with
  | none => exact absurd hp (pmmMallocPage_none hm p)
  | some r =>
    obtain ⟨p, -, hfree, -, hbits⟩ := pmmMallocPage_some hm
    refine ⟨p, hfree, ?_⟩
    simp only [allocateCommandTable, hm]
    exact (hbits p).trans (by simp)

end AHCIState

namespace DiskCommand

open AHCIState

variable {c : Controller} {s : AHCIState}

/-- The state after the allocations of a command. -/
def taken (s : AHCIState) : DiskCommand → AHCIState
  | read _ q _ | wrtie _ q _ => (s.allocateBuffers (q.toNat * sectorSizeBytes)).2
  | flush => s.allocateCommandTable.2

/-- After its allocations a command leaves the bitmap alone. -/
theorem run_pmm (d : DiskCommand) : (d.run c s).pmm = (d.taken s).pmm := by
  cases d with
  | read lba q ptr =>
    rcases h : s.allocateBuffers (q.toNat * sectorSizeBytes) with ⟨_ | ⟨t, d⟩, s'⟩
    · simp only [run, taken, ahciReadDmaExt, h]
    · simp only [run, taken, h, (ahciReadDmaExt_gave h).1.pmm]
  | wrtie lba q ptr =>
    rcases h : s.allocateBuffers (q.toNat * sectorSizeBytes) with ⟨_ | ⟨t, d⟩, s'⟩
    · simp only [run, taken, ahciWrtieDmaExt, h]
    · simp only [run, taken, h, (ahciWrtieDmaExt_gave h).1.pmm]
  | flush =>
    rcases h : s.allocateCommandTable with ⟨_ | t, s'⟩
    · simp only [run, taken, ahciFlushCacheExt, h]
    · simp only [run, taken, h, (ahciFlushCacheExt_gave h).pmm]

/-- The command table is taken before anything else. -/
theorem table_subset_run (d : DiskCommand) :
    s.allocateCommandTable.2.pmm.usedPages ⊆ (d.run c s).pmm.usedPages := by
  rw [run_pmm]
  cases d with
  | read _ q _ | wrtie _ q _ =>
    rw [taken, allocateBuffers_snd]
    exact usedPages_subset_allocateDataBuffer _
  | flush => exact subset_refl _

theorem usedPages_subset_run (d : DiskCommand) : s.pmm.usedPages ⊆ (d.run c s).pmm.usedPages :=
  usedPages_subset_allocateCommandTable.trans d.table_subset_run

/-- Without a free page a command does nothing. -/
theorem run_of_full (d : DiskCommand) (h : ∀ p, ¬ s.pmm.Free p) : d.run c s = s := by
  cases d with
  | read _ q _ => simp only [run, ahciReadDmaExt, allocateBuffers_of_full h]
  | wrtie _ q _ => simp only [run, ahciWrtieDmaExt, allocateBuffers_of_full h]
  | flush => simp only [run, ahciFlushCacheExt, allocateCommandTable_of_full h]

/-- With a free page a command takes one. -/
theorem run_takes (d : DiskCommand) (h : ∃ p, s.pmm.Free p) :
    ∃ p, s.pmm.Free p ∧ p ∈ (d.run c s).pmm.usedPages := by
  obtain ⟨p, hfree, hp⟩ := allocateCommandTable_takes h
  exact ⟨p, hfree, d.table_subset_run hp⟩

end DiskCommand

section

variable {c : Controller} {s : AHCIState}

theorem usedPages_subset_runAll (commands : List DiskCommand) :
    s.pmm.usedPages ⊆ (runAll c s commands).pmm.usedPages := by
  induction commands generalizing s with
  | nil => exact subset_refl _
  | cons d commands ih => exact d.usedPages_subset_run.trans ih

theorem runAll_of_full (commands : List DiskCommand) (h : ∀ p, ¬ s.pmm.Free p) :
    runAll c s commands = s := by
  induction commands with
  | nil => rfl
  | cons d commands ih =>
    rw [runAll, List.foldl_cons, d.run_of_full h]
    exact ih

/-- A command that finds a free page keeps it. -/
theorem runAll_keeps (d : DiskCommand) (commands : List DiskCommand) (h : ∃ p, s.pmm.Free p) :
    (runAll c s (d :: commands)).pmm.usedPages ≠ s.pmm.usedPages := by
  obtain ⟨p, hfree, hp⟩ := d.run_takes (c := c) h
  intro heq
  have hused : p ∈ s.pmm.usedPages := heq ▸ usedPages_subset_runAll commands hp
  rw [Bitmap.usedPages, Set.mem_ofPred_eq, hfree.2] at hused
  cases hused

/-- A sequence of commands leaves the pages in use as they were exactly if there is no command or
no free page. -/
theorem runAll_usedPages_iff (c : Controller) (s : AHCIState) (commands : List DiskCommand) :
    (runAll c s commands).pmm.usedPages = s.pmm.usedPages ↔
      commands = [] ∨ ∀ p, ¬ s.pmm.Free p := by
  constructor
  · intro h
    cases commands with
    | nil => exact .inl rfl
    | cons d commands =>
      exact .inr fun p hp => runAll_keeps d commands ⟨p, hp⟩ h
  · rintro (rfl | h)
    · rfl
    · rw [runAll_of_full commands h]

end

/-- A controller that is always done, and a driver before its first command. -/
def Controller.idle : Controller :=
  ⟨fun _ => 0, fun _ => 0, fun _ => 0, fun _ => 0, fun _ => 1, fun _ m => m⟩

def AHCIState.fresh (pmm : Bitmap) : AHCIState :=
  ⟨pmm, fun _ => 0, 0xffff800000000000, ⟨0, 0, 0, 0, 0, 0, 0⟩, fun _ => .zero, fun _ => .zero, 0⟩

/-- A flush on a machine with eight free pages keeps one of them. -/
theorem runAll_flush_keeps :
    (runAll .idle (.fresh ⟨fun _ => 0, 8⟩) [.flush]).pmm.usedPages ≠
      (AHCIState.fresh ⟨fun _ => 0, 8⟩).pmm.usedPages :=
  runAll_keeps .flush [] ⟨0, by decide⟩

/-! ## What the controller gets -/

/-- The address in a pair of 32-bit registers. -/
def registerPair (upper lower : Nat) : Nat := upper * 2 ^ 32 + lower

theorem registerPair_zero {a : Nat} : registerPair 0 (u32 a) = a ↔ a < 2 ^ 32 := by
  rw [registerPair, u32]
  omega

/-- The calls that hand addresses to the controller. -/
inductive DriverCall
  | identify
  | command (d : DiskCommand)
  | preparePort

/-- Command header and PRDT entry of `f` hold the addresses of the command table and the data. -/
def TableGiven (f : AHCIState) (table : Nat) : Prop :=
  registerPair (f.commandList f.port.CLB).CTBAU (f.commandList f.port.CLB).CTBA = table

def DataGiven (f : AHCIState) (table data : Nat) : Prop :=
  registerPair (f.commandTable table).PRDT.DBAU (f.commandTable table).PRDT.DBA = data

/-- If a call gets all its buffers, the controller is given their addresses. -/
def HandsOver (c : Controller) (s : AHCIState) : DriverCall → Prop
  | .identify => ∀ table data s', s.allocateBuffers pageSize = (some (table, data), s') →
      let f := (s.ahciIdentifyDevice c).2
      TableGiven f table ∧ DataGiven f table data
  | .command (.read lba q ptr) => ∀ table data s',
      s.allocateBuffers (q.toNat * sectorSizeBytes) = (some (table, data), s') →
      let f := s.ahciReadDmaExt c lba q ptr
      TableGiven f table ∧ DataGiven f table data
  | .command (.wrtie lba q ptr) => ∀ table data s',
      s.allocateBuffers (q.toNat * sectorSizeBytes) = (some (table, data), s') →
      let f := s.ahciWrtieDmaExt c lba q ptr
      TableGiven f table ∧ DataGiven f table data
  | .command .flush => ∀ table s', s.allocateCommandTable = (some table, s') →
      TableGiven (s.ahciFlushCacheExt c) table
  | .preparePort => (s.setSataPortStatus c false).1 = true → ∀ commandList bits fb bits',
      pmmMallocPage s.pmm = some (commandList, bits) →
      pmmMallocPage { s.pmm with bitmap := bits } = some (fb, bits') →
      let f := (s.preparePort c).2
      registerPair f.port.CLBU f.port.CLB = commandList ∧ registerPair f.port.FBU f.port.FB = fb

/-- Page `p` lies below 4 GiB. -/
def Low (p : Nat) : Prop := u64 (p * pageSize) < 2 ^ 32

/-- First fit finds a page, and then `n` pages, below 4 GiB, if it finds them. -/
def LowRuns (b : Bitmap) (n : Nat) : Prop :=
  ∀ p q, b.FirstRun 1 p → ({ b with bitmap := pmmMallocPageRange b p 1 } : Bitmap).FirstRun n q →
    Low p ∧ Low q

/-- The pages of a data buffer, as `AllocateDataBuffer` rounds. -/
def bufferPages (dataSize : Nat) : Nat :=
  divideRoundUp (u64 (pageSize * divideRoundUp dataSize pageSize)) pageSize

/-- The pages that the call is going to find lie below 4 GiB. -/
def LowBuffers (c : Controller) (s : AHCIState) : DriverCall → Prop
  | .identify => LowRuns s.pmm (bufferPages pageSize)
  | .command (.read _ q _) | .command (.wrtie _ q _) =>
    LowRuns s.pmm (bufferPages (q.toNat * sectorSizeBytes))
  | .command .flush => ∀ p, s.pmm.FirstRun 1 p → Low p
  | .preparePort => (s.setSataPortStatus c false).1 = true → LowRuns s.pmm 1

section

open AHCIState

variable {c : Controller} {s : AHCIState}

theorem tableGiven_iff {s' f : AHCIState} {table : Nat} (h : GaveTable s' f table) :
    TableGiven f table ↔ table < 2 ^ 32 := by
  rw [TableGiven, h.ctba, h.ctbau, registerPair_zero]

theorem dataGiven_iff {f : AHCIState} {table data : Nat} (h : GaveData f table data) :
    DataGiven f table data ↔ data < 2 ^ 32 := by
  rw [DataGiven, h.dba, h.dbau, registerPair_zero]

theorem pmmMallocPage_eq_some {b : Bitmap} {addr : Nat} {bits : Mem} :
    pmmMallocPage b = some (addr, bits) ↔
      ∃ p, b.FirstRun 1 p ∧ addr = u64 (p * pageSize) ∧ bits = pmmMallocPageRange b p 1 :=
  pmmMalloc_eq_some

/-- The addresses that `allocateCommandTable` can return. -/
theorem forall_allocateCommandTable {P : Nat → Prop} :
    (∀ table s', s.allocateCommandTable = (some table, s') → P table) ↔
      ∀ p, s.pmm.FirstRun 1 p → P (u64 (p * pageSize)) := by
  constructor
  · intro h p hp
    have hm := pmmMallocPage_eq_some.mpr ⟨p, hp, rfl, rfl⟩
    exact h _ _ (by simp only [allocateCommandTable, hm]; rfl)
  · intro h table s' ha
    cases hm : pmmMallocPage s.pmm with
    | none => simp [allocateCommandTable, hm] at ha
    | some r =>
      obtain ⟨p, hp, haddr, -⟩ := pmmMallocPage_eq_some.mp hm
      simp only [allocateCommandTable, hm, Prod.mk.injEq, Option.some.injEq] at ha
      rw [← ha.1, haddr]
      exact h p hp

/-- The addresses that `allocateBuffers` can return. -/
theorem forall_allocateBuffers {n : Nat} {P : Nat → Nat → Prop} :
    (∀ table data s', s.allocateBuffers n = (some (table, data), s') → P table data) ↔
      ∀ p q, s.pmm.FirstRun 1 p →
        ({ s.pmm with bitmap := pmmMallocPageRange s.pmm p 1 } : Bitmap).FirstRun (bufferPages n) q →
        P (u64 (p * pageSize)) (u64 (q * pageSize)) := by
  constructor
  · intro h p q hp hq
    have hm := pmmMallocPage_eq_some.mpr ⟨p, hp, rfl, rfl⟩
    have hm' := pmmMalloc_eq_some.mpr ⟨q, hq, rfl, rfl⟩
    exact h _ _ _ (by simp only [allocateBuffers, allocateCommandTable, hm, allocateDataBuffer,
      setTable_pmm, setPmm_pmm, pmmMallocPages, hm']; rfl)
  · intro h table data s' ha
    cases hm : pmmMallocPage s.pmm with
    | none => simp [allocateBuffers, allocateCommandTable, hm] at ha
    | some r =>
      obtain ⟨p, hp, haddr, hbits⟩ := pmmMallocPage_eq_some.mp hm
      cases hm' : pmmMallocPages { s.pmm with bitmap := r.2 } (divideRoundUp n pageSize) with
      | none =>
        simp [allocateBuffers, allocateCommandTable, hm, allocateDataBuffer, hm'] at ha
      | some r' =>
        obtain ⟨q, hq, haddr', -⟩ := pmmMalloc_eq_some.mp hm'
        simp only [allocateBuffers, allocateCommandTable, hm, allocateDataBuffer, setTable_pmm,
          setPmm_pmm, hm', Prod.mk.injEq, Option.some.injEq] at ha
        rw [← ha.1.1, ← ha.1.2, haddr, haddr']
        exact h p q hp (hbits ▸ hq)

/-- A call with data hands its addresses over if both lie below 4 GiB. -/
theorem handsOver_data {n : Nat} {f : AHCIState}
    (hgave : ∀ table data s', s.allocateBuffers n = (some (table, data), s') →
      GaveTable s' f table ∧ GaveData f table data) :
    (∀ table data s', s.allocateBuffers n = (some (table, data), s') →
        TableGiven f table ∧ DataGiven f table data) ↔ LowRuns s.pmm (bufferPages n) := by
  refine Iff.trans ?_ (forall_allocateBuffers (P := fun t d => t < 2 ^ 32 ∧ d < 2 ^ 32))
  refine forall_congr' fun table => forall_congr' fun data => forall_congr' fun s' =>
    forall_congr' fun h => ?_
  rw [tableGiven_iff (hgave table data s' h).1, dataGiven_iff (hgave table data s' h).2]

theorem handsOver_flush :
    HandsOver c s (.command .flush) ↔ ∀ p, s.pmm.FirstRun 1 p → Low p := by
  refine Iff.trans ?_ (forall_allocateCommandTable (P := fun t => t < 2 ^ 32))
  refine forall_congr' fun table => forall_congr' fun s' => forall_congr' fun h => ?_
  rw [tableGiven_iff (ahciFlushCacheExt_gave h)]

/-- The registers of a port that was stopped and got both pages. -/
theorem preparePort_registers {commandList fb : Nat} {bits bits' : Mem}
    (hstop : (s.setSataPortStatus c false).1 = true)
    (hm : pmmMallocPage s.pmm = some (commandList, bits))
    (hm' : pmmMallocPage { s.pmm with bitmap := bits } = some (fb, bits')) :
    let f := (s.preparePort c).2
    f.port.CLB = u32 commandList ∧ f.port.CLBU = 0 ∧ f.port.FB = u32 fb ∧ f.port.FBU = 0 := by
  have hpmm := (sameBuffers_setSataPortStatus c s false).pmm
  simp only [preparePort, hstop, Bool.true_eq_false, ↓reduceIte, hpmm, hm, Option.elim_some,
    setPmm_pmm, hm']
  -- Starting the port keeps what was just written.
  have h := sameBuffers_setSataPortStatus c
  exact ⟨(h _ true).clb, (h _ true).clbu, (h _ true).fb, (h _ true).fbu⟩

theorem handsOver_preparePort :
    HandsOver c s .preparePort ↔ LowBuffers c s .preparePort := by
  refine forall_congr' fun hstop => ?_
  constructor
  · intro h p q hp hq
    have hm := pmmMallocPage_eq_some.mpr ⟨p, hp, rfl, rfl⟩
    have hm' := pmmMallocPage_eq_some.mpr ⟨q, hq, rfl, rfl⟩
    obtain ⟨hclb, hclbu, hfb, hfbu⟩ := preparePort_registers hstop hm hm'
    have h := h _ _ _ _ hm hm'
    simp only [hclb, hclbu, hfb, hfbu, registerPair_zero] at h
    exact h
  · intro h a bits fb bits' hm hm'
    obtain ⟨hclb, hclbu, hfb, hfbu⟩ := preparePort_registers hstop hm hm'
    obtain ⟨p, hp, rfl, rfl⟩ := pmmMallocPage_eq_some.mp hm
    obtain ⟨q, hq, rfl, rfl⟩ := pmmMallocPage_eq_some.mp hm'
    simp only [hclb, hclbu, hfb, hfbu, registerPair_zero]
    exact h p q hp hq

/-- The controller is given the allocated addresses exactly if first fit finds them below 4 GiB. -/
theorem handsOver_iff (c : Controller) (s : AHCIState) (call : DriverCall) :
    HandsOver c s call ↔ LowBuffers c s call := by
  cases call with
  | identify => exact handsOver_data fun _ _ _ h => ahciIdentifyDevice_gave h
  | command d =>
    cases d with
    | read lba q ptr => exact handsOver_data fun _ _ _ h => ahciReadDmaExt_gave h
    | wrtie lba q ptr => exact handsOver_data fun _ _ _ h => ahciWrtieDmaExt_gave h
    | flush => exact handsOver_flush
  | preparePort => exact handsOver_preparePort

/-- Memory whose first 4 GiB are in use. -/
def highMemory : Bitmap := ⟨fun a => if a < 2 ^ 17 then 0xFF else 0, 2 ^ 20 + 8⟩

theorem highMemory_firstRun : highMemory.FirstRun 1 (2 ^ 20) := by
  refine ⟨by decide, freeRun_one.mpr ⟨by decide, by decide +kernel⟩, fun q hq h => ?_⟩
  have hbyte : q / 8 < 2 ^ 17 := by omega
  have hfree := (freeRun_one.mp h).2
  rw [bitRead_eq, show highMemory.bitmap (q / 8) = 0xFF from if_pos hbyte] at hfree
  have hbits : ∀ k < 8, (0xFF : UInt8).toNat.testBit k = true := by decide
  rw [hbits _ (Nat.mod_lt q (by decide))] at hfree
  cases hfree

/-- There a flush hands the controller another address than that of its command table. -/
theorem highMemory_not_handsOver : ¬ HandsOver .idle (.fresh highMemory) (.command .flush) := by
  intro h
  have hlow := handsOver_flush.mp h _ highMemory_firstRun
  exact absurd hlow (by rw [Low]; decide)

end

end EszOs
