import EszOs.Memory.Fill
import EszOs.Memory.Pmm

/-!
# The AHCI driver (`io/ahci/ahci.cpp`)

A command takes a page for its command table and a run of pages for its data, writes both addresses
where the controller looks for them, and waits until the controller is done or three seconds are
over.

The controller is a parameter (`Controller`): it answers the reads of its status registers as it
likes and writes to memory as it likes. Fields of the hardware structures that the driver never
accesses are left out.
-/

namespace EszOs

open Bytes

/-! ## Structures of `ahci.h` -/

structure H2DRegisterFIS where
  FISType : Nat
  C : Nat
  Command : Nat
  LBA0 : Nat
  LBA1 : Nat
  LBA2 : Nat
  Device : Nat
  LBA3 : Nat
  LBA4 : Nat
  LBA5 : Nat
  CountLow : Nat
  CountHigh : Nat

structure PRDTBits where
  DBA : Nat
  DBAU : Nat
  DBC : Nat

structure AHCICommandTable where
  CFIS : H2DRegisterFIS
  PRDT : PRDTBits

structure AHCICommandHeader where
  CFL : Nat
  W : Nat
  PRDTL : Nat
  CTBA : Nat
  CTBAU : Nat

/-- The registers of a port that the driver writes. -/
structure AHCIPorts where
  CLB : Nat
  CLBU : Nat
  FB : Nat
  FBU : Nat
  ST : Nat
  FRE : Nat
  CI : Nat

/-- A command table of zero bytes. -/
def AHCICommandTable.zero : AHCICommandTable := ⟨⟨0, 0, 0, 0, 0, 0, 0, 0, 0, 0, 0, 0⟩, ⟨0, 0, 0⟩⟩

/-- A command header of zero bytes. -/
def AHCICommandHeader.zero : AHCICommandHeader := ⟨0, 0, 0, 0, 0⟩

/-- `SECTOR_SIZE_BYTES` -/
def sectorSizeBytes : Nat := 512

def identifyDevice : Nat := 0xEC

def readDmaExt : Nat := 0x25

def writeDmaExt : Nat := 0x35

def flushExt : Nat := 0xEA

/-- What a port's status registers read as, and what the device writes to memory. The argument
counts the driver's reads, so that every read can give another value. -/
structure Controller where
  CI : Nat → Nat
  FR : Nat → Nat
  CR : Nat → Nat
  BSY : Nat → Nat
  DRDY : Nat → Nat
  dma : Nat → Mem → Mem

/-- What the driver works on. `commandList a` and `commandTable a` are the first command header and
the command table at physical address `a`; `mem` holds the other bytes. -/
structure AHCIState where
  pmm : Bitmap
  mem : Mem
  hhdmOffset : Nat
  port : AHCIPorts
  commandList : Nat → AHCICommandHeader
  commandTable : Nat → AHCICommandTable
  reads : Nat

namespace AHCIState

def setPmm (s : AHCIState) (bits : Mem) : AHCIState := { s with pmm := { s.pmm with bitmap := bits } }

def setTable (s : AHCIState) (a : Nat) (table : AHCICommandTable) : AHCIState :=
  { s with commandTable := fun x => if x = a then table else s.commandTable x }

def setHeader (s : AHCIState) (a : Nat) (header : AHCICommandHeader) : AHCIState :=
  { s with commandList := fun x => if x = a then header else s.commandList x }

/-! ## Waiting -/

/-- The loop of the wait functions; `n` rounds of one millisecond are left. -/
def awaitLoop (busy : Nat → Bool) : Nat → AHCIState → Bool × AHCIState
  | 0, s => (false, s)
  | n + 1, s =>
    if busy s.reads then awaitLoop busy n { s with reads := s.reads + 1 }
    else (true, { s with reads := s.reads + 1 })

/-- `timeout` of the wait functions: rounds of one millisecond. -/
def timeout : Nat := 3000

variable (c : Controller)

def startAHCICommand (s : AHCIState) : AHCIState :=
  { s with port := { s.port with CI := c.CI s.reads ||| 1 }, reads := s.reads + 1 }

def awaitAHCITaskFinish (s : AHCIState) : Bool × AHCIState :=
  awaitLoop (fun k => c.CI k &&& 1 != 0) timeout s

def awaitFisReceiveEngine (s : AHCIState) (awaitStatus : Nat) : Bool × AHCIState :=
  awaitLoop (fun k => c.FR k != awaitStatus) timeout s

def awaitCommandListEngine (s : AHCIState) (awaitStatus : Nat) : Bool × AHCIState :=
  awaitLoop (fun k => c.CR k != awaitStatus) timeout s

def awaitDriveReady (s : AHCIState) : Bool × AHCIState :=
  awaitLoop (fun k => c.BSY k == 1 || c.DRDY k == 0) timeout s

def setSataPortStatus (s : AHCIState) (activate : Bool) : Bool × AHCIState :=
  if activate then
    let r := awaitFisReceiveEngine c { s with port := { s.port with FRE := 1 } } 1
    if r.1 = false then r else
    let r := awaitDriveReady c r.2
    if r.1 = false then r else
    awaitCommandListEngine c { r.2 with port := { r.2.port with ST := 1 } } 1
  else
    let r := awaitCommandListEngine c { s with port := { s.port with ST := 0 } } 0
    if r.1 = false then r else
    awaitFisReceiveEngine c { r.2 with port := { r.2.port with FRE := 0 } } 0

/-! ## Building a command -/

def allocateCommandTable (s : AHCIState) : Option Nat × AHCIState :=
  match pmmMallocPage s.pmm with
  | none => (none, s)
  | some (commandTablePhysAddr, bits) =>
    (some commandTablePhysAddr, (s.setPmm bits).setTable commandTablePhysAddr .zero)

def allocateDataBuffer (s : AHCIState) (dataSize : Nat) : Option Nat × AHCIState :=
  let requiredPages := divideRoundUp dataSize pageSize
  match pmmMallocPages s.pmm requiredPages with
  | none => (none, s)
  | some (dataBufferPhysAddr, bits) =>
    (some dataBufferPhysAddr, { s.setPmm bits with
      mem := memoryClear s.mem (u64 (dataBufferPhysAddr + s.hhdmOffset)) (pageSize * requiredPages) })

/-- The first lines of the commands with data: both addresses, or `none` if a call failed. -/
def allocateBuffers (s : AHCIState) (dataSize : Nat) : Option (Nat × Nat) × AHCIState :=
  let r := s.allocateCommandTable
  let r' := r.2.allocateDataBuffer dataSize
  match r.1, r'.1 with
  | some commandTablePhysAddr, some dataBufferPhysAddr =>
    (some (commandTablePhysAddr, dataBufferPhysAddr), r'.2)
  | _, _ => (none, r'.2)

def setCommandHeader (s : AHCIState) (commandTablePhysAddr : Nat) (write : Bool) : AHCIState :=
  s.setHeader s.port.CLB
    { CTBA := u32 commandTablePhysAddr, CTBAU := 0, CFL := 5, W := write.toNat, PRDTL := 1 }

def buildCommand (s : AHCIState) (commandTablePhysAddr commandCode : Nat) : AHCIState :=
  let table := s.commandTable commandTablePhysAddr
  s.setTable commandTablePhysAddr
    { table with CFIS := { table.CFIS with FISType := 0x27, C := 1, Command := commandCode } }

def fillLBAAddress (s : AHCIState) (commandTablePhysAddr lbaAddress : Nat) : AHCIState :=
  let table := s.commandTable commandTablePhysAddr
  s.setTable commandTablePhysAddr { table with
    CFIS := { table.CFIS with
      Device := 0x40
      LBA0 := lbaAddress % 2 ^ 8
      LBA1 := (lbaAddress >>> 8) % 2 ^ 8
      LBA2 := (lbaAddress >>> 16) % 2 ^ 8
      LBA3 := (lbaAddress >>> 24) % 2 ^ 8
      LBA4 := (lbaAddress >>> 32) % 2 ^ 8
      LBA5 := (lbaAddress >>> 40) % 2 ^ 8 } }

def fillSectorQuantity (s : AHCIState) (commandTablePhysAddr : Nat) (sectorQuantity : UInt16) :
    AHCIState :=
  let table := s.commandTable commandTablePhysAddr
  s.setTable commandTablePhysAddr { table with
    CFIS := { table.CFIS with
      CountLow := sectorQuantity.toNat % 2 ^ 8
      CountHigh := (sectorQuantity.toNat >>> 8) % 2 ^ 8 } }

/-- `set_ahci_prdt`; `DBC` has 22 bits, and `dataSize - 1` is a 32-bit subtraction. -/
def setAhciPrdt (s : AHCIState) (commandTablePhysAddr dataBufferPhysAddr dataSize : Nat) :
    AHCIState :=
  s.setTable commandTablePhysAddr { s.commandTable commandTablePhysAddr with
    PRDT := { DBA := u32 dataBufferPhysAddr, DBAU := 0,
              DBC := u32 (dataSize + (2 ^ 32 - 1)) % 2 ^ 22 } }

/-- `RunCommand`; until it returns the device may have written to memory. -/
def runCommand (s : AHCIState) : Bool × AHCIState :=
  let r := awaitAHCITaskFinish c (s.startAHCICommand c)
  (r.1, { r.2 with mem := c.dma r.2.reads r.2.mem })

/-! ## The commands -/

/-- `AHCI_IDENTIFY_DEVICE`: the address of the response. The response's texts, which
`Get_AHCI_IdentifyResponse` trims in place, are left out. -/
def ahciIdentifyDevice (s : AHCIState) : Option Nat × AHCIState :=
  match s.allocateBuffers pageSize with
  | (none, s) => (none, s)
  | (some (commandTablePhysAddr, dataBufferPhysAddr), s) =>
    let s := s.setCommandHeader commandTablePhysAddr false
    let s := s.buildCommand commandTablePhysAddr identifyDevice
    let s := s.setAhciPrdt commandTablePhysAddr dataBufferPhysAddr sectorSizeBytes
    let r := s.runCommand c
    (if r.1 then some (u64 (dataBufferPhysAddr + s.hhdmOffset)) else none, r.2)

def ahciWrtieDmaExt (s : AHCIState) (writeStartLBA : Nat) (sectorQuantity : UInt16)
    (ramInputPtr : Nat) : AHCIState :=
  let dataSize := sectorQuantity.toNat * sectorSizeBytes
  match s.allocateBuffers dataSize with
  | (none, s) => s
  | (some (commandTablePhysAddr, dataBufferPhysAddr), s) =>
    let s := s.setCommandHeader commandTablePhysAddr true
    let s := s.buildCommand commandTablePhysAddr writeDmaExt
    let s := s.fillLBAAddress commandTablePhysAddr writeStartLBA
    let s := s.fillSectorQuantity commandTablePhysAddr sectorQuantity
    let s := { s with
      mem := memoryCopy s.mem (u64 (dataBufferPhysAddr + s.hhdmOffset)) ramInputPtr dataSize }
    let s := s.setAhciPrdt commandTablePhysAddr dataBufferPhysAddr dataSize
    (s.runCommand c).2

def ahciReadDmaExt (s : AHCIState) (readStartLBA : Nat) (sectorQuantity : UInt16)
    (ramOutputPtr : Nat) : AHCIState :=
  let dataSize := sectorQuantity.toNat * sectorSizeBytes
  match s.allocateBuffers dataSize with
  | (none, s) => s
  | (some (commandTablePhysAddr, dataBufferPhysAddr), s) =>
    let s := s.setCommandHeader commandTablePhysAddr false
    let s := s.buildCommand commandTablePhysAddr readDmaExt
    let s := s.fillLBAAddress commandTablePhysAddr readStartLBA
    let s := s.fillSectorQuantity commandTablePhysAddr sectorQuantity
    let s := s.setAhciPrdt commandTablePhysAddr dataBufferPhysAddr dataSize
    let s := (s.runCommand c).2
    { s with
      mem := memoryCopy s.mem ramOutputPtr (u64 (dataBufferPhysAddr + s.hhdmOffset)) dataSize }

def ahciFlushCacheExt (s : AHCIState) : AHCIState :=
  match s.allocateCommandTable with
  | (none, s) => s
  | (some commandTablePhysAddr, s) =>
    let s := s.setCommandHeader commandTablePhysAddr false
    let s := s.setHeader s.port.CLB { s.commandList s.port.CLB with PRDTL := 0 }
    let s := s.buildCommand commandTablePhysAddr flushExt
    (s.runCommand c).2

/-- `preparePort`; the command list and the FIS area are cleared where the 32-bit registers point. -/
def preparePort (s : AHCIState) : Bool × AHCIState :=
  let r := s.setSataPortStatus c false
  if r.1 = false then r else
  let s := r.2
  let commandList := pmmMallocPage s.pmm
  let s := commandList.elim s fun q => s.setPmm q.2
  let fb := pmmMallocPage s.pmm
  let s := fb.elim s fun q => s.setPmm q.2
  match commandList, fb with
  | some (commandListPhysAddr, _), some (fbVal, _) =>
    let s := { s with port := { s.port with CLB := u32 commandListPhysAddr } }
    let s := s.setHeader s.port.CLB .zero
    let s := { s with port := { s.port with CLBU := 0, FB := u32 fbVal } }
    let s := { s with mem := memoryClear s.mem (u64 (s.port.FB + s.hhdmOffset)) pageSize }
    let s := { s with port := { s.port with FBU := 0 } }
    s.setSataPortStatus c true
  | _, _ => (false, s)

end AHCIState

/-- The calls that the file system driver makes. -/
inductive DiskCommand
  | read (readStartLBA : Nat) (sectorQuantity : UInt16) (ramOutputPtr : Nat)
  | wrtie (writeStartLBA : Nat) (sectorQuantity : UInt16) (ramInputPtr : Nat)
  | flush

def DiskCommand.run (c : Controller) (s : AHCIState) : DiskCommand → AHCIState
  | read lba q ptr => s.ahciReadDmaExt c lba q ptr
  | wrtie lba q ptr => s.ahciWrtieDmaExt c lba q ptr
  | flush => s.ahciFlushCacheExt c

/-- One command after the other. -/
def runAll (c : Controller) (s : AHCIState) (commands : List DiskCommand) : AHCIState :=
  commands.foldl (DiskCommand.run c) s

end EszOs
