import EszOs.Lib.Radix
import EszOs.Memory.Pmm

/-!
# Page tables (`memory/virtual/paging/paging.cpp`)

`MemState` is the state of the page allocators and the page tables. A physical page is seen as a
table of 512 entries, whether it serves as one or not; `root` is the page in `cr3`. The direct map
at `hhdm_offset` shows every physical page, so a table is accessed by its physical address.

The functions of the source follow the `Present` bit only. The hardware also stops at large pages,
which is what `slotOf` says; `translate` is its walk.
-/

namespace EszOs

open Bytes Radix

structure PageTableEntry where
  present : Bool
  readWrite : Bool
  userSupervisor : Bool
  writeThrough : Bool
  cacheDisabled : Bool
  accessed : Bool
  dirty : Bool
  pageSizeOrPAT : Bool
  global : Bool
  available : BitVec 3
  address : BitVec 40
  reserved : BitVec 11
  noExecute : Bool
deriving DecidableEq

/-- The entry `{}`. -/
def PageTableEntry.zero : PageTableEntry :=
  ⟨false, false, false, false, false, false, false, false, false, 0, 0, 0, false⟩

abbrev Index := Fin 512

/-- The state of the PMM, the VMM and the page tables. Physical memory is at most 2^48 bytes: the
kernel reaches all of it through a direct map inside the 48-bit virtual address space. The VMM has
one bit per virtual page of its region, of which there are no more. -/
structure MemState where
  pmm : Bitmap
  vmm : Bitmap
  /-- The entries of each physical page. -/
  tables : Nat → Index → PageTableEntry
  root : Nat
  hhdmOffset : Nat
  pmm_le : pmm.count ≤ 2 ^ 36
  vmm_le : vmm.count ≤ 2 ^ 36

/-- A bitmap of one byte is small enough. -/
theorem oneByte_le : 8 ≤ 2 ^ 36 := by decide

/-- A value of `PagingFlags`. -/
abbrev PagingFlags := UInt8

def pageFlagWrite : PagingFlags := 0b00000010
def pageFlagCacheDisable : PagingFlags := 0b00010000

/-! ## Table indices -/

private theorem mask_lt (n : Nat) : n &&& 0x1FF < 512 :=
  Nat.lt_succ_of_le Nat.and_le_right

def getPML4Index (address : Nat) : Index := ⟨(address >>> (12 + 9 * 3)) &&& 0x1FF, mask_lt _⟩
def getPDPTIndex (address : Nat) : Index := ⟨(address >>> (12 + 9 * 2)) &&& 0x1FF, mask_lt _⟩
def getPDIndex (address : Nat) : Index := ⟨(address >>> (12 + 9)) &&& 0x1FF, mask_lt _⟩
def getPTIndex (address : Nat) : Index := ⟨(address >>> 12) &&& 0x1FF, mask_lt _⟩

/-- The four table indices of a virtual address, from the root down. -/
def path (address : Nat) : List Index :=
  [getPML4Index address, getPDPTIndex address, getPDIndex address, getPTIndex address]

/-- Bits 12 to 47 of an address. -/
def pageBits (address : Nat) : Nat := address / 2 ^ 12 % 2 ^ 36

/-- Two addresses have the same indices if they agree in bits 12 to 47. -/
theorem path_eq_iff {v v' : Nat} : path v = path v' ↔ pageBits v = pageBits v' := by
  have hmask : ∀ n : Nat, n &&& 0x1FF = n % 512 := fun n => Nat.and_two_pow_sub_one_eq_mod n 9
  simp only [path, getPML4Index, getPDPTIndex, getPDIndex, getPTIndex, List.cons.injEq,
    Fin.mk.injEq, hmask, Nat.shiftRight_eq_div_pow, and_true, pageBits]
  omega

theorem path_length (v : Nat) : (path v).length = 4 := rfl

/-! ## The functions of `paging.cpp` -/

/-- The entry that `map_page` makes of `pt3_PTI`. -/
def leafEntry (pt3PTI : PageTableEntry) (physicalAddress : Nat) (flags : PagingFlags) :
    PageTableEntry :=
  { pt3PTI with
    present := true
    readWrite := flags &&& pageFlagWrite != 0
    cacheDisabled := flags &&& pageFlagCacheDisable != 0
    address := BitVec.ofNat 40 (physicalAddress >>> 12) }

namespace MemState

def getStartOfTree (s : MemState) : Nat := s.root * pageSize

/-- `table->entries[i]`, for the table at a physical address. -/
def entry (s : MemState) (tableAddr : Nat) (i : Index) : PageTableEntry :=
  s.tables (tableAddr / pageSize) i

/-- `table->entries[i] = e` -/
def setEntry (s : MemState) (tableAddr : Nat) (i : Index) (e : PageTableEntry) : MemState :=
  { s with tables := fun t j =>
      if t = tableAddr / pageSize ∧ j = i then e else s.tables t j }

/-- `memory_clear` of one physical page. -/
def clearPage (s : MemState) (addr : Nat) : MemState :=
  { s with tables := fun t j => if t = addr / pageSize then .zero else s.tables t j }

/-- The state with other bytes in `pmm_bitmap`. -/
def setPmm (s : MemState) (bits : Mem) : MemState := { s with pmm := { s.pmm with bitmap := bits } }

/-- The state with other bytes in `vmm_bitmap`. -/
def setVmm (s : MemState) (bits : Mem) : MemState := { s with vmm := { s.vmm with bitmap := bits } }

/-- `get_or_create_next_table`: the address of the next table, 0 when there is none. -/
def getOrCreateNextTable (s : MemState) (prevTableAddr : Nat) (idx : Index) : Nat × MemState :=
  if (s.entry prevTableAddr idx).present then
    ((s.entry prevTableAddr idx).address.toNat <<< 12, s)
  else
    match pmmMallocPage s.pmm with
    | none => (0, s)
    | some (currRouterTableAddress, bits) =>
      let s := (s.setPmm bits).clearPage currRouterTableAddress
      (currRouterTableAddress, s.setEntry prevTableAddr idx
        { s.entry prevTableAddr idx with
          present := true
          readWrite := true
          address := BitVec.ofNat 40 (currRouterTableAddress >>> 12) })

/-- `page_walk`: the table and the index of the last entry; `none` is the null pointer. -/
def pageWalk (s : MemState) (virtualAddress : Nat) : Option (Nat × Index) × MemState :=
  let (pageTable1, s) := s.getOrCreateNextTable s.getStartOfTree (getPML4Index virtualAddress)
  if pageTable1 = 0 then (none, s) else
  let (pageTable2, s) := s.getOrCreateNextTable pageTable1 (getPDPTIndex virtualAddress)
  if pageTable2 = 0 then (none, s) else
  let (pageTable3, s) := s.getOrCreateNextTable pageTable2 (getPDIndex virtualAddress)
  if pageTable3 = 0 then (none, s) else
  (some (pageTable3, getPTIndex virtualAddress), s)

def mapPage (s : MemState) (virtualAddress physicalAddress : Nat) (flags : PagingFlags) :
    Bool × MemState :=
  match s.pageWalk virtualAddress with
  | (none, s) => (false, s)
  | (some (table, i), s) =>
    (true, s.setEntry table i (leafEntry (s.entry table i) physicalAddress flags))

def freePage (s : MemState) (virtualAddress : Nat) : Bool × MemState :=
  match s.pageWalk virtualAddress with
  | (none, s) => (false, s)
  | (some (table, i), s) => (true, s.setEntry table i .zero)

end MemState

/-! ## The walk of the hardware -/

/-- What the hardware makes of an entry of a table at depth `d`. `PageSizeOrPAT` of a router entry
makes it a large page; in a PML4 entry the bit is reserved and the walk faults. -/
def slotOf (d : Nat) (e : PageTableEntry) : Slot Nat PageTableEntry :=
  if e.present = false then .empty
  else if 3 ≤ d then .leaf e
  else if e.pageSizeOrPAT = false then .node e.address.toNat
  else if d = 0 then .empty
  else .leaf e

namespace MemState

/-- The page tables, as the hardware reads them. -/
def tree (s : MemState) : Tree Nat Index PageTableEntry where
  root := s.root
  slot d t i := slotOf d (s.tables t i)

/-- The reachable tables: the path of indices that leads to one, and its physical page. -/
abbrev tableAt (s : MemState) (π : List Index) : Option Nat := s.tree.nodeAt π

end MemState

/-- The 4 KiB page inside the page of leaf `e` that the unused indices select. -/
def leafPage (e : PageTableEntry) (rest : List Index) : Nat :=
  e.address.toNat / 512 ^ rest.length * 512 ^ rest.length +
    rest.foldl (fun n i => n * 512 + i.val) 0

/-- What the hardware finds for an address: the physical page and the leaf entry with its bits. -/
structure Translation where
  page : Nat
  entry : PageTableEntry
deriving DecidableEq

def MemState.translate (s : MemState) (virtualAddress : Nat) : Option Translation :=
  (s.tree.walk (path virtualAddress)).map fun r => ⟨leafPage r.1 r.2, r.1⟩

end EszOs
