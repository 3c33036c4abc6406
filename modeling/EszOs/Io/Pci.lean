import Mathlib.Algebra.Group.Nat.Defs
import Mathlib.Data.Fintype.Basic
import Mathlib.Data.List.FinRange
import Mathlib.Tactic.FinCases

/-!
# The PCI devices (`io/pci/pci.cpp`)

`count_pci_devices` goes through all functions of all devices and counts those that answer, `init_pci`
allocates an array for them, and `get_pci_devices` goes through all functions again and fills it. The
ports select a register of the configuration space: `PciHost` is the space, which answers each read of
a register with the same value.

* `data_address`: the address that the code builds selects the register that it means.
* `entry_filled`: the stores to an entry fill it from the registers of its function.
* `initPci_entries`: the array has an entry for each function that is present, in their order.
-/

namespace EszOs

/-! ## The configuration space -/

structure PciFunction where
  bus : Fin 256
  device : Fin 32
  funct : Fin 8
deriving DecidableEq

/-- The lexicographic order, which is strict. -/
def PciFunction.Before (f g : PciFunction) : Prop :=
  f.bus < g.bus ∨ f.bus = g.bus ∧
    (f.device < g.device ∨ f.device = g.device ∧ f.funct < g.funct)

/-- The registers of the functions, and what the data port reads while the address port has no enable
bit. -/
structure PciHost where
  register : PciFunction → Fin 64 → UInt32
  disabled : UInt32 → UInt32

/-- What `PCI_ENUM_READ_PORT` reads: bit 31 of the address enables it, and bits 23 to 16, 15 to 11, 10
to 8 and 7 to 2 are the bus, the device, the function and the register. -/
def PciHost.data (host : PciHost) (address : UInt32) : UInt32 :=
  let n := address.toNat
  if n / 2 ^ 31 = 1 then
    host.register
      { bus := ⟨n / 2 ^ 16 % 256, Nat.mod_lt _ (by decide)⟩
        device := ⟨n / 2 ^ 11 % 32, Nat.mod_lt _ (by decide)⟩
        funct := ⟨n / 2 ^ 8 % 8, Nat.mod_lt _ (by decide)⟩ }
      (Fin.ofNat 64 (n / 4))
  else host.disabled address

/-! ## State -/

structure BistRegister where
  completionCode : UInt8
  reserved : UInt8
  startBist : UInt8
  bistCapable : UInt8

/-- `PCI_Device`, without the bytes that are reserved. -/
structure PciDevice where
  vendorID : UInt16
  deviceID : UInt16
  command : UInt16
  status : UInt16
  revisionID : UInt8
  progIF : UInt8
  subclass : UInt8
  classCode : UInt8
  cacheLineSize : UInt8
  latencyTimer : UInt8
  headerType : UInt8
  bist : BistRegister
  bar : Fin 6 → UInt32
  cardbusCISPointer : UInt32
  subsystemVendorID : UInt16
  subsystemID : UInt16
  expansionROMBaseAddress : UInt32
  capabilitiesPointer : UInt8
  interruptLine : UInt8
  interruptPin : UInt8
  minGnt : UInt8
  maxLat : UInt8

namespace PciDevice

variable (reg : UInt32) (d : PciDevice)

/-! The fields that `get_pci_devices` takes from each register. -/

def reg0 : PciDevice := { d with
  vendorID := (reg &&& 0xFFFF).toUInt16
  deviceID := (reg >>> 16).toUInt16 }

def reg1 : PciDevice := { d with
  command := (reg &&& 0xFFFF).toUInt16
  status := (reg >>> 16).toUInt16 }

def reg2 : PciDevice := { d with
  revisionID := (reg &&& 0xFF).toUInt8
  progIF := (reg >>> 8).toUInt8
  subclass := (reg >>> 16).toUInt8
  classCode := (reg >>> 24).toUInt8 }

def reg3 : PciDevice := { d with
  cacheLineSize := (reg &&& 0xFFFF).toUInt8
  latencyTimer := (reg >>> 8).toUInt8
  headerType := (reg >>> 16).toUInt8
  bist :=
    { completionCode := ((reg >>> 24) &&& 0b00001111).toUInt8
      reserved := ((reg >>> 24) &&& 0b00110000).toUInt8 >>> 4
      startBist := ((reg >>> 24) &&& 0b01000000).toUInt8 >>> 6
      bistCapable := ((reg >>> 24) &&& 0b10000000).toUInt8 >>> 7 } }

/-- `BAR[i].raw` -/
def barRaw (i : Fin 6) (reg : UInt32) (d : PciDevice) : PciDevice :=
  { d with bar := fun j => if j = i then reg else d.bar j }

def reg10 : PciDevice := { d with cardbusCISPointer := reg }

def reg11 : PciDevice := { d with
  subsystemVendorID := (reg &&& 0xFFFF).toUInt16
  subsystemID := (reg >>> 16).toUInt16 }

def reg12 : PciDevice := { d with expansionROMBaseAddress := reg }

def reg13 : PciDevice := { d with capabilitiesPointer := (reg &&& 0xFFFF).toUInt8 }

def reg15 : PciDevice := { d with
  interruptLine := (reg &&& 0xFFFF).toUInt8
  interruptPin := (reg >>> 8).toUInt8
  minGnt := (reg >>> 16).toUInt8
  maxLat := (reg >>> 24).toUInt8 }

end PciDevice

/-- `sizeof(PCI_Device)` -/
def pciDeviceSize : Nat := 64

/-- The address port and the globals. `allocated` is the number of bytes that `found_pci_devices` was
allocated with, and `stored` lists the indices of the stores to its entries, latest first. -/
structure PciState where
  address : UInt32
  pciDeviceAmount : Nat
  allocated : Nat
  foundPciDevices : Nat → PciDevice
  stored : List Nat

abbrev PciProgram := StateM PciState

/-! ## The code -/

namespace Pci

def calcAddress (bus : UInt16) (device funct : UInt8) : UInt32 :=
  (0x80000000 : UInt32) ||| (bus.toUInt32 <<< 16) ||| (device.toUInt32 <<< 11) ||| (funct.toUInt32 <<< 8)

/-- `outl(PCI_ENUM_WRITE_PORT, value)` -/
def outAddress (value : UInt32) : PciProgram Unit := modify fun s => { s with address := value }

/-- A store to the fields of an entry of `found_pci_devices`. -/
def store (deviceCounter : Nat) (fields : PciDevice → PciDevice) : PciProgram Unit :=
  modify fun s => { s with
    foundPciDevices := fun i =>
      if i = deviceCounter then fields (s.foundPciDevices i) else s.foundPciDevices i
    stored := deviceCounter :: s.stored }

section Source

variable (host : PciHost)

/-- `inl(PCI_ENUM_READ_PORT)` -/
def inData : PciProgram UInt32 := do
  let s ← get
  return host.data s.address

def pciRead (bus : UInt16) (dev func offset : UInt8) : PciProgram UInt32 := do
  outAddress (calcAddress bus dev func ||| (offset &&& 0xFC).toUInt32)
  inData host

def isDevicePresent (value : UInt32) : Bool := value &&& 0xFFFF != 0xFFFF

/-- The three loops, with the local variable `deviceCounter`. -/
def eachFunction (body : UInt16 → UInt8 → UInt8 → Nat → PciProgram Nat) : PciProgram Nat :=
  (List.range 256).foldlM (fun deviceCounter bus =>
    (List.range 32).foldlM (fun deviceCounter device =>
      (List.range 8).foldlM (fun deviceCounter funct =>
        body (UInt16.ofNat bus) (UInt8.ofNat device) (UInt8.ofNat funct) deviceCounter)
        deviceCounter) deviceCounter) 0

def countPciDevice (bus : UInt16) (device funct : UInt8) (deviceCounter : Nat) : PciProgram Nat := do
  outAddress (calcAddress bus device funct)
  let value ← inData host
  return if isDevicePresent value then deviceCounter + 1 else deviceCounter

def countPciDevices : PciProgram Nat := eachFunction (countPciDevice host)

/-- A register is read, and the fields of an entry that are in it are stored. -/
def fill (bus : UInt16) (device funct : UInt8) (deviceCounter : Nat) (offset : UInt8)
    (fields : UInt32 → PciDevice → PciDevice) : PciProgram Unit := do
  let reg ← pciRead host bus device funct offset
  store deviceCounter (fields reg)

/-- The stores to the entry of a function, with the value of its first register. -/
def fillEntry (bus : UInt16) (device funct : UInt8) (deviceCounter : Nat) (reg0 : UInt32) :
    PciProgram Unit := do
  store deviceCounter (PciDevice.reg0 reg0)
  fill host bus device funct deviceCounter (0x04 * 1) PciDevice.reg1
  fill host bus device funct deviceCounter (0x04 * 2) PciDevice.reg2
  fill host bus device funct deviceCounter (0x04 * 3) PciDevice.reg3
  -- reg4 to reg9
  (List.finRange 6).forM fun i =>
    fill host bus device funct deviceCounter (0x10 + UInt8.ofNat i * 4) (PciDevice.barRaw i)
  fill host bus device funct deviceCounter (0x04 * 10) PciDevice.reg10
  fill host bus device funct deviceCounter (0x04 * 11) PciDevice.reg11
  fill host bus device funct deviceCounter (0x04 * 12) PciDevice.reg12
  fill host bus device funct deviceCounter (0x04 * 13) PciDevice.reg13
  fill host bus device funct deviceCounter (0x04 * 15) PciDevice.reg15

/-- The body of the loops of `get_pci_devices`. -/
def getPciDevice (bus : UInt16) (device funct : UInt8) (deviceCounter : Nat) : PciProgram Nat := do
  let reg0 ← pciRead host bus device funct (0x04 * 0)
  if !isDevicePresent reg0 then return deviceCounter
  fillEntry host bus device funct deviceCounter reg0
  return deviceCounter + 1

def getPciDevices : PciProgram Nat := eachFunction (getPciDevice host)

/-- `init_pci`. In the memory that `malloc` returns stands `fresh`. -/
def initPci (fresh : Nat → PciDevice) : PciProgram Bool := do
  let amount ← countPciDevices host
  modify fun s => { s with
    pciDeviceAmount := amount
    allocated := pciDeviceSize * amount
    foundPciDevices := fresh
    stored := [] }
  let _ ← getPciDevices host
  return amount > 0

end Source

/-! ## Addresses -/

theorem or_eq_add {a b n : Nat} (h : b < 2 ^ n) : a * 2 ^ n ||| b = a * 2 ^ n + b := by
  rw [← Nat.shiftLeft_eq, ← Nat.shiftLeft_add_eq_or_of_lt h]

variable {host : PciHost} {f : PciFunction}

/-- The fields of an address do not overlap. -/
theorem or_fields {bus device funct : Nat} (hbus : bus < 256) (hdevice : device < 32)
    (hfunct : funct < 8) :
    2 ^ 31 ||| bus * 2 ^ 16 ||| device * 2 ^ 11 ||| funct * 2 ^ 8 =
      (((2 ^ 15 + bus) * 2 ^ 5 + device) * 2 ^ 3 + funct) * 2 ^ 8 := by
  have h₁ : 2 ^ 31 ||| bus * 2 ^ 16 = (2 ^ 15 + bus) * 2 ^ 16 := by
    have hor : 1 * 2 ^ 31 ||| bus * 2 ^ 16 = 1 * 2 ^ 31 + bus * 2 ^ 16 := or_eq_add (by omega)
    rw [Nat.one_mul] at hor
    rw [hor]
    omega
  have h₂ : (2 ^ 15 + bus) * 2 ^ 16 ||| device * 2 ^ 11 =
      ((2 ^ 15 + bus) * 2 ^ 5 + device) * 2 ^ 11 := by
    rw [or_eq_add (by omega)]
    omega
  rw [h₁, h₂, or_eq_add (by omega)]
  omega

theorem toNat_calcAddress (f : PciFunction) :
    (calcAddress (UInt16.ofNat f.bus) (UInt8.ofNat f.device) (UInt8.ofNat f.funct)).toNat =
      (((2 ^ 15 + f.bus) * 2 ^ 5 + f.device) * 2 ^ 3 + f.funct) * 2 ^ 8 := by
  have hbus := f.bus.isLt
  have hdevice := f.device.isLt
  have hfunct := f.funct.isLt
  rw [← or_fields hbus hdevice hfunct]
  simp only [calcAddress, UInt32.toNat_or, UInt32.reduceToNat, UInt32.toNat_shiftLeft,
    UInt16.toNat_toUInt32, UInt16.toNat_ofNat', Nat.reducePow, Nat.reduceMod, Nat.shiftLeft_eq,
    UInt8.toNat_toUInt32, UInt8.toNat_ofNat']
  simp (disch := omega) only [Nat.mod_eq_of_lt]

theorem and_offset : ∀ n < 256, n &&& 0xFC = 4 * (n / 4) := by decide +kernel

/-- The register that an address with these fields selects. -/
theorem data_of_fields {address : UInt32} {register : Nat} (hregister : register < 64)
    (hfields : address.toNat =
      (((2 ^ 15 + f.bus) * 2 ^ 5 + f.device) * 2 ^ 3 + f.funct) * 2 ^ 8 + 4 * register) :
    host.data address = host.register f (Fin.ofNat 64 register) := by
  have hbus := f.bus.isLt
  have hdevice := f.device.isLt
  have hfunct := f.funct.isLt
  have henable : address.toNat / 2 ^ 31 = 1 := by omega
  have h₁ : address.toNat / 2 ^ 16 % 256 = f.bus := by omega
  have h₂ : address.toNat / 2 ^ 11 % 32 = f.device := by omega
  have h₃ : address.toNat / 2 ^ 8 % 8 = f.funct := by omega
  have h₄ : Fin.ofNat 64 (address.toNat / 4) = Fin.ofNat 64 register := by
    apply Fin.ext
    simp only [Fin.val_ofNat]
    omega
  unfold PciHost.data
  dsimp only
  rw [if_pos henable, h₄]
  simp only [h₁, h₂, h₃, Fin.eta]

/-- The address selects the register at the offset. -/
theorem data_address (host : PciHost) (f : PciFunction) (offset : UInt8) :
    host.data (calcAddress (UInt16.ofNat f.bus) (UInt8.ofNat f.device) (UInt8.ofNat f.funct) |||
      (offset &&& 0xFC).toUInt32) = host.register f (Fin.ofNat 64 (offset.toNat / 4)) := by
  have hoffset := offset.toNat_lt
  have hand : ((offset &&& 0xFC).toUInt32).toNat = 4 * (offset.toNat / 4) := by
    rw [UInt8.toNat_toUInt32, UInt8.toNat_and]
    exact and_offset _ hoffset
  refine data_of_fields (by omega) ?_
  rw [UInt32.toNat_or, toNat_calcAddress, hand, or_eq_add (by omega)]

/-! ## One function -/

/-- The bytes of the header at an offset, the lowest one first. -/
def headerField (register : Fin 64 → UInt32) (offset size : Nat) : Nat :=
  (register (Fin.ofNat 64 (offset / 4))).toNat / 2 ^ (8 * (offset % 4)) % 2 ^ (8 * size)

/-- The function answers with a vendor. -/
def Present (host : PciHost) (f : PciFunction) : Prop := headerField (host.register f) 0x00 2 ≠ 0xFFFF

instance (host : PciHost) (f : PciFunction) : Decidable (Present host f) :=
  inferInstanceAs (Decidable (_ ≠ _))

/-- Each field is at its offset in the header. -/
structure Filled (register : Fin 64 → UInt32) (d : PciDevice) : Prop where
  vendorID : d.vendorID.toNat = headerField register 0x00 2
  deviceID : d.deviceID.toNat = headerField register 0x02 2
  command : d.command.toNat = headerField register 0x04 2
  status : d.status.toNat = headerField register 0x06 2
  revisionID : d.revisionID.toNat = headerField register 0x08 1
  progIF : d.progIF.toNat = headerField register 0x09 1
  subclass : d.subclass.toNat = headerField register 0x0A 1
  classCode : d.classCode.toNat = headerField register 0x0B 1
  cacheLineSize : d.cacheLineSize.toNat = headerField register 0x0C 1
  latencyTimer : d.latencyTimer.toNat = headerField register 0x0D 1
  headerType : d.headerType.toNat = headerField register 0x0E 1
  completionCode : d.bist.completionCode.toNat = headerField register 0x0F 1 % 16
  reserved : d.bist.reserved.toNat = headerField register 0x0F 1 / 16 % 4
  startBist : d.bist.startBist.toNat = headerField register 0x0F 1 / 64 % 2
  bistCapable : d.bist.bistCapable.toNat = headerField register 0x0F 1 / 128
  bar : ∀ i, (d.bar i).toNat = headerField register (0x10 + 4 * i) 4
  cardbusCISPointer : d.cardbusCISPointer.toNat = headerField register 0x28 4
  subsystemVendorID : d.subsystemVendorID.toNat = headerField register 0x2C 2
  subsystemID : d.subsystemID.toNat = headerField register 0x2E 2
  expansionROMBaseAddress : d.expansionROMBaseAddress.toNat = headerField register 0x30 4
  capabilitiesPointer : d.capabilitiesPointer.toNat = headerField register 0x34 1
  interruptLine : d.interruptLine.toNat = headerField register 0x3C 1
  interruptPin : d.interruptPin.toNat = headerField register 0x3D 1
  minGnt : d.minGnt.toNat = headerField register 0x3E 1
  maxLat : d.maxLat.toNat = headerField register 0x3F 1

/-- The entry of a function, over what was in it. -/
def entry (register : Fin 64 → UInt32) (d : PciDevice) : PciDevice :=
  let low := ((d.reg0 (register 0)).reg1 (register 1)).reg2 (register 2) |>.reg3 (register 3)
  let bars := (List.finRange 6).foldl (fun d i => d.barRaw i (register (Fin.ofNat 64 (4 + i)))) low
  (((bars.reg10 (register 10)).reg11 (register 11)).reg12 (register 12)).reg13 (register 13)
    |>.reg15 (register 15)

theorem toNat_low16 (reg : UInt32) :
    (reg &&& 0xFFFF).toUInt16.toNat = reg.toNat / 2 ^ 0 % 2 ^ 16 := by
  have hmask : reg.toNat &&& 0xFFFF = reg.toNat % 2 ^ 16 := Nat.and_two_pow_sub_one_eq_mod _ 16
  rw [UInt32.toNat_toUInt16, UInt32.toNat_and, Nat.pow_zero, Nat.div_one]
  exact (congrArg (· % 2 ^ 16) hmask).trans (Nat.mod_mod _ _)

theorem toNat_high16 (reg : UInt32) : (reg >>> 16).toUInt16.toNat = reg.toNat / 2 ^ 16 % 2 ^ 16 := by
  simp [Nat.shiftRight_eq_div_pow]

theorem toNat_byte0 (reg : UInt32) : (reg &&& 0xFF).toUInt8.toNat = reg.toNat / 2 ^ 0 % 2 ^ 8 ∧
    (reg &&& 0xFFFF).toUInt8.toNat = reg.toNat / 2 ^ 0 % 2 ^ 8 := by
  have hmask : reg.toNat &&& 0xFF = reg.toNat % 2 ^ 8 := Nat.and_two_pow_sub_one_eq_mod _ 8
  have hmask' : reg.toNat &&& 0xFFFF = reg.toNat % 2 ^ 16 := Nat.and_two_pow_sub_one_eq_mod _ 16
  rw [UInt32.toNat_toUInt8, UInt32.toNat_toUInt8, UInt32.toNat_and, UInt32.toNat_and, Nat.pow_zero,
    Nat.div_one]
  refine ⟨(congrArg (· % 2 ^ 8) hmask).trans (Nat.mod_mod _ _), ?_⟩
  exact (congrArg (· % 2 ^ 8) hmask').trans (by omega)

theorem toNat_byte (reg : UInt32) : (reg >>> 8).toUInt8.toNat = reg.toNat / 2 ^ 8 % 2 ^ 8 ∧
    (reg >>> 16).toUInt8.toNat = reg.toNat / 2 ^ 16 % 2 ^ 8 ∧
    (reg >>> 24).toUInt8.toNat = reg.toNat / 2 ^ 24 % 2 ^ 8 := by
  simp [Nat.shiftRight_eq_div_pow]

theorem toNat_word (reg : UInt32) : reg.toNat = reg.toNat / 2 ^ 0 % 2 ^ 32 := by
  rw [Nat.pow_zero, Nat.div_one, Nat.mod_eq_of_lt reg.toNat_lt]

/-- The bits of the BIST byte. -/
theorem bist_bits : ∀ n < 256, (n &&& 0b00001111) % 256 = n % 16 ∧
    (n &&& 0b00110000) % 256 / 2 ^ 4 = n / 16 % 4 ∧ (n &&& 0b01000000) % 256 / 2 ^ 6 = n / 64 % 2 ∧
      (n &&& 0b10000000) % 256 / 2 ^ 7 = n / 128 := by decide +kernel

theorem toNat_bist (reg : UInt32) :
    ((reg >>> 24) &&& 0b00001111).toUInt8.toNat = reg.toNat / 2 ^ 24 % 2 ^ 8 % 16 ∧
    (((reg >>> 24) &&& 0b00110000).toUInt8 >>> 4).toNat = reg.toNat / 2 ^ 24 % 2 ^ 8 / 16 % 4 ∧
    (((reg >>> 24) &&& 0b01000000).toUInt8 >>> 6).toNat = reg.toNat / 2 ^ 24 % 2 ^ 8 / 64 % 2 ∧
    (((reg >>> 24) &&& 0b10000000).toUInt8 >>> 7).toNat = reg.toNat / 2 ^ 24 % 2 ^ 8 / 128 := by
  have hlt : reg.toNat / 2 ^ 24 < 2 ^ 8 := by
    have := reg.toNat_lt
    omega
  have hbits := bist_bits (reg.toNat / 2 ^ 24) hlt
  have hshift : (reg >>> 24).toNat = reg.toNat / 2 ^ 24 := by simp [Nat.shiftRight_eq_div_pow]
  rw [Nat.mod_eq_of_lt hlt, UInt8.toNat_shiftRight, UInt8.toNat_shiftRight, UInt8.toNat_shiftRight]
  simp only [UInt32.toNat_toUInt8, UInt32.toNat_and, hshift, Nat.shiftRight_eq_div_pow]
  exact hbits

theorem entry_filled (register : Fin 64 → UInt32) (d : PciDevice) :
    Filled register (entry register d) where
  vendorID := toNat_low16 _
  deviceID := toNat_high16 _
  command := toNat_low16 _
  status := toNat_high16 _
  revisionID := (toNat_byte0 _).1
  progIF := (toNat_byte _).1
  subclass := (toNat_byte _).2.1
  classCode := (toNat_byte _).2.2
  cacheLineSize := (toNat_byte0 _).2
  latencyTimer := (toNat_byte _).1
  headerType := (toNat_byte _).2.1
  completionCode := (toNat_bist _).1
  reserved := (toNat_bist _).2.1
  startBist := (toNat_bist _).2.2.1
  bistCapable := (toNat_bist _).2.2.2
  bar := by
    intro i
    fin_cases i <;> exact toNat_word _
  cardbusCISPointer := toNat_word _
  subsystemVendorID := toNat_low16 _
  subsystemID := toNat_high16 _
  expansionROMBaseAddress := toNat_word _
  capabilitiesPointer := (toNat_byte0 _).2
  interruptLine := (toNat_byte0 _).2
  interruptPin := (toNat_byte _).1
  minGnt := (toNat_byte _).2.1
  maxLat := (toNat_byte _).2.2

/-- The program changes entry `k` in that way, and nothing else of the array. -/
structure Fills (k : Nat) (fields : PciDevice → PciDevice) (s s' : PciState) : Prop where
  entry : s'.foundPciDevices k = fields (s.foundPciDevices k)
  others : ∀ i, i ≠ k → s'.foundPciDevices i = s.foundPciDevices i
  stored : ∀ i, i ∈ s'.stored ↔ i = k ∨ i ∈ s.stored
  pciDeviceAmount : s'.pciDeviceAmount = s.pciDeviceAmount
  allocated : s'.allocated = s.allocated

/-- The program stores to entry `k` only. -/
def Filling (k : Nat) (fields : PciDevice → PciDevice) (m : PciProgram Unit) : Prop :=
  ∀ s, Fills k fields s (m.run s).2

theorem Filling.bind {k : Nat} {g g' : PciDevice → PciDevice} {m m' : PciProgram Unit}
    (h : Filling k g m) (h' : Filling k g' m') : Filling k (g' ∘ g) (m >>= fun _ => m') := by
  intro s
  have hfirst := h s
  have hsecond := h' (m.run s).2
  refine ⟨?_, fun i hi => ?_, fun i => ?_, ?_, ?_⟩
  · exact hsecond.entry.trans (congrArg g' hfirst.entry)
  · exact (hsecond.others i hi).trans (hfirst.others i hi)
  · refine (hsecond.stored i).trans ?_
    rw [hfirst.stored]
    grind
  · exact hsecond.pciDeviceAmount.trans hfirst.pciDeviceAmount
  · exact hsecond.allocated.trans hfirst.allocated

section Runs

variable (host : PciHost) (f : PciFunction) (k : Nat)

/-- Reading a register changes the address port. -/
theorem run_pciRead (offset : UInt8) (s : PciState) :
    ∃ address, (pciRead host (UInt16.ofNat f.bus) (UInt8.ofNat f.device) (UInt8.ofNat f.funct)
      offset).run s =
        (host.register f (Fin.ofNat 64 (offset.toNat / 4)), { s with address := address }) := by
  rw [← data_address host f offset]
  exact ⟨_, rfl⟩

theorem store_filling (fields : PciDevice → PciDevice) : Filling k fields (store k fields) :=
  fun _ => ⟨if_pos rfl, fun _ hi => if_neg hi, fun _ => List.mem_cons, rfl, rfl⟩

theorem fill_filling {offset : UInt8} {i : Fin 64} (hi : Fin.ofNat 64 (offset.toNat / 4) = i)
    (fields : UInt32 → PciDevice → PciDevice) :
    Filling k (fields (host.register f i))
      (fill host (UInt16.ofNat f.bus) (UInt8.ofNat f.device) (UInt8.ofNat f.funct) k offset fields) := by
  intro s
  obtain ⟨address, hread⟩ := run_pciRead host f offset s
  have hstore := store_filling k (fields (host.register f i)) { s with address := address }
  rw [fill, StateT.run_bind, hread, hi]
  exact ⟨hstore.entry, hstore.others, hstore.stored, hstore.pciDeviceAmount, hstore.allocated⟩

theorem reg_offset : ∀ i : Fin 16, Fin.ofNat 64 ((0x04 * UInt8.ofNat i).toNat / 4) =
    Fin.ofNat 64 i := by decide

theorem bar_offset : ∀ i : Fin 6, Fin.ofNat 64 ((0x10 + UInt8.ofNat i * 4).toNat / 4) =
    Fin.ofNat 64 (4 + i) := by decide

/-- The loop over the base addresses. -/
theorem bars_filling {is : List (Fin 6)} (his : is ≠ []) :
    Filling k (fun d => is.foldl (fun d i => d.barRaw i (host.register f (Fin.ofNat 64 (4 + i)))) d)
      (is.forM fun i => fill host (UInt16.ofNat f.bus) (UInt8.ofNat f.device) (UInt8.ofNat f.funct) k
        (0x10 + UInt8.ofNat i * 4) (PciDevice.barRaw i)) := by
  induction is with
  | nil => exact absurd rfl his
  | cons i is ih =>
    have hone := fill_filling host f k (bar_offset i) (PciDevice.barRaw i)
    by_cases hnil : is = []
    · subst hnil
      exact hone
    · exact hone.bind (ih hnil)

/-- All the stores to an entry. -/
theorem fillEntry_filling :
    Filling k (entry (host.register f)) (fillEntry host (UInt16.ofNat f.bus) (UInt8.ofNat f.device)
      (UInt8.ofNat f.funct) k (host.register f 0)) := by
  have hfill : ∀ {offset : UInt8} {i : Fin 64}, Fin.ofNat 64 (offset.toNat / 4) = i →
    ∀ fields : UInt32 → PciDevice → PciDevice, _ := fill_filling host f k
  have hbars : Filling k _ _ := bars_filling host f k (List.cons_ne_nil 0 _ : List.finRange 6 ≠ [])
  exact (store_filling k (PciDevice.reg0 (host.register f 0))).bind <|
    (hfill (reg_offset 1) PciDevice.reg1).bind <| (hfill (reg_offset 2) PciDevice.reg2).bind <|
    (hfill (reg_offset 3) PciDevice.reg3).bind <| hbars.bind <|
    (hfill (reg_offset 10) PciDevice.reg10).bind <| (hfill (reg_offset 11) PciDevice.reg11).bind <|
    (hfill (reg_offset 12) PciDevice.reg12).bind <| (hfill (reg_offset 13) PciDevice.reg13).bind <|
    hfill (reg_offset 15) PciDevice.reg15

/-! ## The passes -/

theorem isDevicePresent_iff : isDevicePresent (host.register f 0) = true ↔ Present host f := by
  have hlow : (host.register f 0 &&& 0xFFFF).toNat = headerField (host.register f) 0x00 2 := by
    have hmask := Nat.and_two_pow_sub_one_eq_mod (host.register f 0).toNat 16
    rw [UInt32.toNat_and]
    show _ = (host.register f 0).toNat / 2 ^ 0 % 2 ^ 16
    rw [Nat.pow_zero, Nat.div_one]
    exact hmask
  unfold isDevicePresent Present
  rw [bne_iff_ne, ← hlow, Ne, Ne, ← UInt32.toNat_inj]
  rfl

/-- All functions, in the order of the loops. -/
def allFunctions : List PciFunction :=
  (List.finRange 256).flatMap fun bus => (List.finRange 32).flatMap fun device =>
    (List.finRange 8).map fun funct => ⟨bus, device, funct⟩

theorem mem_allFunctions (f : PciFunction) : f ∈ allFunctions := by
  unfold allFunctions
  simp only [List.mem_flatMap, List.mem_map, List.mem_finRange, true_and]
  exact ⟨f.bus, f.device, f.funct, rfl⟩

theorem allFunctions_before : allFunctions.Pairwise PciFunction.Before := by
  unfold allFunctions
  rw [List.pairwise_flatMap]
  constructor
  · intro bus _
    rw [List.pairwise_flatMap]
    constructor
    · intro device _
      rw [List.pairwise_map]
      exact (List.pairwise_lt_finRange 8).imp fun h => .inr ⟨rfl, .inr ⟨rfl, h⟩⟩
    · refine (List.pairwise_lt_finRange 32).imp fun h f hf g hg => ?_
      obtain ⟨_, -, rfl⟩ := List.mem_map.mp hf
      obtain ⟨_, -, rfl⟩ := List.mem_map.mp hg
      exact .inr ⟨rfl, .inl h⟩
  · refine (List.pairwise_lt_finRange 256).imp fun h f hf g hg => ?_
    obtain ⟨_, -, hf⟩ := List.mem_flatMap.mp hf
    obtain ⟨_, -, hg⟩ := List.mem_flatMap.mp hg
    obtain ⟨_, -, rfl⟩ := List.mem_map.mp hf
    obtain ⟨_, -, rfl⟩ := List.mem_map.mp hg
    exact .inl h

theorem length_allFunctions : allFunctions.length = 256 * 32 * 8 := by
  simp only [allFunctions, List.length_flatMap, List.length_map, List.length_finRange,
    List.map_const', List.sum_replicate_nat]

theorem foldlM_range {σ : Type} {n : Nat} {body : Nat → Nat → StateM σ Nat} (k : Nat) :
    (List.range n).foldlM body k = (List.finRange n).foldlM (fun k (i : Fin n) => body k i.val) k := by
  rw [← List.map_coe_finRange_eq_range, List.foldlM_map]

theorem foldlM_flatMap {σ α β : Type} {body : Nat → β → StateM σ Nat} (l : List α) (g : α → List β)
    (k : Nat) : (l.flatMap g).foldlM body k = l.foldlM (fun k a => (g a).foldlM body k) k := by
  induction l generalizing k with
  | nil => rfl
  | cons a l ih =>
    rw [List.flatMap_cons, List.foldlM_append, List.foldlM_cons]
    simp only [ih]

theorem eachFunction_eq (body : UInt16 → UInt8 → UInt8 → Nat → PciProgram Nat) :
    eachFunction body = allFunctions.foldlM (fun k f =>
      body (UInt16.ofNat f.bus) (UInt8.ofNat f.device) (UInt8.ofNat f.funct) k) 0 := by
  unfold eachFunction allFunctions
  simp only [foldlM_flatMap, foldlM_range, List.foldlM_map]

/-- What the first pass does. -/
theorem countPciDevice_run (k : Nat) (s : PciState) :
    ∃ address, (countPciDevice host (UInt16.ofNat f.bus) (UInt8.ofNat f.device) (UInt8.ofNat f.funct)
      k).run s = (if Present host f then k + 1 else k, { s with address := address }) := by
  have hdata := data_address host f 0
  have hzero : ((0 : UInt8) &&& 0xFC).toUInt32 = 0 := by decide
  rw [hzero, UInt32.or_zero] at hdata
  have hpresent : isDevicePresent (host.register f 0) = true ↔ Present host f :=
    isDevicePresent_iff host f
  refine ⟨calcAddress (UInt16.ofNat f.bus) (UInt8.ofNat f.device) (UInt8.ofNat f.funct), ?_⟩
  show (if isDevicePresent (host.data (calcAddress (UInt16.ofNat f.bus) (UInt8.ofNat f.device)
    (UInt8.ofNat f.funct))) = true then k + 1 else k, _) = _
  rw [hdata]
  congr 1
  exact if_congr hpresent rfl rfl

theorem countPciDevices_run (fs : List PciFunction) (k : Nat) (s : PciState) :
    ∃ address, (fs.foldlM (fun k f => countPciDevice host (UInt16.ofNat f.bus) (UInt8.ofNat f.device)
      (UInt8.ofNat f.funct) k) k).run s =
        (k + (fs.filter (Present host ·)).length, { s with address := address }) := by
  induction fs generalizing k s with
  | nil => exact ⟨s.address, rfl⟩
  | cons f fs ih =>
    obtain ⟨address, hrun⟩ := countPciDevice_run host f k s
    obtain ⟨address', hrest⟩ := ih (if Present host f then k + 1 else k) { s with address := address }
    refine ⟨address', ?_⟩
    rw [List.foldlM_cons, StateT.run_bind, hrun]
    refine hrest.trans ?_
    rw [List.filter_cons]
    grind

/-- The body of the second pass: the entry of a function that is present. -/
theorem getPciDevice_run (k : Nat) (s : PciState) :
    ∃ s', (getPciDevice host (UInt16.ofNat f.bus) (UInt8.ofNat f.device) (UInt8.ofNat f.funct)
      k).run s = (if Present host f then k + 1 else k, s') ∧
        if Present host f then Fills k (entry (host.register f)) s s'
        else ∃ address, s' = { s with address := address } := by
  obtain ⟨address, hread⟩ := run_pciRead host f (0x04 * 0) s
  have hzero : Fin.ofNat 64 ((0x04 * 0 : UInt8).toNat / 4) = 0 := by decide
  rw [hzero] at hread
  have hpresent := isDevicePresent_iff host f
  by_cases h : Present host f
  · have hfill := fillEntry_filling host f k { s with address := address }
    refine ⟨((fillEntry host (UInt16.ofNat f.bus) (UInt8.ofNat f.device) (UInt8.ofNat f.funct) k
      (host.register f 0)).run { s with address := address }).2, ?_, ?_⟩
    · rw [getPciDevice, StateT.run_bind, hread, if_pos h]
      change (if _ then _ else _ : PciProgram Nat).run _ = _
      rw [if_neg (by simp [hpresent.mpr h])]
      rfl
    · rw [if_pos h]
      exact ⟨hfill.entry, hfill.others, hfill.stored, hfill.pciDeviceAmount, hfill.allocated⟩
  · refine ⟨{ s with address := address }, ?_, ?_⟩
    · rw [getPciDevice, StateT.run_bind, hread, if_neg h]
      change (if _ then _ else _ : PciProgram Nat).run _ = _
      rw [if_pos (by simpa using mt hpresent.mp h)]
      rfl
    · rw [if_neg h]
      exact ⟨address, rfl⟩

/-- From entry `k` on stand the entries of the functions, and nothing else of the array changed. -/
structure FillsAll (fs : List PciFunction) (k : Nat) (s s' : PciState) : Prop where
  entries : ∀ i f, fs[i]? = some f → Filled (host.register f) (s'.foundPciDevices (k + i))
  others : ∀ i, i < k ∨ k + fs.length ≤ i → s'.foundPciDevices i = s.foundPciDevices i
  stored : ∀ i, i ∈ s'.stored ↔ (k ≤ i ∧ i < k + fs.length) ∨ i ∈ s.stored
  pciDeviceAmount : s'.pciDeviceAmount = s.pciDeviceAmount
  allocated : s'.allocated = s.allocated

variable {host f k}

theorem FillsAll.nil (s : PciState) (address : UInt32) :
    FillsAll host [] k s { s with address := address } where
  entries := by simp
  others _ _ := rfl
  stored i := ⟨.inr, fun h => h.resolve_left fun ⟨hle, hlt⟩ => absurd hlt (Nat.not_lt.mpr hle)⟩
  pciDeviceAmount := rfl
  allocated := rfl

/-- The first of the functions, and then the others. -/
theorem FillsAll.cons {fs : List PciFunction} {s s₁ s' : PciState}
    (hfirst : Fills k (entry (host.register f)) s s₁) (hrest : FillsAll host fs (k + 1) s₁ s') :
    FillsAll host (f :: fs) k s s' where
  entries i g hi := by
    cases i with
    | zero =>
      obtain rfl : f = g := Option.some.inj hi
      have hkept : s'.foundPciDevices k = s₁.foundPciDevices k :=
        hrest.others k (.inl (Nat.lt_succ_self k))
      rw [Nat.add_zero, hkept, hfirst.entry]
      exact entry_filled _ _
    | succ i =>
      have hentry := hrest.entries i g hi
      rwa [Nat.add_right_comm] at hentry
  others i hi := by
    rw [List.length_cons] at hi
    exact (hrest.others i (by omega)).trans (hfirst.others i (by omega))
  stored i := by
    rw [hrest.stored, hfirst.stored, List.length_cons]
    grind
  pciDeviceAmount := hrest.pciDeviceAmount.trans hfirst.pciDeviceAmount
  allocated := hrest.allocated.trans hfirst.allocated

/-- A change of the address port before. -/
theorem FillsAll.address {fs : List PciFunction} {s s' : PciState} {address : UInt32}
    (h : FillsAll host fs k { s with address := address } s') : FillsAll host fs k s s' where
  entries := h.entries
  others := h.others
  stored := h.stored
  pciDeviceAmount := h.pciDeviceAmount
  allocated := h.allocated

variable (host)

/-- What the second pass does. -/
theorem getPciDevices_run (fs : List PciFunction) (k : Nat) (s : PciState) :
    FillsAll host (fs.filter (Present host ·)) k s
      ((fs.foldlM (fun k f => getPciDevice host (UInt16.ofNat f.bus) (UInt8.ofNat f.device)
        (UInt8.ofNat f.funct) k) k).run s).2 := by
  induction fs generalizing k s with
  | nil => exact FillsAll.nil s s.address
  | cons f fs ih =>
    obtain ⟨s₁, hrun, hfirst⟩ := getPciDevice_run host f k s
    rw [List.foldlM_cons, StateT.run_bind, hrun, List.filter_cons]
    by_cases h : Present host f
    · rw [if_pos h] at hfirst
      rw [if_pos h, if_pos (decide_eq_true h)]
      exact FillsAll.cons hfirst (ih (k + 1) s₁)
    · rw [if_neg h] at hfirst
      obtain ⟨address, rfl⟩ := hfirst
      rw [if_neg h, if_neg (by simpa using h)]
      exact (ih k _).address

theorem run_modify_bind {σ α β : Type} (g : σ → σ) (m : StateM σ α) (b : β) (s : σ) :
    (do modify g; let _ ← m; return b : StateM σ β).run s = (b, (m.run (g s)).2) := rfl

/-- The state after the first pass and `malloc`. -/
theorem initPci_run (fresh : Nat → PciDevice) {amount : Nat} {s s₁ : PciState}
    (hcount : (countPciDevices host).run s = (amount, s₁)) :
    ∃ s₂ : PciState, s₂.pciDeviceAmount = amount ∧ s₂.allocated = pciDeviceSize * amount ∧
      s₂.foundPciDevices = fresh ∧ s₂.stored = [] ∧
        (initPci host fresh).run s = (decide (0 < amount), ((getPciDevices host).run s₂).2) := by
  refine ⟨{ s₁ with
    pciDeviceAmount := amount
    allocated := pciDeviceSize * amount
    foundPciDevices := fresh
    stored := [] }, rfl, rfl, rfl, rfl, ?_⟩
  rw [initPci, StateT.run_bind, hcount]
  exact run_modify_bind _ _ _ _

/-- What `init_pci` returns and leaves, where `fs` are the functions that are present and `fresh` is the
memory of the array: it has been allocated with their number, and their entries are stored to it. -/
structure Enumerated (fs : List PciFunction) (fresh : Nat → PciDevice) (r : Bool × PciState) :
    Prop where
  found : r.1 = decide (0 < fs.length)
  pciDeviceAmount : r.2.pciDeviceAmount = fs.length
  allocated : r.2.allocated = pciDeviceSize * fs.length
  stored : ∀ i, i ∈ r.2.stored ↔ i < fs.length
  others : ∀ i, fs.length ≤ i → r.2.foundPciDevices i = fresh i
  entries : ∀ i f, fs[i]? = some f → Filled (host.register f) (r.2.foundPciDevices i)

variable {host} {fs : List PciFunction} {fresh : Nat → PciDevice} {s s₁ s' : PciState}

theorem FillsAll.enumerated (h : FillsAll host fs 0 s s') (hamount : s.pciDeviceAmount = fs.length)
    (hallocated : s.allocated = pciDeviceSize * fs.length) (hfresh : s.foundPciDevices = fresh)
    (hstored : s.stored = []) : Enumerated host fs fresh (decide (0 < fs.length), s') where
  found := rfl
  pciDeviceAmount := h.pciDeviceAmount.trans hamount
  allocated := h.allocated.trans hallocated
  stored i := by
    refine (h.stored i).trans ?_
    rw [hstored, Nat.zero_add]
    simp
  others i hi := by
    rw [← hfresh]
    exact h.others i (.inr (by rwa [Nat.zero_add]))
  entries i f hi := by
    have hentry := h.entries i f hi
    rwa [Nat.zero_add] at hentry

/-- The second pass fills what the first one has counted. -/
theorem initPci_enumerated (hcount : (countPciDevices host).run s = (fs.length, s₁))
    (hfills : ∀ s, FillsAll host fs 0 s ((getPciDevices host).run s).2) :
    Enumerated host fs fresh ((initPci host fresh).run s) := by
  obtain ⟨s₂, hamount, hallocated, hfresh, hstored, hrun⟩ := initPci_run host fresh hcount
  rw [hrun]
  exact (hfills s₂).enumerated hamount hallocated hfresh hstored

variable (host)

/-- `init_pci` fills an entry for each function that is present, in their order. -/
theorem initPci_entries (fresh : Nat → PciDevice) (s : PciState) :
    ∃ fs : List PciFunction, fs.Pairwise PciFunction.Before ∧ (∀ f, f ∈ fs ↔ Present host f) ∧
      fs.length ≤ 256 * 32 * 8 ∧ Enumerated host fs fresh ((initPci host fresh).run s) := by
  have hmem : ∀ f, f ∈ allFunctions.filter (Present host ·) ↔ Present host f := by
    intro f
    rw [List.mem_filter, decide_eq_true_iff]
    exact and_iff_right (mem_allFunctions f)
  have hle : (allFunctions.filter (Present host ·)).length ≤ 256 * 32 * 8 :=
    (List.length_filter_le _ _).trans length_allFunctions.le
  obtain ⟨address, hcount⟩ := countPciDevices_run host allFunctions 0 s
  rw [← eachFunction_eq, Nat.zero_add] at hcount
  have hfills : ∀ s, FillsAll host (allFunctions.filter (Present host ·)) 0 s
      ((getPciDevices host).run s).2 := by
    intro s
    rw [getPciDevices, eachFunction_eq]
    exact getPciDevices_run host allFunctions 0 s
  exact ⟨_, allFunctions_before.filter _, hmem, hle, initPci_enumerated hcount hfills⟩

end Runs

end Pci

end EszOs
