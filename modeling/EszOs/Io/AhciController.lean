import EszOs.Io.Pci
import EszOs.Memory.PageRanges

/-!
# The AHCI controller (`init_ahci` in `io/ahci/ahci.cpp`)

`init_ahci` takes the last base address register of the first AHCI controller that `init_pci` has
found, and `find_ready_ports` maps the registers there, uncached, before it looks at a port.

* `initAhci_eq`: the controller is the first one in the order of the buses.
* `mapPagesLoop_mapped`: the entries that `map_pages` writes, with their flags.
* `controller_mapped`: from the configuration space to the registers of the controller.
-/

namespace EszOs

open Pci

/-! ## Definitions -/

def virtualOffsetMmio : Nat := 0xFFFFA00000000000

def pageFlagWriteNoCache : PagingFlags := 0b00010010

/-- `sizeof(AHCI_Registers)`: 64 words, and 32 words for each of the 32 ports. -/
def ahciRegistersSize : Nat := 256 + 32 * 128

/-- `mem.BaseAddress` of a base address register. -/
def baseAddress (bar : UInt32) : UInt32 := bar >>> 4

def getVirtualMembarAddress (bar : UInt32) : Nat :=
  u64 ((baseAddress bar <<< 4).toNat + virtualOffsetMmio)

def getPhysicalMembarAddress (bar : UInt32) : Nat := (baseAddress bar <<< 4).toNat

/-- The test of `find_ahci_controller`. -/
def isAhciController (d : PciDevice) : Bool := d.classCode == 0x1 && d.subclass == 0x6

/-- `find_ahci_controller`: the index of the entry. -/
def findAhciController (s : PciState) : Option Nat :=
  (List.range s.pciDeviceAmount).find? fun i => isAhciController (s.foundPciDevices i)

/-- `init_ahci`: what it stores to `BAR_IDX_5`; `none` if it returns false. -/
def initAhci (s : PciState) : Option UInt32 :=
  (findAhciController s).map fun i => (s.foundPciDevices i).bar 5

/-- The call of `map_pages` in `find_ready_ports`. -/
def MemState.mapAhciRegisters (s : MemState) (bar : UInt32) : Bool × MemState :=
  s.mapPages (getVirtualMembarAddress bar) (getPhysicalMembarAddress bar) pageFlagWriteNoCache
    ahciRegistersSize

/-- The function is there, with the class of a mass storage controller and the subclass SATA. -/
def IsAhci (host : PciHost) (f : PciFunction) : Prop :=
  Present host f ∧ headerField (host.register f) 0x0B 1 = 0x01 ∧
    headerField (host.register f) 0x0A 1 = 0x06

instance (host : PciHost) (f : PciFunction) : Decidable (IsAhci host f) :=
  inferInstanceAs (Decidable (_ ∧ _ ∧ _))

/-- No AHCI controller comes before `f` in the order of the buses. -/
structure FirstAhci (host : PciHost) (f : PciFunction) : Prop where
  isAhci : IsAhci host f
  first : ∀ g, IsAhci host g → g = f ∨ f.Before g

/-- The page of `v` is mapped to that of `p`, by `map_page` with the flags. -/
def MappedAt (s : MemState) (v p : Nat) (flags : PagingFlags) : Prop :=
  ∃ e, s.translate v = some ⟨p / pageSize, e⟩ ∧ e.readWrite = (flags &&& pageFlagWrite != 0) ∧
    e.cacheDisabled = (flags &&& pageFlagCacheDisable != 0)

/-- An access to `v` is one to the physical address `p`, with stores allowed and no cache between. -/
def Uncached (s : MemState) (v p : Nat) : Prop :=
  s.physOf v = some p ∧
    ∃ t, s.translate v = some t ∧ t.entry.readWrite = true ∧ t.entry.cacheDisabled = true

/-! ## The first controller -/

section Controller

variable (host : PciHost) (fresh : Nat → PciDevice) (s : PciState)

/-- `init_pci` has found all functions that are present. -/
theorem initPci_present : Enumerated host (allFunctions.filter (Present host ·)) fresh
    ((initPci host fresh).run s) := by
  obtain ⟨address, hcount⟩ := countPciDevices_run host allFunctions 0 s
  rw [← eachFunction_eq, Nat.zero_add] at hcount
  refine initPci_enumerated hcount fun s => ?_
  rw [getPciDevices, eachFunction_eq]
  exact getPciDevices_run host allFunctions 0 s

variable {host} {d : PciDevice} {f : PciFunction}

/-- The test on the entry of a function. -/
theorem isAhciController_iff (hd : Filled (host.register f) d) (hf : Present host f) :
    isAhciController d = true ↔ IsAhci host f := by
  have hclass : d.classCode = 0x1 ↔ headerField (host.register f) 0x0B 1 = 0x01 := by
    rw [← hd.classCode, ← UInt8.toNat_inj]
    rfl
  have hsubclass : d.subclass = 0x6 ↔ headerField (host.register f) 0x0A 1 = 0x06 := by
    rw [← hd.subclass, ← UInt8.toNat_inj]
    rfl
  simp [isAhciController, IsAhci, hf, hclass, hsubclass]

/-- The entries of the array are those of the functions. -/
theorem entry_filled_of_getElem {fs : List PciFunction} {r : Bool × PciState} {i : Nat}
    (h : Enumerated host fs fresh r) (hi : fs[i]? = some f) :
    i < r.2.pciDeviceAmount ∧ Filled (host.register f) (r.2.foundPciDevices i) := by
  refine ⟨?_, h.entries i f hi⟩
  rw [h.pciDeviceAmount]
  exact (List.getElem?_eq_some_iff.mp hi).1

theorem mem_filter_present {g : PciFunction} :
    g ∈ allFunctions.filter (Present host ·) ↔ Present host g := by
  rw [List.mem_filter, decide_eq_true_iff]
  exact and_iff_right (mem_allFunctions g)

/-- If `init_ahci` fails, there is no controller. -/
theorem not_isAhci_of_initAhci (h : initAhci ((initPci host fresh).run s).2 = none)
    (f : PciFunction) : ¬ IsAhci host f := by
  intro hf
  have henum := initPci_present host fresh s
  generalize (initPci host fresh).run s = r at h henum
  obtain ⟨i, hi⟩ := List.mem_iff_getElem?.mp (mem_filter_present.mpr hf.1)
  obtain ⟨hlt, hfilled⟩ := entry_filled_of_getElem fresh henum hi
  have hno := List.find?_range_eq_none.mp (Option.map_eq_none_iff.mp h) i hlt
  rw [(isAhciController_iff hfilled hf.1).mpr hf] at hno
  cases hno

/-- The entry that `find_ahci_controller` finds is that of the first controller. -/
theorem firstAhci_of_findAhciController {fs : List PciFunction} {r : Bool × PciState} {i : Nat}
    (henum : Enumerated host fs fresh r) (hbefore : fs.Pairwise PciFunction.Before)
    (hmem : ∀ g, g ∈ fs ↔ Present host g) (h : findAhciController r.2 = some i) :
    ∃ f, FirstAhci host f ∧ Filled (host.register f) (r.2.foundPciDevices i) := by
  obtain ⟨htest, hi, hnone⟩ := List.find?_range_eq_some.mp h
  rw [List.mem_range, henum.pciDeviceAmount] at hi
  have hfilled := henum.entries i fs[i] (List.getElem?_eq_getElem hi)
  have hpresent := (hmem fs[i]).mp (List.getElem_mem hi)
  refine ⟨fs[i], ⟨(isAhciController_iff hfilled hpresent).mp htest, fun g hg => ?_⟩, hfilled⟩
  obtain ⟨j, hj, rfl⟩ := List.mem_iff_getElem.mp ((hmem g).mpr hg.1)
  rcases Nat.lt_trichotomy j i with hlt | rfl | hlt
  · -- an earlier controller would have been found
    have hother := henum.entries j fs[j] (List.getElem?_eq_getElem hj)
    have hno := hnone j hlt
    rw [(isAhciController_iff hother hg.1).mpr hg] at hno
    cases hno
  · exact .inl rfl
  · exact .inr (List.pairwise_iff_getElem.mp hbefore i j hi hj hlt)

/-- What `init_ahci` stores is the register of the first controller. -/
theorem firstAhci_of_enumerated {r : Bool × PciState} {bar : UInt32}
    (henum : Enumerated host (allFunctions.filter (Present host ·)) fresh r)
    (h : initAhci r.2 = some bar) :
    ∃ f, FirstAhci host f ∧ bar.toNat = headerField (host.register f) 0x24 4 := by
  obtain ⟨i, hfind, hbar⟩ := Option.map_eq_some_iff.mp h
  obtain ⟨f, hf, hfilled⟩ := firstAhci_of_findAhciController fresh henum
    (allFunctions_before.filter _) (fun _ => mem_filter_present) hfind
  have hfield := hfilled.bar 5
  rw [hbar] at hfield
  exact ⟨f, hf, hfield⟩

theorem firstAhci_of_initAhci {bar : UInt32}
    (h : initAhci ((initPci host fresh).run s).2 = some bar) :
    ∃ f, FirstAhci host f ∧ bar.toNat = headerField (host.register f) 0x24 4 :=
  firstAhci_of_enumerated fresh (initPci_present host fresh s) h

theorem PciFunction.Before.asymm {f g : PciFunction} (h : f.Before g) : ¬ g.Before f := by
  unfold PciFunction.Before at h ⊢
  omega

/-- There is one first controller only. -/
theorem FirstAhci.unique {f g : PciFunction} (hf : FirstAhci host f) (hg : FirstAhci host g) :
    f = g := by
  rcases hf.first g hg.isAhci with h | h
  · exact h.symm
  · rcases hg.first f hf.isAhci with h' | h'
    · exact h'
    · exact absurd h' h.asymm

/-- `init_ahci` selects the first controller. -/
theorem initAhci_eq (hf : FirstAhci host f) : ∃ bar,
    initAhci ((initPci host fresh).run s).2 = some bar ∧
      bar.toNat = headerField (host.register f) 0x24 4 := by
  cases h : initAhci ((initPci host fresh).run s).2 with
  | none => exact absurd hf.isAhci (not_isAhci_of_initAhci fresh s h f)
  | some bar =>
    obtain ⟨g, hg, hbar⟩ := firstAhci_of_initAhci fresh s h
    rw [hf.unique hg]
    exact ⟨bar, rfl, hbar⟩

end Controller

/-! ## The entries that `map_pages` writes -/

section Mapped

variable {s : MemState} {v p n i : Nat} {flags : PagingFlags}

theorem mappedAt_congr {s' : MemState} {v' : Nat} (h : s'.translate v' = s.translate v) :
    MappedAt s' v' p flags ↔ MappedAt s v p flags := by
  rw [MappedAt, MappedAt, h]

/-- After a `map_page` that succeeds, at any address of the page. -/
theorem mapPage_mappedAt {a : Nat} (hd : DistinctTables s) (hbits : pageBits a = pageBits v)
    (hc : NoLargePage s v) (hp : p < 2 ^ 52) (hr : (s.mapPage a p flags).1 = true) :
    MappedAt (s.mapPage a p flags).2 v p flags := by
  obtain ⟨e, he, hwrite, hcache⟩ :=
    (mapPage_translate hd (noLargePage_of_pageBits hbits.symm hc) hp flags).1 hr
  refine ⟨_, ?_, hwrite, hcache⟩
  rw [translate_of_pageBits hbits.symm, he, Nat.shiftRight_eq_div_pow]
  rfl

/-- After a `map_pages` that succeeds, each page of the range is mapped as asked. -/
theorem mapPagesLoop_mapped {success : Bool} {j : Nat} (hd : DistinctTables s)
    (hc : ∀ j, i ≤ j → j < i + n → NoLargePage s (v + j * pageSize))
    (hp : ∀ j, i ≤ j → j < i + n → p + j * pageSize < 2 ^ 52) (hn : n ≤ 2 ^ 36)
    (hr : (MemState.mapPagesLoop v p flags n i s success).1 = true) (hle : i ≤ j) (hlt : j < i + n) :
    MappedAt (MemState.mapPagesLoop v p flags n i s success).2 (v + j * pageSize) (p + j * pageSize)
      flags := by
  induction n generalizing s i success with
  | zero => omega
  | succ n ih =>
    have hci := hc i (by omega) (by omega)
    have hpi := hp i (by omega) (by omega)
    have hbits : pageBits (u64 (v + u64 (i * pageSize))) = pageBits (v + i * pageSize) := by
      rw [pageBits_u64]
      simp only [pageBits, u64]
      omega
    have hphys : u64 (p + u64 (i * pageSize)) = p + i * pageSize := by
      simp only [u64]
      omega
    obtain ⟨hd₁, hG, -, -⟩ := mapPages_step flags hd hci hpi
    have hself : (s.mapPage (u64 (v + u64 (i * pageSize))) (p + i * pageSize) flags).1 = true →
        MappedAt (s.mapPage (u64 (v + u64 (i * pageSize))) (p + i * pageSize) flags).2
          (v + i * pageSize) (p + i * pageSize) flags := mapPage_mappedAt hd hbits hci hpi
    simp only [MemState.mapPagesLoop, hphys] at hr hd₁ hG ⊢
    generalize s.mapPage (u64 (v + u64 (i * pageSize))) (p + i * pageSize) flags = r at *
    have hc₁ : ∀ j, i + 1 ≤ j → j < i + 1 + n → NoLargePage r.2 (v + j * pageSize) :=
      fun j h1 h2 => hG.noLargePage (hc j (by omega) (by omega))
    have hp₁ : ∀ j, i + 1 ≤ j → j < i + 1 + n → p + j * pageSize < 2 ^ 52 :=
      fun j h1 h2 => hp j (by omega) (by omega)
    rcases Nat.eq_or_lt_of_le hle with rfl | hlt'
    · -- the later turns do not touch this page
      obtain ⟨hand, hout, -⟩ := mapPagesLoop_spec hd₁ hc₁ hp₁ hr
      refine (mappedAt_congr (hout _ fun j h1 h2 he => ?_)).mpr
        (hself (Bool.and_eq_true_iff.mp hand).1)
      have := pageBits_add_inj (by omega) (by omega) he
      omega
    · exact ih hd₁ hc₁ hp₁ (by omega) hr hlt' (by omega)

end Mapped

/-! ## The registers -/

section Registers

variable {m : MemState} {bar : UInt32} {k : Nat}

theorem getPhysicalMembarAddress_eq (bar : UInt32) :
    getPhysicalMembarAddress bar = bar.toNat / 16 * 16 := by
  have hlt := bar.toNat_lt
  simp only [getPhysicalMembarAddress, baseAddress, UInt32.toNat_shiftLeft, UInt32.toNat_shiftRight,
    UInt32.reduceToNat, Nat.reduceMod, Nat.shiftRight_eq_div_pow, Nat.shiftLeft_eq, Nat.reducePow]
  omega

theorem getVirtualMembarAddress_eq (bar : UInt32) :
    getVirtualMembarAddress bar = getPhysicalMembarAddress bar + virtualOffsetMmio := by
  have hlt := bar.toNat_lt
  have hphys := getPhysicalMembarAddress_eq bar
  refine u64_of_lt ?_
  rw [getPhysicalMembarAddress] at hphys
  rw [hphys, virtualOffsetMmio]
  omega

/-- After `find_ready_ports` has mapped the registers, each byte of the two pages is accessed at its
physical address. -/
theorem mapAhciRegisters_mapped (hd : DistinctTables m)
    (hc : ∀ j < 2, NoLargePage m (getVirtualMembarAddress bar + j * pageSize))
    (hr : (m.mapAhciRegisters bar).1 = true)
    (hk : getPhysicalMembarAddress bar % pageSize + k < 2 * pageSize) :
    Uncached (m.mapAhciRegisters bar).2 (getVirtualMembarAddress bar + k)
      (getPhysicalMembarAddress bar + k) := by
  obtain ⟨p, hp⟩ : ∃ p, p = getPhysicalMembarAddress bar := ⟨_, rfl⟩
  obtain ⟨v, hv⟩ : ∃ v, v = getVirtualMembarAddress bar := ⟨_, rfl⟩
  have hlt : p < 2 ^ 32 := by
    have := bar.toNat_lt
    rw [hp, getPhysicalMembarAddress_eq]
    omega
  have ho : v % pageSize = p % pageSize := by
    rw [hv, getVirtualMembarAddress_eq, ← hp, virtualOffsetMmio, pageSize]
    omega
  have htwo : divideRoundUp ahciRegistersSize pageSize = 2 := by decide
  rw [MemState.mapAhciRegisters, MemState.mapPages, htwo, ← hp, ← hv] at hr ⊢
  rw [← hv] at hc
  rw [← hp, ← ho] at hk
  obtain ⟨e, he, hwrite, hcache⟩ := mapPagesLoop_mapped (j := (v % pageSize + k) / pageSize) hd
    (fun j _ hj => hc j (by omega)) (fun j _ hj => by simp only [pageSize]; omega) (by decide) hr
    (Nat.zero_le _) (by simp only [pageSize] at hk ⊢; omega)
  rw [← translate_of_pageBits (pageBits_add v k)] at he
  have hflags : e.readWrite = true ∧ e.cacheDisabled = true := by
    rw [hwrite, hcache]
    decide
  refine ⟨?_, _, he, hflags⟩
  exact physOf_add ho rfl ((translate_of_pageBits (pageBits_add v k)).symm.trans he)

end Registers

/-! ## From the configuration space to the registers -/

/-- After `init_pci`, `init_ahci` fails exactly if no bus has an AHCI controller; otherwise it stores
the last base address register of the first one. -/
theorem initAhci_first (host : PciHost) (fresh : Nat → PciDevice) (s : PciState) :
    (initAhci ((initPci host fresh).run s).2 = none ↔ ∀ f, ¬ IsAhci host f) ∧
      ∀ f, FirstAhci host f → ∃ bar, initAhci ((initPci host fresh).run s).2 = some bar ∧
        bar.toNat = headerField (host.register f) 0x24 4 := by
  refine ⟨⟨not_isAhci_of_initAhci fresh s, fun hno => ?_⟩, fun f hf => initAhci_eq fresh s hf⟩
  cases h : initAhci ((initPci host fresh).run s).2 with
  | none => rfl
  | some bar =>
    obtain ⟨f, hf, -⟩ := firstAhci_of_initAhci fresh s h
    exact absurd hf.isAhci (hno f)

/-- The driver reaches the registers of the first AHCI controller: over page tables that are pairwise
distinct used pages, once `map_pages` has succeeded, each register in the two mapped pages is accessed
uncached at its physical address. These are all registers if their base is that of a page. -/
theorem controller_mapped {host : PciHost} {fresh : Nat → PciDevice} {s : PciState} {m : MemState}
    {f : PciFunction} {bar : UInt32} (hf : FirstAhci host f)
    (hbar : bar.toNat = headerField (host.register f) 0x24 4) (hd : DistinctTables m)
    (hc : ∀ j < 2, NoLargePage m (getVirtualMembarAddress bar + j * pageSize))
    (hr : (m.mapAhciRegisters bar).1 = true) :
    initAhci ((initPci host fresh).run s).2 = some bar ∧
      ∀ k < ahciRegistersSize, bar.toNat / 16 * 16 % pageSize + k < 2 * pageSize →
        Uncached (m.mapAhciRegisters bar).2 (bar.toNat / 16 * 16 + virtualOffsetMmio + k)
          (bar.toNat / 16 * 16 + k) := by
  obtain ⟨bar', hinit, hfield⟩ := initAhci_eq fresh s hf
  obtain rfl : bar' = bar := UInt32.toNat_inj.mp (hfield.trans hbar.symm)
  refine ⟨hinit, fun k _ hk => ?_⟩
  rw [← getPhysicalMembarAddress_eq] at hk ⊢
  rw [← getVirtualMembarAddress_eq]
  exact mapAhciRegisters_mapped hd hc hr hk

/-- A bus with an AHCI controller at device 31 and nothing else. -/
def ahciHost : PciHost where
  register f i :=
    if f.bus.val = 0 ∧ f.device.val = 31 ∧ f.funct.val = 2 then
      if i.val = 2 then 0x01060100 else if i.val = 9 then 0xFEBF1000 else 0x29228086
    else 0xFFFFFFFF
  disabled _ := 0xFFFFFFFF

theorem ahciHost_first : FirstAhci ahciHost ⟨0, 31, 2⟩ where
  isAhci := by decide
  first g hg := by
    by_contra h
    have hne : ¬ (g.bus.val = 0 ∧ g.device.val = 31 ∧ g.funct.val = 2) := by
      rintro ⟨hbus, hdevice, hfunct⟩
      obtain ⟨bus, device, funct⟩ := g
      obtain rfl : bus = 0 := Fin.ext hbus
      obtain rfl : device = 31 := Fin.ext hdevice
      obtain rfl : funct = 2 := Fin.ext hfunct
      exact h (.inl rfl)
    have hregister : ahciHost.register g = fun _ => 0xFFFFFFFF := by
      funext i
      exact if_neg hne
    have hpresent := hg.1
    simp [Present, headerField, hregister] at hpresent

/-- An entry of the array before `init_pci` has filled it. -/
def PciDevice.zero : PciDevice :=
  ⟨0, 0, 0, 0, 0, 0, 0, 0, 0, 0, 0, ⟨0, 0, 0, 0⟩, fun _ => 0, 0, 0, 0, 0, 0, 0, 0, 0, 0⟩

theorem controller_mapped_ahciHost :
    initAhci ((initPci ahciHost fun _ => .zero).run ⟨0, 0, 0, fun _ => .zero, []⟩).2 =
        some 0xFEBF1000 ∧
      ∀ k < ahciRegistersSize, (0xFEBF1000 : UInt32).toNat / 16 * 16 % pageSize + k < 2 * pageSize →
        Uncached (emptyTables.mapAhciRegisters 0xFEBF1000).2
          ((0xFEBF1000 : UInt32).toNat / 16 * 16 + virtualOffsetMmio + k)
          ((0xFEBF1000 : UInt32).toNat / 16 * 16 + k) :=
  controller_mapped ahciHost_first (by decide) emptyTables_distinct
    (fun _ _ => emptyTables_noLargePage _) (by decide +kernel)

end EszOs
