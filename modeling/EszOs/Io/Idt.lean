import EszOs.Config
import EszOs.Io.Interrupts
import Mathlib.Data.Fintype.Basic

/-!
# Interrupt vectors (`io/idt/idt.cpp`, `io/idt/idt_faults/idt_faults.cpp`, `io/pic/pic.cpp`)

`init_interrupts` fills the interrupt descriptor table and programs the two interrupt controllers, so
that the timer (line 0) and the keyboard (line 1) arrive at the vectors behind the processor's own.

The controllers are modelled as far as the kernel uses them: the initialisation words, the mask, and
the lines in service, which the command `0x20` ends. Spurious interrupts are left out.

* `interrupts_served`: every interrupt of the timer and the keyboard is served by its own routine, no
  other one arrives, and the interrupted program goes on.
* `fault_registers`: a fault arrives in `fault_handler` with the registers at the fault.
-/

namespace EszOs

open Bytes

/-! ## The descriptor table -/

structure IDTEntry where
  baseLow : UInt16
  selector : UInt16
  ist : UInt8
  flags : UInt8
  baseMid : UInt16
  baseHigh : UInt32
  reserved : UInt32

/-- `idt`, by vector. -/
abbrev IDT := Nat → IDTEntry

/-- The entry that `idt_set_entry` writes. -/
def IDTEntry.forHandler (handler : UInt64) : IDTEntry where
  baseLow := (handler &&& 0xFFFF).toUInt16
  baseMid := ((handler >>> 16) &&& 0xFFFF).toUInt16
  baseHigh := ((handler >>> 32) &&& 0xFFFFFFFF).toUInt32
  selector := 0x28
  ist := 0
  flags := 0x8E
  reserved := 0

def idtSetEntry (idt : IDT) (n : Nat) (handler : UInt64) : IDT :=
  Function.update idt n (.forHandler handler)

/-- `idt_init`: no entry is present. -/
def idtInit (idt : IDT) : IDT := fun n => if n < 256 then { idt n with flags := 0 } else idt n

/-- Where the linker has put the routines. -/
structure Routines where
  isrStub : Nat → UInt64
  timerIsr : UInt64
  keyboardIsr : UInt64

def populateIdtEntries (routines : Routines) (idt : IDT) : IDT :=
  let idt := (List.range 32).foldl (fun idt n => idtSetEntry idt n (routines.isrStub n)) idt
  let idt := idtSetEntry idt 32 routines.timerIsr
  idtSetEntry idt 33 routines.keyboardIsr

/-- The address in an entry, as the processor reads it. -/
def IDTEntry.offset (e : IDTEntry) : UInt64 :=
  UInt64.ofNat (e.baseLow.toNat + e.baseMid.toNat * 2 ^ 16 + e.baseHigh.toNat * 2 ^ 32)

/-- A present 64-bit interrupt gate. -/
def IDTEntry.IsGate (e : IDTEntry) : Prop := e.flags &&& 0x9F = 0x8E

instance (e : IDTEntry) : Decidable e.IsGate := inferInstanceAs (Decidable (_ = _))

/-! ## The interrupt controllers -/

/-- The initialisation words after the first one. -/
inductive InitWord
  | offset | cascade | mode

/-- One controller with eight lines. -/
structure Pic where
  offset : Nat
  mask : Nat
  inService : Nat → Bool
  awaited : List InitWord

namespace Pic

/-- A byte for the command port: the first initialisation word, or the end of the interrupt with the
highest priority. -/
def command (p : Pic) (value : Nat) : Pic :=
  if value &&& 0x10 ≠ 0 then
    { p with
      mask := 0
      inService := fun _ => false
      awaited := [.offset] ++ (if value &&& 2 = 0 then [.cascade] else []) ++
        if value &&& 1 ≠ 0 then [.mode] else [] }
  else if value = 0x20 then
    match (List.range 8).find? p.inService with
    | none => p
    | some line => { p with inService := Function.update p.inService line false }
  else p

/-- A byte for the data port: the next initialisation word, or the mask. -/
def data (p : Pic) (value : Nat) : Pic :=
  match p.awaited with
  | [] => { p with mask := value }
  | .offset :: awaited => { p with offset := value &&& 0xF8, awaited }
  | _ :: awaited => { p with awaited }

/-- The answer to an interrupt of `line`: its vector. None comes if the line is masked, or if it or
one of higher priority is in service. -/
def acknowledge (p : Pic) (line : Nat) : Option (Nat × Pic) :=
  if p.mask.testBit line ∨ ∃ l ∈ List.range (line + 1), p.inService l then none
  else some (p.offset + line, { p with inService := Function.update p.inService line true })

end Pic

/-- Both controllers; the second one is on line 2 of the first one. -/
structure Pics where
  master : Pic
  slave : Pic

namespace Pics

/-- `outb`; the other ports belong to other devices. -/
def outb (p : Pics) (port value : Nat) : Pics :=
  if port = 0x20 then { p with master := p.master.command value }
  else if port = 0x21 then { p with master := p.master.data value }
  else if port = 0xA0 then { p with slave := p.slave.command value }
  else if port = 0xA1 then { p with slave := p.slave.data value }
  else p

def outbs (p : Pics) (writes : List (Nat × Nat)) : Pics := writes.foldl (fun p w => p.outb w.1 w.2) p

def acknowledge (p : Pics) (line : Fin 16) : Option (Nat × Pics) :=
  if line.val < 8 then
    (p.master.acknowledge line).map fun (vector, master) => (vector, { p with master })
  else
    (p.slave.acknowledge (line - 8)).bind fun (vector, slave) =>
      (p.master.acknowledge 2).map fun (_, master) => (vector, { master, slave })

end Pics

/-- The lines that `pic_init` leaves on: the timer and the keyboard. -/
def enabled (line : Fin 16) : Bool := line.val < 2

/-- The writes of `pit_init`. -/
def pitInit : List (Nat × Nat) :=
  [(0x43, 0x36), (0x40, (1193182 / pitTickHz) &&& 0xFF), (0x40, (1193182 / pitTickHz) >>> 8)]

/-- The writes of `pic_init`. -/
def picInit : List (Nat × Nat) :=
  [(0x20, 0x11), (0xA0, 0x11),
    (0x21, 0x20), (0xA1, 0x28),
    (0x21, 0x04), (0xA1, 0x02),
    (0x21, 0x01), (0xA1, 0x01),
    (0x21, 0xFC), (0xA1, 0xFF)]

/-- `EIO_Finished_Interrupt`, and the same write in `keyboard_handler`. -/
def eioFinishedInterrupt (p : Pics) : Pics := p.outb 0x20 0x20

/-! ## Interrupts -/

/-- What an interrupt works on; `served` are the lines that were served, each with the address of the
routine that ran. -/
structure InterruptState where
  idt : IDT
  pics : Pics
  cpu : Cpu
  served : List (Fin 16 × UInt64)

/-- `init_interrupts`; the keyboard bytes that are waiting do not concern the controllers. -/
def initInterrupts (routines : Routines) (s : InterruptState) : InterruptState where
  idt := populateIdtEntries routines (idtInit s.idt)
  pics := (s.pics.outbs pitInit).outbs picInit
  cpu := s.cpu
  served := []

/-- A device raises `line`. Both handlers end the interrupt at the controller once. `none` if the
vector has no gate. -/
def interrupt (code : UInt64 → List Instr) (s : InterruptState) (line : Fin 16) :
    Option InterruptState :=
  match s.pics.acknowledge line with
  | none => some s
  | some (vector, pics) =>
    if (s.idt vector).IsGate then
      some { s with
        cpu := (s.cpu.deliver (s.idt vector).offset (s.idt vector).selector.toUInt64 none).run
          (code (s.idt vector).offset)
        pics := eioFinishedInterrupt pics
        served := s.served ++ [(line, (s.idt vector).offset)] }
    else none

/-- A fault of the running program: the state at the call of `fault_handler`. -/
def fault (code : UInt64 → List Instr) (s : InterruptState) (vector : Nat) (errorCode : UInt64) :
    Option Cpu :=
  if (s.idt vector).IsGate then
    some ((s.cpu.deliver (s.idt vector).offset (s.idt vector).selector.toUInt64
      (if hasErrorCode vector then some errorCode else none)).run (code (s.idt vector).offset))
  else none

/-- The code at the addresses of the routines. -/
structure Linked (code : UInt64 → List Instr) (routines : Routines)
    (timerHandler keyboardHandler : Cpu → Cpu) : Prop where
  isrStub : ∀ n < 32, code (routines.isrStub n) = isrStubs.getD n [] ++ isrCommon
  timerIsr : code routines.timerIsr = EszOs.timerIsr timerHandler
  keyboardIsr : code routines.keyboardIsr = EszOs.keyboardIsr keyboardHandler

/-! ## The entries -/

/-- The three parts of the address make the address again. -/
@[simp] theorem offset_forHandler (handler : UInt64) : (IDTEntry.forHandler handler).offset = handler := by
  have h16 : ∀ n : Nat, n &&& 0xFFFF = n % 2 ^ 16 := fun n => Nat.and_two_pow_sub_one_eq_mod n 16
  have h32 : ∀ n : Nat, n &&& 0xFFFFFFFF = n % 2 ^ 32 := fun n => Nat.and_two_pow_sub_one_eq_mod n 32
  have hlt := handler.toNat_lt
  refine UInt64.toNat_inj.mp ?_
  simp only [IDTEntry.offset, IDTEntry.forHandler, UInt64.toNat_ofNat', UInt64.toNat_toUInt16,
    UInt64.toNat_toUInt32, UInt64.toNat_and, UInt64.toNat_shiftRight, UInt64.reduceToNat, Nat.reduceMod,
    h16, h32, Nat.shiftRight_eq_div_pow]
  omega

theorem isGate_forHandler (handler : UInt64) : (IDTEntry.forHandler handler).IsGate := by
  show (0x8E : UInt8) &&& 0x9F = 0x8E
  decide

theorem foldl_idtSetEntry (f : Nat → UInt64) (idt : IDT) (n v : Nat) :
    (List.range n).foldl (fun idt k => idtSetEntry idt k (f k)) idt v =
      if v < n then .forHandler (f v) else idt v := by
  induction n with
  | zero => simp
  | succ n ih =>
    rw [List.range_succ, List.foldl_append, List.foldl_cons, List.foldl_nil, idtSetEntry]
    by_cases hv : v = n
    · subst hv
      simp
    · rw [Function.update_of_ne hv, ih]
      by_cases hlt : v < n
      · rw [if_pos hlt, if_pos (by omega)]
      · rw [if_neg hlt, if_neg (by omega)]

section Entries

variable {routines : Routines} {idt : IDT} {v : Nat}

theorem populate_isrStub (h : v < 32) :
    populateIdtEntries routines idt v = .forHandler (routines.isrStub v) := by
  rw [populateIdtEntries, idtSetEntry, idtSetEntry, Function.update_of_ne (by omega),
    Function.update_of_ne (by omega), foldl_idtSetEntry, if_pos h]

theorem populate_timerIsr (routines : Routines) (idt : IDT) :
    populateIdtEntries routines idt 32 = .forHandler routines.timerIsr := by
  rw [populateIdtEntries, idtSetEntry, idtSetEntry, Function.update_of_ne (by decide),
    Function.update_self]

theorem populate_keyboardIsr (routines : Routines) (idt : IDT) :
    populateIdtEntries routines idt 33 = .forHandler routines.keyboardIsr := by
  rw [populateIdtEntries, idtSetEntry, Function.update_self]

end Entries

/-! ## The controllers after `pic_init` -/

theorem enabled_iff {line : Fin 16} : enabled line = true ↔ line.val < 2 := decide_eq_true_iff

/-- Lines 0 and 1 arrive, at the vectors 32 and 33, and nothing is in service. -/
structure Ready (p : Pics) : Prop where
  offset : p.master.offset = 32
  masterMask : p.master.mask = 0xFC
  slaveMask : p.slave.mask = 0xFF
  inService : ∀ line, p.master.inService line = false
  awaited : p.master.awaited = []

/-- Whatever state the controllers were in. -/
theorem ready_init (p : Pics) : Ready ((p.outbs pitInit).outbs picInit) where
  offset := rfl
  masterMask := rfl
  slaveMask := rfl
  inService _ := rfl
  awaited := rfl

variable {p : Pics} {line : Fin 16}

theorem acknowledge_masked (h : Ready p) (hline : 2 ≤ line.val) : p.acknowledge line = none := by
  have hmask : ∀ l : Fin 16, 2 ≤ l.val → l.val < 8 → (0xFC : Nat).testBit l = true := by decide
  have hslave : ∀ l : Fin 16, 8 ≤ l.val → (0xFF : Nat).testBit (l - 8) = true := by decide
  rw [Pics.acknowledge]
  split
  · rename_i hlt
    rw [Pic.acknowledge, h.masterMask, if_pos (.inl (hmask line hline hlt))]
    rfl
  · rename_i hle
    rw [Pic.acknowledge, h.slaveMask, if_pos (.inl (hslave line (Nat.le_of_not_lt hle)))]
    rfl

/-- The timer and the keyboard are acknowledged, and the end of the interrupt makes the controllers
ready again. -/
theorem acknowledge_unmasked (h : Ready p) (hline : line.val < 2) :
    ∃ p', p.acknowledge line = some (32 + line.val, p') ∧ Ready (eioFinishedInterrupt p') := by
  have hmask : ∀ l : Fin 16, l.val < 2 → ¬ (0xFC : Nat).testBit l = true := by decide
  obtain ⟨q, hq⟩ : ∃ q : Pic,
      q = { p.master with inService := Function.update p.master.inService line true } := ⟨_, rfl⟩
  have hmaster : p.master.acknowledge line = some (p.master.offset + line.val, q) := by
    rw [Pic.acknowledge, hq]
    refine if_neg ?_
    rw [h.masterMask]
    rintro (hbit | ⟨l, -, hl⟩)
    · exact hmask line hline hbit
    · rw [h.inService l] at hl
      cases hl
  refine ⟨{ p with master := q }, ?_, ?_⟩
  · rw [h.offset] at hmaster
    rw [Pics.acknowledge, if_pos (by omega), hmaster]
    rfl
  · have hfind : (List.range 8).find? q.inService = some line.val := by
      rw [hq]
      have hcases : line.val = 0 ∨ line.val = 1 := by omega
      rcases hcases with hl | hl <;> simp [hl, List.range_succ_eq_map, h.inService]
    have hcommand : q.command 0x20 = { q with inService := Function.update q.inService line false } := by
      rw [Pic.command, if_neg (by decide), if_pos rfl, hfind]
    have hidle : ∀ l, Function.update q.inService line.val false l = false := by
      intro l
      by_cases hl : l = line.val
      · rw [hl, Function.update_self]
      · rw [Function.update_of_ne hl, hq]
        exact (Function.update_of_ne hl _ _).trans (h.inService l)
    have hend : eioFinishedInterrupt { p with master := q } =
        { p with master := { q with inService := Function.update q.inService line false } } := by
      rw [eioFinishedInterrupt, Pics.outb, if_pos rfl, hcommand]
    rw [hend]
    exact
      { offset := by rw [hq]; exact h.offset
        masterMask := by rw [hq]; exact h.masterMask
        slaveMask := h.slaveMask
        inService := hidle
        awaited := by rw [hq]; exact h.awaited }

/-! ## Runs -/

/-- The routine of a line: `timer_isr` for the timer and `keyboard_isr` for the keyboard. -/
def Routines.ofLine (routines : Routines) (line : Fin 16) : UInt64 :=
  if line = 0 then routines.timerIsr else routines.keyboardIsr

/-- The lines that are on, each with its routine. -/
def Routines.services (routines : Routines) (lines : List (Fin 16)) : List (Fin 16 × UInt64) :=
  (lines.filter enabled).map fun line => (line, routines.ofLine line)

/-- What one interrupt keeps after `init_interrupts`. -/
structure Serving (routines : Routines) (s : InterruptState) : Prop where
  timerGate : s.idt 32 = .forHandler routines.timerIsr
  keyboardGate : s.idt 33 = .forHandler routines.keyboardIsr
  ready : Ready s.pics

theorem serving_init (routines : Routines) (s : InterruptState) :
    Serving routines (initInterrupts routines s) :=
  ⟨populate_timerIsr routines (idtInit s.idt), populate_keyboardIsr routines (idtInit s.idt),
    ready_init s.pics⟩

section Runs

variable {routines : Routines} {code : UInt64 → List Instr} {timerHandler keyboardHandler : Cpu → Cpu}
  {stackTop : Nat} {s : InterruptState}

/-- One interrupt: it is served exactly if it is one of the timer or the keyboard, and then by its own
routine. -/
theorem interrupt_serving (hlinked : Linked code routines timerHandler keyboardHandler)
    (htimer : Conforms stackTop timerHandler) (hkeyboard : Conforms stackTop keyboardHandler)
    (hroom : 128 ≤ s.cpu.sp.toNat) (htop : s.cpu.sp.toNat ≤ stackTop) (hs : Serving routines s)
    (line : Fin 16) :
    ∃ s', interrupt code s line = some s' ∧ Serving routines s' ∧ Resumes stackTop s.cpu s'.cpu ∧
      s'.served = s.served ++ routines.services [line] := by
  by_cases hline : line.val < 2
  · obtain ⟨pics, hack, hready⟩ := acknowledge_unmasked hs.ready hline
    -- the routine behind the gate of the line
    obtain ⟨handler, hconforms, hgate, hcode⟩ : ∃ handler, Conforms stackTop handler ∧
        s.idt (32 + line.val) = .forHandler (routines.ofLine line) ∧
          code (routines.ofLine line) = isr handler := by
      have hcases : line = 0 ∨ line = 1 := by omega
      rcases hcases with rfl | rfl
      · exact ⟨timerHandler, htimer, hs.timerGate, hlinked.timerIsr⟩
      · exact ⟨keyboardHandler, hkeyboard, hs.keyboardGate, hlinked.keyboardIsr⟩
    obtain ⟨cpu, hcpu⟩ : ∃ cpu, cpu = (s.cpu.deliver (routines.ofLine line)
        (IDTEntry.forHandler (routines.ofLine line)).selector.toUInt64 none).run (isr handler) :=
      ⟨_, rfl⟩
    refine ⟨{ s with
        cpu
        pics := eioFinishedInterrupt pics
        served := s.served ++ [(line, routines.ofLine line)] }, ?_,
      ⟨hs.timerGate, hs.keyboardGate, hready⟩, ?_, ?_⟩
    · rw [interrupt, hack]
      simp only [hgate, if_pos (isGate_forHandler _), offset_forHandler, hcode, ← hcpu]
    · rw [hcpu]
      exact isr_resumes hconforms s.cpu _ _ hroom htop
    · simp [Routines.services, enabled_iff.mpr hline]
  · refine ⟨s, ?_, hs, Resumes.refl stackTop s.cpu, ?_⟩
    · rw [interrupt, acknowledge_masked hs.ready (by omega)]
    · simp [Routines.services, mt enabled_iff.mp hline]

theorem services_cons (routines : Routines) (line : Fin 16) (lines : List (Fin 16)) :
    routines.services (line :: lines) = routines.services [line] ++ routines.services lines := by
  rw [Routines.services, Routines.services, Routines.services, ← List.map_append,
    ← List.filter_append]
  rfl

theorem interrupts_serving (hlinked : Linked code routines timerHandler keyboardHandler)
    (htimer : Conforms stackTop timerHandler) (hkeyboard : Conforms stackTop keyboardHandler)
    (hroom : 128 ≤ s.cpu.sp.toNat) (htop : s.cpu.sp.toNat ≤ stackTop) (hs : Serving routines s)
    (lines : List (Fin 16)) :
    ∃ s', lines.foldlM (interrupt code) s = some s' ∧ Serving routines s' ∧
      Resumes stackTop s.cpu s'.cpu ∧ s'.served = s.served ++ routines.services lines := by
  induction lines generalizing s with
  | nil => exact ⟨s, rfl, hs, Resumes.refl stackTop s.cpu, (List.append_nil _).symm⟩
  | cons line lines ih =>
    obtain ⟨s₁, h₁, hs₁, hres₁, hserved₁⟩ :=
      interrupt_serving hlinked htimer hkeyboard hroom htop hs line
    obtain ⟨s₂, h₂, hs₂, hres₂, hserved₂⟩ :=
      ih (by rw [hres₁.sp]; exact hroom) (by rw [hres₁.sp]; exact htop) hs₁
    refine ⟨s₂, ?_, hs₂, hres₁.trans hres₂, ?_⟩
    · rw [List.foldlM_cons, h₁]
      exact h₂
    · rw [hserved₂, hserved₁, List.append_assoc, ← services_cons]

/-- After `init_interrupts`, whatever the devices raise in any order: each interrupt of the timer and
the keyboard is served by its own routine, no other one is, none lacks its gate, and the interrupted
program goes on with its registers, flags and stack. -/
theorem interrupts_served (hlinked : Linked code routines timerHandler keyboardHandler)
    (htimer : Conforms stackTop timerHandler) (hkeyboard : Conforms stackTop keyboardHandler)
    (s : InterruptState) (hroom : 128 ≤ s.cpu.sp.toNat) (htop : s.cpu.sp.toNat ≤ stackTop)
    (lines : List (Fin 16)) :
    ∃ s', lines.foldlM (interrupt code) (initInterrupts routines s) = some s' ∧
      Resumes stackTop s.cpu s'.cpu ∧ s'.served = routines.services lines := by
  obtain ⟨s', hrun, -, hresumes, hserved⟩ :=
    interrupts_serving (s := initInterrupts routines s) hlinked htimer hkeyboard hroom htop
      (serving_init routines s) lines
  exact ⟨s', hrun, hresumes, hserved⟩

/-- A handler that changes every register it may and counts above the stack. -/
def countingHandler (s : Cpu) : Cpu :=
  { s with
    reg := fun r => if r ∈ callerSaved then 0 else s.reg r
    mem := store s.mem 0x10000 (s.mem 0x10000 + 1) }

theorem countingHandler_conforms : Conforms 0x10000 countingHandler where
  sp _ := rfl
  saved _ _ hr := if_neg hr
  stack _ _ _ hx := store_of_ne (Nat.ne_of_lt hx)

/-- Sixteen bytes for each stub, and more for the routines of the devices. -/
def smallRoutines : Routines where
  isrStub n := UInt64.ofNat (0x3000 + 16 * n)
  timerIsr := 0x1000
  keyboardIsr := 0x2000

def smallCode (a : UInt64) : List Instr :=
  if a = 0x1000 then timerIsr countingHandler
  else if a = 0x2000 then keyboardIsr countingHandler
  else isrStubs.getD ((a.toNat - 0x3000) / 16) [] ++ isrCommon

theorem smallCode_linked : Linked smallCode smallRoutines countingHandler countingHandler where
  isrStub n hn := by
    have hlt : 0x3000 + 16 * n < 2 ^ 64 := by omega
    have haddr : (smallRoutines.isrStub n).toNat = 0x3000 + 16 * n :=
      (UInt64.toNat_ofNat' (n := 0x3000 + 16 * n)).trans (Nat.mod_eq_of_lt hlt)
    have hne : ∀ a : UInt64, a.toNat < 0x3000 → smallRoutines.isrStub n ≠ a := by
      rintro a ha rfl
      omega
    rw [smallCode, if_neg (hne _ (by decide)), if_neg (hne _ (by decide)), haddr,
      Nat.add_sub_cancel_left, Nat.mul_div_cancel_left n (by decide)]
  timerIsr := rfl
  keyboardIsr := rfl

/-- A program at the address `0x4000` with 4096 bytes of stack. -/
def smallState : InterruptState where
  idt _ := ⟨0, 0, 0, 0, 0, 0, 0⟩
  pics := ⟨⟨8, 0, fun _ => true, []⟩, ⟨0x70, 0, fun _ => true, []⟩⟩
  cpu :=
    { reg := fun _ => 7, sp := 0xF000, mem := fun _ => 0, rip := 0x4000, cs := 0x28,
      rflags := 0x202, ss := 0x30 }
  served := []

/-- The timer, the disk (line 14) and the keyboard. -/
theorem interrupts_served_three :
    ∃ s', [0, 14, 1].foldlM (interrupt smallCode) (initInterrupts smallRoutines smallState) = some s' ∧
      Resumes 0x10000 smallState.cpu s'.cpu ∧
      s'.served = smallRoutines.services [0, 14, 1] :=
  interrupts_served smallCode_linked countingHandler_conforms countingHandler_conforms smallState
    (by decide) (by decide) [0, 14, 1]

/-- A fault of any of the processor's 32 vectors arrives in `fault_handler`, with a pointer to the
registers at the fault, the number of the vector and its error code. -/
theorem fault_registers (hlinked : Linked code routines timerHandler keyboardHandler)
    (s : InterruptState) (hroom : 192 ≤ s.cpu.sp.toNat) {vector : Nat} (h : vector < 32)
    (errorCode : UInt64) :
    ∃ cpu, fault code (initInterrupts routines s) vector errorCode = some cpu ∧
      registersAt cpu.mem (cpu.reg .rdi).toNat =
        s.cpu.registers (UInt64.ofNat vector) (if hasErrorCode vector then errorCode else 0) ∧
      cpu.sp.toNat % 16 = 0 ∧ ∀ x, s.cpu.sp.toNat ≤ x → cpu.mem x = s.cpu.mem x := by
  have hgate : (initInterrupts routines s).idt vector = .forHandler (routines.isrStub vector) :=
    populate_isrStub h
  refine ⟨_, ?_, faultState_registers (routines.isrStub vector)
    (IDTEntry.forHandler (routines.isrStub vector)).selector.toUInt64 errorCode h hroom⟩
  rw [fault, hgate, if_pos (isGate_forHandler _), offset_forHandler, hlinked.isrStub vector h]
  rfl

/-- A page fault (vector 14) on a write to a page that is not present. -/
theorem fault_registers_page :
    ∃ cpu, fault smallCode (initInterrupts smallRoutines smallState) 14 2 = some cpu ∧
      registersAt cpu.mem (cpu.reg .rdi).toNat =
        smallState.cpu.registers (UInt64.ofNat 14) (if hasErrorCode 14 then 2 else 0) ∧
      cpu.sp.toNat % 16 = 0 ∧
      ∀ x, smallState.cpu.sp.toNat ≤ x → cpu.mem x = smallState.cpu.mem x :=
  fault_registers smallCode_linked smallState (by decide) (by decide) 2

end Runs

end EszOs
