import EszOs.Lib.Pushes
import Mathlib.Tactic.IntervalCases

/-!
# Interrupt routines (`interrupts.asm`, `io/timer/timer.asm`, `io/keyboard/keyboard.asm`)

The routines of the timer and the keyboard save the registers that a C++ function may change, call
their handler and return to the interrupted program. A fault routine pushes all registers and hands
their address to `fault_handler`, which does not return.

The handlers are compiled code. Of them only the calling convention is used (`Conforms`).

* `isr_resumes`: after a routine of the timer or the keyboard the interrupted program goes on as if
  nothing had happened.
* `faultState_registers`: `fault_handler` finds the registers at the fault.
-/

namespace EszOs

open Bytes Pushes

/-! ## The processor -/

inductive Register
  | rax | rbx | rcx | rdx | rbp | rsi | rdi | r8 | r9 | r10 | r11 | r12 | r13 | r14 | r15
  deriving DecidableEq

/-- The state of the processor. `rip` is followed at the start and the end of a routine only. -/
structure Cpu extends Machine Register where
  rip : UInt64
  cs : UInt64
  rflags : UInt64
  ss : UInt64

/-- The instructions of the routines; a `call` is the whole C++ function with its return. -/
inductive Instr
  | push (r : Register)
  | pushImm (n : UInt64)
  | pop (r : Register)
  | movRsp (r : Register)
  | call (function : Cpu → Cpu)
  | iretq

namespace Cpu

def iretq (s : Cpu) : Cpu where
  reg := s.reg
  sp := word s.mem (s.sp.toNat + 24)
  mem := s.mem
  rip := word s.mem s.sp.toNat
  cs := word s.mem (s.sp.toNat + 8)
  rflags := word s.mem (s.sp.toNat + 16)
  ss := word s.mem (s.sp.toNat + 32)

def step (s : Cpu) : Instr → Cpu
  | .push r => { s with toMachine := Pushes.push s.toMachine (s.reg r) }
  | .pushImm n => { s with toMachine := Pushes.push s.toMachine n }
  | .pop r => { s with toMachine := Pushes.pop s.toMachine r }
  | .movRsp r => { s with reg := Function.update s.reg r s.sp }
  | .call function => function s
  | .iretq => s.iretq

def run (s : Cpu) (code : List Instr) : Cpu := code.foldl step s

/-- The stack pointer on an interrupt: down to a multiple of 16. -/
def alignedSp (s : Cpu) : UInt64 := s.sp - s.sp % 16

/-- An interrupt in 64-bit mode through an interrupt gate with the routine's address and code
segment; further interrupts are off then (bit 9 of `rflags`; the trap flag, bit 8, too). -/
def deliver (s : Cpu) (offset selector : UInt64) (errorCode : Option UInt64) : Cpu where
  toMachine := pushAll { s.toMachine with sp := s.alignedSp }
    ([s.ss, s.sp, s.rflags, s.cs, s.rip] ++ errorCode.toList)
  rip := offset
  cs := selector
  rflags := s.rflags &&& ~~~0x300
  ss := s.ss

end Cpu

/-! ## The routines -/

section Routines

open Register

/-- The registers that a C++ function may change. -/
def callerSaved : List Register := [rax, rcx, rdx, rsi, rdi, r8, r9, r10, r11]

/-- `timer_isr` and `keyboard_isr`, which differ in the function that they call. -/
def isr (handler : Cpu → Cpu) : List Instr :=
  callerSaved.map .push ++ [.call handler] ++ callerSaved.reverse.map .pop ++ [.iretq]

def timerIsr (timerHandler : Cpu → Cpu) : List Instr := isr timerHandler

def keyboardIsr (keyboardHandler : Cpu → Cpu) : List Instr := isr keyboardHandler

/-- A stub for a vector without an error code. -/
def stub (n : UInt64) : List Instr := [.pushImm 0, .pushImm n]

/-- A stub for a vector whose error code the processor has pushed. -/
def stubAfterCode (n : UInt64) : List Instr := [.pushImm n]

/-- `isr_stub_0` to `isr_stub_31`, up to the jump to `isr_common`. -/
def isrStubs : List (List Instr) :=
  [stub 0, stub 1, stub 2, stub 3, stub 4, stub 5, stub 6, stub 7, stubAfterCode 8, stub 9,
    stubAfterCode 10, stubAfterCode 11, stubAfterCode 12, stubAfterCode 13, stubAfterCode 14,
    stub 15, stub 16, stubAfterCode 17, stub 18, stub 19, stub 20, stubAfterCode 21, stub 22,
    stub 23, stub 24, stub 25, stub 26, stub 27, stub 28, stub 29, stub 30, stub 31]

/-- The pushes of `isr_common`. -/
def commonPushes : List Register :=
  [rax, rbx, rcx, rdx, rbp, rsi, rdi, r8, r9, r10, r11, r12, r13, r14, r15]

/-- `isr_common` up to the call of `fault_handler`. -/
def isrCommon : List Instr := commonPushes.map .push ++ [.movRsp rdi]

end Routines

/-- `struct Registers` of `idt_faults.h`. -/
structure Registers where
  r15 : UInt64
  r14 : UInt64
  r13 : UInt64
  r12 : UInt64
  r11 : UInt64
  r10 : UInt64
  r9 : UInt64
  r8 : UInt64
  rdi : UInt64
  rsi : UInt64
  rbp : UInt64
  rdx : UInt64
  rcx : UInt64
  rbx : UInt64
  rax : UInt64
  interruptNumber : UInt64
  errorCode : UInt64
  rip : UInt64
  cs : UInt64
  rflags : UInt64
  rsp : UInt64
  ss : UInt64

/-- The struct that is at address `a`. -/
def registersAt (m : Mem) (a : Nat) : Registers :=
  ⟨word m a, word m (a + 8), word m (a + 16), word m (a + 24), word m (a + 32), word m (a + 40),
    word m (a + 48), word m (a + 56), word m (a + 64), word m (a + 72), word m (a + 80),
    word m (a + 88), word m (a + 96), word m (a + 104), word m (a + 112), word m (a + 120),
    word m (a + 128), word m (a + 136), word m (a + 144), word m (a + 152), word m (a + 160),
    word m (a + 168)⟩

/-- The registers of a program. -/
def Cpu.registers (s : Cpu) (interruptNumber errorCode : UInt64) : Registers where
  r15 := s.reg .r15
  r14 := s.reg .r14
  r13 := s.reg .r13
  r12 := s.reg .r12
  r11 := s.reg .r11
  r10 := s.reg .r10
  r9 := s.reg .r9
  r8 := s.reg .r8
  rdi := s.reg .rdi
  rsi := s.reg .rsi
  rbp := s.reg .rbp
  rdx := s.reg .rdx
  rcx := s.reg .rcx
  rbx := s.reg .rbx
  rax := s.reg .rax
  interruptNumber
  errorCode
  rip := s.rip
  cs := s.cs
  rflags := s.rflags
  rsp := s.sp
  ss := s.ss

/-- The vectors for which the processor pushes an error code. -/
def hasErrorCode (vector : Nat) : Bool := vector ∈ [8, 10, 11, 12, 13, 14, 17, 21]

/-- The state in which `fault_handler` is called. -/
def faultState (s : Cpu) (offset selector : UInt64) (vector : Nat) (code : UInt64) : Cpu :=
  (s.deliver offset selector (if hasErrorCode vector then some code else none)).run
    (isrStubs.getD vector [] ++ isrCommon)

/-! ## The calling convention -/

/-- What compiled code keeps: the stack pointer, the callee-saved registers, and the stack up to its
top from the stack pointer on. -/
structure Conforms (stackTop : Nat) (function : Cpu → Cpu) : Prop where
  sp : ∀ s, (function s).sp = s.sp
  saved : ∀ s r, r ∉ callerSaved → (function s).reg r = s.reg r
  stack : ∀ s x, s.sp.toNat ≤ x → x < stackTop → (function s).mem x = s.mem x

/-- The program that was interrupted in `s` goes on in `s'` with the same registers, flags and
stack. -/
structure Resumes (stackTop : Nat) (s s' : Cpu) : Prop where
  reg : ∀ r, s'.reg r = s.reg r
  sp : s'.sp = s.sp
  rip : s'.rip = s.rip
  cs : s'.cs = s.cs
  rflags : s'.rflags = s.rflags
  ss : s'.ss = s.ss
  stack : ∀ x, s.sp.toNat ≤ x → x < stackTop → s'.mem x = s.mem x

namespace Resumes

variable {stackTop : Nat} {s s' s'' : Cpu}

theorem refl (stackTop : Nat) (s : Cpu) : Resumes stackTop s s :=
  ⟨fun _ => rfl, rfl, rfl, rfl, rfl, rfl, fun _ _ _ => rfl⟩

theorem trans (h : Resumes stackTop s s') (h' : Resumes stackTop s' s'') : Resumes stackTop s s'' where
  reg r := (h'.reg r).trans (h.reg r)
  sp := h'.sp.trans h.sp
  rip := h'.rip.trans h.rip
  cs := h'.cs.trans h.cs
  rflags := h'.rflags.trans h.rflags
  ss := h'.ss.trans h.ss
  stack x hx hx' := (h'.stack x (h.sp ▸ hx) hx').trans (h.stack x hx hx')

end Resumes

/-! ## Runs of pushes and pops -/

namespace Cpu

variable {s s' : Cpu} {offset selector : UInt64} {errorCode : Option UInt64}

theorem run_append (s : Cpu) (code code' : List Instr) :
    s.run (code ++ code') = (s.run code).run code' := List.foldl_append

theorem run_push (s : Cpu) (rs : List Register) :
    s.run (rs.map .push) = { s with toMachine := pushAll s.toMachine (rs.map s.reg) } := by
  induction rs generalizing s with
  | nil => rfl
  | cons r rs ih => exact ih (s.step (.push r))

theorem run_pop (s : Cpu) (rs : List Register) :
    s.run (rs.map .pop) = { s with toMachine := popAll s.toMachine rs } := by
  induction rs generalizing s with
  | nil => rfl
  | cons r rs ih => exact ih (s.step (.pop r))

theorem alignedSp_toNat (s : Cpu) : s.alignedSp.toNat = s.sp.toNat - s.sp.toNat % 16 := by
  have hmod : (s.sp % 16).toNat = s.sp.toNat % 16 := rfl
  have hle : s.sp % 16 ≤ s.sp := UInt64.le_iff_toNat_le.mpr (by rw [hmod]; exact Nat.mod_le _ _)
  rw [alignedSp, UInt64.toNat_sub_of_le _ _ hle, hmod]

/-- The number of bytes that the processor pushes. -/
def frameSize (errorCode : Option UInt64) : Nat := 8 * (5 + errorCode.toList.length)

theorem deliver_length (s : Cpu) (errorCode : Option UInt64) :
    8 * ([s.ss, s.sp, s.rflags, s.cs, s.rip] ++ errorCode.toList).length = frameSize errorCode := by
  rw [List.length_append]
  rfl

variable (offset selector errorCode) in
theorem deliver_sp (h : frameSize errorCode ≤ s.alignedSp.toNat) :
    (s.deliver offset selector errorCode).sp.toNat = s.alignedSp.toNat - frameSize errorCode := by
  rw [← s.deliver_length] at h ⊢
  exact pushAll_sp h

theorem deliver_mem {x : Nat} (h : frameSize errorCode ≤ s.alignedSp.toNat)
    (hx : s.alignedSp.toNat ≤ x) : (s.deliver offset selector errorCode).mem x = s.mem x := by
  rw [← s.deliver_length] at h
  exact pushAll_mem_above (s := { s.toMachine with sp := s.alignedSp }) h hx

variable (offset selector errorCode) in
theorem deliver_words (h : frameSize errorCode ≤ s.alignedSp.toNat) :
    Words (s.deliver offset selector errorCode).mem
      (s.deliver offset selector errorCode).sp.toNat
      (errorCode.toList.reverse ++ [s.rip, s.cs, s.rflags, s.sp, s.ss]) := by
  rw [← s.deliver_length] at h
  have hwords := pushAll_words (s := { s.toMachine with sp := s.alignedSp }) h
  rwa [List.reverse_append] at hwords

@[simp] theorem deliver_reg : (s.deliver offset selector errorCode).reg = s.reg := pushAll_reg _ _

/-- `iretq` after an interrupt without an error code, if its frame is still there. -/
theorem deliver_iretq (offset selector : UInt64) {stackTop : Nat} (h : 40 ≤ s.alignedSp.toNat)
    (hreg : ∀ r, s'.reg r = s.reg r) (hsp : s'.sp = (s.deliver offset selector none).sp)
    (hmem : ∀ x, s'.sp.toNat ≤ x → x < stackTop →
      s'.mem x = (s.deliver offset selector none).mem x)
    (htop : s.sp.toNat ≤ stackTop) : Resumes stackTop s s'.iretq := by
  have hlow : s'.sp.toNat = s.alignedSp.toNat - 40 := by rw [hsp]; exact deliver_sp offset selector none h
  have haligned := s.alignedSp_toNat
  have hframe : Words s'.mem s'.sp.toNat [s.rip, s.cs, s.rflags, s.sp, s.ss] := by
    refine Words.congr (hsp ▸ deliver_words offset selector none h) fun x hx hx' => hmem x hx ?_
    have hlen : x < s'.sp.toNat + 40 := hx'
    omega
  exact
    { reg := hreg
      sp := hframe 3 (by simp)
      rip := hframe 0 (by simp)
      cs := hframe 1 (by simp)
      rflags := hframe 2 (by simp)
      ss := hframe 4 (by simp)
      stack := fun x hx hx' => (hmem x (by omega) hx').trans (deliver_mem h (by omega)) }

end Cpu

/-! ## The timer and the keyboard -/

/-- After an interrupt of the timer or the keyboard the interrupted program goes on with its
registers, flags and stack. -/
theorem isr_resumes {stackTop : Nat} {handler : Cpu → Cpu} (hconforms : Conforms stackTop handler)
    (s : Cpu) (offset selector : UInt64) (hroom : 128 ≤ s.sp.toNat) (htop : s.sp.toNat ≤ stackTop) :
    Resumes stackTop s ((s.deliver offset selector none).run (isr handler)) := by
  obtain ⟨d, hd⟩ : ∃ d, d = s.deliver offset selector none := ⟨_, rfl⟩
  have haligned := s.alignedSp_toNat
  have hdsp : d.sp.toNat = s.alignedSp.toNat - 40 := by
    rw [hd]
    exact Cpu.deliver_sp offset selector none (show 40 ≤ _ by omega)
  have hlen : callerSaved.length = 9 := rfl
  have hwords : (callerSaved.map d.reg).length = 9 := by rw [List.length_map, hlen]
  -- the state in which the handler is called
  obtain ⟨p, hp⟩ : ∃ p : Cpu, p = { d with toMachine := pushAll d.toMachine (callerSaved.map d.reg) } :=
    ⟨_, rfl⟩
  have hpsp : p.sp.toNat = d.sp.toNat - 72 := by
    rw [hp]
    exact (pushAll_sp (by rw [hwords]; omega)).trans (by rw [hwords])
  have hrun : d.run (isr handler) =
      Cpu.iretq { handler p with toMachine := popAll (handler p).toMachine callerSaved.reverse } := by
    rw [isr, Cpu.run_append, Cpu.run_append, Cpu.run_append, Cpu.run_push, ← hp, Cpu.run_pop]
    rfl
  rw [← hd, hrun]
  have hstack : ∀ x, p.sp.toNat ≤ x → x < stackTop → (handler p).mem x = p.mem x :=
    hconforms.stack p
  obtain ⟨hsp, hreg⟩ := save_restore d.toMachine (handler p).toMachine callerSaved (by omega)
    ((hconforms.sp p).trans (by rw [hp])) (fun x hx hx' => by
      rw [hconforms.sp p] at hx
      exact (hstack x hx (by omega)).trans (by rw [hp]))
  refine Cpu.deliver_iretq offset selector (by omega) (fun r => ?_) ?_
    (fun x hx hx' => ?_) htop
  · refine (hreg r).trans ?_
    have hdreg : d.reg r = s.reg r := by rw [hd, Cpu.deliver_reg]
    by_cases hr : r ∈ callerSaved
    · rw [if_pos hr, hdreg]
    · rw [if_neg hr, hconforms.saved p r hr, ← hdreg, hp]
      exact congrFun (pushAll_reg d.toMachine _) r
  · rw [← hd]
    exact hsp
  · have hx : d.sp.toNat ≤ x := by rw [← hsp]; exact hx
    have hpop : (popAll (handler p).toMachine callerSaved.reverse).mem x = (handler p).mem x :=
      congrFun (popAll_mem _ _) x
    refine hpop.trans ((hstack x (by omega) hx').trans ?_)
    rw [hp, ← hd]
    exact pushAll_mem_above (by rw [hwords]; omega) hx

/-! ## The faults -/

section Faults

variable {s : Cpu} {vector : Nat}

/-- What the processor and the stub have pushed when `isr_common` starts. -/
def faultWords (s : Cpu) (vector : Nat) (code : UInt64) : List UInt64 :=
  [s.ss, s.sp, s.rflags, s.cs, s.rip, if hasErrorCode vector then code else 0, UInt64.ofNat vector]

/-- Every stub leaves an error code and its own number, the code being 0 where the processor has
none. -/
theorem run_isrStub (offset selector code : UInt64) (h : vector < 32) :
    (s.deliver offset selector (if hasErrorCode vector then some code else none)).run
        (isrStubs.getD vector []) =
      { s.deliver offset selector none with
        toMachine := pushAll { s.toMachine with sp := s.alignedSp } (faultWords s vector code) } := by
  interval_cases vector <;> rfl

theorem words_registersAt {m : Mem} {a : Nat} {r : Registers}
    (h : Words m a [r.r15, r.r14, r.r13, r.r12, r.r11, r.r10, r.r9, r.r8, r.rdi, r.rsi, r.rbp, r.rdx,
      r.rcx, r.rbx, r.rax, r.interruptNumber, r.errorCode, r.rip, r.cs, r.rflags, r.rsp, r.ss]) :
    registersAt m a = r := by
  simp only [words_cons, Nat.add_assoc, Nat.reduceAdd] at h
  simp only [registersAt, h]

/-- When `fault_handler` is called for any of the 32 vectors, its argument points to the registers at
the fault, with the number of the vector and the error code (0 where the processor has none). The
stack is aligned as a call requires, and what was on it is still there. -/
theorem faultState_registers (offset selector code : UInt64) (h : vector < 32) (hroom : 192 ≤ s.sp.toNat) :
    registersAt (faultState s offset selector vector code).mem
        ((faultState s offset selector vector code).reg .rdi).toNat =
      s.registers (UInt64.ofNat vector) (if hasErrorCode vector then code else 0) ∧
    (faultState s offset selector vector code).sp.toNat % 16 = 0 ∧
    ∀ x, s.sp.toNat ≤ x → (faultState s offset selector vector code).mem x = s.mem x := by
  have haligned := s.alignedSp_toNat
  obtain ⟨a, ha⟩ : ∃ a : Machine Register, a = { s.toMachine with sp := s.alignedSp } := ⟨_, rfl⟩
  obtain ⟨ws, hws⟩ : ∃ ws, ws = faultWords s vector code ++ commonPushes.map s.reg := ⟨_, rfl⟩
  have hlen : 8 * ws.length = 176 := by rw [hws]; rfl
  have hasp : a.sp.toNat = s.sp.toNat - s.sp.toNat % 16 := by rw [ha]; exact haligned
  have hmachine : faultState s offset selector vector code =
      Cpu.step { s.deliver offset selector none with toMachine := pushAll a ws } (.movRsp .rdi) := by
    have hreg : (pushAll a (faultWords s vector code)).reg = s.reg := by rw [pushAll_reg, ha]
    rw [faultState, Cpu.run_append, run_isrStub offset selector code h, isrCommon, Cpu.run_append, Cpu.run_push, ← ha,
      hreg, ← pushAll_append, ← hws]
    rfl
  have hmem : (faultState s offset selector vector code).mem = (pushAll a ws).mem := by
    rw [hmachine]
    rfl
  have hsp : (faultState s offset selector vector code).sp = (pushAll a ws).sp := by
    rw [hmachine]
    rfl
  have hrdi : (faultState s offset selector vector code).reg .rdi = (pushAll a ws).sp := by
    rw [hmachine]
    simp [Cpu.step]
  have hlow : (pushAll a ws).sp.toNat = a.sp.toNat - 176 := by
    rw [← hlen]
    exact pushAll_sp (by omega)
  rw [hmem, hsp, hrdi]
  refine ⟨words_registersAt ?_, by rw [hlow]; omega, fun x hx => ?_⟩
  · have hwords : Words (pushAll a ws).mem (pushAll a ws).sp.toNat ws.reverse :=
      pushAll_words (by omega)
    have hreverse : ws.reverse = (commonPushes.map s.reg).reverse ++ (faultWords s vector code).reverse := by
      rw [hws, List.reverse_append]
    rw [hreverse] at hwords
    exact hwords
  · rw [pushAll_mem_above (by omega) (by omega), ha]

end Faults

end EszOs
