import Mathlib.Data.Nat.Bitwise
import EszOs.Io.AhciBuffers

/-!
# The ports with a drive (`find_ready_ports` in `io/ahci/ahci.cpp`)

`find_ready_ports` goes through the 32 ports. It starts each one that the controller has, with two
pages of its own, and keeps those behind which it finds a SATA drive.

* `preparePort_started`: what `preparePort` leaves behind when it returns true.
* `findReadyPorts_started`: all ports that are kept run, on pairwise distinct pages.
-/

namespace EszOs

open Bytes AHCIState

/-! ## Definitions -/

/-- The registers of the controller that say which ports there are and what is behind them. -/
structure Hba where
  PI : Nat
  SIG : Nat → Nat
  controller : Nat → Controller

/-- What `find_ready_ports` works on; the port of `ahci` is the one that it has looked at last. -/
structure HbaState where
  ahci : AHCIState
  ports : Nat → AHCIPorts

namespace HbaState

/-- `preparePort` for port `i`. -/
def preparePort (hba : Hba) (s : HbaState) (i : Nat) : Bool × HbaState :=
  let r := { s.ahci with port := s.ports i }.preparePort (hba.controller i)
  (r.1, { ahci := r.2, ports := Function.update s.ports i r.2.port })

/-- One turn of the loop: the indices in `outReadyPorts` and the state. -/
def tryPort (hba : Hba) (r : List Nat × HbaState) (i : Nat) : List Nat × HbaState :=
  if ¬ hba.PI.testBit i then r
  else
    let candidate := r.2.preparePort hba i
    if candidate.1 = false then (r.1, candidate.2)
    else if hba.SIG i ≠ 0x00000101 then (r.1, candidate.2)
    else (r.1 ++ [i], candidate.2)

/-- `find_ready_ports`, after the registers were mapped. -/
def findReadyPorts (hba : Hba) (s : HbaState) : List Nat × HbaState :=
  (List.range 32).foldl (tryPort hba) ([], s)

end HbaState

/-! ## Starting a port -/

section Start

variable {c : Controller} {s : AHCIState}

/-- A wait changes the counter of the reads only. -/
theorem awaitLoop_port (busy : Nat → Bool) (n : Nat) (s : AHCIState) :
    (awaitLoop busy n s).2.port = s.port := by
  obtain ⟨k, hk⟩ := awaitLoop_snd busy n s
  rw [hk]

/-- A port that was started runs. -/
theorem setSataPortStatus_started (h : (s.setSataPortStatus c true).1 = true) :
    (s.setSataPortStatus c true).2.port.ST = 1 ∧ (s.setSataPortStatus c true).2.port.FRE = 1 := by
  obtain ⟨r, hr⟩ : ∃ r, r = awaitFisReceiveEngine c { s with port := { s.port with FRE := 1 } } 1 :=
    ⟨_, rfl⟩
  obtain ⟨q, hq⟩ : ∃ q, q = awaitDriveReady c r.2 := ⟨_, rfl⟩
  have hfre : q.2.port.FRE = 1 := by
    rw [hq, awaitDriveReady, awaitLoop_port, hr, awaitFisReceiveEngine, awaitLoop_port]
  simp only [setSataPortStatus, ↓reduceIte, ← hr, ← hq] at h ⊢
  by_cases hfis : r.1 = false
  · rw [if_pos hfis, hfis] at h
    cases h
  · by_cases hready : q.1 = false
    · rw [if_neg hfis, if_pos hready, hready] at h
      cases h
    · rw [if_neg hfis, if_neg hready, awaitCommandListEngine, awaitLoop_port]
      exact ⟨rfl, hfre⟩

/-- The pages that `pmm_malloc_page` leaves in use. -/
theorem usedPages_pmmMallocPage {b : Bitmap} {addr : Nat} {bits : Mem}
    (h : pmmMallocPage b = some (addr, bits)) :
    ∃ p, addr = u64 (p * pageSize) ∧ b.Free p ∧
      ({ b with bitmap := bits } : Bitmap).usedPages = insert p b.usedPages := by
  obtain ⟨p, haddr, hfree, -, hbits⟩ := pmmMallocPage_some h
  refine ⟨p, haddr, hfree, Set.ext fun q => ?_⟩
  simp only [Bitmap.usedPages, Set.mem_ofPred_eq, Set.mem_insert_iff, hbits, Bool.or_eq_true,
    decide_eq_true_eq]

/-- What `preparePort` does to the PMM: it takes at most two pages. -/
theorem preparePort_pmm :
    (s.preparePort c).2.pmm.count = s.pmm.count ∧
      s.pmm.usedPages ⊆ (s.preparePort c).2.pmm.usedPages := by
  have hstop := sameBuffers_setSataPortStatus c s false
  have hstart := fun s => (sameBuffers_setSataPortStatus c s true).pmm
  have htake : ∀ s : AHCIState, ∀ r, pmmMallocPage s.pmm = some r →
      (s.setPmm r.2).pmm.count = s.pmm.count ∧ s.pmm.usedPages ⊆ (s.setPmm r.2).pmm.usedPages := by
    intro s r hr
    obtain ⟨p, -, -, hused⟩ := usedPages_pmmMallocPage hr
    exact ⟨rfl, by rw [setPmm_pmm, hused]; exact Set.subset_insert p _⟩
  simp only [AHCIState.preparePort]
  split
  · rw [hstop.pmm]
    exact ⟨rfl, subset_refl _⟩
  · rw [← hstop.pmm]
    obtain ⟨t, ht⟩ : ∃ t, t = (s.setSataPortStatus c false).2 := ⟨_, rfl⟩
    rw [← ht]
    cases hlist : pmmMallocPage t.pmm with
    | none =>
      simp only [Option.elim_none]
      cases hfb : pmmMallocPage t.pmm with
      | none => exact ⟨rfl, subset_refl _⟩
      | some q => rw [hfb] at hlist; cases hlist
    | some p =>
      have hp := htake t p hlist
      simp only [Option.elim_some]
      cases hfb : pmmMallocPage (t.setPmm p.2).pmm with
      | none => exact hp
      | some q =>
        have hq := htake (t.setPmm p.2) q hfb
        simp only [Option.elim_some, hstart]
        exact ⟨hq.1.trans hp.1, hp.2.trans hq.2⟩

end Start

/-- Port `i` of `s` runs with its command list in page `p` and its FIS area in page `q`, which were
free in `b`. -/
structure Started (b : Bitmap) (s : AHCIState) (port : AHCIPorts) (p q : Nat) : Prop where
  freeList : b.Free p
  freeFis : b.Free q
  usedList : p ∈ s.pmm.usedPages
  usedFis : q ∈ s.pmm.usedPages
  CLB : port.CLB = p * pageSize
  CLBU : port.CLBU = 0
  FB : port.FB = q * pageSize
  FBU : port.FBU = 0
  ST : port.ST = 1
  FRE : port.FRE = 1

/-- The address of a page below 4 GiB fits into a register. -/
theorem u32_page {b : Bitmap} {p : Nat} (hlow : b.count ≤ 2 ^ 20) (h : b.Free p) :
    u32 (u64 (p * pageSize)) = p * pageSize := by
  have hp := h.1
  rw [u64_of_lt (by rw [pageSize]; omega), u32_of_lt (by rw [pageSize]; omega)]

theorem preparePort_started {c : Controller} {s : AHCIState} (hlow : s.pmm.count ≤ 2 ^ 20)
    (h : (s.preparePort c).1 = true) :
    ∃ p q, p ≠ q ∧ Started s.pmm (s.preparePort c).2 (s.preparePort c).2.port p q := by
  have hstop := sameBuffers_setSataPortStatus c s false
  have hstopped : (s.setSataPortStatus c false).1 = true := by
    by_contra hne
    simp [AHCIState.preparePort, Bool.eq_false_iff.mpr hne] at h
  cases hlist : pmmMallocPage s.pmm with
  | none => simp [AHCIState.preparePort, hstopped, hstop.pmm, hlist] at h
  | some r =>
    obtain ⟨commandList, bits⟩ := r
    cases hfb : pmmMallocPage { s.pmm with bitmap := bits } with
    | none => simp [AHCIState.preparePort, hstopped, hstop.pmm, hlist, hfb] at h
    | some r' =>
      obtain ⟨fb, bits'⟩ := r'
      obtain ⟨hclb, hclbu, hfbReg, hfbu⟩ := preparePort_registers hstopped hlist hfb
      obtain ⟨p, rfl, hp, hused⟩ := usedPages_pmmMallocPage hlist
      obtain ⟨q, rfl, hq, hused'⟩ := usedPages_pmmMallocPage hfb
      have hqp : ¬ q ∈ insert p s.pmm.usedPages := by
        rw [← hused]
        exact fun hmem => Bool.eq_false_iff.mp hq.2 hmem
      have hpmm : (s.preparePort c).2.pmm = { s.pmm with bitmap := bits' } := by
        simp only [AHCIState.preparePort, hstopped, Bool.true_eq_false, ↓reduceIte, hstop.pmm, hlist,
          Option.elim_some, setPmm_pmm, hfb]
        rw [(sameBuffers_setSataPortStatus c _ true).pmm]
        rfl
      have hrun : (s.preparePort c).2.port.ST = 1 ∧ (s.preparePort c).2.port.FRE = 1 := by
        simp only [AHCIState.preparePort, hstopped, Bool.true_eq_false, ↓reduceIte, hstop.pmm, hlist,
          Option.elim_some, setPmm_pmm, hfb] at h ⊢
        exact setSataPortStatus_started h
      have husedEnd : (s.preparePort c).2.pmm.usedPages = insert q (insert p s.pmm.usedPages) := by
        rw [hpmm, ← hused]
        exact hused'
      have hqFree : s.pmm.Free q :=
        ⟨hq.1, Bool.eq_false_iff.mpr fun hmem => hqp (Set.mem_insert_of_mem p hmem)⟩
      refine ⟨p, q, fun heq => hqp (heq ▸ Set.mem_insert p _), ?_⟩
      exact
        { freeList := hp
          freeFis := hqFree
          usedList := by rw [husedEnd]; exact Set.mem_insert_of_mem q (Set.mem_insert p _)
          usedFis := by rw [husedEnd]; exact Set.mem_insert q _
          CLB := hclb.trans (u32_page hlow hp)
          CLBU := hclbu
          FB := hfbReg.trans (u32_page hlow hqFree)
          FBU := hfbu
          ST := hrun.1
          FRE := hrun.2 }

/-! ## The loop -/

variable {b : Bitmap} {hba : Hba}

theorem Started.mono {s s' : AHCIState} {port : AHCIPorts} {p q : Nat} (h : Started b s port p q)
    (hused : s.pmm.usedPages ⊆ s'.pmm.usedPages) : Started b s' port p q :=
  { h with usedList := hused h.usedList, usedFis := hused h.usedFis }

/-- The pages of the ports in `ready`. -/
def portPages (pages : Nat → Nat × Nat) (ready : List Nat) : List Nat :=
  ready.flatMap fun i => [(pages i).1, (pages i).2]

/-- What holds when the loop has looked at the first `n` ports; `b` is the bitmap before it. -/
structure PortsInv (b : Bitmap) (hba : Hba) (n : Nat) (r : List Nat × HbaState) : Prop where
  count : r.2.ahci.pmm.count = b.count
  used : b.usedPages ⊆ r.2.ahci.pmm.usedPages
  kept : ∀ i ∈ r.1, i < n ∧ hba.PI.testBit i = true ∧ hba.SIG i = 0x00000101
  started : ∃ pages, (portPages pages r.1).Nodup ∧
    ∀ i ∈ r.1, Started b r.2.ahci (r.2.ports i) (pages i).1 (pages i).2

namespace PortsInv

variable {n : Nat} {r : List Nat × HbaState}

/-- Looking at the next port without keeping it. -/
theorem skip (h : PortsInv b hba n r) {s : HbaState} (hcount : s.ahci.pmm.count = r.2.ahci.pmm.count)
    (hused : r.2.ahci.pmm.usedPages ⊆ s.ahci.pmm.usedPages)
    (hports : ∀ i < n, s.ports i = r.2.ports i) : PortsInv b hba (n + 1) (r.1, s) := by
  obtain ⟨pages, hnodup, hstarted⟩ := h.started
  refine
    { count := hcount.trans h.count
      used := h.used.trans hused
      kept := fun i hi => ⟨Nat.lt_succ_of_lt (h.kept i hi).1, (h.kept i hi).2⟩
      started := ⟨pages, hnodup, fun i hi => ?_⟩ }
  rw [hports i (h.kept i hi).1]
  exact (hstarted i hi).mono hused

/-- Keeping it: its pages were free, and those of the other ports are in use. -/
theorem keep (h : PortsInv b hba n r) {s : HbaState} {p q : Nat}
    (hcount : s.ahci.pmm.count = r.2.ahci.pmm.count)
    (hused : r.2.ahci.pmm.usedPages ⊆ s.ahci.pmm.usedPages)
    (hports : ∀ i < n, s.ports i = r.2.ports i) (hPI : hba.PI.testBit n = true)
    (hSIG : hba.SIG n = 0x00000101) (hpq : p ≠ q)
    (hnew : Started r.2.ahci.pmm s.ahci (s.ports n) p q) :
    PortsInv b hba (n + 1) (r.1 ++ [n], s) := by
  have hskip := h.skip hcount hused hports
  obtain ⟨pages, hnodup, hstarted⟩ := h.started
  have hfree : ∀ {x}, r.2.ahci.pmm.Free x → b.Free x := fun {x} hx =>
    ⟨h.count ▸ hx.1, Bool.eq_false_iff.mpr fun hmem => Bool.eq_false_iff.mp hx.2 (h.used hmem)⟩
  -- a page of an earlier port is in use before this one starts
  have hold : ∀ x ∈ portPages pages r.1, x ∈ r.2.ahci.pmm.usedPages := by
    intro x hx
    obtain ⟨i, hi, hx⟩ := List.mem_flatMap.mp hx
    rcases List.mem_pair.mp hx with rfl | rfl
    · exact (hstarted i hi).usedList
    · exact (hstarted i hi).usedFis
  have hother : ∀ i ∈ r.1, Function.update pages n (p, q) i = pages i := fun i hi =>
    Function.update_of_ne (Nat.ne_of_lt (h.kept i hi).1) _ _
  have hpages : portPages (Function.update pages n (p, q)) (r.1 ++ [n]) =
      portPages pages r.1 ++ [p, q] := by
    rw [portPages, List.flatMap_append]
    refine congrArg₂ (· ++ ·) (List.flatMap_congr fun i hi => by rw [hother i hi]) ?_
    simp
  refine
    { count := hskip.count
      used := hskip.used
      kept := fun i hi => ?_
      started := ⟨Function.update pages n (p, q), ?_, fun i hi => ?_⟩ }
  · rcases List.mem_append.mp hi with hi | hi
    · exact hskip.kept i hi
    · rw [List.mem_singleton.mp hi]
      exact ⟨Nat.lt_succ_self n, hPI, hSIG⟩
  · rw [hpages]
    refine List.Nodup.append hnodup (by simp [hpq]) ?_
    intro x hx hx'
    rcases List.mem_pair.mp hx' with rfl | rfl
    · exact Bool.eq_false_iff.mp hnew.freeList.2 (hold _ hx)
    · exact Bool.eq_false_iff.mp hnew.freeFis.2 (hold _ hx)
  · rcases List.mem_append.mp hi with hi | hi
    · rw [hother i hi, hports i (h.kept i hi).1]
      exact (hstarted i hi).mono hused
    · rw [List.mem_singleton.mp hi, Function.update_self]
      exact { hnew with freeList := hfree hnew.freeList, freeFis := hfree hnew.freeFis }

theorem step (hlow : b.count ≤ 2 ^ 20) (h : PortsInv b hba n r) :
    PortsInv b hba (n + 1) (HbaState.tryPort hba r n) := by
  obtain ⟨r', hr'⟩ : ∃ r', r' = r.2.preparePort hba n := ⟨_, rfl⟩
  obtain ⟨hcount, hused⟩ := preparePort_pmm (c := hba.controller n)
    (s := { r.2.ahci with port := r.2.ports n })
  have hports : ∀ i < n, r'.2.ports i = r.2.ports i := fun i hi => by
    rw [hr']
    exact Function.update_of_ne (Nat.ne_of_lt hi) _ _
  rw [HbaState.tryPort]
  split
  · exact h.skip rfl (subset_refl _) fun _ _ => rfl
  · rename_i hPI
    simp only [← hr']
    have hskip : PortsInv b hba (n + 1) (r.1, r'.2) := h.skip (hr' ▸ hcount) (hr' ▸ hused) hports
    split
    · exact hskip
    · rename_i hready
      split
      · exact hskip
      · rename_i hSIG
        obtain ⟨p, q, hpq, hnew⟩ := preparePort_started (c := hba.controller n)
          (s := { r.2.ahci with port := r.2.ports n }) (h.count.le.trans hlow)
          (by rw [hr'] at hready; exact Bool.not_eq_false _ ▸ hready)
        refine h.keep (hr' ▸ hcount) (hr' ▸ hused) hports (by simpa using hPI) (by simpa using hSIG)
          hpq ?_
        have hport : r'.2.ports n =
            ({ r.2.ahci with port := r.2.ports n }.preparePort (hba.controller n)).2.port := by
          rw [hr']
          exact Function.update_self _ _ _
        rw [hport, hr']
        exact hnew

end PortsInv

/-- After the first `n` ports. -/
theorem portsInv_range (s : HbaState) (hlow : s.ahci.pmm.count ≤ 2 ^ 20) (n : Nat) :
    PortsInv s.ahci.pmm hba n ((List.range n).foldl (HbaState.tryPort hba) ([], s)) := by
  induction n with
  | zero =>
    exact
      { count := rfl
        used := subset_refl _
        kept := fun i hi => by cases hi
        started := ⟨fun _ => (0, 0), List.nodup_nil, fun i hi => by cases hi⟩ }
  | succ n ih =>
    rw [List.range_succ, List.foldl_append]
    exact ih.step hlow

/-- The state in which the loop comes to port `i`. -/
def HbaState.turn (hba : Hba) (s : HbaState) (i : Nat) : HbaState :=
  ((List.range i).foldl (tryPort hba) ([], s)).2

/-- The ports that are kept: the controller has them, they start, and a SATA drive is behind them. -/
theorem mem_tryPorts (s : HbaState) (n i : Nat) :
    i ∈ ((List.range n).foldl (HbaState.tryPort hba) ([], s)).1 ↔
      i < n ∧ hba.PI.testBit i = true ∧ ((s.turn hba i).preparePort hba i).1 = true ∧
        hba.SIG i = 0x00000101 := by
  induction n with
  | zero => simp
  | succ n ih =>
    obtain ⟨r, hr⟩ : ∃ r, r = (List.range n).foldl (HbaState.tryPort hba) ([], s) := ⟨_, rfl⟩
    have hturn : s.turn hba n = r.2 := by rw [HbaState.turn, hr]
    have hsucc : (List.range (n + 1)).foldl (HbaState.tryPort hba) ([], s) =
        HbaState.tryPort hba r n := by
      rw [List.range_succ, List.foldl_append, ← hr]
      rfl
    rw [← hr] at ih
    have hkept : i ∈ (HbaState.tryPort hba r n).1 ↔ i ∈ r.1 ∨ i = n ∧ hba.PI.testBit n = true ∧
        (r.2.preparePort hba n).1 = true ∧ hba.SIG n = 0x00000101 := by
      rw [HbaState.tryPort]
      by_cases hPI : hba.PI.testBit n = true
      · by_cases hready : (r.2.preparePort hba n).1 = true
        · by_cases hSIG : hba.SIG n = 0x00000101 <;> simp [hPI, hready, hSIG]
        · simp [hPI, hready]
      · simp [hPI]
    rw [hsucc, hkept, ih, ← hturn]
    constructor
    · rintro (⟨hlt, h⟩ | ⟨rfl, h⟩)
      · exact ⟨Nat.lt_succ_of_lt hlt, h⟩
      · exact ⟨Nat.lt_succ_self _, h⟩
    · rintro ⟨hlt, h⟩
      rcases Nat.eq_or_lt_of_le (Nat.le_of_lt_succ hlt) with rfl | hlt
      · exact .inr ⟨rfl, h⟩
      · exact .inl ⟨hlt, h⟩

/-- The ports are listed in order. -/
theorem pairwise_tryPorts (s : HbaState) (n : Nat) :
    ((List.range n).foldl (HbaState.tryPort hba) ([], s)).1.Pairwise (· < ·) := by
  induction n with
  | zero => exact List.Pairwise.nil
  | succ n ih =>
    have hlt : ∀ i ∈ ((List.range n).foldl (HbaState.tryPort hba) ([], s)).1, i < n :=
      fun i hi => ((mem_tryPorts s n i).mp hi).1
    rw [List.range_succ, List.foldl_append, List.foldl_cons, List.foldl_nil]
    generalize (List.range n).foldl (HbaState.tryPort hba) ([], s) = r at ih hlt
    have hkeep : (r.1 ++ [n]).Pairwise (· < ·) := by
      refine List.pairwise_append.mpr ⟨ih, List.pairwise_singleton _ _, fun i hi j hj => ?_⟩
      rw [List.mem_singleton.mp hj]
      exact hlt i hi
    simp only [HbaState.tryPort]
    split_ifs <;> assumption

/-- `find_ready_ports` lists, in their order, exactly the ports that the controller has, that start
and that have a SATA drive. With memory below 4 GiB each of them runs with a command list and a FIS
area of its own: pages that were free, that are in use now and that no other one of them has. -/
theorem findReadyPorts_started (hba : Hba) (s : HbaState) :
    (∀ i, i ∈ (s.findReadyPorts hba).1 ↔ i < 32 ∧ hba.PI.testBit i = true ∧
        ((s.turn hba i).preparePort hba i).1 = true ∧ hba.SIG i = 0x00000101) ∧
      (s.findReadyPorts hba).1.Pairwise (· < ·) ∧
      (s.ahci.pmm.count ≤ 2 ^ 20 → ∃ pages, (portPages pages (s.findReadyPorts hba).1).Nodup ∧
        ∀ i ∈ (s.findReadyPorts hba).1, Started s.ahci.pmm (s.findReadyPorts hba).2.ahci
          ((s.findReadyPorts hba).2.ports i) (pages i).1 (pages i).2) :=
  ⟨mem_tryPorts s 32, pairwise_tryPorts s 32, fun hlow => (portsInv_range s hlow 32).started⟩

/-- Ports 0, 2 and 3 exist; port 2 has no SATA drive. -/
def smallHba : Hba where
  PI := 0b1101
  SIG i := if i = 2 then 0xEB140101 else 0x00000101
  controller _ := ⟨fun _ => 0, fun k => if k % 5 < 2 then 0 else 1, fun k => if k % 5 < 2 then 0 else 1,
    fun _ => 0, fun _ => 1, fun _ m => m⟩

def smallHbaState : HbaState where
  ahci := .fresh ⟨fun _ => 0, 64⟩
  ports _ := ⟨0, 0, 0, 0, 0, 0, 0⟩

theorem findReadyPorts_started_small :
    ∃ pages, (portPages pages (smallHbaState.findReadyPorts smallHba).1).Nodup ∧
      ∀ i ∈ (smallHbaState.findReadyPorts smallHba).1,
        Started smallHbaState.ahci.pmm (smallHbaState.findReadyPorts smallHba).2.ahci
          ((smallHbaState.findReadyPorts smallHba).2.ports i) (pages i).1 (pages i).2 :=
  (findReadyPorts_started smallHba smallHbaState).2.2 (by decide)

end EszOs
