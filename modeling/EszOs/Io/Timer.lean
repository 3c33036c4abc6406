import Mathlib.Order.Monotone.Defs
import EszOs.Io.AhciBuffers

/-!
# Sleeping (`io/timer/timer.cpp`) and the timeouts of `io/ahci/ahci.cpp`

`timer_handler` counts the ticks, a sleep reads the counter until it is high enough. The time of a
`Clock` is what these reads find.

* `sleepMs_returns`: a sleep ends if the ticks go on.
* `sleepMs_longEnough_iff`: it lasts long enough exactly if its milliseconds are whole ticks.
* `awaitTimed_busy`: the waits of the AHCI driver do not sleep at all.
-/

namespace EszOs

/-! ## Definitions -/

/-- What the reads of `ticks` find, one after the other. Between two of them `timer_handler` may have
added to it. -/
structure Clock where
  ticks : Nat → Nat
  mono : Monotone ticks

/-- `halt_till_tick` from read `k` on: the next read after it. -/
def haltTillTick (clock : Clock) (targetTick : Nat) : Nat → Nat → Option Nat
  | 0, _ => none
  | fuel + 1, k =>
    if clock.ticks k < targetTick then haltTillTick clock targetTick fuel (k + 1) else some (k + 1)

def sleepSec (clock : Clock) (sec fuel k : Nat) : Option Nat :=
  haltTillTick clock (u64 (clock.ticks k + u64 (pitTickHz * sec))) fuel (k + 1)

def sleepMs (clock : Clock) (ms fuel k : Nat) : Option Nat :=
  haltTillTick clock (u64 (clock.ticks k + u64 (ms * pitTickHz) / 1000)) fuel (k + 1)

/-- A sleep of `ms` milliseconds that starts at tick `t` never ends earlier than it should. -/
def SleepsLongEnough (t ms : Nat) : Prop :=
  ∀ (clock : Clock) (k fuel k' : Nat), clock.ticks k = t → sleepMs clock ms fuel k = some k' →
    ms * pitTickHz ≤ (clock.ticks (k' - 1) - t) * 1000

/-! ## The loop -/

variable {clock : Clock} {targetTick fuel k k' : Nat}

/-- The last read is the first one that finds the tick. -/
theorem haltTillTick_eq_some (h : haltTillTick clock targetTick fuel k = some k') :
    k < k' ∧ targetTick ≤ clock.ticks (k' - 1) ∧ ∀ i, k ≤ i → i + 1 < k' → clock.ticks i < targetTick := by
  induction fuel generalizing k with
  | zero => cases h
  | succ fuel ih =>
    rw [haltTillTick] at h
    split at h
    · rename_i hlt
      obtain ⟨h1, h2, h3⟩ := ih h
      refine ⟨by omega, h2, fun i hi hik => ?_⟩
      rcases Nat.eq_or_lt_of_le hi with rfl | hi
      · exact hlt
      · exact h3 i hi hik
    · rename_i hle
      cases h
      exact ⟨Nat.lt_succ_self k, Nat.le_of_not_lt hle, fun i hi hik => by omega⟩

/-- It ends with the first read that finds the tick. -/
theorem haltTillTick_of_reached {n : Nat} (hn : targetTick ≤ clock.ticks (k + n))
    (hbefore : ∀ i < n, clock.ticks (k + i) < targetTick) (hfuel : n < fuel) :
    haltTillTick clock targetTick fuel k = some (k + n + 1) := by
  induction n generalizing k fuel with
  | zero =>
    obtain ⟨fuel, rfl⟩ := Nat.exists_eq_add_one_of_ne_zero (Nat.ne_zero_of_lt hfuel)
    rw [Nat.add_zero] at hn ⊢
    rw [haltTillTick, if_neg (Nat.not_lt.mpr hn)]
  | succ n ih =>
    obtain ⟨fuel, rfl⟩ := Nat.exists_eq_add_one_of_ne_zero (Nat.ne_zero_of_lt hfuel)
    have hindex : ∀ i, k + 1 + i = k + (i + 1) := fun i => by omega
    have hfirst : clock.ticks k < targetTick := hbefore 0 (Nat.succ_pos n)
    have hrest : haltTillTick clock targetTick fuel (k + 1) = some (k + 1 + n + 1) :=
      ih (by rw [hindex]; exact hn) (fun i hi => by rw [hindex]; exact hbefore (i + 1) (by omega))
        (by omega)
    rw [haltTillTick, if_pos hfirst, hrest, hindex]

/-- While the ticks go on a sleep ends. -/
theorem sleepMs_returns (ms k : Nat) (h : ∀ t, ∃ i, t ≤ clock.ticks i) :
    ∃ fuel k', sleepMs clock ms fuel k = some k' := by
  classical
  obtain ⟨targetTick, htarget⟩ : ∃ t, t = u64 (clock.ticks k + u64 (ms * pitTickHz) / 1000) := ⟨_, rfl⟩
  have hex : ∃ n, targetTick ≤ clock.ticks (k + 1 + n) := by
    obtain ⟨i, hi⟩ := h targetTick
    exact ⟨i, hi.trans (clock.mono (by omega))⟩
  have hbefore : ∀ i < Nat.find hex, clock.ticks (k + 1 + i) < targetTick := fun i hi =>
    Nat.lt_of_not_le (Nat.find_min hex hi)
  refine ⟨Nat.find hex + 1, k + 1 + Nat.find hex + 1, ?_⟩
  rw [sleepMs, ← htarget]
  exact haltTillTick_of_reached (Nat.find_spec hex) hbefore (Nat.lt_succ_self _)

/-! ## Milliseconds -/

/-- The first two reads find tick `t`, then each read finds the next one. -/
def slowClock (t : Nat) : Clock where
  ticks k := t + (k - 1)
  mono i j h := by
    show t + (i - 1) ≤ t + (j - 1)
    omega

theorem sleepMs_slowClock {t ms : Nat} (h : t + ms * pitTickHz / 1000 < 2 ^ 64)
    (hms : ms * pitTickHz < 2 ^ 64) :
    sleepMs (slowClock t) ms (ms * pitTickHz / 1000 + 1) 0 = some (ms * pitTickHz / 1000 + 2) := by
  have hfirst : (slowClock t).ticks 0 = t := rfl
  have hlater : ∀ i, (slowClock t).ticks (0 + 1 + i) = t + i := fun i => by
    show t + (0 + 1 + i - 1) = t + i
    omega
  have hindex : 0 + 1 + ms * pitTickHz / 1000 + 1 = ms * pitTickHz / 1000 + 2 := by omega
  rw [sleepMs, hfirst, u64_of_lt hms, u64_of_lt h, ← hindex]
  refine haltTillTick_of_reached (hlater _).ge (fun i hi => ?_) (Nat.lt_succ_self _)
  rw [hlater]
  omega

/-- `sleep_ms` lasts long enough exactly if the milliseconds are a whole number of ticks. -/
theorem sleepsLongEnough_iff {t ms : Nat} (hms : ms * pitTickHz < 2 ^ 64)
    (h : t + ms * pitTickHz / 1000 < 2 ^ 64) :
    SleepsLongEnough t ms ↔ 1000 ∣ ms * pitTickHz := by
  constructor
  · intro hlong
    have hticks := hlong (slowClock t) 0 _ _ rfl (sleepMs_slowClock h hms)
    have hlast : (slowClock t).ticks (ms * pitTickHz / 1000 + 2 - 1) - t = ms * pitTickHz / 1000 := by
      show t + (ms * pitTickHz / 1000 + 2 - 1 - 1) - t = _
      omega
    rw [hlast] at hticks
    omega
  · rintro hdvd clock k fuel k' rfl hsleep
    rw [sleepMs, u64_of_lt hms, u64_of_lt h] at hsleep
    obtain ⟨-, hreached, -⟩ := haltTillTick_eq_some hsleep
    omega

/-- `sleep_sec` always does. -/
theorem sleepSec_longEnough {sec : Nat} (hsec : pitTickHz * sec < 2 ^ 64)
    (h : clock.ticks k + pitTickHz * sec < 2 ^ 64) (hsleep : sleepSec clock sec fuel k = some k') :
    pitTickHz * sec ≤ clock.ticks (k' - 1) - clock.ticks k := by
  rw [sleepSec, u64_of_lt hsec, u64_of_lt h] at hsleep
  obtain ⟨-, hreached, -⟩ := haltTillTick_eq_some hsleep
  omega

/-! ## The timeouts of the AHCI driver -/

/-- The loops that wait for the controller; two of them for a status that they are given. -/
inductive WaitLoop
  | taskFinish
  | fisReceiveEngine (awaitStatus : Nat)
  | commandListEngine (awaitStatus : Nat)
  | driveReady

namespace WaitLoop

/-- The condition of the loop, at read `i` of a status register. -/
def busy (c : Controller) : WaitLoop → Nat → Bool
  | taskFinish => fun i => c.CI i &&& 1 != 0
  | fisReceiveEngine awaitStatus => fun i => c.FR i != awaitStatus
  | commandListEngine awaitStatus => fun i => c.CR i != awaitStatus
  | driveReady => fun i => c.BSY i == 1 || c.DRDY i == 0

/-- The function of the driver. -/
def run (c : Controller) (s : AHCIState) : WaitLoop → Bool × AHCIState
  | taskFinish => s.awaitAHCITaskFinish c
  | fisReceiveEngine awaitStatus => s.awaitFisReceiveEngine c awaitStatus
  | commandListEngine awaitStatus => s.awaitCommandListEngine c awaitStatus
  | driveReady => s.awaitDriveReady c

theorem run_eq (c : Controller) (s : AHCIState) (w : WaitLoop) :
    w.run c s = AHCIState.awaitLoop (w.busy c) AHCIState.timeout s := by
  cases w <;> rfl

/-- A controller that makes the loop wait for good. -/
def stuck : WaitLoop → Controller
  | fisReceiveEngine awaitStatus => { Controller.idle with FR := fun _ => awaitStatus + 1 }
  | commandListEngine awaitStatus => { Controller.idle with CR := fun _ => awaitStatus + 1 }
  | _ => { Controller.idle with CI := fun _ => 1, BSY := fun _ => 1 }

theorem busy_stuck (w : WaitLoop) (i : Nat) : w.busy w.stuck i = true := by
  cases w <;> simp [busy, stuck]

end WaitLoop

/-- The loop of the wait functions with its sleeps: the result and the next read of the ticks; `i`
status registers were read. -/
def awaitTimed (busy : Nat → Bool) (clock : Clock) (fuel : Nat) : Nat → Nat → Nat → Option (Bool × Nat)
  | 0, _, k => some (false, k)
  | n + 1, i, k =>
    if busy i then (sleepMs clock 1 fuel k).bind (awaitTimed busy clock fuel n (i + 1))
    else some (true, k)

/-- The result is that of the loop without its sleeps. -/
theorem awaitTimed_fst {busy : Nat → Bool} {n k k' : Nat} {b : Bool} {s : AHCIState}
    (h : awaitTimed busy clock fuel n s.reads k = some (b, k')) : (s.awaitLoop busy n).1 = b := by
  induction n generalizing s k with
  | zero =>
    cases h
    rfl
  | succ n ih =>
    rw [awaitTimed] at h
    rw [AHCIState.awaitLoop]
    by_cases hbusy : busy s.reads = true
    · rw [if_pos hbusy] at h ⊢
      obtain ⟨k₁, -, hrest⟩ := Option.bind_eq_some_iff.mp h
      exact ih (s := { s with reads := s.reads + 1 }) hrest
    · rw [if_neg hbusy] at h ⊢
      cases h
      rfl

/-- One millisecond is no tick: the sleep reads the ticks twice and returns. -/
theorem sleepMs_one (k : Nat) : sleepMs clock 1 (fuel + 1) k = some (k + 2) := by
  have htarget : u64 (clock.ticks k + u64 (1 * pitTickHz) / 1000) ≤ clock.ticks (k + 1) :=
    calc u64 (clock.ticks k + u64 (1 * pitTickHz) / 1000)
      _ = u64 (clock.ticks k) := rfl
      _ ≤ clock.ticks k := Nat.mod_le _ _
      _ ≤ clock.ticks (k + 1) := clock.mono (Nat.le_succ k)
  exact haltTillTick_of_reached (n := 0) htarget (fun i hi => absurd hi (Nat.not_lt_zero i))
    (Nat.succ_pos fuel)

/-- The loop that is busy for good does not wait for any tick. -/
theorem awaitTimed_busy {busy : Nat → Bool} (hbusy : ∀ i, busy i = true) (n i k : Nat) :
    awaitTimed busy clock (fuel + 1) n i k = some (false, k + 2 * n) := by
  induction n generalizing i k with
  | zero => rfl
  | succ n ih =>
    rw [awaitTimed, if_pos (hbusy i), sleepMs_one, Option.bind_some, ih,
      show k + 2 + 2 * n = k + 2 * (n + 1) by omega]

/-- A timeout that is reported by the loop is never earlier than it should be. -/
def WaitsLongEnough (w : WaitLoop) (t : Nat) : Prop :=
  ∀ (c : Controller) (clock : Clock) (i k fuel k' : Nat), clock.ticks k = t →
    awaitTimed (w.busy c) clock fuel AHCIState.timeout i k = some (false, k') →
    AHCIState.timeout * pitTickHz ≤ (clock.ticks (k' - 1) - t) * 1000

/-- The ticks stand still. -/
def stillClock (t : Nat) : Clock := ⟨fun _ => t, fun _ _ _ => Nat.le_refl t⟩

theorem not_waitsLongEnough (w : WaitLoop) (t : Nat) : ¬ WaitsLongEnough w t := by
  intro h
  have hticks := h w.stuck (stillClock t) 0 0 1 _ rfl (awaitTimed_busy w.busy_stuck _ 0 0)
  have helapsed : (stillClock t).ticks (0 + 2 * AHCIState.timeout - 1) - t = 0 := Nat.sub_self t
  rw [helapsed] at hticks
  exact absurd hticks (by decide)

/-- A sleep lasts long enough exactly if its milliseconds are whole ticks; the waits of the AHCI
driver, a millisecond at a time, never do. -/
theorem sleep_longEnough_iff (t ms : Nat) (w : WaitLoop) (hms : ms * pitTickHz < 2 ^ 64)
    (h : t + ms * pitTickHz / 1000 < 2 ^ 64) :
    (SleepsLongEnough t ms ↔ 1000 ∣ ms * pitTickHz) ∧ ¬ WaitsLongEnough w t :=
  ⟨sleepsLongEnough_iff hms h, not_waitsLongEnough w t⟩

/-- Ten milliseconds are a tick. -/
theorem sleepsLongEnough_ten : SleepsLongEnough 0 10 :=
  (sleep_longEnough_iff 0 10 .taskFinish (by decide) (by decide)).1.mpr ⟨1, rfl⟩

/-- One millisecond is not. -/
theorem not_sleepsLongEnough_one :
    ¬ ∀ t ms, ms * pitTickHz < 2 ^ 64 → t + ms * pitTickHz / 1000 < 2 ^ 64 →
      SleepsLongEnough t ms ∧ ∀ w, WaitsLongEnough w t := by
  intro h
  exact not_waitsLongEnough .driveReady 0 ((h 0 1 (by decide) (by decide)).2 _)

end EszOs
