import Azure.Reasoning.SignedRange
import Azure.Timer.Model

/-!
# Hooked sleeping (`sleep`, `usleep` and `nanosleep` of `hook.cpp`)

Each call makes a timer that schedules its fiber, after a delay it works out in types of its own:
`unsigned int`, `useconds_t`, and `long` with an `int` in the end.
-/

namespace Azure

open Reasoning

/-- A valid `struct timespec`. -/
structure Timespec where
  tv_sec : Int64
  tv_nsec : Int64
  sec_nonneg : 0 ≤ tv_sec.toInt
  nsec_nonneg : 0 ≤ tv_nsec.toInt
  nsec_lt : tv_nsec.toInt < 10 ^ 9

inductive SleepCall where
  | sleep (seconds : UInt32)
  | usleep (usec : UInt32)
  | nanosleep (req : Timespec)

namespace SleepCall

/-- `req->tv_sec * 1000 + req->tv_nsec / 1000 / 1000` in `long`, which may overflow, and then the
value as an `int`. -/
def timeoutMs (req : Timespec) : Option Int32 := do
  let ms ← checkedInt 64 (req.tv_sec.toInt * 1000)
  let sum ← checkedInt 64 (ms + (req.tv_nsec.toInt.tdiv 1000).tdiv 1000)
  pure (Int32.ofInt sum)

def delay : SleepCall → Option UInt64
  | sleep seconds => some (seconds * 1000).toUInt64
  | usleep usec => some (usec / 1000).toUInt64
  | nanosleep req => (timeoutMs req).map fun ms => ms.toInt64.toUInt64

/-- The call up to `YieldToHold`: the timer is made at `a`. -/
def addTimer {F W : Type} (c : SleepCall) (m : TimerManager F W) (a : Addr) (schedule : F)
    (now : UInt64) : Option (Bool × TimerManager F W) :=
  c.delay.map fun ms => m.addTimer a ms (some (.fn schedule)) false now

def requested : SleepCall → Nat
  | sleep seconds => seconds.toNat * 1000
  | usleep usec => usec.toNat / 1000
  | nanosleep req => (req.tv_sec.toInt.toNat * 10 ^ 9 + req.tv_nsec.toInt.toNat) / 10 ^ 6

def Fits : SleepCall → Prop
  | sleep seconds => seconds.toNat * 1000 < 2 ^ 32
  | usleep _ => True
  | nanosleep req => requested (nanosleep req) < 2 ^ 31

/-- The timer runs for the duration asked for. -/
def Exact (c : SleepCall) : Prop :=
  ∀ (F W : Type) (m : TimerManager F W) (a : Addr) (schedule : F) (now : UInt64),
    ∃ r, c.addTimer m a schedule now = some r ∧
      ∃ t, r.2.heap a = some t ∧ t.ms.toNat = c.requested ∧ t.next = now + t.ms

theorem exact_iff_delay {c : SleepCall} : c.Exact ↔ c.delay.map UInt64.toNat = some c.requested := by
  constructor
  · intro h
    rcases h Unit Unit (.new 0) 0 () 0 with ⟨r, hr, t, ht, hms, -⟩
    rcases Option.map_eq_some_iff.mp hr with ⟨ms, hdelay, rfl⟩
    have hmade : some ({ ms, next := 0 + ms, cb := some (.fn ()) } : Timer Unit Unit) = some t := by
      rw [← ht]
      simp [TimerManager.addTimer, TimerManager.addTimerLocked, TimerHeap.store]
    rw [hdelay, Option.map_some, ← hms, ← Option.some.inj hmade]
  · intro h F W m a schedule now
    rcases Option.map_eq_some_iff.mp h with ⟨ms, hdelay, hms⟩
    refine ⟨m.addTimer a ms (some (.fn schedule)) false now, ?_,
      { ms, next := now + ms, cb := some (.fn schedule) }, ?_, hms, rfl⟩
    · rw [SleepCall.addTimer, hdelay, Option.map_some]
    · simp [TimerManager.addTimer, TimerManager.addTimerLocked, TimerHeap.store]

/-- A count of milliseconds comes through the `int` when it is in the range of that. -/
theorem toNat_widen_iff {x : Int} (hlo : 0 ≤ x) (hhi : x < 2 ^ 63) :
    (Int32.ofInt x).toInt64.toUInt64.toNat = x.toNat ↔ x < 2 ^ 31 := by
  have hwide : (Int32.ofInt x).toInt64.toInt =
      ((Int32.ofInt x).toInt64.toUInt64.toNat : Int).bmod (2 ^ 64) :=
    BitVec.toInt_eq_toNat_bmod (Int32.ofInt x).toInt64.toBitVec
  have hnarrow : (Int32.ofInt x).toInt = x.bmod (2 ^ 32) := Int32.toInt_ofInt
  have hlt := (Int32.ofInt x).toInt64.toUInt64.toNat_lt
  rw [Int32.toInt_toInt64, hnarrow] at hwide
  generalize (Int32.ofInt x).toInt64.toUInt64.toNat = n at hwide hlt ⊢
  constructor
  · intro h
    have hself : (n : Int).bmod (2 ^ 64) = n := Int.bmod_eq_of_le (by omega) (by omega)
    have hbound : x.bmod (2 ^ 32) < 2 ^ 31 := Int.bmod_lt (m := 2 ^ 32) (by decide)
    omega
  · intro h
    have hself : x.bmod (2 ^ 32) = x := Int.bmod_eq_of_le (by omega) (by omega)
    have hmod : x % (2 ^ 64 : Nat) = n % (2 ^ 64 : Nat) := by
      rw [← hself, hwide, Int.bmod_emod]
    omega

theorem requested_nanosleep (req : Timespec) :
    (requested (nanosleep req) : Int) =
      req.tv_sec.toInt * 1000 + (req.tv_nsec.toInt.tdiv 1000).tdiv 1000 := by
  have hsec := req.sec_nonneg
  have hnsec := req.nsec_nonneg
  rw [Int.tdiv_eq_ediv_of_nonneg hnsec, Int.tdiv_eq_ediv_of_nonneg (by omega)]
  show (((req.tv_sec.toInt.toNat * 10 ^ 9 + req.tv_nsec.toInt.toNat) / 10 ^ 6 : Nat) : Int) = _
  omega

theorem delay_nanosleep_iff (req : Timespec) :
    (delay (nanosleep req)).map UInt64.toNat = some (requested (nanosleep req)) ↔
      requested (nanosleep req) < 2 ^ 31 := by
  have hreq := requested_nanosleep req
  have hsec := req.sec_nonneg
  have hms : 0 ≤ (req.tv_nsec.toInt.tdiv 1000).tdiv 1000 := by
    rw [Int.tdiv_eq_ediv_of_nonneg req.nsec_nonneg,
      Int.tdiv_eq_ediv_of_nonneg (by have := req.nsec_nonneg; omega)]
    have := req.nsec_nonneg
    omega
  by_cases hlong : req.tv_sec.toInt * 1000 + (req.tv_nsec.toInt.tdiv 1000).tdiv 1000 < 2 ^ 63
  · have hmul : checkedInt 64 (req.tv_sec.toInt * 1000) = some (req.tv_sec.toInt * 1000) :=
      checkedInt_of_range (by omega) (by omega)
    have hadd := checkedInt_of_range (w := 64)
      (show -2 ^ 63 ≤ req.tv_sec.toInt * 1000 + (req.tv_nsec.toInt.tdiv 1000).tdiv 1000 by omega)
      hlong
    have hdelay : delay (nanosleep req) =
        some (Int32.ofInt (requested (nanosleep req))).toInt64.toUInt64 := by
      simp only [delay, timeoutMs, hmul, hadd, Option.bind_eq_bind, Option.bind_some,
        Option.pure_def, Option.map_some, hreq]
    rw [hdelay, Option.map_some, Option.some_inj]
    have hwiden := toNat_widen_iff (x := requested (nanosleep req)) (by omega) (by omega)
    rw [Int.toNat_natCast] at hwiden
    rw [hwiden]
    omega
  · -- the sum does not fit into a `long`, or one of its terms does not
    have hnone : delay (nanosleep req) = none := by
      show (timeoutMs req).map _ = none
      unfold timeoutMs
      cases hmul : checkedInt 64 (req.tv_sec.toInt * 1000) with
      | none => rfl
      | some ms =>
        have hms' := (checkedInt_eq_some_iff.mp hmul).2
        have hadd : checkedInt 64 (ms + (req.tv_nsec.toInt.tdiv 1000).tdiv 1000) = none := by
          rw [← hms', checkedInt, if_neg (fun hin => hlong hin.2)]
        simp only [hadd, Option.bind_eq_bind, Option.bind_some, Option.bind_none, Option.map_none]
    rw [hnone]
    constructor
    · intro h
      cases h
    · intro h
      omega

/-- The delays are exact as far as the types reach. -/
theorem sleep_exact_iff (c : SleepCall) : c.Exact ↔ c.Fits := by
  rw [exact_iff_delay]
  cases c with
  | sleep seconds =>
    have hmul : (seconds * 1000).toNat = seconds.toNat * 1000 % 2 ^ 32 := UInt32.toNat_mul ..
    have hlt := seconds.toNat_lt
    show some (seconds * 1000).toUInt64.toNat = some (seconds.toNat * 1000) ↔
      seconds.toNat * 1000 < 2 ^ 32
    rw [UInt32.toNat_toUInt64, hmul, Option.some_inj]
    omega
  | usleep usec =>
    have hdiv : (usec / 1000).toNat = usec.toNat / 1000 := UInt32.toNat_div ..
    show some (usec / 1000).toUInt64.toNat = some (usec.toNat / 1000) ↔ True
    rw [UInt32.toNat_toUInt64, hdiv]
    exact iff_of_true rfl trivial
  | nanosleep req => exact delay_nanosleep_iff req

/-- Fifty days in seconds are less than one second in milliseconds. -/
theorem sleep_not_exact : ¬ ∀ c : SleepCall, c.Exact := by
  intro h
  have hdelay := exact_iff_delay.mp (h (.sleep 4294968))
  revert hdelay
  decide

end SleepCall

end Azure
