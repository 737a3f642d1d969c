import Azure.Timer.Expiry

/-!
# How long a worker sleeps (`IOManager::idle`)

`idle` takes the time `getNextTimer` gives it to an `int` twice, once to compare it with the longest
timeout and once for `epoll_wait`, which waits without an end for a negative timeout.
-/

namespace Azure

open Reasoning

variable {F W : Type}

def toInt (x : UInt64) : Int := Int.bmod x.toNat (2 ^ 32)

namespace IOManager

def maxTimeout : UInt64 := 3000

/-- What one turn of the loop around `epoll_wait` makes of `next_timeout`. -/
def clampTimeout (nextTimeout : UInt64) : UInt64 :=
  if nextTimeout ≠ ~~~0 then
    -- `(int)next_timeout > MAX_TIMEOUT`
    if toInt nextTimeout > toInt maxTimeout then maxTimeout else nextTimeout
  else maxTimeout

/-- The timeout of the call of `epoll_wait` that comes after `interrupted` ones that failed with
`EINTR`; each turn starts from what the last one made of `next_timeout`. -/
def waitTimeout : Nat → UInt64 → Int
  | 0, nextTimeout => toInt (clampTimeout nextTimeout)
  | interrupted + 1, nextTimeout => waitTimeout interrupted (clampTimeout nextTimeout)

/-- `idle` from `stopping(next_timeout)` to `epoll_wait`. -/
def idleTimeout (interrupted : Nat) (timers : TimerManager F W) (now : UInt64) : Int :=
  waitTimeout interrupted (timers.getNextTimer now).1

/-! ## The conversions -/

theorem toInt_of_lt {x : UInt64} (h : x.toNat % 2 ^ 32 < 2 ^ 31) :
    toInt x = (x.toNat % 2 ^ 32 : Nat) := by
  unfold toInt Int.bmod
  dsimp only
  rw [if_pos (by omega)]
  omega

theorem toInt_of_not_lt {x : UInt64} (h : ¬ x.toNat % 2 ^ 32 < 2 ^ 31) : toInt x < 0 := by
  unfold toInt Int.bmod
  dsimp only
  rw [if_neg (by omega)]
  omega

theorem clampTimeout_clampTimeout (t : UInt64) :
    clampTimeout (clampTimeout t) = clampTimeout t := by
  -- what is cut is not cut again
  have hmax : clampTimeout maxTimeout = maxTimeout := by decide
  by_cases hnone : t = ~~~0
  · have hclamp : clampTimeout t = maxTimeout := if_neg (not_not.mpr hnone)
    rw [hclamp, hmax]
  · by_cases hlong : toInt t > toInt maxTimeout
    · have hclamp : clampTimeout t = maxTimeout := by
        unfold clampTimeout
        rw [if_pos hnone, if_pos hlong]
      rw [hclamp, hmax]
    · have hclamp : clampTimeout t = t := by
        unfold clampTimeout
        rw [if_pos hnone, if_neg hlong]
      rw [hclamp, hclamp]

/-- An interrupted call is made again with the same timeout. -/
theorem waitTimeout_eq (interrupted : Nat) (t : UInt64) :
    waitTimeout interrupted t = toInt (clampTimeout t) := by
  induction interrupted generalizing t with
  | zero => rfl
  | succ n ih => rw [waitTimeout, ih, clampTimeout_clampTimeout]

theorem toInt_clampTimeout (t : UInt64) : toInt (clampTimeout t) =
    if t = ~~~0 then 3000 else min 3000 (toInt t) := by
  have hmax : toInt maxTimeout = 3000 := by decide
  unfold clampTimeout
  by_cases hnone : t = ~~~0
  · rw [if_neg (not_not.mpr hnone), if_pos hnone, hmax]
  · rw [if_pos hnone, if_neg hnone]
    by_cases hlong : toInt t > toInt maxTimeout
    · rw [if_pos hlong, hmax]
      omega
    · rw [if_neg hlong]
      omega

/-! ## The bound -/

/-- The timeout is one `epoll_wait` comes back from, after three seconds at the latest and not after
the next deadline. -/
def PollBounded (wait : Int) (timers : TimerManager F W) (now : UInt64) : Prop :=
  0 ≤ wait ∧ wait ≤ 3000 ∧
    ∀ deadline : Nat, timers.earliest = deadline → wait ≤ (deadline - now.toNat : Nat)

end IOManager

namespace TimerManager

/-- `getNextTimer` answers the time that is left to the earliest deadline. -/
theorem Filed.getNextTimer {m : TimerManager F W} (h : m.Filed) (now : UInt64) :
    (m.earliest = ⊤ ∧ (m.getNextTimer now).1 = ~~~0) ∨
      ∃ deadline : Nat, m.earliest = deadline ∧
        (m.getNextTimer now).1.toNat = deadline - now.toNat := by
  by_cases hempty : m.timers = []
  · left
    refine ⟨?_, ?_⟩
    · rw [earliest, hempty]
      rfl
    · simp only [TimerManager.getNextTimer, hempty]
  · right
    exact getNextTimer_timeout h.sorted now hempty

end TimerManager

namespace IOManager

open TimerManager

/-- The timeout is bounded exactly when the lower half of what `getNextTimer` returned is no
negative `int`, or there is no timer. -/
theorem pollBounded_iff {start : UInt64} {hist : List (TimerEvent F W)} {m : TimerManager F W}
    (hrun : Run TimerManager.Step (.new start) hist m) (now : UInt64) (interrupted : Nat) :
    PollBounded (idleTimeout interrupted m now) m now ↔
      (m.getNextTimer now).1 = ~~~0 ∨ (m.getNextTimer now).1.toNat % 2 ^ 32 < 2 ^ 31 := by
  have hcases := (kept_of_run hrun).toFiled.getNextTimer now
  unfold PollBounded idleTimeout
  rw [waitTimeout_eq, toInt_clampTimeout]
  generalize (m.getNextTimer now).1 = t at hcases ⊢
  have hleft : ∀ deadline : Nat, m.earliest = deadline → t.toNat = deadline - now.toNat := by
    intro deadline hd
    rcases hcases with ⟨htop, -⟩ | ⟨d, hearliest, ht⟩
    · rw [htop] at hd
      cases hd
    · rw [hearliest] at hd
      have heq : d = deadline := by exact_mod_cast hd
      rw [ht, heq]
  by_cases hnone : t = ~~~0
  -- `~0` is cut to three seconds, and no deadline is that near
  · rw [if_pos hnone]
    refine ⟨fun _ => Or.inl hnone, fun _ => ⟨by decide, by decide, fun deadline hd => ?_⟩⟩
    have ht := hleft deadline hd
    have hmax : t.toNat = 2 ^ 64 - 1 := by
      rw [hnone]
      rfl
    omega
  · rw [if_neg hnone]
    constructor
    · intro hbounded
      right
      by_contra hneg
      have hzero := hbounded.1
      have hlt := toInt_of_not_lt hneg
      omega
    -- the lower half is no more than the whole
    · intro hlow
      rw [toInt_of_lt (hlow.resolve_left hnone)]
      refine ⟨by omega, by omega, fun deadline hd => ?_⟩
      have ht := hleft deadline hd
      omega

/-- One timer with the given period, created at 0. -/
theorem one_timer_run (ms : UInt64) : ∃ m : TimerManager Nat Unit,
    (∃ hist, Run TimerManager.Step (.new 0) hist m) ∧ (m.getNextTimer 0).1 =
      if 0 + ms ≤ 0 then 0 else 0 + ms - 0 := by
  have hnew : Run TimerManager.Step (.new 0 : TimerManager Nat Unit) [] (.new 0) := .nil _
  exact ⟨_, ⟨_, hnew.snoc (show TimerManager.Step _
    (.addTimer 8 ms (some (.fn 1)) false 0, _) _ from rfl)⟩, rfl⟩

theorem pollBounded_iff_soon : ∃ m : TimerManager Nat Unit, (m.getNextTimer 0).1 = 10 ∧
    PollBounded (idleTimeout 2 m 0) m 0 := by
  rcases one_timer_run 10 with ⟨m, ⟨hist, hrun⟩, hnext⟩
  refine ⟨m, hnext, (pollBounded_iff hrun 0 2).mpr (Or.inr ?_)⟩
  rw [hnext]
  decide

/-- A timer that is due in `2^31` milliseconds, which is less than 25 days: `epoll_wait` gets a
negative timeout. -/
theorem sleeps_forever : ∃ m : TimerManager Nat Unit,
    (∃ hist, Run TimerManager.Step (.new 0) hist m) ∧
    (m.getNextTimer 0).1 = 2147483648 ∧ idleTimeout 0 m 0 = -2147483648 ∧
    ¬ PollBounded (idleTimeout 0 m 0) m 0 := by
  rcases one_timer_run 2147483648 with ⟨m, hrun, hnext⟩
  have hwait : idleTimeout 0 m 0 = -2147483648 := by
    rw [idleTimeout, hnext]
    decide
  refine ⟨m, hrun, hnext, hwait, ?_⟩
  rintro ⟨hzero, -, -⟩
  rw [hwait] at hzero
  exact absurd hzero (by decide)

end IOManager

end Azure
