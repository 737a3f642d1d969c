import Azure.Reasoning.OrderedSet
import Azure.Reasoning.Runs
import Mathlib.Logic.Function.Basic

/-!
# Timers (`timer.h`, `timer.cpp`)

`TimerManager` keeps its timers in a `std::set` of pointers ordered by the objects behind them, so
the model has a heap from addresses to `Timer` objects and the set is the in-order list of
addresses.  The clock is read through `azure::GetCurrentMS()`; every operation takes the reading it
gets as an argument.  Deadlines are `uint64_t` and wrap.
-/

namespace Azure

open Reasoning

/-- The address of a `Timer` object. -/
abbrev Addr := Nat

/-- What a `std::function<void()>` of a timer holds: a plain function, or the
`std::bind(&OnTimer, weak_cond, cb)` that `addConditionTimer` builds. -/
inductive Callback (F W : Type) where
  | fn (f : F)
  | onTimer (weakCond : W) (cb : Option F)
  deriving DecidableEq, Repr

/-- Calling the callback: `OnTimer` calls its function only while the condition is alive. -/
def Callback.run {F W : Type} (lock : W → Bool) : Callback F W → Option F
  | .fn f => some f
  | .onTimer weakCond cb => if lock weakCond then cb else none

structure Timer (F W : Type) where
  recurring : Bool := false
  ms : UInt64 := 0
  next : UInt64 := 0
  cb : Option (Callback F W) := none

variable {F W : Type}

abbrev TimerHeap (F W : Type) := Addr → Option (Timer F W)

structure TimerManager (F W : Type) where
  heap : TimerHeap F W := fun _ => none
  timers : List Addr := []
  tickled : Bool := false
  previousTime : UInt64

/-! ## The order of the set -/

def TimerHeap.next (h : TimerHeap F W) (a : Addr) : UInt64 :=
  match h a with
  | some t => t.next
  | none => 0

/-- `Timer::Comparator::operator()`; `none` is a null pointer. -/
def Timer.comparator (h : TimerHeap F W) : Option Addr → Option Addr → Bool
  | none, none => false
  | none, some _ => true
  | some _, none => false
  | some lhs, some rhs =>
    if h.next lhs = h.next rhs then decide (lhs < rhs) else decide (h.next lhs < h.next rhs)

def TimerHeap.less (h : TimerHeap F W) (a b : Addr) : Bool :=
  Timer.comparator h (some a) (some b)

def TimerHeap.store (h : TimerHeap F W) (a : Addr) (t : Timer F W) : TimerHeap F W :=
  Function.update h a (some t)

namespace TimerManager

def new (now : UInt64) : TimerManager F W := { previousTime := now }

/-- `addTimer(Timer::ptr, WriteLock &)`: insert, and say whether the waiting thread must be told
that the earliest deadline moved. -/
def addTimerLocked (m : TimerManager F W) (a : Addr) : Bool × TimerManager F W :=
  let r := OrderedSet.insert m.heap.less a m.timers
  -- a notification that is under way is not sent twice
  let atFront := r.1 == 0 && !m.tickled
  (atFront, { m with timers := r.2, tickled := m.tickled || atFront })

/-- `addTimer(ms, cb, recurring)`: the object is created at the address `a`. -/
def addTimer (m : TimerManager F W) (a : Addr) (ms : UInt64) (cb : Option (Callback F W))
    (recurring : Bool) (now : UInt64) : Bool × TimerManager F W :=
  addTimerLocked
    { m with heap := m.heap.store a { recurring, ms, next := now + ms, cb } } a

/-- `addConditionTimer`: `std::bind` gives a non-null function even for a null callback. -/
def addConditionTimer (m : TimerManager F W) (a : Addr) (ms : UInt64) (cb : Option F)
    (weakCond : W) (recurring : Bool) (now : UInt64) : Bool × TimerManager F W :=
  addTimer m a ms (some (.onTimer weakCond cb)) recurring now

/-- `Timer::cancel`.  `none` when there is no such object, or when the unguarded
`erase(find(...))` would erase `end()`. -/
def cancel (m : TimerManager F W) (a : Addr) : Option (Bool × TimerManager F W) :=
  match m.heap a with
  | none => none
  | some t =>
    if t.cb.isSome then
      -- the callback goes first; the comparator does not look at it
      let heap := m.heap.store a { t with cb := none }
      let it := OrderedSet.find heap.less a m.timers
      if it = m.timers.length then none
      else some (true, { m with heap, timers := m.timers.eraseIdx it })
    else some (false, m)

def refresh (m : TimerManager F W) (a : Addr) (now : UInt64) :
    Option (Bool × TimerManager F W) :=
  match m.heap a with
  | none => none
  | some t =>
    if t.cb.isNone then some (false, m)
    else
      let it := OrderedSet.find m.heap.less a m.timers
      if it = m.timers.length then some (false, m)
      else
        -- out of the set before the deadline changes, and back in behind it
        let timers := m.timers.eraseIdx it
        let heap := m.heap.store a { t with next := now + t.ms }
        some (true, { m with heap, timers := (OrderedSet.insert heap.less a timers).2 })

/-- `Timer::reset`; the second component says whether `onTimerInsertedAtFront` is called. -/
def reset (m : TimerManager F W) (a : Addr) (ms : UInt64) (fromNow : Bool) (now : UInt64) :
    Option (Bool × Bool × TimerManager F W) :=
  match m.heap a with
  | none => none
  | some t =>
    -- before the lock is taken
    if ms = t.ms ∧ fromNow = false then some (true, false, m)
    else if t.cb.isNone then some (false, false, m)
    else
      let it := OrderedSet.find m.heap.less a m.timers
      if it = m.timers.length then some (false, false, m)
      else
        let start := if fromNow then now else t.next - t.ms
        some (true, addTimerLocked
          { m with
            timers := m.timers.eraseIdx it
            heap := m.heap.store a { t with ms := ms, next := start + ms } } a)

/-- `getNextTimer`: `~0ull` for an empty set, else the time left to the first deadline. -/
def getNextTimer (m : TimerManager F W) (now : UInt64) : UInt64 × TimerManager F W :=
  let m' := { m with tickled := false }
  match m.timers with
  | [] => (~~~0, m')
  | a :: _ =>
    let next := m.heap.next a
    (if next ≤ now then 0 else next - now, m')

def detectClockRollover (m : TimerManager F W) (now : UInt64) : Bool × TimerManager F W :=
  (decide (now < m.previousTime ∧ now < m.previousTime - 60 * 60 * 1000),
    { m with previousTime := now })

/-- One turn of the loop of `listExpiredCb`: a recurring timer is armed again, a one-shot timer
lets go of its callback. -/
def expireOne (now : UInt64) (m : TimerManager F W) (a : Addr) : TimerManager F W :=
  match m.heap a with
  | none => m
  | some t =>
    if t.recurring then
      let heap := m.heap.store a { t with next := now + t.ms }
      { m with heap, timers := (OrderedSet.insert heap.less a m.timers).2 }
    else { m with heap := m.heap.store a { t with cb := none } }

def callbackAt (m : TimerManager F W) (a : Addr) : Option (Callback F W) :=
  (m.heap a).bind Timer.cb

/-- `end()` of the expired prefix: everything after a rollover, else the upper bound of the
temporary `now_timer`, which lives at `nowTimer`. -/
def expiredEnd (m : TimerManager F W) (nowTimer : Addr) (now : UInt64) (rollover : Bool) : Nat :=
  if rollover then m.timers.length
  else OrderedSet.upperBound (m.heap.store nowTimer { next := now }).less nowTimer m.timers

/-- `listExpiredCb`, with the callbacks collected, each with the timer it came from.  The
temporary `now_timer` is gone when the function returns. -/
def listExpiredCb (m : TimerManager F W) (nowTimer : Addr) (now : UInt64) :
    List (Addr × Option (Callback F W)) × TimerManager F W :=
  match m.timers with
  | [] => ([], m)
  | first :: _ =>
    -- an empty set returns before the clock is looked at
    let (rollover, m₁) := m.detectClockRollover now
    if rollover = false ∧ now < m.heap.next first then ([], m₁)
    else
      let it := m₁.expiredEnd nowTimer now rollover
      let expired := m.timers.take it
      (expired.map fun a => (a, m.callbackAt a),
        expired.foldl (expireOne now) { m₁ with timers := m.timers.drop it })

end TimerManager

/-! ## Runs -/

/-- A call on the manager or on one of its timers, with the addresses of the objects it creates
and the clock reading it gets. -/
inductive TimerOp (F W : Type) where
  | addTimer (a : Addr) (ms : UInt64) (cb : Option (Callback F W)) (recurring : Bool)
      (now : UInt64)
  | addConditionTimer (a : Addr) (ms : UInt64) (cb : Option F) (weakCond : W) (recurring : Bool)
      (now : UInt64)
  | cancel (a : Addr)
  | refresh (a : Addr) (now : UInt64)
  | reset (a : Addr) (ms : UInt64) (fromNow : Bool) (now : UInt64)
  | getNextTimer (now : UInt64)
  | listExpiredCb (nowTimer : Addr) (now : UInt64)

structure TimerEffect (F W : Type) where
  ret : Option Bool := none
  timeout : Option UInt64 := none
  insertedAtFront : Bool := false
  collected : List (Addr × Option (Callback F W)) := []

abbrev TimerEvent (F W : Type) := TimerOp F W × TimerEffect F W

namespace TimerManager

/-- One call.  A new object needs a free address, and a call on a timer needs that timer. -/
def call (m : TimerManager F W) : TimerOp F W → Option (TimerEffect F W × TimerManager F W)
  | .addTimer a ms cb recurring now =>
    if (m.heap a).isSome then none
    else
      let r := m.addTimer a ms cb recurring now
      some ({ insertedAtFront := r.1 }, r.2)
  | .addConditionTimer a ms cb weakCond recurring now =>
    if (m.heap a).isSome then none
    else
      let r := m.addConditionTimer a ms cb weakCond recurring now
      some ({ insertedAtFront := r.1 }, r.2)
  | .cancel a => (m.cancel a).map fun r => ({ ret := some r.1 }, r.2)
  | .refresh a now => (m.refresh a now).map fun r => ({ ret := some r.1 }, r.2)
  | .reset a ms fromNow now =>
    (m.reset a ms fromNow now).map fun r =>
      ({ ret := some r.1, insertedAtFront := r.2.1 }, r.2.2)
  | .getNextTimer now =>
    let r := m.getNextTimer now
    some ({ timeout := some r.1 }, r.2)
  | .listExpiredCb nowTimer now =>
    if (m.heap nowTimer).isSome then none
    else
      let r := m.listExpiredCb nowTimer now
      some ({ collected := r.1 }, r.2)

def Step (m : TimerManager F W) (e : TimerEvent F W) (m' : TimerManager F W) : Prop :=
  m.call e.1 = some (e.2, m')

end TimerManager

end Azure
