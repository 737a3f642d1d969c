import Azure.Scheduler.Moves
import Mathlib.Algebra.BigOperators.Group.Finset.Basic
import Mathlib.Data.Fintype.BigOperators
import Mathlib.Algebra.Order.BigOperators.Group.Finset
import Mathlib.Algebra.BigOperators.Ring.Finset
import Mathlib.Tactic.Linarith

/-!
# Scheduler conservation

What enters the queue is in it or was taken out by one worker, and `m_activeThreadCount` is the
number of workers that took an entry and have not yet given it back.  The queue is compared with the
history as a multiset of entries, so an entry accepted twice has to be taken out twice.
-/

namespace Azure

open Reasoning

def Pc.owes {C : Type} : Pc C → Bool
  | .branch _ isActive => isActive
  | .swapIn .. | .restore .. | .body .. | .save .. | .decrement .. => true
  | .noTask isActive => isActive
  | _ => false

def Pc.inHand {C : Type} : Pc C → List C
  | .branch ft _ => ft.cb.toList
  | _ => []

/-- An entry as the constructors of `FiberAndThread` make it. -/
def FiberAndThread.WellFormed {C : Type} (ft : FiberAndThread C) : Prop :=
  (ft.fiber.isSome ∨ ft.cb.isSome) ∧ (ft.fiber.isSome → ft.cb = none)

namespace Scheduler

variable {ω C : Type} [DecidableEq ω]

/-! ## Reading a history -/

def acceptedIn (hist : List (Event ω C)) : List (FiberAndThread C) :=
  hist.flatMap fun e => e.2.accepted

def dequeuedBy (e : Event ω C) : List (ω × FiberAndThread C) :=
  match e.1, e.2.dequeued with
  | .work w _, some ft => [(w, ft)]
  | _, _ => []

def dequeuedIn (hist : List (Event ω C)) : List (ω × FiberAndThread C) := hist.flatMap dequeuedBy

def callbacksTaken (w : ω) (hist : List (Event ω C)) : List C :=
  (dequeuedIn hist).filterMap fun p => if p.1 = w then p.2.cb else none

def handedBy (w : ω) (e : Event ω C) : List C :=
  match e.1 with
  | .work v _ => if v = w then e.2.handed.toList else []
  | _ => []

def callbacksHanded (w : ω) (hist : List (Event ω C)) : List C := hist.flatMap (handedBy w)

/-- The account of one worker: whether the current iteration still owes its decrement.  An
iteration that begins while the last one owes, or a decrement that is not owed, ends the account. -/
def settle (w : ω) (account : Option Bool) (e : Event ω C) : Option Bool :=
  match e.1 with
  | .work v _ =>
    if v ≠ w then account
    else account.bind fun owing =>
      if e.2.scanned then (if owing then none else some e.2.dequeued.isSome)
      else if e.2.decremented then (if owing then some false else none)
      else some owing
  | _ => account

def accountOf (w : ω) (hist : List (Event ω C)) : Option Bool := hist.foldl (settle w) (some false)

def owed (wk : Worker C) : Int := if wk.pc.owes then 1 else 0

def takenBy (w : ω) (e : Event ω C) : List C :=
  (dequeuedBy e).filterMap fun p => if p.1 = w then p.2.cb else none

/-! ## One step -/

theorem entries_wellFormed (thread : Int) (fcs : List (FiberOrCb C)) :
    ∀ ft ∈ entries thread fcs, ft.WellFormed := by
  intro ft hft
  rcases List.mem_filter.mp hft with ⟨hmem, hnull⟩
  refine ⟨by simpa using hnull, ?_⟩
  rcases List.mem_map.mp hmem with ⟨fc, -, rfl⟩
  cases fc <;> simp [FiberAndThread.of]

/-- The queue with what was taken out is the old queue with what came in. -/
theorem Move.queue {tid : ω → Int} {s s' : Scheduler ω C} {a : Action ω C} {e : Effect C}
    (h : Move tid s a e s') :
    (s'.fibers ++ e.dequeued.toList).Perm (s.fibers ++ e.accepted) := by
  cases h with
  | scanFound hpc hscan =>
    have hperm := (scanFrom_found hscan).1
    simpa [goto, setWorker] using (hperm.trans (List.perm_append_singleton _ _).symm).symm
  | _ => simp [goto, setWorker, setFiber, setSaved, storeState, push, release]

/-- Nothing but the constructors of `FiberAndThread` makes entries. -/
theorem Move.wellFormed {tid : ω → Int} {s s' : Scheduler ω C} {a : Action ω C} {e : Effect C}
    (h : Move tid s a e s') : ∀ ft ∈ e.accepted, ft.WellFormed := by
  cases h with
  | schedule _ => exact entries_wellFormed _ _
  | scheduleAll _ => exact entries_wellFormed _ _
  | fire _ => exact entries_wellFormed _ _
  | requeue _ => exact entries_wellFormed _ _
  | _ => simp

/-- A worker takes entries of its own thread or of any. -/
theorem Move.thread {tid : ω → Int} {s s' : Scheduler ω C} {a : Action ω C} {e : Effect C}
    (h : Move tid s a e s') :
    ∀ p ∈ dequeuedBy (a, e), p.2.thread = -1 ∨ p.2.thread = tid p.1 := by
  cases h with
  | scanFound hpc hscan =>
    intro p hp
    rw [List.mem_singleton.mp hp]
    exact (scanFrom_found hscan).2.thread
  | _ => simp [dequeuedBy, push]

/-- The entries in the queue and in the workers' `ft` are as their constructors made them. -/
structure Local (s : Scheduler ω C) : Prop where
  queue : ∀ ft ∈ s.fibers, ft.WellFormed
  taken : ∀ w ft isActive, (s.worker w).pc = .branch ft isActive →
    (ft.fiber.isSome → ft.cb = none) ∧ (isActive = false → ft.fiber = none ∧ ft.cb = none)

omit [DecidableEq ω] in
/-- An entry in hand came out of the queue. -/
theorem Local.active {s : Scheduler ω C} (h : Local s) {w : ω} {ft : FiberAndThread C}
    {isActive : Bool} (hpc : (s.worker w).pc = .branch ft isActive)
    (hne : ft.fiber.isSome ∨ ft.cb.isSome) : isActive = true := by
  by_contra hoff
  have hempty := (h.taken w ft isActive hpc).2 (by simpa using hoff)
  simp [hempty.1, hempty.2] at hne

theorem Move.local {tid : ω → Int} {s s' : Scheduler ω C} {a : Action ω C} {e : Effect C}
    (h : Move tid s a e s') (hl : Local s) : Local s' := by
  have hqueue : ∀ ft ∈ s'.fibers ++ e.dequeued.toList, ft.WellFormed := by
    intro ft hft
    rcases List.mem_append.mp (h.queue.mem_iff.mp hft) with hold | hnew
    · exact hl.queue ft hold
    · exact h.wellFormed ft hnew
  refine ⟨fun ft hft => hqueue ft (List.mem_append_left _ hft), fun v ft isActive hv => ?_⟩
  have hold := hl.taken v ft isActive
  cases h with
  | create _ | schedule _ | scheduleAll _ | await _ | fire _ | assertFailed => exact hold hv
  -- the entry in `ft` was in the queue
  | @scanFound w _ taken _ hpc _ =>
    by_cases heq : v = w
    · subst heq
      simp only [goto, setWorker, Function.update_self, Pc.branch.injEq] at hv
      rcases hv with ⟨rfl, rfl⟩
      have hwf := hqueue taken (by simp)
      exact ⟨hwf.2, by simp⟩
    · exact hold (by simpa [goto, setWorker, heq] using hv)
  | @scanNone w _ hpc _ =>
    by_cases heq : v = w
    · subst heq
      simp only [goto, setWorker, Function.update_self, Pc.branch.injEq] at hv
      rcases hv with ⟨rfl, rfl⟩
      exact ⟨by simp, by simp⟩
    · exact hold (by simpa [goto, setWorker, heq] using hv)
  -- everywhere else no `ft` is in hand behind the step
  | @yield w _ _ _ hpc _ | @leaveIdle w _ hpc
  | @branchFiber w _ _ _ _ hpc _ _ | @branchReset w _ _ _ _ _ hpc _ _ _
  | @branchNew w _ _ _ _ hpc _ _ _ | @branchNone w _ _ _ hpc _ | @swapIn w _ _ _ hpc _
  | @restore w _ _ _ hpc | @save w _ _ _ hpc | @decrement w _ _ _ hpc | @testReady w _ _ _ hpc _
  | @testOver w _ _ hpc _ | @testReset w _ _ hpc _ | @testHold w _ _ _ hpc _
  | @requeue w _ _ _ hpc | @storeHold w _ _ _ hpc | @resetCb w _ _ hpc _ | @noTask w _ hpc
  | @exit w _ hpc _ | @enterIdle w _ hpc _ =>
    by_cases heq : v = w
    · subst heq
      simp [goto, setWorker, setFiber, setSaved, storeState, push, release] at hv
    · apply hold
      simpa [goto, setWorker, setFiber, setSaved, storeState, push, release, heq] using hv

/-- The account of every worker is kept. -/
theorem Move.account {tid : ω → Int} {s s' : Scheduler ω C} {a : Action ω C} {e : Effect C}
    (h : Move tid s a e s') (hl : Local s) (v : ω) :
    settle v (some (s.worker v).pc.owes) (a, e) = some (s'.worker v).pc.owes := by
  cases h with
  | create _ | schedule _ | scheduleAll _ | await _ | fire _ => rfl
  | assertFailed => simp [settle]
  -- an entry in hand was counted when it was taken
  | @branchFiber w _ ft isActive f hpc hf _ =>
    have hactive := hl.active hpc (Or.inl (by simp [hf]))
    by_cases hv : w = v
    · subst hv; simp [settle, goto, setWorker, hpc, Pc.owes, hactive]
    · simp [settle, goto, setWorker, hv, Ne.symm hv]
  | @branchReset w _ ft isActive cb f hpc hcb _ _ | @branchNew w _ ft isActive cb hpc hcb _ _ =>
    have hactive := hl.active hpc (Or.inr (by simp [hcb]))
    by_cases hv : w = v
    · subst hv; simp [settle, goto, setWorker, setFiber, hpc, Pc.owes, hactive]
    · simp [settle, goto, setWorker, setFiber, hv, Ne.symm hv]
  | @yield w _ _ _ hpc _ | @leaveIdle w _ hpc | @scanNone w _ hpc _ | @scanFound w _ _ _ hpc _
  | @branchNone w _ _ _ hpc _ | @swapIn w _ _ _ hpc _
  | @restore w _ _ _ hpc | @save w _ _ _ hpc | @decrement w _ _ _ hpc | @testReady w _ _ _ hpc _
  | @testOver w _ _ hpc _ | @testReset w _ _ hpc _ | @testHold w _ _ _ hpc _
  | @requeue w _ _ _ hpc | @storeHold w _ _ _ hpc | @resetCb w _ _ hpc _ | @noTask w _ hpc
  | @exit w _ hpc _ | @enterIdle w _ hpc _ =>
    by_cases hv : w = v
    · subst hv
      simp [settle, goto, setWorker, setFiber, setSaved, storeState, push, release, hpc, Pc.owes]
    · simp [settle, goto, setWorker, setFiber, setSaved, storeState, push, release, hv, Ne.symm hv]

/-- A callback that is taken out is handed on before anything else happens to it. -/
theorem Move.hand {tid : ω → Int} {s s' : Scheduler ω C} {a : Action ω C} {e : Effect C}
    (h : Move tid s a e s') (hl : Local s) (v : ω) :
    (s.worker v).pc.inHand ++ takenBy v (a, e) = handedBy v (a, e) ++ (s'.worker v).pc.inHand := by
  cases h with
  | create _ | schedule _ | scheduleAll _ | await _ | fire _ | assertFailed =>
    simp [takenBy, dequeuedBy, handedBy, push, setFiber]
  -- an entry with a fiber has no callback
  | @branchFiber w _ ft isActive f hpc hf _ =>
    have hcb := (hl.taken w ft isActive hpc).1 (by simp [hf])
    by_cases hv : w = v
    · subst hv; simp [takenBy, dequeuedBy, handedBy, goto, setWorker, hpc, Pc.inHand, hcb]
    · simp [takenBy, dequeuedBy, handedBy, goto, setWorker, Ne.symm hv]
  | @branchReset w _ ft isActive cb f hpc hcb _ _ | @branchNew w _ ft isActive cb hpc hcb _ _
  | @branchNone w _ ft isActive hpc hcb =>
    by_cases hv : w = v
    · subst hv
      simp [takenBy, dequeuedBy, handedBy, goto, setWorker, setFiber, hpc, Pc.inHand, hcb]
    · simp [takenBy, dequeuedBy, handedBy, goto, setWorker, setFiber, hv, Ne.symm hv]
  | @scanFound w _ ft _ hpc _ =>
    by_cases hv : w = v
    · subst hv
      cases hcb : ft.cb <;>
        simp [takenBy, dequeuedBy, handedBy, goto, setWorker, hpc, Pc.inHand, hcb]
    · simp [takenBy, dequeuedBy, handedBy, goto, setWorker, hv, Ne.symm hv]
  | @yield w _ _ _ hpc _ | @leaveIdle w _ hpc | @scanNone w _ hpc _ | @swapIn w _ _ _ hpc _
  | @restore w _ _ _ hpc | @save w _ _ _ hpc | @decrement w _ _ _ hpc | @testReady w _ _ _ hpc _
  | @testOver w _ _ hpc _ | @testReset w _ _ hpc _ | @testHold w _ _ _ hpc _
  | @requeue w _ _ _ hpc | @storeHold w _ _ _ hpc | @resetCb w _ _ hpc _ | @noTask w _ hpc
  | @exit w _ hpc _ | @enterIdle w _ hpc _ =>
    by_cases hv : w = v
    · subst hv
      simp [takenBy, dequeuedBy, handedBy, goto, setWorker, setFiber, setSaved, storeState, push,
        release, hpc, Pc.inHand, Option.toList]
    · simp [takenBy, dequeuedBy, handedBy, goto, setWorker, setFiber, setSaved, storeState, push,
        release, hv, Ne.symm hv]

theorem sum_owed_update [Fintype ω] (worker : ω → Worker C) (w : ω) (wk : Worker C) :
    ∑ v, owed (Function.update worker w wk v) = ∑ v, owed (worker v) - owed (worker w) + owed wk := by
  have hold := Finset.add_sum_erase Finset.univ (fun v => owed (worker v)) (Finset.mem_univ w)
  have hnew := Finset.add_sum_erase Finset.univ (fun v => owed (Function.update worker w wk v))
    (Finset.mem_univ w)
  -- only the term of `w` differs
  have hrest : ∑ v ∈ Finset.univ.erase w, owed (Function.update worker w wk v) =
      ∑ v ∈ Finset.univ.erase w, owed (worker v) := by
    apply Finset.sum_congr rfl
    intro v hv
    rw [Function.update_of_ne (Finset.ne_of_mem_erase hv)]
  simp only [Function.update_self] at hnew
  omega

/-- The count moves with the workers' debts. -/
theorem Move.count [Fintype ω] {tid : ω → Int} {s s' : Scheduler ω C} {a : Action ω C}
    {e : Effect C} (h : Move tid s a e s') (hl : Local s)
    (hcount : s.activeThreadCount = ∑ v, owed (s.worker v)) :
    s'.activeThreadCount = ∑ v, owed (s'.worker v) := by
  -- a step of a worker that moves from `pc` to `wk` changes the count by the difference of the two
  have hmove : ∀ (w : ω) (wk : Worker C) (pc : Pc C) (n : Int), (s.worker w).pc = pc →
      s'.worker = Function.update s.worker w wk →
      s'.activeThreadCount = s.activeThreadCount + n →
      n = (if wk.pc.owes then 1 else 0) - (if pc.owes then 1 else 0) →
      s'.activeThreadCount = ∑ v, owed (s'.worker v) := by
    intro w wk pc n hpc hworker hactive hn
    rw [hworker, sum_owed_update, hactive, hcount, hn]
    simp only [owed, hpc]
    omega
  cases h with
  | create _ | schedule _ | scheduleAll _ | await _ | fire _ | assertFailed => exact hcount
  | @scanFound w _ _ _ hpc _ => exact hmove w _ _ 1 hpc rfl rfl rfl
  | @decrement w _ _ _ hpc | @noTask w _ hpc => exact hmove w _ _ (-1) hpc rfl rfl rfl
  | @branchFiber w _ ft isActive f hpc hf _ =>
    rw [hl.active hpc (Or.inl (by simp [hf]))] at hpc
    exact hmove w _ _ 0 hpc rfl (add_zero _).symm rfl
  | @branchReset w _ ft isActive cb f hpc hcb _ _ | @branchNew w _ ft isActive cb hpc hcb _ _ =>
    rw [hl.active hpc (Or.inr (by simp [hcb]))] at hpc
    exact hmove w _ _ 0 hpc rfl (add_zero _).symm rfl
  | @requeue w _ f via hpc | @storeHold w _ f via hpc =>
    exact hmove w { s.worker w with pc := .scan, cbFiber := _ } _ 0 hpc
      (by simp [goto, release, setWorker, push, storeState]; rfl) (add_zero _).symm rfl
  | @branchNone w _ ft isActive hpc _ =>
    exact hmove w _ _ 0 hpc rfl (add_zero _).symm (by cases isActive <;> rfl)
  | @yield w _ _ _ hpc _ | @leaveIdle w _ hpc | @scanNone w _ hpc _ | @swapIn w _ _ _ hpc _
  | @restore w _ _ _ hpc | @save w _ _ _ hpc | @testReady w _ _ _ hpc _
  | @testOver w _ _ hpc _ | @testReset w _ _ hpc _ | @testHold w _ _ _ hpc _
  | @resetCb w _ _ hpc _ | @exit w _ hpc _ | @enterIdle w _ hpc _ =>
    exact hmove w _ _ 0 hpc rfl (add_zero _).symm rfl

/-! ## Runs -/

omit [DecidableEq ω] in
theorem dequeuedBy_snd (e : Event ω C) (h : e.2.dequeued.isSome → ∃ w fresh, e.1 = .work w fresh) :
    (dequeuedBy e).map Prod.snd = e.2.dequeued.toList := by
  rcases e with ⟨a, eff⟩
  cases hd : eff.dequeued with
  | none => cases a <;> simp [dequeuedBy, hd]
  | some ft =>
    rcases h (by simp [hd]) with ⟨w, fresh, ha⟩
    dsimp only at ha
    simp [dequeuedBy, hd, ha]

/-- Only a worker takes entries out. -/
theorem Move.taker {tid : ω → Int} {s s' : Scheduler ω C} {a : Action ω C} {e : Effect C}
    (h : Move tid s a e s') (hd : e.dequeued.isSome) : ∃ w fresh, a = .work w fresh := by
  cases h with
  | @scanFound w fresh _ _ _ _ => exact ⟨w, fresh, rfl⟩
  | _ => simp [push] at hd

structure Conserved [Fintype ω] (tid : ω → Int) (hist : List (Event ω C)) (s : Scheduler ω C) :
    Prop where
  wellFormed : Local s
  perm : (acceptedIn hist).Perm (s.fibers ++ (dequeuedIn hist).map Prod.snd)
  accepted : ∀ ft ∈ acceptedIn hist, ft.WellFormed
  thread : ∀ p ∈ dequeuedIn hist, p.2.thread = -1 ∨ p.2.thread = tid p.1
  count : s.activeThreadCount = ∑ w, owed (s.worker w)
  account : ∀ w, accountOf w hist = some (s.worker w).pc.owes
  hand : ∀ w, callbacksTaken w hist = callbacksHanded w hist ++ (s.worker w).pc.inHand

theorem conserved_new [Fintype ω] (tid : ω → Int) : Conserved tid [] ({} : Scheduler ω C) where
  wellFormed := ⟨by simp, by simp⟩
  perm := .nil
  accepted := by simp [acceptedIn]
  thread := by simp [dequeuedIn]
  count := by simp [owed, Pc.owes]
  account w := rfl
  hand w := rfl

theorem Conserved.step [Fintype ω] {tid : ω → Int} {hist : List (Event ω C)}
    {s s' : Scheduler ω C} {e : Event ω C} (h : Conserved tid hist s) (hs : Step tid s e s') :
    Conserved tid (hist ++ [e]) s' := by
  have hm := (move_of_act hs).2
  have haccepted : acceptedIn (hist ++ [e]) = acceptedIn hist ++ e.2.accepted := by
    simp [acceptedIn]
  have hdequeued : dequeuedIn (hist ++ [e]) = dequeuedIn hist ++ dequeuedBy e := by
    simp [dequeuedIn]
  refine ⟨hm.local h.wellFormed, ?_, ?_, ?_, hm.count h.wellFormed h.count, fun w => ?_,
    fun w => ?_⟩
  · rw [haccepted, hdequeued, List.map_append, dequeuedBy_snd e hm.taker]
    calc (acceptedIn hist ++ e.2.accepted).Perm
          (s.fibers ++ (dequeuedIn hist).map Prod.snd ++ e.2.accepted) := h.perm.append_right _
      _ |>.Perm ((dequeuedIn hist).map Prod.snd ++ (s.fibers ++ e.2.accepted)) := by
          rw [← List.append_assoc]
          exact List.perm_append_comm.append_right _
      _ |>.Perm ((dequeuedIn hist).map Prod.snd ++ (s'.fibers ++ e.2.dequeued.toList)) :=
          hm.queue.symm.append_left _
      _ |>.Perm (s'.fibers ++ ((dequeuedIn hist).map Prod.snd ++ e.2.dequeued.toList)) := by
          rw [← List.append_assoc, ← List.append_assoc]
          exact List.perm_append_comm.append_right _
  · intro ft hft
    rw [haccepted] at hft
    exact (List.mem_append.mp hft).elim (h.accepted ft) (hm.wellFormed ft)
  · intro p hp
    rw [hdequeued] at hp
    exact (List.mem_append.mp hp).elim (h.thread p) (hm.thread p)
  · rw [accountOf, List.foldl_append]
    show settle w (accountOf w hist) e = _
    rw [h.account w]
    exact hm.account h.wellFormed w
  · have hhand := hm.hand h.wellFormed w
    rw [callbacksTaken, hdequeued, List.filterMap_append]
    show callbacksTaken w hist ++ takenBy w e = _
    have hhanded : callbacksHanded w (hist ++ [e]) = callbacksHanded w hist ++ handedBy w e := by
      simp [callbacksHanded]
    rw [h.hand w, List.append_assoc, hhand, hhanded, List.append_assoc]

/-- Scheduler conservation, over every run from the empty queue, for any number of workers: an
accepted entry is in the queue or was dequeued by one worker, of its own thread if it names one; a
worker hands on the callbacks it dequeued in order, each once; `m_activeThreadCount` is the number
of workers that have dequeued and not yet decremented; and every iteration that dequeues decrements
exactly once. -/
theorem conservation [Fintype ω] {tid : ω → Int} {hist : List (Event ω C)} {s : Scheduler ω C}
    (hrun : Run (Step tid) {} hist s) :
    (acceptedIn hist).Perm (s.fibers ++ (dequeuedIn hist).map Prod.snd) ∧
      (∀ ft ∈ acceptedIn hist, ft.fiber.isSome ∨ ft.cb.isSome) ∧
      (∀ p ∈ dequeuedIn hist, p.2.thread = -1 ∨ p.2.thread = tid p.1) ∧
      (∀ w, callbacksTaken w hist = callbacksHanded w hist ++ (s.worker w).pc.inHand) ∧
      s.activeThreadCount = (Finset.univ.filter fun w => (s.worker w).pc.owes = true).card ∧
      ∀ w, accountOf w hist = some (s.worker w).pc.owes := by
  have h := hrun.history_invariant (Conserved tid) (conserved_new tid)
    fun _ _ _ _ hi hs => hi.step hs
  refine ⟨h.perm, fun ft hft => (h.accepted ft hft).1, h.thread, h.hand, ?_, h.account⟩
  rw [h.count]
  exact Finset.sum_boole _ _

/-- One worker of two takes a callback and gives its debt back in the branch for callbacks, while
an entry for the other thread stays. -/
theorem conservation_two : ∃ hist : List (Event Bool Nat), ∃ s : Scheduler Bool Nat,
    Run (Step fun w => if w then 1 else 0) {} hist s ∧
      s.fibers = [{ cb := some 8, thread := 1 }] ∧
      (acceptedIn hist).Perm (s.fibers ++ (dequeuedIn hist).map Prod.snd) := by
  have hnew : Run (Step fun w : Bool => if w then (1 : Int) else 0) ({} : Scheduler Bool Nat) [] {} :=
    .nil _
  have hfirst := hnew.snoc (show Step _ _ (.schedule (.cb (some 8)) 1, _) _ from rfl)
  have hsecond := hfirst.snoc (show Step _ _ (.scheduleAll [.cb none, .cb (some 9)], _) _ from rfl)
  have hscan := hsecond.snoc (show Step _ _ (.work false 0, _) _ from rfl)
  have hhand := hscan.snoc (show Step _ _ (.work false 0, _) _ from rfl)
  have hexec := hhand.snoc (show Step _ _ (.work false 0, _) _ from rfl)
  have hbody := hexec.snoc (show Step _ _ (.work false 0, _) _ from rfl)
  have hout := hbody.snoc (show Step _ _ (.yield false .term, _) _ from rfl)
  have hsave := hout.snoc (show Step _ _ (.work false 0, _) _ from rfl)
  have hcount := hsave.snoc (show Step _ _ (.work false 0, _) _ from rfl)
  exact ⟨_, _, hcount, rfl, (conservation hcount).1⟩

end Scheduler

end Azure
