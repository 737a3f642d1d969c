import Azure.Scheduler.Moves
import Mathlib.Data.Fintype.Basic

/-!
# Who may resume a fiber

The scan passes over a fiber whose `m_state` is `EXEC`, but a body stores `HOLD` or `READY` before
its context is saved, and `run` stores `m_state` again after the switch back.  A fiber that an event
puts into the queue between the two can be taken while its last worker still uses it.  When every
scan takes only fibers that no other worker holds, a fiber has one holder at a time, and what the
other workers do to it cannot interfere.
-/

namespace Azure

open Reasoning

/-- The fiber a worker is busy with: its entry, or what it switches to and back from. -/
def Pc.fiber {C : Type} : Pc C → Option FiberId
  | .branch ft _ => ft.fiber
  | .swapIn f _ | .restore f _ | .body f _ | .save f _ | .decrement f _ | .test f _
  | .requeue f _ | .storeHold f _ | .resetCb f => some f
  | .scan | .noTask _ | .idle | .exited => none

def Pc.Executes {C : Type} (pc : Pc C) (f : FiberId) : Prop :=
  match pc with
  | .body g _ | .save g _ => g = f
  | _ => False

/-- The worker has stored `EXEC` and is not through with its stores to `m_state`. -/
def Pc.Resumed {C : Type} (pc : Pc C) (f : FiberId) : Prop :=
  match pc with
  | .restore g _ | .body g _ | .save g _ | .decrement g _ | .test g _ | .requeue g _
  | .storeHold g _ | .resetCb g => g = f
  | _ => False

def Pc.Stores {C : Type} (pc : Pc C) (f : FiberId) : Prop :=
  match pc with
  | .storeHold g _ | .resetCb g => g = f
  | _ => False

def Worker.Holds {C : Type} (wk : Worker C) (f : FiberId) : Prop :=
  wk.pc.fiber = some f ∨ wk.cbFiber = some f

instance {C : Type} (wk : Worker C) (f : FiberId) : Decidable (wk.Holds f) :=
  inferInstanceAs (Decidable (_ ∨ _))

theorem Pc.Executes.fiber {C : Type} {pc : Pc C} {f : FiberId} (h : pc.Executes f) :
    pc.fiber = some f := by
  cases pc <;> simp_all [Pc.Executes, Pc.fiber]

theorem Pc.Resumed.fiber {C : Type} {pc : Pc C} {f : FiberId} (h : pc.Resumed f) :
    pc.fiber = some f := by
  cases pc <;> simp_all [Pc.Resumed, Pc.fiber]

theorem Pc.Stores.fiber {C : Type} {pc : Pc C} {f : FiberId} (h : pc.Stores f) :
    pc.fiber = some f := by
  cases pc <;> simp_all [Pc.Stores, Pc.fiber]

namespace Scheduler

variable {ω C : Type} [DecidableEq ω]

def takes (tid : ω → Int) (s : Scheduler ω C) (w : ω) : Option FiberId :=
  match (s.worker w).pc with
  | .scan =>
    match scanFrom (tid w) (fun f => s.stateOf f == .exec) s.fibers with
    | .found ft _ => ft.fiber
    | _ => none
  | _ => none

def TakesFree (tid : ω → Int) (s : Scheduler ω C) (e : Event ω C) : Prop :=
  match e.1 with
  | .work w _ => ∀ f ∈ s.takes tid w, ∀ v, v ≠ w → ¬ (s.worker v).Holds f
  | _ => True

instance [Fintype ω] (tid : ω → Int) (s : Scheduler ω C) (e : Event ω C) :
    Decidable (s.TakesFree tid e) := by
  unfold TakesFree
  split <;> infer_instance

def savedOf (s : Scheduler ω C) (f : FiberId) : Bool :=
  match s.fiber f with
  | some fb => fb.saved
  | none => true

/-- What is asked of every state: a context is saved before it is restored, a body has one worker,
and no store of `run` hits a fiber that another worker has resumed. -/
structure ResumeSafe (s : Scheduler ω C) : Prop where
  saved : ∀ w f via, (s.worker w).pc = .restore f via → s.savedOf f = true
  alone : ∀ w v f, (s.worker w).pc.Executes f → (s.worker v).pc.Executes f → w = v
  stores : ∀ w v f, w ≠ v → (s.worker w).pc.Stores f → ¬ (s.worker v).pc.Resumed f

/-! ## What a step changes -/

omit [DecidableEq ω] in
theorem valid_exists {s : Scheduler ω C} {fcs : List (FiberOrCb C)} {thread : Int}
    (h : s.valid fcs = true) {ft : FiberAndThread C} (hft : ft ∈ entries thread fcs) {f : FiberId}
    (hf : ft.fiber = some f) : (s.fiber f).isSome := by
  rcases List.mem_map.mp (List.mem_of_mem_filter hft) with ⟨fc, hfc, rfl⟩
  have hok := List.all_eq_true.mp h fc hfc
  cases fc with
  | fiber g =>
    have hg : g = some f := hf
    subst hg
    exact hok
  | cb c => cases hf

/-- Fibers are not destroyed. -/
theorem Move.fiber_mono {tid : ω → Int} {s s' : Scheduler ω C} {a : Action ω C} {e : Effect C}
    (h : Move tid s a e s') {f : FiberId} (hf : (s.fiber f).isSome) : (s'.fiber f).isSome := by
  cases h with
  | @create g _ | @branchReset _ _ _ _ _ g _ _ _ _ | @branchNew _ g _ _ _ _ _ _ _
  | @resetCb _ _ g _ _ | @yield _ g _ _ _ _ | @swapIn _ _ g _ _ _
  | @restore _ _ g _ _ | @save _ _ g _ _ | @storeHold _ _ g _ _ =>
    by_cases heq : f = g
    · subst heq
      simp [setFiber, storeState, setSaved, goto, setWorker, release, hf]
    · simpa [setFiber, storeState, setSaved, goto, setWorker, release, heq] using hf
  | _ => exact hf

/-- A worker comes to hold a fiber by the scan, or by making it. -/
theorem Move.holds {tid : ω → Int} {s s' : Scheduler ω C} {a : Action ω C} {e : Effect C}
    (h : Move tid s a e s') {w : ω} {f : FiberId} (hw : (s'.worker w).Holds f) :
    (s.worker w).Holds f ∨
      (∃ fresh, a = .work w fresh ∧ f ∈ s.takes tid w ∧ ∃ ft ∈ s.fibers, ft.fiber = some f) ∨
      (a = .work w f ∧ s.fiber f = none ∧ (s'.fiber f).isSome) := by
  cases h with
  | create _ | schedule _ | scheduleAll _ | await _ | fire _ | assertFailed => exact Or.inl hw
  | @scanFound v fresh ft rest hpc hscan =>
    -- only the worker that acts can come to hold another fiber
    by_cases heq : w = v
    · subst heq
      simp only [goto, setWorker, Function.update_self, Worker.Holds, Pc.fiber] at hw
      rcases hw with hw | hw
      · have hmem := (scanFrom_found hscan).1.mem_iff.mpr List.mem_cons_self
        exact Or.inr (Or.inl ⟨fresh, rfl, by simp [takes, hpc, hscan, hw], ft, hmem, hw⟩)
      · exact Or.inl (Or.inr hw)
    · exact Or.inl (by simpa [goto, setWorker, heq] using hw)
  | @branchNew v fresh ft isActive cb hpc hcb hheld hfree =>
    by_cases heq : w = v
    · subst heq
      have hf : f = fresh := by
        simpa [setWorker, Worker.Holds, Pc.fiber, eq_comm] using hw
      subst hf
      exact Or.inr (Or.inr ⟨rfl, hfree, by simp [setFiber, setWorker]⟩)
    · exact Or.inl (by simpa [setWorker, setFiber, heq] using hw)
  | @branchFiber v _ ft _ g hpc hf hlive =>
    by_cases heq : w = v
    · subst heq
      exact Or.inl (by simpa [goto, setWorker, Worker.Holds, Pc.fiber, hpc, hf] using hw)
    · exact Or.inl (by simpa [goto, setWorker, heq] using hw)
  | @branchReset v _ ft _ cb g hpc hcb hheld hover =>
    by_cases heq : w = v
    · subst heq
      have hg : g = f := by simpa [goto, setWorker, setFiber, Worker.Holds, Pc.fiber, hheld] using hw
      subst hg
      exact Or.inl (Or.inr hheld)
    · exact Or.inl (by simpa [goto, setWorker, setFiber, heq] using hw)
  | @requeue v _ g via hpc | @storeHold v _ g via hpc =>
    by_cases heq : w = v
    · subst heq
      refine Or.inl (Or.inr ?_)
      cases via with
      | ft => simpa [goto, setWorker, release, push, storeState, Worker.Holds, Pc.fiber] using hw
      | cbFiber => simp [goto, setWorker, release, push, storeState, Worker.Holds, Pc.fiber] at hw
    · refine Or.inl ?_
      cases via <;> simpa [goto, setWorker, release, push, storeState, heq] using hw
  -- these steps keep what the worker holds, or let go of it
  | @yield v _ _ _ hpc _ | @leaveIdle v _ hpc | @scanNone v _ hpc _
  | @branchNone v _ _ _ hpc _ | @swapIn v _ _ _ hpc _ | @restore v _ _ _ hpc
  | @save v _ _ _ hpc | @decrement v _ _ _ hpc | @testReady v _ _ _ hpc _ | @testOver v _ _ hpc _
  | @testReset v _ _ hpc _ | @testHold v _ _ _ hpc _ | @resetCb v _ _ hpc _ | @noTask v _ hpc
  | @exit v _ hpc _ | @enterIdle v _ hpc _ =>
    refine Or.inl ?_
    by_cases heq : w = v
    · subst heq
      simp only [goto, setWorker, setFiber, storeState, setSaved, Function.update_self,
        Worker.Holds, Pc.fiber, hpc] at hw ⊢
      tauto
    · simpa [goto, setWorker, setFiber, storeState, setSaved, heq] using hw

def UnsavedExecutes (s : Scheduler ω C) : Prop :=
  ∀ f, s.savedOf f = false → ∃ w, (s.worker w).pc.Executes f

omit [DecidableEq ω] in
@[simp] theorem stateOf_setFiber (s : Scheduler ω C) (f g : FiberId) (fb : Fiber) :
    (s.setFiber f fb).stateOf g = if g = f then fb.state else s.stateOf g := by
  by_cases h : g = f
  · subst h; simp [stateOf, setFiber]
  · simp [stateOf, setFiber, h]

omit [DecidableEq ω] in
@[simp] theorem savedOf_setFiber (s : Scheduler ω C) (f g : FiberId) (fb : Fiber) :
    (s.setFiber f fb).savedOf g = if g = f then fb.saved else s.savedOf g := by
  by_cases h : g = f
  · subst h; simp [savedOf, setFiber]
  · simp [savedOf, setFiber, h]

omit [DecidableEq ω] in
@[simp] theorem savedOf_storeState (s : Scheduler ω C) (f g : FiberId) (state : FiberState) :
    (s.storeState f state).savedOf g = s.savedOf g := by
  by_cases h : g = f
  · subst h; cases hg : s.fiber g <;> simp [savedOf, storeState, hg]
  · simp [savedOf, storeState, h]

omit [DecidableEq ω] in
theorem savedOf_setSaved_of_ne (s : Scheduler ω C) {f g : FiberId} (saved : Bool) (h : g ≠ f) :
    (s.setSaved f saved).savedOf g = s.savedOf g := by
  simp [savedOf, setSaved, h]

omit [DecidableEq ω] in
theorem savedOf_setSaved_true (s : Scheduler ω C) (f : FiberId) :
    (s.setSaved f true).savedOf f = true := by
  cases hf : s.fiber f <;> simp [savedOf, setSaved, hf]

theorem Move.unsavedExecutes {tid : ω → Int} {s s' : Scheduler ω C} {a : Action ω C} {e : Effect C}
    (h : Move tid s a e s') (hsaved : s.UnsavedExecutes) : s'.UnsavedExecutes := by
  intro f hf
  -- a worker outside of a body can move on: who executes `f` is somebody else
  have hkeep : ∀ w wk, s'.worker = Function.update s.worker w wk →
      (∀ g, (s.worker w).pc.Executes g → g = f → wk.pc.Executes f) →
      s.savedOf f = false → ∃ v, (s'.worker v).pc.Executes f := by
    intro w wk hworker hpc hold
    rcases hsaved f hold with ⟨v, hv⟩
    refine ⟨v, ?_⟩
    rw [hworker]
    by_cases heq : v = w
    · subst heq
      rw [Function.update_self]
      exact hpc f hv rfl
    · rw [Function.update_of_ne heq]
      exact hv
  cases h with
  | schedule _ | scheduleAll _ | await _ | fire _ | assertFailed => exact hsaved f hf
  | @create g _ =>
    by_cases heq : f = g
    · simp [heq] at hf
    · exact hsaved f (by simpa [heq] using hf)
  | @restore w _ g via hpc =>
    by_cases heq : f = g
    · exact ⟨w, by simp [goto, setWorker, Pc.Executes, heq]⟩
    · refine hkeep w _ rfl (by simp [hpc, Pc.Executes]) ?_
      rw [← savedOf_setSaved_of_ne s false heq]
      exact hf
  | @save w _ g via hpc =>
    have hne : f ≠ g := by
      rintro rfl
      exact Bool.false_ne_true (hf.symm.trans (savedOf_setSaved_true s f))
    refine hkeep w _ rfl ?_ ?_
    · intro g' hg hf'
      simp only [hpc, Pc.Executes] at hg
      exact absurd (hg.trans hf').symm hne
    · rw [← savedOf_setSaved_of_ne s true hne]
      exact hf
  | @yield w g via state hpc _ =>
    refine hkeep w _ rfl (fun g' hg hf' => ?_) ?_
    · simp only [hpc, Pc.Executes] at hg
      exact hg.trans hf'
    · rw [← savedOf_storeState s g f state]
      exact hf
  | @branchReset w _ _ _ _ g hpc _ _ _ | @branchNew w g _ _ _ hpc _ _ _ | @resetCb w _ g hpc _ =>
    refine hkeep w _ rfl (by simp [hpc, Pc.Executes]) ?_
    have hf' : (s.setFiber g {}).savedOf f = false := hf
    by_cases heq : f = g
    · simp [heq] at hf'
    · simpa [heq] using hf'
  | @swapIn w _ g via hpc _ =>
    refine hkeep w _ rfl (by simp [hpc, Pc.Executes]) ?_
    rw [← savedOf_storeState s g f .exec]
    exact hf
  | @storeHold w _ g via hpc =>
    refine hkeep w { s.worker w with pc := .scan, cbFiber := _ }
      (by simp [goto, release, setWorker, storeState]; rfl) (by simp [hpc, Pc.Executes]) ?_
    rw [← savedOf_storeState s g f .hold]
    exact hf
  | @requeue w _ g via hpc =>
    exact hkeep w { s.worker w with pc := .scan, cbFiber := _ }
      (by simp [goto, release, setWorker, push]; rfl) (by simp [hpc, Pc.Executes]) hf
  | @leaveIdle w _ hpc | @scanNone w _ hpc _ | @scanFound w _ _ _ hpc _ | @branchFiber w _ _ _ _ hpc _ _
  | @branchNone w _ _ _ hpc _
  | @decrement w _ _ _ hpc | @testReady w _ _ _ hpc _ | @testOver w _ _ hpc _
  | @testReset w _ _ hpc _ | @testHold w _ _ _ hpc _ | @noTask w _ hpc
  | @exit w _ hpc _ | @enterIdle w _ hpc _ =>
    exact hkeep w _ rfl (by simp [hpc, Pc.Executes]) hf

/-! ## The invariant -/

/-- A fiber has at most one holder, and whatever can come to be held exists. -/
structure Exclusive (s : Scheduler ω C) : Prop where
  holder : ∀ w v f, (s.worker w).Holds f → (s.worker v).Holds f → w = v
  held : ∀ w f, (s.worker w).Holds f → (s.fiber f).isSome
  queued : ∀ ft ∈ s.fibers, ∀ f, ft.fiber = some f → (s.fiber f).isSome
  waiting : ∀ f ∈ s.waiting, (s.fiber f).isSome
  unsaved : s.UnsavedExecutes

omit [DecidableEq ω] in
theorem exclusive_new : Exclusive ({} : Scheduler ω C) where
  holder := by simp [Worker.Holds, Pc.fiber]
  held := by simp [Worker.Holds, Pc.fiber]
  queued := by simp
  waiting := by simp
  unsaved := by simp [UnsavedExecutes, savedOf]

/-- The entries a step adds point to fibers that exist. -/
theorem Move.queued {tid : ω → Int} {s s' : Scheduler ω C} {a : Action ω C} {e : Effect C}
    (h : Move tid s a e s') (hex : Exclusive s) :
    ∀ ft ∈ s'.fibers, ft ∈ s.fibers ∨ ∀ f, ft.fiber = some f → (s.fiber f).isSome := by
  have hone : ∀ (f : FiberId), (s.fiber f).isSome → ∀ ft ∈ entries (C := C) (-1) [.fiber (some f)],
      ∀ g, ft.fiber = some g → (s.fiber g).isSome := by
    intro f hf ft hft g hg
    exact valid_exists (by simpa [valid] using hf) hft hg
  intro ft hft
  cases h with
  | schedule hvalid | scheduleAll hvalid =>
    rcases List.mem_append.mp hft with hold | hnew
    · exact Or.inl hold
    · exact Or.inr fun f => valid_exists hvalid hnew
  | @fire f hwait =>
    rcases List.mem_append.mp hft with hold | hnew
    · exact Or.inl hold
    · exact Or.inr (hone f (hex.waiting f hwait) ft hnew)
  | @requeue w _ f via hpc =>
    rcases List.mem_append.mp hft with hold | hnew
    · exact Or.inl hold
    · exact Or.inr (hone f (hex.held w f (Or.inl (by simp [hpc, Pc.fiber]))) ft hnew)
  | scanFound _ hscan =>
    exact Or.inl ((scanFrom_found hscan).1.mem_iff.mpr (List.mem_cons_of_mem _ hft))
  | _ => exact Or.inl hft

/-- What waits has been registered by the worker that executed it. -/
theorem Move.waiting {tid : ω → Int} {s s' : Scheduler ω C} {a : Action ω C} {e : Effect C}
    (h : Move tid s a e s') : ∀ f ∈ s'.waiting, f ∈ s.waiting ∨ ∃ w, (s.worker w).Holds f := by
  intro f hf
  cases h with
  | @await w g via hpc =>
    rcases List.mem_append.mp hf with hold | hnew
    · exact Or.inl hold
    · exact Or.inr ⟨w, Or.inl (by simp [hpc, Pc.fiber, List.mem_singleton.mp hnew])⟩
  | fire _ => exact Or.inl (List.mem_of_mem_erase hf)
  | _ => exact Or.inl hf

theorem Exclusive.step {tid : ω → Int} {s s' : Scheduler ω C} {e : Event ω C} (hex : Exclusive s)
    (hfree : s.TakesFree tid e) (hs : Step tid s e s') : Exclusive s' := by
  have hm := (move_of_act hs).2
  refine ⟨fun w v f hw hv => ?_, fun w f hw => ?_, fun ft hft f hf => ?_, fun f hf => ?_,
    hm.unsavedExecutes hex.unsaved⟩
  · -- one action moves one worker, so of two holders one is old
    rcases e with ⟨a, eff⟩
    rcases hm.holds hw with hw | ⟨x, rfl, hw, -⟩ | ⟨rfl, hw, -⟩ <;>
      rcases hm.holds hv with hv | ⟨y, hy, hv, -⟩ | ⟨hy, hv, -⟩
    · exact hex.holder w v f hw hv
    · subst hy
      by_contra hne
      exact hfree f hv w hne hw
    · exact absurd (hex.held w f hw) (by simp [hv])
    · by_contra hne
      exact hfree f hw v (Ne.symm hne) hv
    · exact (Action.work.inj hy).1
    · exact (Action.work.inj hy).1
    · exact absurd (hex.held v f hv) (by simp [hw])
    · exact (Action.work.inj hy).1
    · exact (Action.work.inj hy).1
  · rcases hm.holds hw with hw | ⟨-, -, -, ft, hft, hf⟩ | ⟨-, -, hnew⟩
    · exact hm.fiber_mono (hex.held w f hw)
    · exact hm.fiber_mono (hex.queued ft hft f hf)
    · exact hnew
  · rcases hm.queued hex ft hft with hold | hnew
    · exact hm.fiber_mono (hex.queued ft hold f hf)
    · exact hm.fiber_mono (hnew f hf)
  · rcases hm.waiting f hf with hold | ⟨w, hw⟩
    · exact hm.fiber_mono (hex.waiting f hold)
    · exact hm.fiber_mono (hex.held w f hw)

omit [DecidableEq ω] in
theorem Exclusive.safe {s : Scheduler ω C} (hex : Exclusive s) : ResumeSafe s where
  saved w f via hpc := by
    by_contra hunsaved
    rcases hex.unsaved f (by simpa using hunsaved) with ⟨v, hv⟩
    have heq := hex.holder w v f (Or.inl (by simp [hpc, Pc.fiber])) (Or.inl hv.fiber)
    subst heq
    simp [hpc, Pc.Executes] at hv
  alone w v f hw hv := hex.holder w v f (Or.inl hw.fiber) (Or.inl hv.fiber)
  stores w v f hne hw hv := hne (hex.holder w v f (Or.inl hw.fiber) (Or.inl hv.fiber))

/-- When every scan takes only fibers that no other worker holds, then in every state of the run a
fiber is resumed with its context saved, on one worker, and `run` stores no state over another
worker's. -/
theorem resume_safe {tid : ω → Int} {hist : List (Event ω C)} {s : Scheduler ω C}
    (hrun : Run (Guarded (TakesFree tid) (Step tid)) {} hist s) : ResumeSafe s :=
  (hrun.invariant Exclusive exclusive_new fun _ _ _ hex hs => hex.step hs.1 hs.2).safe

/-- A fiber that waits for an event is resumed by the other worker, behind the first one's last
store. -/
theorem resume_safe_moved : ∃ hist : List (Event Bool Unit), ∃ s : Scheduler Bool Unit,
    Run (Guarded (TakesFree fun _ => 7) (Step fun _ => 7)) {} hist s ∧
      (s.worker true).pc = .restore 0 .ft ∧ ResumeSafe s := by
  have hnew : Run (Guarded (TakesFree fun _ => 7) (Step fun _ => 7)) ({} : Scheduler Bool Unit) [] {} :=
    .nil _
  have hcb := hnew.snoc ⟨by decide, show Step _ _ (.schedule (.cb (some ())) (-1), _) _ from rfl⟩
  have hscan := hcb.snoc ⟨by decide, show Step _ _ (.work false 0, _) _ from rfl⟩
  have hmake := hscan.snoc ⟨by decide, show Step _ _ (.work false 0, _) _ from rfl⟩
  have hexec := hmake.snoc ⟨by decide, show Step _ _ (.work false 0, _) _ from rfl⟩
  have hbody := hexec.snoc ⟨by decide, show Step _ _ (.work false 0, _) _ from rfl⟩
  have hawait := hbody.snoc ⟨by decide, show Step _ _ (.await false, _) _ from rfl⟩
  have hyield := hawait.snoc ⟨by decide, show Step _ _ (.yield false .hold, _) _ from rfl⟩
  have hsave := hyield.snoc ⟨by decide, show Step _ _ (.work false 0, _) _ from rfl⟩
  have hcount := hsave.snoc ⟨by decide, show Step _ _ (.work false 0, _) _ from rfl⟩
  have htest := hcount.snoc ⟨by decide, show Step _ _ (.work false 0, _) _ from rfl⟩
  have hstore := htest.snoc ⟨by decide, show Step _ _ (.work false 0, _) _ from rfl⟩
  have hfire := hstore.snoc ⟨by decide, show Step _ _ (.fire 0, _) _ from rfl⟩
  have htake := hfire.snoc ⟨by decide, show Step _ _ (.work true 0, _) _ from rfl⟩
  have hbranch := htake.snoc ⟨by decide, show Step _ _ (.work true 0, _) _ from rfl⟩
  have hlast := hbranch.snoc ⟨by decide, show Step _ _ (.work true 0, _) _ from rfl⟩
  exact ⟨_, _, hlast, rfl, resume_safe hlast⟩

/-- The event fires between the store of `HOLD` and `swapOut`: the other worker is about to restore
a context that is not saved, and later the first worker is about to store `HOLD` over `EXEC`. -/
theorem resume_before_save : ∃ (hist hist' : List (Event Bool Unit)) (s s' : Scheduler Bool Unit),
    Run (Step fun _ => 7) {} hist s ∧ Run (Step fun _ => 7) {} hist' s' ∧
      ((s.worker true).pc = .restore 0 .ft ∧ s.savedOf 0 = false) ∧
      ((s'.worker false).pc.Stores 0 ∧ (s'.worker true).pc.Resumed 0) ∧
      ¬ ResumeSafe s ∧ ¬ ResumeSafe s' := by
  have hnew : Run (Step fun _ => 7) ({} : Scheduler Bool Unit) [] {} := .nil _
  have hcb := hnew.snoc (show Step _ _ (.schedule (.cb (some ())) (-1), _) _ from rfl)
  have hscan := hcb.snoc (show Step _ _ (.work false 0, _) _ from rfl)
  have hmake := hscan.snoc (show Step _ _ (.work false 0, _) _ from rfl)
  have hexec := hmake.snoc (show Step _ _ (.work false 0, _) _ from rfl)
  have hbody := hexec.snoc (show Step _ _ (.work false 0, _) _ from rfl)
  have hawait := hbody.snoc (show Step _ _ (.await false, _) _ from rfl)
  have hyield := hawait.snoc (show Step _ _ (.yield false .hold, _) _ from rfl)
  have hfire := hyield.snoc (show Step _ _ (.fire 0, _) _ from rfl)
  have htake := hfire.snoc (show Step _ _ (.work true 0, _) _ from rfl)
  have hbranch := htake.snoc (show Step _ _ (.work true 0, _) _ from rfl)
  have hresume := hbranch.snoc (show Step _ _ (.work true 0, _) _ from rfl)
  have hsave := hresume.snoc (show Step _ _ (.work false 0, _) _ from rfl)
  have hcount := hsave.snoc (show Step _ _ (.work false 0, _) _ from rfl)
  have htest := hcount.snoc (show Step _ _ (.work false 0, _) _ from rfl)
  refine ⟨_, _, _, _, hresume, htest, ⟨rfl, rfl⟩, ⟨rfl, rfl⟩, fun hsafe => ?_, fun hsafe => ?_⟩
  · exact Bool.false_ne_true (hsafe.saved true 0 .ft rfl)
  · exact hsafe.stores false true 0 (by decide) rfl rfl

end Scheduler

end Azure
