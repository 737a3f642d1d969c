import Azure.Hook.BlockingMoves
import Azure.Reasoning.Ownership
import Azure.Timer.Lifecycle

/-!
# Blocking calls

A call of `do_io` registers its fiber in a slot of the event table and waits there; whoever triggers
the slot takes the fiber out of it and wakes it.  Its `timer_info` belongs to it alone, every timer
in the heap that still has its callback belongs to a call that holds it, and the callbacks that have
been collected know their `timer_info` and nothing else of the call.
-/

namespace Azure

open Reasoning

namespace Blocking

variable {ω : Type} [DecidableEq ω]

/-! ## Registrations -/

/-- A fiber that waits is in one slot of the table or has been woken, and the threads are in the
calls on the table that their places say. -/
structure Registered (table : EventTable Unit Unit (HookThread ω)) (woken : FiberId → Bool)
    (fiber : FiberId → HookPc) : Prop where
  fibers : table.Fibers
  mine : ∀ f call, EventTable.callIn (table.caller (.inl f)) = some call →
    (fiber f).call? f = some call
  others : ∀ w call, EventTable.callIn (table.caller (.inr w)) = some call → call.Cancels
  slots : WaitSlots table.slot woken fun f => (fiber f).isWaiting = true

omit [DecidableEq ω] in
/-- The fibers that a step wakes. -/
theorem wake_woken (s : Blocking ω)
    (r : TableEffect Unit Unit × EventTable Unit Unit (HookThread ω)) (f : FiberId) :
    (s.wake r).woken f = true ↔
      s.woken f = true ∨ ∃ p ∈ r.1.scheduled, p.2 = .fiber (some f) := by
  show (List.foldl _ s.woken r.1.scheduled) f = true ↔ _
  generalize s.woken = woken
  induction r.1.scheduled generalizing woken with
  | nil => simp
  | cons p rest ih =>
    rw [List.foldl_cons, ih, List.exists_mem_cons_iff, ← or_assoc]
    apply or_congr_left
    rcases p with ⟨_, ⟨_ | g⟩ | _⟩
    · simp
    · by_cases hf : f = g
      · subst hf
        simp
      · simp [Function.update_of_ne hf, Ne.symm hf]
    · simp

namespace Registered

variable {table table' : EventTable Unit Unit (HookThread ω)} {woken : FiberId → Bool}
  {fiber : FiberId → HookPc}

omit [DecidableEq ω] in
/-- A fiber that is in no call on the table is in none. -/
theorem free (h : Registered table woken fiber) {f : FiberId} (hf : (fiber f).call? f = none) :
    EventTable.callIn (table.caller (.inl f)) = none := by
  cases hc : EventTable.callIn (table.caller (.inl f)) with
  | none => rfl
  | some call =>
    rw [h.mine f call hc] at hf
    cases hf

omit [DecidableEq ω] in
/-- A fiber outside of the table that does not wait goes on. -/
theorem goto (h : Registered table woken fiber) {f : FiberId} {pc : HookPc}
    (hfree : EventTable.callIn (table.caller (.inl f)) = none)
    (hold : (fiber f).isWaiting = false) (hnew : pc.isWaiting = false) :
    Registered table woken (Function.update fiber f pc) where
  fibers := h.fibers
  mine := fun g call hc => by
    by_cases hg : g = f
    · subst hg
      rw [hfree] at hc
      cases hc
    · rw [Function.update_of_ne hg]
      exact h.mine g call hc
  others := h.others
  slots := by
    have hwaits : (fun g => (Function.update fiber f pc g).isWaiting = true) =
        fun g => (fiber g).isWaiting = true := by
      funext g
      by_cases hg : g = f
      · subst hg
        rw [Function.update_self, hnew, hold]
      · rw [Function.update_of_ne hg]
    rw [hwaits]
    exact h.slots

def Belongs (fiber : FiberId → HookPc) (call : IoCall Unit Unit) : HookThread ω → Prop
  | .inl f => (fiber f).call? f = some call
  | .inr _ => call.Cancels

omit [DecidableEq ω] in
/-- The only call a step of a fiber can begin is the one the fiber is in. -/
theorem belongs_of_call {f : FiberId} {call : IoCall Unit Unit}
    {op : TableOp Unit Unit (HookThread ω)} (hcall : (fiber f).call? f = some call)
    (hthread : EventTable.threadOf op = .inl f) (hop : ∀ t c, op = .call t c → c = call) :
    ∀ t c, op = .call t c → Belongs fiber c t := by
  intro t c heq
  obtain rfl : t = .inl f := by
    rw [heq] at hthread
    exact hthread
  rw [hop _ c heq]
  exact hcall

omit [DecidableEq ω] in
/-- The call that an operation goes on with belongs to its thread. -/
theorem belongs (h : Registered table woken fiber) {op : TableOp Unit Unit (HookThread ω)}
    (hop : ∀ t call, op = .call t call → Belongs fiber call t) {call : IoCall Unit Unit}
    (hcall : table.callOf op = some call) :
    Belongs fiber call (EventTable.threadOf op) := by
  have hin : EventTable.callIn (table.caller (EventTable.threadOf op)) = some call →
      Belongs fiber call (EventTable.threadOf op) := by
    intro hc
    cases ht : EventTable.threadOf op with
    | inl f =>
      rw [ht] at hc
      exact h.mine f call hc
    | inr w =>
      rw [ht] at hc
      exact h.others w call hc
  cases op with
  | call t c =>
    cases hcall
    exact hop t call rfl
  | _ => exact hin hcall

/-- A step on the table keeps the callers in their calls, and says what happens to the slots. -/
theorem act (h : Registered table woken fiber) {op : TableOp Unit Unit (HookThread ω)}
    {e : TableEffect Unit Unit} (hop : ∀ t call, op = .call t call → Belongs fiber call t)
    (hact : table.act op = some (e, table')) :
    table'.Fibers ∧
      (∀ f call, EventTable.callIn (table'.caller (.inl f)) = some call →
        (fiber f).call? f = some call) ∧
      (∀ w call, EventTable.callIn (table'.caller (.inr w)) = some call → call.Cancels) ∧
      EventTable.SlotChange table op e table' := by
  obtain ⟨hother, -, hgoes⟩ := EventTable.caller_of_act hact
  have hcaller : ∀ t call, EventTable.callIn (table'.caller t) = some call →
      Belongs fiber call t := by
    intro t call hc
    by_cases ht : t = EventTable.threadOf op
    · subst ht
      exact h.belongs hop (hgoes call hc)
    · rw [hother t ht] at hc
      cases t with
      | inl f => exact h.mine f call hc
      | inr w => exact h.others w call hc
  refine ⟨h.fibers.step (fun t call heq => ?_) hact, fun f => hcaller (.inl f),
    fun w => hcaller (.inr w), EventTable.slotChange_of_act h.fibers hact⟩
  have hbelongs := hop t call heq
  cases t with
  | inl f => exact HookPc.fiberCall_of_call? hbelongs
  | inr w => exact IoCall.fiberCall_of_cancels hbelongs

/-- A step that registers nobody wakes the fibers it takes out. -/
theorem wake {s : Blocking ω} (h : Registered s.table s.woken s.fiber)
    {op : TableOp Unit Unit (HookThread ω)}
    {r : TableEffect Unit Unit × EventTable Unit Unit (HookThread ω)}
    (hop : ∀ t call, op = .call t call → Belongs s.fiber call t)
    (hact : s.table.act op = some r)
    (hno : r.1.ret = some true → ∀ fd event cb scheduler f,
      ¬ Belongs s.fiber (.addEvent fd event cb scheduler f) (EventTable.threadOf op)) :
    Registered (s.wake r).table (s.wake r).woken (s.wake r).fiber := by
  obtain ⟨hfibers, hmine, hothers, hchange⟩ := h.act (e := r.1) hop hact
  refine ⟨hfibers, hmine, hothers, ?_⟩
  cases hchange with
  | wakes hless hscheduled _ =>
    apply h.slots.wake hless
    intro f
    rw [wake_woken, hscheduled f]
  | @registers t ok fd event scheduler f a hlock hcaller hret _ _ _ _ =>
    subst hlock
    refine absurd (h.belongs hop ?_) (hno hret fd event none scheduler f)
    show EventTable.callIn (s.table.caller t) = _
    rw [hcaller, EventTable.callIn]

end Registered

/-- What happens to the slots when `addEvent` succeeds. -/
theorem Registered.register {s : Blocking ω} (h : Registered s.table s.woken s.fiber)
    {f : FiberId} {io : DoIo} {timer : Option Addr} {op : TableOp Unit Unit (HookThread ω)}
    {r : TableEffect Unit Unit × EventTable Unit Unit (HookThread ω)}
    (hpc : s.fiber f = .addEvent io timer) (hthread : EventTable.threadOf op = .inl f)
    (hop : ∀ t call, op = .call t call → call = .addEvent io.fd io.fn.event none (some ()) f)
    (hact : s.table.act op = some r) (hret : r.1.ret = some true) :
    Registered (s.wake r).table (s.wake r).woken
        (Function.update s.fiber f (.waiting io timer)) ∧
      ∃ k, s.table.slot k = none ∧ r.2.slot k = some f := by
  have hcall : (s.fiber f).call? f = some (.addEvent io.fd io.fn.event none (some ()) f) := by
    rw [hpc]
    rfl
  obtain ⟨hfibers, hmine, hothers, hchange⟩ :=
    h.act (e := r.1) (belongs_of_call hcall hthread hop) hact
  -- the call succeeds in the section under the mutex of the context
  obtain ⟨t, ok, call, a, rfl, hcaller⟩ := EventTable.lock_of_ret (e := r.1) hact hret
  obtain rfl : t = .inl f := hthread
  have hheld := h.mine f call (by rw [hcaller]; rfl)
  rw [hcall] at hheld
  cases hheld
  have hfree : EventTable.callIn (r.2.caller (.inl f)) = none := by
    have hout := (EventTable.caller_of_act (e := r.1) hact).2.1 (by rw [hret]; rfl)
    rw [show r.2.caller (.inl f) = .out from hout]
    rfl
  cases hchange with
  | wakes _ _ hno => exact absurd hcaller (hno hret _ _ _ _ _ _ _ _ rfl)
  | @registers t' ok' fd event scheduler g b hlock hcaller' _ hscheduled hslot₀ hslot hother =>
    cases hlock
    rw [hcaller] at hcaller'
    cases hcaller'
    refine ⟨⟨hfibers, fun g call hc => ?_, hothers, ?_⟩, _, hslot₀, hslot⟩
    · by_cases hg : g = f
      · subst hg
        rw [show EventTable.callIn ((s.wake r).table.caller (.inl g)) = none from hfree] at hc
        cases hc
      · rw [Function.update_of_ne hg]
        exact hmine g call hc
    · have hwoken : (s.wake r).woken = s.woken := by
        show List.foldl _ s.woken r.1.scheduled = s.woken
        rw [hscheduled]
        rfl
      rw [hwoken]
      apply h.slots.register _ hslot hslot₀ hother
      · intro g
        by_cases hg : g = f
        · subst hg
          simp [HookPc.isWaiting]
        · simp [hg]
      · rw [hpc]
        exact Bool.false_ne_true

/-- What happens to the slots when `addEvent` fails. -/
theorem Registered.refuse {s : Blocking ω} (h : Registered s.table s.woken s.fiber)
    {f : FiberId} {io : DoIo} {timer : Option Addr} {op : TableOp Unit Unit (HookThread ω)}
    {r : TableEffect Unit Unit × EventTable Unit Unit (HookThread ω)} {pc : HookPc}
    (hpc : s.fiber f = .addEvent io timer) (hthread : EventTable.threadOf op = .inl f)
    (hop : ∀ t call, op = .call t call → call = .addEvent io.fd io.fn.event none (some ()) f)
    (hact : s.table.act op = some r) (hret : r.1.ret = some false)
    (hnew : pc.isWaiting = false) :
    Registered (s.wake r).table (s.wake r).woken (Function.update s.fiber f pc) := by
  have hcall : (s.fiber f).call? f = some (.addEvent io.fd io.fn.event none (some ()) f) := by
    rw [hpc]
    rfl
  have hwake : Registered (s.wake r).table (s.wake r).woken (s.wake r).fiber :=
    h.wake (Registered.belongs_of_call hcall hthread hop) hact (by simp [hret])
  -- behind the call the fiber is out of the table
  have hout := (EventTable.caller_of_act (e := r.1) hact).2.1 (by rw [hret]; rfl)
  rw [hthread] at hout
  refine hwake.goto ?_ ?_ hnew
  · rw [show (s.wake r).table.caller (.inl f) = .out from hout]
    rfl
  · show (s.fiber f).isWaiting = false
    rw [hpc]
    rfl

theorem Move.registered_move {s s' : Blocking ω} {a : BlockingAction ω} {e : HookEffect}
    (hm : Move s a e s') (h : Registered s.table s.woken s.fiber) :
    Registered s'.table s'.woken s'.fiber := by
  cases hm with
  | aside hio hcall hnew =>
    exact h.goto (h.free hcall) (HookPc.isWaiting_of_io? hio) (HookPc.isWaiting_of_io? hnew)
  | start hpc _ | arm hpc _ | giveUp hpc _ _ | timeout hpc _ _ _ _ _ =>
    exact h.goto (h.free (by rw [hpc]; rfl)) (by rw [hpc]; rfl) rfl
  | goesOn _ hcall _ hold _ _ _ hnew => exact h.goto (h.free hcall) hold hnew
  | done hpc _ hwhere =>
    refine h.goto (h.free (by rw [hpc]; rfl)) (by rw [hpc]; rfl) ?_
    rcases hwhere with ⟨rfl, -⟩ | ⟨-, -, rfl, -⟩ <;> rfl
  | disarm hpc ht =>
    rw [cancelTimer_frame ht]
    exact h.goto (h.free (by rw [hpc]; rfl)) (by rw [hpc]; rfl) rfl
  | expire _ | late => exact h
  | @calling f i call op r hcall hthread hop hact hret =>
    exact h.wake (Registered.belongs_of_call hcall hthread hop) hact (by simp [hret])
  | @called f i call op r pc hcall hcancels hio hthread hop hact hret hnew =>
    have hwake : Registered (s.wake r).table (s.wake r).woken (s.wake r).fiber := by
      apply h.wake (Registered.belongs_of_call hcall hthread hop) hact
      -- a call that wakes fibers registers none
      intro _ fd event cb scheduler g hbelongs
      rw [hthread] at hbelongs
      obtain rfl := Option.some.inj (hcall.symm.trans hbelongs)
      exact hcancels
    -- behind the call the fiber is out of the table
    have hout := (EventTable.caller_of_act (e := r.1) hact).2.1 hret
    rw [hthread] at hout
    apply hwake.goto _ (HookPc.isWaiting_of_io? hio) (HookPc.isWaiting_of_io? hnew)
    rw [show (s.wake r).table.caller (.inl f) = .out from hout]
    rfl
  | @registered f i io timer op r hpc hthread hop hact hret =>
    exact (h.register hpc hthread hop hact hret).1
  | @refused f i io timer op r t hpc hthread hop hact hret ht =>
    rw [cancelTimer_frame ht]
    exact h.refuse hpc hthread hop hact hret rfl
  | @resume f i io timer hpc hwoken =>
    refine ⟨h.fibers, fun g call hc => ?_, h.others, ?_⟩
    · by_cases hg : g = f
      · subst hg
        have hmine := h.mine g call hc
        rw [hpc] at hmine
        cases hmine
      · rw [goto_fiber_of_ne _ _ hg]
        exact h.mine g call hc
    · apply h.slots.resume hwoken
      · intro g
        by_cases hg : g = f
        · subst hg
          simp
        · simp [hg]
      · intro g
        by_cases hg : g = f
        · subst hg
          simp [HookPc.isWaiting]
        · simp [goto_fiber_of_ne _ _ hg, hg]
  | @outside _ w op r hthread hop hact =>
    apply h.wake _ hact
    · intro _ fd event cb scheduler g hbelongs
      rw [hthread] at hbelongs
      exact hbelongs
    · intro t c heq
      obtain rfl : t = .inr w := by
        rw [heq] at hthread
        exact hthread
      exact hop _ c heq

/-! ## Owners of the `timer_info`s -/

/-- What a step does to the `timer_info`s and their owners. -/
inductive Change (s : Blocking ω) (a : BlockingAction ω) (s' : Blocking ω) : Prop
  | keeps (htinfo : ∀ f, (s'.fiber f).tinfo? = (s.fiber f).tinfo?) (htinfos : s'.tinfos = s.tinfos)
  | starts {f : FiberId} (hold : (s.fiber f).tinfo? = none)
      (hnew : (s'.fiber f).tinfo? = some s.tinfos.length)
      (hother : ∀ g, g ≠ f → (s'.fiber g).tinfo? = (s.fiber g).tinfo?)
      (htinfos : s'.tinfos = s.tinfos ++ [({} : TimerInfo)])
  | ends {f : FiberId} {k : Nat} (hold : (s.fiber f).tinfo? = some k)
      (hnew : (s'.fiber f).tinfo? = none)
      (hother : ∀ g, g ≠ f → (s'.fiber g).tinfo? = (s.fiber g).tinfo?)
      (htinfos : s'.tinfos = s.tinfos.modify k fun t => { t with alive := false })
  | cancels {f : FiberId} {i : Nat} {fn : Timeout} {cb : Callback Timeout Nat} {tinfo : TimerInfo}
      (ha : a = .hook (.timeout f i)) (hcb : s.expired[i]? = some cb)
      (hrun : cb.run (fun t => (s.tinfos[t]?.map TimerInfo.alive).getD false) = some fn)
      (hold : s.tinfos[fn.tinfo]? = some tinfo) (halive : tinfo.alive = true)
      (htinfo : ∀ f, (s'.fiber f).tinfo? = (s.fiber f).tinfo?)
      (htinfos : s'.tinfos = s.tinfos.set fn.tinfo { tinfo with cancelled := ETIMEDOUT })

omit [DecidableEq ω] in
/-- A fiber that goes on with the same `timer_info`. -/
theorem Change.goto {s t : Blocking ω} {a : BlockingAction ω} {f : FiberId} {pc : HookPc}
    (hfiber : t.fiber = s.fiber) (htinfos : t.tinfos = s.tinfos)
    (hpc : pc.tinfo? = (s.fiber f).tinfo?) : Change s a (t.goto f pc) := by
  refine .keeps (fun g => ?_) htinfos
  by_cases hg : g = f
  · subst hg
    rw [goto_fiber_self, hpc]
  · rw [goto_fiber_of_ne _ _ hg, hfiber]

omit [DecidableEq ω] in
/-- A call is over. -/
theorem Change.leaves {s t : Blocking ω} {a : BlockingAction ω} {f : FiberId} {pc : HookPc}
    {io : DoIo} (hfiber : t.fiber = s.fiber) (htinfos : t.tinfos = s.tinfos)
    (hold : (s.fiber f).io? = some io) (hnew : pc.io? = none) :
    Change s a ((t.drop io).goto f pc) := by
  refine .ends (f := f) (HookPc.tinfo?_of_io? hold) ?_ (fun g hg => ?_) ?_
  · rw [goto_fiber_self]
    exact HookPc.tinfo?_of_none hnew
  · rw [goto_fiber_of_ne _ _ hg]
    show (t.fiber g).tinfo? = _
    rw [hfiber]
  · show t.tinfos.modify io.tinfo _ = _
    rw [htinfos]

theorem Move.change {s s' : Blocking ω} {a : BlockingAction ω} {e : HookEffect}
    (hm : Move s a e s') : Change s a s' := by
  cases hm with
  | aside hio _ hnew =>
    refine .goto rfl rfl ?_
    rw [HookPc.tinfo?_of_none hnew, HookPc.tinfo?_of_none hio]
  | @start _ _ f io hpc htinfo =>
    refine .starts (f := f) ?_ ?_ (fun g hg => ?_) rfl
    · rw [hpc]
      rfl
    · rw [goto_fiber_self, HookPc.tinfo?_of_io? (show _ = some io from rfl), htinfo]
    · rw [goto_fiber_of_ne _ _ hg]
  | goesOn hio _ _ _ hnew heq _ _ =>
    refine .goto rfl rfl ?_
    rw [HookPc.tinfo?_of_io? hnew, HookPc.tinfo?_of_io? hio, heq]
  | arm hpc _ | resume hpc _ =>
    refine .goto rfl rfl ?_
    rw [hpc]
    rfl
  | disarm hpc ht =>
    rw [cancelTimer_frame ht]
    refine .goto rfl rfl ?_
    rw [hpc]
    rfl
  | registered hpc _ _ _ _ =>
    refine .goto rfl rfl ?_
    rw [hpc]
    rfl
  | calling _ _ _ _ _ | outside _ _ _ | expire _ | late => exact .keeps (fun _ => rfl) rfl
  | called _ _ hio _ _ _ _ hnew =>
    refine .goto rfl rfl ?_
    rw [HookPc.tinfo?_of_none hnew, HookPc.tinfo?_of_none hio]
  | @refused f i io timer op r t hpc hthread hop hact hret ht =>
    have hframe := cancelTimer_frame ht
    refine Change.leaves ?_ ?_ (?_ : _ = some io) rfl
    · rw [hframe]
      rfl
    · rw [hframe]
      rfl
    · rw [hpc]
      rfl
  | @giveUp f i io tinfo hpc _ _ =>
    refine .leaves rfl rfl (?_ : _ = some io) rfl
    rw [hpc]
    rfl
  | done hpc _ hwhere =>
    refine .leaves rfl rfl (?_ : _ = some _) ?_
    · rw [hpc]
      rfl
    · rcases hwhere with ⟨rfl, -⟩ | ⟨-, -, rfl, -⟩ <;> rfl
  | @timeout f i cb fn tinfo hpc hcb hrun hold halive _ =>
    refine .cancels rfl hcb hrun hold halive (fun g => ?_) rfl
    by_cases hg : g = f
    · subst hg
      rw [goto_fiber_self, hpc]
      rfl
    · rw [goto_fiber_of_ne _ _ hg]

def Alive (tinfos : List TimerInfo) (k : Nat) : Prop :=
  ∃ t, tinfos[k]? = some t ∧ t.alive = true

/-- The live `timer_info`s are those of the calls in progress, which share none. -/
structure Owned (tinfos : List TimerInfo) (fiber : FiberId → HookPc) : Prop where
  exclusive : Exclusive fun f => (fiber f).tinfo?.toList
  alive : ∀ k, Alive tinfos k ↔ ∃ f, (fiber f).tinfo? = some k

theorem Alive.lt {tinfos : List TimerInfo} {k : Nat} (h : Alive tinfos k) : k < tinfos.length := by
  obtain ⟨t, ht, -⟩ := h
  exact (List.getElem?_eq_some_iff.mp ht).choose

theorem alive_append (tinfos : List TimerInfo) (k : Nat) :
    Alive (tinfos ++ [({} : TimerInfo)]) k ↔ k = tinfos.length ∨ Alive tinfos k := by
  unfold Alive
  rcases Nat.lt_trichotomy k tinfos.length with hlt | rfl | hgt
  · rw [List.getElem?_append_left hlt]
    simp [Nat.ne_of_lt hlt]
  · rw [List.getElem?_concat_length]
    simp
  · have hle := Nat.le_of_lt hgt
    rw [List.getElem?_eq_none (by rw [List.length_append]; exact hgt), List.getElem?_eq_none hle]
    simp [Nat.ne_of_gt hgt]

theorem alive_modify (tinfos : List TimerInfo) (j k : Nat) :
    Alive (tinfos.modify j fun t => { t with alive := false }) k ↔ k ≠ j ∧ Alive tinfos k := by
  unfold Alive
  rw [List.getElem?_modify]
  by_cases hk : j = k
  · subst hk
    cases tinfos[j]? <;> simp
  · cases tinfos[k]? <;> simp [hk, Ne.symm hk]

theorem alive_set {tinfos : List TimerInfo} {j : Nat} {t : TimerInfo} (ht : tinfos[j]? = some t)
    (errno : Int) (k : Nat) :
    Alive (tinfos.set j { t with cancelled := errno }) k ↔ Alive tinfos k := by
  unfold Alive
  by_cases hk : j = k
  · subst hk
    rw [List.getElem?_set_self (List.getElem?_eq_some_iff.mp ht).choose, ht]
    simp
  · rw [List.getElem?_set_ne hk]

theorem Owned.one {tinfos : List TimerInfo} {fiber : FiberId → HookPc} (h : Owned tinfos fiber)
    {f g : FiberId} {k : Nat} (hf : (fiber f).tinfo? = some k) (hg : (fiber g).tinfo? = some k) :
    f = g :=
  h.exclusive.one (r := k) (by simp [hf]) (by simp [hg])

omit [DecidableEq ω] in
theorem Owned.change {s s' : Blocking ω} {a : BlockingAction ω} (h : Owned s.tinfos s.fiber)
    (hc : Change s a s') : Owned s'.tinfos s'.fiber := by
  cases hc with
  | keeps htinfo htinfos =>
    refine ⟨?_, fun k => ?_⟩
    · simp only [htinfo]
      exact h.exclusive
    · simp only [htinfo, htinfos]
      exact h.alive k
  | @starts f hold hnew hother htinfos =>
    -- the place of a new `timer_info` is behind those there are
    have hfresh : ∀ g, (s.fiber g).tinfo? ≠ some s.tinfos.length := fun g hg =>
      absurd ((h.alive _).mpr ⟨g, hg⟩).lt (Nat.lt_irrefl _)
    refine ⟨h.exclusive.find f s.tinfos.length ?_ ?_ ?_, fun k => ?_⟩
    · intro g
      simpa using hfresh g
    · simp [hold, hnew]
    · intro g hg
      rw [hother g hg]
    · rw [htinfos, alive_append, h.alive]
      constructor
      · rintro (rfl | ⟨g, hg⟩)
        · exact ⟨f, hnew⟩
        · refine ⟨g, ?_⟩
          rw [hother g]
          · exact hg
          · rintro rfl
            rw [hold] at hg
            cases hg
      · rintro ⟨g, hg⟩
        by_cases hgf : g = f
        · subst hgf
          rw [hnew] at hg
          exact .inl (Option.some.inj hg).symm
        · rw [hother g hgf] at hg
          exact .inr ⟨g, hg⟩
  | @ends f j hold hnew hother htinfos =>
    refine ⟨h.exclusive.letGo fun g => ?_, fun k => ?_⟩
    · by_cases hg : g = f
      · subst hg
        simp [hnew]
      · rw [hother g hg]
    · rw [htinfos, alive_modify, h.alive]
      constructor
      · rintro ⟨hk, g, hg⟩
        refine ⟨g, ?_⟩
        rw [hother g]
        · exact hg
        · rintro rfl
          rw [hold] at hg
          exact hk (Option.some.inj hg).symm
      · rintro ⟨g, hg⟩
        have hgf : g ≠ f := by
          rintro rfl
          rw [hnew] at hg
          cases hg
        rw [hother g hgf] at hg
        refine ⟨?_, g, hg⟩
        rintro rfl
        exact hgf (h.one hg hold)
  | cancels _ _ _ hold _ htinfo htinfos =>
    refine ⟨?_, fun k => ?_⟩
    · simp only [htinfo]
      exact h.exclusive
    · simp only [htinfo]
      rw [htinfos, alive_set hold]
      exact h.alive k

/-! ## Timers -/

/-- A timer that still has its callback is held by the call that armed it, and no callback outlives
the `timer_info` it is for by knowing another. -/
structure Armed (timers : TimerManager Timeout Nat) (created : Nat)
    (expired : List (Callback Timeout Nat)) (fiber : FiberId → HookPc) : Prop where
  ordered : timers.Ordered
  held : ∀ {a t cb}, timers.heap a = some t → t.cb = some cb → t.recurring = false ∧
    ∃ f io, (fiber f).timer? = some (io, a) ∧ cb = .onTimer io.tinfo (some io.onTimeout)
  collected : ∀ {cb}, cb ∈ expired →
    ∃ fn : Timeout, cb = .onTimer fn.tinfo (some fn) ∧ fn.tinfo < created

namespace Armed

variable {timers : TimerManager Timeout Nat} {created : Nat}
  {expired : List (Callback Timeout Nat)} {fiber : FiberId → HookPc}

/-- A step that leaves the timers alone. -/
theorem keep (h : Armed timers created expired fiber) {created' : Nat}
    {expired' : List (Callback Timeout Nat)} {f : FiberId} {pc : HookPc}
    (htimer : pc.timer? = (fiber f).timer?) (hcreated : created ≤ created')
    (hexpired : ∀ cb ∈ expired', cb ∈ expired) :
    Armed timers created' expired' (Function.update fiber f pc) where
  ordered := h.ordered
  held := fun hheap hcb => by
    obtain ⟨hrec, g, io, hg, heq⟩ := h.held hheap hcb
    refine ⟨hrec, g, io, ?_, heq⟩
    by_cases hgf : g = f
    · subst hgf
      rw [Function.update_self, htimer]
      exact hg
    · rw [Function.update_of_ne hgf]
      exact hg
  collected := fun {cb} hcb => by
    obtain ⟨fn, heq, hlt⟩ := h.collected (hexpired cb hcb)
    exact ⟨fn, heq, Nat.lt_of_lt_of_le hlt hcreated⟩

/-- The call arms its timer. -/
theorem arm (h : Armed timers created expired fiber) {a : Addr} {ms now : UInt64} {io : DoIo}
    {r : TimerEffect Timeout Nat × TimerManager Timeout Nat}
    (hr : timers.call (.addConditionTimer a ms (some io.onTimeout) io.tinfo false now) = some r)
    {f : FiberId} {pc : HookPc} (hold : (fiber f).timer? = none) (hnew : pc.timer? = some (io, a)) :
    Armed r.2 created expired (Function.update fiber f pc) := by
  simp only [TimerManager.call] at hr
  split at hr
  · cases hr
  next hfree =>
  have hnone : timers.heap a = none := by simpa using hfree
  cases hr
  refine ⟨TimerManager.addTimer_ordered h.ordered hnone ms rfl false now, ?_, h.collected⟩
  -- the new timer belongs to the call, and the others to whom they did
  intro b t cb hheap hcb
  by_cases hb : b = a
  · subst hb
    let armed : Timer Timeout Nat :=
      { ms, next := now + ms, cb := some (.onTimer io.tinfo (some io.onTimeout)) }
    have ht : Function.update timers.heap b (some armed) b = some t := hheap
    rw [Function.update_self] at ht
    obtain rfl : armed = t := Option.some.inj ht
    obtain rfl := Option.some.inj (hcb : some (.onTimer io.tinfo (some io.onTimeout)) = some cb)
    exact ⟨rfl, f, io, by rw [Function.update_self, hnew], rfl⟩
  · have ht : timers.heap b = some t := by
      rw [← hheap]
      exact (Function.update_of_ne hb ..).symm
    obtain ⟨hrec, g, io', hg, heq⟩ := h.held ht hcb
    refine ⟨hrec, g, io', ?_, heq⟩
    rw [Function.update_of_ne]
    · exact hg
    · rintro rfl
      rw [hold] at hg
      cases hg

/-- The call gives its timer up. -/
theorem cancel (h : Armed timers created expired fiber) {a : Addr} {io : DoIo}
    {r : TimerEffect Timeout Nat × TimerManager Timeout Nat}
    (hr : timers.call (.cancel a) = some r) {f : FiberId} {pc : HookPc}
    (hold : (fiber f).timer? = some (io, a)) :
    Armed r.2 created expired (Function.update fiber f pc) := by
  rcases Option.map_eq_some_iff.mp hr with ⟨⟨ret, m⟩, hcancel, rfl⟩
  -- the timer has no callback now, the others are as before
  have hheap : m.Ordered ∧ (∀ t, m.heap a = some t → t.cb = none) ∧
      ∀ b, b ≠ a → m.heap b = timers.heap b := by
    cases ht : timers.heap a with
    | none =>
      unfold TimerManager.cancel at hcancel
      rw [ht] at hcancel
      cases hcancel
    | some t =>
      rcases TimerManager.cancel_cases h.ordered ht with ⟨-, m', hm', hordered, hstore⟩ | ⟨hcb, hm'⟩
      · rw [hm'] at hcancel
        cases hcancel
        refine ⟨hordered, fun t' ht' => ?_, fun b hb => ?_⟩
        · rw [hstore, TimerHeap.store, Function.update_self] at ht'
          cases ht'
          rfl
        · rw [hstore, TimerHeap.store, Function.update_of_ne hb]
      · rw [hm'] at hcancel
        cases hcancel
        refine ⟨h.ordered, fun t' ht' => ?_, fun b _ => rfl⟩
        rw [ht] at ht'
        cases ht'
        exact hcb
  refine ⟨hheap.1, ?_, h.collected⟩
  intro b t cb hb hcb
  have hne : b ≠ a := by
    rintro rfl
    rw [hheap.2.1 t hb] at hcb
    cases hcb
  rw [hheap.2.2 b hne] at hb
  obtain ⟨hrec, g, io', hg, heq⟩ := h.held hb hcb
  refine ⟨hrec, g, io', ?_, heq⟩
  rw [Function.update_of_ne]
  · exact hg
  · rintro rfl
    rw [hold] at hg
    cases hg
    exact hne rfl

omit [DecidableEq ω] in
/-- `timer->cancel()`, if there is a timer. -/
theorem cancelTimer {s t : Blocking ω} (h : Armed s.timers created s.expired s.fiber)
    {timer : Option Addr} (ht : s.cancelTimer timer = some t) {io : DoIo} {f : FiberId}
    {pc : HookPc} (hold : (s.fiber f).timer? = timer.map fun a => (io, a))
    (hnew : pc.timer? = none) :
    Armed t.timers created s.expired (Function.update s.fiber f pc) := by
  cases timer with
  | none =>
    cases ht
    exact h.keep (by rw [hnew, hold]; rfl) le_rfl fun _ hcb => hcb
  | some a =>
    rcases Option.map_eq_some_iff.mp ht with ⟨r, hr, rfl⟩
    exact h.cancel hr hold

/-- `listExpiredCb` takes the callbacks out of the timers that have expired. -/
theorem expire (h : Armed timers created expired fiber) {nowTimer : Addr} {now : UInt64}
    {r : TimerEffect Timeout Nat × TimerManager Timeout Nat}
    (hr : timers.call (.listExpiredCb nowTimer now) = some r)
    (hlive : ∀ f io, (fiber f).io? = some io → io.tinfo < created) :
    Armed r.2 created (expired ++ r.1.collected.filterMap Prod.snd) fiber := by
  simp only [TimerManager.call] at hr
  split at hr
  · cases hr
  cases hr
  obtain ⟨n, previous, -, -, hcollected, hafter⟩ := timers.listExpiredCb_cases nowTimer now
  have hexpiring := h.ordered.expiring n previous
  have hheap := TimerManager.expireFold_heap now (timers.timers.take n) hexpiring.nodup
    { timers with previousTime := previous, timers := timers.timers.drop n }
  refine ⟨?_, ?_, ?_⟩
  · dsimp only
    rw [hafter]
    exact TimerManager.expireFold_ordered now hexpiring
  · intro a t cb ht hcb
    dsimp only at ht
    rw [hafter, hheap] at ht
    split at ht
    · next hmem =>
      -- an expired timer of a call has no callback any more
      rcases Option.map_eq_some_iff.mp ht with ⟨t₀, ht₀, rfl⟩
      obtain ⟨t₁, ht₁, hsome⟩ := (hexpiring.visiting a hmem).1
      have heq : t₁ = t₀ := Option.some.inj (ht₁.symm.trans ht₀)
      subst heq
      obtain ⟨cb₀, hcb₀⟩ := Option.isSome_iff_exists.mp hsome
      rw [if_neg (by rw [(h.held ht₀ hcb₀).1]; exact Bool.false_ne_true)] at hcb
      cases hcb
    · exact h.held ht hcb
  · intro cb hcb
    rcases List.mem_append.mp hcb with hold | hnew
    · exact h.collected hold
    · rw [List.mem_filterMap] at hnew
      obtain ⟨⟨a, cb?⟩, hmem, hsome⟩ := hnew
      obtain rfl : cb? = some cb := hsome
      dsimp only at hmem
      rw [hcollected, List.mem_map] at hmem
      obtain ⟨b, -, heq⟩ := hmem
      cases ht : timers.heap b with
      | none => simp [TimerManager.callbackAt, ht] at heq
      | some t =>
        have hcb' : t.cb = some cb := by
          have := congrArg Prod.snd heq
          simpa [TimerManager.callbackAt, ht] using this
        obtain ⟨-, f, io, hf, rfl⟩ := h.held ht hcb'
        exact ⟨io.onTimeout, rfl, hlive f io (HookPc.io?_of_timer? hf)⟩

end Armed

theorem Move.armed_move {s s' : Blocking ω} {a : BlockingAction ω} {e : HookEffect}
    (hm : Move s a e s') (h : Armed s.timers s.tinfos.length s.expired s.fiber)
    (howned : Owned s.tinfos s.fiber) :
    Armed s'.timers s'.tinfos.length s'.expired s'.fiber := by
  -- most steps keep the timer that the fiber has
  have hstay : ∀ {f pc}, pc.timer? = (s.fiber f).timer? →
      Armed s.timers s.tinfos.length s.expired (Function.update s.fiber f pc) :=
    fun htimer => h.keep htimer le_rfl fun _ hcb => hcb
  cases hm with
  | aside hio _ hnew => exact hstay (by rw [HookPc.timer?_of_io? hio, HookPc.timer?_of_io? hnew])
  | start hpc _ =>
    apply h.keep _ _ fun _ hcb => hcb
    · rw [hpc]
      rfl
    · rw [goto_tinfos, List.length_append]
      exact Nat.le_add_right ..
  | goesOn _ _ hold _ _ _ hnew _ => exact hstay (by rw [hold, hnew])
  | arm hpc hr => exact h.arm hr (by rw [hpc]; rfl) rfl
  | calling _ _ _ _ _ | outside _ _ _ => exact h
  | called _ _ hio _ _ _ _ hnew =>
    exact hstay (by rw [HookPc.timer?_of_io? hio, HookPc.timer?_of_io? hnew])
  | @registered f i io timer op r hpc hthread hop hact hret =>
    apply hstay
    rw [hpc]
    cases timer <;> rfl
  | @resume f i io timer hpc hwoken =>
    apply hstay
    rw [hpc]
    cases timer <;> rfl
  | @refused f i io timer op r t hpc hthread hop hact hret ht =>
    have hframe := cancelTimer_frame ht
    have htimer : (s.fiber f).timer? = timer.map fun a => (io, a) := by
      rw [hpc]
      cases timer <;> rfl
    have harmed := Armed.cancelTimer (s := s.wake r) h ht htimer (rfl : HookPc.out.timer? = none)
    rw [hframe]
    show Armed t.timers (s.tinfos.modify _ _).length s.expired (Function.update s.fiber f .out)
    rw [List.length_modify]
    exact harmed
  | @disarm f i io timer t hpc ht =>
    have htimer : (s.fiber f).timer? = timer.map fun a => (io, a) := by
      rw [hpc]
      cases timer <;> rfl
    have harmed := h.cancelTimer ht htimer (rfl : (HookPc.check io).timer? = none)
    rw [cancelTimer_frame ht]
    exact harmed
  | giveUp hpc _ _ =>
    apply h.keep
    · rw [hpc]
      rfl
    · exact le_of_eq (List.length_modify ..).symm
    · exact fun _ hcb => hcb
  | done hpc _ hwhere =>
    apply h.keep
    · rw [hpc]
      rcases hwhere with ⟨rfl, -⟩ | ⟨-, -, rfl, -⟩ <;> rfl
    · exact le_of_eq (List.length_modify ..).symm
    · exact fun _ hcb => hcb
  | expire hr =>
    apply h.expire hr
    intro f io hio
    exact ((howned.alive _).mpr ⟨f, HookPc.tinfo?_of_io? hio⟩).lt
  | late =>
    exact ⟨h.ordered, h.held, fun hcb => h.collected (List.mem_of_mem_eraseIdx hcb)⟩
  | timeout hpc _ _ _ _ _ =>
    apply h.keep
    · rw [hpc]
      rfl
    · exact le_of_eq (List.length_set ..).symm
    · exact fun _ hcb => List.mem_of_mem_eraseIdx hcb

end Blocking

end Azure
