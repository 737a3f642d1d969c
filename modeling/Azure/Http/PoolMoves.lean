import Azure.Http.Pool
import Azure.Reasoning.Ownership

/-!
# Owners of the connections of a pool

`Move` is the step function of the pool read backwards.  Every connection that has not been deleted
belongs to `m_conns`, to the users of the pool, or to one fiber inside it.
-/

namespace Azure

open Reasoning

namespace Pool

/-! ## What one step can do -/

inductive Move (limits : PoolLimits) (s : Pool) : PoolAction → PoolEffect → Pool → Prop
  | getConnection {f : FiberId} : s.fiber f = .out →
      Move limits s (.getConnection f) {} (s.goto f (.lock s.clock))
  | releasePtr {f : FiberId} {ptr : ConnId} : s.fiber f = .out → ptr ∈ s.callers →
      Move limits s (.releasePtr f ptr) {}
        ({ s with callers := s.callers.erase ptr }.goto f (.release ptr))
  | lock {f : FiberId} {ok : Bool} {now : UInt64} : s.fiber f = .lock now → s.mutex = none →
      Move limits s (.step f ok) {} ({ s with mutex := some f }.goto f (.scan now []))
  | empty {f : FiberId} {ok : Bool} {now : UInt64} {invalid : List ConnId} :
      s.fiber f = .scan now invalid → s.conns = [] →
      Move limits s (.step f ok) {}
        ({ s with mutex := none }.goto f (.dispose invalid.length invalid none))
  | invalid {f : FiberId} {ok : Bool} {now : UInt64} {invalid : List ConnId} {ptr : ConnId}
      {conns : List ConnId} : s.fiber f = .scan now invalid → s.conns = ptr :: conns →
      Move limits s (.step f ok) {} ({ s with conns }.goto f (.scan now (invalid ++ [ptr])))
  | take {f : FiberId} {ok : Bool} {now : UInt64} {invalid : List ConnId} {ptr : ConnId}
      {conns : List ConnId} {conn : HttpConnection} : s.fiber f = .scan now invalid →
      s.conns = ptr :: conns → s.deref ptr = some conn → conn.isConnected = true →
      limits.expired conn now = false →
      Move limits s (.step f ok) { taken := some ptr }
        ({ s with conns, mutex := none }.goto f (.dispose invalid.length invalid (some ptr)))
  | dispose {f : FiberId} {ok : Bool} {size : Nat} {i : ConnId} {left : List ConnId}
      {ptr : Option ConnId} : s.fiber f = .dispose size (i :: left) ptr → (s.deref i).isSome →
      Move limits s (.step f ok) { deleted := some i }
        ((s.modify i fun conn => { conn with freed := true }).goto f (.dispose size left ptr))
  | found {f : FiberId} {ok : Bool} {size : Nat} {ptr : ConnId} :
      s.fiber f = .dispose size [] (some ptr) →
      Move limits s (.step f ok) { ret := some (some ptr) }
        ({ s with total := s.total - Int32.ofNat size, callers := ptr :: s.callers }.goto f .out)
  | notFound {f : FiberId} {ok : Bool} {size : Nat} : s.fiber f = .dispose size [] none →
      Move limits s (.step f ok) {} ({ s with total := s.total - Int32.ofNat size }.goto f .connect)
  | fail {f : FiberId} : s.fiber f = .connect →
      Move limits s (.step f false) { ret := some none } (s.goto f .out)
  | connect {f : FiberId} : s.fiber f = .connect →
      Move limits s (.step f true) { created := some s.heap.length }
        ({ s with heap := s.heap ++ [({ createTime := s.clock } : HttpConnection)] }.goto f
          (.count s.heap.length))
  | count {f : FiberId} {ok : Bool} {ptr : ConnId} : s.fiber f = .count ptr →
      Move limits s (.step f ok) { ret := some (some ptr) }
        ({ s with total := s.total + 1, callers := ptr :: s.callers }.goto f .out)
  | retire {f : FiberId} {ok : Bool} {ptr : ConnId} {conn : HttpConnection} :
      s.fiber f = .release ptr → s.deref ptr = some conn →
      (conn.isConnected = false ∨ limits.expired conn s.clock = true ∨
        limits.maxRequest.toInt ≤ conn.request + 1) →
      Move limits s (.step f ok) {}
        ((s.modify ptr fun _ => { conn with request := conn.request + 1 }).goto f (.delete ptr))
  | keep {f : FiberId} {ok : Bool} {ptr : ConnId} {conn : HttpConnection} :
      s.fiber f = .release ptr → s.deref ptr = some conn → conn.isConnected = true →
      limits.expired conn s.clock = false → conn.request + 1 < limits.maxRequest.toInt →
      Move limits s (.step f ok) {}
        ((s.modify ptr fun _ => { conn with request := conn.request + 1 }).goto f (.pushBack ptr))
  | delete {f : FiberId} {ok : Bool} {ptr : ConnId} : s.fiber f = .delete ptr →
      (s.deref ptr).isSome →
      Move limits s (.step f ok) { deleted := some ptr }
        ((s.modify ptr fun conn => { conn with freed := true }).goto f .discount)
  | discount {f : FiberId} {ok : Bool} : s.fiber f = .discount →
      Move limits s (.step f ok) {} ({ s with total := s.total - 1 }.goto f .out)
  | pushBack {f : FiberId} {ok : Bool} {ptr : ConnId} : s.fiber f = .pushBack ptr →
      s.mutex = none →
      Move limits s (.step f ok) {} ({ s with conns := s.conns ++ [ptr] }.goto f .out)
  | close {ptr : ConnId} :
      Move limits s (.close ptr) {} (s.modify ptr fun conn => { conn with isConnected := false })
  | tick {now : UInt64} : Move limits s (.tick now) {} { s with clock := now }

variable {limits : PoolLimits} {s s' : Pool}

theorem step_move {f : FiberId} {ok : Bool} {eff : PoolEffect}
    (h : s.step limits f ok = some (eff, s')) : Move limits s (.step f ok) eff s' := by
  -- one bullet for each place in the source, in the order of `step`
  unfold step at h
  split at h
  · cases h
  · next hpc =>
    split at h
    · cases h
    · next hfree =>
      cases h
      exact .lock hpc (by simpa using hfree)
  · next now invalid hpc =>
    split at h
    · next hconns =>
      cases h
      exact .empty hpc hconns
    · next ptr conns hconns =>
      -- the connection at the front has been closed, has lived too long, or is handed out
      rcases Option.map_eq_some_iff.mp h with ⟨conn, hconn, heq⟩
      dsimp only at heq
      split at heq
      · cases heq
        exact .invalid hpc hconns
      · next hopen =>
        split at heq
        · cases heq
          exact .invalid hpc hconns
        · next hyoung =>
          cases heq
          exact .take hpc hconns hconn (by simpa using hopen) (by simpa using hyoung)
  · next hpc =>
    rcases Option.map_eq_some_iff.mp h with ⟨conn, hconn, heq⟩
    cases heq
    exact .dispose hpc (Option.isSome_of_eq_some hconn)
  · next hpc =>
    dsimp only at h
    split at h
    · cases h
      exact .found hpc
    · cases h
      exact .notFound hpc
  · next hpc =>
    cases ok with
    | false =>
      cases h
      exact .fail hpc
    | true =>
      cases h
      exact .connect hpc
  · next hpc =>
    cases h
    exact .count hpc
  · next hpc =>
    rcases Option.map_eq_some_iff.mp h with ⟨conn, hconn, heq⟩
    dsimp only at heq
    split at heq
    · next hend =>
      cases heq
      simp only [Bool.or_eq_true, Bool.not_eq_true', decide_eq_true_eq] at hend
      exact .retire hpc hconn (or_assoc.mp hend)
    · next hgood =>
      cases heq
      simp only [Bool.or_eq_true, Bool.not_eq_true', decide_eq_true_eq, not_or,
        Bool.not_eq_false, Bool.not_eq_true] at hgood
      exact .keep hpc hconn hgood.1.1 hgood.1.2 (by omega)
  · next hpc =>
    rcases Option.map_eq_some_iff.mp h with ⟨conn, hconn, heq⟩
    cases heq
    exact .delete hpc (Option.isSome_of_eq_some hconn)
  · next hpc =>
    cases h
    exact .discount hpc
  · next hpc =>
    split at h
    · cases h
    · next hfree =>
      cases h
      exact .pushBack hpc (by simpa using hfree)

theorem Step.move {e : Event} (h : Step limits s e s') : Move limits s e.1 e.2 s' := by
  rcases e with ⟨a, eff⟩
  have hact : s.act limits a = some (eff, s') := h
  cases a with
  | getConnection f =>
    simp only [act] at hact
    split at hact
    · next hpc =>
      cases hact
      exact .getConnection hpc
    · cases hact
  | releasePtr f ptr =>
    simp only [act] at hact
    split at hact
    · next hpc =>
      split at hact
      · next hptr =>
        cases hact
        exact .releasePtr hpc hptr
      · cases hact
    · cases hact
  | step f ok => exact step_move hact
  | close ptr =>
    cases hact
    exact .close
  | tick now =>
    cases hact
    exact .tick

/-! ## Owners -/

@[simp] theorem held_conns (s : Pool) : s.held .conns = s.conns := rfl

@[simp] theorem held_callers (s : Pool) : s.held .callers = s.callers := rfl

@[simp] theorem held_fiber (s : Pool) (f : FiberId) : s.held (.fiber f) = (s.fiber f).owned := rfl

@[simp] theorem held_goto_self (s : Pool) (f : FiberId) (pc : PoolPc) :
    (s.goto f pc).held (.fiber f) = pc.owned := by
  simp [goto]

theorem held_goto_of_ne (s : Pool) {f : FiberId} (pc : PoolPc) {o : ConnOwner}
    (ho : o ≠ .fiber f) : (s.goto f pc).held o = s.held o := by
  cases o with
  | conns => rfl
  | callers => rfl
  | fiber g =>
    have hg : g ≠ f := fun heq => ho (by rw [heq])
    simp [goto, Function.update_of_ne hg]

/-- A fiber that changes one of the two lists leaves the other owners alone. -/
theorem held_other {s t : Pool} {f : FiberId} {pc : PoolPc} {o : ConnOwner}
    (hfiber : t.fiber = s.fiber) (hf : o ≠ .fiber f) (hconns : o = .conns → t.conns = s.conns)
    (hcallers : o = .callers → t.callers = s.callers) : (t.goto f pc).held o = s.held o := by
  rw [held_goto_of_ne _ _ hf]
  cases o with
  | conns => exact hconns rfl
  | callers => exact hcallers rfl
  | fiber g => rw [held_fiber, held_fiber, hfiber]

theorem held_goto_same (s : Pool) {f : FiberId} {pc : PoolPc} (h : pc.owned = (s.fiber f).owned) :
    (s.goto f pc).held = s.held := by
  funext o
  by_cases ho : o = .fiber f
  · subst ho
    rw [held_goto_self, h, held_fiber]
  · exact held_goto_of_ne s pc ho

theorem deref_goto (s : Pool) (f : FiberId) (pc : PoolPc) (ptr : ConnId) :
    (s.goto f pc).deref ptr = s.deref ptr := rfl

theorem deref_modify_of_ne (s : Pool) {ptr p : ConnId} (g : HttpConnection → HttpConnection)
    (hne : p ≠ ptr) : (s.modify ptr g).deref p = s.deref p := by
  unfold deref
  rw [show (s.modify ptr g).heap[p]? = s.heap[p]? from List.getElem?_modify_ne _ _ hne.symm]

theorem deref_modify {ptr : ConnId} {g : HttpConnection → HttpConnection} {conn : HttpConnection}
    (h : s.deref ptr = some conn) (hg : (g conn).freed = false) :
    (s.modify ptr g).deref ptr = some (g conn) := by
  unfold deref at h ⊢
  rw [Option.filter_eq_some_iff] at h ⊢
  refine ⟨?_, by simp [hg]⟩
  show (s.heap.modify ptr g)[ptr]? = _
  rw [List.getElem?_modify_eq, h.1]
  rfl

theorem freed_of_deref {ptr : ConnId} {conn : HttpConnection} (h : s.deref ptr = some conn) :
    conn.freed = false := by
  unfold deref at h
  simpa using (Option.filter_eq_some_iff.mp h).2

theorem isSome_deref_modify {ptr p : ConnId} {g : HttpConnection → HttpConnection}
    (hg : ∀ conn, s.deref ptr = some conn → (g conn).freed = false) (h : (s.deref p).isSome) :
    ((s.modify ptr g).deref p).isSome := by
  rcases Option.isSome_iff_exists.mp h with ⟨conn, hconn⟩
  by_cases hp : p = ptr
  · subst hp
    rw [deref_modify hconn (hg conn hconn)]
    rfl
  · rw [deref_modify_of_ne s g hp, hconn]
    rfl

theorem deref_lt {ptr : ConnId} (h : (s.deref ptr).isSome) : ptr < s.heap.length := by
  by_contra hge
  unfold deref at h
  rw [List.getElem?_eq_none (Nat.le_of_not_lt hge)] at h
  cases h

structure Owned (s : Pool) : Prop where
  exclusive : Exclusive s.held
  live : ∀ o, ∀ ptr ∈ s.held o, (s.deref ptr).isSome

namespace Owned

theorem same (h : Owned s) (hheld : s'.held = s.held)
    (hlive : ∀ p, (s.deref p).isSome → (s'.deref p).isSome) : Owned s' where
  exclusive := by
    rw [hheld]
    exact h.exclusive
  live := fun o ptr hptr => by
    rw [hheld] at hptr
    exact hlive ptr (h.live o ptr hptr)

theorem handOver (h : Owned s) (src dst : ConnOwner) (ptr : ConnId)
    (hsrc : (s.held src).Perm (ptr :: s'.held src)) (hdst : (s'.held dst).Perm (ptr :: s.held dst))
    (hother : ∀ o, o ≠ src → o ≠ dst → s'.held o = s.held o)
    (hlive : ∀ p, (s.deref p).isSome → (s'.deref p).isSome) : Owned s' where
  exclusive := h.exclusive.handOver src dst ptr hsrc hdst fun o ho ho' => by rw [hother o ho ho']
  live := fun o p hp => by
    apply hlive
    by_cases hd : o = dst
    · subst hd
      rcases List.mem_cons.mp (hdst.mem_iff.mp hp) with rfl | hmem
      · exact h.live src p (hsrc.mem_iff.mpr (List.mem_cons_self ..))
      · exact h.live o p hmem
    · by_cases hs : o = src
      · subst hs
        exact h.live o p (hsrc.mem_iff.mpr (List.mem_cons_of_mem _ hp))
      · rw [hother o hs hd] at hp
        exact h.live o p hp

/-- A fiber deletes what it has. -/
theorem free (h : Owned s) {f : FiberId} {ptr : ConnId} {pc : PoolPc}
    (hsrc : (s.fiber f).owned = ptr :: pc.owned) :
    Owned ((s.modify ptr fun conn => { conn with freed := true }).goto f pc) where
  exclusive := h.exclusive.letGo fun o => by
    by_cases ho : o = .fiber f
    · subst ho
      rw [held_goto_self, held_fiber, hsrc]
      exact (List.sublist_cons_self _ _).subperm
    · rw [held_goto_of_ne _ _ ho]
      rfl
  live := fun o p hp => by
    have hmine : ptr ∈ s.held (.fiber f) := by
      rw [held_fiber, hsrc]
      exact List.mem_cons_self ..
    have hold : p ∈ s.held o ∧ p ≠ ptr := by
      by_cases ho : o = .fiber f
      · subst ho
        rw [held_goto_self] at hp
        have hnodup := h.exclusive.once (.fiber f)
        rw [held_fiber, hsrc, List.nodup_cons] at hnodup
        refine ⟨by rw [held_fiber, hsrc]; exact List.mem_cons_of_mem _ hp, ?_⟩
        rintro rfl
        exact hnodup.1 hp
      · rw [held_goto_of_ne _ _ ho] at hp
        refine ⟨hp, ?_⟩
        rintro rfl
        exact ho (h.exclusive.one hp hmine)
    rw [deref_goto, deref_modify_of_ne _ _ hold.2]
    exact h.live o p hold.1

end Owned

theorem Owned.move {a : PoolAction} {eff : PoolEffect} (h : Owned s)
    (hm : Move limits s a eff s') : Owned s' := by
  -- a fiber that goes on with the same pointers
  have hsame : ∀ {t : Pool} {f : FiberId} {pc : PoolPc}, t.held = s.held →
      (∀ p, (s.deref p).isSome → (t.deref p).isSome) → pc.owned = (t.fiber f).owned →
      Owned (t.goto f pc) := by
    intro t f pc hheld hlive hpc
    exact h.same ((held_goto_same t hpc).trans hheld) hlive
  cases hm with
  | getConnection hpc => exact hsame rfl (fun _ hp => hp) (by rw [hpc]; rfl)
  | lock hpc => exact hsame rfl (fun _ hp => hp) (by simp only [hpc]; rfl)
  | empty hpc =>
    exact hsame rfl (fun _ hp => hp) (by simp only [hpc]; simp [PoolPc.owned])
  | notFound hpc => exact hsame rfl (fun _ hp => hp) (by simp only [hpc]; rfl)
  | fail hpc => exact hsame rfl (fun _ hp => hp) (by rw [hpc]; rfl)
  | discount hpc => exact hsame rfl (fun _ hp => hp) (by simp only [hpc]; rfl)
  | retire hpc hconn =>
    have hfreed := freed_of_deref hconn
    exact hsame rfl (fun p => isSome_deref_modify fun _ _ => hfreed)
      (by show [_] = (s.fiber _).owned; rw [hpc]; rfl)
  | keep hpc hconn =>
    have hfreed := freed_of_deref hconn
    exact hsame rfl (fun p => isSome_deref_modify fun _ _ => hfreed)
      (by show [_] = (s.fiber _).owned; rw [hpc]; rfl)
  | close =>
    refine h.same rfl fun p => isSome_deref_modify fun conn hconn => ?_
    exact (freed_of_deref hconn :)
  | tick => exact h.same rfl fun _ hp => hp
  | dispose hpc => exact h.free (by rw [hpc]; rfl)
  | delete hpc => exact h.free (by rw [hpc]; rfl)
  | @releasePtr f ptr hpc hptr =>
    apply h.handOver .callers (.fiber f) ptr
    · exact List.perm_cons_erase hptr
    · rw [held_goto_self, held_fiber, hpc]
      rfl
    · exact fun o ho hf => held_other rfl hf (fun _ => rfl) fun h => absurd h ho
    · exact fun _ hp => hp
  | @invalid f ok now invalid ptr conns hpc hconns =>
    apply h.handOver .conns (.fiber f) ptr
    · rw [held_conns, hconns]
      rfl
    · rw [held_goto_self, held_fiber, hpc]
      exact List.perm_append_singleton ptr invalid
    · exact fun o ho hf => held_other rfl hf (fun h => absurd h ho) fun _ => rfl
    · exact fun _ hp => hp
  | @take f ok now invalid ptr conns conn hpc hconns =>
    apply h.handOver .conns (.fiber f) ptr
    · rw [held_conns, hconns]
      rfl
    · rw [held_goto_self, held_fiber, hpc]
      exact List.perm_append_singleton ptr invalid
    · exact fun o ho hf => held_other rfl hf (fun h => absurd h ho) fun _ => rfl
    · exact fun _ hp => hp
  | @found f ok size ptr hpc =>
    apply h.handOver (.fiber f) .callers ptr
    · rw [held_goto_self, held_fiber, hpc]
      rfl
    · rfl
    · exact fun o hf ho => held_other rfl hf (fun _ => rfl) fun h => absurd h ho
    · exact fun _ hp => hp
  | @connect f hpc =>
    have hderef : ∀ p, (s.deref p).isSome →
        (deref { s with heap := s.heap ++ [({ createTime := s.clock } : HttpConnection)] } p).isSome := by
      intro p hp
      unfold deref at hp ⊢
      rw [List.getElem?_append_left (deref_lt hp)]
      exact hp
    -- a new connection has a number that nobody has
    constructor
    · apply h.exclusive.find (.fiber f) s.heap.length
      · intro o hmem
        exact Nat.lt_irrefl _ (deref_lt (h.live o _ hmem))
      · rw [held_goto_self, held_fiber, hpc]
        rfl
      · intro o ho
        rw [held_goto_of_ne _ _ ho]
        rfl
    · intro o p hp
      by_cases ho : o = .fiber f
      · subst ho
        rw [held_goto_self] at hp
        rw [List.mem_singleton.mp hp, deref_goto]
        unfold deref
        rw [List.getElem?_concat_length]
        rfl
      · rw [held_goto_of_ne _ _ ho] at hp
        exact hderef p (h.live o p hp)
  | @count f ok ptr hpc =>
    apply h.handOver (.fiber f) .callers ptr
    · rw [held_goto_self, held_fiber, hpc]
      rfl
    · rfl
    · exact fun o hf ho => held_other rfl hf (fun _ => rfl) fun h => absurd h ho
    · exact fun _ hp => hp
  | @pushBack f ok ptr hpc =>
    apply h.handOver (.fiber f) .conns ptr
    · rw [held_goto_self, held_fiber, hpc]
      rfl
    · exact List.perm_append_singleton ptr s.conns
    · exact fun o hf ho => held_other rfl hf (fun h => absurd h ho) fun _ => rfl
    · exact fun _ hp => hp

/-! ## What stays -/

end Pool

def PoolAction.actor : PoolAction → Option FiberId
  | getConnection f | releasePtr f _ | step f _ => some f
  | close _ | tick _ => none

namespace Pool

theorem fiber_goto_of_ne (s : Pool) {f g : FiberId} (pc : PoolPc) (h : g ≠ f) :
    (s.goto f pc).fiber g = s.fiber g := Function.update_of_ne h ..

theorem fiber_goto_self (s : Pool) (f : FiberId) (pc : PoolPc) : (s.goto f pc).fiber f = pc :=
  Function.update_self ..

theorem Move.fiber_of_ne {a : PoolAction} {eff : PoolEffect} (hm : Move limits s a eff s')
    {g : FiberId} (hg : a.actor ≠ some g) : s'.fiber g = s.fiber g := by
  cases hm with
  | close | tick => rfl
  | _ => exact fiber_goto_of_ne _ _ fun heq => hg (congrArg some heq.symm)

/-- A socket that is closed stays closed, and what has been deleted stays deleted. -/
theorem Move.heap_mono {a : PoolAction} {eff : PoolEffect} (hm : Move limits s a eff s')
    {ptr : ConnId} {conn : HttpConnection} (h : s.heap[ptr]? = some conn) :
    ∃ conn', s'.heap[ptr]? = some conn' ∧ (conn.freed = true → conn'.freed = true) ∧
      (conn.isConnected = false → conn'.isConnected = false) := by
  -- a store keeps what a connection has come to
  have hmodify : ∀ (p : ConnId) (g : HttpConnection → HttpConnection),
      (p = ptr → (conn.freed = true → (g conn).freed = true) ∧
        (conn.isConnected = false → (g conn).isConnected = false)) →
      ∃ conn', (s.heap.modify p g)[ptr]? = some conn' ∧ (conn.freed = true → conn'.freed = true) ∧
        (conn.isConnected = false → conn'.isConnected = false) := by
    intro p g hg
    by_cases hp : p = ptr
    · subst hp
      refine ⟨g conn, ?_, hg rfl⟩
      rw [List.getElem?_modify_eq, h]
      rfl
    · exact ⟨conn, by rw [List.getElem?_modify_ne _ _ hp, h], id, id⟩
  have hsame : ∀ {c : HttpConnection}, s.deref ptr = some c → c = conn := by
    intro c hc
    unfold deref at hc
    exact Option.some.inj ((Option.filter_eq_some_iff.mp hc).1.symm.trans h)
  cases hm with
  | dispose | delete => exact hmodify _ _ fun _ => ⟨fun _ => rfl, id⟩
  | close => exact hmodify _ _ fun _ => ⟨id, fun _ => rfl⟩
  | retire _ hconn | keep _ hconn =>
    apply hmodify
    rintro rfl
    rw [hsame hconn]
    exact ⟨id, id⟩
  | connect =>
    refine ⟨conn, ?_, id, id⟩
    show (s.heap ++ _)[ptr]? = _
    rw [List.getElem?_append_left (List.getElem?_eq_some_iff.mp h).choose, h]
  | _ => exact ⟨conn, h, id, id⟩

end Pool

end Azure
