import Azure.Http.PoolMoves

/-!
# Accounting of the pool

What is idle has not been used up, and `m_total` lags behind the lists by what the fibers inside the
pool still have to count.
-/

namespace Azure

open Reasoning

namespace Pool

variable {limits : PoolLimits} {s s' : Pool}

/-! ## Use counts -/

/-- What is idle, or about to be, may be used again. -/
structure Reusable (limits : PoolLimits) (s : Pool) : Prop where
  idle : ∀ ptr ∈ s.conns, ∀ conn, s.deref ptr = some conn →
    conn.request < limits.maxRequest.toInt
  next : ∀ f ptr, s.fiber f = .pushBack ptr → ∀ conn, s.deref ptr = some conn →
    conn.request < limits.maxRequest.toInt

theorem deref_of_modify {ptr p : ConnId} {g : HttpConnection → HttpConnection}
    {conn : HttpConnection} (hg : ∀ conn, conn.freed = true → (g conn).freed = true)
    (h : (s.modify ptr g).deref p = some conn) :
    (p ≠ ptr ∧ s.deref p = some conn) ∨
      (p = ptr ∧ ∃ old, s.deref ptr = some old ∧ conn = g old) := by
  by_cases hp : p = ptr
  · subst hp
    right
    unfold deref at h ⊢
    rw [Option.filter_eq_some_iff] at h
    rw [show (s.modify p g).heap[p]? = (s.heap[p]?).map g from by
      show (s.heap.modify p g)[p]? = _
      rw [List.getElem?_modify_eq]; rfl] at h
    rcases Option.map_eq_some_iff.mp h.1 with ⟨old, hold, rfl⟩
    refine ⟨rfl, old, ?_, rfl⟩
    rw [Option.filter_eq_some_iff]
    refine ⟨hold, ?_⟩
    by_contra hfreed
    have := hg old (by simpa using hfreed)
    simp [this] at h
  · left
    rw [deref_modify_of_ne s g hp] at h
    exact ⟨hp, h⟩

/-- The control state and the counts stay as they are, for all that is or becomes idle. -/
theorem Reusable.of_less (h : Reusable limits s)
    (hconns : ∀ ptr ∈ s'.conns, ptr ∈ s.conns ∨ ∃ f, s.fiber f = .pushBack ptr)
    (hpc : ∀ f ptr, s'.fiber f = .pushBack ptr → s.fiber f = .pushBack ptr)
    (hderef : ∀ ptr conn, (∃ o, ptr ∈ s.held o) → s'.deref ptr = some conn →
      ∃ old, s.deref ptr = some old ∧ conn.request = old.request) : Reusable limits s' where
  idle := fun ptr hptr conn hconn => by
    rcases hconns ptr hptr with hmem | ⟨f, hf⟩
    · obtain ⟨old, hold, heq⟩ := hderef ptr conn ⟨.conns, hmem⟩ hconn
      rw [heq]
      exact h.idle ptr hmem old hold
    · obtain ⟨old, hold, heq⟩ := hderef ptr conn
        ⟨.fiber f, by rw [held_fiber, hf]; exact List.mem_singleton_self ptr⟩ hconn
      rw [heq]
      exact h.next f ptr hf old hold
  next := fun f ptr hf conn hconn => by
    have hold := hpc f ptr hf
    obtain ⟨old, hderef, heq⟩ := hderef ptr conn
      ⟨.fiber f, by rw [held_fiber, hold]; exact List.mem_singleton_self ptr⟩ hconn
    rw [heq]
    exact h.next f ptr hold old hderef

theorem goto_pushBack {t : Pool} {f g : FiberId} {pc : PoolPc} {ptr : ConnId}
    (hpc : pc ≠ .pushBack ptr) (h : (t.goto f pc).fiber g = .pushBack ptr) :
    t.fiber g = .pushBack ptr := by
  by_cases hg : g = f
  · subst hg
    exact absurd (by simpa [goto] using h) hpc
  · simpa [goto, Function.update_of_ne hg] using h

/-- `ReleasePtr` writes to a connection that no other owner has. -/
theorem Reusable.release (h : Reusable limits s) (ho : Owned s) {f : FiberId} {ptr : ConnId}
    {conn : HttpConnection} {pc : PoolPc} (hf : s.fiber f = .release ptr)
    (hpc : ∀ p, pc = .pushBack p → p = ptr ∧ conn.request < limits.maxRequest.toInt)
    (hfreed : conn.freed = false) (hderef : (s.deref ptr).isSome) :
    Reusable limits ((s.modify ptr fun _ => conn).goto f pc) := by
  -- the fiber alone has the connection
  have hmine : ptr ∈ s.held (.fiber f) := by
    rw [held_fiber, hf]
    exact List.mem_singleton_self ptr
  rcases Option.isSome_iff_exists.mp hderef with ⟨old, hold⟩
  constructor
  · intro p hp c hc
    have hne : p ≠ ptr := by
      rintro rfl
      cases ho.exclusive.one (o := .conns) hp hmine
    rw [deref_goto, deref_modify_of_ne _ _ hne] at hc
    exact h.idle p hp c hc
  · intro g p hg c hc
    rw [deref_goto] at hc
    by_cases hgf : g = f
    · subst hgf
      obtain ⟨rfl, hless⟩ := hpc p (by simpa [goto] using hg)
      rw [deref_modify hold hfreed, Option.some.injEq] at hc
      rw [← hc]
      exact hless
    · have hg' : s.fiber g = .pushBack p := by
        simpa [goto, modify, Function.update_of_ne hgf] using hg
      have hne : p ≠ ptr := by
        rintro rfl
        have hother : p ∈ s.held (.fiber g) := by
          rw [held_fiber, hg']
          exact List.mem_singleton_self p
        cases ho.exclusive.one hother hmine
        exact hgf rfl
      rw [deref_modify_of_ne _ _ hne] at hc
      exact h.next g p hg' c hc

theorem Reusable.move {a : PoolAction} {eff : PoolEffect} (h : Reusable limits s) (ho : Owned s)
    (hm : Move limits s a eff s') : Reusable limits s' := by
  -- a step that leaves the connections alone, and one that keeps their counts of requests
  have hsame : ∀ {t : Pool}, t.heap = s.heap → ∀ ptr conn, (∃ o, ptr ∈ s.held o) →
      t.deref ptr = some conn → ∃ old, s.deref ptr = some old ∧ conn.request = old.request := by
    intro t ht ptr conn _ hconn
    unfold deref at hconn
    rw [ht] at hconn
    exact ⟨conn, hconn, rfl⟩
  have hkept : ∀ {ptr : ConnId} {g : HttpConnection → HttpConnection},
      (∀ conn, conn.freed = true → (g conn).freed = true) → (∀ conn, (g conn).request = conn.request) →
      ∀ p conn, (∃ o, p ∈ s.held o) → (s.modify ptr g).deref p = some conn →
        ∃ old, s.deref p = some old ∧ conn.request = old.request := by
    intro ptr g hfreed hrequest p conn _ hconn
    rcases deref_of_modify hfreed hconn with ⟨-, hold⟩ | ⟨rfl, old, hold, rfl⟩
    · exact ⟨conn, hold, rfl⟩
    · exact ⟨old, hold, hrequest old⟩
  cases hm with
  | getConnection | releasePtr | lock | empty | found | notFound | fail | count | discount =>
    exact h.of_less (fun _ => .inl) (fun _ _ => goto_pushBack (by simp)) (hsame rfl)
  | invalid hpc hconns =>
    refine h.of_less (fun p hp => .inl ?_) (fun _ _ => goto_pushBack (by simp)) (hsame rfl)
    rw [hconns]
    exact List.mem_cons_of_mem _ hp
  | take hpc hconns =>
    refine h.of_less (fun p hp => .inl ?_) (fun _ _ => goto_pushBack (by simp)) (hsame rfl)
    rw [hconns]
    exact List.mem_cons_of_mem _ hp
  | dispose | delete =>
    exact h.of_less (fun _ => .inl) (fun _ _ => goto_pushBack (by simp))
      (hkept (fun _ _ => rfl) fun _ => rfl)
  | close => exact h.of_less (fun _ => .inl) (fun _ _ => id) (hkept (fun _ => id) fun _ => rfl)
  | tick => exact h.of_less (fun _ => .inl) (fun _ _ => id) (hsame rfl)
  | connect =>
    refine h.of_less (fun _ => .inl) (fun _ _ => goto_pushBack (by simp)) ?_
    rintro ptr conn ⟨o, hmem⟩ hconn
    have hlt := deref_lt (ho.live o ptr hmem)
    rw [deref_goto] at hconn
    unfold deref at hconn
    rw [List.getElem?_append_left hlt] at hconn
    exact ⟨conn, hconn, rfl⟩
  | retire hpc hconn =>
    have hfreed := freed_of_deref hconn
    exact h.release ho hpc (fun p hp => by cases hp) hfreed (Option.isSome_of_eq_some hconn)
  | keep hpc hconn _ _ hless =>
    have hfreed := freed_of_deref hconn
    refine h.release ho hpc (fun p hp => ?_) hfreed (Option.isSome_of_eq_some hconn)
    cases hp
    exact ⟨rfl, hless⟩
  | @pushBack f ok ptr hpc =>
    refine h.of_less (fun p hp => ?_) (fun _ _ => goto_pushBack (by simp)) (hsame rfl)
    rcases List.mem_append.mp hp with hmem | hmem
    · exact .inl hmem
    · rw [List.mem_singleton.mp hmem]
      exact .inr ⟨f, hpc⟩

/-! ## Sums -/

theorem countP_modify {α : Type*} (p : α → Bool) (g : α → α) {l : List α} {i : Nat} {a : α}
    (h : l[i]? = some a) :
    (l.modify i g).countP p + (if p a then 1 else 0) = l.countP p + if p (g a) then 1 else 0 := by
  induction l generalizing i with
  | nil => cases h
  | cons b l ih =>
    cases i with
    | zero =>
      cases h
      rw [List.modify_zero_cons, List.countP_cons, List.countP_cons]
      omega
    | succ i =>
      rw [List.modify_succ_cons, List.countP_cons, List.countP_cons]
      have := ih (by simpa using h)
      omega

theorem getElem?_of_deref {ptr : ConnId} {conn : HttpConnection} (h : s.deref ptr = some conn) :
    s.heap[ptr]? = some conn := by
  unfold deref at h
  exact (Option.filter_eq_some_iff.mp h).1

theorem alive_modify (s : Pool) (ptr : ConnId) (g : HttpConnection → HttpConnection)
    (hg : ∀ conn, s.heap[ptr]? = some conn → (g conn).freed = conn.freed) :
    (s.modify ptr g).alive = s.alive := by
  unfold alive
  show (s.heap.modify ptr g).countP _ = _
  cases hptr : s.heap[ptr]? with
  | none =>
    rw [List.modify_eq_self]
    exact List.getElem?_eq_none_iff.mp hptr
  | some conn =>
    have := countP_modify (fun conn : HttpConnection => !conn.freed) g hptr
    rw [hg conn hptr] at this
    omega

/-- `ReleasePtr` counts a request, and the connection is as alive as before. -/
theorem alive_request {ptr : ConnId} {conn : HttpConnection} (h : s.deref ptr = some conn) :
    (s.modify ptr fun _ => { conn with request := conn.request + 1 }).alive = s.alive := by
  apply alive_modify
  intro c hc
  rw [getElem?_of_deref h] at hc
  cases hc
  rfl

theorem alive_free {ptr : ConnId} (h : (s.deref ptr).isSome) :
    (s.modify ptr fun conn => { conn with freed := true }).alive + 1 = s.alive := by
  rcases Option.isSome_iff_exists.mp h with ⟨conn, hconn⟩
  have := countP_modify (fun conn : HttpConnection => !conn.freed)
    (fun conn => { conn with freed := true }) (getElem?_of_deref hconn)
  rw [freed_of_deref hconn] at this
  exact this

/-- What a step adds to the lists and to the load of one fiber is what it adds to the counters. -/
structure Balance (s s' : Pool) (f : FiberId) (pc : PoolPc) : Prop where
  fiber : s'.fiber = Function.update s.fiber f pc
  total : ∃ up down : Nat, s'.total = s.total + Int32.ofNat up - Int32.ofNat down ∧
    s.conns.length + s.callers.length + (s.fiber f).counted + up =
      s'.conns.length + s'.callers.length + pc.counted + down
  alive : s.conns.length + s.callers.length + (s.fiber f).owned.length + s'.alive =
    s'.conns.length + s'.callers.length + pc.owned.length + s.alive

theorem Move.balance {a : PoolAction} {eff : PoolEffect} (hm : Move limits s a eff s') :
    ∃ f pc, Balance s s' f pc := by
  -- most steps do not touch `m_total`
  have hstay : s.total = s.total + Int32.ofNat 0 - Int32.ofNat 0 := by simp
  cases hm with
  | @close ptr =>
    have halive := alive_modify s ptr
      (fun conn => { conn with isConnected := false }) fun _ _ => rfl
    refine ⟨0, s.fiber 0, (Function.update_eq_self 0 s.fiber).symm, ⟨0, 0, hstay, rfl⟩, ?_⟩
    rw [halive]
    rfl
  | tick => exact ⟨0, s.fiber 0, (Function.update_eq_self 0 s.fiber).symm, ⟨0, 0, hstay, rfl⟩, rfl⟩
  | @getConnection f hpc =>
    refine ⟨f, _, rfl, ⟨0, 0, hstay, ?_⟩, ?_⟩ <;> rw [hpc] <;> rfl
  | @releasePtr f ptr hpc hptr =>
    have hlength := List.length_erase_of_mem hptr
    have hpos := List.length_pos_of_mem hptr
    refine ⟨f, _, rfl, ⟨0, 0, hstay, ?_⟩, ?_⟩ <;> rw [hpc] <;>
      simp only [goto, PoolPc.counted, PoolPc.owned, List.length_nil, List.length_cons, alive] <;>
      omega
  | @lock f ok now hpc =>
    refine ⟨f, _, rfl, ⟨0, 0, hstay, ?_⟩, ?_⟩ <;> rw [hpc] <;> rfl
  | @empty f ok now invalid hpc =>
    refine ⟨f, _, rfl, ⟨0, 0, hstay, ?_⟩, ?_⟩ <;> rw [hpc] <;>
      simp [goto, PoolPc.counted, PoolPc.owned, alive]
  | @invalid f ok now invalid ptr conns hpc hconns =>
    refine ⟨f, _, rfl, ⟨0, 0, hstay, ?_⟩, ?_⟩ <;> rw [hpc, hconns] <;>
      simp [goto, PoolPc.counted, PoolPc.owned, alive] <;> omega
  | @take f ok now invalid ptr conns conn hpc hconns =>
    refine ⟨f, _, rfl, ⟨0, 0, hstay, ?_⟩, ?_⟩ <;> rw [hpc, hconns] <;>
      simp [goto, PoolPc.counted, PoolPc.owned, alive] <;> omega
  | @dispose f ok size i left ptr hpc hlive =>
    have halive := alive_free hlive
    refine ⟨f, _, rfl, ⟨0, 0, hstay, ?_⟩, ?_⟩ <;> rw [hpc]
    · rfl
    · rw [← halive]
      simp [goto, modify, PoolPc.owned, alive]
      omega
  | @found f ok size ptr hpc =>
    refine ⟨f, _, rfl, ⟨0, size, by simp [goto], ?_⟩, ?_⟩ <;> rw [hpc] <;>
      simp [goto, PoolPc.counted, PoolPc.owned, alive] <;> omega
  | @notFound f ok size hpc =>
    refine ⟨f, _, rfl, ⟨0, size, by simp [goto], ?_⟩, ?_⟩ <;> rw [hpc] <;>
      simp [goto, PoolPc.counted, PoolPc.owned, alive]
  | @fail f hpc =>
    refine ⟨f, _, rfl, ⟨0, 0, hstay, ?_⟩, ?_⟩ <;> rw [hpc] <;> rfl
  | @connect f hpc =>
    refine ⟨f, _, rfl, ⟨0, 0, hstay, ?_⟩, ?_⟩ <;> rw [hpc]
    · rfl
    · simp [goto, PoolPc.owned, alive]
      omega
  | @count f ok ptr hpc =>
    refine ⟨f, _, rfl, ⟨1, 0, by simp [goto], ?_⟩, ?_⟩ <;> rw [hpc] <;>
      simp [goto, PoolPc.counted, PoolPc.owned, alive] <;> omega
  | @retire f ok ptr conn hpc hconn | @keep f ok ptr conn hpc hconn =>
    have halive := alive_request hconn
    refine ⟨f, _, rfl, ⟨0, 0, hstay, ?_⟩, ?_⟩ <;> rw [hpc]
    · rfl
    · rw [← halive]
      rfl
  | @delete f ok ptr hpc hlive =>
    have halive := alive_free hlive
    refine ⟨f, _, rfl, ⟨0, 0, hstay, ?_⟩, ?_⟩ <;> rw [hpc]
    · rfl
    · rw [← halive]
      simp [goto, modify, PoolPc.owned, alive]
      omega
  | @discount f ok hpc =>
    refine ⟨f, _, rfl, ⟨0, 1, by simp [goto], ?_⟩, ?_⟩ <;> rw [hpc] <;>
      simp [goto, PoolPc.counted, PoolPc.owned, alive]
  | @pushBack f ok ptr hpc =>
    refine ⟨f, _, rfl, ⟨0, 0, hstay, ?_⟩, ?_⟩ <;> rw [hpc] <;>
      simp [goto, PoolPc.counted, PoolPc.owned, alive] <;> omega

/-- `m_total` counts what is idle, what is checked out, and what is on the way. -/
def Counted (s : Pool) : Prop :=
  ∃ n, Tally .out PoolPc.counted s.fiber n ∧
    s.total = Int32.ofNat (s.conns.length + s.callers.length + n)

/-- A connection that has not been deleted is idle, checked out, or on the way. -/
def Accounted (s : Pool) : Prop :=
  ∃ n, Tally .out (fun pc => pc.owned.length) s.fiber n ∧
    s.alive = s.conns.length + s.callers.length + n

theorem Counted.move {a : PoolAction} {eff : PoolEffect} (h : Counted s)
    (hm : Move limits s a eff s') : Counted s' := by
  obtain ⟨n, htally, htotal⟩ := h
  obtain ⟨f, pc, hfiber, ⟨up, down, hcounter, hsum⟩, -⟩ := hm.balance
  obtain ⟨m, rfl, hupdate⟩ := htally.update rfl f
  refine ⟨m + pc.counted, by rw [hfiber]; exact hupdate pc, ?_⟩
  rw [hcounter, htotal, ← Int32.ofNat_add, show s.conns.length + s.callers.length +
    (m + (s.fiber f).counted) + up = s'.conns.length + s'.callers.length + (m + pc.counted) + down by
      omega, Int32.ofNat_add, Int32.add_sub_cancel]

theorem Accounted.move {a : PoolAction} {eff : PoolEffect} (h : Accounted s)
    (hm : Move limits s a eff s') : Accounted s' := by
  obtain ⟨n, htally, halive⟩ := h
  obtain ⟨f, pc, hfiber, -, hsum⟩ := hm.balance
  obtain ⟨m, rfl, hupdate⟩ := htally.update rfl f
  exact ⟨m + pc.owned.length, by rw [hfiber]; exact hupdate pc, by omega⟩

/-! ## Runs -/

def new (clock : UInt64) : Pool := { clock }

structure Kept (limits : PoolLimits) (s : Pool) : Prop where
  owned : Owned s
  reusable : Reusable limits s
  counted : Counted s
  accounted : Accounted s

theorem kept_new (clock : UInt64) : Kept limits (new clock) := by
  have hheld : ∀ o, (new clock).held o = [] := by
    intro o
    cases o <;> rfl
  have hidle : ∀ f, (new clock).fiber f = .out := fun _ => rfl
  refine ⟨⟨⟨fun o => ?_, fun {o o' r} hr => ?_⟩, fun o ptr hptr => ?_⟩, ⟨?_, ?_⟩, ?_, ?_⟩
  · rw [hheld o]
    exact List.nodup_nil
  · rw [hheld o] at hr
    cases hr
  · rw [hheld o] at hptr
    cases hptr
  · intro ptr hptr
    cases hptr
  · intro f ptr hf
    cases hf
  · exact ⟨0, .of_idle hidle, rfl⟩
  · exact ⟨0, .of_idle hidle, rfl⟩

theorem Kept.step {e : Event} (h : Kept limits s) (hs : Step limits s e s') : Kept limits s' where
  owned := h.owned.move hs.move
  reusable := h.reusable.move h.owned hs.move
  counted := h.counted.move hs.move
  accounted := h.accounted.move hs.move

theorem kept_of_run {clock : UInt64} {hist : List Event}
    (hrun : Run (Step limits) (new clock) hist s) : Kept limits s :=
  hrun.invariant (Kept limits) (kept_new clock) fun _ _ _ h hs => h.step hs

/-- The latest call of `getConnection` by `f` in `hist` has read `now`. -/
def Began (limits : PoolLimits) (init : Pool) (hist : List Event) (f : FiberId) (now : UInt64) :
    Prop :=
  ∃ hist₁ s₁ hist₂, hist = hist₁ ++ (.getConnection f, ({} : PoolEffect)) :: hist₂ ∧
    Run (Step limits) init hist₁ s₁ ∧ s₁.clock = now ∧ ∀ e ∈ hist₂, e.1 ≠ .getConnection f

theorem Began.snoc {init : Pool} {hist : List Event} {f : FiberId} {now : UInt64} {e : Event}
    (h : Began limits init hist f now) (he : e.1 ≠ .getConnection f) :
    Began limits init (hist ++ [e]) f now := by
  obtain ⟨hist₁, s₁, hist₂, rfl, hrun, hclock, hlater⟩ := h
  refine ⟨hist₁, s₁, hist₂ ++ [e], by simp, hrun, hclock, fun e' he' => ?_⟩
  rcases List.mem_append.mp he' with hmem | hmem
  · exact hlater e' hmem
  · rw [List.mem_singleton.mp hmem]
    exact he

theorem Move.now {a : PoolAction} {eff : PoolEffect} (hm : Move limits s a eff s') {f : FiberId}
    {now : UInt64} (h : (s'.fiber f).now = some now) :
    (a = .getConnection f ∧ eff = {} ∧ s.clock = now) ∨
      (a ≠ .getConnection f ∧ (s.fiber f).now = some now) := by
  -- no other place than those before the scan keeps a time
  have hgoto : ∀ {t : Pool} {g : FiberId} {pc : PoolPc}, t.fiber = s.fiber →
      (pc.now = none ∨ pc.now = (s.fiber g).now) →
      ((t.goto g pc).fiber f).now = some now → (s.fiber f).now = some now := by
    intro t g pc hfiber hpc hnow
    by_cases hf : f = g
    · subst hf
      rw [show (t.goto f pc).fiber f = pc from Function.update_self ..] at hnow
      rcases hpc with hnone | hsame
      · rw [hnone] at hnow
        cases hnow
      · rw [← hsame]
        exact hnow
    · rw [show (t.goto g pc).fiber f = t.fiber f from Function.update_of_ne hf .., hfiber] at hnow
      exact hnow
  cases hm with
  | @getConnection g hpc =>
    by_cases hf : f = g
    · subst hf
      rw [show (s.goto f (.lock s.clock)).fiber f = .lock s.clock from Function.update_self ..] at h
      exact .inl ⟨rfl, rfl, Option.some.inj h⟩
    · refine .inr ⟨fun heq => hf (by cases heq; rfl), ?_⟩
      rw [show (s.goto g (.lock s.clock)).fiber f = s.fiber f from Function.update_of_ne hf ..] at h
      exact h
  | lock hpc => exact .inr ⟨by simp, hgoto rfl (.inr (by rw [hpc]; rfl)) h⟩
  | invalid hpc => exact .inr ⟨by simp, hgoto rfl (.inr (by rw [hpc]; rfl)) h⟩
  | close => exact .inr ⟨by simp, h⟩
  | tick => exact .inr ⟨by simp, h⟩
  | _ => exact .inr ⟨by simp, hgoto rfl (.inl rfl) h⟩

theorem began_of_run {init : Pool} (hinit : ∀ f, init.fiber f = .out) {hist : List Event}
    (hrun : Run (Step limits) init hist s) :
    ∀ f now, (s.fiber f).now = some now → Began limits init hist f now := by
  induction hrun with
  | nil =>
    intro f now h
    rw [hinit] at h
    cases h
  | @snoc t u hist e hbefore hs ih =>
    intro f now h
    rcases hs.move.now h with ⟨ha, heff, hclock⟩ | ⟨hne, hold⟩
    · rcases e with ⟨a, eff⟩
      cases ha
      cases heff
      exact ⟨hist, t, [], rfl, hbefore, hclock, by simp⟩
    · exact (ih f now hold).snoc hne

/-- In every state of a run, whatever the fibers do and in which order: when no call is under way,
`m_total` is the number of idle and checked out connections; no connection is in one of the two sets
twice or in both, and one that is has not been deleted; an idle one has been used less than
`m_maxRequest` times; one that `getConnection` takes is connected, and was younger than
`m_maxAliveTime` when this call began. -/
theorem pool_accounting {clock : UInt64} {hist : List Event}
    (hrun : Run (Step limits) (new clock) hist s) :
    (s.Quiescent → s.total = Int32.ofNat (s.conns.length + s.callers.length)) ∧
      (s.conns ++ s.callers).Nodup ∧
      (∀ ptr ∈ s.conns ++ s.callers, ∃ conn, s.deref ptr = some conn) ∧
      (∀ ptr ∈ s.conns, ∀ conn, s.deref ptr = some conn →
        conn.request < limits.maxRequest.toInt) ∧
      (∀ e s' ptr, Step limits s e s' → e.2.deleted = some ptr → ptr ∉ s.conns ++ s.callers) ∧
      ∀ e s' ptr, Step limits s e s' → e.2.taken = some ptr →
        ∃ conn f ok now, s.deref ptr = some conn ∧ conn.isConnected = true ∧ e.1 = .step f ok ∧
          Began limits (new clock) hist f now ∧ limits.expired conn now = false := by
  have hkept := kept_of_run hrun
  have hexclusive := hkept.owned.exclusive
  refine ⟨fun hquiet => ?_, ?_, fun ptr hptr => ?_, hkept.reusable.idle, ?_, ?_⟩
  · obtain ⟨n, htally, htotal⟩ := hkept.counted
    rw [htotal, htally.eq_zero rfl hquiet]
    rfl
  · rw [List.nodup_append]
    refine ⟨hexclusive.once .conns, hexclusive.once .callers, fun a ha b hb heq => ?_⟩
    subst heq
    have hsame : ConnOwner.conns = .callers := hexclusive.one ha hb
    cases hsame
  · rw [← Option.isSome_iff_exists]
    rcases List.mem_append.mp hptr with hmem | hmem
    · exact hkept.owned.live .conns ptr hmem
    · exact hkept.owned.live .callers ptr hmem
  · rintro ⟨a, eff⟩ s' ptr hs hdeleted hptr
    -- the fiber that deletes it has it
    have hmine : ∃ f, ptr ∈ s.held (.fiber f) := by
      have hm := hs.move
      dsimp only at hm hdeleted
      cases hm with
      | @dispose f _ _ _ _ _ hpc =>
        cases hdeleted
        exact ⟨f, by rw [held_fiber, hpc]; exact List.mem_cons_self ..⟩
      | @delete f _ _ hpc =>
        cases hdeleted
        exact ⟨f, by rw [held_fiber, hpc]; exact List.mem_cons_self ..⟩
      | _ => cases hdeleted
    obtain ⟨f, hf⟩ := hmine
    rcases List.mem_append.mp hptr with hmem | hmem
    · cases hexclusive.one (o := .conns) hmem hf
    · cases hexclusive.one (o := .callers) hmem hf
  · rintro ⟨a, eff⟩ s' ptr hs htaken
    have hm := hs.move
    dsimp only at hm htaken
    cases hm with
    | @take f ok now invalid _ conns conn hpc hconns hconn hopen hyoung =>
      cases htaken
      exact ⟨conn, f, ok, now, hconn, hopen, rfl,
        began_of_run (fun _ => rfl) hrun f now (by rw [hpc]; rfl), hyoung⟩
    | _ => cases htaken

def firstUse : List PoolAction :=
  .getConnection 0 :: List.replicate 5 (.step 0 true) ++ .releasePtr 0 0 ::
    List.replicate 2 (.step 0 true)

theorem pool_accounting_reuse : ∃ (hist : List Event) (s : Pool),
    Run (Step (.new 10 100 10)) (new 0) hist s ∧ s.conns = [0] ∧
      (s.Quiescent → s.total = Int32.ofNat (s.conns.length + s.callers.length)) ∧
      ∀ conn, s.deref 0 = some conn → conn.request < 10 := by
  have hlast : (runActs (fun (s : Pool) a => if true then act (.new 10 100 10) s a else none)
      (new 0) firstUse).map (fun r => r.2.conns) = some [0] := by
    decide
  rcases Option.map_eq_some_iff.mp hlast with ⟨⟨hist, s⟩, hs, hconns⟩
  have hrun := (run_of_runActs (fun _ _ => True) (fun _ _ => true) (fun _ _ _ => trivial) hs).mono
    fun _ _ _ h => h.2
  have h := pool_accounting hrun
  exact ⟨hist, s, hrun, hconns, h.1, h.2.2.2.1 0 (by rw [show s.conns = [0] from hconns]; decide)⟩

/-- A connection may grow too old between the reading of the clock and the lock. -/
theorem old_reused : ∃ (hist : List Event) (s s' : Pool) (e : Event) (ptr : ConnId)
    (conn : HttpConnection), Run (Step (.new 10 100 10)) (new 0) hist s ∧
      Step (.new 10 100 10) s e s' ∧ e.2.taken = some ptr ∧ s.deref ptr = some conn ∧
      ¬ s.clock.toNat - conn.createTime.toNat < 100 := by
  have hlast : ((runActs (fun (s : Pool) a => if true then act (.new 10 100 10) s a else none)
      (new 0) (firstUse ++ [.tick 50, .getConnection 0, .tick 200, .step 0 true])).bind fun r =>
        (r.2.act (.new 10 100 10) (.step 0 true)).map fun q =>
          (q.1.taken, r.2.deref 0, r.2.clock)) =
      some (some 0, some { createTime := 0, request := 1 }, 200) := by
    decide
  rcases Option.bind_eq_some_iff.mp hlast with ⟨⟨hist, s⟩, hs, hstep⟩
  rcases Option.map_eq_some_iff.mp hstep with ⟨⟨eff, s'⟩, hact, hvalues⟩
  have hrun := (run_of_runActs (fun _ _ => True) (fun _ _ => true) (fun _ _ _ => trivial) hs).mono
    fun _ _ _ h => h.2
  simp only [Prod.mk.injEq] at hvalues
  refine ⟨hist, s, s', (.step 0 true, eff), 0, _, hrun, hact, hvalues.1, hvalues.2.1, ?_⟩
  rw [hvalues.2.2]
  decide

/-! ## The bound on the size -/

end Pool

namespace PoolPc

def waiting : PoolPc → Nat
  | dispose _ [] none | connect => 1
  | _ => 0

def room (pc : PoolPc) : Nat := pc.owned.length + pc.waiting

end PoolPc

namespace Pool

/-- A call of `getConnection` finds `m_conns` empty and has discarded nothing, while `max` connections are
checked out, on the way, or about to be constructed by other calls. -/
def Exhausted (max : Nat) (s : Pool) (a : PoolAction) : Prop :=
  ∃ f ok now n, a = .step f ok ∧ s.fiber f = .scan now [] ∧ s.conns = [] ∧
    Tally .out PoolPc.room s.fiber n ∧ max ≤ s.callers.length + n

/-- What the step of one fiber adds to the lists and to the room of this fiber: nothing, unless a call has
found nothing to take and nothing to discard. -/
theorem Move.room {a : PoolAction} {eff : PoolEffect} (hm : Move limits s a eff s') :
    ∃ f pc, s'.fiber = Function.update s.fiber f pc ∧
      (s'.conns.length + s'.callers.length + pc.room ≤
          s.conns.length + s.callers.length + (s.fiber f).room ∨
        ∃ ok now, a = .step f ok ∧ s.fiber f = .scan now [] ∧ s.conns = [] ∧
          s'.conns.length + s'.callers.length + pc.room =
            s.conns.length + s.callers.length + (s.fiber f).room + 1) := by
  cases hm with
  | close | tick => exact ⟨0, s.fiber 0, (Function.update_eq_self 0 s.fiber).symm, .inl (Nat.le_refl _)⟩
  | @releasePtr f ptr hpc hptr =>
    have hlength := List.length_erase_of_mem hptr
    have hpos := List.length_pos_of_mem hptr
    refine ⟨f, _, rfl, .inl ?_⟩
    rw [hpc]
    simp only [goto, PoolPc.room, PoolPc.owned, PoolPc.waiting, List.length_nil, List.length_cons]
    omega
  | @empty f ok now invalid hpc hconns =>
    refine ⟨f, _, rfl, ?_⟩
    cases invalid with
    | nil =>
      refine .inr ⟨ok, now, rfl, hpc, hconns, ?_⟩
      rw [hpc]
      rfl
    | cons ptr invalid =>
      -- the call makes room itself
      left
      rw [hpc]
      simp [goto, PoolPc.room, PoolPc.owned, PoolPc.waiting]
  | @invalid f ok now invalid ptr conns hpc hconns | @take f ok now invalid ptr conns conn hpc hconns =>
    refine ⟨f, _, rfl, .inl ?_⟩
    rw [hpc, hconns]
    cases invalid <;> simp [goto, PoolPc.room, PoolPc.owned, PoolPc.waiting] <;> omega
  | @dispose f ok size i left ptr hpc =>
    refine ⟨f, _, rfl, .inl ?_⟩
    rw [hpc]
    cases left <;> cases ptr <;> simp [goto, modify, PoolPc.room, PoolPc.owned, PoolPc.waiting]
  | @getConnection f hpc | @lock f _ _ hpc | @found f _ _ _ hpc | @notFound f _ _ hpc | @fail f hpc
  | @connect f hpc | @count f _ _ hpc | @retire f _ _ _ hpc | @keep f _ _ _ hpc | @delete f _ _ hpc
  | @discount f _ hpc | @pushBack f _ _ hpc =>
    refine ⟨f, _, rfl, .inl ?_⟩
    rw [hpc]
    simp [goto, modify, PoolPc.room, PoolPc.owned, PoolPc.waiting] <;> omega

/-- The pool has room for what is idle, checked out, on the way, or about to be constructed. -/
def Fits (max : Nat) (s : Pool) : Prop :=
  ∃ n, Tally .out PoolPc.room s.fiber n ∧ s.conns.length + s.callers.length + n ≤ max

theorem Fits.move {max : Nat} {a : PoolAction} {eff : PoolEffect} (h : Fits max s)
    (hm : Move limits s a eff s') (hroom : ¬ s.Exhausted max a) : Fits max s' := by
  obtain ⟨n, htally, hmax⟩ := h
  obtain ⟨f, pc, hfiber, hmove⟩ := hm.room
  obtain ⟨m, rfl, hupdate⟩ := htally.update rfl f
  refine ⟨m + pc.room, by rw [hfiber]; exact hupdate pc, ?_⟩
  rcases hmove with hless | ⟨ok, now, ha, hpc, hconns, hmore⟩
  · omega
  · -- the call would not be allowed in a full pool
    have hlt : s.callers.length + (m + (s.fiber f).room) < max := by
      by_contra hfull
      exact hroom ⟨f, ok, now, _, ha, hpc, hconns, htally, Nat.le_of_not_lt hfull⟩
    rw [hconns, List.length_nil] at hmore
    omega

/-- What has room is alive, or about to be. -/
theorem Accounted.le_of_fits {max : Nat} (h : Accounted s) (hfits : Fits max s) : s.alive ≤ max := by
  obtain ⟨n, htally, halive⟩ := h
  obtain ⟨m, hroom, hmax⟩ := hfits
  have hle := htally.le hroom rfl fun pc => Nat.le_add_right pc.owned.length pc.waiting
  omega

theorem step_unique {e : Event} {t t' : Pool} (h : Step limits s e t) (h' : Step limits s e t') :
    t = t' :=
  congrArg Prod.snd (Option.some.inj (h.symm.trans h'))

/-- A call that constructs next comes to this point by itself. -/
theorem reaches_connect (limits : PoolLimits) {f : FiberId} (h : 0 < (s.fiber f).waiting) :
    ∃ before t, Run (Step limits) s before t ∧ (∀ e ∈ before, e.1 = .step f true) ∧
      t.fiber = Function.update s.fiber f .connect ∧ t.alive = s.alive := by
  cases hpc : s.fiber f with
  | connect =>
    refine ⟨[], s, .nil s, fun _ he => (nomatch he), ?_, rfl⟩
    rw [← hpc, Function.update_eq_self]
  | dispose size left ptr =>
    rw [hpc] at h
    cases left with
    | nil =>
      cases ptr with
      | none =>
        have hs : Step limits s (.step f true, {})
            ({ s with total := s.total - Int32.ofNat size }.goto f .connect) := by
          show s.step limits f true = _
          rw [step, hpc]
        exact ⟨_, _, .single hs, fun e he => by rw [List.mem_singleton.mp he], rfl, rfl⟩
      | some ptr => cases h
    | cons i left => cases h
  | _ =>
    rw [hpc] at h
    cases h

theorem waiting_eq_one {pc : PoolPc} (h : 0 < pc.waiting) : pc.waiting = 1 := by
  revert h
  fun_cases PoolPc.waiting pc <;> simp

/-- What the calls under way have decided to construct is alive in the end, if nothing fails. -/
theorem constructs (limits : PoolLimits) {k : Nat} (h : Tally .out PoolPc.waiting s.fiber k) :
    ∃ more u, Run (Step limits) s more u ∧ (∀ e ∈ more, ∃ f, e.1 = .step f true) ∧
      u.alive = s.alive + k := by
  induction k generalizing s with
  | zero => exact ⟨[], s, .nil s, fun _ he => (nomatch he), rfl⟩
  | succ k ih =>
    obtain ⟨f, hf⟩ := h.exists_pos (Nat.succ_pos k)
    obtain ⟨m, hm, hupdate⟩ := h.update rfl f
    rw [waiting_eq_one hf, Nat.add_right_cancel_iff] at hm
    obtain ⟨before, t, hrun, hsteps, hfiber, halive⟩ := reaches_connect limits hf
    -- the next step of this call constructs
    obtain ⟨u, eff, hconnect, hfiber', halive'⟩ : ∃ u eff, Step limits t (.step f true, eff) u ∧
        u.fiber = Function.update s.fiber f (.count t.heap.length) ∧ u.alive = t.alive + 1 := by
      refine ⟨{ t with heap := t.heap ++ [({ createTime := t.clock } : HttpConnection)] }.goto f
        (.count t.heap.length), { created := some t.heap.length }, ?_, ?_, ?_⟩
      · show t.step limits f true = _
        rw [step, hfiber, Function.update_self]
        rfl
      · show Function.update t.fiber f _ = _
        rw [hfiber, Function.update_idem]
      · simp [goto, Pool.alive]
    have hrest : Tally .out PoolPc.waiting u.fiber k := by
      rw [hfiber', hm]
      exact hupdate (.count _)
    obtain ⟨after, v, hrun', hsteps', hall⟩ := ih hrest
    refine ⟨before ++ ([(.step f true, eff)] ++ after), v,
      hrun.append ((Run.single hconnect).append hrun'), fun e he => ?_, by omega⟩
    rcases List.mem_append.mp he with hmem | hmem
    · exact ⟨f, hsteps e hmem⟩
    · rcases List.mem_cons.mp hmem with rfl | hmem
      · exact ⟨f, rfl⟩
      · exact hsteps' e hmem

/-- A call that the pool has no room for makes it grow too large, unless something fails. -/
theorem Accounted.exceeds {max : Nat} {e : Event} (h : Accounted s) (hs : Step limits s e s')
    (hfull : s.Exhausted max e.1) : ∃ more u, Run (Step limits) s' more u ∧
      (∀ e ∈ more, ∃ f, e.1 = .step f true) ∧ max < u.alive := by
  obtain ⟨f, ok, now, n, ha, hpc, hconns, hroom, hmax⟩ := hfull
  obtain ⟨m, howned, halive⟩ := h
  obtain ⟨k, hwaiting, hsum⟩ := howned.exists_add PoolPc.waiting
  have hn : n = m + k := hroom.unique hsum rfl
  -- one more connection is to be constructed
  have hact : s.step limits f ok = some (e.2, s') := by
    rw [Step, ha] at hs
    exact hs
  rw [step, hpc, hconns] at hact
  have hs' : { s with conns := [], mutex := none }.goto f (.dispose 0 [] none) = s' :=
    congrArg Prod.snd (Option.some.inj hact)
  subst hs'
  obtain ⟨k', hk', hupdate⟩ := hwaiting.update rfl f
  rw [hpc] at hk'
  obtain ⟨more, u, hrun, hsteps, hu⟩ := constructs limits
    (s := { s with conns := [], mutex := none }.goto f (.dispose 0 [] none)) (hupdate (.dispose 0 [] none))
  refine ⟨more, u, hrun, hsteps, ?_⟩
  rw [hu]
  show max < s.alive + (k' + 1)
  rw [hconns] at halive
  simp only [PoolPc.waiting, List.length_nil] at hk' halive
  omega

/-- The connections that are alive when no call is under way are the idle and the checked out ones.  There
are at most `max_size` of them in every state of a run in which no call of `getConnection` finds the pool
exhausted; a call that does makes them more, if it and the calls under way succeed. -/
theorem size_bounded {maxSize maxAliveTime maxRequest : UInt32} {clock : UInt64}
    {hist : List Event}
    (hrun : Run (Step (.new maxSize maxAliveTime maxRequest)) (new clock) hist s) :
    (s.Quiescent → s.alive = s.conns.length + s.callers.length) ∧
      (Run (Guarded (fun s e => ¬ s.Exhausted maxSize.toNat e.1)
          (Step (.new maxSize maxAliveTime maxRequest))) (new clock) hist s →
        ∀ hist₁ s₁, hist₁ <+: hist →
          Run (Step (.new maxSize maxAliveTime maxRequest)) (new clock) hist₁ s₁ →
          s₁.alive ≤ maxSize.toNat) ∧
      ∀ e s', Step (.new maxSize maxAliveTime maxRequest) s e s' → s.Exhausted maxSize.toNat e.1 →
        ∃ more u, Run (Step (.new maxSize maxAliveTime maxRequest)) s' more u ∧
          (∀ e ∈ more, ∃ f, e.1 = .step f true) ∧ maxSize.toNat < u.alive := by
  have haccounted := (kept_of_run hrun).accounted
  refine ⟨fun hquiet => ?_, fun hguarded hist₁ s₁ hprefix hrun₁ => ?_, fun e s' => haccounted.exceeds⟩
  -- nobody is inside the pool, so nothing is owed
  · obtain ⟨n, htally, halive⟩ := haccounted
    rw [halive, htally.eq_zero rfl hquiet]
    rfl
  · have hinitial : Run (Guarded (fun s e => ¬ s.Exhausted maxSize.toNat e.1)
        (Step (.new maxSize maxAliveTime maxRequest))) (new clock) hist₁ s₁ := by
      refine hguarded.initial ?_ ?_ hprefix hrun₁
      · exact fun _ _ _ h => h.2
      · exact fun _ _ _ _ => step_unique
    refine (kept_of_run hrun₁).accounted.le_of_fits (hinitial.invariant (Fits maxSize.toNat) ?_ ?_)
    · exact ⟨0, .of_idle fun _ => rfl, Nat.zero_le _⟩
    · exact fun t e u h hs => h.move hs.2.move hs.1

/-- Two fibers take a connection each; one gives its own back, and gets another when that is too old. -/
def twoOfTwo : List PoolAction :=
  .getConnection 0 :: List.replicate 5 (.step 0 true) ++ .getConnection 1 ::
    List.replicate 5 (.step 1 true) ++ .releasePtr 0 0 :: List.replicate 2 (.step 0 true) ++
    .tick 200 :: .getConnection 0 :: List.replicate 7 (.step 0 true)

/-- One of the two fibers goes on, and does not look for a connection when there is no room for it. -/
def roomForTwo (s : Pool) : PoolAction → Bool
  | .getConnection f | .releasePtr f _ => f = 0 ∨ f = 1
  | .step f _ => (f = 0 ∨ f = 1) ∧
      ((s.fiber f).room = 0 ∧ s.conns = [] → s.callers.length + ((s.fiber 0).room + (s.fiber 1).room) < 2)
  | .close _ | .tick _ => true

theorem actor_of_roomForTwo {a : PoolAction} (hok : roomForTwo s a = true) {f : FiberId}
    (ha : a.actor = some f) : f ∈ ({0, 1} : Finset FiberId) := by
  rw [Finset.mem_insert, Finset.mem_singleton]
  cases a with
  | getConnection g | releasePtr g ptr =>
    cases ha
    exact of_decide_eq_true hok
  | step g ok =>
    cases ha
    exact (of_decide_eq_true hok).1
  | close ptr | tick now => cases ha

theorem size_bounded_two : ∃ (hist : List Event) (s : Pool),
    Run (Step (.new 2 100 10)) (new 0) hist s ∧ s.alive = 2 ∧ s.callers = [2, 1] ∧
      ∀ hist₁ s₁, hist₁ <+: hist → Run (Step (.new 2 100 10)) (new 0) hist₁ s₁ → s₁.alive ≤ 2 := by
  have hlast : (runActs (fun (s : Pool) a => if roomForTwo s a then act (.new 2 100 10) s a else none)
      (new 0) twoOfTwo).map (fun r => (r.2.alive, r.2.callers)) = some (2, [2, 1]) := by
    decide
  rcases Option.map_eq_some_iff.mp hlast with ⟨⟨hist, s⟩, hs, hvalues⟩
  have hchecked := run_of_runActs (fun (s : Pool) a => roomForTwo s a = true) roomForTwo
    (fun _ _ => id) hs
  simp only [Prod.mk.injEq] at hvalues
  -- the others are outside, so that the room is that of the two
  obtain ⟨t, hguarded, rfl, -⟩ : ∃ t, Run (Guarded (fun s e => ¬ s.Exhausted 2 e.1) (Step (.new 2 100 10)))
      (new 0) hist t ∧ s = t ∧ ∀ f, f ∉ ({0, 1} : Finset FiberId) → s.fiber f = .out := by
    apply hchecked.simulation (fun s t => s = t ∧ ∀ f, f ∉ ({0, 1} : Finset FiberId) → s.fiber f = .out)
      ⟨rfl, fun _ _ => rfl⟩
    rintro s ⟨a, eff⟩ u _ ⟨rfl, hout⟩ ⟨hok, hact⟩
    have htally : Tally .out PoolPc.room s.fiber ((s.fiber 0).room + (s.fiber 1).room) :=
      ⟨{0, 1}, hout, Finset.sum_pair (by decide)⟩
    refine ⟨u, ⟨?_, hact⟩, rfl, fun f hf => ?_⟩
    · rintro ⟨f, ok, now, n, rfl, hpc, hconns, hroom, hmax⟩
      have hlt := (of_decide_eq_true hok).2 ⟨by rw [hpc]; rfl, hconns⟩
      rw [hroom.unique htally rfl] at hmax
      omega
    · have hm := Step.move (show Step (.new 2 100 10) s (a, eff) u from hact)
      rw [hm.fiber_of_ne fun heq => hf (actor_of_roomForTwo hok heq), hout f hf]
  have hrun : Run (Step (.new 2 100 10)) (new 0) hist s := hguarded.unguarded
  exact ⟨hist, s, hrun, hvalues.1, hvalues.2, (size_bounded hrun).2.1 hguarded⟩

def oneAndAnother : List PoolAction :=
  .getConnection 0 :: List.replicate 5 (.step 0 true) ++ .getConnection 1 ::
    List.replicate 5 (.step 1 true)

/-- `m_maxSize` is never read: a pool of one connection hands out two. -/
theorem size_exceeded : ∃ (hist : List Event) (s : Pool),
    Run (Step (.new 1 100 10)) (new 0) hist s ∧ s.conns.length + s.callers.length = 2 := by
  have hlast : (runActs (fun (s : Pool) a => if true then act (.new 1 100 10) s a else none)
      (new 0) oneAndAnother).map (fun r => r.2.conns.length + r.2.callers.length) = some 2 := by
    decide
  rcases Option.map_eq_some_iff.mp hlast with ⟨⟨hist, s⟩, hs, hlength⟩
  have hrun := (run_of_runActs (fun _ _ => True) (fun _ _ => true) (fun _ _ _ => trivial) hs).mono
    fun _ _ _ h => h.2
  exact ⟨hist, s, hrun, hlength⟩

end Pool

end Azure
