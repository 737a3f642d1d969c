import Azure.Socket.Connection

/-!
# The addresses of a connection

A `Socket` fetches its addresses once and keeps them, also when it is closed and gets another
descriptor.  So what it remembers is the first local address and the first peer of its whole history.
-/

namespace Azure

open Reasoning

namespace Socket

variable {α : Type}

inductive Call (α : Type) where
  | bind (addrFamily : Int) (i : SocketInput α)
  | connect (addrFamily : Int) (timeoutMs : UInt64) (i : SocketInput α)
  | close
  deriving DecidableEq, Repr

def call (sock : Socket α) (k : SocketKernel α) : Call α → Option (Bool × Socket α × SocketKernel α)
  | .bind addrFamily i => if k.Fresh i.fd then some (sock.bind k addrFamily i) else none
  | .connect addrFamily timeoutMs i =>
    if k.Fresh i.fd then some (sock.connect k addrFamily timeoutMs i) else none
  | .close => some (sock.close k)

def Step (s : Socket α × SocketKernel α) (e : Call α × Bool) (s' : Socket α × SocketKernel α) :
    Prop :=
  s.1.call s.2 e.1 = some (e.2, s')

def fresh (family type protocol : Int) : Socket α := { family, type, protocol }

/-- After a connect that returned true the addresses are those of the descriptor. -/
def Current (e : Call α × Bool) (s : Socket α × SocketKernel α) : Prop :=
  ∀ addrFamily timeoutMs i, e = (.connect addrFamily timeoutMs i, true) →
    (s.1.getRemoteAddress s.2).1 = s.2.peername s.1.sockfd ∧
      (s.1.getLocalAddress s.2).1 = s.2.sockname s.1.sockfd

def fetchedLocal : Call α × Bool → Option α
  | (.bind _ i, true) => i.sockname
  | (.connect _ _ i, true) => i.sockname
  | _ => none

def fetchedRemote : Call α × Bool → Option α
  | (.connect _ _ i, true) => i.peername
  | _ => none

/-- At every connect that succeeds, the first addresses that were ever fetched are, if there are
any, those the kernel has now. -/
def Unchanged (es : List (Call α × Bool)) : Prop :=
  ∀ (pre post : List (Call α × Bool)) (addrFamily : Int) (timeoutMs : UInt64) (i : SocketInput α),
    es = pre ++ (.connect addrFamily timeoutMs i, true) :: post →
    (∀ a, pre.findSome? fetchedRemote = some a → i.peername = some a) ∧
      ∀ a, pre.findSome? fetchedLocal = some a → i.sockname = some a

end Socket

namespace SocketKernel

variable {α : Type}

@[simp] theorem sockname_rename (k : SocketKernel α) (fd : Int) (i : SocketInput α) :
    (k.rename fd i).sockname fd = i.sockname :=
  Function.update_self ..

@[simp] theorem peername_rename (k : SocketKernel α) (fd : Int) (i : SocketInput α) :
    (k.rename fd i).peername fd = i.peername :=
  Function.update_self ..

end SocketKernel

namespace Socket

variable {α : Type}

/-! ## The caches -/

theorem ensure_caches (sock : Socket α) (k : SocketKernel α) (i : SocketInput α) :
    (sock.ensure k i).1.localAddress = sock.localAddress ∧
      (sock.ensure k i).1.remoteAddress = sock.remoteAddress := by
  rw [ensure_eq]
  exact ⟨rfl, rfl⟩

structure Fetches (s : Socket α × SocketKernel α) (e : Call α × Bool)
    (s' : Socket α × SocketKernel α) : Prop where
  localAddress : s'.1.localAddress = s.1.localAddress.or (fetchedLocal e)
  remoteAddress : s'.1.remoteAddress = s.1.remoteAddress.or (fetchedRemote e)
  /-- the kernel's addresses behind a connect -/
  names : ∀ addrFamily timeoutMs i, e = (.connect addrFamily timeoutMs i, true) →
    s'.2.sockname s'.1.sockfd = i.sockname ∧ s'.2.peername s'.1.sockfd = i.peername

/-- A call that fails leaves the caches as they are. -/
theorem Fetches.of_false {s s' : Socket α × SocketKernel α} {c : Call α}
    (hlocal : s'.1.localAddress = s.1.localAddress)
    (hremote : s'.1.remoteAddress = s.1.remoteAddress) : Fetches s (c, false) s' where
  localAddress := by
    rw [hlocal]
    cases c <;> exact (Option.or_none).symm
  remoteAddress := by
    rw [hremote]
    cases c <;> exact (Option.or_none).symm
  names addrFamily timeoutMs i h := by cases h

theorem fetches_bind (sock : Socket α) (k : SocketKernel α) (addrFamily : Int)
    (i : SocketInput α) :
    Fetches (sock, k) (.bind addrFamily i, (sock.bind k addrFamily i).1)
      (sock.bind k addrFamily i).2 := by
  rcases sock.ensure_caches k i with ⟨hlocal, hremote⟩
  unfold bind
  dsimp only
  split
  · exact .of_false hlocal hremote
  · split
    · exact .of_false hlocal hremote
    · split
      · exact .of_false hlocal hremote
      · rw [cacheLocal_eq]
        refine ⟨?_, ?_, fun _ _ _ h => by cases h⟩
        · show Option.or _ _ = sock.localAddress.or i.sockname
          rw [hlocal, SocketKernel.sockname_rename]
        · show _ = sock.remoteAddress.or none
          rw [Option.or_none]
          exact hremote

theorem fetches_connect (sock : Socket α) (k : SocketKernel α) (addrFamily : Int)
    (timeoutMs : UInt64) (i : SocketInput α) :
    Fetches (sock, k) (.connect addrFamily timeoutMs i, (sock.connect k addrFamily timeoutMs i).1)
      (sock.connect k addrFamily timeoutMs i).2 := by
  rcases sock.ensure_caches k i with ⟨hlocal, hremote⟩
  have hclose : ∀ k' : SocketKernel α,
      ((sock.ensure k i).1.close k').2.1.localAddress = sock.localAddress ∧
        ((sock.ensure k i).1.close k').2.1.remoteAddress = sock.remoteAddress := by
    intro k'
    unfold close
    split
    · exact ⟨hlocal, hremote⟩
    · exact ⟨hlocal, hremote⟩
  unfold connect
  dsimp only
  split
  · exact .of_false hlocal hremote
  · split
    · exact .of_false hlocal hremote
    · split
      · split
        · exact .of_false (hclose _).1 (hclose _).2
        · rw [cacheRemote_eq, cacheLocal_eq]
          refine ⟨?_, ?_, ?_⟩
          · show Option.or _ _ = sock.localAddress.or i.sockname
            rw [SocketKernel.sockname_rename, hlocal]
          · show Option.or _ _ = sock.remoteAddress.or i.peername
            rw [SocketKernel.peername_rename, hremote]
          · intro addrFamily' timeoutMs' i' h
            cases h
            exact ⟨SocketKernel.sockname_rename .., SocketKernel.peername_rename ..⟩
      · exact .of_false (hclose _).1 (hclose _).2

theorem fetches_of_step {s s' : Socket α × SocketKernel α} {e : Call α × Bool} (h : Step s e s') :
    Fetches s e s' := by
  rcases e with ⟨c, ret⟩
  unfold Step call at h
  cases c with
  | bind addrFamily i =>
    dsimp only at h
    split at h
    · have hfetches := fetches_bind s.1 s.2 addrFamily i
      rw [Option.some.inj h] at hfetches
      exact hfetches
    · cases h
  | connect addrFamily timeoutMs i =>
    dsimp only at h
    split at h
    · have hfetches := fetches_connect s.1 s.2 addrFamily timeoutMs i
      rw [Option.some.inj h] at hfetches
      exact hfetches
    · cases h
  | close =>
    have hkept : s'.1.localAddress = s.1.localAddress ∧ s'.1.remoteAddress = s.1.remoteAddress := by
      have hs' : (s.1.close s.2).2 = s' := congrArg Prod.snd (Option.some.inj h)
      rw [← hs']
      unfold close
      split
      · exact ⟨rfl, rfl⟩
      · exact ⟨rfl, rfl⟩
    refine ⟨?_, ?_, fun _ _ _ h => by cases h⟩
    · rw [hkept.1]
      exact Option.or_none.symm
    · rw [hkept.2]
      exact Option.or_none.symm

/-- The caches hold the first addresses of the history. -/
theorem caches_of_run {family type protocol : Int} {k : SocketKernel α}
    {es : List (Call α × Bool)} {s : Socket α × SocketKernel α}
    (hrun : Run Step (fresh family type protocol, k) es s) :
    s.1.localAddress = es.findSome? fetchedLocal ∧
      s.1.remoteAddress = es.findSome? fetchedRemote := by
  apply hrun.history_invariant fun es s => s.1.localAddress = es.findSome? fetchedLocal ∧
    s.1.remoteAddress = es.findSome? fetchedRemote
  · exact ⟨rfl, rfl⟩
  · rintro es s e s' ⟨hlocal, hremote⟩ hstep
    have hfetches := fetches_of_step hstep
    rw [List.findSome?_append, List.findSome?_append, ← hlocal, ← hremote, hfetches.localAddress,
      hfetches.remoteAddress]
    refine ⟨?_, ?_⟩
    · cases hf : fetchedLocal e <;> simp [hf]
    · cases hf : fetchedRemote e <;> simp [hf]

/-- What is cached behind a connect is current when what was cached before is. -/
theorem or_eq_right_iff (cached now : Option α) :
    (cached.or now).or now = now ↔ ∀ a, cached = some a → now = some a := by
  cases cached with
  | none => cases now <;> simp
  | some a => simp [eq_comm]

theorem current_iff {s s' : Socket α × SocketKernel α} {addrFamily : Int} {timeoutMs : UInt64}
    {i : SocketInput α} (hstep : Step s (.connect addrFamily timeoutMs i, true) s') :
    Current (.connect addrFamily timeoutMs i, true) s' ↔
      (∀ a, s.1.remoteAddress = some a → i.peername = some a) ∧
        ∀ a, s.1.localAddress = some a → i.sockname = some a := by
  have hfetches := fetches_of_step hstep
  rcases hfetches.names addrFamily timeoutMs i rfl with ⟨hsock, hpeer⟩
  have hboth : ((s'.1.getRemoteAddress s'.2).1 = s'.2.peername s'.1.sockfd ∧
      (s'.1.getLocalAddress s'.2).1 = s'.2.sockname s'.1.sockfd) ↔
      (∀ a, s.1.remoteAddress = some a → i.peername = some a) ∧
        ∀ a, s.1.localAddress = some a → i.sockname = some a := by
    rw [getRemoteAddress_eq, getLocalAddress_eq, hsock, hpeer, hfetches.localAddress,
      hfetches.remoteAddress]
    exact and_congr (or_eq_right_iff _ _) (or_eq_right_iff _ _)
  rw [← hboth]
  constructor
  · exact fun h => h addrFamily timeoutMs i rfl
  · intro h addrFamily' timeoutMs' i' heq
    cases heq
    exact h

theorem unchanged_snoc_iff (es : List (Call α × Bool)) (e : Call α × Bool) :
    Unchanged (es ++ [e]) ↔ Unchanged es ∧
      ∀ addrFamily timeoutMs i, e = (.connect addrFamily timeoutMs i, true) →
        (∀ a, es.findSome? fetchedRemote = some a → i.peername = some a) ∧
          ∀ a, es.findSome? fetchedLocal = some a → i.sockname = some a := by
  constructor
  · intro h
    refine ⟨?_, ?_⟩
    · intro pre post addrFamily timeoutMs i hes
      apply h pre (post ++ [e]) addrFamily timeoutMs i
      rw [hes, List.append_assoc, List.cons_append]
    · rintro addrFamily timeoutMs i rfl
      exact h es [] addrFamily timeoutMs i rfl
  · rintro ⟨hes, hlast⟩ pre post addrFamily timeoutMs i heq
    rcases snoc_eq_split heq with ⟨-, rfl, hconnect⟩ | ⟨post', -, hes'⟩
    · exact hlast addrFamily timeoutMs i hconnect.symm
    · exact hes pre post' addrFamily timeoutMs i hes'

/-- The runs whose successful connects leave current addresses are those in which no address
fetched earlier has changed. -/
theorem addresses_current_iff (family type protocol : Int) (k : SocketKernel α)
    (es : List (Call α × Bool)) (s : Socket α × SocketKernel α) :
    Run (fun s e s' => Step s e s' ∧ Current e s') (fresh family type protocol, k) es s ↔
      Run Step (fresh family type protocol, k) es s ∧ Unchanged es := by
  -- one more call, behind a run whose caches are those of its history
  have hnext : ∀ {es s e s'}, Run Step (fresh family type protocol, k) es s → Step s e s' →
      (Current e s' ↔ ∀ addrFamily timeoutMs i, e = (.connect addrFamily timeoutMs i, true) →
        (∀ a, es.findSome? fetchedRemote = some a → i.peername = some a) ∧
          ∀ a, es.findSome? fetchedLocal = some a → i.sockname = some a) := by
    intro es s e s' hrun hstep
    rcases caches_of_run hrun with ⟨hlocal, hremote⟩
    rw [← hlocal, ← hremote]
    constructor
    · rintro hcurrent addrFamily timeoutMs i rfl
      exact (current_iff hstep).mp hcurrent
    · intro h addrFamily timeoutMs i heq
      subst heq
      exact (current_iff hstep).mpr (h addrFamily timeoutMs i rfl) addrFamily timeoutMs i rfl
  constructor
  · intro hrun
    have hplain := hrun.mono fun _ _ _ h => h.1
    refine ⟨hplain, ?_⟩
    induction hrun with
    | nil =>
      intro pre post addrFamily timeoutMs i hes
      exact absurd hes.symm (List.append_ne_nil_of_right_ne_nil _ (List.cons_ne_nil _ _))
    | snoc hprev hlast ih =>
      have hprev' := hprev.mono fun _ _ _ h => h.1
      exact (unchanged_snoc_iff _ _).mpr ⟨ih hprev', (hnext hprev' hlast.1).mp hlast.2⟩
  · rintro ⟨hrun, hunchanged⟩
    induction hrun with
    | nil => exact .nil _
    | snoc hprev hlast ih =>
      rcases (unchanged_snoc_iff _ _).mp hunchanged with ⟨hbefore, hnow⟩
      exact .snoc (ih hbefore) ⟨hlast, (hnext hprev hlast).mpr hnow⟩

/-- A socket that is connected to one peer, closed, and connected to another remembers the first. -/
theorem addresses_remembered :
    ¬ ∀ (es : List (Call Nat × Bool)) (s s' : Socket Nat × SocketKernel Nat) (e : Call Nat × Bool),
      Run Step (fresh 2 1 0, {}) es s → Step s e s' → Current e s' := by
  intro h
  have hrun := ((Run.nil ((fresh 2 1 0 : Socket Nat), ({} : SocketKernel Nat))).snoc
    (show Step _ (.connect 2 (~~~0)
      { fd := 5, ok := true, sockname := some 100, peername := some 1 }, true) _ from rfl)).snoc
    (show Step _ (.close, false) _ from rfl)
  have hcurrent := h _ _ _ (.connect 2 (~~~0)
    { fd := 5, ok := true, sockname := some 101, peername := some 2 }, true) hrun
    (show Step _ _ _ from rfl)
  exact absurd (hcurrent _ _ _ rfl).1 (by decide)

end Socket

end Azure
