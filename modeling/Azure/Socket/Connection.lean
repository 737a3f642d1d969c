import Azure.Reasoning.Ownership
import Azure.Reasoning.Runs
import Azure.Socket.Model

/-!
# The outcome of a connect

No two sockets have one descriptor, and the descriptor of a socket is open.  So a connect that fails
closes a descriptor that is its own, and one that succeeds leaves it open; only the branch with a
timeout closes it in both cases.
-/

namespace Azure

open Reasoning

namespace Socket

variable {α : Type}

def descriptors (sock : Socket α) : List Int := if sock.sockfd = -1 then [] else [sock.sockfd]

theorem mem_descriptors {sock : Socket α} {fd : Int} :
    fd ∈ sock.descriptors ↔ sock.sockfd = fd ∧ fd ≠ -1 := by
  unfold descriptors
  split
  · next hnone =>
    constructor
    · exact fun h => absurd h List.not_mem_nil
    · exact fun h => absurd (h.1.symm.trans hnone) h.2
  · next hsome =>
    rw [List.mem_singleton]
    constructor
    · exact fun h => ⟨h.symm, fun hone => hsome (h.symm.trans hone)⟩
    · exact fun h => h.1.symm

inductive Change (sock : Socket α) (k : SocketKernel α) (sock' : Socket α) (k' : SocketKernel α) :
    Prop
  | keeps (hfd : sock'.sockfd = sock.sockfd) (hopen : k'.isOpen = k.isOpen)
      (hconnected : sock'.isConnected → sock.isConnected ∨ sock'.sockfd ≠ -1)
  | opens (hnone : sock.sockfd = -1) (hfd : sock'.sockfd ≠ -1)
      (hfresh : k.isOpen sock'.sockfd = false)
      (hopen : k'.isOpen = Function.update k.isOpen sock'.sockfd true)
  | closes (hfd : sock'.sockfd = -1) (hsome : sock.sockfd ≠ -1)
      (hopen : k'.isOpen = Function.update k.isOpen sock.sockfd false)
      (hconnected : sock'.isConnected = false)

/-- A cache that is empty takes the kernel's answer, if there is one. -/
theorem getLocalAddress_eq (sock : Socket α) (k : SocketKernel α) :
    sock.getLocalAddress k = (sock.localAddress.or (k.sockname sock.sockfd),
      { sock with localAddress := sock.localAddress.or (k.sockname sock.sockfd) }) := by
  unfold getLocalAddress
  rcases sock with ⟨sockfd, family, type, protocol, isConnected, localAddress, remoteAddress⟩
  cases localAddress with
  | some a => rfl
  | none => cases k.sockname sockfd <;> rfl

theorem getRemoteAddress_eq (sock : Socket α) (k : SocketKernel α) :
    sock.getRemoteAddress k = (sock.remoteAddress.or (k.peername sock.sockfd),
      { sock with remoteAddress := sock.remoteAddress.or (k.peername sock.sockfd) }) := by
  unfold getRemoteAddress
  rcases sock with ⟨sockfd, family, type, protocol, isConnected, localAddress, remoteAddress⟩
  cases remoteAddress with
  | some a => rfl
  | none => cases k.peername sockfd <;> rfl

theorem cacheLocal_eq (sock : Socket α) (k : SocketKernel α) :
    sock.cacheLocal k =
      { sock with localAddress := sock.localAddress.or (k.sockname sock.sockfd) } := by
  rw [cacheLocal, getLocalAddress_eq]

theorem cacheRemote_eq (sock : Socket α) (k : SocketKernel α) :
    sock.cacheRemote k =
      { sock with remoteAddress := sock.remoteAddress.or (k.peername sock.sockfd) } := by
  rw [cacheRemote, getRemoteAddress_eq]

def working (sock : Socket α) (i : SocketInput α) : Int :=
  if sock.sockfd = -1 then i.fd else sock.sockfd

theorem ensure_eq (sock : Socket α) (k : SocketKernel α) (i : SocketInput α) :
    sock.ensure k i = ({ sock with sockfd := sock.working i },
      if sock.sockfd = -1 ∧ i.fd ≠ -1 then k.handOut i.fd else k) := by
  unfold ensure newSock working isValid
  by_cases hnone : sock.sockfd = -1
  · rw [if_neg (by simpa using hnone), if_pos hnone]
    by_cases hfd : i.fd = -1
    · rw [if_pos hfd, if_neg (fun h => h.2 hfd)]
    · rw [if_neg hfd, if_pos ⟨hnone, hfd⟩]
  · rw [if_pos (by simpa using hnone), if_neg hnone, if_neg (fun h => hnone h.1)]

/-- A socket that works on its descriptor, with the kernel's table after the beginning of a call. -/
theorem change_of_ensure {sock sock' : Socket α} {k k' : SocketKernel α} {i : SocketInput α}
    (hfresh : k.Fresh i.fd) (hfd : sock'.sockfd = sock.working i)
    (hopen : k'.isOpen = (sock.ensure k i).2.isOpen)
    (hconnected : sock'.isConnected → sock.isConnected ∨ sock'.sockfd ≠ -1) :
    Change sock k sock' k' := by
  rw [ensure_eq] at hopen
  by_cases hnew : sock.sockfd = -1 ∧ i.fd ≠ -1
  · have hwork : sock.working i = i.fd := if_pos hnew.1
    rw [hwork] at hfd
    have hopen' : k'.isOpen = Function.update k.isOpen i.fd true := by
      rw [hopen, if_pos hnew]
      rfl
    refine .opens hnew.1 (by rw [hfd]; exact hnew.2) ?_ (by rw [hfd]; exact hopen')
    rw [hfd]
    exact (hfresh.resolve_left hnew.2).2
  · have hopen' : k'.isOpen = k.isOpen := by rw [hopen, if_neg hnew]
    refine .keeps ?_ hopen' hconnected
    rw [hfd, working]
    by_cases hnone : sock.sockfd = -1
    · rw [if_pos hnone, hnone]
      exact not_not.mp fun hfd' => hnew ⟨hnone, hfd'⟩
    · rw [if_neg hnone]

/-- A socket that has closed the descriptor it worked on. -/
theorem change_of_failed {sock sock' : Socket α} {k k' : SocketKernel α} {i : SocketInput α}
    (hfresh : k.Fresh i.fd) (hfd : sock'.sockfd = -1) (hconnected : sock'.isConnected = false)
    (hwork : sock.working i ≠ -1)
    (hopen : k'.isOpen = Function.update (sock.ensure k i).2.isOpen (sock.working i) false) :
    Change sock k sock' k' := by
  rw [ensure_eq] at hopen
  by_cases hnone : sock.sockfd = -1
  · -- the descriptor has been opened and closed again
    have hnew : sock.working i = i.fd := if_pos hnone
    rw [hnew] at hopen hwork
    refine .keeps (hfd.trans hnone.symm) ?_ fun h => by rw [hconnected] at h; cases h
    rw [hopen, if_pos ⟨hnone, hwork⟩]
    show Function.update (Function.update k.isOpen i.fd true) i.fd false = k.isOpen
    rw [Function.update_idem, ← (hfresh.resolve_left hwork).2, Function.update_eq_self]
  · have hold : sock.working i = sock.sockfd := if_neg hnone
    refine .closes hfd hnone ?_ hconnected
    rw [hopen, hold, if_neg fun h => hnone h.1]

theorem change_ensure {sock : Socket α} {k : SocketKernel α} {i : SocketInput α}
    (hfresh : k.Fresh i.fd) : Change sock k (sock.ensure k i).1 (sock.ensure k i).2 := by
  apply change_of_ensure hfresh _ rfl
  · rw [ensure_eq]
    exact .inl
  · rw [ensure_eq]

theorem close_eq {sock : Socket α} (k : SocketKernel α) (h : sock.sockfd ≠ -1) :
    (sock.close k).2 = ({ sock with isConnected := false, sockfd := -1 }, k.close sock.sockfd) := by
  unfold close
  rw [if_neg (by simp [h]), if_neg h]

theorem change_close {sock : Socket α} (k : SocketKernel α) :
    Change sock k (sock.close k).2.1 (sock.close k).2.2 := by
  by_cases h : sock.sockfd = -1
  · unfold close
    split
    · exact .keeps rfl rfl .inl
    · exact .keeps h.symm rfl fun hc => by cases hc
  · rw [close_eq k h]
    exact .closes rfl h rfl rfl

theorem change_bind {sock : Socket α} {k : SocketKernel α} {i : SocketInput α}
    (hfresh : k.Fresh i.fd) (addrFamily : Int) :
    Change sock k (sock.bind k addrFamily i).2.1 (sock.bind k addrFamily i).2.2 := by
  unfold bind
  dsimp only
  split
  · exact change_ensure hfresh
  · split
    · exact change_ensure hfresh
    · split
      · exact change_ensure hfresh
      · rw [cacheLocal_eq]
        refine change_of_ensure (i := i) hfresh ?_ rfl ?_
        · rw [ensure_eq]
        · rw [ensure_eq]
          exact .inl

/-- `connect` on a descriptor, to an address of the family of the socket. -/
theorem connect_eq {sock : Socket α} {k : SocketKernel α} {addrFamily : Int} (timeoutMs : UInt64)
    {i : SocketInput α} (hwork : sock.working i ≠ -1) (hfamily : addrFamily = sock.family) :
    sock.connect k addrFamily timeoutMs i =
      let r := sock.ensure k i
      let k' := r.2.rename (sock.working i) i
      if timeoutMs = ~~~0 ∧ i.ok = true then
        (true, ({ r.1 with isConnected := true }.cacheRemote k').cacheLocal k', k')
      else (false, { r.1 with isConnected := false, sockfd := -1 }, k'.close (sock.working i)) := by
  have hfd : (sock.ensure k i).1.sockfd = sock.working i := by rw [ensure_eq]
  have hfam : (sock.ensure k i).1.family = sock.family := by rw [ensure_eq]
  have hvalid : (!(sock.ensure k i).1.isValid) = false := by
    unfold isValid
    rw [hfd]
    simpa using hwork
  have hclose : ∀ k' : SocketKernel α, ((sock.ensure k i).1.close k').2 =
      ({ (sock.ensure k i).1 with isConnected := false, sockfd := -1 },
        k'.close (sock.working i)) := by
    intro k'
    rw [close_eq k' (by rw [hfd]; exact hwork), hfd]
  unfold connect
  dsimp only
  rw [hvalid, if_neg (by decide), if_neg (by rw [hfam]; exact not_not.mpr hfamily), hfd]
  by_cases htimeout : timeoutMs = ~~~0
  · rw [if_pos htimeout]
    by_cases hok : i.ok = true
    · rw [if_neg (by rw [hok]; decide), if_pos ⟨htimeout, hok⟩]
    · rw [if_pos (by simpa using hok), if_neg fun h => hok h.2, hclose]
  · rw [if_neg htimeout, if_neg fun h => htimeout h.1, hclose]

theorem change_connect {sock : Socket α} {k : SocketKernel α} {i : SocketInput α}
    (hfresh : k.Fresh i.fd) (addrFamily : Int) (timeoutMs : UInt64) :
    Change sock k (sock.connect k addrFamily timeoutMs i).2.1
      (sock.connect k addrFamily timeoutMs i).2.2 := by
  have hfd : (sock.ensure k i).1.sockfd = sock.working i := by rw [ensure_eq]
  by_cases hwork : sock.working i = -1
  · unfold connect
    dsimp only
    rw [if_pos (by unfold isValid; rw [hfd, hwork]; rfl)]
    exact change_ensure hfresh
  · by_cases hfamily : addrFamily = sock.family
    · rw [connect_eq timeoutMs hwork hfamily]
      dsimp only
      split
      · rw [cacheRemote_eq, cacheLocal_eq]
        refine change_of_ensure (i := i) hfresh hfd rfl fun _ => .inr ?_
        show (sock.ensure k i).1.sockfd ≠ -1
        rw [hfd]
        exact hwork
      · exact change_of_failed hfresh rfl rfl hwork rfl
    · unfold connect
      dsimp only
      split
      · exact change_ensure hfresh
      · rw [if_pos (by rw [ensure_eq]; exact hfamily)]
        exact change_ensure hfresh

end Socket

namespace Sockets

variable {α : Type}

def held (s : Sockets α) (n : Nat) : List Int := (s.sockets[n]?.map Socket.descriptors).getD []

structure Sound (s : Sockets α) : Prop where
  exclusive : Exclusive s.held
  isOpen : ∀ n, ∀ fd ∈ s.held n, s.kernel.isOpen fd = true
  connected : ∀ (n : Nat) (sock : Socket α), s.sockets[n]? = some sock →
    sock.isConnected → sock.sockfd ≠ -1

theorem held_eq {s : Sockets α} {n : Nat} {sock : Socket α} (h : s.sockets[n]? = some sock) :
    s.held n = sock.descriptors := by
  unfold held
  rw [h]
  rfl

/-- Another socket is as it was. -/
theorem held_set_of_ne {s : Sockets α} {n m : Nat} (h : m ≠ n) (sock : Socket α)
    (k : SocketKernel α) :
    held { sockets := s.sockets.set n sock, kernel := k } m = s.held m := by
  unfold held
  rw [List.getElem?_set_ne h.symm]

theorem held_set_self {s : Sockets α} {n : Nat} (h : n < s.sockets.length) (sock : Socket α)
    (k : SocketKernel α) :
    held { sockets := s.sockets.set n sock, kernel := k } n = sock.descriptors :=
  held_eq (List.getElem?_set_self h)

/-- The descriptors of a socket are those of its `m_sockfd`. -/
theorem descriptors_congr {sock sock' : Socket α} (h : sock'.sockfd = sock.sockfd) :
    sock'.descriptors = sock.descriptors := by
  unfold Socket.descriptors
  rw [h]

/-- A call on one socket. -/
theorem Sound.change {s : Sockets α} (h : s.Sound) {n : Nat} {sock sock' : Socket α}
    {k' : SocketKernel α} (hsock : s.sockets[n]? = some sock)
    (hchange : Socket.Change sock s.kernel sock' k') :
    Sound { sockets := s.sockets.set n sock', kernel := k' } := by
  have hn : n < s.sockets.length := (List.getElem?_eq_some_iff.mp hsock).1
  have hself := held_set_self hn sock' k'
  have hold := held_eq hsock
  -- the flag of the socket, and the others
  have hconnected : (sock'.isConnected → sock'.sockfd ≠ -1) → ∀ (m : Nat) (t : Socket α),
      (s.sockets.set n sock')[m]? = some t → t.isConnected → t.sockfd ≠ -1 := by
    intro hsock' m t ht
    by_cases hmn : m = n
    · subst hmn
      rw [List.getElem?_set_self hn, Option.some_inj] at ht
      rw [← ht]
      exact hsock'
    · rw [List.getElem?_set_ne (Ne.symm hmn)] at ht
      exact h.connected m t ht
  cases hchange with
  | keeps hfd hopen hflag =>
    have hheld : ∀ m, held { sockets := s.sockets.set n sock', kernel := k' } m = s.held m := by
      intro m
      by_cases hmn : m = n
      · rw [hmn, hself, hold, descriptors_congr hfd]
      · exact held_set_of_ne hmn sock' k'
    refine ⟨h.exclusive.letGo fun m => ?_, fun m fd hm => ?_, hconnected fun hc => ?_⟩
    · rw [hheld m]
    · rw [hheld m] at hm
      rw [hopen]
      exact h.isOpen m fd hm
    · rcases hflag hc with hc | hvalid
      · rw [hfd]
        exact h.connected n sock hsock hc
      · exact hvalid
  | opens hnone hfd hfresh hopen =>
    have hempty : s.held n = [] := by rw [hold, Socket.descriptors, if_pos hnone]
    have hone : held { sockets := s.sockets.set n sock', kernel := k' } n = [sock'.sockfd] := by
      rw [hself, Socket.descriptors, if_neg hfd]
    refine ⟨h.exclusive.find n sock'.sockfd (fun m hm => ?_) ?_ fun m hmn => ?_,
      fun m fd hm => ?_, hconnected fun _ => hfd⟩
    · have hopen' := h.isOpen m _ hm
      rw [hfresh] at hopen'
      cases hopen'
    · rw [hone, hempty]
    · rw [held_set_of_ne hmn]
    · rw [hopen]
      by_cases heq : fd = sock'.sockfd
      · rw [heq, Function.update_self]
      · rw [Function.update_of_ne heq]
        by_cases hmn : m = n
        · rw [hmn, hone] at hm
          exact absurd (List.mem_singleton.mp hm) heq
        · rw [held_set_of_ne hmn] at hm
          exact h.isOpen m fd hm
  | closes hfd hsome hopen hflag =>
    have hempty : held { sockets := s.sockets.set n sock', kernel := k' } n = [] := by
      rw [hself, Socket.descriptors, if_pos hfd]
    have hmine : sock.sockfd ∈ s.held n := by
      rw [hold]
      exact Socket.mem_descriptors.mpr ⟨rfl, hsome⟩
    refine ⟨h.exclusive.letGo fun m => ?_, fun m fd hm => ?_,
      hconnected fun hc => by rw [hflag] at hc; cases hc⟩
    · by_cases hmn : m = n
      · rw [hmn, hempty]
        exact List.nil_subperm
      · rw [held_set_of_ne hmn]
    · by_cases hmn : m = n
      · rw [hmn, hempty] at hm
        exact absurd hm List.not_mem_nil
      · rw [held_set_of_ne hmn] at hm
        have hne : fd ≠ sock.sockfd := by
          intro heq
          rw [heq] at hm
          exact hmn (h.exclusive.one hm hmine)
        rw [hopen, Function.update_of_ne hne]
        exact h.isOpen m fd hm

/-- A socket without a descriptor is added. -/
theorem Sound.append {s : Sockets α} (h : s.Sound) {sock : Socket α} (hfd : sock.sockfd = -1)
    (hflag : sock.isConnected = false) :
    Sound { sockets := s.sockets ++ [sock], kernel := s.kernel } := by
  have hlast : ∀ (m : Nat) (t : Socket α), (s.sockets ++ [sock])[m]? = some t →
      s.sockets[m]? = some t ∨ t = sock := by
    intro m t ht
    by_cases hm : m < s.sockets.length
    · rw [List.getElem?_append_left hm] at ht
      exact .inl ht
    · rw [List.getElem?_append_right (by omega), List.getElem?_singleton] at ht
      split at ht
      · exact .inr (Option.some.inj ht).symm
      · cases ht
  have hheld : ∀ m, held { sockets := s.sockets ++ [sock], kernel := s.kernel } m = s.held m := by
    intro m
    by_cases hm : m < s.sockets.length
    · unfold held
      rw [List.getElem?_append_left hm]
    · have hnone : s.held m = [] := by
        unfold held
        rw [List.getElem?_eq_none (by omega)]
        rfl
      rw [hnone]
      unfold held
      rw [List.getElem?_append_right (by omega), List.getElem?_singleton]
      split
      · show sock.descriptors = []
        rw [Socket.descriptors, if_pos hfd]
      · rfl
  refine ⟨h.exclusive.letGo fun m => by rw [hheld m], fun m fd hm => ?_, fun m t ht hc => ?_⟩
  · rw [hheld m] at hm
    exact h.isOpen m fd hm
  · rcases hlast m t ht with hold | rfl
    · exact h.connected m t hold hc
    · rw [hflag] at hc
      cases hc

/-- Other descriptors may be open as well. -/
theorem Sound.mono {s : Sockets α} (h : s.Sound) {k : SocketKernel α}
    (hopen : ∀ fd, s.kernel.isOpen fd = true → k.isOpen fd = true) :
    Sound { s with kernel := k } :=
  ⟨h.exclusive, fun m fd hm => hopen fd (h.isOpen m fd hm), h.connected⟩

theorem Sound.accept {s : Sockets α} (h : s.Sound) {sock newSocket : Socket α} {managed : Bool}
    {i : SocketInput α} {k : SocketKernel α} (hfresh : s.kernel.Fresh i.fd)
    (haccept : sock.accept s.kernel managed i = (some newSocket, k)) :
    Sound { sockets := s.sockets ++ [newSocket], kernel := k } := by
  unfold Socket.accept at haccept
  split at haccept
  · cases haccept
  · next hfd =>
    -- the object is made without a descriptor, and `init` gives it one
    let closed : Socket α := { family := sock.family, type := sock.type, protocol := sock.protocol }
    have happend : Sound { sockets := s.sockets ++ [closed], kernel := s.kernel } :=
      h.append rfl rfl
    have hlast : (s.sockets ++ [closed])[s.sockets.length]? = some closed := by
      rw [List.getElem?_append_right (Nat.le_refl _), Nat.sub_self]
      rfl
    have hchange : Socket.Change closed s.kernel newSocket k := by
      unfold Socket.init at haccept
      split at haccept
      · cases haccept
        rw [Socket.cacheLocal_eq, Socket.cacheRemote_eq]
        exact .opens rfl hfd (hfresh.resolve_left hfd).2 rfl
      · cases haccept
    have hset := happend.change hlast hchange
    rwa [List.set_append_right _ _ (Nat.le_refl _), Nat.sub_self, List.set_cons_zero] at hset

theorem accept_none {sock : Socket α} {k k' : SocketKernel α} {managed : Bool} {i : SocketInput α}
    (h : sock.accept k managed i = (none, k')) (fd : Int) (hopen : k.isOpen fd = true) :
    k'.isOpen fd = true := by
  unfold Socket.accept at h
  split at h
  · cases h
    exact hopen
  · unfold Socket.init at h
    split at h
    · cases h
    · cases h
      show Function.update k.isOpen i.fd true fd = true
      rw [Function.update_apply]
      split
      · rfl
      · exact hopen

theorem Sound.step {s s' : Sockets α} (h : s.Sound) {e : SocketAction α × Bool}
    (hstep : s.Step e s') : s'.Sound := by
  rcases e with ⟨a, ret⟩
  unfold Step at hstep
  cases a with
  | new family type protocol =>
    cases hstep
    exact h.append rfl rfl
  | bind n addrFamily i =>
    simp only [act] at hstep
    split at hstep
    · next sock hsock =>
      split at hstep
      · next hfresh =>
        cases hstep
        exact h.change hsock (Socket.change_bind hfresh addrFamily)
      · cases hstep
    · cases hstep
  | connect n addrFamily timeoutMs i =>
    simp only [act] at hstep
    split at hstep
    · next sock hsock =>
      split at hstep
      · next hfresh =>
        cases hstep
        exact h.change hsock (Socket.change_connect hfresh addrFamily timeoutMs)
      · cases hstep
    · cases hstep
  | close n =>
    rcases Option.map_eq_some_iff.mp hstep with ⟨sock, hsock, heq⟩
    cases heq
    exact h.change hsock (Socket.change_close s.kernel)
  | accept n managed i =>
    simp only [act] at hstep
    split at hstep
    · next sock hsock =>
      split at hstep
      · next hfresh =>
        split at hstep
        · next k haccept =>
          cases hstep
          exact h.mono (accept_none haccept)
        · next newSocket k haccept =>
          cases hstep
          exact h.accept hfresh haccept
      · cases hstep
    · cases hstep
  | rename fd i =>
    cases hstep
    exact h.mono fun _ hopen => hopen

theorem sound_new : Sound ({} : Sockets α) where
  exclusive := ⟨fun _ => List.nodup_nil, fun hm => absurd hm List.not_mem_nil⟩
  isOpen _ _ hm := absurd hm List.not_mem_nil
  connected _ _ h := by cases h

/-! ## The contract of `connect` -/

/-- The call returned true, and the socket is connected on the open descriptor `fd`. -/
def Succeeded (s : Sockets α) (n : Nat) (fd : Int) (ret : Bool) : Prop :=
  ret = true ∧ s.kernel.isOpen fd = true ∧
    ∃ sock, s.sockets[n]? = some sock ∧ sock.isConnected = true ∧ sock.sockfd = fd

/-- The call returned false, and the socket is closed, with the descriptor `fd` it may have had. -/
def Failed (s : Sockets α) (n : Nat) (fd : Int) (ret : Bool) : Prop :=
  ret = false ∧ (fd ≠ -1 → s.kernel.isOpen fd = false) ∧
    ∃ sock, s.sockets[n]? = some sock ∧ sock.isConnected = false ∧ sock.sockfd = -1

/-- A call to an address of the family of the socket reports what the call below came to. -/
def Reports (s : Sockets α) (e : SocketAction α × Bool) (s' : Sockets α) : Prop :=
  ∀ (n : Nat) (timeoutMs : UInt64) (i : SocketInput α) (sock : Socket α),
    s.sockets[n]? = some sock → e.1 = .connect n sock.family timeoutMs i →
    if sock.working i ≠ -1 ∧ i.ok = true then s'.Succeeded n (sock.working i) e.2
    else s'.Failed n (sock.working i) e.2

/-- No timeout is asked for, or the call below fails or is not made. -/
def Untimed (s : Sockets α) (e : SocketAction α × Bool) : Prop :=
  ∀ (n : Nat) (timeoutMs : UInt64) (i : SocketInput α) (sock : Socket α),
    s.sockets[n]? = some sock → e.1 = .connect n sock.family timeoutMs i →
    timeoutMs = ~~~0 ∨ ¬ (sock.working i ≠ -1 ∧ i.ok = true)

/-- The call on a socket, when the descriptor it works on is none. -/
theorem connect_invalid {sock : Socket α} {k : SocketKernel α} {i : SocketInput α}
    (hwork : sock.working i = -1) (addrFamily : Int) (timeoutMs : UInt64) :
    (sock.connect k addrFamily timeoutMs i).1 = false ∧
      (sock.connect k addrFamily timeoutMs i).2.1.sockfd = -1 ∧
      (sock.connect k addrFamily timeoutMs i).2.1.isConnected = sock.isConnected := by
  have hfd : (sock.ensure k i).1.sockfd = -1 := by rw [Socket.ensure_eq, hwork]
  have hconnected : (sock.ensure k i).1.isConnected = sock.isConnected := by
    rw [Socket.ensure_eq]
  unfold Socket.connect
  dsimp only
  rw [if_pos (by unfold Socket.isValid; rw [hfd]; rfl)]
  exact ⟨rfl, hfd, hconnected⟩

/-- The descriptor a connect works on is open. -/
theorem Sound.working_isOpen {s : Sockets α} (h : s.Sound) {n : Nat} {sock : Socket α}
    {i : SocketInput α} (hsock : s.sockets[n]? = some sock) (hwork : sock.working i ≠ -1) :
    (sock.ensure s.kernel i).2.isOpen (sock.working i) = true := by
  rw [Socket.ensure_eq]
  dsimp only
  by_cases hnone : sock.sockfd = -1
  · have hnew : sock.working i = i.fd := if_pos hnone
    rw [hnew] at hwork ⊢
    rw [if_pos ⟨hnone, hwork⟩]
    exact Function.update_self ..
  · have hold : sock.working i = sock.sockfd := if_neg hnone
    rw [hold, if_neg fun h => hnone h.1]
    apply h.isOpen n
    rw [held_eq hsock]
    exact Socket.mem_descriptors.mpr ⟨rfl, hnone⟩

theorem reports_iff_untimed {s s' : Sockets α} (h : s.Sound) {e : SocketAction α × Bool}
    (hstep : s.Step e s') : Reports s e s' ↔ Untimed s e := by
  -- both speak of a connect on a socket that exists
  suffices hone : ∀ (n : Nat) (timeoutMs : UInt64) (i : SocketInput α) (sock : Socket α),
      s.sockets[n]? = some sock → e.1 = .connect n sock.family timeoutMs i →
      ((if sock.working i ≠ -1 ∧ i.ok = true then s'.Succeeded n (sock.working i) e.2
          else s'.Failed n (sock.working i) e.2) ↔
        (timeoutMs = ~~~0 ∨ ¬ (sock.working i ≠ -1 ∧ i.ok = true))) by
    constructor
    · exact fun hreports n timeoutMs i sock hsock he =>
        (hone n timeoutMs i sock hsock he).mp (hreports n timeoutMs i sock hsock he)
    · exact fun huntimed n timeoutMs i sock hsock he =>
        (hone n timeoutMs i sock hsock he).mpr (huntimed n timeoutMs i sock hsock he)
  intro n timeoutMs i sock hsock he
  rcases e with ⟨a, ret⟩
  cases he
  have hn : n < s.sockets.length := (List.getElem?_eq_some_iff.mp hsock).1
  unfold Step at hstep
  simp only [act, hsock] at hstep
  split at hstep
  · cases hstep
    have hself : ∀ t : Socket α, (s.sockets.set n t)[n]? = some t := fun t =>
      List.getElem?_set_self hn
    by_cases hwork : sock.working i = -1
    · rcases connect_invalid hwork sock.family timeoutMs (k := s.kernel) with ⟨hret, hfd, hflag⟩
      have hnone : sock.sockfd = -1 := by
        by_cases hnone : sock.sockfd = -1
        · exact hnone
        · rwa [Socket.working, if_neg hnone] at hwork
      have hoff : sock.isConnected = false := by
        cases hc : sock.isConnected with
        | false => rfl
        | true => exact absurd hnone (h.connected n sock hsock hc)
      rw [if_neg fun hok => hok.1 hwork]
      exact iff_of_true
        ⟨hret, fun hne => absurd hwork hne, _, hself _, hflag.trans hoff, hfd⟩
        (.inr fun hok => hok.1 hwork)
    · have hopen := h.working_isOpen hsock hwork
      have heq := Socket.connect_eq (k := s.kernel) timeoutMs hwork
        (show sock.family = sock.family from rfl)
      rw [heq]
      dsimp only
      by_cases hok : i.ok = true
      · by_cases htimeout : timeoutMs = ~~~0
        · rw [if_pos ⟨hwork, hok⟩, if_pos ⟨htimeout, hok⟩]
          rw [Socket.cacheRemote_eq, Socket.cacheLocal_eq]
          have hfd : (sock.ensure s.kernel i).1.sockfd = sock.working i := by
            rw [Socket.ensure_eq]
          exact iff_of_true ⟨rfl, hopen, _, hself _, rfl, hfd⟩ (.inl htimeout)
        · rw [if_pos ⟨hwork, hok⟩, if_neg fun hboth => htimeout hboth.1]
          apply iff_of_false
          · rintro ⟨hret, -⟩
            cases hret
          · rintro (hall | hnot)
            · exact htimeout hall
            · exact hnot ⟨hwork, hok⟩
      · rw [if_neg fun hboth => hok hboth.2, if_neg fun hboth => hok hboth.2]
        exact iff_of_true ⟨rfl, fun _ => Function.update_self .., _, hself _, rfl, rfl⟩
          (.inr fun hboth => hok hboth.2)
  · cases hstep

/-- The runs whose connects all report their outcome are those whose connects all pass no timeout or
fail, and no run connects a socket without a descriptor. -/
theorem connect_reports_iff (es : List (SocketAction α × Bool)) (s : Sockets α) :
    (Run (fun s e s' => Step s e s' ∧ Reports s e s') ({} : Sockets α) es s ↔
        Run (Guarded Untimed Step) ({} : Sockets α) es s) ∧
      (Run Step ({} : Sockets α) es s → ∀ sock ∈ s.sockets, sock.isConnected → sock.sockfd ≠ -1) := by
  constructor
  · apply Run.iff_of_invariant Sound sound_new
    · exact fun _ _ _ h hs => h.step hs.2
    · intro s e s' h
      constructor
      · rintro ⟨hstep, hreports⟩
        exact ⟨(reports_iff_untimed h hstep).mp hreports, hstep⟩
      · rintro ⟨huntimed, hstep⟩
        exact ⟨hstep, (reports_iff_untimed h hstep).mpr huntimed⟩
  · intro hrun sock hmem
    have hsound := hrun.invariant Sound sound_new fun _ _ _ h hstep => h.step hstep
    rcases List.mem_iff_getElem?.mp hmem with ⟨n, hn⟩
    exact hsound.connected n sock hn

/-- With a timeout of one second, a connect that has succeeded returns false and is closed. -/
theorem connect_timed_fails :
    ¬ ∀ (es : List (SocketAction Unit × Bool)) (s s' : Sockets Unit) (e : SocketAction Unit × Bool),
      Run Step ({} : Sockets Unit) es s → Step s e s' → Reports s e s' := by
  intro h
  have hrun := (Run.nil ({} : Sockets Unit)).snoc (show Step _ (.new 2 1 0, true) _ from rfl)
  have hreports := h _ _ _ (.connect 0 2 1000 { fd := 5, ok := true }, false) hrun
    (show Step _ _ _ from rfl)
  have hsucceeded := hreports 0 1000 { fd := 5, ok := true } { family := 2, type := 1 } rfl rfl
  exact absurd hsucceeded.1 (by decide)

end Sockets

end Azure
