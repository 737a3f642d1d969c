import Azure.Tcp.Clients
import Mathlib.Algebra.Order.BigOperators.Group.List
import Mathlib.Algebra.Order.Group.Nat
import Mathlib.Data.List.Nodup

/-!
# The end of a server

After `stop` the fibers of a server have a bounded number of steps left, and then no socket listens any more.
A `startAccept` has ended by then, unless it has added its event behind the last `cancelAll` of its socket and
before `close_f`: nothing wakes it any more.  With one thread for the accepting fibers nothing comes in between
there, since neither `cancelAll` nor `close` yields.
-/

namespace Azure

open Reasoning

namespace TcpServer

variable {κ : Type} {s t u : TcpServer κ} {a : TcpAction κ} {n : Nat} {l : AcceptLoop κ}

/-! ## Who accepts from what -/

def Idle (s : TcpServer κ) : Prop := ∀ l ∈ s.loops, l.pc = .ended ∨ s.closed l.sock = true

/-- A `bind` that fails gives up all sockets, and should not while one of them is accepted from; and each of
them is accepted from by one fiber when nobody starts the server again before it has stopped. -/
def Careful (s : TcpServer κ) : TcpAction κ → Prop
  | .bind outcomes => outcomes.all id = true ∨ s.Idle
  | .start => s.isStop = false ∨ s.closing = none ∧ s.Idle
  | _ => True

def goesOn : AcceptPc κ → Bool
  | .ended => false
  | _ => true

def accepting (i : Nat) (l : AcceptLoop κ) : Bool := l.sock == i && goesOn l.pc

/-- The sockets that are accepted from are those that `stop` closes, and each is accepted from once. -/
structure Tracked (s : TcpServer κ) : Prop where
  held : ∀ l ∈ s.loops, l.pc = .ended ∨ s.closed l.sock = true ∨ l.sock ∈ s.socks
  closing : ∀ is pc, s.closing = some (is, pc) →
    (∀ i ∈ s.socks, s.closed i = true ∨ i ∈ is) ∧ ∀ i ∈ is, i < s.created
  fresh : s.closing = none → ∀ i ∈ s.socks, s.closed i = false
  created : ∀ i, i ∈ s.socks ∨ s.closed i = true → i < s.created
  once : s.socks.Nodup
  single : ∀ i, s.loops.countP (accepting i) ≤ 1

theorem accepting_iff {i : Nat} : accepting i l = true ↔ l.sock = i ∧ l.pc ≠ .ended := by
  rw [accepting, Bool.and_eq_true, beq_iff_eq]
  refine and_congr_right fun _ => ?_
  cases l.pc <;> simp [goesOn]

theorem countP_goto (hl : s.loops[n]? = some l) (hpc : l.pc ≠ .ended) (pc : AcceptPc κ) (i : Nat) :
    (s.goto n pc).loops.countP (accepting i) ≤ s.loops.countP (accepting i) := by
  obtain ⟨before, after, hloops, hmodify⟩ := modify_split hl fun l => { l with pc }
  rw [goto, hmodify, hloops, List.countP_append, List.countP_append, List.countP_cons, List.countP_cons]
  by_cases hi : l.sock = i
  · rw [if_pos (accepting_iff.mpr ⟨hi, hpc⟩)]
    split <;> omega
  · have hnew : ¬ accepting i { l with pc } = true := fun h => hi (accepting_iff.mp h).1
    rw [if_neg fun h => hi (accepting_iff.mp h).1, if_neg hnew]

/-- A `startAccept` goes on, with the same socket. -/
theorem Tracked.goto (h : Tracked s) {pc : AcceptPc κ} (hl : s.loops[n]? = some l) (hpc : l.pc ≠ .ended) :
    Tracked (s.goto n pc) where
  held := fun l' hl' => by
    rcases mem_goto hl hl' with hmem | rfl
    · exact h.held l' hmem
    · exact .inr ((h.held l (List.mem_of_getElem? hl)).resolve_left hpc)
  closing := h.closing
  fresh := h.fresh
  created := h.created
  once := h.once
  single := fun i => (countP_goto hl hpc pc i).trans (h.single i)

theorem Tracked.loop {t : TcpServer κ} (h : Tracked s) (hl : s.loops[n]? = some l) (hmove : LoopMove s n l t) :
    Tracked t := by
  have hpc := hmove.pc_ne_ended
  cases hmove with
  | take c cs =>
    have hset : Tracked (s.setBacklog l.sock cs) :=
      ⟨h.held, h.closing, h.fresh, h.created, h.once, h.single⟩
    exact hset.goto hl hpc
  | schedule c =>
    have hserve : Tracked (s.serve c l.sock) := ⟨h.held, h.closing, h.fresh, h.created, h.once, h.single⟩
    exact hserve.goto hl hpc
  | _ => exact h.goto hl hpc

theorem Tracked.bind (h : Tracked s) {outcomes : List Bool} (hclosing : s.closing = none)
    (hcareful : Careful s (.bind outcomes)) : Tracked (s.bind outcomes).2 := by
  have hnone : ∀ {is pc}, s.closing = some (is, pc) → False := by
    intro is pc hsome
    rw [hclosing] at hsome
    cases hsome
  rw [bind_eq]
  by_cases hok : outcomes.all id = true
  · rw [if_pos hok]
    have hnew : ∀ i ∈ List.range' s.created outcomes.length, s.closed i = false := by
      intro i hi
      rw [← Bool.not_eq_true]
      intro hc
      have hlt := h.created i (.inr hc)
      have hge := (List.mem_range'_1.mp hi).1
      omega
    refine ⟨fun l hl => ?_, fun is pc his => (hnone his).elim, fun _ i hi => ?_, fun i hi => ?_, ?_, h.single⟩
    · exact (h.held l hl).imp_right (Or.imp_right (List.mem_append_left _))
    · exact (List.mem_append.mp hi).elim (h.fresh hclosing i) (hnew i)
    · show i < s.created + outcomes.length
      rcases hi with hmem | hc
      · rcases List.mem_append.mp hmem with hmem | hmem
        · exact Nat.lt_add_right _ (h.created i (.inl hmem))
        · exact (List.mem_range'_1.mp hmem).2
      · exact Nat.lt_add_right _ (h.created i (.inr hc))
    · rw [List.nodup_append]
      refine ⟨h.once, List.nodup_range', fun i hi j hj heq => ?_⟩
      have hlt := h.created i (.inl hi)
      have hge := (List.mem_range'_1.mp hj).1
      omega
  · rw [if_neg hok]
    refine ⟨fun l hl => ?_, fun is pc his => (hnone his).elim, fun _ i hi => absurd hi List.not_mem_nil,
      fun i hi => ?_, List.nodup_nil, h.single⟩
    · exact (hcareful.resolve_left hok l hl).imp_right .inl
    · show i < s.created + outcomes.length
      exact Nat.lt_add_right _ (h.created i (.inr (hi.resolve_left List.not_mem_nil)))

theorem Tracked.start (h : Tracked s) (hcareful : Careful s .start) : Tracked s.start := by
  rw [TcpServer.start]
  by_cases hstop : s.isStop = false
  · rw [if_pos hstop]
    exact h
  · obtain ⟨hclosing, hidle⟩ := hcareful.resolve_left hstop
    rw [if_neg hstop]
    refine ⟨fun l hl => ?_, h.closing, h.fresh, h.created, h.once, fun i => ?_⟩
    · rcases List.mem_append.mp hl with hl | hl
      · exact h.held l hl
      · obtain ⟨i, hi, rfl⟩ := List.mem_map.mp hl
        exact .inr (.inr hi)
    · show (s.loops ++ s.socks.map fun i => ({ sock := i } : AcceptLoop κ)).countP (accepting i) ≤ 1
      rw [List.countP_append]
      by_cases hi : i ∈ s.socks
      · -- a call that goes on does so with another socket, which is closed
        have hold : s.loops.countP (accepting i) = 0 := by
          rw [List.countP_eq_zero]
          intro l hl hacc
          obtain ⟨rfl, hpc⟩ := accepting_iff.mp hacc
          have hc := (hidle l hl).resolve_left hpc
          rw [h.fresh hclosing l.sock hi] at hc
          cases hc
        have hnew : (s.socks.map fun i => ({ sock := i } : AcceptLoop κ)).countP (accepting i) =
            s.socks.count i := by
          rw [List.countP_map, List.count]
          refine List.countP_congr fun j _ => ?_
          rw [Function.comp_apply, accepting_iff]
          simp
        rw [hold, hnew, Nat.zero_add]
        exact List.nodup_iff_count_le_one.mp h.once i
      · have hnew : (s.socks.map fun i => ({ sock := i } : AcceptLoop κ)).countP (accepting i) = 0 := by
          rw [List.countP_eq_zero]
          intro l hl hacc
          obtain ⟨j, hj, rfl⟩ := List.mem_map.mp hl
          exact hi ((accepting_iff.mp hacc).1 ▸ hj)
        rw [hnew, Nat.add_zero]
        exact h.single i

variable [DecidableEq κ]

theorem Tracked.cancelAll (h : Tracked s) (i : Nat) : Tracked (s.cancelAll i) where
  held := fun l hl => by
    rcases mem_cancelAll hl with ⟨hmem, -⟩ | ⟨rfl, hmem⟩
    · exact h.held l hmem
    · exact .inr ((h.held _ hmem).resolve_left (by simp))
  closing := h.closing
  fresh := h.fresh
  created := h.created
  once := h.once
  single := fun j => by
    rw [TcpServer.cancelAll, List.countP_map]
    refine (Nat.le_of_eq (List.countP_congr fun l _ => ?_)).trans (h.single j)
    rw [Function.comp_apply]
    split
    · next hl =>
      rw [hl, accepting_iff, accepting_iff]
      simp
    · rfl

theorem Tracked.close (h : Tracked s) (hmove : CloseMove s t) : Tracked t := by
  cases hmove with
  | begin hclosing hstops =>
    refine ⟨h.held, fun is pc his => ?_, (fun hnone => nomatch hnone), h.created, h.once, h.single⟩
    cases his
    exact ⟨fun i hi => .inr hi, fun i hi => h.created i (.inl hi)⟩
  | cancel i is hclosing | cancelHook i is hclosing =>
    have hwoken := h.cancelAll i
    refine ⟨hwoken.held, fun js pc hjs => ?_, (fun hnone => nomatch hnone), h.created, h.once, hwoken.single⟩
    cases hjs
    exact h.closing _ _ hclosing
  | del i is hclosing =>
    refine ⟨h.held, fun js pc hjs => ?_, (fun hnone => nomatch hnone), h.created, h.once, h.single⟩
    cases hjs
    exact h.closing _ _ hclosing
  | close j js hclosing =>
    obtain ⟨hall, hcreated⟩ := h.closing _ _ hclosing
    have hupdate (i : Nat) : Function.update s.closed j true i = true ↔ i = j ∨ s.closed i = true := by
      rw [Function.update_apply]
      split
      · next heq => simp [heq]
      · next hne => simp [hne]
    refine ⟨fun l hl => ?_, fun is pc his => ?_, (fun hnone => nomatch hnone), fun i hi => ?_, h.once, h.single⟩
    · exact (h.held l hl).imp_right (Or.imp_left fun hc => (hupdate l.sock).mpr (.inr hc))
    · cases his
      refine ⟨fun i hi => ?_, fun i hi => hcreated i (List.mem_cons_of_mem _ hi)⟩
      rcases hall i hi with hc | hmem
      · exact .inl ((hupdate i).mpr (.inr hc))
      · exact (List.mem_cons.mp hmem).imp_left fun heq => (hupdate i).mpr (.inl heq)
    · rcases hi with hmem | hc
      · exact h.created i (.inl hmem)
      · rcases (hupdate i).mp hc with rfl | hc
        · exact hcreated i List.mem_cons_self
        · exact h.created i (.inr hc)
  | finish pc hclosing =>
    refine ⟨fun l hl => ?_, (fun is pc his => nomatch his), fun _ i hi => absurd hi List.not_mem_nil,
      fun i hi => h.created i (.inr (hi.resolve_left List.not_mem_nil)), List.nodup_nil, h.single⟩
    rcases h.held l hl with hended | hc | hmem
    · exact .inl hended
    · exact .inr (.inl hc)
    · exact .inr (.inl (((h.closing _ _ hclosing).1 l.sock hmem).resolve_right List.not_mem_nil))

theorem Tracked.step (h : Tracked s) (hs : Guarded Careful Step s a t) : Tracked t := by
  have hsettle : ∀ {t : TcpServer κ}, Tracked t → Tracked t.settle :=
    fun h => ⟨h.held, h.closing, h.fresh, h.created, h.once, h.single⟩
  cases move_of_step hs.2 with
  | bind outcomes hclosing => exact hsettle (h.bind hclosing hs.1)
  | start => exact h.start hs.1
  | stop => exact ⟨h.held, h.closing, h.fresh, h.created, h.once, h.single⟩
  | setReadTimeout v => exact ⟨h.held, h.closing, h.fresh, h.created, h.once, h.single⟩
  | connect j c hlistening => exact ⟨h.held, h.closing, h.fresh, h.created, h.once, h.single⟩
  | loop n fails l hl hmove => exact hsettle (h.loop hl hmove)
  | close hmove => exact hsettle (h.close hmove)

/-! ## What is left to do -/

section

omit [DecidableEq κ]

/-- The steps from `retry` when `m_isStop` is set: without a connection the fiber waits for one. -/
def retrySteps (s : TcpServer κ) (i : Nat) : Nat :=
  if s.closed i then 2 else if s.backlog i = [] then 6 else 3

/-- The steps that a `startAccept` has left when `m_isStop` is set and nobody cancels. -/
def stepsAt (s : TcpServer κ) (l : AcceptLoop κ) : Nat :=
  match l.pc with
  | .queued => 2
  | .test => 1
  | .accept => s.retrySteps l.sock + 1
  | .retry => s.retrySteps l.sock
  | .add => if s.closed l.sock then 2 else 5
  | .wait => 4
  | .schedule _ => 2
  | .ended => 0

/-- The steps that the socket being closed has left; each `cancelAll` costs every fiber two more at most. -/
def closeSteps (s : TcpServer κ) : ClosePc → Nat
  | .cancel => 4 + 4 * s.loops.length
  | .cancelHook => 3 + 2 * s.loops.length
  | .del => 2
  | .close => 1

def work (s : TcpServer κ) : Nat :=
  (s.loops.map s.stepsAt).sum +
    (match s.closing with
      | none => 0
      | some ([], _) => 1
      | some (_ :: is, pc) => s.closeSteps pc + is.length * s.closeSteps .cancel + 1) +
    s.stops * (s.socks.length * s.closeSteps .cancel + 2)

def Quiet (_ : TcpServer κ) : TcpAction κ → Prop
  | .bind _ | .start | .stop => False
  | _ => True

def isWork : TcpAction κ → Bool
  | .loop _ _ | .close => true
  | _ => false

/-- When only the fibers and what they wait for change, so does what is left. -/
theorem work_eq (hlength : t.loops.length = s.loops.length) (hclosing : t.closing = s.closing)
    (hstops : t.stops = s.stops) (hsocks : t.socks = s.socks) :
    t.work + (s.loops.map s.stepsAt).sum = s.work + (t.loops.map t.stepsAt).sum := by
  have hclose : t.closeSteps = s.closeSteps := by
    funext pc
    cases pc <;> simp only [closeSteps, hlength]
  rw [work, work, hclosing, hstops, hsocks, hclose]
  omega

theorem sum_goto (hl : s.loops[n]? = some l) (pc : AcceptPc κ) (w : AcceptLoop κ → Nat) :
    ((s.goto n pc).loops.map w).sum + w l = (s.loops.map w).sum + w ⟨l.sock, pc⟩ := by
  obtain ⟨before, after, hloops, hmodify⟩ := modify_split hl fun l => { l with pc }
  rw [goto, hmodify, hloops, List.map_append, List.map_append, List.sum_append, List.sum_append, List.map_cons,
    List.map_cons, List.sum_cons, List.sum_cons]
  omega

theorem work_goto (hl : s.loops[n]? = some l) (pc : AcceptPc κ) :
    (s.goto n pc).work + s.stepsAt l = s.work + s.stepsAt ⟨l.sock, pc⟩ := by
  have hsum := sum_goto hl pc s.stepsAt
  have hwork := work_eq (s := s) (t := s.goto n pc) (List.length_modify ..) rfl rfl rfl
  change _ = s.work + ((s.goto n pc).loops.map s.stepsAt).sum at hwork
  omega

/-- The others that accept do so from other sockets. -/
theorem sum_setBacklog (hsingle : s.loops.countP (accepting l.sock) ≤ 1) (hl : s.loops[n]? = some l)
    (hpc : l.pc ≠ .ended) (cs : List κ) :
    (s.loops.map (s.setBacklog l.sock cs).stepsAt).sum + s.stepsAt l =
      (s.loops.map s.stepsAt).sum + (s.setBacklog l.sock cs).stepsAt l := by
  obtain ⟨before, after, hloops, -⟩ := modify_split hl id
  rw [hloops, List.countP_append, List.countP_cons, if_pos (accepting_iff.mpr ⟨rfl, hpc⟩)] at hsingle
  have hother : ∀ l' : AcceptLoop κ, ¬ accepting l.sock l' = true →
      (s.setBacklog l.sock cs).stepsAt l' = s.stepsAt l' := by
    intro l' hl'
    have hretry : l'.pc ≠ .ended →
        (s.setBacklog l.sock cs).retrySteps l'.sock = s.retrySteps l'.sock := by
      intro hpc'
      have hne : l'.sock ≠ l.sock := fun heq => hl' (accepting_iff.mpr ⟨heq, hpc'⟩)
      rw [retrySteps, backlog_setBacklog, if_neg hne]
      rfl
    rw [stepsAt, stepsAt]
    cases hpc' : l'.pc with
    | accept => exact congrArg (· + 1) (hretry (by rw [hpc']; simp))
    | retry => exact hretry (by rw [hpc']; simp)
    | _ => rfl
  have hbefore : before.map (s.setBacklog l.sock cs).stepsAt = before.map s.stepsAt :=
    List.map_congr_left fun l' hl' => hother l' (List.countP_eq_zero.mp (by omega) l' hl')
  have hafter : after.map (s.setBacklog l.sock cs).stepsAt = after.map s.stepsAt :=
    List.map_congr_left fun l' hl' => hother l' (List.countP_eq_zero.mp (by omega) l' hl')
  rw [hloops, List.map_append, List.map_append, List.map_cons, List.map_cons, hbefore, hafter,
    List.sum_append, List.sum_append, List.sum_cons, List.sum_cons]
  omega

/-- Each step of a `startAccept` is one of those that are left. -/
theorem LoopMove.work {t : TcpServer κ} (hmove : LoopMove s n l t) (hl : s.loops[n]? = some l)
    (hsingle : s.loops.countP (accepting l.sock) ≤ 1) (hstop : s.isStop = true) :
    t.work + 1 ≤ s.work := by
  have hretry : 2 ≤ s.retrySteps l.sock := by
    rw [retrySteps]
    split
    · exact Nat.le_refl _
    · split <;> omega
  have hpc' := hmove.pc_ne_ended
  cases hmove with
  | begin hpc =>
    have hwork := work_goto hl .test
    simp only [stepsAt, hpc] at hwork
    omega
  | test hpc =>
    have hwork := work_goto hl .ended
    simp only [stepsAt, hpc] at hwork
    rw [hstop, if_pos rfl]
    omega
  | refuse hpc =>
    have hwork := work_goto hl .test
    rcases hpc with hpc | hpc | hpc
    · simp only [stepsAt, hpc] at hwork
      omega
    · simp only [stepsAt, hpc] at hwork
      omega
    · simp only [stepsAt, hpc] at hwork
      split at hwork <;> omega
  | retry hpc hopen =>
    have hwork := work_goto hl .retry
    simp only [stepsAt, hpc] at hwork
    omega
  | take c cs hpc hopen hbacklog =>
    -- what was left before the connection came out of the backlog
    have hleft : 3 ≤ s.stepsAt l := by
      have hthree : s.retrySteps l.sock = 3 := by
        rw [retrySteps, hopen, if_neg Bool.false_ne_true, hbacklog, if_neg (List.cons_ne_nil c cs)]
      rw [stepsAt]
      rcases hpc with hpc | hpc
      · rw [hpc, hthree]
        exact Nat.le_succ 3
      · rw [hpc, hthree]
    have hset := sum_setBacklog hsingle hl hpc' cs
    have hgoto := work_goto (s := s.setBacklog l.sock cs) hl (.schedule c)
    have hwork := work_eq (s := s) (t := s.setBacklog l.sock cs) rfl rfl rfl rfl
    change _ = s.work + (s.loops.map (s.setBacklog l.sock cs).stepsAt).sum at hwork
    change _ = _ + 2 at hgoto
    omega
  | add hpc hopen hbacklog =>
    have hwork := work_goto hl .add
    simp only [stepsAt, hpc, retrySteps, hopen, hbacklog, if_true, Bool.false_eq_true, if_false] at hwork
    omega
  | wait hpc hopen =>
    have hwork := work_goto hl .wait
    simp only [stepsAt, hpc, hopen, Bool.false_eq_true, if_false] at hwork
    omega
  | wake hpc hopen hbacklog =>
    have hwork := work_goto hl .retry
    simp only [stepsAt, hpc, retrySteps, hopen, hbacklog, Bool.false_eq_true, if_false] at hwork
    omega
  | schedule c hpc =>
    have hwork := work_goto (s := s.serve c l.sock) hl .test
    have hserve := work_eq (s := s) (t := s.serve c l.sock) rfl rfl rfl rfl
    change _ = s.work + (s.loops.map s.stepsAt).sum at hserve
    change _ + s.stepsAt l = _ + 1 at hwork
    rw [stepsAt, hpc] at hwork
    dsimp only at hwork
    omega

end

/-- What nobody can accept is waited for by nobody. -/
theorem work_settle (s : TcpServer κ) : s.settle.work = s.work := by
  have hsteps : s.loops.map s.settle.stepsAt = s.loops.map s.stepsAt := by
    refine List.map_congr_left fun l hl => ?_
    have hretry : l.pc ≠ .ended → s.settle.retrySteps l.sock = s.retrySteps l.sock := by
      intro hpc
      rw [retrySteps, retrySteps, settle]
      dsimp only
      by_cases hc : s.closed l.sock = true
      · rw [if_pos hc, if_pos hc]
      · have hlistening : s.Listening l.sock := ⟨Bool.not_eq_true _ ▸ hc, .inr ⟨l, hl, rfl, hpc⟩⟩
        simp only [if_pos hlistening]
    rw [stepsAt, stepsAt]
    cases hpc : l.pc with
    | accept => exact congrArg (· + 1) (hretry (by rw [hpc]; simp))
    | retry => exact hretry (by rw [hpc]; simp)
    | _ => rfl
  have hwork := work_eq (s := s) (t := s.settle) rfl rfl rfl rfl
  change _ = s.work + (s.loops.map s.settle.stepsAt).sum at hwork
  rw [hsteps] at hwork
  exact Nat.add_right_cancel hwork

omit [DecidableEq κ] in
/-- A client that comes makes nobody wait longer. -/
theorem work_connect (s : TcpServer κ) (i : Nat) (c : κ) :
    (s.setBacklog i (s.backlog i ++ [c])).work ≤ s.work := by
  have hretry (j : Nat) : (s.setBacklog i (s.backlog i ++ [c])).retrySteps j ≤ s.retrySteps j := by
    rw [retrySteps, retrySteps, backlog_setBacklog]
    change (if s.closed j = true then _ else _) ≤ _
    split
    · exact Nat.le_refl _
    · by_cases hi : j = i
      · rw [if_pos hi, if_neg (by simp)]
        split <;> omega
      · rw [if_neg hi]
  have hsteps : (s.loops.map (s.setBacklog i (s.backlog i ++ [c])).stepsAt).sum ≤
      (s.loops.map s.stepsAt).sum := by
    refine List.sum_le_sum fun l _ => ?_
    rw [stepsAt, stepsAt]
    cases l.pc with
    | accept => exact Nat.add_le_add_right (hretry l.sock) 1
    | retry => exact hretry l.sock
    | _ => exact Nat.le_refl _
  have hwork := work_eq (s := s) (t := s.setBacklog i (s.backlog i ++ [c])) rfl rfl rfl rfl
  change _ = s.work + (s.loops.map (s.setBacklog i (s.backlog i ++ [c])).stepsAt).sum at hwork
  omega

/-- What is cancelled goes on for two steps more than it had left. -/
theorem sum_cancelAll (s : TcpServer κ) (i : Nat) :
    ((s.cancelAll i).loops.map s.stepsAt).sum ≤ (s.loops.map s.stepsAt).sum + 2 * s.loops.length := by
  have hone (l : AcceptLoop κ) :
      s.stepsAt (if l = ⟨i, .wait⟩ then { l with pc := .retry } else l) ≤ s.stepsAt l + 2 := by
    split
    · next hl =>
      rw [hl]
      show s.retrySteps i ≤ 6
      rw [retrySteps]
      split
      · omega
      · split <;> omega
    · exact Nat.le_add_right _ 2
  rw [cancelAll]
  dsimp only
  induction s.loops with
  | nil => exact Nat.le_refl _
  | cons l ls ih =>
    have hl := hone l
    rw [List.map_cons, List.map_cons, List.map_cons, List.sum_cons, List.sum_cons, List.length_cons]
    omega

omit [DecidableEq κ] in
/-- A fiber at a socket that is closed does not wait again. -/
theorem stepsAt_le (hbacklog : t.backlog = s.backlog)
    (hclosed : t.closed l.sock = s.closed l.sock ∨ t.closed l.sock = true) : t.stepsAt l ≤ s.stepsAt l := by
  have hretry : t.retrySteps l.sock ≤ s.retrySteps l.sock := by
    rw [retrySteps, retrySteps, hbacklog]
    rcases hclosed with hc | hc
    · rw [hc]
    · rw [if_pos hc]
      split_ifs <;> omega
  rw [stepsAt, stepsAt]
  cases l.pc with
  | accept => exact Nat.add_le_add_right hretry 1
  | retry => exact hretry
  | add =>
    dsimp only
    rcases hclosed with hc | hc
    · rw [hc]
    · rw [if_pos hc]
      split <;> omega
  | _ => exact Nat.le_refl _

/-- Each step of a function of `stop` is one of those that are left. -/
theorem CloseMove.work (hmove : CloseMove s t) : t.work + 1 ≤ s.work := by
  cases hmove with
  | begin hclosing hstops =>
    obtain ⟨k, hk⟩ := Nat.exists_eq_succ_of_ne_zero hstops
    rw [TcpServer.work, TcpServer.work, hclosing, hk, Nat.succ_sub_one, Nat.succ_mul]
    change (s.loops.map s.stepsAt).sum + _ + k * (s.socks.length * s.closeSteps .cancel + 2) + 1 ≤ _
    cases hsocks : s.socks with
    | nil =>
      dsimp only
      rw [List.length_nil]
      omega
    | cons i is =>
      dsimp only
      rw [List.length_cons, Nat.succ_mul]
      change _ + (s.closeSteps .cancel + is.length * s.closeSteps .cancel + 1) + _ + 1 ≤ _
      omega
  | cancel i is hclosing | cancelHook i is hclosing =>
    have hsum := sum_cancelAll s i
    have hlength : (s.cancelAll i).loops.length = s.loops.length := List.length_map ..
    rw [TcpServer.work, TcpServer.work, hclosing]
    change ((s.cancelAll i).loops.map s.stepsAt).sum + _ + _ + 1 ≤ _
    dsimp only
    have hrest : (s.cancelAll i).socks = s.socks ∧ (s.cancelAll i).stops = s.stops := ⟨rfl, rfl⟩
    simp only [closeSteps, hlength, hrest]
    omega
  | del i is hclosing =>
    rw [TcpServer.work, TcpServer.work, hclosing]
    change (s.loops.map s.stepsAt).sum + (1 + is.length * s.closeSteps .cancel + 1) +
      s.stops * (s.socks.length * s.closeSteps .cancel + 2) + 1 ≤ _
    simp only [closeSteps]
    omega
  | close i is hclosing =>
    have hsteps : (s.loops.map ({ s with closed := Function.update s.closed i true } : TcpServer κ).stepsAt).sum ≤
        (s.loops.map s.stepsAt).sum := by
      refine List.sum_le_sum fun l _ => stepsAt_le rfl ?_
      show Function.update s.closed i true l.sock = s.closed l.sock ∨ Function.update s.closed i true l.sock = true
      rw [Function.update_apply]
      split
      · exact .inr rfl
      · exact .inl rfl
    rw [TcpServer.work, TcpServer.work, hclosing]
    change (s.loops.map ({ s with closed := Function.update s.closed i true } : TcpServer κ).stepsAt).sum + _ +
      s.stops * (s.socks.length * s.closeSteps .cancel + 2) + 1 ≤ _
    cases is with
    | nil =>
      dsimp only
      simp only [closeSteps]
      omega
    | cons j js =>
      dsimp only
      rw [List.length_cons, Nat.succ_mul]
      change _ + (s.closeSteps .cancel + js.length * s.closeSteps .cancel + 1) + _ + 1 ≤
        _ + (1 + _ + 1) + _
      omega
  | finish pc hclosing =>
    rw [TcpServer.work, TcpServer.work, hclosing]
    change (s.loops.map s.stepsAt).sum + 0 + s.stops * (0 * s.closeSteps .cancel + 2) + 1 ≤ _
    have hless : s.stops * (0 * s.closeSteps .cancel + 2) ≤
        s.stops * (s.socks.length * s.closeSteps .cancel + 2) :=
      Nat.mul_le_mul_left _ (by omega)
    dsimp only
    omega

/-- When the server has been told to stop, each step of its fibers is one of those that are left. -/
theorem work_step (htracked : Tracked s) (hstop : s.isStop = true) (hs : Guarded Quiet Step s a t) :
    t.work + (if isWork a = true then 1 else 0) ≤ s.work ∧ t.isStop = true := by
  have hquiet := hs.1
  cases move_of_step hs.2 with
  | bind outcomes hclosing => cases hquiet
  | start => cases hquiet
  | stop => cases hquiet
  | setReadTimeout v => exact ⟨Nat.le_refl _, hstop⟩
  | connect i c hlistening => exact ⟨s.work_connect i c, hstop⟩
  | loop n fails l hl hmove =>
    refine ⟨?_, ?_⟩
    · rw [work_settle]
      exact hmove.work hl (htracked.single l.sock) hstop
    · cases hmove <;> exact hstop
  | close hmove =>
    refine ⟨?_, ?_⟩
    · rw [work_settle]
      exact hmove.work
    · cases hmove <;> exact hstop

omit [DecidableEq κ] in
theorem Quiet.careful (h : Quiet s a) : Careful s a := by
  cases a with
  | bind outcomes => cases h
  | start => cases h
  | _ => trivial

theorem work_run {later : List (TcpAction κ)} (htracked : Tracked s) (hstop : s.isStop = true)
    (hrun : Run (Guarded Quiet Step) s later t) : t.work + later.countP isWork ≤ s.work := by
  have hall := hrun.history_invariant
    (fun hist t => Tracked t ∧ t.isStop = true ∧ t.work + hist.countP isWork ≤ s.work)
    ⟨htracked, hstop, Nat.le_refl _⟩ ?_
  · exact hall.2.2
  · rintro hist u a v ⟨hu, hustop, hbefore⟩ hs
    obtain ⟨hwork, hv⟩ := work_step hu hustop hs
    refine ⟨hu.step ⟨hs.1.careful, hs.2⟩, hv, ?_⟩
    rw [List.countP_append, List.countP_singleton]
    omega

/-! ## What is there in the end -/

/-- A function of `stop` is still to go through the sockets, or has done so. -/
def Dismissed (s : TcpServer κ) : Prop := s.socks = [] ∨ s.closing ≠ none ∨ s.stops ≠ 0

theorem Dismissed.step (h : Dismissed s) (hs : Guarded Quiet Step s a t) : Dismissed t := by
  have hquiet := hs.1
  cases move_of_step hs.2 with
  | bind outcomes hclosing => cases hquiet
  | start => cases hquiet
  | stop => cases hquiet
  | setReadTimeout v => exact h
  | connect j c hlistening => exact h
  | loop n fails l hl hmove => cases hmove <;> exact h
  | close hmove =>
    cases hmove with
    | finish => exact .inl rfl
    | _ => exact .inr (.inl (Option.some_ne_none _))

/-- No fiber of the server has a step left, however the kernel behaves. -/
def AtRest (s : TcpServer κ) : Prop := s.act .close = none ∧ ∀ n fails, s.act (.loop n fails) = none

/-- A call of `startAccept` that goes no further has ended, or is held where nothing happens. -/
theorem AtRest.loop (h : AtRest s) (hsingle : ∀ i, s.loops.countP (accepting i) ≤ 1) (hl : l ∈ s.loops) :
    l.pc = .ended ∨ l.pc = .wait ∧ (s.closed l.sock = true ∨ s.backlog l.sock = []) := by
  obtain ⟨n, hn⟩ := List.mem_iff_getElem?.mp hl
  have hact := h.2 n false
  rw [act, TcpServer.loop, hn, Option.bind_some, Option.map_eq_none_iff] at hact
  cases hpc : l.pc with
  | ended => exact .inl rfl
  | queued =>
    rw [hpc] at hact
    cases hact
  | test =>
    rw [hpc] at hact
    cases hact
  | accept =>
    rw [hpc] at hact
    dsimp only at hact
    split at hact <;> cases hact
  | retry =>
    rw [hpc] at hact
    cases hact
  | add =>
    rw [hpc] at hact
    dsimp only at hact
    by_cases hwait : ⟨l.sock, .wait⟩ ∈ s.loops
    · -- two calls would accept from one socket
      have hone := hsingle l.sock
      rw [List.countP_eq_length_filter] at hone
      have hmem : l ∈ s.loops.filter (accepting l.sock) :=
        List.mem_filter.mpr ⟨hl, accepting_iff.mpr ⟨rfl, by rw [hpc]; simp⟩⟩
      have hmem' : ⟨l.sock, .wait⟩ ∈ s.loops.filter (accepting l.sock) :=
        List.mem_filter.mpr ⟨hwait, accepting_iff.mpr ⟨rfl, by simp⟩⟩
      match hfilter : s.loops.filter (accepting l.sock) with
      | [] =>
        rw [hfilter] at hmem
        cases hmem
      | [l'] =>
        rw [hfilter, List.mem_singleton] at hmem hmem'
        rw [hmem, ← hmem'] at hpc
        cases hpc
      | _ :: _ :: _ =>
        rw [hfilter] at hone
        simp at hone
    · rw [if_neg hwait] at hact
      cases hact
  | wait =>
    rw [hpc] at hact
    dsimp only at hact
    by_cases hready : (s.closed l.sock || decide (s.backlog l.sock = [])) = true
    · rw [Bool.or_eq_true, decide_eq_true_eq] at hready
      exact .inr ⟨rfl, hready⟩
    · rw [if_neg hready] at hact
      cases hact
  | schedule c =>
    rw [hpc] at hact
    cases hact

theorem AtRest.ended (h : AtRest s) (htracked : Tracked s) (hdismissed : Dismissed s) :
    s.socks = [] ∧ ∀ l ∈ s.loops, l.pc = .ended ∨ l.pc = .wait ∧ s.closed l.sock = true := by
  have hact := h.1
  rw [act, Option.map_eq_none_iff, TcpServer.close] at hact
  have hclosing : s.closing = none := by
    cases hclosing : s.closing with
    | none => rfl
    | some r =>
      rw [hclosing] at hact
      obtain ⟨is, pc⟩ := r
      cases is with
      | nil => cases hact
      | cons i is => cases pc <;> cases hact
  have hstops : s.stops = 0 := by
    by_contra hstops
    rw [hclosing] at hact
    dsimp only at hact
    rw [if_neg hstops] at hact
    cases hact
  have hsocks : s.socks = [] := by
    rcases hdismissed with hsocks | hne | hne
    · exact hsocks
    · exact absurd hclosing hne
    · exact absurd hstops hne
  refine ⟨hsocks, fun l hl => ?_⟩
  rcases h.loop htracked.single hl with hended | ⟨hpc, -⟩
  · exact .inl hended
  · -- the socket of the call is closed, since `m_socks` is empty
    refine .inr ⟨hpc, ?_⟩
    rcases htracked.held l hl with hended | hclosed | hmem
    · rw [hpc] at hended
      cases hended
    · exact hclosed
    · rw [hsocks] at hmem
      cases hmem

omit [DecidableEq κ] in
theorem tracked_new (readTimeout : UInt64) : Tracked ({ readTimeout } : TcpServer κ) where
  held l hl := absurd hl List.not_mem_nil
  closing is pc his := by cases his
  fresh _ i hi := absurd hi List.not_mem_nil
  created i hi := by rcases hi with hmem | hc <;> contradiction
  once := List.nodup_nil
  single i := Nat.zero_le 1

/-! ## Events that are added too late -/

/-- Nobody adds its event behind the last `cancelAll` of a socket and before `close_f`. -/
def Unraced (s : TcpServer κ) : TcpAction κ → Prop
  | .loop n _ => ∀ l, s.loops[n]? = some l → l.pc = .add →
      ∀ is pc, s.closing = some (l.sock :: is, pc) → pc ≠ .del ∧ pc ≠ .close
  | _ => True

structure Awake (s : TcpServer κ) : Prop where
  waiting : ∀ l ∈ s.loops, l.pc = .wait → s.closed l.sock = false
  closing : ∀ i is pc, s.closing = some (i :: is, pc) → pc = .del ∨ pc = .close → ⟨i, .wait⟩ ∉ s.loops

omit [DecidableEq κ] in
theorem awake_new (readTimeout : UInt64) : Awake ({ readTimeout } : TcpServer κ) where
  waiting l hl := absurd hl List.not_mem_nil
  closing i is pc his := by cases his

omit [DecidableEq κ] in
/-- A call goes on, and does not wait. -/
theorem Awake.goto (h : Awake s) (hl : s.loops[n]? = some l) {pc : AcceptPc κ} (hpc : pc ≠ .wait) :
    Awake (s.goto n pc) where
  waiting := fun l' hl' hwait => by
    rcases mem_goto hl hl' with hmem | rfl
    · exact h.waiting l' hmem hwait
    · exact absurd hwait hpc
  closing := fun i is pc' hclosing hlate hmem => by
    rcases mem_goto hl hmem with hmem | heq
    · exact h.closing i is pc' hclosing hlate hmem
    · cases heq
      exact hpc rfl

omit [DecidableEq κ] in
theorem Awake.loop {t : TcpServer κ} (h : Awake s) (hl : s.loops[n]? = some l) (hmove : LoopMove s n l t)
    {fails : Bool} (hunraced : Unraced s (.loop n fails)) : Awake t := by
  cases hmove with
  | test =>
    refine h.goto hl ?_
    split <;> simp
  | take c cs =>
    have hset : Awake (s.setBacklog l.sock cs) := ⟨h.waiting, h.closing⟩
    exact hset.goto hl (by simp)
  | schedule c =>
    have hserve : Awake (s.serve c l.sock) := ⟨h.waiting, h.closing⟩
    exact hserve.goto hl (by simp)
  | wait hpc hopen =>
    refine ⟨fun l' hl' hwait => ?_, fun i is pc hclosing hlate hmem => ?_⟩
    · rcases mem_goto hl hl' with hmem | rfl
      · exact h.waiting l' hmem hwait
      · exact hopen
    · rcases mem_goto hl hmem with hmem | heq
      · exact h.closing i is pc hclosing hlate hmem
      · cases heq
        obtain ⟨hdel, hclose⟩ := hunraced l hl hpc is pc hclosing
        exact hlate.elim hdel hclose
  | _ => exact h.goto hl (by simp)

theorem Awake.close (h : Awake s) (hmove : CloseMove s t) : Awake t := by
  cases hmove with
  | begin hclosing hstops =>
    refine ⟨h.waiting, fun i is pc heq hlate => ?_⟩
    have hpc : ClosePc.cancel = pc := congrArg Prod.snd (Option.some.inj heq)
    rw [← hpc] at hlate
    simp at hlate
  | cancel i is hclosing =>
    refine ⟨fun l hl hwait => ?_, fun j js pc heq hlate => ?_⟩
    · rcases mem_cancelAll hl with ⟨hmem, -⟩ | ⟨rfl, -⟩
      · exact h.waiting l hmem hwait
      · cases hwait
    · cases heq
      simp at hlate
  | cancelHook i is hclosing =>
    refine ⟨fun l hl hwait => ?_, fun j js pc heq hlate hmem => ?_⟩
    · rcases mem_cancelAll hl with ⟨hmem, -⟩ | ⟨rfl, -⟩
      · exact h.waiting l hmem hwait
      · cases hwait
    · cases heq
      rcases mem_cancelAll hmem with ⟨-, hne⟩ | ⟨heq, -⟩
      · exact hne rfl
      · cases heq
  | del i is hclosing =>
    refine ⟨h.waiting, fun j js pc heq hlate => ?_⟩
    cases heq
    exact h.closing i is _ hclosing (.inl rfl)
  | close i is hclosing =>
    have hnone := h.closing i is _ hclosing (.inr rfl)
    refine ⟨fun l hl hwait => ?_, fun j js pc heq hlate => ?_⟩
    · have hne : l.sock ≠ i := by
        rintro rfl
        exact hnone (hwait ▸ hl)
      show Function.update s.closed i true l.sock = false
      rw [Function.update_of_ne hne]
      exact h.waiting l hl hwait
    · cases heq
      simp at hlate
  | finish pc hclosing => exact ⟨h.waiting, fun i is pc heq => nomatch heq⟩

theorem Awake.step (h : Awake s) (hs : Guarded Unraced Step s a t) : Awake t := by
  have hsettle : ∀ {t : TcpServer κ}, Awake t → Awake t.settle := fun h => ⟨h.waiting, h.closing⟩
  cases move_of_step hs.2 with
  | bind outcomes hclosing =>
    refine hsettle ?_
    rw [bind_eq]
    split <;> exact ⟨h.waiting, h.closing⟩
  | start =>
    rw [start]
    split
    · exact h
    · have hold : ∀ l ∈ s.loops ++ s.socks.map (fun i => ({ sock := i } : AcceptLoop κ)), l.pc = .wait →
          l ∈ s.loops := by
        intro l hl hwait
        rcases List.mem_append.mp hl with hl | hl
        · exact hl
        · obtain ⟨i, -, rfl⟩ := List.mem_map.mp hl
          cases hwait
      exact ⟨fun l hl hwait => h.waiting l (hold l hl hwait) hwait,
        fun i is pc hclosing hlate hmem => h.closing i is pc hclosing hlate (hold _ hmem rfl)⟩
  | stop => exact ⟨h.waiting, h.closing⟩
  | setReadTimeout v => exact ⟨h.waiting, h.closing⟩
  | connect j c hlistening => exact ⟨h.waiting, h.closing⟩
  | loop n fails l hl hmove => exact hsettle (h.loop hl hmove hs.1)
  | close hmove => exact hsettle (h.close hmove)

/-! ## `stop` -/

/-- After `stop`, when nobody binds or starts the server again, its fibers have at most `work` steps left,
however the kernel and the clients behave.  When they have taken them no socket listens, every connection that
`accept` has returned has been handed to the workers, and every `startAccept` has ended, or is held at a socket
that is closed; and this happens only where an event is added too late. -/
theorem stop_completes {readTimeout : UInt64} {hist later : List (TcpAction κ)}
    (hrun : Run (Guarded Careful Step) { readTimeout } hist s) (hstop : Step s .stop t)
    (hlater : Run (Guarded Quiet Step) t later u) :
    later.countP isWork ≤ t.work ∧
      (AtRest u →
        (∀ l ∈ u.loops, l.pc = .ended ∨ l.pc = .wait ∧ u.closed l.sock = true) ∧ (∀ i, ¬ u.Listening i) ∧
          (∀ i, (arrivals i (hist ++ .stop :: later)).Perm (u.handled i ++ u.reset i)) ∧
          (Run (Guarded Unraced Step) { readTimeout } (hist ++ .stop :: later) u →
            ∀ l ∈ u.loops, l.pc = .ended)) := by
  have htracked : Tracked s := hrun.invariant Tracked (tracked_new readTimeout) fun _ _ _ h hs => h.step hs
  have hwhole : Run Step { readTimeout } (hist ++ .stop :: later) u := by
    rw [List.append_cons]
    exact (hrun.unguarded.snoc hstop).append hlater.unguarded
  have hstopped : Tracked t := htracked.step (a := .stop) ⟨trivial, hstop⟩
  obtain rfl := Option.some.inj hstop
  have hwork := work_run hstopped rfl hlater
  refine ⟨by omega, fun hrest => ?_⟩
  -- nobody starts the server again, so what it tracks is only let go of
  have hend := hlater.invariant (fun u => Tracked u ∧ Dismissed u)
    ⟨hstopped, .inr (.inr (Nat.succ_ne_zero _))⟩
    fun v a w hv hs => ⟨hv.1.step ⟨hs.1.careful, hs.2⟩, hv.2.step hs⟩
  obtain ⟨hsocks, hended⟩ := hrest.ended hend.1 hend.2
  have hclosed (i : Nat) : ¬ u.Listening i := by
    rintro ⟨hopen, hmem | ⟨l, hl, rfl, hpc⟩⟩
    · rw [hsocks] at hmem
      cases hmem
    · rw [((hended l hl).resolve_left hpc).2] at hopen
      cases hopen
  refine ⟨hended, hclosed, fun i => ?_, fun hunraced l hl => ?_⟩
  -- a fiber that has ended or waits has nothing in hand, and no socket listens
  · have hnone : u.inHand i = [] := by
      rw [inHand, List.filterMap_eq_nil_iff]
      intro l hl
      have hpc : inHandAt l.pc = none := by
        rcases hended l hl with hpc | ⟨hpc, -⟩ <;> rw [hpc] <;> rfl
      rw [hpc]
      exact ite_self none
    have hperm := perm_of_run hwhole i
    rw [hnone, (settled_of_run hwhole).backlog i (hclosed i), List.append_nil, List.append_nil] at hperm
    exact hperm
  -- where no event was added too late, a fiber that waits has an open socket
  · have hawake : Awake u := hunraced.invariant Awake (awake_new readTimeout) fun _ _ _ h hs => h.step hs
    rcases hended l hl with hpc | ⟨hpc, hc⟩
    · exact hpc
    · rw [hawake.waiting l hl hpc] at hc
      cases hc

/-- What a server at rest has come to in the end. -/
theorem atRest_of_ended (hclosing : s.closing = none) (hstops : s.stops = 0)
    (hloops : ∀ l ∈ s.loops, l.pc = .ended) : AtRest s := by
  refine ⟨?_, fun n fails => ?_⟩
  · rw [act, close, hclosing, hstops]
    rfl
  · rw [act, loop]
    cases hn : s.loops[n]? with
    | none => rfl
    | some l =>
      rw [Option.bind_some, hloops l (List.mem_of_getElem? hn)]
      rfl

/-- One client is handled, and the fiber waits for another one. -/
def waitsForClient : List (TcpAction Nat) :=
  [.bind [true], .start] ++ List.replicate 5 (.loop 0 false) ++ [.connect 0 7] ++
    List.replicate 7 (.loop 0 false)

/-- It comes while the socket is being closed. -/
def comesTooLate : List (TcpAction Nat) :=
  [.close, .close, .connect 0 8, .close, .close, .close, .loop 0 false, .close, .loop 0 false]

theorem stop_completes_waiting :
    ∃ s t u : TcpServer Nat,
      Run (Guarded Careful Step) { readTimeout := 5 } waitsForClient s ∧ Step s .stop t ∧
        Run (Guarded Quiet Step) t comesTooLate u ∧ comesTooLate.countP isWork ≤ t.work ∧
        u.clients = [⟨7, 0, 5⟩] ∧ u.reset 0 = [8] ∧ ∀ l ∈ u.loops, l.pc = .ended := by
  let ok : TcpServer Nat → TcpAction Nat → Bool := fun s a =>
    match a with
    | .bind outcomes => outcomes.all id
    | .start => s.closing = none ∧ s.loops = []
    | .loop _ _ => s.closing = none ∨ ∀ l ∈ s.loops, l.pc ≠ .add
    | _ => true
  have hok : ∀ s a, ok s a = true → Careful s a ∧ Unraced s a := by
    intro s a h
    cases a with
    | bind outcomes => exact ⟨.inl h, trivial⟩
    | start =>
      obtain ⟨hclosing, hloops⟩ := of_decide_eq_true h
      refine ⟨.inr ⟨hclosing, fun l hl => ?_⟩, trivial⟩
      rw [hloops] at hl
      cases hl
    | loop n fails =>
      refine ⟨trivial, fun l hl hpc is pc hclosing => ?_⟩
      rcases of_decide_eq_true h with hnone | hall
      · rw [hnone] at hclosing
        cases hclosing
      · exact absurd hpc (hall l (List.mem_of_getElem? hl))
    | _ => exact ⟨trivial, trivial⟩
  have hlast : (runAll (fun s a => if ok s a then act s a else none) { readTimeout := 5 }
      (waitsForClient ++ ([.stop] ++ comesTooLate))).map
        (fun u => (u.clients, u.reset 0, u.loops, u.closing.isNone, u.stops)) =
        some ([⟨7, 0, 5⟩], [8], [⟨0, .ended⟩], true, 0) := by
    decide
  rcases Option.map_eq_some_iff.mp hlast with ⟨u, hu, hvalues⟩
  simp only [Prod.mk.injEq] at hvalues
  obtain ⟨hclients, hreset, hloops, hclosing, hstops⟩ := hvalues
  have hrun := run_of_runAll_guarded ok hok hu
  obtain ⟨s, hhist, hrest⟩ := hrun.append_inv
  obtain ⟨t, hstop, hlater⟩ := hrest.append_inv
  have hcareful : Run (Guarded Careful Step) { readTimeout := 5 } waitsForClient s :=
    hhist.mono fun _ _ _ h => ⟨h.1.1, h.2⟩
  have hunraced : Run (Guarded Unraced Step) { readTimeout := 5 }
      (waitsForClient ++ .stop :: comesTooLate) u := hrun.mono fun _ _ _ h => ⟨h.1.2, h.2⟩
  have hstep : Step s .stop t := by
    obtain ⟨v, hv, hs⟩ := Run.snoc_inv (show Run Step s ([] ++ [.stop]) t from hstop.unguarded)
    have hsame : s = v := (Run.nil s).unique (fun _ _ _ _ h h' => Option.some.inj (h.symm.trans h')) hv
    rw [hsame]
    exact hs
  have hquiet : Run (Guarded Quiet Step) t comesTooLate u := by
    refine hlater.unguarded.guarded fun before a after v w hsplit _ _ _ => ?_
    have hmem : a ∈ comesTooLate := by
      rw [hsplit]
      exact List.mem_append_right before List.mem_cons_self
    have hall : ∀ a ∈ comesTooLate, a = .close ∨ a = .connect 0 8 ∨ a = .loop 0 false := by
      decide
    rcases hall a hmem with rfl | rfl | rfl <;> trivial
  have hended : ∀ l ∈ u.loops, l.pc = .ended := by
    rw [hloops]
    intro l hl
    rw [List.mem_singleton.mp hl]
  have hall := stop_completes hcareful hstep hquiet
  exact ⟨s, t, u, hcareful, hstep, hquiet, hall.1, hclients, hreset,
    (hall.2 (atRest_of_ended (Option.isNone_iff_eq_none.mp hclosing) hstops hended)).2.2.2 hunraced⟩

-- An event that is added behind the last `cancelAll`: the socket is closed, and the fiber waits for ever.
example : (runAll act ({} : TcpServer Nat) ([.bind [true], .start] ++ List.replicate 4 (.loop 0 false) ++
    [.stop, .close, .close, .close, .loop 0 false, .close, .close, .close])).map
      (fun s => (s.loops, s.closed 0, s.closing)) = some ([⟨0, .wait⟩], true, none) := by
  decide

end TcpServer

end Azure
