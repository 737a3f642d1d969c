import Azure.Tcp.Model
import Mathlib.Algebra.BigOperators.Group.List.Basic
import Mathlib.Algebra.Ring.Nat
import Mathlib.Data.List.Perm.Basic

/-!
# Connections of a server

A connection that a client has made waits in the kernel, is in the hands of a `startAccept`, has been handed
to the workers, or has been reset with the socket that it waited at.
-/

namespace Azure

open Reasoning

/-! ## One entry of a list -/

section

variable {α β : Type} {xs : List α} {n : Nat} {x : α}

theorem modify_split (h : xs[n]? = some x) (f : α → α) :
    ∃ before after, xs = before ++ x :: after ∧ xs.modify n f = before ++ f x :: after := by
  induction xs generalizing n with
  | nil => cases h
  | cons y xs ih =>
    cases n with
    | zero =>
      obtain rfl := Option.some.inj h
      exact ⟨[], xs, rfl, rfl⟩
    | succ n =>
      obtain ⟨before, after, hxs, hmodify⟩ := ih h
      exact ⟨y :: before, after, by rw [hxs, List.cons_append], by
        rw [List.modify_succ_cons, hmodify, List.cons_append]⟩

/-- One entry makes the difference. -/
theorem count_filterMap_modify [DecidableEq β] (h : xs[n]? = some x) (f : α → α) (g : α → Option β)
    (b : β) :
    ((xs.modify n f).filterMap g).count b + (g x).toList.count b =
      (xs.filterMap g).count b + (g (f x)).toList.count b := by
  obtain ⟨before, after, hxs, hmodify⟩ := modify_split h f
  have hcons (y : α) : ((y :: after).filterMap g).count b =
      (g y).toList.count b + (after.filterMap g).count b := by
    rw [List.filterMap_cons]
    cases g y with
    | none => rw [Option.toList_none, List.count_nil, Nat.zero_add]
    | some z => rw [Option.toList_some, ← List.count_append, List.singleton_append]
  rw [hmodify, hxs, List.filterMap_append, List.filterMap_append, List.count_append, List.count_append,
    hcons, hcons]
  omega

end

namespace TcpServer

variable {κ : Type} {s t u : TcpServer κ} {n : Nat} {fails : Bool}

/-! ## Steps of `startAccept` -/

inductive LoopMove (s : TcpServer κ) (n : Nat) (l : AcceptLoop κ) : TcpServer κ → Prop
  | begin (hpc : l.pc = .queued) : LoopMove s n l (s.goto n .test)
  | test (hpc : l.pc = .test) : LoopMove s n l (s.goto n (if s.isStop then .ended else .accept))
  /-- `accept` returns without a connection -/
  | refuse (hpc : l.pc = .accept ∨ l.pc = .retry ∨ l.pc = .add) : LoopMove s n l (s.goto n .test)
  | retry (hpc : l.pc = .accept) (hopen : s.closed l.sock = false) : LoopMove s n l (s.goto n .retry)
  | take (c : κ) (cs : List κ) (hpc : l.pc = .accept ∨ l.pc = .retry) (hopen : s.closed l.sock = false)
      (hbacklog : s.backlog l.sock = c :: cs) :
      LoopMove s n l ((s.setBacklog l.sock cs).goto n (.schedule c))
  | add (hpc : l.pc = .retry) (hopen : s.closed l.sock = false) (hbacklog : s.backlog l.sock = []) :
      LoopMove s n l (s.goto n .add)
  | wait (hpc : l.pc = .add) (hopen : s.closed l.sock = false) : LoopMove s n l (s.goto n .wait)
  | wake (hpc : l.pc = .wait) (hopen : s.closed l.sock = false) (hbacklog : s.backlog l.sock ≠ []) :
      LoopMove s n l (s.goto n .retry)
  | schedule (c : κ) (hpc : l.pc = .schedule c) :
      LoopMove s n l ((s.serve c l.sock).goto n .test)

theorem acceptF_eq (i : Nat) (again : AcceptPc κ) :
    s.acceptF n i fails again = s.goto n .test ∨
      s.closed i = false ∧
        (s.backlog i = [] ∧ s.acceptF n i fails again = s.goto n again ∨
          ∃ c cs, s.backlog i = c :: cs ∧
            s.acceptF n i fails again = (s.setBacklog i cs).goto n (.schedule c)) := by
  rw [acceptF]
  by_cases hfails : (fails || s.closed i) = true
  · exact .inl (if_pos hfails)
  · rw [Bool.not_eq_true, Bool.or_eq_false_iff] at hfails
    refine .inr ⟨hfails.2, ?_⟩
    rw [hfails.1, hfails.2, Bool.or_false, if_neg Bool.false_ne_true]
    cases s.backlog i with
    | nil => exact .inl ⟨rfl, rfl⟩
    | cons c cs => exact .inr ⟨c, cs, rfl, rfl⟩

variable [DecidableEq κ] {l : AcceptLoop κ}

theorem loopMove_of_loop (h : s.loop n fails = some t) : ∃ l, s.loops[n]? = some l ∧ LoopMove s n l t := by
  obtain ⟨l, hl, h⟩ := Option.bind_eq_some_iff.mp h
  refine ⟨l, hl, ?_⟩
  cases hpc : l.pc with
  | queued =>
    rw [hpc] at h
    obtain rfl := Option.some.inj h
    exact .begin hpc
  | test =>
    rw [hpc] at h
    obtain rfl := Option.some.inj h
    exact .test hpc
  | accept =>
    rw [hpc] at h
    dsimp only at h
    by_cases hentry : (s.closed l.sock || s.deleted l.sock) = true
    · rw [if_pos hentry] at h
      obtain rfl := Option.some.inj h
      rcases acceptF_eq (s := s) (n := n) l.sock .test with heq | ⟨hopen, ⟨hnil, heq⟩ | ⟨c, cs, hcons, heq⟩⟩
      · rw [heq]
        exact .refuse (.inl hpc)
      · rw [heq]
        exact .refuse (.inl hpc)
      · rw [heq]
        exact .take c cs (.inl hpc) hopen hcons
    · rw [if_neg hentry] at h
      obtain rfl := Option.some.inj h
      rw [Bool.not_eq_true, Bool.or_eq_false_iff] at hentry
      exact .retry hpc hentry.1
  | retry =>
    rw [hpc] at h
    obtain rfl := Option.some.inj h
    rcases acceptF_eq (s := s) (n := n) l.sock .add with heq | ⟨hopen, ⟨hnil, heq⟩ | ⟨c, cs, hcons, heq⟩⟩
    · rw [heq]
      exact .refuse (.inr (.inl hpc))
    · rw [heq]
      exact .add hpc hopen hnil
    · rw [heq]
      exact .take c cs (.inr hpc) hopen hcons
  | add =>
    rw [hpc] at h
    obtain ⟨-, hsome⟩ := Option.ite_none_left_eq_some.mp h
    obtain rfl := Option.some.inj hsome
    by_cases hfails : (fails || s.closed l.sock) = true
    · rw [if_pos hfails]
      exact .refuse (.inr (.inr hpc))
    · rw [if_neg hfails]
      rw [Bool.not_eq_true, Bool.or_eq_false_iff] at hfails
      exact .wait hpc hfails.2
  | wait =>
    rw [hpc] at h
    obtain ⟨hready, hsome⟩ := Option.ite_none_left_eq_some.mp h
    obtain rfl := Option.some.inj hsome
    rw [Bool.not_eq_true, Bool.or_eq_false_iff] at hready
    exact .wake hpc hready.1 (of_decide_eq_false hready.2)
  | schedule c =>
    rw [hpc] at h
    obtain rfl := Option.some.inj h
    exact .schedule c hpc
  | ended =>
    rw [hpc] at h
    cases h

omit [DecidableEq κ] in
theorem LoopMove.pc_ne_ended (h : LoopMove s n l t) : l.pc ≠ .ended := by
  intro hended
  cases h <;> simp_all only [reduceCtorEq, or_self]

inductive CloseMove (s : TcpServer κ) : TcpServer κ → Prop
  | begin (hclosing : s.closing = none) (hstops : s.stops ≠ 0) :
      CloseMove s { s with stops := s.stops - 1, closing := some (s.socks, .cancel) }
  | cancel (i : Nat) (is : List Nat) (hclosing : s.closing = some (i :: is, .cancel)) :
      CloseMove s { s.cancelAll i with closing := some (i :: is, .cancelHook) }
  | cancelHook (i : Nat) (is : List Nat) (hclosing : s.closing = some (i :: is, .cancelHook)) :
      CloseMove s { s.cancelAll i with closing := some (i :: is, .del) }
  | del (i : Nat) (is : List Nat) (hclosing : s.closing = some (i :: is, .del)) :
      CloseMove s { s with deleted := Function.update s.deleted i true, closing := some (i :: is, .close) }
  | close (i : Nat) (is : List Nat) (hclosing : s.closing = some (i :: is, .close)) :
      CloseMove s { s with closed := Function.update s.closed i true, closing := some (is, .cancel) }
  | finish (pc : ClosePc) (hclosing : s.closing = some ([], pc)) :
      CloseMove s { s with socks := [], closing := none }

theorem closeMove_of_close (h : s.close = some t) : CloseMove s t := by
  rw [close] at h
  split at h
  · next hclosing =>
    obtain ⟨hstops, hsome⟩ := Option.ite_none_left_eq_some.mp h
    obtain rfl := Option.some.inj hsome
    exact .begin hclosing hstops
  · next i is hclosing =>
    obtain rfl := Option.some.inj h
    exact .cancel i is hclosing
  · next i is hclosing =>
    obtain rfl := Option.some.inj h
    exact .cancelHook i is hclosing
  · next i is hclosing =>
    obtain rfl := Option.some.inj h
    exact .del i is hclosing
  · next i is hclosing =>
    obtain rfl := Option.some.inj h
    exact .close i is hclosing
  · next pc hclosing =>
    obtain rfl := Option.some.inj h
    exact .finish pc hclosing

inductive Move (s : TcpServer κ) : TcpAction κ → TcpServer κ → Prop
  | bind (outcomes : List Bool) (hclosing : s.closing = none) :
      Move s (.bind outcomes) (s.bind outcomes).2.settle
  | start : Move s .start s.start
  | stop : Move s .stop s.stop
  | setReadTimeout (v : UInt64) : Move s (.setReadTimeout v) { s with readTimeout := v }
  | connect (i : Nat) (c : κ) (hlistening : s.Listening i) :
      Move s (.connect i c) (s.setBacklog i (s.backlog i ++ [c]))
  | loop {t : TcpServer κ} (n : Nat) (fails : Bool) (l : AcceptLoop κ) (hl : s.loops[n]? = some l)
      (hmove : LoopMove s n l t) : Move s (.loop n fails) t.settle
  | close {t : TcpServer κ} (hmove : CloseMove s t) : Move s .close t.settle

theorem move_of_step {a : TcpAction κ} (h : Step s a t) : Move s a t := by
  cases a with
  | bind outcomes =>
    obtain ⟨hclosing, hsome⟩ := Option.ite_none_right_eq_some.mp h
    obtain rfl := Option.some.inj hsome
    exact .bind outcomes hclosing
  | start =>
    obtain rfl := Option.some.inj h
    exact .start
  | stop =>
    obtain rfl := Option.some.inj h
    exact .stop
  | setReadTimeout v =>
    obtain rfl := Option.some.inj h
    exact .setReadTimeout v
  | connect i c =>
    obtain ⟨hlistening, hsome⟩ := Option.ite_none_right_eq_some.mp h
    obtain rfl := Option.some.inj hsome
    exact .connect i c hlistening
  | loop n fails =>
    obtain ⟨u, hu, rfl⟩ := Option.map_eq_some_iff.mp h
    obtain ⟨l, hl, hmove⟩ := loopMove_of_loop hu
    exact .loop n fails l hl hmove
  | close =>
    obtain ⟨u, hu, rfl⟩ := Option.map_eq_some_iff.mp h
    exact .close (closeMove_of_close hu)

/-! ## Where a connection is -/

def arrivals (i : Nat) (hist : List (TcpAction κ)) : List κ :=
  hist.filterMap fun
    | .connect j c => if j = i then some c else none
    | _ => none

def handled (s : TcpServer κ) (i : Nat) : List κ :=
  s.clients.filterMap fun task => if task.sock = i then some task.client else none

/-- The connection that a `startAccept` has in its hands. -/
def inHandAt : AcceptPc κ → Option κ
  | .schedule c => some c
  | _ => none

def inHand (s : TcpServer κ) (i : Nat) : List κ :=
  s.loops.filterMap fun l => if l.sock = i then inHandAt l.pc else none

section

variable (s) (i j : Nat) (c : κ) (cs : List κ) (pc : AcceptPc κ)

omit [DecidableEq κ]

@[simp] theorem handled_goto : (s.goto n pc).handled i = s.handled i := rfl

@[simp] theorem backlog_goto : (s.goto n pc).backlog = s.backlog := rfl

@[simp] theorem reset_goto : (s.goto n pc).reset = s.reset := rfl

@[simp] theorem handled_setBacklog : (s.setBacklog j cs).handled i = s.handled i := rfl

@[simp] theorem inHand_setBacklog : (s.setBacklog j cs).inHand i = s.inHand i := rfl

@[simp] theorem backlog_setBacklog : (s.setBacklog j cs).backlog i = if i = j then cs else s.backlog i :=
  Function.update_apply ..

@[simp] theorem reset_setBacklog : (s.setBacklog j cs).reset = s.reset := rfl

@[simp] theorem handled_serve :
    (s.serve c j).handled i = s.handled i ++ if j = i then [c] else [] := by
  rw [handled, serve, List.filterMap_append]
  by_cases hj : j = i
  · simp [hj, handled]
  · simp [hj, handled]

@[simp] theorem inHand_serve : (s.serve c j).inHand i = s.inHand i := rfl

@[simp] theorem backlog_serve : (s.serve c j).backlog = s.backlog := rfl

@[simp] theorem reset_serve : (s.serve c j).reset = s.reset := rfl

end

theorem inHand_cancelAll (s : TcpServer κ) (i j : Nat) : (s.cancelAll i).inHand j = s.inHand j := by
  rw [inHand, inHand, cancelAll, List.filterMap_map]
  refine List.filterMap_congr fun l _ => ?_
  rw [Function.comp_apply]
  split
  · next hl => rw [hl]; rfl
  · rfl

omit [DecidableEq κ] in
theorem arrivals_append (hist : List (TcpAction κ)) (a : TcpAction κ) (i : Nat) :
    arrivals i (hist ++ [a]) = arrivals i hist ++ arrivals i [a] :=
  List.filterMap_append

omit [DecidableEq κ] in
theorem inHand_start (i : Nat) : s.start.inHand i = s.inHand i := by
  rw [start]
  split
  · rfl
  · rw [inHand, List.filterMap_append, List.filterMap_map]
    have hnone : ((fun l : AcceptLoop κ => if l.sock = i then inHandAt l.pc else none) ∘
        fun j => ({ sock := j } : AcceptLoop κ)) = fun _ => none := by
      funext j
      exact ite_self none
    rw [hnone, List.filterMap_none, List.append_nil]
    rfl

omit [DecidableEq κ] in
/-- A server that cannot listen on one of the addresses listens on none, also not on those of earlier calls. -/
theorem bind_eq (outcomes : List Bool) (s : TcpServer κ) :
    s.bind outcomes =
      if outcomes.all id = true then
        (true, { s with
          socks := s.socks ++ List.range' s.created outcomes.length
          created := s.created + outcomes.length })
      else (false, { s with socks := [], created := s.created + outcomes.length }) := by
  have hloop : ∀ (outcomes : List Bool) (fails : List Nat) (s : TcpServer κ), ∃ failed socks,
      outcomes.foldl (fun r ok => bindOne ok r) (fails, s) =
        (fails ++ failed, { s with socks := s.socks ++ socks, created := s.created + outcomes.length }) ∧
      (failed = [] ↔ outcomes.all id = true) ∧
      (outcomes.all id = true → socks = List.range' s.created outcomes.length) := by
    intro outcomes
    induction outcomes with
    | nil => exact fun fails s => ⟨[], [], by simp, by simp, fun _ => rfl⟩
    | cons ok outcomes ih =>
      intro fails s
      cases ok with
      | true =>
        obtain ⟨failed, socks, hfold, hiff, hall⟩ :=
          ih fails { s with socks := s.socks ++ [s.created], created := s.created + 1 }
        refine ⟨failed, s.created :: socks, ?_, hiff, fun h => ?_⟩
        · rw [List.foldl_cons, bindOne, if_pos rfl, hfold]
          simp [Nat.add_assoc, Nat.add_comm 1]
        · rw [hall h, List.length_cons, List.range'_succ]
      | false =>
        obtain ⟨failed, socks, hfold, -, -⟩ := ih (fails ++ [s.created]) { s with created := s.created + 1 }
        refine ⟨s.created :: failed, socks, ?_, by simp, by simp⟩
        rw [List.foldl_cons, bindOne, if_neg Bool.false_ne_true, hfold]
        simp [Nat.add_assoc, Nat.add_comm 1]
  obtain ⟨failed, socks, hfold, hiff, hall⟩ := hloop outcomes [] s
  rw [bind, hfold]
  dsimp only
  rw [List.nil_append]
  by_cases hok : outcomes.all id = true
  · rw [if_neg (not_not.mpr (hiff.mpr hok)), if_pos hok, hall hok]
  · rw [if_pos fun hnil => hok (hiff.mp hnil), if_neg hok]

def Conserved (hist : List (TcpAction κ)) (s : TcpServer κ) : Prop :=
  ∀ i c, (arrivals i hist).count c =
    (s.handled i).count c + (s.inHand i).count c + (s.backlog i).count c + (s.reset i).count c

variable {hist : List (TcpAction κ)}

theorem count_inHand_goto (hl : s.loops[n]? = some l) (pc : AcceptPc κ) (i : Nat) (c : κ) :
    ((s.goto n pc).inHand i).count c + (if l.sock = i then inHandAt l.pc else none).toList.count c =
      (s.inHand i).count c + (if l.sock = i then inHandAt pc else none).toList.count c :=
  count_filterMap_modify hl (fun l => { l with pc }) _ c

/-- The kernel loses no connection: what it resets it has kept until then. -/
theorem Conserved.settle (h : Conserved hist s) : Conserved hist s.settle := by
  intro i c
  rw [h i c, TcpServer.settle]
  show _ = (s.handled i).count c + (s.inHand i).count c + _ + _
  dsimp only
  split
  · rfl
  · rw [List.count_append, List.count_nil]
    omega

/-- What is no connection moves none. -/
theorem Conserved.still (h : Conserved hist s) {a : TcpAction κ} (ha : ∀ i, arrivals i [a] = [])
    (hclients : t.clients = s.clients) (hinHand : ∀ i c, (t.inHand i).count c = (s.inHand i).count c)
    (hbacklog : t.backlog = s.backlog) (hreset : t.reset = s.reset) : Conserved (hist ++ [a]) t := by
  intro i c
  rw [arrivals_append, ha, List.append_nil, h i c, handled, handled, hclients, hinHand, hbacklog, hreset]

/-- A step that takes nothing into its hands and gives nothing away. -/
theorem Conserved.goto (h : Conserved hist s) (hl : s.loops[n]? = some l) {pc : AcceptPc κ}
    (hold : inHandAt l.pc = none) (hnew : inHandAt pc = none) (fails : Bool) :
    Conserved (hist ++ [.loop n fails]) (s.goto n pc) := by
  refine h.still (fun _ => rfl) rfl (fun i c => ?_) rfl rfl
  have hcount := count_inHand_goto hl pc i c
  rw [hold, hnew, ite_self] at hcount
  exact Nat.add_right_cancel hcount

theorem Conserved.loop (h : Conserved hist s) (hl : s.loops[n]? = some l) (hmove : LoopMove s n l t)
    (fails : Bool) : Conserved (hist ++ [.loop n fails]) t := by
  cases hmove with
  | begin hpc => exact h.goto hl (by rw [hpc]; rfl) rfl fails
  | test hpc => exact h.goto hl (by rw [hpc]; rfl) (by split <;> rfl) fails
  | refuse hpc => exact h.goto hl (by rcases hpc with hpc | hpc | hpc <;> rw [hpc] <;> rfl) rfl fails
  | retry hpc => exact h.goto hl (by rw [hpc]; rfl) rfl fails
  | add hpc => exact h.goto hl (by rw [hpc]; rfl) rfl fails
  | wait hpc => exact h.goto hl (by rw [hpc]; rfl) rfl fails
  | wake hpc => exact h.goto hl (by rw [hpc]; rfl) rfl fails
  | take c' cs hpc hopen hbacklog =>
    intro i c
    have hcount := count_inHand_goto (s := s.setBacklog l.sock cs) hl (.schedule c') i c
    have hold : inHandAt l.pc = none := by rcases hpc with hpc | hpc <;> rw [hpc] <;> rfl
    rw [hold, inHand_setBacklog] at hcount
    rw [arrivals_append, show arrivals i [.loop n fails] = ([] : List κ) from rfl, List.append_nil, h i c,
      handled_goto, backlog_goto, reset_goto, handled_setBacklog, backlog_setBacklog, reset_setBacklog]
    by_cases hi : i = l.sock
    · subst hi
      rw [if_pos rfl, if_pos rfl] at hcount
      rw [if_pos rfl, hbacklog, ← List.singleton_append, List.count_append]
      simp only [inHandAt, Option.toList_none, Option.toList_some, List.count_nil] at hcount
      omega
    · rw [if_neg (Ne.symm hi), if_neg (Ne.symm hi)] at hcount
      rw [if_neg hi]
      omega
  | schedule c' hpc =>
    intro i c
    have hcount := count_inHand_goto (s := s.serve c' l.sock) hl .test i c
    rw [hpc, inHand_serve] at hcount
    rw [arrivals_append, show arrivals i [.loop n fails] = ([] : List κ) from rfl, List.append_nil, h i c,
      handled_goto, backlog_goto, reset_goto, handled_serve, backlog_serve, reset_serve, List.count_append]
    by_cases hi : l.sock = i
    · rw [if_pos hi, if_pos hi] at hcount
      rw [if_pos hi]
      simp only [inHandAt, Option.toList_none, Option.toList_some, List.count_nil] at hcount
      omega
    · rw [if_neg hi, if_neg hi] at hcount
      rw [if_neg hi, List.count_nil]
      omega

theorem Conserved.connect (h : Conserved hist s) (j : Nat) (c : κ) :
    Conserved (hist ++ [.connect j c]) (s.setBacklog j (s.backlog j ++ [c])) := by
  intro i c'
  have hone : arrivals i [.connect j c] = if i = j then [c] else [] := by
    by_cases hi : i = j
    · simp [arrivals, hi]
    · simp [arrivals, hi, Ne.symm hi]
  rw [arrivals_append, hone, List.count_append, h i c', handled_setBacklog, inHand_setBacklog,
    backlog_setBacklog, reset_setBacklog]
  by_cases hi : i = j
  · rw [if_pos hi, if_pos hi, hi, List.count_append]
    omega
  · rw [if_neg hi, if_neg hi, List.count_nil]
    omega

theorem Conserved.step {a : TcpAction κ} (h : Conserved hist s) (ht : Step s a t) :
    Conserved (hist ++ [a]) t := by
  cases move_of_step ht with
  | bind outcomes hclosing =>
    refine Conserved.settle ?_
    rw [bind_eq]
    split
    · exact h.still (fun _ => rfl) rfl (fun _ _ => rfl) rfl rfl
    · exact h.still (fun _ => rfl) rfl (fun _ _ => rfl) rfl rfl
  | start =>
    refine h.still (fun _ => rfl) ?_ (fun i c => by rw [inHand_start]) ?_ ?_
    · rw [start]
      split <;> rfl
    · rw [start]
      split <;> rfl
    · rw [start]
      split <;> rfl
  | stop => exact h.still (fun _ => rfl) rfl (fun _ _ => rfl) rfl rfl
  | setReadTimeout v => exact h.still (fun _ => rfl) rfl (fun _ _ => rfl) rfl rfl
  | connect j c hlistening => exact h.connect j c
  | loop n fails l hl hmove => exact (h.loop hl hmove fails).settle
  | close hmove =>
    refine Conserved.settle ?_
    cases hmove with
    | cancel i is | cancelHook i is =>
      exact h.still (fun _ => rfl) rfl (fun j c => congrArg (·.count c) (s.inHand_cancelAll i j)) rfl rfl
    | begin => exact h.still (fun _ => rfl) rfl (fun _ _ => rfl) rfl rfl
    | del => exact h.still (fun _ => rfl) rfl (fun _ _ => rfl) rfl rfl
    | close => exact h.still (fun _ => rfl) rfl (fun _ _ => rfl) rfl rfl
    | finish => exact h.still (fun _ => rfl) rfl (fun _ _ => rfl) rfl rfl

/-! ## Sockets that listen -/

omit [DecidableEq κ] in
/-- The calls of `startAccept` are the same but for one, which has gone on with its socket. -/
theorem mem_goto (hl : s.loops[n]? = some l) {pc : AcceptPc κ} {l' : AcceptLoop κ}
    (hl' : l' ∈ (s.goto n pc).loops) : l' ∈ s.loops ∨ l' = ⟨l.sock, pc⟩ := by
  obtain ⟨before, after, hloops, hmodify⟩ := modify_split hl fun l => { l with pc }
  rw [goto, hmodify, List.mem_append, List.mem_cons] at hl'
  rw [hloops, List.mem_append, List.mem_cons]
  rcases hl' with hmem | heq | hmem
  · exact .inl (.inl hmem)
  · exact .inr heq
  · exact .inl (.inr (.inr hmem))

omit [DecidableEq κ] in
/-- What is closed, or not held, when it was not before. -/
theorem Listening.of_less {i : Nat} (h : t.Listening i) (hclosed : s.closed i = true → t.closed i = true)
    (hsocks : i ∈ t.socks → i ∈ s.socks)
    (hloops : ∀ l ∈ t.loops, l.sock = i → l.pc ≠ .ended → s.Listening i ∨
      ∃ l ∈ s.loops, l.sock = i ∧ l.pc ≠ .ended) : s.Listening i := by
  have hopen : s.closed i = false := by
    rw [← Bool.not_eq_true]
    intro hc
    have hopen := h.1
    rw [hclosed hc] at hopen
    cases hopen
  rcases h.2 with hmem | ⟨l, hl, hsock, hpc⟩
  · exact ⟨hopen, .inl (hsocks hmem)⟩
  · rcases hloops l hl hsock hpc with hlistening | hold
    · exact hlistening
    · exact ⟨hopen, .inr hold⟩

omit [DecidableEq κ] in
theorem Listening.of_goto {i : Nat} {pc : AcceptPc κ} (h : (s.goto n pc).Listening i)
    (hl : s.loops[n]? = some l) (hpc : l.pc ≠ .ended) : s.Listening i := by
  refine h.of_less id id fun l' hl' hsock hpc' => ?_
  rcases mem_goto hl hl' with hmem | rfl
  · exact .inr ⟨l', hmem, hsock, hpc'⟩
  · exact .inr ⟨l, List.mem_of_getElem? hl, hsock, hpc⟩

omit [DecidableEq κ] in
theorem LoopMove.listening (hmove : LoopMove s n l t) (hl : s.loops[n]? = some l) {i : Nat}
    (h : t.Listening i) : s.Listening i := by
  have hpc := hmove.pc_ne_ended
  cases hmove with
  | take c cs =>
    have hset : (s.setBacklog l.sock cs).Listening i := h.of_goto hl hpc
    exact hset
  | schedule c =>
    have hserve : (s.serve c l.sock).Listening i := h.of_goto hl hpc
    exact hserve
  | _ => exact h.of_goto hl hpc

theorem mem_cancelAll {i : Nat} (hl : l ∈ (s.cancelAll i).loops) :
    l ∈ s.loops ∧ l ≠ ⟨i, .wait⟩ ∨ l = ⟨i, .retry⟩ ∧ ⟨i, .wait⟩ ∈ s.loops := by
  obtain ⟨l', hl', rfl⟩ := List.mem_map.mp hl
  split
  · next heq =>
    rw [heq] at hl' ⊢
    exact .inr ⟨rfl, hl'⟩
  · next hne => exact .inl ⟨hl', hne⟩

theorem CloseMove.listening (hmove : CloseMove s t) {i : Nat} (h : t.Listening i) : s.Listening i := by
  have hsame : ∀ {l : AcceptLoop κ}, l ∈ s.loops → l.sock = i → l.pc ≠ .ended →
      s.Listening i ∨ ∃ l ∈ s.loops, l.sock = i ∧ l.pc ≠ .ended :=
    fun hl hsock hpc => .inr ⟨_, hl, hsock, hpc⟩
  cases hmove with
  | begin | del => exact h
  | cancel j is | cancelHook j is =>
    refine h.of_less id id fun l hl hsock hpc => ?_
    rcases mem_cancelAll hl with ⟨hmem, -⟩ | ⟨rfl, hmem⟩
    · exact hsame hmem hsock hpc
    · exact hsame hmem hsock (by simp)
  | close j is =>
    refine h.of_less (fun hc => ?_) id fun l hl => hsame hl
    show Function.update s.closed j true i = true
    rw [Function.update_apply]
    split
    · rfl
    · exact hc
  | finish => exact h.of_less id (fun hmem => absurd hmem List.not_mem_nil) fun l hl => hsame hl

/-- Connections wait only at sockets that listen, and are reset only with sockets that do not any more. -/
structure Settled (s : TcpServer κ) : Prop where
  backlog : ∀ i, ¬ s.Listening i → s.backlog i = []
  reset : ∀ i, s.Listening i ∨ s.created ≤ i → s.reset i = []
  created : ∀ i, s.Listening i → i < s.created

theorem Settled.settle (h : Settled s) (hlistening : ∀ i, t.Listening i → s.Listening i ∨ s.created ≤ i)
    (hcreated : ∀ i, t.Listening i → i < t.created) (hmore : s.created ≤ t.created)
    (hbacklog : ∀ i, ¬ s.Listening i → t.backlog i = []) (hreset : t.reset = s.reset) :
    Settled t.settle where
  backlog := fun i hi => if_neg hi
  reset := fun i hi => by
    show (if t.Listening i then t.reset i else t.reset i ++ t.backlog i) = []
    rw [hreset]
    split
    · next hl => exact h.reset i (hlistening i hl)
    · next hl =>
      -- the socket does not exist yet
      have hge : t.created ≤ i := hi.resolve_left hl
      have hnot : ¬ s.Listening i := fun hold => absurd (h.created i hold) (by omega)
      rw [h.reset i (.inr (by omega)), hbacklog i hnot]
      rfl
  created := hcreated

omit [DecidableEq κ] in
theorem created_bind (outcomes : List Bool) (s : TcpServer κ) :
    (s.bind outcomes).2.created = s.created + outcomes.length := by
  rw [bind_eq]
  split <;> rfl

omit [DecidableEq κ] in
/-- A socket that listens after `bind` did so before, or is new. -/
theorem listening_bind {outcomes : List Bool} {i : Nat} (h : (s.bind outcomes).2.Listening i) :
    s.Listening i ∨ s.created ≤ i ∧ i < s.created + outcomes.length := by
  rw [bind_eq] at h
  split at h
  · rcases h.2 with hmem | hloop
    · rcases List.mem_append.mp hmem with hmem | hmem
      · exact .inl ⟨h.1, .inl hmem⟩
      · exact .inr (List.mem_range'_1.mp hmem)
    · exact .inl ⟨h.1, .inr hloop⟩
  · rcases h.2 with hmem | hloop
    · cases hmem
    · exact .inl ⟨h.1, .inr hloop⟩

omit [DecidableEq κ] in
theorem listening_start {i : Nat} : s.start.Listening i ↔ s.Listening i := by
  rw [start]
  split
  · rfl
  · constructor
    · intro h
      refine h.of_less id id fun l hl hsock hpc => ?_
      rcases List.mem_append.mp hl with hmem | hmem
      · exact .inr ⟨l, hmem, hsock, hpc⟩
      · obtain ⟨j, hj, rfl⟩ := List.mem_map.mp hmem
        exact .inl ⟨h.1, .inl (hsock ▸ hj)⟩
    · exact fun h => ⟨h.1, h.2.imp_right fun ⟨l, hl, hrest⟩ => ⟨l, List.mem_append_left _ hl, hrest⟩⟩

omit [DecidableEq κ] in
theorem LoopMove.kept (hmove : LoopMove s n l t) : t.reset = s.reset ∧ t.created = s.created ∧
    ∀ i, s.backlog i = [] → t.backlog i = [] := by
  cases hmove with
  | take c cs hpc hopen hbacklog =>
    refine ⟨rfl, rfl, fun i hi => ?_⟩
    rw [backlog_goto, backlog_setBacklog]
    split
    · next heq =>
      rw [heq, hbacklog] at hi
      cases hi
    · exact hi
  | _ => exact ⟨rfl, rfl, fun _ hi => hi⟩

theorem Settled.step {a : TcpAction κ} (h : Settled s) (ht : Step s a t) : Settled t := by
  cases move_of_step ht with
  | bind outcomes hclosing =>
    refine h.settle (fun i hi => ?_) (fun i hi => ?_) ?_ (fun i hi => ?_) ?_
    · exact (listening_bind hi).imp_right And.left
    · rw [created_bind]
      rcases listening_bind hi with hold | hnew
      · exact Nat.lt_add_right _ (h.created i hold)
      · exact hnew.2
    · rw [created_bind]
      exact Nat.le_add_right ..
    · have hsame : (s.bind outcomes).2.backlog = s.backlog := by
        rw [bind_eq]
        split <;> rfl
      rw [hsame]
      exact h.backlog i hi
    · rw [bind_eq]
      split <;> rfl
  | start =>
    have hsame : s.start.backlog = s.backlog ∧ s.start.reset = s.reset ∧ s.start.created = s.created := by
      rw [start]
      split <;> exact ⟨rfl, rfl, rfl⟩
    refine ⟨fun i hi => ?_, fun i hi => ?_, fun i hi => ?_⟩
    · rw [hsame.1]
      exact h.backlog i fun hold => hi (listening_start.mpr hold)
    · rw [hsame.2.2] at hi
      rw [hsame.2.1]
      exact h.reset i (hi.imp_left listening_start.mp)
    · rw [hsame.2.2]
      exact h.created i (listening_start.mp hi)
  | stop => exact ⟨h.backlog, h.reset, h.created⟩
  | setReadTimeout v => exact ⟨h.backlog, h.reset, h.created⟩
  | connect j c hlistening =>
    refine ⟨fun i hi => ?_, h.reset, h.created⟩
    -- a client comes only to a socket that listens
    have hne : i ≠ j := fun heq => hi (heq ▸ hlistening)
    rw [backlog_setBacklog, if_neg hne]
    exact h.backlog i hi
  | loop n fails l hl hmove =>
    obtain ⟨hreset, hcreated, hbacklog⟩ := hmove.kept
    refine h.settle (fun i hi => .inl (hmove.listening hl hi)) (fun i hi => ?_) (Nat.le_of_eq hcreated.symm)
      (fun i hi => hbacklog i (h.backlog i hi)) hreset
    rw [hcreated]
    exact h.created i (hmove.listening hl hi)
  | close hmove =>
    have hsame : ∀ t, CloseMove s t → t.backlog = s.backlog ∧ t.reset = s.reset ∧ t.created = s.created := by
      intro t hmove
      cases hmove <;> exact ⟨rfl, rfl, rfl⟩
    obtain ⟨hbacklog, hreset, hcreated⟩ := hsame _ hmove
    refine h.settle (fun i hi => .inl (hmove.listening hi)) (fun i hi => ?_) (Nat.le_of_eq hcreated.symm)
      (fun i hi => ?_) hreset
    · rw [hcreated]
      exact h.created i (hmove.listening hi)
    · rw [hbacklog]
      exact h.backlog i hi

def Timeouts (readTimeout : UInt64) (hist : List (TcpAction κ)) (s : TcpServer κ) : Prop :=
  ∀ v, v = s.readTimeout ∨ v ∈ s.clients.map ClientTask.recvTimeout →
    v = readTimeout ∨ .setReadTimeout v ∈ hist

theorem Timeouts.step {readTimeout : UInt64} {a : TcpAction κ} (h : Timeouts readTimeout hist s)
    (ht : Step s a t) : Timeouts readTimeout (hist ++ [a]) t := by
  have hkept : ∀ t : TcpServer κ, t.readTimeout = s.readTimeout → t.clients = s.clients →
      Timeouts readTimeout (hist ++ [a]) t := by
    intro t htimeout hclients v hv
    rw [htimeout, hclients] at hv
    exact (h v hv).imp_right (List.mem_append_left [a])
  cases move_of_step ht with
  | bind outcomes hclosing =>
    rw [bind_eq]
    split <;> exact hkept _ rfl rfl
  | start =>
    rw [start]
    split <;> exact hkept _ rfl rfl
  | stop => exact hkept _ rfl rfl
  | setReadTimeout v =>
    rintro w (rfl | hw)
    · exact .inr (List.mem_append_right hist (List.mem_singleton.mpr rfl))
    · exact (h w (.inr hw)).imp_right (List.mem_append_left _)
  | connect j c hlistening => exact hkept _ rfl rfl
  | loop n fails l hl hmove =>
    cases hmove with
    | schedule c hpc =>
      intro v hv
      apply (h v _).imp_right (List.mem_append_left _)
      rcases hv with rfl | hv
      · exact .inl rfl
      · rw [settle, goto, serve, List.map_append, List.mem_append] at hv
        rcases hv with hv | hv
        · exact .inr hv
        · exact .inl (List.mem_singleton.mp hv)
    | _ => exact hkept _ rfl rfl
  | close hmove => cases hmove <;> exact hkept _ rfl rfl

theorem settled_of_run {readTimeout : UInt64} (hrun : Run Step { readTimeout } hist s) : Settled s := by
  refine hrun.invariant Settled ⟨fun _ _ => rfl, fun _ _ => rfl, fun i hi => ?_⟩ fun _ _ _ h hs => h.step hs
  rcases hi.2 with hmem | ⟨l, hl, -⟩
  · cases hmem
  · cases hl

theorem perm_of_run {readTimeout : UInt64} (hrun : Run Step { readTimeout } hist s) (i : Nat) :
    (arrivals i hist).Perm (s.handled i ++ s.inHand i ++ s.backlog i ++ s.reset i) := by
  have hconserved := hrun.history_invariant Conserved (fun _ _ => rfl) fun _ _ _ _ h hs => h.step hs
  rw [List.perm_iff_count]
  intro c
  rw [hconserved i c, List.count_append, List.count_append, List.count_append]

/-- Whatever happens in whatever order, every connection that has come to a socket is handled once, is about
to be, waits in the kernel, or was reset with the socket that it waited at; it waits only at a socket that
listens, and is reset only with one that does so no more; and it is handled with a receive timeout that the
server has had. -/
theorem clients_handled {readTimeout : UInt64} (hrun : Run Step { readTimeout } hist s) (i : Nat) :
    (arrivals i hist).Perm (s.handled i ++ s.inHand i ++ s.backlog i ++ s.reset i) ∧
      (s.Listening i → s.reset i = []) ∧ (¬ s.Listening i → s.backlog i = []) ∧
      ∀ task ∈ s.clients, task.recvTimeout = readTimeout ∨ .setReadTimeout task.recvTimeout ∈ hist := by
  have htimeouts := hrun.history_invariant (Timeouts readTimeout)
    (fun v hv => .inl (hv.resolve_right List.not_mem_nil)) fun _ _ _ _ h hs => h.step hs
  have hsettled := settled_of_run hrun
  exact ⟨perm_of_run hrun i, fun hi => hsettled.reset i (.inl hi), hsettled.backlog i,
    fun task htask => htimeouts _ (.inr (List.mem_map_of_mem htask))⟩

def threeClients : List (TcpAction Nat) :=
  [.bind [true], .start, .loop 0 false, .loop 0 false, .connect 0 7, .loop 0 false, .loop 0 false,
    .setReadTimeout 6, .loop 0 false, .loop 0 false, .connect 0 8, .connect 0 9, .loop 0 false,
    .loop 0 false, .stop, .close, .close, .close, .close, .close]

/-- One client is handled, with the timeout that was set last, one is in hand when the server is stopped, and
one is reset. -/
theorem clients_handled_three : ∃ s : TcpServer Nat,
    Run Step { readTimeout := 5 } threeClients s ∧ arrivals 0 threeClients = [7, 8, 9] ∧
      (arrivals 0 threeClients).Perm (s.handled 0 ++ s.inHand 0 ++ s.backlog 0 ++ s.reset 0) ∧
      s.clients = [⟨7, 0, 6⟩] ∧ s.inHand 0 = [8] ∧ s.reset 0 = [9] := by
  have hlast : (runAll act ({ readTimeout := 5 } : TcpServer Nat) threeClients).map
      (fun s => (s.clients, s.inHand 0, s.reset 0)) = some ([⟨7, 0, 6⟩], [8], [9]) := by
    decide
  rcases Option.map_eq_some_iff.mp hlast with ⟨s, hs, hvalues⟩
  simp only [Prod.mk.injEq] at hvalues
  have hrun : Run Step { readTimeout := 5 } threeClients s := run_of_runAll hs
  exact ⟨s, hrun, rfl, (clients_handled hrun 0).1, hvalues⟩

end TcpServer

end Azure
