import Azure.Log.Model
import Azure.Reasoning.Runs

/-!
# Inherited formatters

The calls on one logger and on the appenders it is given.  An appender inherits as long as its user
has not set a formatter on it.  The logger tells the two kinds apart by a flag that its own call of
`LogAppender::setFormatter` sets too.
-/

namespace Azure

open Reasoning

/-- A logger, the appenders its user made, and what the user has done with them: the last formatter
set on an appender, and whether the logger ever gave it up. -/
structure LoggerUse where
  logger : Logger
  heap : LogHeap
  own : Nat → Option (Option LogFormatter)
  removed : Nat → Bool

inductive LoggerOp where
  | newAppender (kind : AppenderKind)
  | addAppender (a : Nat)
  | delAppender (a : Nat)
  | clearAppender
  | setFormatter (val : Option LogFormatter)
  | setPattern (val : String)
  | setOwnFormatter (a : Nat) (val : Option LogFormatter)

namespace LoggerUse

def new (name : String) : LoggerUse :=
  let (logger, heap) := Logger.new name {}
  { logger, heap, own := fun _ => none, removed := fun _ => false }

def act (s : LoggerUse) : LoggerOp → Option LoggerUse
  | .newAppender kind => some { s with heap := s.heap.push { kind } }
  | .addAppender a =>
    if a < s.heap.appenders.length then
      let (logger, heap) := s.logger.addAppender a s.heap
      some { s with logger, heap }
    else none
  | .delAppender a =>
    some { s with
      logger := s.logger.delAppender a
      removed := fun b => s.removed b || (b = a && s.logger.appenders.contains a) }
  | .clearAppender =>
    some { s with
      logger := s.logger.clearAppender
      removed := fun b => s.removed b || s.logger.appenders.contains b }
  | .setFormatter val =>
    let (logger, heap) := s.logger.setFormatter val s.heap
    some { s with logger, heap }
  | .setPattern val =>
    let (logger, heap) := s.logger.setPattern val s.heap
    some { s with logger, heap }
  | .setOwnFormatter a val =>
    if a < s.heap.appenders.length then
      some { s with
        heap := s.heap.modify a (LogAppender.setFormatter val)
        own := fun b => if b = a then some val else s.own b }
    else none

def Once (s : LoggerUse) : LoggerOp → Prop
  | .addAppender a => s.removed a = false
  | _ => True

instance (s : LoggerUse) (op : LoggerOp) : Decidable (Once s op) :=
  match op with
  | .addAppender a => inferInstanceAs (Decidable (s.removed a = false))
  | .newAppender _ | .delAppender _ | .clearAppender | .setFormatter _ | .setPattern _
  | .setOwnFormatter _ _ => .isTrue trivial

def incoming (s : LoggerUse) : LoggerOp → Option (Option LogFormatter)
  | .setFormatter val => some val
  | .setPattern val =>
    let new_val := (s.heap.newFormatter val).1
    if new_val.isError then none else some (some new_val)
  | _ => none

/-- Every attached appender that inherits has the formatter of the logger, and an appender that was
given a formatter of its own has that one. -/
def Follows (s : LoggerUse) : Prop :=
  (∀ a ∈ s.logger.appenders, s.own a = none →
      ∃ ap, s.heap.appenders[a]? = some ap ∧ ap.formatter = s.logger.formatter) ∧
    ∀ a f, s.own a = some (some f) → ∃ ap, s.heap.appenders[a]? = some ap ∧ ap.formatter = some f

/-- When the logger gets another formatter, no attached appender that inherits has the flag. -/
def Unflagged (s : LoggerUse) (op : LoggerOp) : Prop :=
  ∀ val, s.incoming op = some val → val ≠ s.logger.formatter →
    ∀ a ∈ s.logger.appenders, s.own a = none →
      ∀ ap, s.heap.appenders[a]? = some ap → ap.hasFormatter = false

end LoggerUse

/-! ## One appender -/

namespace Logger

theorem follow_follow (val : Option LogFormatter) (a : LogAppender) :
    follow val (follow val a) = follow val a := by
  unfold follow LogAppender.setFormatter
  cases hflag : a.hasFormatter <;> cases val <;> simp [hflag]

theorem follow_of_flag {val : Option LogFormatter} {a : LogAppender} (h : a.hasFormatter = true) :
    follow val a = a := by
  simp [follow, h]

theorem follow_of_not_flag {val : Option LogFormatter} {a : LogAppender}
    (h : a.hasFormatter = false) : (follow val a).formatter = val := by
  simp [follow, h, LogAppender.setFormatter]

theorem adopt_of_formatter {val : Option LogFormatter} {a : LogAppender}
    (h : a.formatter.isSome) : adopt val a = a := by
  simp [adopt, Option.isNone_iff_eq_none, Option.isSome_iff_ne_none.mp h]

theorem adopt_of_none {val : Option LogFormatter} {a : LogAppender} (h : a.formatter = none) :
    (adopt val a).formatter = val := by
  simp [adopt, h]

/-- The loop of `setFormatter` visits an appender once or more often, which comes to the same. -/
theorem getElem?_propagate (val : Option LogFormatter) (as : List Nat) (heap : LogHeap) (b : Nat) :
    (as.foldl (fun heap a => heap.modify a (follow val)) heap).appenders[b]? =
      if b ∈ as then heap.appenders[b]?.map (follow val) else heap.appenders[b]? := by
  induction as generalizing heap with
  | nil => simp
  | cons a as ih =>
    rw [List.foldl_cons, ih]
    simp only [LogHeap.modify, List.getElem?_modify, List.mem_cons]
    by_cases hab : a = b
    · subst hab
      cases heap.appenders[a]? with
      | none => simp
      | some ap => simp [follow_follow]
    · simp [hab, Ne.symm hab]

theorem length_propagate (val : Option LogFormatter) (as : List Nat) (heap : LogHeap) :
    (as.foldl (fun heap a => heap.modify a (follow val)) heap).appenders.length =
      heap.appenders.length := by
  induction as generalizing heap with
  | nil => rfl
  | cons a as ih =>
    rw [List.foldl_cons, ih]
    exact List.length_modify ..

end Logger

namespace LoggerUse

structure Kept (s : LoggerUse) : Prop where
  attached : ∀ a ∈ s.logger.appenders, a < s.heap.appenders.length
  inherits : ∀ a ∈ s.logger.appenders, s.own a = none →
    ∃ ap, s.heap.appenders[a]? = some ap ∧ ap.formatter = s.logger.formatter
  owns : ∀ a f, s.own a = some (some f) → ∃ ap, s.heap.appenders[a]? = some ap ∧
    ap.formatter = some f ∧ ap.hasFormatter = true
  fresh : ∀ a ap, s.own a = none → a ∉ s.logger.appenders → s.removed a = false →
    s.heap.appenders[a]? = some ap → ap.formatter = none

theorem Kept.follows {s : LoggerUse} (h : Kept s) : Follows s := by
  refine ⟨h.inherits, ?_⟩
  intro a f hown
  rcases h.owns a f hown with ⟨ap, hap, hformatter, -⟩
  exact ⟨ap, hap, hformatter⟩

theorem kept_new (name : String) : Kept (new name) where
  attached a ha := by cases ha
  inherits a ha := by cases ha
  owns a f hown := by cases hown
  fresh a ap _ _ _ hap := by cases hap

/-- A change of one appender keeps what is known of the others. -/
theorem getElem?_modify_of_ne {heap : LogHeap} {a b : Nat} (h : a ≠ b)
    (f : LogAppender → LogAppender) : (heap.modify a f).appenders[b]? = heap.appenders[b]? := by
  simp [LogHeap.modify, h]

theorem getElem?_modify_self {heap : LogHeap} {a : Nat} {ap : LogAppender}
    (h : heap.appenders[a]? = some ap) (f : LogAppender → LogAppender) :
    (heap.modify a f).appenders[a]? = some (f ap) := by
  simp [LogHeap.modify, h]

theorem Kept.push {s : LoggerUse} (h : Kept s) (kind : AppenderKind) :
    Kept { s with heap := s.heap.push { kind } } := by
  have hold : ∀ (b : Nat) ap, s.heap.appenders[b]? = some ap →
      (s.heap.push { kind }).appenders[b]? = some ap := by
    intro b ap hap
    have hlt := (List.getElem?_eq_some_iff.mp hap).1
    rw [LogHeap.push, List.getElem?_append_left hlt, hap]
  refine ⟨?_, ?_, ?_, ?_⟩
  · intro a ha
    have hlt := h.attached a ha
    simp only [LogHeap.push, List.length_append, List.length_singleton]
    omega
  · intro a ha hown
    rcases h.inherits a ha hown with ⟨ap, hap, hformatter⟩
    exact ⟨ap, hold a ap hap, hformatter⟩
  · intro a f hown
    rcases h.owns a f hown with ⟨ap, hap, hrest⟩
    exact ⟨ap, hold a ap hap, hrest⟩
  · intro a ap hown hnot hremoved hap
    by_cases hlt : a < s.heap.appenders.length
    · rw [LogHeap.push, List.getElem?_append_left hlt] at hap
      exact h.fresh a ap hown hnot hremoved hap
    · -- the new appender has no formatter yet
      rw [LogHeap.push, List.getElem?_append_right (by omega)] at hap
      rw [List.mem_singleton.mp (List.mem_of_getElem? hap)]

theorem Kept.add {s : LoggerUse} (h : Kept s) {a : Nat} (hlt : a < s.heap.appenders.length)
    (honce : s.removed a = false) :
    Kept { s with
      logger := (s.logger.addAppender a s.heap).1
      heap := (s.logger.addAppender a s.heap).2 } := by
  have hget : s.heap.appenders[a]? = some s.heap.appenders[a] := List.getElem?_eq_getElem hlt
  have hself := getElem?_modify_self hget (Logger.adopt s.logger.formatter)
  refine ⟨?_, ?_, ?_, ?_⟩
  · intro b hb
    show b < (s.heap.appenders.modify a _).length
    rw [List.length_modify]
    rcases List.mem_append.mp hb with hb | hb
    · exact h.attached b hb
    · rw [List.mem_singleton.mp hb]
      exact hlt
  · intro b hb hown
    by_cases hab : a = b
    · subst hab
      refine ⟨_, hself, ?_⟩
      by_cases hin : a ∈ s.logger.appenders
      · -- it is attached already, so it has the formatter of the logger
        rcases h.inherits a hin hown with ⟨ap, hap, hformatter⟩
        rw [hget] at hap
        cases hap
        show (Logger.adopt s.logger.formatter _).formatter = s.logger.formatter
        cases hsome : s.logger.formatter with
        | none =>
          rw [hsome] at hformatter
          exact Logger.adopt_of_none hformatter
        | some f =>
          rw [hsome] at hformatter
          rw [Logger.adopt_of_formatter (by rw [hformatter]; rfl), hformatter]
      · exact Logger.adopt_of_none (h.fresh a _ hown hin honce hget)
    · rcases List.mem_append.mp hb with hb | hb
      · rcases h.inherits b hb hown with ⟨ap, hap, hformatter⟩
        exact ⟨ap, by rw [← hap]; exact getElem?_modify_of_ne hab _, hformatter⟩
      · exact absurd (List.mem_singleton.mp hb).symm hab
  · intro b f hown
    rcases h.owns b f hown with ⟨ap, hap, hformatter, hflag⟩
    by_cases hab : a = b
    · subst hab
      refine ⟨ap, ?_, hformatter, hflag⟩
      have hsame : Logger.adopt s.logger.formatter ap = ap :=
        Logger.adopt_of_formatter (by rw [hformatter]; rfl)
      rw [← hsame]
      exact getElem?_modify_self hap _
    · exact ⟨ap, by rw [← hap]; exact getElem?_modify_of_ne hab _, hformatter, hflag⟩
  · intro b ap hown hnot hremoved hap
    have hnot : b ∉ s.logger.appenders ++ [a] := hnot
    rw [List.mem_append, List.mem_singleton, not_or] at hnot
    have hap : (s.heap.modify a (Logger.adopt s.logger.formatter)).appenders[b]? = some ap := hap
    rw [getElem?_modify_of_ne (Ne.symm hnot.2)] at hap
    exact h.fresh b ap hown hnot.1 hremoved hap

/-- Appenders that are given up are not new any more. -/
theorem Kept.remove {s : LoggerUse} (h : Kept s) {as : List Nat} {removed : Nat → Bool}
    (hsub : ∀ b ∈ as, b ∈ s.logger.appenders)
    (hremoved : ∀ b, removed b = false → s.removed b = false ∧
      (b ∈ s.logger.appenders → b ∈ as)) :
    Kept { s with logger := { s.logger with appenders := as }, removed } where
  attached b hb := h.attached b (hsub b hb)
  inherits b hb := h.inherits b (hsub b hb)
  owns := h.owns
  fresh b ap hown hnot hkept hap :=
    h.fresh b ap hown (fun hb => hnot ((hremoved b hkept).2 hb)) (hremoved b hkept).1 hap

/-- A new formatter of the logger reaches every appender that inherits, when none has the flag. -/
theorem Kept.setFormatter {s : LoggerUse} (h : Kept s) {heap : LogHeap}
    (hheap : heap.appenders = s.heap.appenders) (val : Option LogFormatter)
    (hflags : val ≠ s.logger.formatter → ∀ a ∈ s.logger.appenders, s.own a = none →
      ∀ ap, s.heap.appenders[a]? = some ap → ap.hasFormatter = false) :
    Kept { s with
      logger := (s.logger.setFormatter val heap).1
      heap := (s.logger.setFormatter val heap).2 } := by
  refine ⟨?_, ?_, ?_, ?_⟩
  · intro a ha
    show a < (s.logger.setFormatter val heap).2.appenders.length
    rw [Logger.setFormatter, Logger.length_propagate, hheap]
    exact h.attached a ha
  · intro a ha hown
    have ha : a ∈ s.logger.appenders := ha
    rcases h.inherits a ha hown with ⟨ap, hap, hformatter⟩
    refine ⟨Logger.follow val ap, ?_, ?_⟩
    · show (s.logger.setFormatter val heap).2.appenders[a]? = _
      rw [Logger.setFormatter, Logger.getElem?_propagate, if_pos ha, hheap, hap]
      rfl
    · show (Logger.follow val ap).formatter = val
      cases hflag : ap.hasFormatter with
      | false => exact Logger.follow_of_not_flag hflag
      | true =>
        -- the flag is only in the way of another formatter
        rw [Logger.follow_of_flag hflag, hformatter]
        by_contra hne
        have hfalse := hflags (Ne.symm hne) a ha hown ap hap
        rw [hflag] at hfalse
        cases hfalse
  · intro a f hown
    rcases h.owns a f hown with ⟨ap, hap, hformatter, hflag⟩
    refine ⟨ap, ?_, hformatter, hflag⟩
    show (s.logger.setFormatter val heap).2.appenders[a]? = _
    rw [Logger.setFormatter, Logger.getElem?_propagate, hheap, hap, Option.map_some,
      Logger.follow_of_flag hflag, ite_self]
  · intro a ap hown hnot hremoved hap
    have hnot : a ∉ s.logger.appenders := hnot
    have hap : (s.logger.setFormatter val heap).2.appenders[a]? = some ap := hap
    rw [Logger.setFormatter, Logger.getElem?_propagate, if_neg hnot, hheap] at hap
    exact h.fresh a ap hown hnot hremoved hap

theorem Kept.setOwn {s : LoggerUse} (h : Kept s) {a : Nat} (hlt : a < s.heap.appenders.length)
    (val : Option LogFormatter) :
    Kept { s with
      heap := s.heap.modify a (LogAppender.setFormatter val)
      own := fun b => if b = a then some val else s.own b } := by
  have hself := getElem?_modify_self (List.getElem?_eq_getElem hlt) (LogAppender.setFormatter val)
  refine ⟨?_, ?_, ?_, ?_⟩
  · intro b hb
    show b < (s.heap.appenders.modify a _).length
    rw [List.length_modify]
    exact h.attached b hb
  · intro b hb hown
    dsimp only at hown
    by_cases hab : b = a
    · rw [if_pos hab] at hown
      cases hown
    · rw [if_neg hab] at hown
      rcases h.inherits b hb hown with ⟨ap, hap, hformatter⟩
      exact ⟨ap, by rw [← hap]; exact getElem?_modify_of_ne (Ne.symm hab) _, hformatter⟩
  · intro b f hown
    dsimp only at hown
    by_cases hab : b = a
    · rw [if_pos hab] at hown
      cases hown
      rw [hab]
      exact ⟨_, hself, rfl, rfl⟩
    · rw [if_neg hab] at hown
      rcases h.owns b f hown with ⟨ap, hap, hrest⟩
      exact ⟨ap, by rw [← hap]; exact getElem?_modify_of_ne (Ne.symm hab) _, hrest⟩
  · intro b ap hown hnot hremoved hap
    dsimp only at hown
    by_cases hab : b = a
    · rw [if_pos hab] at hown
      cases hown
    · rw [if_neg hab] at hown
      have hap : (s.heap.modify a (LogAppender.setFormatter val)).appenders[b]? = some ap := hap
      rw [getElem?_modify_of_ne (Ne.symm hab)] at hap
      exact h.fresh b ap hown hnot hremoved hap

/-! ## Runs -/

theorem Kept.step {s t : LoggerUse} {op : LoggerOp} (h : Kept s) (honce : Once s op)
    (hflags : Unflagged s op) (hact : s.act op = some t) : Kept t := by
  cases op with
  | newAppender kind =>
    cases hact
    exact h.push kind
  | addAppender a =>
    simp only [act] at hact
    split at hact
    · next hlt =>
      cases hact
      exact h.add hlt honce
    · cases hact
  | delAppender a =>
    cases hact
    refine h.remove (fun b hb => List.mem_of_mem_erase hb) ?_
    intro b hb
    rw [Bool.or_eq_false_iff] at hb
    refine ⟨hb.1, ?_⟩
    intro hin
    by_cases hba : b = a
    · rw [hba] at hb hin
      simp [hin] at hb
    · exact (List.mem_erase_of_ne hba).mpr hin
  | clearAppender =>
    cases hact
    refine h.remove (fun b hb => absurd hb List.not_mem_nil) ?_
    intro b hb
    rw [Bool.or_eq_false_iff] at hb
    refine ⟨hb.1, ?_⟩
    intro hin
    simp [hin] at hb
  | setFormatter val =>
    cases hact
    exact h.setFormatter rfl val (hflags val rfl)
  -- a pattern with an error changes nothing; any other is a formatter that is set
  | setPattern val =>
    have ht : { s with
        logger := (s.logger.setPattern val s.heap).1
        heap := (s.logger.setPattern val s.heap).2 } = t := Option.some.inj hact
    rw [← ht]
    cases herror : (s.heap.newFormatter val).1.isError with
    | true =>
      rw [Logger.setPattern_of_error _ herror]
      exact ⟨h.attached, h.inherits, h.owns, h.fresh⟩
    | false =>
      rw [Logger.setPattern_of_valid _ herror]
      have hincoming : s.incoming (.setPattern val) = some (some (s.heap.newFormatter val).1) := by
        simp only [incoming, herror, Bool.false_eq_true, if_false]
      have hheap : (s.heap.newFormatter val).2.appenders = s.heap.appenders := rfl
      exact h.setFormatter hheap _ (hflags _ hincoming)
  | setOwnFormatter a val =>
    simp only [act] at hact
    split at hact
    · next hlt =>
      cases hact
      exact h.setOwn hlt val
    · cases hact

/-- Where a flag stands in the way, the appender stays behind. -/
theorem unflagged_of_follows {s t : LoggerUse} {op : LoggerOp} (h : Kept s)
    (hact : s.act op = some t) (hfollows : Follows t) : Unflagged s op := by
  intro val hval hne a ha hown ap hap
  -- in both cases the logger calls its own setFormatter with `val`
  have hset : ∃ heap : LogHeap, heap.appenders = s.heap.appenders ∧
      t = { s with
        logger := (s.logger.setFormatter val heap).1
        heap := (s.logger.setFormatter val heap).2 } := by
    cases op with
    | setFormatter v =>
      cases hval
      cases hact
      exact ⟨s.heap, rfl, rfl⟩
    | setPattern v =>
      have ht : { s with
          logger := (s.logger.setPattern v s.heap).1
          heap := (s.logger.setPattern v s.heap).2 } = t := Option.some.inj hact
      simp only [incoming] at hval
      split at hval
      · cases hval
      · next herror =>
        rw [← ht, ← Option.some.inj hval]
        rw [Logger.setPattern_of_valid _ (Bool.eq_false_of_not_eq_true herror)]
        exact ⟨(s.heap.newFormatter v).2, rfl, rfl⟩
    | _ => cases hval
  rcases hset with ⟨heap, hheap, rfl⟩
  rcases hfollows.1 a ha hown with ⟨ap', hap', hformatter⟩
  have hap' : (s.logger.setFormatter val heap).2.appenders[a]? = some ap' := hap'
  rw [Logger.setFormatter, Logger.getElem?_propagate, if_pos ha, hheap, hap] at hap'
  cases hap'
  rcases h.inherits a ha hown with ⟨ap', hap', hold⟩
  rw [hap] at hap'
  cases hap'
  cases hflag : ap.hasFormatter with
  | false => rfl
  | true =>
    rw [Logger.follow_of_flag hflag, hold] at hformatter
    exact absurd hformatter.symm hne

theorem kept_of_run {name : String} {hist : List LoggerOp} {s : LoggerUse}
    (hrun : Run (Guarded (fun s op => Once s op ∧ Unflagged s op) (Steps act)) (new name) hist s) :
    Kept s :=
  hrun.invariant Kept (kept_new name) fun _ _ _ h hstep => h.step hstep.1.1 hstep.1.2 hstep.2

/-- The formatters follow the logger all along a run exactly when no change of the formatter of the
logger meets an inheriting appender with the flag. -/
theorem formatters_follow {name : String} {hist : List LoggerOp} {s : LoggerUse}
    (hrun : Run (Guarded Once (Steps act)) (new name) hist s) :
    (∀ pre t, pre <+: hist → Run (Guarded Once (Steps act)) (new name) pre t → Follows t) ↔
      Run (Guarded (fun s op => Once s op ∧ Unflagged s op) (Steps act)) (new name) hist s := by
  apply Run.always_iff (fun _ => Follows) (fun _ _ _ h => ⟨h.1.1, h.2⟩) _ hrun
  · intro pre t hgood
    exact (kept_of_run hgood).follows
  -- the run has met no flag before its last call, and its end tells about that one
  · intro pre t op u hgood hstep hfollows
    have hunflagged := unflagged_of_follows (kept_of_run hgood) hstep.2 hfollows
    exact ⟨⟨hstep.1, hunflagged⟩, hstep.2⟩
  · intro s op t t' h h'
    exact Option.some.inj (h.2.symm.trans h'.2)

def oneFormatter : List LoggerOp :=
  [.newAppender .stdout, .addAppender 0, .setFormatter (some (LogFormatter.new 1 "%m%n"))]

theorem formatters_follow_one : ∃ s,
    Run (Guarded (fun s op => Once s op ∧ Unflagged s op) (Steps act)) (new "system")
      oneFormatter s ∧ Follows s := by
  have hnew : Run (Guarded (fun s op => Once s op ∧ Unflagged s op) (Steps act)) (new "system") []
    (new "system") := .nil _
  have hmade := hnew.snoc (show Guarded _ (Steps act) _ (.newAppender .stdout) _ from
    ⟨⟨trivial, fun _ hval => by cases hval⟩, rfl⟩)
  have hadded := hmade.snoc (show Guarded _ (Steps act) _ (.addAppender 0) _ from
    ⟨⟨rfl, fun _ hval => by cases hval⟩, rfl⟩)
  have hset := hadded.snoc (show Guarded _ (Steps act) _
      (.setFormatter (some (LogFormatter.new 1 "%m%n"))) _ from ⟨⟨trivial, by
    intro val hval hne a ha hown ap hap
    rw [List.mem_singleton.mp ha] at hap
    cases hap
    rfl⟩, rfl⟩)
  have hrun : Run (Guarded Once (Steps act)) (new "system") oneFormatter _ :=
    hset.mono fun _ _ _ hstep => ⟨hstep.1.1, hstep.2⟩
  exact ⟨_, hset, (formatters_follow hrun).mpr hset _ _ (List.prefix_refl _) hrun⟩

/-- The second formatter does not reach the appender: the first one left the flag behind. -/
theorem second_formatter_lost : ∃ s, Run (Guarded Once (Steps act)) (new "system")
      (oneFormatter ++ [.setFormatter (some (LogFormatter.new 2 "%d - %m%n"))]) s ∧
    ¬ Follows s := by
  have hrun : ∃ s, runAll (fun s op => if decide (Once s op) then act s op else none)
      (new "system") (oneFormatter ++ [.setFormatter (some (LogFormatter.new 2 "%d - %m%n"))]) =
      some s ∧ s.heap.appenders[0]?.map LogAppender.formatter =
        some (some (LogFormatter.new 1 "%m%n")) ∧
      s.logger.formatter = some (LogFormatter.new 2 "%d - %m%n") ∧ 0 ∈ s.logger.appenders ∧
      s.own 0 = none := ⟨_, rfl, rfl, rfl, List.mem_singleton.mpr rfl, rfl⟩
  rcases hrun with ⟨s, hall, hfirst, hsecond, hin, hown⟩
  refine ⟨s, run_of_runAll_guarded _ (fun _ _ h => of_decide_eq_true h) hall, ?_⟩
  intro hfollows
  rcases hfollows.1 0 hin hown with ⟨ap, hap, hformatter⟩
  rw [hap, Option.map_some, hformatter, hsecond] at hfirst
  have hpattern := congrArg (Option.map (Option.map LogFormatter.pattern)) hfirst
  exact absurd hpattern (by decide)

end LoggerUse

end Azure
