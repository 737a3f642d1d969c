import Azure.Log.Inheritance
import Mathlib.Data.List.Pairwise

/-!
# Reloading the log configuration

What is seen of a logger is its level, its pattern and its appenders.  A definition says all of it but
the pattern where it has no usable one: the listener leaves the logger the pattern it has, which is the
last usable one that the logger was ever given.
-/

namespace Azure

open Reasoning

structure AppenderView where
  kind : AppenderKind
  level : LogLevel
  pattern : Option String
  deriving DecidableEq, Repr

structure LoggerView where
  level : LogLevel
  pattern : Option String
  appenders : List (Option AppenderView)
  deriving DecidableEq, Repr

def LogAppender.view (a : LogAppender) : AppenderView where
  kind := a.kind
  level := a.level
  pattern := a.formatter.map LogFormatter.getPattern

def LogHeap.view (heap : LogHeap) (a : Nat) : Option AppenderView :=
  heap.appenders[a]?.map LogAppender.view

def Logger.view (logger : Logger) (heap : LogHeap) : LoggerView where
  level := logger.level
  pattern := logger.formatter.map LogFormatter.getPattern
  appenders := logger.appenders.map heap.view

/-- The appenders a definition stands for, at a logger with the pattern `p`. -/
def LogDefine.appenderViews (d : LogDefine) (p : String) : List AppenderView :=
  d.appenders.filterMap fun a => (LoggerManager.kindOf a).map fun kind => {
    kind
    level := a.level
    pattern := some (if LogFormatter.Usable a.formatter then a.formatter else p) }

def LogDefine.view (d : LogDefine) (p : String) : LoggerView where
  level := d.level
  pattern := some p
  appenders := (d.appenderViews p).map some

/-- An appender without a formatter is seen with the one it is given. -/
theorem Logger.view_adopt_of_none {formatter : Option LogFormatter} {a : LogAppender}
    (h : a.formatter = none) : (Logger.adopt formatter a).view = {
      kind := a.kind
      level := a.level
      pattern := formatter.map LogFormatter.getPattern } := by
  simp [Logger.adopt, LogAppender.view, h]

namespace LoggerManager

def view (m : LoggerManager) (name : String) : Option LoggerView :=
  (m.loggers name).map fun logger => logger.view m.heap

def patternOf (m : LoggerManager) (name : String) : String :=
  (((m.loggers name).bind Logger.formatter).map LogFormatter.getPattern).getD Logger.defaultPattern

structure WellFormed (m : LoggerManager) : Prop where
  named : ∀ {name logger}, m.loggers name = some logger → logger.name = name
  formatter : ∀ {name logger}, m.loggers name = some logger → logger.formatter.isSome
  valid : ∀ {name logger}, m.loggers name = some logger →
    ∀ a ∈ logger.appenders, a < m.heap.appenders.length
  apart : ∀ {name name' logger logger'}, m.loggers name = some logger →
    m.loggers name' = some logger' → name ≠ name' → ∀ a ∈ logger.appenders, a ∉ logger'.appenders

theorem store_self (m : LoggerManager) (logger : Logger) (heap : LogHeap) :
    (m.store logger heap).loggers logger.name = some logger := if_pos rfl

theorem store_of_ne (m : LoggerManager) {logger : Logger} (heap : LogHeap) {name : String}
    (h : name ≠ logger.name) : (m.store logger heap).loggers name = m.loggers name := if_neg h

/-- Storing a logger is well formed when its appenders are in the heap and belong to no other, and the
other loggers' appenders are still there. -/
theorem WellFormed.store {m : LoggerManager} (h : WellFormed m) {logger : Logger} {heap : LogHeap}
    (hformatter : logger.formatter.isSome)
    (hlen : m.heap.appenders.length ≤ heap.appenders.length)
    (hvalid : ∀ a ∈ logger.appenders, a < heap.appenders.length)
    (hapart : ∀ name other, name ≠ logger.name → m.loggers name = some other →
      ∀ a ∈ other.appenders, a ∉ logger.appenders) : WellFormed (m.store logger heap) := by
  have hcases : ∀ {name other}, (m.store logger heap).loggers name = some other →
      name = logger.name ∧ other = logger ∨ name ≠ logger.name ∧ m.loggers name = some other := by
    intro name other hother
    by_cases hname : name = logger.name
    · rw [hname, store_self] at hother
      exact Or.inl ⟨hname, (Option.some.inj hother).symm⟩
    · rw [store_of_ne m heap hname] at hother
      exact Or.inr ⟨hname, hother⟩
  refine ⟨?_, ?_, ?_, ?_⟩
  · intro name other hother
    rcases hcases hother with ⟨rfl, rfl⟩ | ⟨-, hold⟩
    · rfl
    · exact h.named hold
  · intro name other hother
    rcases hcases hother with ⟨rfl, rfl⟩ | ⟨-, hold⟩
    · exact hformatter
    · exact h.formatter hold
  · intro name other hother a ha
    rcases hcases hother with ⟨rfl, rfl⟩ | ⟨-, hold⟩
    · exact hvalid a ha
    · exact Nat.lt_of_lt_of_le (h.valid hold a ha) hlen
  · intro name name' other other' hother hother' hne a ha
    rcases hcases hother with ⟨rfl, rfl⟩ | ⟨hname, hold⟩
    · rcases hcases hother' with ⟨rfl, rfl⟩ | ⟨hname', hold'⟩
      · exact absurd rfl hne
      · exact fun ha' => hapart name' other' hname' hold' a ha' ha
    · rcases hcases hother' with ⟨rfl, rfl⟩ | ⟨hname', hold'⟩
      · exact hapart name other hname hold a ha
      · exact h.apart hold hold' hne a ha

/-- What is seen of the other loggers, when their appenders have not changed. -/
theorem view_store_of_ne {m : LoggerManager} {logger : Logger} {heap : LogHeap} {name : String}
    (hname : name ≠ logger.name)
    (hsame : ∀ other, m.loggers name = some other → ∀ a ∈ other.appenders,
      heap.appenders[a]? = m.heap.appenders[a]?) :
    (m.store logger heap).view name = m.view name := by
  unfold view
  rw [store_of_ne m heap hname]
  cases hother : m.loggers name with
  | none => rfl
  | some other =>
    have hviews : other.appenders.map heap.view = other.appenders.map m.heap.view := by
      apply List.map_congr_left
      intro a ha
      unfold LogHeap.view
      rw [hsame other hother a ha]
    show some (other.view heap) = some (other.view m.heap)
    unfold Logger.view
    rw [hviews]

theorem view_store_self (m : LoggerManager) (logger : Logger) (heap : LogHeap) :
    (m.store logger heap).view logger.name = some (logger.view heap) := by
  unfold view
  rw [store_self]
  rfl

theorem patternOf_of_view {m : LoggerManager} {name : String} {v : LoggerView}
    (h : m.view name = some v) : m.patternOf name = v.pattern.getD Logger.defaultPattern := by
  rcases Option.map_eq_some_iff.mp h with ⟨logger, hlogger, rfl⟩
  unfold patternOf
  rw [hlogger]
  rfl

theorem patternOf_of_none {m : LoggerManager} {name : String} (h : m.view name = none) :
    m.patternOf name = Logger.defaultPattern := by
  unfold patternOf
  rw [Option.map_eq_none_iff.mp h]
  rfl

theorem patternOf_congr {m m' : LoggerManager} {name : String} (h : m'.view name = m.view name) :
    m'.patternOf name = m.patternOf name := by
  cases hv : m.view name with
  | none => rw [patternOf_of_none hv, patternOf_of_none (h.trans hv)]
  | some v => rw [patternOf_of_view hv, patternOf_of_view (h.trans hv)]

/-! ## One definition -/

/-- The logger of a definition, which is made if there is none. -/
theorem getLogger_spec {m : LoggerManager} (h : WellFormed m) (name : String) :
    ∃ logger m', m.getLogger name = (logger, m') ∧ WellFormed m' ∧
      m'.loggers name = some logger ∧ m'.heap.appenders = m.heap.appenders ∧
      (∀ other, other ≠ name → m'.view other = m.view other) ∧
      m'.patternOf name = m.patternOf name := by
  unfold getLogger
  cases hfound : m.loggers name with
  | some logger => exact ⟨logger, m, rfl, h, hfound, rfl, fun _ _ => rfl, rfl⟩
  | none =>
    refine ⟨_, _, rfl, ?_, store_self _ (Logger.new name m.heap).1 _, rfl, ?_, ?_⟩
    · exact h.store rfl (Nat.le_refl _) (fun a ha => by cases ha) (fun _ _ _ _ _ _ ha => by cases ha)
    · intro other hother
      exact view_store_of_ne hother fun _ _ _ _ => rfl
    · rw [patternOf_of_none (show m.view name = none by rw [view, hfound]; rfl)]
      exact patternOf_of_view (view_store_self m (Logger.new name m.heap).1 _)

/-- The logger gets the pattern of a definition if that is usable.  Only its own appenders hear of
it. -/
theorem repattern_spec (logger : Logger) (heap : LogHeap) (val : String) :
    ∃ logger' heap', (if val ≠ "" then logger.setPattern val heap else (logger, heap)) =
        (logger', heap') ∧
      logger'.name = logger.name ∧ logger'.level = logger.level ∧
      (logger.formatter.isSome → logger'.formatter.isSome) ∧
      logger'.formatter.map LogFormatter.getPattern =
        (if LogFormatter.Usable val then some val
          else logger.formatter.map LogFormatter.getPattern) ∧
      heap'.appenders.length = heap.appenders.length ∧
      ∀ a, a ∉ logger.appenders → heap'.appenders[a]? = heap.appenders[a]? := by
  by_cases hempty : val = ""
  · rw [if_neg (not_not.mpr hempty), if_neg fun husable => husable.1 hempty]
    exact ⟨logger, heap, rfl, rfl, rfl, id, rfl, rfl, fun _ _ => rfl⟩
  -- a formatter that does not parse is dropped again
  · rw [if_pos hempty]
    cases herror : (heap.newFormatter val).1.isError with
    | true =>
      have hnot : ¬ LogFormatter.Usable val := fun husable =>
        Bool.false_ne_true (husable.2.symm.trans herror)
      rw [Logger.setPattern_of_error _ herror, if_neg hnot]
      exact ⟨logger, _, rfl, rfl, rfl, id, rfl, rfl, fun _ _ => rfl⟩
    | false =>
      rw [Logger.setPattern_of_valid _ herror, if_pos (show LogFormatter.Usable val from
        ⟨hempty, herror⟩)]
      refine ⟨_, _, rfl, rfl, rfl, fun _ => rfl, rfl, ?_, ?_⟩
      · exact Logger.length_propagate _ _ _
      · intro a ha
        have hget := Logger.getElem?_propagate (some (heap.newFormatter val).1) logger.appenders
          (heap.newFormatter val).2 a
        rw [if_neg ha] at hget
        exact hget

/-- An appender of a definition is made and added, and has its own pattern or that of the logger. -/
theorem addDefined_some {a : LogAppenderDefine} {kind : AppenderKind} (hkind : kindOf a = some kind)
    {logger : Logger} {heap : LogHeap} {p : String}
    (hp : logger.formatter.map LogFormatter.getPattern = some p) :
    ∃ ap : LogAppender, (addDefined (logger, heap) a).1 =
        { logger with appenders := logger.appenders ++ [heap.appenders.length] } ∧
      (addDefined (logger, heap) a).2.appenders = heap.appenders ++ [ap] ∧
      ap.view = {
        kind
        level := a.level
        pattern := some (if LogFormatter.Usable a.formatter then a.formatter else p) } := by
  -- the appender as it is when it is given to the logger
  have hadd : ∀ (ap : LogAppender) (heap' : LogHeap), heap'.appenders = heap.appenders →
      (logger.addAppender heap'.appenders.length (heap'.push ap)).1 =
          { logger with appenders := logger.appenders ++ [heap.appenders.length] } ∧
        (logger.addAppender heap'.appenders.length (heap'.push ap)).2.appenders =
          heap.appenders ++ [Logger.adopt logger.formatter ap] := by
    intro ap heap' hheap
    refine ⟨by rw [← hheap]; rfl, ?_⟩
    show (heap'.appenders ++ [ap]).modify heap'.appenders.length _ = _
    rw [hheap, List.modify_eq_set_getElem?]
    simp
  unfold addDefined
  rw [hkind]
  dsimp only
  by_cases hempty : a.formatter = ""
  · rw [if_neg (not_not.mpr hempty), if_neg fun husable => husable.1 hempty]
    rcases hadd { kind, level := a.level } heap rfl with ⟨hlogger, hheap⟩
    exact ⟨_, hlogger, hheap, by rw [Logger.view_adopt_of_none rfl, hp]⟩
  · rw [if_pos hempty]
    cases herror : (heap.newFormatter a.formatter).1.isError with
    | true =>
      have hnot : ¬ LogFormatter.Usable a.formatter := fun husable =>
        Bool.false_ne_true (husable.2.symm.trans herror)
      rcases hadd { kind, level := a.level } (heap.newFormatter a.formatter).2 rfl with
        ⟨hlogger, hheap⟩
      exact ⟨_, hlogger, hheap, by rw [Logger.view_adopt_of_none rfl, hp, if_neg hnot]⟩
    | false =>
      have husable : LogFormatter.Usable a.formatter := ⟨hempty, herror⟩
      rcases hadd (LogAppender.setFormatter (some (heap.newFormatter a.formatter).1)
        { kind, level := a.level }) (heap.newFormatter a.formatter).2 rfl with ⟨hlogger, hheap⟩
      refine ⟨_, hlogger, hheap, ?_⟩
      rw [Logger.adopt_of_formatter rfl, if_pos husable]
      rfl

/-- All appenders of a definition are made and added, in their order. -/
theorem addDefined_all (d : LogDefine) {logger : Logger} (heap : LogHeap) {p : String}
    (hp : logger.formatter.map LogFormatter.getPattern = some p) :
    ∃ aps : List LogAppender, (d.appenders.foldl addDefined (logger, heap)).1 =
        { logger with
          appenders := logger.appenders ++ List.range' heap.appenders.length aps.length } ∧
      (d.appenders.foldl addDefined (logger, heap)).2.appenders = heap.appenders ++ aps ∧
      aps.map LogAppender.view = d.appenderViews p := by
  unfold LogDefine.appenderViews
  -- `addDefined` takes the logger and the heap along, so both vary
  induction d.appenders generalizing logger heap with
  | nil => exact ⟨[], by simp, by simp, rfl⟩
  | cons a as ih =>
    rw [List.foldl_cons]
    cases hkind : kindOf a with
    | none =>
      have hskip : addDefined (logger, heap) a = (logger, heap) := by
        unfold addDefined
        rw [hkind]
      rcases ih heap hp with ⟨aps, hlogger, hheap, hviews⟩
      rw [hskip]
      refine ⟨aps, hlogger, hheap, ?_⟩
      rw [hviews, List.filterMap_cons, hkind]
      rfl
    | some kind =>
      rcases @addDefined_some a kind hkind logger heap p hp with ⟨ap, hlogger, hheap, hview⟩
      have hp' : (addDefined (logger, heap) a).1.formatter.map LogFormatter.getPattern = some p := by
        rw [hlogger]
        exact hp
      rcases ih (addDefined (logger, heap) a).2 hp' with ⟨aps, hlogger', hheap', hviews⟩
      refine ⟨ap :: aps, ?_, ?_, ?_⟩
      · rw [hlogger', hlogger, hheap]
        simp only [List.length_append, List.length_cons, List.length_nil, List.append_assoc]
        rw [List.range'_succ, List.singleton_append]
      · rw [hheap', hheap, List.append_assoc, List.singleton_append]
      · rw [List.map_cons, hview, hviews, List.filterMap_cons, hkind]
        rfl

def nextPattern (m : LoggerManager) (d : LogDefine) : String :=
  if LogFormatter.Usable d.formatter then d.formatter else m.patternOf d.name

/-- A logger that is configured shows its definition; the others show what they did. -/
theorem configure_spec {m : LoggerManager} (h : WellFormed m) (d : LogDefine) :
    WellFormed (m.configure d) ∧
      (m.configure d).view d.name = some (d.view (m.nextPattern d)) ∧
      ∀ name, name ≠ d.name → (m.configure d).view name = m.view name := by
  rcases getLogger_spec h d.name with ⟨logger, m₁, hget, h₁, hfound, -, hothers, hpattern⟩
  have hname : logger.name = d.name := h₁.named hfound
  rcases repattern_spec (logger.setLevel d.level) m₁.heap d.formatter with
    ⟨logger₂, heap₂, hset, hname₂, hlevel₂, hsome₂, hpattern₂, hlen₂, hkept₂⟩
  -- the pattern that the logger has now is the next one
  have hnext : logger₂.formatter.map LogFormatter.getPattern = some (m.nextPattern d) := by
    have hold : logger.formatter.map LogFormatter.getPattern = some (m.patternOf d.name) := by
      rcases Option.isSome_iff_exists.mp (h₁.formatter hfound) with ⟨f, hf⟩
      rw [← hpattern, patternOf, hfound, Option.bind_some, hf]
      rfl
    rw [hpattern₂, nextPattern]
    split
    · rfl
    · exact hold
  rcases addDefined_all d heap₂ (show logger₂.clearAppender.formatter.map _ = _ from hnext) with
    ⟨aps, hlogger, hheap, hviews⟩
  have hconfigure : m.configure d =
      m₁.store (d.appenders.foldl addDefined (logger₂.clearAppender, heap₂)).1
        (d.appenders.foldl addDefined (logger₂.clearAppender, heap₂)).2 := by
    unfold configure
    rw [hget]
    dsimp only
    rw [hset]
  have hstored : (d.appenders.foldl addDefined (logger₂.clearAppender, heap₂)).1.name = d.name := by
    rw [hlogger]
    exact hname₂.trans hname
  have hpointers : (d.appenders.foldl addDefined (logger₂.clearAppender, heap₂)).1.appenders =
      List.range' heap₂.appenders.length aps.length := by
    rw [hlogger]
    rfl
  rw [hconfigure]
  generalize d.appenders.foldl addDefined (logger₂.clearAppender, heap₂) = r at *
  refine ⟨?_, ?_, ?_⟩
  · -- the new appenders lie behind all older ones
    apply h₁.store
    · rw [hlogger]
      exact hsome₂ (show logger.formatter.isSome from h₁.formatter hfound)
    · rw [hheap, List.length_append]
      omega
    · intro a ha
      rw [hpointers, List.mem_range'_1] at ha
      rw [hheap, List.length_append]
      exact ha.2
    · intro name other hne hother a ha hin
      rw [hpointers, List.mem_range'_1] at hin
      have hlt := h₁.valid hother a ha
      omega
  · rw [← hstored, view_store_self]
    unfold Logger.view LogDefine.view
    rw [hpointers, ← hviews, hlogger]
    congr 1
    rw [LoggerView.mk.injEq]
    refine ⟨hlevel₂, hnext, ?_⟩
    apply List.ext_getElem?
    intro i
    simp only [List.getElem?_map]
    by_cases hi : i < aps.length
    · simp [hi, LogHeap.view, hheap]
    · simp [hi]
  · intro name hne
    rw [view_store_of_ne (by rw [hstored]; exact hne), hothers name hne]
    intro other hother a ha
    have hlt := h₁.valid hother a ha
    have hnot : a ∉ logger.appenders := h₁.apart hother hfound hne a ha
    rw [hheap, List.getElem?_append_left (by omega)]
    exact hkept₂ a hnot

/-- A logger whose definition is gone keeps its pattern; the others show what they did. -/
theorem retire_spec {m : LoggerManager} (h : WellFormed m) (d : LogDefine) :
    WellFormed (m.retire d) ∧ (∀ name, (m.retire d).patternOf name = m.patternOf name) ∧
      ∀ name, name ≠ d.name → (m.retire d).view name = m.view name := by
  rcases getLogger_spec h d.name with ⟨logger, m₁, hget, h₁, hfound, -, hothers, hpattern⟩
  have hname : logger.name = d.name := h₁.named hfound
  have hretire : m.retire d = m₁.store (logger.setLevel .unknown).clearAppender m₁.heap := by
    unfold retire
    rw [hget]
  have hrest : ∀ name, name ≠ d.name → (m.retire d).view name = m.view name := by
    intro name hne
    have hstored : name ≠ (logger.setLevel .unknown).clearAppender.name := by
      show name ≠ logger.name
      rw [hname]
      exact hne
    rw [hretire, view_store_of_ne hstored fun _ _ _ _ => rfl, hothers name hne]
  refine ⟨?_, ?_, hrest⟩
  · rw [hretire]
    exact h₁.store (show logger.formatter.isSome from h₁.formatter hfound) (Nat.le_refl _)
      (fun a ha => by cases ha) fun _ _ _ _ _ _ ha => by cases ha
  · intro name
    by_cases hne : name = d.name
    · have hstored := view_store_self m₁ (logger.setLevel .unknown).clearAppender m₁.heap
      rw [hne, hretire, ← hpattern, patternOf_of_view (hname ▸ hstored), patternOf, hfound]
      rfl
    · exact patternOf_congr (hrest name hne)

/-! ## The listener -/

/-- The first loop of the listener: what is new or changed is configured, and the rest stays. -/
theorem configureAll_spec (old_value : LogDefines) {ds : List LogDefine}
    (hnames : ds.Pairwise fun a b => a.name ≠ b.name) {m : LoggerManager} (h : WellFormed m) :
    let m' := ds.foldl (fun m i => if old_value.find i = some i then m else m.configure i) m
    WellFormed m' ∧
      (∀ d ∈ ds, m'.view d.name =
        if old_value.find d = some d then m.view d.name else some (d.view (m.nextPattern d))) ∧
      ∀ name, (∀ d ∈ ds, d.name ≠ name) → m'.view name = m.view name := by
  induction ds generalizing m with
  | nil => exact ⟨h, fun d hd => absurd hd List.not_mem_nil, fun _ _ => rfl⟩
  | cons i ds ih =>
    rcases List.pairwise_cons.mp hnames with ⟨hi, hds⟩
    dsimp only
    rw [List.foldl_cons]
    -- the first definition is settled here, and the others do not touch it
    have hfirst : ∃ m₁, (if old_value.find i = some i then m else m.configure i) = m₁ ∧
        WellFormed m₁ ∧
        m₁.view i.name =
          (if old_value.find i = some i then m.view i.name else some (i.view (m.nextPattern i))) ∧
        ∀ name, name ≠ i.name → m₁.view name = m.view name := by
      split
      · exact ⟨m, rfl, h, rfl, fun _ _ => rfl⟩
      · rcases configure_spec h i with ⟨hwf, hview, hothers⟩
        exact ⟨_, rfl, hwf, hview, hothers⟩
    rcases hfirst with ⟨m₁, heq, h₁, hview, hothers⟩
    rw [heq]
    rcases ih hds h₁ with ⟨hwf, hviews, hrest⟩
    refine ⟨hwf, ?_, ?_⟩
    · intro d hd
      rcases List.mem_cons.mp hd with rfl | hd
      · rw [hrest d.name fun e he => Ne.symm (hi e he), hview]
      · have hne := Ne.symm (hi d hd)
        rw [hviews d hd, hothers d.name hne, nextPattern, nextPattern,
          patternOf_congr (hothers d.name hne)]
    · intro name hname
      rw [hrest name fun d hd => hname d (List.mem_cons_of_mem i hd),
        hothers name (Ne.symm (hname i (by simp)))]

/-- The second loop: what is gone is retired, which changes no pattern. -/
theorem retireAll_spec (new_value : LogDefines) (ds : List LogDefine) {m : LoggerManager}
    (h : WellFormed m) :
    let m' := ds.foldl (fun m i => if new_value.find i = none then m.retire i else m) m
    WellFormed m' ∧ (∀ name, m'.patternOf name = m.patternOf name) ∧
      ∀ name, (∀ d ∈ ds, new_value.find d = none → d.name ≠ name) → m'.view name = m.view name := by
  induction ds generalizing m with
  | nil => exact ⟨h, fun _ => rfl, fun _ _ => rfl⟩
  | cons i ds ih =>
    dsimp only
    rw [List.foldl_cons]
    by_cases hgone : new_value.find i = none
    · rw [if_pos hgone]
      rcases retire_spec h i with ⟨h₁, hpatterns, hothers⟩
      rcases ih h₁ with ⟨hwf, hpatterns', hrest⟩
      refine ⟨hwf, fun name => (hpatterns' name).trans (hpatterns name), ?_⟩
      intro name hname
      rw [hrest name fun d hd => hname d (List.mem_cons_of_mem i hd),
        hothers name (Ne.symm (hname i (by simp) hgone))]
    · rw [if_neg hgone]
      rcases ih h with ⟨hwf, hpatterns, hrest⟩
      exact ⟨hwf, hpatterns, fun name hname =>
        hrest name fun d hd => hname d (List.mem_cons_of_mem i hd)⟩

end LoggerManager

namespace LogDefines

theorem names_ne (s : LogDefines) : s.elems.Pairwise fun a b => a.name ≠ b.name :=
  s.sorted.imp fun hlt => ne_of_lt hlt

theorem eq_of_name {s : LogDefines} {d e : LogDefine} (hd : d ∈ s.elems) (he : e ∈ s.elems)
    (hname : d.name = e.name) : d = e := by
  have hsymm : Std.Symm fun a b : LogDefine => a.name ≠ b.name := ⟨fun _ _ => Ne.symm⟩
  by_contra hne
  exact s.names_ne.forall hd he hne hname

/-- `find` looks at the name alone. -/
theorem find_eq_some {s : LogDefines} {i d : LogDefine} :
    s.find i = some d ↔ d ∈ s.elems ∧ d.name = i.name := by
  have hpred : ∀ e : LogDefine,
      (!decide (e.name < i.name) && !decide (i.name < e.name)) = decide (e.name = i.name) := by
    intro e
    rcases lt_trichotomy e.name i.name with hlt | heq | hlt
    · simp [hlt, ne_of_lt hlt]
    · simp [heq]
    · simp [hlt, ne_of_gt hlt]
  unfold find
  simp only [hpred]
  constructor
  · intro hfind
    have hname := List.find?_some hfind
    simp only [decide_eq_true_eq] at hname
    exact ⟨List.mem_of_find?_eq_some hfind, hname⟩
  · rintro ⟨hd, hname⟩
    cases hfind : s.elems.find? fun e => decide (e.name = i.name) with
    | none =>
      have hnone := List.find?_eq_none.mp hfind d hd
      exact absurd (decide_eq_true hname) hnone
    | some e =>
      have hename := List.find?_some hfind
      simp only [decide_eq_true_eq] at hename
      rw [eq_of_name (List.mem_of_find?_eq_some hfind) hd (hename.trans hname.symm)]

def usablePattern (s : LogDefines) (name : String) : Option String :=
  (s.elems.find? fun d => d.name = name).bind fun d =>
    if LogFormatter.Usable d.formatter then some d.formatter else none

theorem usablePattern_of_mem {s : LogDefines} {d : LogDefine} (hd : d ∈ s.elems) :
    s.usablePattern d.name = if LogFormatter.Usable d.formatter then some d.formatter else none := by
  unfold usablePattern
  cases hfind : s.elems.find? fun e => decide (e.name = d.name) with
  | none =>
    have hnone := List.find?_eq_none.mp hfind d hd
    simp at hnone
  | some e =>
    have hname := List.find?_some hfind
    simp only [decide_eq_true_eq] at hname
    rw [eq_of_name (List.mem_of_find?_eq_some hfind) hd hname]
    rfl

theorem usablePattern_of_not_mem {s : LogDefines} {name : String}
    (h : ∀ d ∈ s.elems, d.name ≠ name) : s.usablePattern name = none := by
  unfold usablePattern
  rw [List.find?_eq_none.mpr fun d hd => by simpa using h d hd]
  rfl

end LogDefines

namespace LogConfig

open LoggerManager

def reload (c : LogConfig) (hist : List LogDefines) : LogConfig := hist.foldl setValue c

def lastPattern (hist : List LogDefines) (name : String) : Option String :=
  hist.foldl (fun last s => (s.usablePattern name).or last) none

/-- What holds behind some reloads: the loggers have the last usable patterns, and those that are
defined show their definitions. -/
structure Settled (c : LogConfig) (last : String → Option String) : Prop where
  wellFormed : WellFormed c.manager
  patterns : ∀ name, c.manager.patternOf name = (last name).getD Logger.defaultPattern
  defined : ∀ d ∈ c.val.elems,
    c.manager.view d.name = some (d.view (c.manager.patternOf d.name)) ∧
      (LogFormatter.Usable d.formatter → c.manager.patternOf d.name = d.formatter)

theorem settled_new : Settled new fun _ => none := by
  have hroot : ∀ {name logger}, LoggerManager.new.loggers name = some logger →
      name = "root" ∧ logger.name = "root" ∧ logger.appenders = [0] ∧
        logger.formatter = some (LogFormatter.new 0 Logger.defaultPattern) := by
    intro name logger hlogger
    by_cases hname : name = "root"
    · have hfound : LoggerManager.new.loggers name = some _ := if_pos hname
      rw [hfound] at hlogger
      cases hlogger
      exact ⟨hname, rfl, rfl, rfl⟩
    · have hnone : LoggerManager.new.loggers name = none := if_neg hname
      rw [hnone] at hlogger
      cases hlogger
  refine ⟨⟨?_, ?_, ?_, ?_⟩, ?_, fun d hd => absurd hd List.not_mem_nil⟩
  · intro name logger hlogger
    rcases hroot hlogger with ⟨hname, hnamed, -⟩
    rw [hname, hnamed]
  · intro name logger hlogger
    rw [(hroot hlogger).2.2.2]
    rfl
  · intro name logger hlogger a ha
    rw [(hroot hlogger).2.2.1, List.mem_singleton] at ha
    rw [ha]
    exact Nat.zero_lt_one
  · intro name name' logger logger' hlogger hlogger' hne
    exact absurd ((hroot hlogger).1.trans (hroot hlogger').1.symm) hne
  · intro name
    show LoggerManager.new.patternOf name = Logger.defaultPattern
    unfold patternOf
    cases hlogger : LoggerManager.new.loggers name with
    | none => rfl
    | some logger =>
      rw [Option.bind_some, (hroot hlogger).2.2.2]
      rfl

/-- The listener settles on the new set, and the patterns follow its usable ones. -/
theorem Settled.setValue {c : LogConfig} {last : String → Option String} (h : Settled c last)
    (v : LogDefines) :
    Settled (c.setValue v) fun name => (v.usablePattern name).or (last name) := by
  unfold LogConfig.setValue
  by_cases hsame : v = c.val
  · -- nothing is done, and nothing is new
    rw [if_pos hsame]
    refine ⟨h.wellFormed, ?_, h.defined⟩
    intro name
    by_cases hname : ∃ d ∈ v.elems, d.name = name
    · rcases hname with ⟨d, hd, rfl⟩
      rw [LogDefines.usablePattern_of_mem hd]
      split
      · next husable => exact (h.defined d (hsame ▸ hd)).2 husable
      · exact h.patterns d.name
    · rw [LogDefines.usablePattern_of_not_mem fun d hd hdname => hname ⟨d, hd, hdname⟩]
      exact h.patterns name
  · rw [if_neg hsame]
    rcases configureAll_spec c.val v.names_ne h.wellFormed with ⟨h₁, hviews, hothers⟩
    rcases retireAll_spec v c.val.elems h₁ with ⟨h₂, hpatterns, hkept⟩
    have hlistener : (listener c.val v c.manager) = c.val.elems.foldl
        (fun m i => if v.find i = none then m.retire i else m)
        (v.elems.foldl (fun m i => if c.val.find i = some i then m else m.configure i) c.manager) :=
      rfl
    rw [← hlistener] at h₂ hpatterns hkept
    -- a definition of the new set is not retired
    have hview : ∀ d ∈ v.elems, (listener c.val v c.manager).view d.name =
        some (d.view (c.manager.nextPattern d)) := by
      intro d hd
      rw [hkept d.name, hviews d hd]
      · split
        · next hold =>
          have hin := (LogDefines.find_eq_some.mp hold).1
          rw [(h.defined d hin).1, nextPattern]
          split
          · next husable => rw [(h.defined d hin).2 husable]
          · rfl
        · rfl
      · intro e he hgone hname
        have hfound := LogDefines.find_eq_some.mpr ⟨hd, hname.symm⟩
        rw [hgone] at hfound
        cases hfound
    have hnext : ∀ d ∈ v.elems,
        (listener c.val v c.manager).patternOf d.name = c.manager.nextPattern d := by
      intro d hd
      rw [patternOf_of_view (hview d hd)]
      rfl
    refine ⟨h₂, ?_, ?_⟩
    · intro name
      by_cases hname : ∃ d ∈ v.elems, d.name = name
      · rcases hname with ⟨d, hd, rfl⟩
        show (listener c.val v c.manager).patternOf d.name = _
        rw [hnext d hd, LogDefines.usablePattern_of_mem hd, nextPattern]
        split
        · rfl
        · exact h.patterns d.name
      · have hnot : ∀ d ∈ v.elems, d.name ≠ name := fun d hd hdname => hname ⟨d, hd, hdname⟩
        show (listener c.val v c.manager).patternOf name = _
        rw [LogDefines.usablePattern_of_not_mem hnot, hpatterns, patternOf_congr (hothers name hnot)]
        exact h.patterns name
    · intro d hd
      show (listener c.val v c.manager).view d.name = some (d.view
        ((listener c.val v c.manager).patternOf d.name)) ∧ (LogFormatter.Usable d.formatter →
        (listener c.val v c.manager).patternOf d.name = d.formatter)
      rw [hnext d hd]
      exact ⟨hview d hd, fun husable => if_pos husable⟩

theorem settled_reload (hist : List LogDefines) :
    Settled (reload new hist) (lastPattern hist) := by
  have hall : ∀ (c : LogConfig) (last : String → Option String), Settled c last →
      Settled (reload c hist) fun name =>
        hist.foldl (fun last s => (s.usablePattern name).or last) (last name) := by
    induction hist with
    | nil => exact fun c last h => h
    | cons v hist ih => exact fun c last h => ih _ _ (h.setValue v)
  exact hall new _ settled_new

/-- The pattern of a logger that is defined in the last set. -/
theorem view_reload (hist : List LogDefines) {last : LogDefines} {d : LogDefine}
    (hd : d ∈ last.elems) :
    (reload new (hist ++ [last])).manager.view d.name = some (d.view
      (if LogFormatter.Usable d.formatter then d.formatter
        else (lastPattern hist d.name).getD Logger.defaultPattern)) := by
  have h := settled_reload (hist ++ [last])
  have hval : (reload new (hist ++ [last])).val = last := by
    unfold reload LogConfig.setValue
    rw [List.foldl_append, List.foldl_cons, List.foldl_nil]
    split
    · next hsame => exact hsame.symm
    · rfl
  have hlast : lastPattern (hist ++ [last]) d.name =
      (last.usablePattern d.name).or (lastPattern hist d.name) := by
    unfold lastPattern
    rw [List.foldl_append, List.foldl_cons, List.foldl_nil]
  have hdefined : d ∈ (reload new (hist ++ [last])).val.elems := by
    rw [hval]
    exact hd
  rw [(h.defined d hdefined).1, h.patterns, hlast, LogDefines.usablePattern_of_mem hd]
  split <;> rfl

/-- The loggers of the last set look as if it were the only one. -/
def PathIndependent (hist : List LogDefines) (last : LogDefines) : Prop :=
  ∀ d ∈ last.elems, (reload new (hist ++ [last])).manager.view d.name =
    (reload new [last]).manager.view d.name

/-- A definition without a usable pattern must not find another one than the default behind. -/
theorem path_independent_iff (hist : List LogDefines) (last : LogDefines) :
    PathIndependent hist last ↔ ∀ d ∈ last.elems, ¬ LogFormatter.Usable d.formatter →
      ∀ p, lastPattern hist d.name = some p → p = Logger.defaultPattern := by
  have hiff : ∀ d ∈ last.elems, ((reload new (hist ++ [last])).manager.view d.name =
      (reload new [last]).manager.view d.name ↔ (¬ LogFormatter.Usable d.formatter →
        ∀ p, lastPattern hist d.name = some p → p = Logger.defaultPattern)) := by
    intro d hd
    have halone := view_reload [] hd
    rw [List.nil_append] at halone
    rw [view_reload hist hd, halone]
    -- a usable pattern replaces whatever is there; without one the last pattern stays
    by_cases husable : LogFormatter.Usable d.formatter
    · rw [if_pos husable, if_pos husable]
      exact ⟨fun _ hnot => absurd husable hnot, fun _ => rfl⟩
    · rw [if_neg husable, if_neg husable]
      constructor
      · intro heq _ p hp
        have hpattern := congrArg LoggerView.pattern (Option.some.inj heq)
        rw [hp] at hpattern
        exact Option.some.inj hpattern
      · intro hdefault
        cases hlast : lastPattern hist d.name with
        | none => rfl
        | some p =>
          rw [hdefault husable p hlast]
          rfl
  exact ⟨fun h d hd => (hiff d hd).mp (h d hd), fun h d hd => (hiff d hd).mpr (h d hd)⟩

def systemDefines : LogDefines :=
  ⟨[{ name := "system", level := .info, formatter := "%m%n" }], List.pairwise_singleton _ _⟩

def plainDefines : LogDefines :=
  ⟨[{ name := "system", level := .info }], List.pairwise_singleton _ _⟩

/-- A logger that is defined with a pattern and then without one keeps the first. -/
theorem pattern_left_behind :
    (reload new [systemDefines, plainDefines]).manager.patternOf "system" = "%m%n" ∧
      ¬ PathIndependent [systemDefines] plainDefines := by
  have husable : LogFormatter.Usable "%m%n" := by decide +kernel
  have hpattern : lastPattern [systemDefines] "system" = some "%m%n" := by
    have hin : { name := "system", level := .info, formatter := "%m%n" } ∈ systemDefines.elems :=
      List.mem_cons_self
    have hfirst := LogDefines.usablePattern_of_mem hin
    rw [if_pos husable] at hfirst
    rw [lastPattern, List.foldl_cons, hfirst]
    rfl
  have hin : { name := "system", level := .info } ∈ plainDefines.elems := List.mem_cons_self
  have hempty : ¬ LogFormatter.Usable "" := fun h => h.1 rfl
  have hboth := view_reload [systemDefines] hin
  have halone := view_reload [] hin
  rw [if_neg hempty] at hboth halone
  rw [hpattern] at hboth
  refine ⟨patternOf_of_view hboth, fun hindependent => ?_⟩
  have heq := hboth.symm.trans ((hindependent _ hin).trans halone)
  exact absurd (congrArg LoggerView.pattern (Option.some.inj heq)) (by decide)

end LogConfig

end Azure
