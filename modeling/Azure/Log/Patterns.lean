import Azure.Log.Formatter
import Mathlib.Data.List.TakeWhile

/-!
# What a pattern renders (`LogFormatter::init`, `LogFormatter::format`)

A pattern is a list of pieces: characters, escaped percent signs and directives.  The loop of `init`
holds a format back until it has seen whether an argument follows, but puts an escaped percent sign to
the text at once, so the two can change places.
-/

namespace Azure

/-! ## Rendering -/

/-- `i->format(ss, logger, level, event)`; `output` is what the items of `s_format_items` write for
the event. -/
def FormatItem.format (output : FormatClass → String → String) : FormatItem → String
  | string str => str
  | item cls fmt => output cls fmt

def LogFormatter.format (f : LogFormatter) (output : FormatClass → String → String) : String :=
  f.items.foldl (fun ss i => ss ++ i.format output) ""

inductive Rendered where
  | char (c : Char)
  | output (cls : FormatClass) (arg : String)
  deriving DecidableEq, Repr

namespace Rendered

def text (out : FormatClass → String → String) : Rendered → List Char
  | char c => [c]
  | output cls arg => (out cls arg).toList

def render (out : FormatClass → String → String) (rs : List Rendered) : List Char :=
  rs.flatMap (text out)

theorem render_append (out : FormatClass → String → String) (rs rs' : List Rendered) :
    render out (rs ++ rs') = render out rs ++ render out rs' :=
  List.flatMap_append

theorem render_chars (out : FormatClass → String → String) (cs : List Char) :
    render out (cs.map char) = cs := by
  induction cs with
  | nil => rfl
  | cons c cs ih => simpa [render, text] using ih

/-- When every item writes one character, the text is as long as the sequence. -/
theorem length_render (x : Char) (rs : List Rendered) :
    (render (fun _ _ => String.singleton x) rs).length = rs.length := by
  induction rs with
  | nil => rfl
  | cons r rs ih =>
    have hone : (text (fun _ _ => String.singleton x) r).length = 1 := by cases r <;> simp [text]
    rw [render] at ih ⊢
    rw [List.flatMap_cons, List.length_append, ih, hone, List.length_cons, Nat.add_comm]

/-- An output that differs from the first character tells where the item stands. -/
theorem exists_render_ne (before : List Rendered) (cls : FormatClass) {ss : List Char}
    (hne : ss ≠ []) : ∃ out, render out (before ++ ss.map char ++ [.output cls ""]) ≠
      render out (before ++ .output cls "" :: ss.map char) := by
  obtain ⟨c, cs, rfl⟩ := List.exists_cons_of_ne_nil hne
  obtain ⟨x, hx⟩ : ∃ x : Char, c ≠ x := by
    by_cases hc : c = 'x'
    · exact ⟨'y', by rw [hc]; decide⟩
    · exact ⟨'x', hc⟩
  refine ⟨fun _ _ => String.singleton x, fun hsame => ?_⟩
  rw [List.append_assoc, render_append, render_append _ before, List.append_cancel_left_eq] at hsame
  have hhead := congrArg List.head? hsame
  simp [render, text] at hhead
  exact hx hhead

end Rendered

def FormatItem.rendered : FormatItem → List Rendered
  | string str => str.toList.map .char
  | item cls fmt => [.output cls fmt]

theorem LogFormatter.toList_format (f : LogFormatter) (out : FormatClass → String → String) :
    (f.format out).toList = Rendered.render out (f.items.flatMap FormatItem.rendered) := by
  have hitem : ∀ i : FormatItem,
      (i.format out).toList = Rendered.render out i.rendered := by
    intro i
    cases i with
    | string str => exact (Rendered.render_chars out str.toList).symm
    | item cls fmt => simp [FormatItem.format, FormatItem.rendered, Rendered.render, Rendered.text]
  have hfold : ∀ (items : List FormatItem) (ss : String),
      (items.foldl (fun ss i => ss ++ i.format out) ss).toList =
        ss.toList ++ Rendered.render out (items.flatMap FormatItem.rendered) := by
    intro items
    induction items with
    | nil => intro ss; simp [Rendered.render]
    | cons i items ih =>
      intro ss
      rw [List.foldl_cons, ih, String.toList_append, hitem, List.flatMap_cons,
        Rendered.render_append, List.append_assoc]
  exact hfold f.items ""

/-! ## Patterns -/

/-- A character, `%%`, or a letter behind a percent sign, with its argument if there is one. -/
inductive PatternPiece where
  | literal (c : Char)
  | escape
  | directive (c : Char) (arg : Option String)
  deriving DecidableEq, Repr

namespace PatternPiece

def text : PatternPiece → List Char
  | literal c => [c]
  | escape => ['%', '%']
  | directive c none => ['%', c]
  | directive c (some arg) => '%' :: c :: '\x7b' :: arg.toList ++ ['\x7d']

def rendered : PatternPiece → List Rendered
  | literal c => [.char c]
  | escape => [.char '%']
  | directive c arg =>
    ((formatItems.lookup (String.singleton c)).map fun cls => .output cls (arg.getD "")).toList

def Known : PatternPiece → Prop
  | literal c => c ≠ '%'
  | escape => True
  | directive c arg =>
    (formatItems.lookup (String.singleton c)).isSome ∧ ∀ a ∈ arg, '\x7d' ∉ a.toList

instance (p : PatternPiece) : Decidable p.Known := by
  cases p with
  | literal c => exact inferInstanceAs (Decidable (c ≠ '%'))
  | escape => exact .isTrue trivial
  | directive c arg => exact inferInstanceAs (Decidable (_ ∧ ∀ a ∈ arg, '\x7d' ∉ a.toList))

def isBare : PatternPiece → Bool
  | directive _ none => true
  | _ => false

end PatternPiece

/-- The pieces are what they seem: a brace behind a letter opens its argument. -/
def WellCut : List PatternPiece → Prop
  | [] => True
  | p :: ps => p.Known ∧ (p.isBare → ps.head? ≠ some (.literal '\x7b')) ∧ WellCut ps

instance decidableWellCut : (ps : List PatternPiece) → Decidable (WellCut ps)
  | [] => .isTrue trivial
  | _ :: ps =>
    have := decidableWellCut ps
    inferInstanceAs (Decidable (_ ∧ _ ∧ _))

def EscapesToEnd (n : Nat) (ps : List PatternPiece) : Prop :=
  ∃ after, ps = List.replicate n .escape ++ after ∧
    (after = [] ∨ after.head? = some (.literal '\x7b'))

/-- Behind a directive without an argument come escapes, and then the end or an open brace. -/
def Displaced (ps : List PatternPiece) : Prop :=
  ∃ before c n, ∃ after, ps = before ++ .directive c none :: after ∧ EscapesToEnd (n + 1) after

structure LogPattern where
  pieces : List PatternPiece
  wellCut : WellCut pieces

namespace LogPattern

def text (p : LogPattern) : String := String.ofList (p.pieces.flatMap PatternPiece.text)

def rendered (p : LogPattern) : List Rendered := p.pieces.flatMap PatternPiece.rendered

/-- The formatter is not in error and writes, for every event, what the pattern says. -/
def Parses (address : Nat) (p : LogPattern) : Prop :=
  (LogFormatter.new address p.text).isError = false ∧
    ∀ out, ((LogFormatter.new address p.text).format out).toList = Rendered.render out p.rendered

def Displaces (p : LogPattern) : Prop := Displaced p.pieces

end LogPattern

namespace FormatScan

def loopFor : Nat → List Char → FormatScan → Option FormatScan
  | _, [], s => some s
  | 0, _ :: _, _ => none
  | n + 1, c :: rest, s => loopFor n (turn c rest s).1 (turn c rest s).2

/-- A turn takes a character of the pattern, or the format that was pending. -/
theorem loopFor_of_le {n : Nat} {pattern : List Char} {s : FormatScan}
    (hn : 2 * pattern.length + (if s.fmt = "" then 0 else 1) ≤ n) :
    loopFor n pattern s = some (loop pattern s) := by
  induction n generalizing pattern s with
  | zero =>
    cases pattern with
    | nil => rw [loopFor, loop]
    | cons c rest =>
      rw [List.length_cons] at hn
      omega
  | succ n ih =>
    cases pattern with
    | nil => rw [loopFor, loop]
    | cons c rest =>
      rw [loopFor, loop]
      apply ih
      rcases turn_shortens c rest s with hlt | ⟨heq, hfmt, hclear⟩
      · rw [List.length_cons] at hn
        split <;> split at hn <;> omega
      -- the index stays where it is, but the format is gone
      · rw [heq, hclear, if_pos rfl]
        rw [if_neg hfmt] at hn
        omega

/-! ## The turns at a piece -/

section Turns

variable {s : FormatScan} {c : Char} {rest : List Char}

theorem loop_literal (hc : c ≠ '%') (hfmt : s.fmt = "") : loop (c :: rest) s = loop rest (s.put c) := by
  rw [loop, turn, if_neg hc, if_pos hfmt]

theorem loop_literal_pending (hc : c ≠ '%') (hbrace : c ≠ '\x7b') (hfmt : s.fmt ≠ "") :
    loop (c :: rest) s = loop rest ((s.pushFmt "").put c) := by
  rw [loop, turn, if_neg hc, if_neg hfmt, if_pos hbrace]

theorem loop_escape : loop ('%' :: '%' :: rest) s = loop rest (s.put '%') := by
  rw [loop, turn, if_pos rfl, percent]

theorem loop_format (hc : c ≠ '%') (hfmt : s.fmt = "") :
    loop ('%' :: c :: rest) s = loop rest { s.pushText with fmt := String.singleton c } := by
  rw [loop, turn, if_pos rfl, percent, if_neg (not_not.mpr hfmt)]
  exact hc

theorem loop_format_pending (hc : c ≠ '%') (hfmt : s.fmt ≠ "") :
    loop ('%' :: c :: rest) s =
      loop rest { (s.pushFmt "").pushText with fmt := String.singleton c } := by
  rw [loop, turn, if_pos rfl, percent, if_pos hfmt]
  · exact loop_format hc rfl
  · exact hc

theorem loop_argument (rest : List Char) {arg : List Char} (harg : '\x7d' ∉ arg) (hfmt : s.fmt ≠ "") :
    loop ('\x7b' :: (arg ++ '\x7d' :: rest)) s = loop rest (s.pushFmt (String.ofList arg)) := by
  have hall : ∀ x ∈ arg, decide (x ≠ '\x7d') = true := fun x hx => by
    rw [decide_eq_true_eq]
    rintro rfl
    exact harg hx
  have hdrop : (arg ++ '\x7d' :: rest).dropWhile (· ≠ '\x7d') = '\x7d' :: rest := by
    rw [List.dropWhile_append_of_pos hall]
    rfl
  have htake : (arg ++ '\x7d' :: rest).takeWhile (· ≠ '\x7d') = arg := by
    rw [List.takeWhile_append_of_pos hall]
    simp
  rw [loop, turn, if_neg (by decide), if_neg hfmt, if_neg (by decide), hdrop, htake]

theorem loop_open (hrest : '\x7d' ∉ rest) (hfmt : s.fmt ≠ "") :
    (loop ('\x7b' :: rest) s).error = true := by
  have hdrop : rest.dropWhile (· ≠ '\x7d') = [] := by
    rw [List.dropWhile_eq_nil_iff]
    intro x hx
    rw [decide_eq_true_eq]
    rintro rfl
    exact hrest hx
  rw [loop, turn, if_neg (by decide), if_neg hfmt, if_neg (by decide), hdrop, loop]
  rfl

end Turns

/-! ## What has been read -/

def Sound (s : FormatScan) : Prop := s.error = false ∧ ∀ e ∈ s.vec, (FormatEntry.item e).2 = true

def done (s : FormatScan) : List Rendered := s.vec.flatMap fun e => (FormatEntry.item e).1.rendered

def held (s : FormatScan) (arg : String) : List Rendered :=
  ((formatItems.lookup s.fmt).map fun cls => .output cls arg).toList

/-- What the pattern up to here renders: the format that is held back stands before the text. -/
def read (s : FormatScan) : List Rendered := s.done ++ s.held "" ++ s.ss.toList.map .char

structure Ready (s : FormatScan) : Prop where
  sound : s.Sound
  known : s.fmt ≠ "" → (formatItems.lookup s.fmt).isSome

theorem Sound.push {s : FormatScan} (h : s.Sound) {e : FormatEntry}
    (he : (FormatEntry.item e).2 = true) : (s.push e).Sound := by
  refine ⟨h.1, fun e' he' => ?_⟩
  rcases List.mem_append.mp he' with hold | hnew
  · exact h.2 e' hold
  · rw [List.mem_singleton.mp hnew]
    exact he

theorem done_push (s : FormatScan) (e : FormatEntry) :
    (s.push e).done = s.done ++ (FormatEntry.item e).1.rendered := by
  simp [done, push]

theorem Ready.put {s : FormatScan} (h : s.Ready) (c : Char) : (s.put c).Ready := ⟨h.sound, h.known⟩

theorem read_put (s : FormatScan) (c : Char) : (s.put c).read = s.read ++ [.char c] := by
  simp [read, put, done, held, String.toList_push]

theorem Ready.item {s : FormatScan} (h : s.Ready) (hfmt : s.fmt ≠ "") (arg : String) :
    ∃ cls, FormatEntry.item (s.fmt, arg, 1) = (.item cls arg, true) ∧
      s.held arg = [.output cls arg] := by
  obtain ⟨cls, hcls⟩ := Option.isSome_iff_exists.mp (h.known hfmt)
  exact ⟨cls, by simp [FormatEntry.item, hcls], by simp [held, hcls]⟩

theorem Ready.pushFmt {s : FormatScan} (h : s.Ready) (hfmt : s.fmt ≠ "") (arg : String) :
    (s.pushFmt arg).Ready := by
  obtain ⟨cls, hitem, -⟩ := h.item hfmt arg
  have hsound := h.sound.push (e := (s.fmt, arg, 1)) (by rw [hitem])
  exact ⟨hsound, fun hne => absurd rfl hne⟩

theorem read_pushFmt {s : FormatScan} (h : s.Ready) (hfmt : s.fmt ≠ "") (arg : String) :
    (s.pushFmt arg).read = s.done ++ s.held arg ++ s.ss.toList.map .char := by
  obtain ⟨cls, hitem, hheld⟩ := h.item hfmt arg
  have hdone : (s.pushFmt arg).done = s.done ++ s.held arg := by
    rw [hheld]
    show (s.push (s.fmt, arg, 1)).done = _
    rw [done_push, hitem]
    rfl
  have hnone : (s.pushFmt arg).held "" = [] := by
    show ((formatItems.lookup "").map _).toList = _
    rw [show formatItems.lookup "" = none from by decide]
    rfl
  rw [read, hdone, hnone, List.append_nil]
  rfl

theorem item_text (str : String) : FormatEntry.item (str, "", 0) = (.string str, true) := rfl

theorem Ready.pushText {s : FormatScan} (h : s.Ready) : s.pushText.Ready := by
  rw [FormatScan.pushText]
  split
  · exact h
  · exact ⟨h.sound.push (by rw [item_text]), h.known⟩

theorem pushText_fields (s : FormatScan) :
    s.pushText.done = s.done ++ s.ss.toList.map .char ∧ s.pushText.fmt = s.fmt ∧
      s.pushText.ss = "" := by
  rw [FormatScan.pushText]
  split
  · next hss => simp [hss]
  · exact ⟨done_push s (s.ss, "", 0), rfl, rfl⟩

/-- A format begins when none is held back. -/
theorem Ready.begin {s : FormatScan} (h : s.Ready) (hfmt : s.fmt = "") {c : Char} {cls : FormatClass}
    (hc : formatItems.lookup (String.singleton c) = some cls) :
    Ready { s.pushText with fmt := String.singleton c } ∧
      read { s.pushText with fmt := String.singleton c } = s.read ++ [.output cls ""] := by
  obtain ⟨hdone, -, hss⟩ := s.pushText_fields
  refine ⟨⟨h.pushText.sound, fun _ => by simp [hc]⟩, ?_⟩
  have hheld : held { s.pushText with fmt := String.singleton c } "" = [.output cls ""] := by
    simp [held, hc]
  have hnone : s.held "" = [] := by
    rw [held, hfmt, show formatItems.lookup "" = none from by decide]
    rfl
  rw [read, hheld, read, hnone, List.append_nil, ← hdone]
  show s.pushText.done ++ _ ++ s.pushText.ss.toList.map .char = _
  rw [hss]
  simp

/-! ## Pieces -/

def phase (s : FormatScan) : Option Bool := if s.fmt = "" then none else some (s.ss ≠ "")

def nextPhase : Option Bool → PatternPiece → Option Bool
  | held, .escape => held.map fun _ => true
  | _, .directive _ none => some false
  | _, _ => none

/-- Text stands behind a format that is held back at the end, or a format takes a brace. -/
def Trapped : Option Bool → List PatternPiece → Prop
  | held, [] => held = some true
  | held, p :: ps => held.isSome ∧ p = .literal '\x7b' ∨ Trapped (nextPhase held p) ps

theorem letter_ne {c x : Char} (hc : (formatItems.lookup (String.singleton c)).isSome)
    (hx : formatItems.lookup (String.singleton x) = none) : c ≠ x := by
  rintro rfl
  rw [hx] at hc
  cases hc

/-- Every piece but a brace behind a format is read for what it is. -/
theorem loop_piece {p : PatternPiece} (hp : p.Known) {s : FormatScan} (h : s.Ready)
    (hbrace : s.fmt ≠ "" → p ≠ .literal '\x7b') (rest : List Char) :
    ∃ s', loop (p.text ++ rest) s = loop rest s' ∧ s'.Ready ∧ s'.read = s.read ++ p.rendered ∧
      s'.phase = nextPhase s.phase p := by
  -- a format that is held back goes to `vec` first
  have hflush : s.fmt ≠ "" → (s.pushFmt "").Ready ∧ (s.pushFmt "").read = s.read := fun hfmt =>
    ⟨h.pushFmt hfmt "", read_pushFmt h hfmt ""⟩
  cases p with
  | literal c =>
    by_cases hfmt : s.fmt = ""
    · refine ⟨s.put c, loop_literal hp hfmt, h.put c, read_put s c, ?_⟩
      exact if_pos hfmt
    · obtain ⟨hready, hread⟩ := hflush hfmt
      have hc : c ≠ '\x7b' := fun heq => hbrace hfmt (by rw [heq])
      refine ⟨(s.pushFmt "").put c, loop_literal_pending hp hc hfmt, hready.put c, ?_, rfl⟩
      rw [read_put, hread]
      rfl
  | escape =>
    refine ⟨s.put '%', loop_escape, h.put '%', read_put s '%', ?_⟩
    have hss : (s.put '%').ss ≠ "" := by simp [put]
    simp only [phase, nextPhase]
    show (if s.fmt = "" then none else some (decide ((s.put '%').ss ≠ ""))) = _
    rw [decide_eq_true hss]
    split <;> rfl
  | directive c arg =>
    obtain ⟨hletter, harg⟩ := hp
    obtain ⟨cls, hcls⟩ := Option.isSome_iff_exists.mp hletter
    have hpercent : c ≠ '%' := letter_ne hletter (by decide)
    have hfmt' : String.singleton c ≠ "" := by
      intro heq
      have := congrArg String.toList heq
      simp at this
    -- the format that is held back when its letter has been read
    obtain ⟨s', hloop, hready, hread, hletter', hss⟩ : ∃ s' : FormatScan,
        (∀ rest, loop ('%' :: c :: rest) s = loop rest s') ∧ s'.Ready ∧
          s'.read = s.read ++ [.output cls ""] ∧ s'.fmt = String.singleton c ∧ s'.ss = "" := by
      by_cases hfmt : s.fmt = ""
      · obtain ⟨hready, hread⟩ := h.begin hfmt hcls
        exact ⟨_, fun _ => loop_format hpercent hfmt, hready, hread, rfl, s.pushText_fields.2.2⟩
      · obtain ⟨hready, hread⟩ := (hflush hfmt).1.begin rfl hcls
        rw [(hflush hfmt).2] at hread
        exact ⟨_, fun _ => loop_format_pending hpercent hfmt, hready, hread, rfl,
          (s.pushFmt "").pushText_fields.2.2⟩
    have hdone : s'.done = s.read := by
      have hheld : s'.held "" = [.output cls ""] := by rw [held, hletter', hcls]; rfl
      rw [FormatScan.read, hheld, hss] at hread
      simpa using hread
    cases arg with
    | none =>
      refine ⟨s', hloop rest, hready, ?_, ?_⟩
      · rw [hread]
        simp [PatternPiece.rendered, hcls]
      · rw [phase, hletter', hss, if_neg hfmt']
        rfl
    | some arg =>
      have hnone : s'.fmt ≠ "" := by rw [hletter']; exact hfmt'
      refine ⟨s'.pushFmt arg, ?_, hready.pushFmt hnone arg, ?_, rfl⟩
      · have hopen := loop_argument rest (s := s') (harg arg rfl) hnone
        rw [String.ofList_toList] at hopen
        show loop ('%' :: c :: '\x7b' :: ((arg.toList ++ ['\x7d']) ++ rest)) s = _
        rw [hloop, List.append_assoc]
        exact hopen
      · have hheld : s'.held arg = [.output cls arg] := by rw [held, hletter', hcls]; rfl
        rw [read_pushFmt hready hnone, hheld, hdone, hss]
        simp [PatternPiece.rendered, hcls]

/-- The first closing brace ends a piece. -/
theorem split_brace {ps : List PatternPiece} (hps : WellCut ps)
    (hmem : '\x7d' ∈ ps.flatMap PatternPiece.text) :
    ∃ arg ps', ps.flatMap PatternPiece.text = arg ++ '\x7d' :: ps'.flatMap PatternPiece.text ∧
      '\x7d' ∉ arg ∧ WellCut ps' ∧ ps'.length < ps.length := by
  induction ps with
  | nil => cases hmem
  | cons p ps ih =>
    obtain ⟨hp, -, hrest⟩ := hps
    -- no brace in this piece
    have hlater : '\x7d' ∉ p.text → ∃ arg ps', (p :: ps).flatMap PatternPiece.text =
        arg ++ '\x7d' :: ps'.flatMap PatternPiece.text ∧ '\x7d' ∉ arg ∧ WellCut ps' ∧
          ps'.length < (p :: ps).length := by
      intro hnot
      rw [List.flatMap_cons, List.mem_append] at hmem
      obtain ⟨arg, ps', htext, harg, hcut, hlt⟩ := ih hrest (hmem.resolve_left hnot)
      refine ⟨p.text ++ arg, ps', ?_, ?_, hcut, Nat.lt_succ_of_lt hlt⟩
      · rw [List.flatMap_cons, htext, List.append_assoc]
      · rw [List.mem_append]
        exact fun h => h.elim hnot harg
    cases p with
    | literal c =>
      by_cases hc : c = '\x7d'
      · subst hc
        exact ⟨[], ps, rfl, List.not_mem_nil, hrest, Nat.lt_succ_self _⟩
      · exact hlater (by simpa [PatternPiece.text] using Ne.symm hc)
    | escape => exact hlater (by decide)
    | directive c arg =>
      have hc : c ≠ '\x7d' := letter_ne hp.1 (by decide)
      cases arg with
      | none => exact hlater (by simpa [PatternPiece.text] using Ne.symm hc)
      | some arg =>
        refine ⟨'%' :: c :: '\x7b' :: arg.toList, ps, ?_, ?_, hrest, Nat.lt_succ_self _⟩
        · simp [PatternPiece.text]
        · have harg := hp.2 arg rfl
          simpa [Ne.symm hc] using harg

theorem length_rendered {ps : List PatternPiece} (hps : WellCut ps) :
    (ps.flatMap PatternPiece.rendered).length = ps.length := by
  induction ps with
  | nil => rfl
  | cons p ps ih =>
    have hone : p.rendered.length = 1 := by
      cases p with
      | literal c => rfl
      | escape => rfl
      | directive c arg =>
        obtain ⟨cls, hcls⟩ := Option.isSome_iff_exists.mp hps.1.1
        simp [PatternPiece.rendered, hcls]
    rw [List.flatMap_cons, List.length_append, hone, ih hps.2.2, List.length_cons, Nat.add_comm]

/-! ## The whole pattern -/

def Right (s : FormatScan) (e : List Rendered) : Prop := s.Sound ∧ s.done = e

/-- The entries are in error, or they render less than `e`, or a text before its format. -/
def Wrong (s : FormatScan) (e : List Rendered) : Prop :=
  s.error = true ∨ s.done.length < e.length ∨
    ∃ before cls ss, ss ≠ [] ∧ s.done = before ++ ss.map .char ++ [.output cls ""] ∧
      e = before ++ .output cls "" :: ss.map .char

/-- Behind the loop. -/
theorem finish_outcome {s : FormatScan} (h : s.Ready) :
    (s.phase ≠ some true → s.finish.Right s.read) ∧ (s.phase = some true → s.finish.Wrong s.read) := by
  obtain ⟨hdone, hfmt, hss⟩ := s.pushText_fields
  by_cases hempty : s.fmt = ""
  · have hheld : s.held "" = [] := by
      rw [held, hempty, show formatItems.lookup "" = none from by decide]
      rfl
    have hfinish : s.finish = s.pushText := by
      rw [finish]
      exact if_neg (by rw [hfmt, hempty]; simp)
    rw [hfinish, phase, if_pos hempty]
    refine ⟨fun _ => ⟨h.pushText.sound, ?_⟩, fun hphase => by cases hphase⟩
    rw [hdone, FormatScan.read, hheld, List.append_nil]
  -- the text is pushed before the format, although it stood behind it
  · obtain ⟨cls, hitem, hheld⟩ := h.item hempty ""
    have hfinish : s.finish = s.pushText.push (s.fmt, "", 1) := by
      rw [finish]
      exact (if_pos (by rw [hfmt]; exact hempty)).trans (by rw [hfmt])
    have hlast : s.finish.done = s.done ++ s.ss.toList.map .char ++ [.output cls ""] := by
      rw [hfinish, done_push, hitem, hdone]
      rfl
    rw [phase, if_neg hempty]
    constructor
    · intro hphase
      have hnone : s.ss = "" := by simpa using hphase
      refine ⟨?_, ?_⟩
      · rw [hfinish]
        exact h.pushText.sound.push (by rw [hitem])
      · rw [hlast, FormatScan.read, hheld, hnone]
        simp
    · intro hphase
      have hsome : s.ss ≠ "" := by simpa using hphase
      refine .inr (.inr ⟨s.done, cls, s.ss.toList, ?_, hlast, ?_⟩)
      · simpa using hsome
      · rw [FormatScan.read, hheld]
        simp

theorem Right.wrong {s : FormatScan} {e e' : List Rendered} (h : s.Right e)
    (hlt : e.length < e'.length) : s.Wrong e' := by
  refine .inr (.inl ?_)
  rw [h.2]
  exact hlt

theorem Wrong.longer {s : FormatScan} {e e' : List Rendered} (h : s.Wrong e)
    (hlt : e.length < e'.length) : s.Wrong e' := by
  rcases h with herror | hshort | ⟨before, cls, ss, hne, hdone, he⟩
  · exact .inl herror
  · exact .inr (.inl (Nat.lt_trans hshort hlt))
  · -- a text in front of its format: nothing is lost but the order
    have hsame : s.done.length = e.length := by
      rw [hdone, he]
      simp only [List.length_append, List.length_cons, List.length_nil, List.length_map]
      omega
    exact .inr (.inl (by rwa [hsame]))

theorem error_finish {s : FormatScan} (h : s.error = true) : s.finish.error = true := by
  have hpush : s.pushText.error = true := by
    rw [FormatScan.pushText]
    split <;> exact h
  rw [finish]
  show (if s.pushText.fmt ≠ "" then s.pushText.push (s.pushText.fmt, "", 1)
    else s.pushText).error = true
  split <;> exact hpush

/-- An argument that was not meant as one renders less than its brace and what it takes with it. -/
theorem length_argument {s : FormatScan} (h : s.Ready) (hfmt : s.fmt ≠ "") (arg : String)
    {ps ps' : List PatternPiece} (hcut : WellCut (.literal '\x7b' :: ps)) (hcut' : WellCut ps')
    (hlt : ps'.length < ps.length) :
    ((s.pushFmt arg).read ++ ps'.flatMap PatternPiece.rendered).length <
      (s.read ++ (.literal '\x7b' :: ps).flatMap PatternPiece.rendered).length := by
  obtain ⟨cls, -, hheld⟩ := h.item hfmt arg
  obtain ⟨cls', -, hheld'⟩ := h.item hfmt ""
  have hlength := length_rendered hcut
  rw [List.length_append, List.length_append, hlength, length_rendered hcut',
    read_pushFmt h hfmt, FormatScan.read, hheld, hheld']
  simp only [List.length_append, List.length_cons]
  omega

theorem isBare_of_nextPhase {held : Option Bool} {p : PatternPiece}
    (h : nextPhase held p = some false) : p.isBare := by
  cases p with
  | literal c => cases h
  | escape => cases held <;> cases h
  | directive c arg =>
    cases arg with
    | none => rfl
    | some arg => cases h

/-- From a piece on: `n` bounds the pieces that are left, and a format that takes a brace leaves out
at least two of them. -/
theorem outcome (n : Nat) : ∀ {ps : List PatternPiece} {s : FormatScan}, ps.length ≤ n → WellCut ps →
    s.Ready → (s.phase = some false → ps.head? ≠ some (.literal '\x7b')) →
    (¬ Trapped s.phase ps →
      (loop (ps.flatMap PatternPiece.text) s).finish.Right (s.read ++ ps.flatMap PatternPiece.rendered)) ∧
    (Trapped s.phase ps →
      (loop (ps.flatMap PatternPiece.text) s).finish.Wrong
        (s.read ++ ps.flatMap PatternPiece.rendered)) := by
  induction n with
  | zero =>
    intro ps s hlen hcut hready hhead
    obtain rfl := List.length_eq_zero_iff.mp (Nat.le_zero.mp hlen)
    have hend := finish_outcome hready
    rw [List.flatMap_nil, List.flatMap_nil, loop, List.append_nil]
    exact hend
  | succ n ih =>
    intro ps s hlen hcut hready hhead
    cases ps with
    | nil =>
      have hend := finish_outcome hready
      rw [List.flatMap_nil, List.flatMap_nil, loop, List.append_nil]
      exact hend
    | cons p ps =>
      have hwhole := hcut
      obtain ⟨hp, hbare, hrest⟩ := hcut
      rw [List.length_cons] at hlen
      by_cases hbrace : s.fmt ≠ "" ∧ p = .literal '\x7b'
      · -- the format takes what follows for its argument
        obtain ⟨hfmt, rfl⟩ := hbrace
        have htrapped : Trapped s.phase (.literal '\x7b' :: ps) := by
          refine .inl ⟨?_, rfl⟩
          rw [phase, if_neg hfmt]
          rfl
        refine ⟨fun hnot => absurd htrapped hnot, fun _ => ?_⟩
        show Wrong (loop ('\x7b' :: ps.flatMap PatternPiece.text) s).finish _
        by_cases hclose : '\x7d' ∈ ps.flatMap PatternPiece.text
        · obtain ⟨arg, ps', htext, harg, hcut', hlt⟩ := split_brace hrest hclose
          have hless := length_argument hready hfmt (String.ofList arg) hwhole hcut' hlt
          have hready' := hready.pushFmt hfmt (String.ofList arg)
          have hboth := @ih ps' _ (by omega) hcut' hready' (fun hphase => by cases hphase)
          rw [htext, loop_argument _ harg hfmt]
          by_cases htrap : Trapped (s.pushFmt (String.ofList arg)).phase ps'
          · exact (hboth.2 htrap).longer hless
          · exact (hboth.1 htrap).wrong hless
        · exact .inl (error_finish (loop_open hclose hfmt))
      · obtain ⟨s', hloop, hready', hread, hphase⟩ := loop_piece hp hready
          (fun hfmt heq => hbrace ⟨hfmt, heq⟩) (ps.flatMap PatternPiece.text)
        have hhead' : s'.phase = some false → ps.head? ≠ some (.literal '\x7b') := by
          intro hfalse
          rw [hphase] at hfalse
          exact hbare (isBare_of_nextPhase hfalse)
        have hboth := @ih ps _ (by omega) hrest hready' hhead'
        have htrap : Trapped s.phase (p :: ps) ↔ Trapped s'.phase ps := by
          rw [Trapped, hphase]
          constructor
          · rintro (⟨hsome, heq⟩ | hnext)
            · refine absurd ⟨?_, heq⟩ hbrace
              intro hfmt
              rw [phase, if_pos hfmt] at hsome
              cases hsome
            · exact hnext
          · exact .inr
        rw [htrap, List.flatMap_cons, hloop, List.flatMap_cons, ← List.append_assoc, ← hread]
        exact hboth

end FormatScan

/-! ## Where text and format change places -/

theorem escapesToEnd_cons (p : PatternPiece) (ps : List PatternPiece) :
    (∃ n, EscapesToEnd n (p :: ps)) ↔
      p = .literal '\x7b' ∨ p = .escape ∧ ∃ n, EscapesToEnd n ps := by
  constructor
  · rintro ⟨n, after, heq, hend⟩
    cases n with
    | zero =>
      rw [List.replicate_zero, List.nil_append] at heq
      subst heq
      rcases hend with hnil | hhead
      · cases hnil
      · exact .inl (Option.some.inj hhead)
    | succ n =>
      rw [List.replicate_succ, List.cons_append, List.cons.injEq] at heq
      exact .inr ⟨heq.1, n, after, heq.2, hend⟩
  · rintro (rfl | ⟨rfl, n, after, rfl, hend⟩)
    · exact ⟨0, _, rfl, .inr rfl⟩
    · exact ⟨n + 1, after, rfl, hend⟩

theorem escapesToEnd_succ_cons (p : PatternPiece) (ps : List PatternPiece) :
    (∃ n, EscapesToEnd (n + 1) (p :: ps)) ↔ p = .escape ∧ ∃ n, EscapesToEnd n ps := by
  constructor
  · rintro ⟨n, after, heq, hend⟩
    rw [List.replicate_succ, List.cons_append, List.cons.injEq] at heq
    exact ⟨heq.1, n, after, heq.2, hend⟩
  · rintro ⟨rfl, n, after, rfl, hend⟩
    exact ⟨n, after, rfl, hend⟩

theorem displaced_cons (p : PatternPiece) (ps : List PatternPiece) :
    Displaced (p :: ps) ↔ p.isBare ∧ (∃ n, EscapesToEnd (n + 1) ps) ∨ Displaced ps := by
  constructor
  · rintro ⟨before, c, n, after, heq, hend⟩
    cases before with
    | nil =>
      rw [List.nil_append, List.cons.injEq] at heq
      exact .inl ⟨by rw [heq.1]; rfl, n, heq.2 ▸ hend⟩
    | cons q before =>
      rw [List.cons_append, List.cons.injEq] at heq
      exact .inr ⟨before, c, n, after, heq.2, hend⟩
  · rintro (⟨hbare, n, hend⟩ | ⟨before, c, n, after, rfl, hend⟩)
    · cases p with
      | literal c => cases hbare
      | escape => cases hbare
      | directive c arg =>
        cases arg with
        | none => exact ⟨[], c, n, ps, rfl, hend⟩
        | some arg => cases hbare
    · exact ⟨p :: before, c, n, after, rfl, hend⟩

theorem not_displaced_nil : ¬ Displaced [] := by
  rintro ⟨before, c, n, after, heq, -⟩
  simp at heq

/-- What is trapped, by what is held back in front of the pieces. -/
theorem FormatScan.trapped_iff {ps : List PatternPiece} (hps : WellCut ps) :
    (Trapped none ps ↔ Displaced ps) ∧
      (Trapped (some true) ps ↔ (∃ n, EscapesToEnd n ps) ∨ Displaced ps) ∧
      (ps.head? ≠ some (.literal '\x7b') →
        (Trapped (some false) ps ↔ (∃ n, EscapesToEnd (n + 1) ps) ∨ Displaced ps)) := by
  induction ps with
  | nil =>
    have hnone : ¬ ∃ n, EscapesToEnd (n + 1) [] := by
      rintro ⟨n, after, heq, -⟩
      simp [List.replicate_succ] at heq
    refine ⟨by simp [Trapped, not_displaced_nil], ?_, fun _ => ?_⟩
    · exact iff_of_true rfl (.inl ⟨0, [], rfl, .inl rfl⟩)
    · exact iff_of_false (by simp [Trapped]) (fun h => h.elim hnone not_displaced_nil)
  | cons p ps ih =>
    obtain ⟨hp, hbare, hrest⟩ := hps
    obtain ⟨hclean, htrue, hfalse⟩ := ih hrest
    simp only [Trapped, displaced_cons, escapesToEnd_cons, escapesToEnd_succ_cons]
    cases p with
    | literal c =>
      simp [nextPhase, PatternPiece.isBare, hclean]
      exact fun hne heq => absurd heq hne
    | escape => simp [nextPhase, PatternPiece.isBare, hclean, htrue]
    | directive c arg =>
      cases arg with
      | none => simp [nextPhase, PatternPiece.isBare, hfalse (hbare rfl)]
      | some arg => simp [nextPhase, PatternPiece.isBare, hclean]

namespace LogFormatter

theorem new_items (address : Nat) (pattern : String) :
    (new address pattern).items.flatMap FormatItem.rendered =
      (FormatScan.loop pattern.toList {}).finish.done := by
  simp [new, FormatScan.done, List.flatMap_map]

theorem isError_new (address : Nat) (pattern : String) :
    (new address pattern).isError = false ↔ (FormatScan.loop pattern.toList {}).finish.Sound := by
  simp [new, isError, FormatScan.Sound]

end LogFormatter

namespace LogPattern

/-- A pattern is cut into what it says exactly when no escape gets behind the format it follows; for
every pattern the loop ends. -/
theorem parses_iff (p : LogPattern) (address : Nat) :
    (∀ pattern : String, FormatScan.loopFor (2 * pattern.toList.length) pattern.toList {} =
      some (FormatScan.loop pattern.toList {})) ∧
    (p.Parses address ↔ ¬ p.Displaces) := by
  refine ⟨fun pattern => FormatScan.loopFor_of_le (by simp), ?_⟩
  have hready : FormatScan.Ready {} := ⟨⟨rfl, fun e he => by cases he⟩, fun hne => absurd rfl hne⟩
  have hboth := FormatScan.outcome p.pieces.length (Nat.le_refl _) p.wellCut hready
    (fun hphase => by cases hphase)
  have hdisplaced : FormatScan.Trapped (FormatScan.phase {}) p.pieces ↔ p.Displaces :=
    (FormatScan.trapped_iff p.wellCut).1
  have hread : FormatScan.read {} = [] := rfl
  rw [hdisplaced, hread, List.nil_append] at hboth
  have hformat := LogFormatter.toList_format (LogFormatter.new address p.text)
  have htext : p.text.toList = p.pieces.flatMap PatternPiece.text := String.toList_ofList
  rw [LogFormatter.new_items, htext] at hformat
  have herror := LogFormatter.isError_new address p.text
  rw [htext] at herror
  constructor
  · rintro ⟨hok, hout⟩ hdis
    -- the error flag, the length or the order gives it away
    rcases hboth.2 hdis with hfail | hshort | ⟨before, cls, ss, hne, hdone, he⟩
    · rw [(herror.mp hok).1] at hfail
      cases hfail
    · have hlengths := congrArg List.length ((hformat _).symm.trans (hout fun _ _ => "x"))
      exact absurd hlengths (by
        rw [show "x" = String.singleton 'x' from rfl, Rendered.length_render, Rendered.length_render]
        exact Nat.ne_of_lt hshort)
    · obtain ⟨out, hne'⟩ := Rendered.exists_render_ne before cls hne
      have he' : p.rendered = before ++ .output cls "" :: ss.map .char := he
      exact hne' (by rw [← hdone, ← he', ← hformat, hout])
  · intro hnot
    obtain ⟨hsound, hdone⟩ := hboth.1 hnot
    refine ⟨herror.mpr hsound, fun out => ?_⟩
    rw [hformat, hdone]
    rfl

def messagePercent : LogPattern := ⟨[.directive 'm' none, .escape], by decide⟩

/-- The percent sign comes first. -/
theorem percent_first : messagePercent.text = "%m%%" ∧
    (LogFormatter.new 0 messagePercent.text).items = [.string "%", .item .message ""] ∧
    ¬ messagePercent.Parses 0 := by
  have htext : messagePercent.text = "%m%%" := by decide +kernel
  have hitems : (LogFormatter.new 0 "%m%%").items = [.string "%", .item .message ""] := by
    decide +kernel
  refine ⟨htext, by rw [htext, hitems], fun hparses => ?_⟩
  have hout := hparses.2 fun _ _ => "hi"
  rw [LogFormatter.toList_format, htext, hitems] at hout
  exact absurd hout (by decide)

end LogPattern

end Azure
