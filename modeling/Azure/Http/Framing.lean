import Azure.Http.Dump
import Azure.Http.Receive
import Mathlib.Data.List.DropRight

/-!
# The framing of written messages

The length of a body is written without a look at what the other fields of the message have brought
into the header block.
-/

namespace Azure

def lineOf (text : Bytes) : Bytes := text.takeWhile (· ≠ 10)

def linesBehind : Bytes → List Bytes
  | [] => []
  | b :: text => (if b = 10 then [lineOf text] else []) ++ linesBehind text

/-- A text cut at its line feeds; a carriage return in front of one stays at the end of its line. -/
def splitLines (text : Bytes) : List Bytes := lineOf text :: linesBehind text

def nameOf (line : Bytes) : Bytes := line.takeWhile (· ≠ 58)

def isLengthLine (line : Bytes) : Bool :=
  line.contains 58 && (nameOf line).map tolower = ascii "content-length".toList

def isblank (b : UInt8) : Bool := b = 32 ∨ b = 9 ∨ b = 13

def trim (v : Bytes) : Bytes := (v.dropWhile isblank).rdropWhile isblank

def numberOf (v : Bytes) : Option Nat :=
  if trim v ≠ [] ∧ (trim v).all isdigit then some (leadingDigits 10 0 (trim v)) else none

def lengthOf (line : Bytes) : Option Nat := numberOf (line.drop ((nameOf line).length + 1))

def lengthsOf (lines : List Bytes) : List (Option Nat) := (lines.filter isLengthLine).map lengthOf

def headerBlock (dump body : Bytes) : Bytes := dump.take (dump.length - body.length)

/-- The header block says how long the body is, once and correctly. -/
def Framed (block body : Bytes) : Prop :=
  (lengthsOf (splitLines block)).length ≤ 1 ∧
    (body ≠ [] → lengthsOf (splitLines block) = [some body.length]) ∧
    (body = [] → ∀ n ∈ lengthsOf (splitLines block), n = some 0)

/-! ## Lengths in the fields of a message -/

/-- The lengths on the lines that begin in a part of a start line.  What follows the part is no digit, so
that the last of these lines announces no number. -/
def lengthsIn (part : Bytes) : List (Option Nat) := lengthsOf (linesBehind (part ++ [63]))

/-- The lengths that the headers but the connection bring, with a line end in a name or a value or without
one. -/
def HeaderMap.lengths (m : HeaderMap) : List (Option Nat) :=
  (List.filter (fun e => !strcaseeq e.1 (ascii "connection".toList)) m).flatMap fun e =>
    lengthsOf (splitLines (e.1 ++ 58 :: 32 :: e.2))

def HttpRequest.lengths (req : HttpRequest) : List (Option Nat) :=
  lengthsIn req.path ++ lengthsIn req.query ++ lengthsIn req.fragment ++ req.headers.lengths

def HttpResponse.lengths (rsp : HttpResponse) : List (Option Nat) :=
  lengthsOf (linesBehind rsp.reason) ++ rsp.headers.lengths

/-- The fields bring no length of their own; a single zero does no harm when there is no body. -/
def BringsNoLength (lengths : List (Option Nat)) (body : Bytes) : Prop :=
  lengths = [] ∨ body = [] ∧ lengths = [some 0]

def HeaderMap.Plain (m : HeaderMap) : Prop := ∀ e ∈ m, (10 ∉ e.1 ∧ 58 ∉ e.1) ∧ 10 ∉ e.2

structure HttpRequest.Plain (req : HttpRequest) : Prop where
  path : 10 ∉ req.path
  query : 10 ∉ req.query
  fragment : 10 ∉ req.fragment
  headers : req.headers.Plain

structure HttpResponse.Plain (rsp : HttpResponse) : Prop where
  reason : 10 ∉ rsp.reason
  headers : rsp.headers.Plain

def HeaderMap.lengthValues (m : HeaderMap) : List (Option Nat) :=
  (List.filter (fun e => decide (e.1.map tolower = ascii "content-length".toList)) m).map fun e =>
    numberOf e.2

/-! ## Lines -/

theorem lineOf_of_not_mem {u : Bytes} (h : 10 ∉ u) (text : Bytes) : lineOf (u ++ text) = u ++ lineOf text := by
  refine List.takeWhile_append_of_pos fun b hb => ?_
  simpa using fun heq : b = 10 => h (heq ▸ hb)

/-- The line ends within the text. -/
theorem lineOf_of_mem {u : Bytes} (h : 10 ∈ u) (text : Bytes) : lineOf (u ++ text) = lineOf u := by
  induction u with
  | nil => cases h
  | cons b u ih =>
    by_cases hb : b = 10
    · rw [hb]
      rfl
    · have hrest := ih ((List.mem_cons.mp h).resolve_left (Ne.symm hb))
      rw [lineOf] at hrest ⊢
      rw [List.cons_append, List.takeWhile_cons_of_pos (by simpa using hb), hrest, lineOf, lineOf,
        List.takeWhile_cons_of_pos (by simpa using hb)]

theorem linesBehind_of_not_mem {u : Bytes} (h : 10 ∉ u) (text : Bytes) :
    linesBehind (u ++ text) = linesBehind text := by
  induction u with
  | nil => rfl
  | cons b u ih =>
    rw [List.mem_cons, not_or] at h
    rw [List.cons_append, linesBehind, if_neg (Ne.symm h.1), List.nil_append, ih h.2]

theorem linesBehind_eq_nil {u : Bytes} (h : 10 ∉ u) : linesBehind u = [] := by
  have hall := linesBehind_of_not_mem h []
  rwa [List.append_nil] at hall

theorem splitLines_eq (text : Bytes) : splitLines text = linesBehind (10 :: text) := rfl

/-- A line feed separates the lines before it from those behind it. -/
theorem linesBehind_append (text rest : Bytes) :
    linesBehind (text ++ 10 :: rest) = linesBehind text ++ splitLines rest := by
  induction text with
  | nil => rfl
  | cons b text ih =>
    have hline : lineOf (text ++ 10 :: rest) = lineOf text := by
      by_cases hmem : 10 ∈ text
      · exact lineOf_of_mem hmem _
      · have hnil := lineOf_of_not_mem hmem []
        rw [List.append_nil] at hnil
        rw [lineOf_of_not_mem hmem, hnil]
        rfl
    rw [List.cons_append, linesBehind, linesBehind, ih, hline, List.append_assoc]

theorem lengthsOf_append (ls ls' : List Bytes) : lengthsOf (ls ++ ls') = lengthsOf ls ++ lengthsOf ls' := by
  rw [lengthsOf, List.filter_append, List.map_append]
  rfl

/-- What goes on behind a text changes the last of its lines. -/
theorem lengthsOf_linesBehind {c c' rest : Bytes} (hc : 10 ∉ c) (hc' : 10 ∉ c')
    (h : ∀ u, lengthsOf [u ++ c ++ lineOf rest] = lengthsOf [u ++ c']) (text : Bytes) :
    lengthsOf (linesBehind (text ++ (c ++ rest))) =
      lengthsOf (linesBehind (text ++ c')) ++ lengthsOf (linesBehind rest) := by
  induction text with
  | nil =>
    rw [List.nil_append, List.nil_append, linesBehind_of_not_mem hc, linesBehind_eq_nil hc']
    rfl
  | cons b text ih =>
    have hline : lengthsOf [lineOf (text ++ (c ++ rest))] = lengthsOf [lineOf (text ++ c')] := by
      by_cases hmem : 10 ∈ text
      · rw [lineOf_of_mem hmem, lineOf_of_mem hmem]
      · have hnil := lineOf_of_not_mem hc' []
        rw [List.append_nil] at hnil
        rw [lineOf_of_not_mem hmem, lineOf_of_not_mem hmem, lineOf_of_not_mem hc, ← List.append_assoc, h,
          hnil]
        exact congrArg (fun v => lengthsOf [text ++ v]) (List.append_nil c').symm
    rw [List.cons_append, List.cons_append, linesBehind, linesBehind, lengthsOf_append,
      lengthsOf_append, ih,
      ← List.append_assoc]
    congr 2
    split
    · exact hline
    · rfl

/-! ## Names and values -/

def foreign (b : UInt8) : Bool := b ≠ 58 && !(ascii "content-length".toList).contains (tolower b)

theorem isLengthLine_of_foreign {u : Bytes} (hu : 58 ∉ u) {b : UInt8} (hb : foreign b = true) (text : Bytes) :
    isLengthLine (u ++ b :: text) = false := by
  simp only [foreign, ne_eq, decide_not, Bool.and_eq_true, Bool.not_eq_true', decide_eq_false_iff_not] at hb
  have hname : nameOf (u ++ b :: text) = u ++ b :: nameOf text := by
    rw [nameOf, List.takeWhile_append_of_pos fun a ha => by simpa using fun heq : a = 58 => hu (heq ▸ ha),
      List.takeWhile_cons_of_pos (by simpa using hb.1)]
    rfl
  rw [isLengthLine, hname, Bool.and_eq_false_iff]
  right
  rw [decide_eq_false_iff_not]
  intro heq
  have hmem : tolower b ∈ ascii "content-length".toList := by
    rw [← heq, List.map_append, List.map_cons]
    exact List.mem_append_right _ List.mem_cons_self
  rw [← List.contains_iff_mem, hb.2] at hmem
  cases hmem

theorem nameOf_of_mem {u : Bytes} (h : 58 ∈ u) (text : Bytes) : nameOf (u ++ text) = nameOf u := by
  induction u with
  | nil => cases h
  | cons b u ih =>
    by_cases hb : b = 58
    · rw [hb]
      rfl
    · have hrest := ih ((List.mem_cons.mp h).resolve_left (Ne.symm hb))
      rw [nameOf] at hrest ⊢
      rw [List.cons_append, List.takeWhile_cons_of_pos (by simpa using hb), hrest, nameOf, nameOf,
        List.takeWhile_cons_of_pos (by simpa using hb)]

theorem nameOf_length_lt {u : Bytes} (h : 58 ∈ u) : (nameOf u).length < u.length := by
  induction u with
  | nil => cases h
  | cons b u ih =>
    by_cases hb : b = 58
    · rw [hb]
      exact Nat.zero_lt_succ _
    · have hrest := ih ((List.mem_cons.mp h).resolve_left (Ne.symm hb))
      rw [nameOf] at hrest
      rw [nameOf, List.takeWhile_cons_of_pos (by simpa using hb), List.length_cons, List.length_cons]
      omega

/-- Behind a colon a line goes on with its value. -/
theorem lengthsOf_of_mem {u : Bytes} (h : 58 ∈ u) {text text' : Bytes}
    (hvalue : ∀ v, numberOf (v ++ text) = numberOf (v ++ text')) :
    lengthsOf [u ++ text] = lengthsOf [u ++ text'] := by
  have hline (text : Bytes) : isLengthLine (u ++ text) = isLengthLine u := by
    rw [isLengthLine, isLengthLine, nameOf_of_mem h, List.contains_iff_mem.mpr h,
      List.contains_iff_mem.mpr (List.mem_append_left text h)]
  have hlength (text : Bytes) : lengthOf (u ++ text) = numberOf (u.drop ((nameOf u).length + 1) ++ text) := by
    rw [lengthOf, nameOf_of_mem h, List.drop_append_of_le_length (nameOf_length_lt h)]
  rw [lengthsOf, lengthsOf, List.filter_cons, List.filter_cons, hline, hline]
  split
  · rw [List.map_cons, List.map_cons, hlength, hlength, hvalue]
  · rfl

theorem mem_trim {v : Bytes} {b : UInt8} (hb : b ∈ v) (hblank : isblank b = false) : b ∈ trim v := by
  have hdrop (w : Bytes) (hw : b ∈ w) : b ∈ w.dropWhile isblank := by
    rw [← List.takeWhile_append_dropWhile (p := isblank) (l := w), List.mem_append] at hw
    refine hw.resolve_left fun htake => ?_
    rw [List.mem_takeWhile_imp htake] at hblank
    cases hblank
  rw [trim, List.rdropWhile, List.mem_reverse]
  exact hdrop _ (List.mem_reverse.mpr (hdrop v hb))

theorem numberOf_eq_none {v : Bytes} {b : UInt8} (hb : b ∈ v) (hblank : isblank b = false)
    (hdigit : isdigit b = false) : numberOf v = none := by
  refine if_neg fun h => ?_
  rw [List.all_eq_true.mp h.2 b (mem_trim hb hblank)] at hdigit
  cases hdigit

/-- A carriage return at the end of a value does not count. -/
theorem numberOf_snoc (v : Bytes) : numberOf (v ++ [13]) = numberOf v := by
  have htrim : trim (v ++ [13]) = trim v := by
    rw [trim, trim, List.dropWhile_append]
    split
    · next hempty =>
      rw [List.isEmpty_iff] at hempty
      rw [hempty]
      rfl
    · exact List.rdropWhile_concat_pos isblank _ _ rfl
  rw [numberOf, numberOf, htrim]

structure GoesOn (c : Bytes) : Prop where
  feed : 10 ∉ c
  first : ∃ b cs, c = b :: cs ∧ foreign b = true
  junk : ∃ b ∈ c, isblank b = false ∧ isdigit b = false

theorem GoesOn.lengthsOf_append {c : Bytes} (h : GoesOn c) (text rest : Bytes) :
    lengthsOf (linesBehind (text ++ (c ++ rest))) = lengthsIn text ++ lengthsOf (linesBehind rest) := by
  obtain ⟨b, cs, rfl, hb⟩ := h.first
  obtain ⟨b', hb', hblank, hdigit⟩ := h.junk
  refine lengthsOf_linesBehind h.feed (by decide) (fun u => ?_) text
  by_cases hu : 58 ∈ u
  · rw [List.append_assoc]
    refine lengthsOf_of_mem hu fun v => ?_
    rw [numberOf_eq_none (List.mem_append_right v (List.mem_append_left _ hb')) hblank hdigit,
      numberOf_eq_none (List.mem_append_right v (List.mem_singleton.mpr rfl)) (by decide) (by decide)]
  · rw [lengthsOf, lengthsOf, List.append_assoc, List.cons_append,
      List.filter_cons_of_neg (by rw [isLengthLine_of_foreign hu hb]; exact Bool.false_ne_true),
      List.filter_cons_of_neg (by
        rw [isLengthLine_of_foreign hu (show foreign 63 = true by decide)]; exact Bool.false_ne_true)]

/-- The line end that is written behind a text. -/
theorem lengthsOf_crlf (text rest : Bytes) :
    lengthsOf (splitLines (text ++ 13 :: 10 :: rest)) =
      lengthsOf (splitLines text) ++ lengthsOf (splitLines rest) := by
  have hreturn := @lengthsOf_linesBehind [13] [] [] (by decide) List.not_mem_nil ?_ (10 :: text)
  · have hsplit : splitLines (text ++ 13 :: 10 :: rest) = splitLines (text ++ [13]) ++ splitLines rest := by
      rw [splitLines_eq, splitLines_eq, ← List.cons_append, ← List.cons_append, ← linesBehind_append,
        List.append_assoc]
      rfl
    rw [List.append_nil, List.append_nil, show linesBehind [] = [] from rfl] at hreturn
    rw [hsplit, lengthsOf_append, splitLines_eq, splitLines_eq text, ← List.cons_append, hreturn]
    exact congrArg (· ++ _) (List.append_nil _)
  · intro u
    rw [show lineOf [] = [] from rfl, List.append_nil]
    by_cases hu : 58 ∈ u
    · exact lengthsOf_of_mem hu fun v => by rw [numberOf_snoc, List.append_nil]
    · have hnone : isLengthLine u = false := by
        rw [isLengthLine, Bool.and_eq_false_iff]
        left
        rwa [← Bool.not_eq_true, List.contains_iff_mem]
      rw [List.append_nil, lengthsOf, lengthsOf, List.filter_cons_of_neg (by
        rw [isLengthLine_of_foreign hu (show foreign 13 = true by decide)]; exact Bool.false_ne_true),
        List.filter_cons_of_neg (by rw [hnone]; exact Bool.false_ne_true)]

theorem lengthsOf_flatMap (lines : List Bytes) (rest : Bytes) :
    lengthsOf (splitLines ((lines.flatMap fun l => l ++ crlf) ++ rest)) =
      (lines.flatMap fun l => lengthsOf (splitLines l)) ++ lengthsOf (splitLines rest) := by
  induction lines with
  | nil => rfl
  | cons l ls ih =>
    have hsplit : ((l :: ls).flatMap fun l => l ++ crlf) ++ rest =
        l ++ 13 :: 10 :: ((ls.flatMap fun l => l ++ crlf) ++ rest) := by
      simp [crlf]
    rw [hsplit, lengthsOf_crlf, ih, List.flatMap_cons, List.append_assoc]

theorem feed_not_mem_decimal (n : Nat) : 10 ∉ decimal n := fun h =>
  absurd (digit_of_mem_decimal h).1 (by decide)

theorem numberOf_decimal (n : Nat) : numberOf (32 :: decimal n) = some n := by
  have hblank : ∀ b ∈ decimal n, isblank b = false := by
    intro b hb
    have hlow := UInt8.le_iff_toNat_le.mp (digit_of_mem_decimal hb).1
    simp only [UInt8.reduceToNat] at hlow
    simp only [isblank, decide_eq_false_iff_not, not_or]
    refine ⟨?_, ?_, ?_⟩ <;> rintro rfl <;> simp only [UInt8.reduceToNat] at hlow <;> omega
  have htrim : trim (32 :: decimal n) = decimal n := by
    have hdrop : (32 :: decimal n).dropWhile isblank = decimal n := by
      rw [List.dropWhile_cons_of_pos rfl]
      exact List.dropWhile_eq_self_iff.mpr fun hpos => by
        simpa using hblank _ (List.getElem_mem hpos)
    rw [trim, hdrop, List.rdropWhile_eq_self_iff]
    intro hne
    simpa using hblank _ (List.getLast_mem hne)
  rw [numberOf, htrim, if_pos ⟨decimal_ne_nil n, decimal_all n⟩, leadingDigits_decimal]

/-! ## Written messages -/

/-- A line that begins with something else than the name. -/
theorem lengthsOf_line {u : Bytes} (hfeed : 10 ∉ u) (hcolon : 58 ∉ u) {b : UInt8} (hb : foreign b = true)
    (hne : b ≠ 10) (text : Bytes) : lengthsOf [lineOf (u ++ b :: text)] = [] := by
  have hline : lineOf (u ++ b :: text) = u ++ b :: lineOf text := by
    rw [lineOf_of_not_mem hfeed, lineOf, List.takeWhile_cons_of_pos (by simpa using hne)]
    rfl
  rw [hline, lengthsOf, List.filter_cons_of_neg (by
    rw [isLengthLine_of_foreign hcolon hb]; exact Bool.false_ne_true)]
  rfl

theorem lengthsOf_connectionLine (close : Bool) : lengthsOf (splitLines (connectionLine close)) = [] := by
  cases close <;> decide

theorem method_plain (m : HttpMethod) : 10 ∉ m.toString ∧ 58 ∉ m.toString := by
  cases m <;> decide

/-- A text that begins with what may follow a part of a start line, and the lengths behind its beginning. -/
def Follows (text : Bytes) (lengths : List (Option Nat)) : Prop :=
  ∃ c rest, text = c ++ rest ∧ GoesOn c ∧ lengthsOf (linesBehind rest) = lengths

theorem Follows.lengthsOf_append {text : Bytes} {lengths : List (Option Nat)} (h : Follows text lengths)
    (part : Bytes) : lengthsOf (linesBehind (part ++ text)) = lengthsIn part ++ lengths := by
  obtain ⟨c, rest, rfl, hc, hrest⟩ := h
  rw [hc.lengthsOf_append, hrest]

/-- A part that is left out when it is empty. -/
theorem Follows.part {text : Bytes} {lengths : List (Option Nat)} (h : Follows text lengths) (part : Bytes)
    {mark : Bytes} (hmark : GoesOn mark) :
    Follows ((if part = [] then [] else mark) ++ (part ++ text)) (lengthsIn part ++ lengths) := by
  by_cases hpart : part = []
  · rw [if_pos hpart, hpart]
    exact h
  · rw [if_neg hpart]
    exact ⟨mark, part ++ text, rfl, hmark, h.lengthsOf_append part⟩

theorem follows_version (version : UInt8) : Follows (32 :: versionText version) [] := by
  refine ⟨32 :: versionText version, [], (List.append_nil _).symm, ⟨?_, ⟨_, _, rfl, by decide⟩, 72, ?_, ?_⟩, rfl⟩
  · simp [versionText, feed_not_mem_decimal, ascii]
  · simp [versionText, ascii]
  · decide

theorem lengthsOf_startLine (req : HttpRequest) :
    lengthsOf (splitLines req.startLine) =
      lengthsIn req.path ++ lengthsIn req.query ++ lengthsIn req.fragment := by
  obtain ⟨hfeed, hcolon⟩ := method_plain req.method
  have hquestion : GoesOn (ascii ['?']) := ⟨by decide, ⟨_, _, rfl, by decide⟩, ⟨63, by decide, by decide⟩⟩
  have hsharp : GoesOn (ascii ['#']) := ⟨by decide, ⟨_, _, rfl, by decide⟩, ⟨35, by decide, by decide⟩⟩
  have htarget := (((follows_version req.version).part req.fragment hsharp).part req.query
    hquestion).lengthsOf_append req.path
  obtain ⟨target, htext⟩ : ∃ target, req.path ++ ((if req.query = [] then [] else ascii ['?']) ++
      (req.query ++ ((if req.fragment = [] then [] else ascii ['#']) ++
        (req.fragment ++ 32 :: versionText req.version)))) = target := ⟨_, rfl⟩
  have hline : req.startLine = req.method.toString ++ 32 :: target := by
    rw [← htext, HttpRequest.startLine]
    simp [ascii]
  have hbehind : linesBehind (req.method.toString ++ 32 :: target) = linesBehind target := by
    rw [linesBehind_of_not_mem hfeed]
    rfl
  rw [hline, splitLines, hbehind, ← List.singleton_append, lengthsOf_append,
    lengthsOf_line hfeed hcolon (by decide) (by decide), ← htext, htarget]
  simp

theorem feed_not_mem_statusToString (s : Int) : 10 ∉ statusToString s := by
  have hmap : ∀ e ∈ statusMap, 10 ∉ e.2 := by decide +kernel
  rw [statusToString]
  cases hlook : statusMap.lookup s with
  | none => decide
  | some text =>
    obtain ⟨front, back, heq, -⟩ := List.lookup_eq_some_iff.mp hlook
    exact hmap (s, text) (by rw [heq]; simp)

theorem lengthsOf_statusLine (rsp : HttpResponse) :
    lengthsOf (splitLines rsp.statusLine) = lengthsOf (linesBehind rsp.reason) := by
  obtain ⟨behind, hfirst⟩ : ∃ behind, rsp.statusLine = ascii "HTTP".toList ++ 47 :: behind :=
    ⟨_, by simp only [HttpResponse.statusLine, versionText, List.append_assoc]; rfl⟩
  have hbehind : linesBehind rsp.statusLine = linesBehind rsp.reason := by
    rw [HttpResponse.statusLine, linesBehind_of_not_mem]
    · split
      · next hreason => rw [linesBehind_eq_nil (feed_not_mem_statusToString _), hreason]; rfl
      · rfl
    · simp [versionText, feed_not_mem_decimal, ascii]
  rw [splitLines, hbehind, ← List.singleton_append, lengthsOf_append, hfirst,
    lengthsOf_line (by decide) (by decide) (by decide) (by decide), List.nil_append]

theorem HeaderMap.lengthsOf_lines (m : HeaderMap) :
    (m.lines.flatMap fun l => lengthsOf (splitLines l)) = m.lengths := by
  rw [HeaderMap.lines, List.flatMap_map, HeaderMap.lengths]
  refine List.flatMap_congr fun e _ => ?_
  rw [headerLine, List.append_assoc]
  rfl

theorem HttpRequest.lengthsOf_lines (req : HttpRequest) :
    (req.lines.flatMap fun l => lengthsOf (splitLines l)) = req.lengths := by
  rw [HttpRequest.lines, List.flatMap_append, req.headers.lengthsOf_lines]
  simp [lengthsOf_startLine, lengthsOf_connectionLine, HttpRequest.lengths]

theorem HttpResponse.lengthsOf_lines (rsp : HttpResponse) :
    (rsp.lines.flatMap fun l => lengthsOf (splitLines l)) = rsp.lengths := by
  rw [HttpResponse.lines, List.flatMap_append, List.flatMap_append, rsp.headers.lengthsOf_lines]
  simp [lengthsOf_statusLine, lengthsOf_connectionLine, HttpResponse.lengths]

/-- The line that is written for a body. -/
theorem lengthsOf_own (n : Nat) :
    lengthsOf (splitLines (ascii "content-length: ".toList ++ decimal n)) = [some n] := by
  have hfeed : 10 ∉ ascii "content-length: ".toList ++ decimal n := by
    simp [feed_not_mem_decimal, ascii]
  have hline : lineOf (ascii "content-length: ".toList ++ decimal n) =
      ascii "content-length".toList ++ 58 :: 32 :: decimal n := by
    have hwhole := lineOf_of_not_mem hfeed []
    rw [List.append_nil] at hwhole
    rw [hwhole]
    simp [lineOf, ascii]
  have hname : nameOf (ascii "content-length".toList ++ 58 :: 32 :: decimal n) =
      ascii "content-length".toList := by
    rw [nameOf, List.takeWhile_append_of_pos (List.all_eq_true.mp rfl)]
    simp
  have hlength : isLengthLine (ascii "content-length".toList ++ 58 :: 32 :: decimal n) = true := by
    rw [isLengthLine, hname, Bool.and_eq_true, List.contains_iff_mem]
    exact ⟨by simp, by decide⟩
  have hnumber : lengthOf (ascii "content-length".toList ++ 58 :: 32 :: decimal n) = some n := by
    rw [lengthOf, hname, ← numberOf_decimal n]
    rfl
  rw [splitLines, linesBehind_eq_nil hfeed, hline, lengthsOf, List.filter_cons_of_pos hlength, List.filter_nil,
    List.map_cons, hnumber]
  rfl

/-- The lengths in a written header block: those of the fields, and then the one of the body. -/
theorem lengthsOf_headerBlock (lines : List Bytes) (body : Bytes) :
    lengthsOf (splitLines (headerBlock (dumpLines lines body) body)) =
      (lines.flatMap fun l => lengthsOf (splitLines l)) ++ if body = [] then [] else [some body.length] := by
  by_cases hbody : body = []
  · subst hbody
    have hblock : headerBlock (dumpLines lines []) [] = (lines.flatMap fun l => l ++ crlf) ++ crlf := by
      rw [headerBlock, List.length_nil, Nat.sub_zero, List.take_length]
      rfl
    rw [hblock, lengthsOf_flatMap]
    rfl
  · have hblock : headerBlock (dumpLines lines body) body =
        ((lines ++ [ascii "content-length: ".toList ++ decimal body.length]).flatMap fun l => l ++ crlf) ++
          crlf := by
      rw [headerBlock, dumpLines, if_pos hbody, List.length_append, Nat.add_sub_cancel, List.take_left']
      · simp
      · rfl
    rw [hblock, lengthsOf_flatMap, List.flatMap_append, List.flatMap_singleton, lengthsOf_own, if_neg hbody]
    exact List.append_nil _

theorem framed_dumpLines (lines : List Bytes) (body : Bytes) :
    Framed (headerBlock (dumpLines lines body) body) body ↔
      BringsNoLength (lines.flatMap fun l => lengthsOf (splitLines l)) body := by
  rw [Framed, BringsNoLength, lengthsOf_headerBlock]
  by_cases hbody : body = []
  · subst hbody
    simp only [if_pos, List.append_nil, ne_eq, not_true_eq_false, false_implies, forall_const, true_and]
    constructor
    · rintro ⟨hone, hzero⟩
      match hlengths : lines.flatMap fun l => lengthsOf (splitLines l) with
      | [] => exact .inl rfl
      | [n] =>
        rw [hlengths] at hzero
        exact .inr (by rw [hzero n List.mem_cons_self])
      | _ :: _ :: _ =>
        rw [hlengths] at hone
        simp at hone
    · rintro (hnil | hzero)
      · rw [hnil]
        exact ⟨Nat.zero_le _, fun _ hn => nomatch hn⟩
      · rw [hzero]
        exact ⟨Nat.le_refl _, fun n hn => List.mem_singleton.mp hn⟩
  · simp only [hbody, if_neg, not_false_eq_true, ne_eq, forall_const, false_implies, and_true, false_and,
      or_false, List.length_append, List.length_singleton]
    constructor
    · rintro ⟨hone, -⟩
      exact List.eq_nil_of_length_eq_zero (by omega)
    · intro hnil
      rw [hnil]
      exact ⟨Nat.le_refl _, rfl⟩

/-! ## Messages without line feeds in their fields -/

theorem lengthsIn_of_not_mem {part : Bytes} (h : 10 ∉ part) : lengthsIn part = [] := by
  rw [lengthsIn, linesBehind_of_not_mem h]
  rfl

/-- The line of a header with a plain name. -/
theorem lengthsOf_headerLine {name v : Bytes} (hname : 10 ∉ name) (hcolon : 58 ∉ name) :
    lengthsOf [lineOf (name ++ 58 :: 32 :: v)] =
      if name.map tolower = ascii "content-length".toList then [numberOf (32 :: lineOf v)] else [] := by
  have hline : lineOf (name ++ 58 :: 32 :: v) = name ++ 58 :: 32 :: lineOf v := by
    rw [lineOf_of_not_mem hname]
    rfl
  have hfront : nameOf (name ++ 58 :: 32 :: lineOf v) = name := by
    rw [nameOf, List.takeWhile_append_of_pos fun b hb => by simpa using fun heq : b = 58 => hcolon (heq ▸ hb)]
    simp
  have hlength : isLengthLine (name ++ 58 :: 32 :: lineOf v) =
      decide (name.map tolower = ascii "content-length".toList) := by
    rw [isLengthLine, hfront, List.contains_iff_mem.mpr (by simp), Bool.true_and]
  rw [hline, lengthsOf, List.filter_cons, hlength]
  by_cases his : name.map tolower = ascii "content-length".toList
  · rw [if_pos (decide_eq_true his), if_pos his, List.filter_nil, List.map_cons, lengthOf, hfront,
      List.drop_length_add_append]
    rfl
  · rw [if_neg (c := decide (_ = _) = true) (fun htrue => his (of_decide_eq_true htrue)), if_neg his]
    rfl

/-- A blank in front of a value does not count. -/
theorem numberOf_blank (v : Bytes) : numberOf (32 :: v) = numberOf v := by
  have htrim : trim (32 :: v) = trim v := by
    rw [trim, List.dropWhile_cons_of_pos rfl, trim]
  rw [numberOf, numberOf, htrim]

/-- What no spelling of a name contains. -/
theorem not_mem_of_spelled {name lower : Bytes} (h : name.map tolower = lower) {b : UInt8}
    (hb : tolower b ∉ lower) : b ∉ name := fun hmem => hb (h ▸ List.mem_map_of_mem hmem)

theorem cStr_of_not_mem {s : Bytes} (h : 0 ∉ s) : cStr s = s := by
  induction s with
  | nil => rfl
  | cons b s ih =>
    have hb : b ≠ 0 := fun heq => h (by simp [heq])
    rw [cStr, List.takeWhile_cons_of_pos (by simpa using hb)]
    exact congrArg (b :: ·) (ih fun hmem => h (List.mem_cons_of_mem b hmem))

theorem not_connection {name : Bytes} (h : name.map tolower = ascii "content-length".toList) :
    strcaseeq name (ascii "connection".toList) = false := by
  rw [strcaseeq, cStr_of_not_mem (not_mem_of_spelled h (b := 0) (by decide)), h]
  decide

theorem HeaderMap.lengths_eq {m : HeaderMap} (h : m.Plain) : m.lengths = m.lengthValues := by
  induction m with
  | nil => rfl
  | cons e m ih =>
    obtain ⟨⟨hname, hcolon⟩, hvalue⟩ := h e List.mem_cons_self
    have hrest := ih fun e he => h e (List.mem_cons_of_mem _ he)
    have hentry : lengthsOf (splitLines (e.1 ++ 58 :: 32 :: e.2)) =
        if e.1.map tolower = ascii "content-length".toList then [numberOf e.2] else [] := by
      have hfeed : 10 ∉ e.1 ++ 58 :: 32 :: e.2 := by simp [hname, hvalue]
      have hend : lineOf e.2 = e.2 := by
        have hwhole := lineOf_of_not_mem hvalue []
        rw [List.append_nil] at hwhole
        rw [hwhole]
        exact List.append_nil _
      rw [splitLines, linesBehind_eq_nil hfeed, lengthsOf_headerLine hname hcolon, hend, numberOf_blank]
    rw [HeaderMap.lengths, HeaderMap.lengthValues] at hrest ⊢
    rw [List.filter_cons, List.filter_cons]
    by_cases hlength : e.1.map tolower = ascii "content-length".toList
    · rw [not_connection hlength, Bool.not_false, if_pos rfl, if_pos (decide_eq_true hlength), List.flatMap_cons,
        List.map_cons, hentry, if_pos hlength, hrest]
      rfl
    · rw [if_neg (c := decide (_ = _) = true) (fun htrue => hlength (of_decide_eq_true htrue)), ← hrest]
      split
      · rw [List.flatMap_cons, hentry, if_neg hlength, List.nil_append]
      · rfl

theorem HttpRequest.lengths_eq {req : HttpRequest} (h : req.Plain) :
    req.lengths = req.headers.lengthValues := by
  rw [HttpRequest.lengths, lengthsIn_of_not_mem h.path, lengthsIn_of_not_mem h.query,
    lengthsIn_of_not_mem h.fragment, HeaderMap.lengths_eq h.headers]
  rfl

theorem HttpResponse.lengths_eq {rsp : HttpResponse} (h : rsp.Plain) :
    rsp.lengths = rsp.headers.lengthValues := by
  rw [HttpResponse.lengths, linesBehind_eq_nil h.reason, HeaderMap.lengths_eq h.headers]
  rfl

/-- No body is framed when the map has an entry for its length, however that is spelled. -/
theorem not_framed_of_header {req : HttpRequest} (hbody : req.body ≠ []) {e : Bytes × Bytes}
    (he : e ∈ req.headers) (hname : e.1.map tolower = ascii "content-length".toList) :
    ¬ Framed (headerBlock req.dump req.body) req.body := by
  intro hframed
  rw [HttpRequest.dump, framed_dumpLines, req.lengthsOf_lines, BringsNoLength] at hframed
  have hnil := hframed.resolve_right fun h => hbody h.1
  rw [HttpRequest.lengths, List.append_eq_nil_iff] at hnil
  have hentry := List.flatMap_eq_nil_iff.mp hnil.2 e
    (List.mem_filter.mpr ⟨he, by rw [not_connection hname]; rfl⟩)
  rw [splitLines, ← List.singleton_append, lengthsOf_append, List.append_eq_nil_iff,
    lengthsOf_headerLine (not_mem_of_spelled hname (b := 10) (by decide))
      (not_mem_of_spelled hname (b := 58) (by decide)), if_pos hname] at hentry
  exact absurd hentry.1 (List.cons_ne_nil _ _)

/-- A length that is found has an entry of its name. -/
theorem exists_of_contentLength {m : HeaderMap} (h : m.contentLength ≠ 0) :
    ∃ e ∈ m, (cStr e.1).map tolower = ascii "content-length".toList := by
  unfold HeaderMap.contentLength HeaderMap.find at h
  cases hfind : List.find? (fun e => !caseInsensitiveLess e.1 (ascii ['c', 'o', 'n', 't', 'e', 'n',
      't', '-', 'l', 'e', 'n', 'g', 't', 'h']) && !caseInsensitiveLess (ascii ['c', 'o', 'n', 't',
      'e', 'n', 't', '-', 'l', 'e', 'n', 'g', 't', 'h']) e.1) m with
  | none =>
    rw [hfind] at h
    exact absurd rfl h
  | some e =>
    refine ⟨e, List.mem_of_find?_eq_some hfind, ?_⟩
    -- neither of two names is less than the other
    have hneither := List.find?_some hfind
    simp only [caseInsensitiveLess, Bool.and_eq_true, Bool.not_eq_true', decide_eq_false_iff_not]
      at hneither
    exact List.le_antisymm (List.not_lt.mp hneither.2) (List.not_lt.mp hneither.1)

/-- In particular a request that came in with a body is not framed when it is sent on; the parser
takes no NUL for a part of a name. -/
theorem received_not_framed {M : Reasoning.Scanner Nat RequestAction} {size : Nat}
    {reads rest : List ReadResult} {req : HttpRequest}
    (hrecv : HttpSession.recvRequest M size reads = some (.ret req rest)) (hbody : req.body ≠ [])
    (hkeys : ∀ e ∈ req.headers, 0 ∉ e.1) : ¬ Framed (headerBlock req.dump req.body) req.body := by
  rcases Option.bind_eq_some_iff.mp hrecv with ⟨head, -, hrest⟩
  cases head with
  | ret r more =>
    rcases r with ⟨parser, left⟩
    rcases Option.map_eq_some_iff.mp hrest with ⟨got, hgot, heq⟩
    cases got with
    | ret body reads' =>
      cases heq
      -- a body was asked for, so a length was found
      have hlength : parser.data.headers.contentLength ≠ 0 := by
        intro hzero
        rw [hzero] at hgot
        cases hgot
        exact hbody rfl
      rcases exists_of_contentLength hlength with ⟨e, he, hname⟩
      rw [cStr_of_not_mem (hkeys e he)] at hname
      exact not_framed_of_header hbody he hname
    | wait => cases heq
    | null closed => cases heq
    | thrown => cases heq
  | wait => cases hrest
  | null closed => cases hrest
  | thrown => cases hrest

end Azure
