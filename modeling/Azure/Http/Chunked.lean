import Azure.Http.Receive
import Azure.Http.Tokens
import Azure.Reasoning.Pieces

/-!
# Bodies in chunks

The data of a chunk may come in any pieces.  Its size line may not: each call of `execute` begins with a
new size line, and what an earlier call has taken of it is forgotten.
-/

namespace Azure

open Reasoning

/-! ## Size lines -/

section SizeLines

variable {fields : Nat → UInt8 → List ResponseAction × Nat} {digits rest : Bytes}

theorem next_digit {b : UInt8} (hb : isxdigit b = true) :
    (httpclientParser fields).next 2 b = ([], 2) := by
  have hend : b ≠ 10 ∧ b ≠ 13 ∧ b ≠ 59 := by
    refine ⟨?_, ?_, ?_⟩ <;> rintro rfl <;> revert hb <;> decide
  show httpclientNext fields 2 b = ([], 2)
  simp only [httpclientNext, if_neg hend.1, if_neg hend.2.1, if_neg hend.2.2, if_pos hb]

theorem next_first {b : UInt8} (hb : isxdigit b = true) :
    (httpclientParser fields).next 1 b = ([.mark], 2) := by
  have hstatus : b ≠ 72 := by
    rintro rfl
    revert hb
    decide
  show httpclientNext fields 1 b = ([.mark], 2)
  simp only [httpclientNext, if_neg hstatus, if_pos hb]

theorem accepts_digits (hdigits : digits.all isxdigit = true) :
    (httpclientParser fields).accepts 2 (digits ++ [13, 10]) = true := by
  induction digits with
  | nil => rfl
  | cons d ds ih =>
    rw [List.all_cons, Bool.and_eq_true] at hdigits
    rw [List.cons_append, Scanner.accepts, next_digit hdigits.1]
    dsimp only
    rw [ih hdigits.2]
    rfl

/-- The machine accepts a size line. -/
theorem accepts_line (fields : Nat → UInt8 → List ResponseAction × Nat) (hne : digits ≠ [])
    (hdigits : digits.all isxdigit = true) :
    (httpclientParser fields).accepts 1 (digits ++ [13, 10]) = true := by
  obtain ⟨d, ds, rfl⟩ := List.exists_cons_of_ne_nil hne
  rw [List.all_cons, Bool.and_eq_true] at hdigits
  rw [List.cons_append, Scanner.accepts, next_first hdigits.1]
  dsimp only
  rw [accepts_digits hdigits.2]
  rfl

theorem run_digits (hdigits : digits.all isxdigit = true) :
    (httpclientParser fields).run 2 digits = 2 := by
  induction digits with
  | nil => rfl
  | cons d ds ih =>
    rw [List.all_cons, Bool.and_eq_true] at hdigits
    show (httpclientParser fields).run ((httpclientParser fields).next 2 d).2 ds = 2
    rw [next_digit hdigits.1]
    exact ih hdigits.2

theorem follow_digits (buffer : Bytes) (p : Nat) (x : HttpResponseParser)
    (hdigits : digits.all isxdigit = true) :
    (httpclientParser fields).follow (HttpResponseParser.act buffer) p 2 x digits = some x := by
  induction digits generalizing p with
  | nil => rfl
  | cons d ds ih =>
    rw [List.all_cons, Bool.and_eq_true] at hdigits
    rw [Scanner.follow, next_digit hdigits.1]
    exact ih (p + 1) hdigits.2

/-- The digits of a size line, without the line end. -/
theorem follow_first (fields : Nat → UInt8 → List ResponseAction × Nat) (buffer : Bytes)
    (x : HttpResponseParser) (hne : digits ≠ []) (hdigits : digits.all isxdigit = true) :
    (httpclientParser fields).follow (HttpResponseParser.act buffer) 0 1 x digits =
        some { x with mark := 0 } ∧
      (httpclientParser fields).run 1 digits = 2 := by
  obtain ⟨d, ds, rfl⟩ := List.exists_cons_of_ne_nil hne
  rw [List.all_cons, Bool.and_eq_true] at hdigits
  constructor
  · rw [Scanner.follow, next_first hdigits.1]
    exact follow_digits buffer 1 { x with mark := 0 } hdigits.2
  · show (httpclientParser fields).run ((httpclientParser fields).next 1 d).2 ds = 2
    rw [next_first hdigits.1]
    exact run_digits hdigits.2

theorem follow_line (buffer : Bytes) (x : HttpResponseParser) (hne : digits ≠ [])
    (hdigits : digits.all isxdigit = true) :
    (httpclientParser fields).follow (HttpResponseParser.act buffer) 0 1 x (digits ++ [13, 10]) =
      HttpResponseParser.act buffer digits.length .chunkSize { x with mark := 0 } := by
  obtain ⟨hfollow, hrun⟩ := follow_first fields buffer x hne hdigits
  rw [Scanner.follow_append, hfollow, hrun, Nat.zero_add]
  rfl

/-- The number is read back, whatever stands behind the line. -/
theorem strtol_line (hne : digits ≠ []) (hdigits : digits.all isxdigit = true) :
    strtol 16 (digits ++ 13 :: rest) = min (leadingDigits 16 0 digits : Int) (2 ^ 63 - 1) := by
  obtain ⟨d, ds, rfl⟩ := List.exists_cons_of_ne_nil hne
  rw [List.all_cons, Bool.and_eq_true] at hdigits
  have hspace : isspace d = false := by
    have hd := hdigits.1
    unfold isxdigit at hd
    unfold isspace
    simp only [decide_eq_true_eq, decide_eq_false_iff_not, UInt8.le_iff_toNat_le,
      ← UInt8.toNat_inj, UInt8.reduceToNat] at hd ⊢
    omega
  have hsign : d ≠ 45 ∧ d ≠ 43 := by
    have hd := hdigits.1
    constructor <;> rintro rfl <;> revert hd <;> decide
  -- no prefix `0x`
  have hskip : skipHexPrefix (d :: (ds ++ 13 :: rest)) = d :: (ds ++ 13 :: rest) := by
    cases ds with
    | nil =>
      cases rest with
      | nil => rfl
      | cons e rest => simp [skipHexPrefix]
    | cons e es =>
      have he : isxdigit e = true := by
        have hds := hdigits.2
        rw [List.all_cons, Bool.and_eq_true] at hds
        exact hds.1
      have hx : e ≠ 120 ∧ e ≠ 88 := by
        constructor <;> rintro rfl <;> revert he <;> decide
      cases es <;> simp [skipHexPrefix, hx.1, hx.2]
  have hcr : ∀ n ∈ digitOf 13, 16 ≤ n := by decide
  have hnumber := leadingDigits_append 0 (d :: ds) rest hcr
  rw [List.cons_append] at hnumber
  simp [strtol, hspace, hsign.1, hsign.2, hskip, hnumber]

end SizeLines

/-! ## Chunks -/

structure Chunk where
  digits : Bytes
  data : Bytes
  ne_nil : digits ≠ []
  hex : digits.all isxdigit = true
  size : leadingDigits 16 0 digits = data.length
  le : data.length ≤ 2 ^ 31 - 3

namespace Chunk

def line (c : Chunk) : Bytes := c.digits ++ [13, 10]

def rest (c : Chunk) : Bytes := c.data ++ [13, 10]

def bytes (c : Chunk) : Bytes := c.line ++ c.rest

def last : Chunk where
  digits := [48]
  data := []
  ne_nil := by decide
  hex := by decide
  size := by decide
  le := by decide

def wire (cs : List Chunk) : Bytes := (cs.map bytes).flatten

theorem wire_cons (c : Chunk) (cs : List Chunk) : wire (c :: cs) = c.line ++ (c.rest ++ wire cs) := by
  rw [wire, List.map_cons, List.flatten_cons, bytes, List.append_assoc]
  rfl

theorem length_le_wire (cs : List Chunk) : cs.length ≤ (wire cs).length := by
  induction cs with
  | nil => exact Nat.le_refl 0
  | cons c cs ih =>
    rw [wire_cons, List.length_cons, List.length_append, List.length_append, rest,
      List.length_append, List.length_cons]
    omega

theorem line_pos (c : Chunk) : 0 < c.line.length := by
  rw [line, List.length_append]
  exact Nat.add_pos_right _ (by decide)

end Chunk

section Recv

variable {fields : Nat → UInt8 → List ResponseAction × Nat} {size : Nat}

def Chunk.parsed (fields : Nat → UInt8 → List ResponseAction × Nat) (c : Chunk)
    (parser : HttpResponseParser) : HttpResponseParser :=
  { parser.init with
    cs := (httpclientParser fields).run 1 c.line, contentLen := c.data.length, chunked := true
    chunksDone := decide ((c.data.length : Int) ≤ 0) }

theorem execute_line (c : Chunk) (parser : HttpResponseParser) (left : Bytes) :
    HttpResponseParser.execute (httpclientParser fields) true parser (c.line ++ left) =
      some (c.line.length, c.parsed fields parser) := by
  have hscan := Scanner.scan_accepts_append (HttpResponseParser.act (c.line ++ left)) 0
    { parser.init with mark := 0, fieldLen := 0, fieldStart := 0 }
    (accepts_line fields c.ne_nil c.hex) left
  have hnumber : strtol 16 (c.line ++ left) = c.data.length := by
    have hle := c.le
    rw [Chunk.line, List.append_assoc]
    show strtol 16 (c.digits ++ 13 :: (10 :: left)) = _
    rw [strtol_line c.ne_nil c.hex, c.size]
    omega
  have hint : intOfLong c.data.length = c.data.length := by
    have hle := c.le
    unfold intOfLong
    apply Int.bmod_eq_of_le <;> omega
  rw [follow_line _ _ c.ne_nil c.hex] at hscan
  simp only [HttpResponseParser.act, List.drop_zero, hnumber, hint, Option.map_some] at hscan
  rw [← Chunk.line] at hscan
  rw [HttpResponseParser.execute, if_pos rfl]
  show Option.map _ ((httpclientParser fields).scan _ 0 1 _ _) = _
  rw [hscan, Nat.zero_add]
  rfl

/-- A turn that finds a whole size line. -/
theorem turn_line (c : Chunk) {parser : HttpResponseParser} (herror : parser.error = 0)
    {left : Bytes} (hsize : left.length ≠ size) :
    (HttpConnection.responseHead (httpclientParser fields) size true).turn parser
      (c.line ++ left) = .finished (c.parsed fields parser) left := by
  obtain ⟨hnoerror, hfinished⟩ := Scanner.run_of_accepts (accepts_line fields c.ne_nil c.hex)
  rw [← Chunk.line] at hnoerror hfinished
  have hno : (c.parsed fields parser).error = 0 := herror
  simp only [HeadLoop.turn, HttpConnection.responseHead, execute_line, HttpResponseParser.hasError,
    HttpResponseParser.isFinished, hno, List.drop_left, hsize]
  simp only [Chunk.parsed, hnoerror, hfinished]
  rfl

/-- A turn that finds only the digits takes them, and forgets them. -/
theorem turn_digits (c : Chunk) {parser : HttpResponseParser} (herror : parser.error = 0)
    (hsize : 0 ≠ size) :
    (HttpConnection.responseHead (httpclientParser fields) size true).turn parser c.digits =
      .more { parser.init with cs := 2 } [] := by
  have hscan := Scanner.scan_of_accepts (HttpResponseParser.act c.digits) 0
    { parser.init with mark := 0, fieldLen := 0, fieldStart := 0 }
    (accepts_line fields c.ne_nil c.hex)
  obtain ⟨hfollow, hrun⟩ := follow_first fields c.digits
    { parser.init with mark := 0, fieldLen := 0, fieldStart := 0 } c.ne_nil c.hex
  rw [hfollow, hrun, Option.map_some, Nat.zero_add] at hscan
  have hexecute : HttpResponseParser.execute (httpclientParser fields) true parser c.digits =
      some (c.digits.length, { parser.init with cs := 2 }) := by
    rw [HttpResponseParser.execute, if_pos rfl]
    show Option.map _ ((httpclientParser fields).scan _ 0 1 _ _) = _
    rw [hscan]
    rfl
  have hno : parser.init.error = 0 := herror
  simp only [HeadLoop.turn, HttpConnection.responseHead, hexecute, HttpResponseParser.hasError,
    HttpResponseParser.isFinished, hno, List.drop_length, List.length_nil, hsize]
  rfl

/-- No size line begins with the line end. -/
theorem turn_cr (parser : HttpResponseParser) :
    (HttpConnection.responseHead (httpclientParser fields) size true).turn parser [13] = .null := by
  have hexecute : HttpResponseParser.execute (httpclientParser fields) true parser [13] =
      some (0, { parser.init with cs := 0 }) := rfl
  have herror : HttpResponseParser.hasError (httpclientParser fields)
      { parser.init with cs := 0 } = true := Bool.or_true _
  simp only [HeadLoop.turn, HttpConnection.responseHead, hexecute, herror, if_true]

/-- The loop for a size line, when no read ends within the line. -/
theorem recvChunkHead_line (fields : Nat → UInt8 → List ResponseAction × Nat) (c : Chunk)
    {parser : HttpResponseParser} (herror : parser.error = 0) {left rest : Bytes} {pieces : List Bytes} (more : List ReadResult)
    (hread : ∀ d ∈ pieces, d ≠ []) (hsize : left.length ≤ size)
    (hbytes : left ++ pieces.flatten = c.line ++ rest)
    (hline : ∀ b, b <:+ pieces → rest.length < b.flatten.length →
      (c.line ++ rest).length ≤ b.flatten.length) :
    HttpConnection.recvChunkHead (httpclientParser fields) size parser left
        (pieces.map ReadResult.data ++ more) = none ∨
      ∃ left' pieces', left' ++ pieces'.flatten = rest ∧ pieces' <:+ pieces ∧
        left'.length ≤ size ∧
        HttpConnection.recvChunkHead (httpclientParser fields) size parser left
          (pieces.map ReadResult.data ++ more) =
            some (.ret (c.parsed fields parser, left') (pieces'.map ReadResult.data ++ more)) := by
  have hpos := c.line_pos
  have hlength := congrArg List.length hbytes
  simp only [List.length_append] at hlength
  by_cases hleft : left = []
  · subst hleft
    cases pieces with
    | nil =>
      simp at hlength
      omega
    | cons d ds =>
      have hd := List.length_pos_of_ne_nil (hread d List.mem_cons_self)
      have hnot := hline ds (List.suffix_cons d ds)
      simp only [List.length_append] at hnot
      simp only [List.flatten_cons, List.length_append, List.length_nil] at hlength
      -- the first read has the line
      obtain ⟨left', rfl⟩ : ∃ left', d = c.line ++ left' := by
        rw [List.nil_append, List.flatten_cons] at hbytes
        obtain ⟨left', hleft'⟩ := List.prefix_of_prefix_length_le ⟨rest, rfl⟩ ⟨_, hbytes⟩ (by omega)
        exact ⟨left', hleft'.symm⟩
      rw [HttpConnection.recvChunkHead, if_pos rfl, List.map_cons, List.cons_append,
        HeadLoop.recvHead]
      cases hanswers : ReadResult.answers (.data (c.line ++ left'))
        ((HttpConnection.responseHead (httpclientParser fields) size true).size -
          ([] : Bytes).length) with
      | false => exact Or.inl rfl
      | true =>
        right
        have hle : left'.length < size := by
          simp only [ReadResult.answers, Bool.and_eq_true, decide_eq_true_eq] at hanswers
          have hfits := hanswers.1.2
          simp only [HttpConnection.responseHead, List.length_append, List.length_nil] at hfits
          omega
        refine ⟨left', ds, ?_, List.suffix_cons _ ds, Nat.le_of_lt hle, ?_⟩
        · rw [List.nil_append, List.flatten_cons, List.append_assoc] at hbytes
          exact List.append_cancel_left hbytes
        · simp only [List.nil_append, turn_line c herror (Nat.ne_of_lt hle)]
          rfl
  · right
    have hleftpos := List.length_pos_of_ne_nil hleft
    have hnot := hline pieces (List.suffix_refl _)
    simp only [List.length_append] at hnot
    obtain ⟨left', rfl⟩ : ∃ left', left = c.line ++ left' := by
      obtain ⟨left', hleft'⟩ := List.prefix_of_prefix_length_le ⟨rest, rfl⟩ ⟨_, hbytes⟩ (by omega)
      exact ⟨left', hleft'.symm⟩
    rw [List.length_append] at hsize
    refine ⟨left', pieces, ?_, List.suffix_refl _, by omega, ?_⟩
    · rw [List.append_assoc] at hbytes
      exact List.append_cancel_left hbytes
    · rw [HttpConnection.recvChunkHead, if_neg hleft]
      simp only [turn_line c herror (show left'.length ≠ size by omega)]

theorem recvRest_done {left : Int} (h : left ≤ 0) (body : Bytes) (reads : List ReadResult) :
    HttpConnection.recvRest size left body reads = some (.ret body reads) := by
  cases reads <;> simp only [HttpConnection.recvRest, if_pos h]

/-- No read of the loop for the rest of a chunk goes beyond it. -/
theorem recvRest_pieces (size : Nat) {u v : Bytes} (body : Bytes) {pieces : List Bytes}
    (more : List ReadResult) (hbytes : pieces.flatten = u ++ v) :
    HttpConnection.recvRest size u.length body (pieces.map ReadResult.data ++ more) = none ∨
      ∃ later, later <:+ pieces ∧ later.flatten = v ∧
        HttpConnection.recvRest size u.length body (pieces.map ReadResult.data ++ more) =
          some (.ret (body ++ u) (later.map ReadResult.data ++ more)) := by
  induction pieces generalizing u body with
  | nil =>
    obtain ⟨rfl, rfl⟩ := List.append_eq_nil_iff.mp hbytes.symm
    right
    refine ⟨[], List.suffix_refl _, rfl, ?_⟩
    rw [recvRest_done (show (([] : Bytes).length : Int) ≤ 0 by decide), List.append_nil]
  | cons d ds ih =>
    by_cases hu : u = []
    · subst hu
      right
      refine ⟨d :: ds, List.suffix_refl _, hbytes, ?_⟩
      rw [recvRest_done (show (([] : Bytes).length : Int) ≤ 0 by decide), List.append_nil]
    have hpos := List.length_pos_of_ne_nil hu
    rw [List.map_cons, List.cons_append, HttpConnection.recvRest, if_neg (by omega)]
    -- a read that asks for less than the piece has no result
    cases hanswers : ReadResult.answers (.data d) (min (u.length : Int).toNat size) with
    | false => exact Or.inl rfl
    | true =>
      simp only [ReadResult.answers, Bool.and_eq_true, decide_eq_true_eq, Int.toNat_natCast]
        at hanswers
      rw [List.flatten_cons] at hbytes
      -- the piece is no longer than what is left
      obtain ⟨u', rfl⟩ : ∃ u', u = d ++ u' := by
        obtain ⟨u', hu'⟩ := List.prefix_of_prefix_length_le ⟨ds.flatten, rfl⟩ ⟨v, hbytes.symm⟩
          (Nat.le_trans hanswers.1.2 (Nat.min_le_left ..))
        exact ⟨u', hu'.symm⟩
      rw [List.append_assoc] at hbytes
      have hleft : ((d ++ u').length : Int) - d.length = u'.length := by
        rw [List.length_append]
        omega
      simp only [Bool.not_true, Bool.false_eq_true, if_false, hleft]
      rcases ih (body ++ d) (List.append_cancel_left hbytes) with
        hnone | ⟨later, hsuffix, hlater, hret⟩
      · exact Or.inl hnone
      · right
        refine ⟨later, hsuffix.trans (List.suffix_cons d ds), hlater, ?_⟩
        rw [hret, List.append_assoc]

/-- The data of a chunk, in whatever pieces they come. -/
theorem recvChunkData_pieces (c : Chunk) {left v : Bytes} (body : Bytes) {pieces : List Bytes}
    (more : List ReadResult) (hsize : left.length ≤ size)
    (hbytes : left ++ pieces.flatten = c.rest ++ v) :
    HttpConnection.recvChunkData size c.data.length left body
        (pieces.map ReadResult.data ++ more) = none ∨
      ∃ left' pieces', left' ++ pieces'.flatten = v ∧ pieces' <:+ pieces ∧ left'.length ≤ size ∧
        HttpConnection.recvChunkData size c.data.length left body
          (pieces.map ReadResult.data ++ more) =
            some (.ret (body ++ c.data, left') (pieces'.map ReadResult.data ++ more)) := by
  have hle := c.le
  have hrest : c.rest.length = c.data.length + 2 := List.length_append
  rw [HttpConnection.recvChunkData, if_neg (by omega)]
  by_cases hwhole : (c.data.length : Int) + 2 ≤ left.length
  · rw [if_pos hwhole, if_neg (by omega)]
    right
    obtain ⟨left', rfl⟩ : ∃ left', left = c.rest ++ left' := by
      obtain ⟨left', hleft'⟩ := List.prefix_of_prefix_length_le ⟨v, rfl⟩ ⟨_, hbytes⟩ (by omega)
      exact ⟨left', hleft'.symm⟩
    rw [List.length_append] at hsize
    rw [List.append_assoc] at hbytes
    refine ⟨left', pieces, List.append_cancel_left hbytes, List.suffix_refl _, by omega, ?_⟩
    rw [Int.toNat_natCast, ← hrest, List.drop_left, Chunk.rest, List.append_assoc, List.take_left]
  · rw [if_neg hwhole]
    -- the rest of the chunk is still to come
    obtain ⟨u, hu⟩ : ∃ u, c.rest = left ++ u := by
      obtain ⟨u, hu⟩ := List.prefix_of_prefix_length_le ⟨_, hbytes⟩ ⟨v, rfl⟩ (by omega)
      exact ⟨u, hu.symm⟩
    rw [hu, List.append_assoc] at hbytes
    have hleft : (c.data.length : Int) - left.length + 2 = u.length := by
      have hlength := congrArg List.length hu
      rw [hrest, List.length_append] at hlength
      omega
    rw [hleft]
    rcases recvRest_pieces size (body ++ left) more (List.append_cancel_left hbytes) with
      hnone | ⟨later, hsuffix, hlater, hret⟩
    · left
      rw [hnone]
      rfl
    · right
      refine ⟨[], later, hlater, hsuffix, Nat.zero_le _, ?_⟩
      have hbody : body ++ left ++ u = body ++ c.data ++ [13, 10] := by
        rw [List.append_assoc, ← hu, Chunk.rest, List.append_assoc]
      have htake : (body ++ c.data ++ [13, 10]).take ((body ++ c.data ++ [13, 10]).length - 2) =
          body ++ c.data := by
        rw [List.length_append]
        exact List.take_left
      have hlong : ¬ (body ++ c.data ++ [13, 10]).length < 2 := by
        simp only [List.length_append, List.length_cons]
        omega
      rw [hret, Option.bind_some, Recv.bind_ret, hbody, if_neg hlong, htake]

/-! ## Loops -/

theorem available_pieces (pieces : List Bytes) (more : List ReadResult) :
    pieces.flatten.length ≤ HttpConnection.available (pieces.map ReadResult.data ++ more) := by
  rw [HttpConnection.available, List.map_append, List.sum_append, List.length_flatten, List.map_map]
  exact Nat.le_add_right ..

/-- No read ends within a size line. -/
def CutsNoLine (cs : List Chunk) (pieces : List Bytes) : Prop :=
  ∀ c cs', (c :: cs') <:+ cs → ∀ b, b <:+ pieces →
    (c.rest ++ Chunk.wire cs').length < b.flatten.length →
      (Chunk.wire (c :: cs')).length ≤ b.flatten.length

theorem CutsNoLine.tail {c : Chunk} {cs : List Chunk} {pieces later : List Bytes}
    (h : CutsNoLine (c :: cs) pieces) (hlater : later <:+ pieces) : CutsNoLine cs later :=
  fun c' cs' hcs b hb => h c' cs' (hcs.trans (List.suffix_cons c cs)) b (hb.trans hlater)

def chunkData (cs : List Chunk) : Bytes := (cs.map Chunk.data).flatten

/-- One turn of the loop over the chunks. -/
theorem recvChunks_chunk (fields : Nat → UInt8 → List ResponseAction × Nat) (c : Chunk) (n : Nat)
    {parser : HttpResponseParser} (herror : parser.error = 0) {left v : Bytes} (body : Bytes)
    {pieces : List Bytes} (more : List ReadResult) (hread : ∀ d ∈ pieces, d ≠ []) (hsize : left.length ≤ size)
    (hbytes : left ++ pieces.flatten = c.line ++ (c.rest ++ v))
    (hline : ∀ b, b <:+ pieces → (c.rest ++ v).length < b.flatten.length →
      (c.line ++ (c.rest ++ v)).length ≤ b.flatten.length) :
    HttpConnection.recvChunks (httpclientParser fields) size (n + 1) parser left body
        (pieces.map ReadResult.data ++ more) = none ∨
      ∃ left' pieces', left' ++ pieces'.flatten = v ∧ pieces' <:+ pieces ∧ left'.length ≤ size ∧
        HttpConnection.recvChunks (httpclientParser fields) size (n + 1) parser left body
            (pieces.map ReadResult.data ++ more) =
          if c.data = [] then
            some (.ret (c.parsed fields parser, body ++ c.data)
              (pieces'.map ReadResult.data ++ more))
          else
            HttpConnection.recvChunks (httpclientParser fields) size n (c.parsed fields parser) left'
              (body ++ c.data) (pieces'.map ReadResult.data ++ more) := by
  -- the size line first, then the data and its line end
  rcases recvChunkHead_line fields c herror more hread hsize hbytes hline with
    hnone | ⟨left₁, pieces₁, hbytes₁, hsuffix₁, hsize₁, hhead⟩
  · left
    rw [HttpConnection.recvChunks, hnone]
    rfl
  rcases recvChunkData_pieces c body more hsize₁ hbytes₁ with
    hnone | ⟨left₂, pieces₂, hbytes₂, hsuffix₂, hsize₂, hdata⟩
  · left
    rw [HttpConnection.recvChunks, hhead, Option.bind_some, Recv.bind_ret]
    dsimp only
    rw [show (c.parsed fields parser).contentLen = c.data.length from rfl, hnone]
    rfl
  · right
    refine ⟨left₂, pieces₂, hbytes₂, hsuffix₂.trans hsuffix₁, hsize₂, ?_⟩
    rw [HttpConnection.recvChunks, hhead, Option.bind_some, Recv.bind_ret]
    dsimp only
    rw [show (c.parsed fields parser).contentLen = c.data.length from rfl, hdata, Option.bind_some,
      Recv.bind_ret]
    dsimp only
    have hdone : (c.parsed fields parser).chunksDone = true ↔ c.data = [] := by
      rw [← List.length_eq_zero_iff, Chunk.parsed, decide_eq_true_eq]
      omega
    simp only [hdone]

/-- The loop over the chunks up to the last one. -/
theorem recvChunks_pieces (fields : Nat → UInt8 → List ResponseAction × Nat) {cs : List Chunk}
    (hdata : ∀ c ∈ cs, c.data ≠ []) {n : Nat} (hn : cs.length < n) (parser : HttpResponseParser)
    (herror : parser.error = 0) {left : Bytes} (body : Bytes) {pieces : List Bytes}
    (more : List ReadResult)
    (hread : ∀ d ∈ pieces, d ≠ []) (hsize : left.length ≤ size)
    (hbytes : left ++ pieces.flatten = Chunk.wire (cs ++ [Chunk.last]))
    (hcuts : CutsNoLine (cs ++ [Chunk.last]) pieces) :
    HttpConnection.recvChunks (httpclientParser fields) size n parser left body
        (pieces.map ReadResult.data ++ more) = none ∨
      ∃ parser', parser'.data = parser.data ∧
        HttpConnection.recvChunks (httpclientParser fields) size n parser left body
          (pieces.map ReadResult.data ++ more) =
            some (.ret (parser', body ++ chunkData cs) more) := by
  induction cs generalizing n parser left body pieces with
  | nil =>
    obtain ⟨n, rfl⟩ : ∃ m, n = m + 1 := ⟨n - 1, by simp only [List.length_nil] at hn; omega⟩
    rw [List.nil_append, Chunk.wire_cons] at hbytes
    have hline := hcuts Chunk.last [] (List.suffix_refl _)
    rw [Chunk.wire_cons] at hline
    rcases recvChunks_chunk fields Chunk.last n herror body more hread hsize hbytes hline with
      hnone | ⟨left', pieces', hbytes', hsuffix, -, hret⟩
    · exact Or.inl hnone
    · right
      obtain ⟨-, hflatten⟩ := List.append_eq_nil_iff.mp hbytes'
      -- nothing is left behind the last chunk
      have hpieces : pieces' = [] := eq_nil_of_flatten (fun d hd => hread d (hsuffix.subset hd)) hflatten
      refine ⟨Chunk.last.parsed fields parser, rfl, ?_⟩
      rw [hret, if_pos (show Chunk.last.data = [] from rfl), hpieces]
      rfl
  | cons c cs ih =>
    obtain ⟨n, rfl⟩ : ∃ m, n = m + 1 := ⟨n - 1, by omega⟩
    rw [List.cons_append] at hbytes hcuts
    rw [Chunk.wire_cons] at hbytes
    have hline := hcuts c (cs ++ [Chunk.last]) (List.suffix_refl _)
    rw [Chunk.wire_cons] at hline
    rcases recvChunks_chunk fields c n herror body more hread hsize hbytes hline with
      hnone | ⟨left', pieces', hbytes', hsuffix, hsize', hret⟩
    · exact Or.inl hnone
    · have hrest := @ih (fun d hd => hdata d (List.mem_cons_of_mem c hd)) n
        (by simp only [List.length_cons] at hn; omega) (c.parsed fields parser) herror left'
        (body ++ c.data) pieces' (fun d hd => hread d (hsuffix.subset hd)) hsize' hbytes'
        (hcuts.tail hsuffix)
      rw [hret, if_neg (hdata c List.mem_cons_self)]
      rcases hrest with hnone | ⟨parser', hparser, hret'⟩
      · exact Or.inl hnone
      · right
        refine ⟨parser', hparser, ?_⟩
        rw [hret', List.append_assoc]
        rfl

end Recv

/-! ## Responses -/

/-- A well-formed head of a response: the machine accepts it, each callback gets a token of it, and it
begins with a version. -/
structure ResponseHead (fields : Nat → UInt8 → List ResponseAction × Nat) where
  head : Bytes
  parser : HttpResponseParser
  accepted : (httpclientParser fields).accepts 1 head = true
  clean : (httpclientParser fields).clean ResponseAction.registers [] 1 head = true
  parsed : (httpclientParser fields).follow (HttpResponseParser.act head) 0 1 {} head = some parser
  valid : parser.error = 0
  version : head.head? = some 72

namespace ResponseHead

variable {fields : Nat → UInt8 → List ResponseAction × Nat} {size : Nat}

theorem head_ne_nil (r : ResponseHead fields) : r.head ≠ [] := by
  intro hnil
  have haccepted := r.accepted
  rw [hnil] at haccepted
  cases haccepted

/-- The head is parsed as it stands, whatever has come behind it. -/
theorem turn_head (hfields : HeaderFields fields) (r : ResponseHead fields) {left : Bytes}
    (hsize : left.length ≠ size) :
    ∃ x, (HttpConnection.responseHead (httpclientParser fields) size false).turn {}
        (r.head ++ left) = .finished x left ∧
      x.data = r.parser.data ∧ x.error = 0 ∧ x.chunked = r.parser.chunked := by
  obtain ⟨x, y, hx, hy, hdata, herror, hchunked⟩ := HttpResponseParser.follow_agrees hfields
    [] [] left (x := {}) (y := {}) rfl rfl rfl r.clean
  rw [List.append_nil, r.parsed] at hx
  cases hx
  rw [List.nil_append, List.length_nil] at hy
  obtain ⟨hnoerror, hfinished⟩ := Scanner.run_of_accepts r.accepted
  have hscan := Scanner.scan_accepts_append (HttpResponseParser.act (r.head ++ left)) 0 {}
    r.accepted left
  have hzero : y.error = 0 := herror.symm.trans r.valid
  refine ⟨{ y with cs := (httpclientParser fields).run 1 r.head }, ?_, hdata.symm, hzero,
    hchunked.symm⟩
  simp only [HeadLoop.turn, HttpConnection.responseHead, HttpResponseParser.execute, hscan, hy,
    Option.map_some, HttpResponseParser.hasError, HttpResponseParser.isFinished, hzero, hnoerror,
    hfinished, Nat.zero_add, List.drop_left, hsize, Bool.false_eq_true, if_false]
  rfl

def response (r : ResponseHead fields) (cs : List Chunk) : HttpResponse :=
  { r.parser.data with body := chunkData cs }

/-- What `recvResponse` does behind a head that says that the body comes in chunks. -/
theorem recvResponse_chunked (hfields : HeaderFields fields) (r : ResponseHead fields)
    (hchunked : r.parser.chunked = true) {left : Bytes} (reads : List ReadResult)
    (hanswers : (ReadResult.data (r.head ++ left)).answers size = true) :
    ∃ x, x.data = r.parser.data ∧ x.error = 0 ∧ left.length < size ∧
      HttpConnection.recvResponse (httpclientParser fields) size
          (.data (r.head ++ left) :: reads) =
        (HttpConnection.recvChunks (httpclientParser fields) size
          (left.length + HttpConnection.available reads + 1) x left [] reads).map
            (Recv.map fun (parser, body) => { parser.data with body }) := by
  have hpos := List.length_pos_of_ne_nil r.head_ne_nil
  have hlt : left.length < size := by
    simp only [ReadResult.answers, Bool.and_eq_true, decide_eq_true_eq, List.length_append]
      at hanswers
    omega
  obtain ⟨x, hturn, hdata, herror, hx⟩ := r.turn_head hfields (Nat.ne_of_lt hlt)
  refine ⟨x, hdata, herror, hlt, ?_⟩
  have hloop : (HttpConnection.responseHead (httpclientParser fields) size false).recvHead {} []
      (.data (r.head ++ left) :: reads) = some (.ret (x, left) reads) := by
    rw [HeadLoop.recvHead]
    show (if (!(ReadResult.data (r.head ++ left)).answers size) = true then none else _) = _
    rw [hanswers]
    simp only [List.nil_append, hturn]
    rfl
  rw [HttpConnection.recvResponse, hloop, Option.bind_some, Recv.bind_ret]
  dsimp only
  rw [if_pos (hx.trans hchunked)]

/-- Whatever the reads that bring the body, the data of the chunks come out. -/
def DecodesEveryCut (size : Nat) (r : ResponseHead fields) (cs : List Chunk) : Prop :=
  ∀ (left : Bytes) (pieces : List Bytes) (more : List ReadResult), (∀ d ∈ pieces, d ≠ []) →
    left ++ pieces.flatten = Chunk.wire (cs ++ [Chunk.last]) →
    HttpConnection.recvResponse (httpclientParser fields) size
      (((r.head ++ left) :: pieces).map ReadResult.data ++ more) ≠ none →
    HttpConnection.recvResponse (httpclientParser fields) size
      (((r.head ++ left) :: pieces).map ReadResult.data ++ more) = some (.ret (r.response cs) more)

/-- When no read ends within a size line, the data of the chunks come out. -/
theorem decodes_of_cutsNoLine (hfields : HeaderFields fields) (r : ResponseHead fields)
    (hchunked : r.parser.chunked = true) {cs : List Chunk} (hdata : ∀ c ∈ cs, c.data ≠ [])
    {left : Bytes} {pieces : List Bytes} {more : List ReadResult} (hread : ∀ d ∈ pieces, d ≠ [])
    (hbytes : left ++ pieces.flatten = Chunk.wire (cs ++ [Chunk.last]))
    (hcuts : CutsNoLine (cs ++ [Chunk.last]) pieces)
    (hsome : HttpConnection.recvResponse (httpclientParser fields) size
      (((r.head ++ left) :: pieces).map ReadResult.data ++ more) ≠ none) :
    HttpConnection.recvResponse (httpclientParser fields) size
      (((r.head ++ left) :: pieces).map ReadResult.data ++ more) =
        some (.ret (r.response cs) more) := by
  rw [List.map_cons, List.cons_append] at hsome ⊢
  cases hanswers : (ReadResult.data (r.head ++ left)).answers size with
  | false =>
    refine absurd ?_ hsome
    have hloop : (HttpConnection.responseHead (httpclientParser fields) size false).recvHead {} []
        (.data (r.head ++ left) :: (pieces.map ReadResult.data ++ more)) = none := by
      rw [HeadLoop.recvHead]
      show (if (!(ReadResult.data (r.head ++ left)).answers size) = true then none else _) = _
      rw [hanswers]
      rfl
    rw [HttpConnection.recvResponse, hloop]
    rfl
  | true =>
    obtain ⟨x, hx, herror, hlt, hrecv⟩ := r.recvResponse_chunked hfields hchunked
      (pieces.map ReadResult.data ++ more) hanswers
    rw [hrecv] at hsome ⊢
    -- every chunk takes a byte of what the socket delivers
    have hfuel : cs.length < left.length +
        HttpConnection.available (pieces.map ReadResult.data ++ more) + 1 := by
      have hwire := Chunk.length_le_wire (cs ++ [Chunk.last])
      rw [← hbytes, List.length_append, List.length_append] at hwire
      have havailable := available_pieces pieces more
      simp only [List.length_cons, List.length_nil] at hwire
      omega
    rcases recvChunks_pieces fields hdata hfuel x herror [] more hread
      (Nat.le_of_lt hlt) hbytes hcuts with hnone | ⟨parser', hparser, hret⟩
    · rw [hnone] at hsome
      exact absurd rfl hsome
    · rw [hret, Option.map_some, Recv.map_ret, List.nil_append]
      show some (Recv.ret { parser'.data with body := chunkData cs } more) = _
      rw [hparser, hx]
      rfl

/-- A read that ends between the digits of a size and the line end. -/
theorem null_of_cut (hfields : HeaderFields fields) (r : ResponseHead fields)
    (hchunked : r.parser.chunked = true) (c : Chunk) (reads : List ReadResult)
    (hhead : (ReadResult.data r.head).answers size = true)
    (hdigits : (ReadResult.data c.digits).answers size = true) :
    HttpConnection.recvResponse (httpclientParser fields) size
      (.data r.head :: .data c.digits :: .data [13] :: reads) = some (.null true) := by
  rw [← List.append_nil r.head] at hhead
  obtain ⟨x, hx, herror, hlt, hrecv⟩ := r.recvResponse_chunked hfields hchunked
    (.data c.digits :: .data [13] :: reads) hhead
  rw [List.append_nil] at hrecv
  have hone : (ReadResult.data [13]).answers size = true := by
    simp only [ReadResult.answers, Bool.and_eq_true, decide_eq_true_eq]
    exact ⟨⟨by simp, hlt⟩, by decide⟩
  have hloop : HttpConnection.recvChunkHead (httpclientParser fields) size x []
      (.data c.digits :: .data [13] :: reads) = some (.null true) := by
    rw [HttpConnection.recvChunkHead, if_pos rfl, HeadLoop.recvHead]
    show (if (!(ReadResult.data c.digits).answers size) = true then none else _) = _
    rw [hdigits]
    simp only [List.nil_append, turn_digits c herror (Nat.ne_of_lt hlt)]
    rw [HeadLoop.recvHead]
    show (if false = true then none else
      if (!(ReadResult.data [13]).answers size) = true then none else _) = _
    rw [hone]
    simp only [List.nil_append, turn_cr]
    rfl
  rw [hrecv, HttpConnection.recvChunks, hloop]
  rfl

/-- For no response do the data come out whatever the cut; they do whenever no read ends within a size
line. -/
theorem decodes_chunks (hfields : HeaderFields fields) (r : ResponseHead fields)
    (hchunked : r.parser.chunked = true) (cs : List Chunk) (hdata : ∀ c ∈ cs, c.data ≠ [])
    (hhead : (ReadResult.data r.head).answers size = true)
    (hlines : ∀ c ∈ cs ++ [Chunk.last], (ReadResult.data c.line).answers size = true) :
    ¬ DecodesEveryCut size r cs ∧
      ∀ (left : Bytes) (pieces : List Bytes) (more : List ReadResult), (∀ d ∈ pieces, d ≠ []) →
        left ++ pieces.flatten = Chunk.wire (cs ++ [Chunk.last]) →
        CutsNoLine (cs ++ [Chunk.last]) pieces →
        HttpConnection.recvResponse (httpclientParser fields) size
          (((r.head ++ left) :: pieces).map ReadResult.data ++ more) ≠ none →
        HttpConnection.recvResponse (httpclientParser fields) size
          (((r.head ++ left) :: pieces).map ReadResult.data ++ more) =
            some (.ret (r.response cs) more) := by
  constructor
  · intro hevery
    obtain ⟨c, cs', hcs⟩ : ∃ c cs', cs ++ [Chunk.last] = c :: cs' :=
      List.exists_cons_of_ne_nil (by simp)
    -- the first size line is cut in front of its line end
    have hdigits : (ReadResult.data c.digits).answers size = true := by
      have hline := hlines c (hcs ▸ List.mem_cons_self)
      simp only [ReadResult.answers, Bool.and_eq_true, decide_eq_true_eq, Chunk.line,
        List.length_append] at hline ⊢
      exact ⟨⟨c.ne_nil, by omega⟩, by omega⟩
    have hnull := r.null_of_cut hfields hchunked c
      [.data (10 :: (c.rest ++ Chunk.wire cs'))] hhead hdigits
    have hcut := hevery [] [c.digits, [13], 10 :: (c.rest ++ Chunk.wire cs')] []
      (by simp [c.ne_nil]) (by rw [hcs, Chunk.wire_cons, Chunk.line]; simp)
    simp [hnull] at hcut
  · intro left pieces more hread hbytes hcuts
    exact r.decodes_of_cutsNoLine hfields hchunked hdata hread hbytes hcuts

end ResponseHead

/-! ## A response -/

/-- The transitions of the one header `transfer-encoding:chunked`. -/
def chunkedTable : List (Nat × UInt8 × List ResponseAction × Nat) := [
  (24, 10, [], 20), (20, 116, [.startField], 44), (44, 114, [], 45), (45, 97, [], 46),
  (46, 110, [], 47), (47, 115, [], 48), (48, 102, [], 49), (49, 101, [], 50), (50, 114, [], 51),
  (51, 45, [], 52), (52, 101, [], 53), (53, 110, [], 54), (54, 99, [], 55), (55, 111, [], 56),
  (56, 100, [], 57), (57, 105, [], 58), (58, 110, [], 59), (59, 103, [], 60),
  (60, 58, [.writeField], 61), (61, 99, [.startValue], 81), (81, 104, [], 82), (82, 117, [], 83),
  (83, 110, [], 84), (84, 107, [], 85), (85, 101, [], 86), (86, 100, [], 87),
  (87, 13, [.writeValue], 71), (71, 10, [.transChunked], 20), (20, 13, [], 3)]

def chunkedFields (cs : Nat) (b : UInt8) : List ResponseAction × Nat :=
  match chunkedTable.find? fun t => t.1 = cs ∧ t.2.1 = b with
  | some t => t.2.2
  | none => ([], 0)

theorem chunkedFields_trusted : HeaderFields chunkedFields := by
  have htable : ∀ t ∈ chunkedTable, .statusCode ∉ t.2.2.1 ∧ t.2.2.2 ≠ 17 := by decide
  constructor
  · intro cs b
    unfold chunkedFields
    split
    · next t ht => exact (htable t (List.mem_of_find?_eq_some ht)).1
    · exact List.not_mem_nil
  · intro cs b
    unfold chunkedFields
    split
    · next t ht => exact (htable t (List.mem_of_find?_eq_some ht)).2
    · decide

def chunkedHead : Bytes :=
  ascii [
    'H', 'T', 'T', 'P', '/', '1', '.', '1', ' ', '2', '0', '0', ' ', 'O', 'K', '\r', '\n', 't',
    'r', 'a', 'n', 's', 'f', 'e', 'r', '-', 'e', 'n', 'c', 'o', 'd', 'i', 'n', 'g', ':', 'c',
    'h', 'u', 'n', 'k', 'e', 'd', '\r', '\n', '\r', '\n']

def chunkedResponse : ResponseHead chunkedFields where
  head := chunkedHead
  parser :=
    ((httpclientParser chunkedFields).follow (HttpResponseParser.act chunkedHead) 0 1 {}
      chunkedHead).getD {}
  accepted := by decide +kernel
  clean := by decide +kernel
  parsed := by decide +kernel
  valid := by decide +kernel
  version := rfl

def hiChunk : Chunk where
  digits := ascii ['2']
  data := ascii ['h', 'i']
  ne_nil := by decide
  hex := by decide
  size := by decide
  le := by decide

def abcChunk : Chunk where
  digits := ascii ['3']
  data := ascii ['a', 'b', 'c']
  ne_nil := by decide
  hex := by decide
  size := by decide
  le := by decide

def cutChunks : List Bytes :=
  [ascii ['2', '\r', '\n', 'h', 'i', '\r', '\n', '3', '\r', '\n', 'a'],
    ascii ['b', 'c', '\r', '\n'], ascii ['0', '\r', '\n', '\r', '\n']]

theorem decodes_chunks_two :
    ¬ ResponseHead.DecodesEveryCut 4096 chunkedResponse [hiChunk, abcChunk] ∧
      HttpConnection.recvResponse (httpclientParser chunkedFields) 4096
        (((chunkedHead ++ []) :: cutChunks).map ReadResult.data ++ []) =
          some (.ret (chunkedResponse.response [hiChunk, abcChunk]) []) := by
  have hcuts : CutsNoLine ([hiChunk, abcChunk] ++ [Chunk.last]) cutChunks := by
    intro c cs' hcs b hb hlt
    simp only [List.cons_append, List.nil_append, cutChunks, List.suffix_cons_iff, List.cons.injEq,
      List.suffix_nil, reduceCtorEq, or_false] at hcs hb
    rcases hcs with ⟨rfl, rfl⟩ | ⟨rfl, rfl⟩ | ⟨rfl, rfl⟩ <;> rcases hb with rfl | rfl | rfl | rfl <;>
      revert hlt <;> decide
  have hall := ResponseHead.decodes_chunks chunkedFields_trusted chunkedResponse (by decide +kernel)
    [hiChunk, abcChunk] (by decide) (show _ = true by decide +kernel)
    (show ∀ c ∈ [hiChunk, abcChunk] ++ [Chunk.last], (ReadResult.data c.line).answers 4096 = true by decide)
  refine ⟨hall.1, hall.2 [] cutChunks [] (by decide) (by decide) hcuts fun hnone => ?_⟩
  have hsome : (HttpConnection.recvResponse (httpclientParser chunkedFields) 4096
      (((chunkedHead ++ []) :: cutChunks).map ReadResult.data ++ [])).isSome = true := by
    decide +kernel
  rw [show chunkedResponse.head = chunkedHead from rfl] at hnone
  rw [hnone] at hsome
  cases hsome

/-- The size line of the only chunk is cut in front of its line end. -/
theorem size_line_forgotten :
    [ascii ['2'], ascii ['\r', '\n', 'h', 'i', '\r', '\n', '0', '\r', '\n', '\r', '\n']].flatten =
        Chunk.wire [hiChunk, Chunk.last] ∧
      HttpConnection.recvResponse (httpclientParser chunkedFields) 4096
        [.data chunkedHead, .data (ascii ['2']),
          .data (ascii ['\r', '\n', 'h', 'i', '\r', '\n', '0', '\r', '\n', '\r', '\n'])] =
        some (.null true) ∧
      ¬ ResponseHead.DecodesEveryCut 4096 chunkedResponse [hiChunk] := by
  have hnull : HttpConnection.recvResponse (httpclientParser chunkedFields) 4096
      [.data chunkedHead, .data (ascii ['2']),
        .data (ascii ['\r', '\n', 'h', 'i', '\r', '\n', '0', '\r', '\n', '\r', '\n'])] =
      some (.null true) := by decide +kernel
  refine ⟨by decide, hnull, fun hevery => ?_⟩
  have hcut := hevery []
    [ascii ['2'], ascii ['\r', '\n', 'h', 'i', '\r', '\n', '0', '\r', '\n', '\r', '\n']] []
    (by decide) (by decide)
  have hhead : chunkedResponse.head ++ [] = chunkedHead := List.append_nil _
  rw [hhead] at hcut
  have hret := hcut (by rw [List.append_nil]; exact fun h => by cases hnull.symm.trans h)
  rw [List.append_nil] at hret
  cases hnull.symm.trans hret

end Azure
