import Azure.Http.Chunked
import Azure.Http.SizeLines

/-!
# The sizes of chunks

The size of a chunk is an `int` that the peer has written.  The loop over the chunks adds to it,
subtracts from it and passes it on as a `size_t`; only a size that is negative, or as great as an `int`
can be, does harm.
-/

namespace Azure

open Reasoning

/-! ## What is done with the buffer -/

/-- What the loop over the chunks does with the buffer, in which `filled` bytes lie, and with the body. -/
inductive BufferCall where
  /-- the size and the line end, an `int` -/
  | sum (value : Int)
  | read (offset count : Int)
  | append (count : Int) (filled : Nat)
  | memmove (source count : Int) (filled : Nat)
  | resize (length : Int)
  deriving DecidableEq, Repr

namespace BufferCall

/-- The counts are not negative, and the ranges lie within what they are taken from. -/
def Safe (size : Nat) : BufferCall → Prop
  | sum value => value < 2 ^ 31
  | read offset count => 1 ≤ count ∧ 0 ≤ offset ∧ offset + count ≤ size
  | append count filled => 0 ≤ count ∧ count ≤ filled ∧ filled ≤ size
  | memmove source count filled =>
    0 ≤ count ∧ count ≤ filled ∧ 0 ≤ source ∧ source + count ≤ filled ∧ filled ≤ size
  | resize length => 0 ≤ length

instance (size : Nat) (c : BufferCall) : Decidable (c.Safe size) := by
  cases c <;> unfold Safe <;> infer_instance

end BufferCall

/-- The loop for the rest of a chunk, with the `resize` behind it; the body has `length` bytes. -/
def restCalls (size : Nat) (left length : Int) : List ReadResult → List BufferCall
  | [] => if left ≤ 0 then [.resize (length - 2)] else [.read 0 (min left size)]
  | r :: reads =>
    if left ≤ 0 then [.resize (length - 2)]
    else
      .read 0 (min left size) ::
        match r with
        | .fail _ => []
        | .data bytes =>
          .append bytes.length bytes.length ::
            restCalls size (left - bytes.length) (length + bytes.length) reads

def dataCalls (size : Nat) (contentLen : Int) (left : Bytes) (length : Int) (reads : List ReadResult) :
    List BufferCall :=
  .sum (contentLen + 2) ::
    if 2 ^ 31 ≤ contentLen + 2 then []
    else if contentLen + 2 ≤ left.length then
      [.append contentLen left.length,
        .memmove (contentLen + 2) (left.length - contentLen - 2) left.length]
    else
      .append left.length left.length ::
        restCalls size (contentLen - left.length + 2) (length + left.length) reads

section Data

variable {size : Nat} {left contentLen : Int} {buffer body : Bytes} {reads : List ReadResult}

namespace HttpConnection

theorem length_of_recvRest {r : Recv Bytes} (h : recvRest size left body reads = some r) :
    ∀ body' rest, r = .ret body' rest → (body'.length : Int) = body.length + max left 0 := by
  intro body' rest hret
  obtain ⟨used, rest', -, ⟨hr, hlen⟩ | ⟨hr, -⟩ | ⟨n, hr, -⟩⟩ := recvRest_outcome h
  · rw [hr] at hret
    cases hret
    rw [List.length_append, Nat.cast_add, hlen]
  · rw [hr] at hret
    cases hret
  · rw [hr] at hret
    cases hret

theorem resize_safe_iff :
    (∀ c ∈ [BufferCall.resize (body.length - 2)], c.Safe size) ↔
      ∀ body' rest, Recv.ret body reads = .ret body' rest → 2 ≤ body'.length := by
  rw [List.forall_mem_singleton]
  constructor
  · rintro (hlen : (0 : Int) ≤ body.length - 2) body' rest hr
    cases hr
    omega
  · intro hlen
    have hbody := hlen body reads rfl
    show (0 : Int) ≤ body.length - 2
    omega

/-- The calls for the rest of a chunk are safe, if the body has two bytes to give back in the end. -/
theorem restCalls_safe_iff {r : Recv Bytes} (hsize : 0 < size)
    (h : recvRest size left body reads = some r) :
    (∀ c ∈ restCalls size left body.length reads, c.Safe size) ↔
      ∀ body' rest, r = .ret body' rest → 2 ≤ body'.length := by
  induction reads generalizing left body with
  | nil =>
    rw [recvRest] at h
    rw [restCalls]
    split_ifs at h ⊢ with hdone
    · cases h
      exact resize_safe_iff
    · cases h
      refine iff_of_true (fun c hc => ?_) fun body' rest hr => ?_
      · rw [List.mem_singleton.mp hc]
        exact ⟨by omega, Int.le_refl 0, by omega⟩
      · cases hr
  | cons read reads ih =>
    have hread : 0 < left → (BufferCall.read 0 (min left size)).Safe size := fun hleft =>
      ⟨by omega, Int.le_refl 0, by omega⟩
    cases read with
    | fail n =>
      rw [recvRest] at h
      rw [restCalls]
      split_ifs at h ⊢ with hdone
      · cases h
        exact resize_safe_iff
      · cases h
        rw [List.forall_mem_cons, and_iff_right (hread (by omega))]
        refine iff_of_true (fun c hc => absurd hc List.not_mem_nil) fun body' rest hr => ?_
        cases hr
    | data bytes =>
      rw [recvRest] at h
      rw [restCalls]
      split_ifs at h ⊢ with hdone hanswers
      · cases h
        exact resize_safe_iff
      · rw [Bool.not_eq_true', Bool.not_eq_false] at hanswers
        simp only [ReadResult.answers, Bool.and_eq_true, decide_eq_true_eq] at hanswers
        -- what a read brings is appended as a whole
        have happend : (BufferCall.append bytes.length bytes.length).Safe size :=
          ⟨by omega, Int.le_refl _, by omega⟩
        have hrest := ih h
        rw [List.length_append, Nat.cast_add] at hrest
        rw [List.forall_mem_cons, and_iff_right (hread (by omega)), List.forall_mem_cons,
          and_iff_right happend]
        exact hrest

theorem recvRest_not_thrown : recvRest size left body reads ≠ some .thrown := by
  intro h
  obtain ⟨used, rest, -, ⟨hr, -⟩ | ⟨hr, -⟩ | ⟨n, hr, -⟩⟩ := recvRest_outcome h <;> cases hr

/-- The rest of one byte comes with the first read. -/
theorem recvRest_one {r : Recv Bytes} {bytes : Bytes}
    (h : recvRest size 1 body (.data bytes :: reads) = some r) :
    ∃ body' rest, r = .ret body' rest := by
  rw [recvRest] at h
  split_ifs at h with hdone hanswers
  · exact absurd hdone (by decide)
  · rw [Bool.not_eq_true', Bool.not_eq_false] at hanswers
    simp only [ReadResult.answers, Bool.and_eq_true, decide_eq_true_eq] at hanswers
    have hpos := List.length_pos_of_ne_nil hanswers.1.1
    have hle : (1 : Int) - bytes.length ≤ 0 := by omega
    rw [recvRest_done hle] at h
    cases h
    exact ⟨_, _, rfl⟩

/-- No rest comes without a read. -/
theorem recvRest_not_ret {body' : Bytes} {rest : List ReadResult}
    (hnone : ∀ bytes rest, reads ≠ .data bytes :: rest) :
    recvRest size 1 body reads ≠ some (.ret body' rest) := by
  cases reads with
  | nil => simp [recvRest]
  | cons read reads =>
    cases read with
    | fail n =>
      rw [recvRest]
      split_ifs with hdone
      · exact absurd hdone (by decide)
      · simp
      · simp
    | data bytes => exact absurd rfl (hnone bytes reads)

end HttpConnection

/-- A size that does no harm: it is not negative, and the line end can be added to it; or there is none,
nothing is in the buffer, and the two bytes that are taken back from the body are there. -/
def SizeFits (contentLen : Int) (buffer body : Bytes) (reads : List ReadResult) : Prop :=
  0 ≤ contentLen ∧ contentLen + 2 < 2 ^ 31 ∨
    contentLen = -1 ∧ buffer = [] ∧ (body ≠ [] ∨ ∀ bytes rest, reads ≠ .data bytes :: rest)

/-- The data of a chunk are taken safely if and only if the size fits. -/
theorem dataCalls_safe_iff {r : Recv (Bytes × Bytes)} (hbuffer : buffer.length < size)
    (h : HttpConnection.recvChunkData size contentLen buffer body reads = some r) :
    ((∀ c ∈ dataCalls size contentLen buffer body.length reads, c.Safe size) ∧ r ≠ .thrown) ↔
      SizeFits contentLen buffer body reads := by
  rw [dataCalls, List.forall_mem_cons]
  rw [HttpConnection.recvChunkData] at h
  by_cases hint : 2 ^ 31 ≤ contentLen + 2
  · refine iff_of_false (fun hsafe => absurd hsafe.1.1 (Int.not_lt.mpr hint)) ?_
    rintro (⟨-, hlt⟩ | ⟨hneg, -⟩) <;> omega
  have hsum : (BufferCall.sum (contentLen + 2)).Safe size := Int.not_le.mp hint
  rw [if_neg hint] at h ⊢
  rw [and_iff_right hsum]
  by_cases hwhole : contentLen + 2 ≤ buffer.length
  · rw [if_pos hwhole] at h ⊢
    rw [List.forall_mem_cons, List.forall_mem_singleton]
    by_cases hneg : contentLen < 0
    · refine iff_of_false (fun hsafe => ?_) ?_
      · have happend : (0 : Int) ≤ contentLen := hsafe.1.1.1
        omega
      · rintro (⟨hnonneg, -⟩ | ⟨hminus, hnil, -⟩)
        · omega
        · rw [hnil, List.length_nil] at hwhole
          omega
    · rw [if_neg hneg] at h
      cases h
      refine iff_of_true ⟨⟨⟨by omega, by omega, by omega⟩, ?_⟩, fun hr => ?_⟩ (Or.inl ⟨by omega, by omega⟩)
      · exact ⟨by omega, by omega, by omega, by omega, by omega⟩
      · cases hr
  · rw [if_neg hwhole] at h ⊢
    have happend : (BufferCall.append buffer.length buffer.length).Safe size :=
      ⟨by omega, Int.le_refl _, by omega⟩
    rw [List.forall_mem_cons, and_iff_right happend]
    obtain ⟨q, hq, hbind⟩ := Option.bind_eq_some_iff.mp h
    have hcalls := HttpConnection.restCalls_safe_iff (by omega) hq
    have hlength := HttpConnection.length_of_recvRest hq
    rw [List.length_append, Nat.cast_add] at hcalls hlength
    have hthrown : r ≠ .thrown ↔ ∀ body' rest, q = .ret body' rest → 2 ≤ body'.length := by
      cases q with
      | wait | null =>
        cases hbind
        refine iff_of_true (fun hr => ?_) fun body' rest hr => ?_ <;> cases hr
      | thrown => exact absurd hq HttpConnection.recvRest_not_thrown
      | ret body' rest =>
        cases hbind
        constructor
        · intro hr body'' rest' heq
          cases heq
          by_contra hlt
          rw [if_pos (Nat.not_le.mp hlt)] at hr
          exact hr rfl
        · intro hlen hr
          rw [if_neg (Nat.not_lt.mpr (hlen body' rest rfl))] at hr
          cases hr
    rw [hcalls, hthrown, and_self_iff]
    -- what is left of the chunk is taken from the reads, the line end included
    by_cases hnonneg : 0 ≤ contentLen
    · refine iff_of_true (fun body' rest hr => ?_) (Or.inl ⟨hnonneg, by omega⟩)
      have hlen := hlength body' rest hr
      omega
    · have hminus : contentLen = -1 := by omega
      have hnil : buffer = [] := List.eq_nil_of_length_eq_zero (by omega)
      subst hminus hnil
      constructor
      · intro hlen
        refine Or.inr ⟨rfl, rfl, ?_⟩
        by_contra hnot
        push Not at hnot
        obtain ⟨hbody, bytes, rest, hreads⟩ := hnot
        subst hreads hbody
        obtain ⟨body', rest', hret⟩ := HttpConnection.recvRest_one hq
        have htwo := hlen body' rest' hret
        have hone := hlength body' rest' hret
        simp at hone
        omega
      · rintro (⟨hnonneg', -⟩ | ⟨-, -, hbody⟩) body' rest hr
        · omega
        · have hlen := hlength body' rest hr
          rcases hbody with hne | hnone
          · have hpos := List.length_pos_of_ne_nil hne
            simp at hlen
            omega
          · exact absurd hq (hr ▸ HttpConnection.recvRest_not_ret hnone)

end Data

/-! ## The loop over the chunks -/

/-- `recvResponse` at the begin of a turn of the loop over the chunks. -/
structure Receiving where
  parser : HttpResponseParser
  left : Bytes
  body : Bytes := []
  reads : List ReadResult

namespace Receiving

def ahead (s : Receiving) : Nat := s.left.length + HttpConnection.available s.reads

end Receiving

namespace HttpConnection

section Loop

variable (M : Scanner Nat ResponseAction) (size : Nat)

def chunkHead (s : Receiving) : Option (Recv (HttpResponseParser × Bytes)) :=
  recvChunkHead M size s.parser s.left s.reads

def chunks (n : Nat) (s : Receiving) : Option (Recv (HttpResponseParser × Bytes)) :=
  recvChunks M size n s.parser s.left s.body s.reads

def ChunkStep (s : Receiving) (contentLen : Int) (s' : Receiving) : Prop :=
  ∃ left reads, chunkHead M size s = some (.ret (s'.parser, left) reads) ∧
    s'.parser.contentLen = contentLen ∧ s'.parser.chunksDone = false ∧
    recvChunkData size contentLen left s.body reads = some (.ret (s'.body, s'.left) s'.reads)

/-- The turns that the loop for a size line comes to; it does not read first when some bytes are there. -/
def LineTurn (s : Receiving) (t : HeadLoop.Turn HttpResponseParser) : Prop :=
  if s.left = [] then (responseHead M size true).Turns s.parser [] s.reads t
  else ∃ used,
    Run (responseHead M size true).Next { parser := s.parser, data := s.left, reads := s.reads } used t

inductive Calls (s : Receiving) : BufferCall → Prop
  | first (h : s.left = []) : Calls s (.read 0 size)
  | line {t : HeadLoop.Turn HttpResponseParser} {parser : HttpResponseParser} {left : Bytes}
      (ht : LineTurn M size s t)
      (hmore : (responseHead M size true).turn t.parser t.data = .more parser left) :
    Calls s (.read left.length (size - left.length))
  | data {parser : HttpResponseParser} {left : Bytes} {reads : List ReadResult} {c : BufferCall}
      (hhead : chunkHead M size s = some (.ret (parser, left) reads))
      (hc : c ∈ dataCalls size parser.contentLen left s.body.length reads) :
    Calls s c

variable {M size} {s s' : Receiving} {n : Nat} {r : Recv (HttpResponseParser × Bytes)}
  {t : HeadLoop.Turn HttpResponseParser}

theorem chunkHead_eq (M : Scanner Nat ResponseAction) (size : Nat) (s : Receiving) :
    chunkHead M size s =
      if s.left = [] then (responseHead M size true).recvHead s.parser [] s.reads
      else (responseHead M size true).resume { parser := s.parser, data := s.left, reads := s.reads } := by
  rw [chunkHead, recvChunkHead, HeadLoop.resume]
  cases (responseHead M size true).turn s.parser s.left <;> rfl

theorem LineTurn.resume (ht : LineTurn M size s t) (h : chunkHead M size s = some r)
    (hleft : s.left.length ≤ size) :
    t.data.length ≤ size ∧ (responseHead M size true).resume t = some r := by
  rw [chunkHead_eq] at h
  rw [LineTurn] at ht
  split_ifs at h ht with hnil
  · exact ht.resume h (Nat.zero_le _)
  · obtain ⟨used, hrun⟩ := ht
    obtain ⟨hdata, hresume⟩ := HeadLoop.resume_run hrun h
    exact ⟨Nat.le_trans hdata (Nat.max_le.mpr ⟨hleft, Nat.le_refl _⟩), hresume⟩

/-- The bytes that are read before a turn of the loop for a size line. -/
theorem LineTurn.taken (ht : LineTurn M size s t) :
    ∃ used : List Bytes, s.reads = used.map .data ++ t.reads := by
  rw [LineTurn] at ht
  split_ifs at ht with hnil
  · exact HeadLoop.Turns.taken ht
  · obtain ⟨used, hrun⟩ := ht
    exact ⟨used, HeadLoop.reads_of_run hrun⟩

/-- What holds where the loop for a size line begins, and is kept from turn to turn, holds of all its
turns. -/
theorem LineTurn.invariant {P : HeadLoop.Turn HttpResponseParser → Prop} (ht : LineTurn M size s t)
    (hread : ∀ bytes rest, s.reads = .data bytes :: rest →
      P { parser := s.parser, data := [] ++ bytes, reads := rest })
    (hleft : P { parser := s.parser, data := s.left, reads := s.reads })
    (hnext : ∀ u bytes v, LineTurn M size s u → P u → (responseHead M size true).Next u bytes v → P v) :
    P t := by
  have hrun : ∀ (t₀ t : HeadLoop.Turn HttpResponseParser) used,
      (∀ used t, Run (responseHead M size true).Next t₀ used t → LineTurn M size s t) → P t₀ →
      Run (responseHead M size true).Next t₀ used t → P t := by
    intro t₀ t used hline hinit hrun
    -- the turns in between are turns of the loop, too
    have hboth := hrun.history_invariant
      (fun used t => Run (responseHead M size true).Next t₀ used t ∧ P t) ⟨.nil t₀, hinit⟩
      (fun used u bytes v ⟨hu, hP⟩ hstep => ⟨.snoc hu hstep, hnext u bytes v (hline _ _ hu) hP hstep⟩)
    exact hboth.2
  rw [LineTurn] at ht
  split_ifs at ht with hnil
  · obtain ⟨bytes, rest, used, hreads, hturns⟩ := ht
    refine hrun _ t used (fun used' u hu => ?_) (hread bytes rest hreads) hturns
    rw [LineTurn, if_pos hnil]
    exact ⟨bytes, rest, used', hreads, hu⟩
  · obtain ⟨used, hturns⟩ := ht
    refine hrun _ t used (fun used' u hu => ?_) hleft hturns
    rw [LineTurn, if_neg hnil]
    exact ⟨used', hu⟩

/-- With nothing to read there is one turn. -/
theorem LineTurn.of_left (ht : LineTurn M size s t) (hleft : s.left ≠ []) (hreads : s.reads = []) :
    t = { parser := s.parser, data := s.left, reads := s.reads } := by
  rw [LineTurn, if_neg hleft] at ht
  obtain ⟨used, hrun⟩ := ht
  apply hrun.invariant (· = { parser := s.parser, data := s.left, reads := s.reads }) rfl
  rintro u bytes v rfl ⟨-, -, hcons, -⟩
  rw [hreads] at hcons
  cases hcons

/-- The loop for a size line returns null, or waits, or ends in a turn that it comes to. -/
theorem chunkHead_last (h : chunkHead M size s = some r) :
    r = .null true ∨ (r = .wait ∧ ∃ used : List Bytes, s.reads = used.map .data) ∨
      ∃ t, LineTurn M size s t ∧ (responseHead M size true).Ends t r := by
  rw [chunkHead_eq] at h
  by_cases hnil : s.left = []
  · rw [if_pos hnil] at h
    rcases HeadLoop.recvHead_last h with hnull | hwait | ⟨t, ht, hlast⟩
    · exact Or.inl hnull
    · exact Or.inr (Or.inl hwait)
    · exact Or.inr (Or.inr ⟨t, by rwa [LineTurn, if_pos hnil], hlast⟩)
  · rw [if_neg hnil] at h
    rcases HeadLoop.resume_last h with hnull | hwait | ⟨used, t, hrun, hlast⟩
    · exact Or.inl hnull
    · exact Or.inr (Or.inl hwait)
    · exact Or.inr (Or.inr ⟨t, by rw [LineTurn, if_neg hnil]; exact ⟨used, hrun⟩, hlast⟩)

theorem chunkHead_thrown_iff (h : chunkHead M size s = some r) (hleft : s.left.length ≤ size) :
    r = .thrown ↔ ∃ t, LineTurn M size s t ∧ lineWrites M t.data = none := by
  have hnone : ∀ t : HeadLoop.Turn HttpResponseParser,
      (responseHead M size true).turn t.parser t.data = .thrown ↔ lineWrites M t.data = none := by
    intro t
    rw [HeadLoop.turn_eq_thrown_iff]
    -- what the parser was before does not decide whether a line throws
    have hwrites := HttpResponseParser.execute_writes M t.parser t.data
    show t.parser.execute M true t.data = none ↔ _
    revert hwrites
    cases t.parser.execute M true t.data <;> cases lineWrites M t.data <;> intro hwrites
    · exact iff_of_true rfl rfl
    · cases hwrites
    · cases hwrites
    · exact iff_of_false (Option.some_ne_none _) (Option.some_ne_none _)
  constructor
  · rintro rfl
    rcases chunkHead_last h with hnull | ⟨hwait, -⟩ | ⟨t, ht, ⟨hthrown, -⟩ | ⟨_, _, -, hret⟩⟩
    · cases hnull
    · cases hwait
    · exact ⟨t, ht, (hnone t).mp hthrown⟩
    · cases hret
  · rintro ⟨t, ht, hwrites⟩
    obtain ⟨-, hresume⟩ := ht.resume h hleft
    rw [HeadLoop.resume, (hnone t).mpr hwrites] at hresume
    cases hresume
    rfl

/-- The turn that finishes a size line. -/
theorem chunkHead_ret {parser : HttpResponseParser} {left : Bytes} {reads : List ReadResult}
    (h : chunkHead M size s = some (.ret (parser, left) reads)) :
    ∃ t, LineTurn M size s t ∧
      (responseHead M size true).turn t.parser t.data = .finished parser left ∧ t.reads = reads := by
  rcases chunkHead_last h with hnull | ⟨hwait, -⟩ | ⟨t, ht, ⟨-, hthrown⟩ | ⟨_, _, hturn, hret⟩⟩
  · cases hnull
  · cases hwait
  · cases hthrown
  · cases hret
    exact ⟨t, ht, hturn, rfl⟩

/-- How the loop goes on behind the size line of a chunk. -/
theorem chunks_succ (h : chunks M size (n + 1) s = some r) :
    (chunkHead M size s = some r ∧ ∀ q rest, r ≠ .ret q rest) ∨
      ∃ parser left reads d, chunkHead M size s = some (.ret (parser, left) reads) ∧
        recvChunkData size parser.contentLen left s.body reads = some d ∧
        (d = .wait ∧ r = .wait ∨ (∃ closed, d = .null closed ∧ r = .null closed) ∨
          d = .thrown ∧ r = .thrown ∨
          ∃ s' : Receiving, s'.parser = parser ∧ d = .ret (s'.body, s'.left) s'.reads ∧
            (parser.chunksDone = true ∧ r = .ret (parser, s'.body) s'.reads ∨
              parser.chunksDone = false ∧ chunks M size n s' = some r)) := by
  rw [chunks, recvChunks] at h
  obtain ⟨q, hq, hbind⟩ := Option.bind_eq_some_iff.mp h
  cases q with
  | wait | null | thrown =>
    cases hbind
    refine Or.inl ⟨hq, fun q rest hr => ?_⟩
    cases hr
  | ret q reads =>
    obtain ⟨parser, left⟩ := q
    obtain ⟨d, hd, hrest⟩ := Option.bind_eq_some_iff.mp hbind
    refine Or.inr ⟨parser, left, reads, d, hq, hd, ?_⟩
    cases d with
    | wait =>
      cases hrest
      exact Or.inl ⟨rfl, rfl⟩
    | null closed =>
      cases hrest
      exact Or.inr (Or.inl ⟨closed, rfl, rfl⟩)
    | thrown =>
      cases hrest
      exact Or.inr (Or.inr (Or.inl ⟨rfl, rfl⟩))
    | ret d reads' =>
      obtain ⟨body, left'⟩ := d
      refine Or.inr (Or.inr (Or.inr ⟨⟨parser, left', body, reads'⟩, rfl, rfl, ?_⟩))
      rw [Recv.bind_ret] at hrest
      dsimp only at hrest
      -- the size line has said whether this was the last chunk
      cases hdone : parser.chunksDone with
      | true =>
        rw [hdone] at hrest
        cases hrest
        exact Or.inl ⟨rfl, rfl⟩
      | false =>
        rw [hdone] at hrest
        exact Or.inr ⟨rfl, hrest⟩

theorem chunkHead_of_chunks (h : chunks M size n s = some r) :
    ∃ q, chunkHead M size s = some q ∧ (q = .thrown → r = .thrown) := by
  cases n with
  | zero => cases h
  | succ n =>
    rcases chunks_succ h with ⟨hhead, -⟩ | ⟨_, _, _, _, hhead, -⟩
    · exact ⟨r, hhead, id⟩
    · refine ⟨_, hhead, fun hq => ?_⟩
      cases hq

theorem data_of_chunks {parser : HttpResponseParser} {left : Bytes} {reads : List ReadResult}
    (h : chunks M size n s = some r) (hret : chunkHead M size s = some (.ret (parser, left) reads)) :
    ∃ d, recvChunkData size parser.contentLen left s.body reads = some d ∧
      (d = .thrown → r = .thrown) := by
  cases n with
  | zero => cases h
  | succ n =>
    rcases chunks_succ h with ⟨hhead, hnot⟩ | ⟨parser', left', reads', d, hhead, hd, hcases⟩
    · rw [hret] at hhead
      exact absurd (Option.some.inj hhead).symm (hnot _ _)
    · rw [hret] at hhead
      cases hhead
      refine ⟨d, hd, ?_⟩
      rintro rfl
      rcases hcases with ⟨hdata, -⟩ | ⟨_, hdata, -⟩ | ⟨-, hr⟩ | ⟨_, _, hdata, -⟩
      · cases hdata
      · cases hdata
      · exact hr
      · cases hdata

/-- The loop goes on from the next chunk. -/
theorem chunks_step {contentLen : Int} (hstep : ChunkStep M size s contentLen s')
    (h : chunks M size n s = some r) : ∃ m, chunks M size m s' = some r := by
  obtain ⟨left, reads, hhead, hsize, hdone, hdata⟩ := hstep
  cases n with
  | zero => cases h
  | succ n =>
    refine ⟨n, ?_⟩
    rw [chunks, recvChunks] at h
    rw [chunkHead] at hhead
    rw [hhead, Option.bind_some, Recv.bind_ret] at h
    dsimp only at h
    rw [hsize, hdata, Option.bind_some, Recv.bind_ret, hdone] at h
    exact h

theorem chunks_run {hist : List Int} (hrun : Run (ChunkStep M size) s hist s')
    (h : chunks M size n s = some r) : ∃ m, chunks M size m s' = some r :=
  hrun.invariant (fun s' => ∃ m, chunks M size m s' = some r) ⟨n, h⟩
    fun _ _ _ ⟨_, hm⟩ hstep => chunks_step hstep hm

/-- A loop that throws comes to a chunk whose size line or whose data throw. -/
theorem chunks_thrown (h : chunks M size n s = some .thrown) :
    ∃ hist s', Run (ChunkStep M size) s hist s' ∧
      (chunkHead M size s' = some .thrown ∨
        ∃ parser left reads, chunkHead M size s' = some (.ret (parser, left) reads) ∧
          recvChunkData size parser.contentLen left s'.body reads = some .thrown) := by
  induction n generalizing s with
  | zero => cases h
  | succ n ih =>
    rcases chunks_succ h with ⟨hhead, -⟩ | ⟨parser, left, reads, d, hhead, hd, hcases⟩
    · exact ⟨[], s, .nil s, Or.inl hhead⟩
    · rcases hcases with ⟨-, hr⟩ | ⟨_, -, hr⟩ | ⟨rfl, -⟩ | ⟨s', rfl, rfl, ⟨-, hr⟩ | ⟨hdone, hrest⟩⟩
      · cases hr
      · cases hr
      · exact ⟨[], s, .nil s, Or.inr ⟨parser, left, reads, hhead, hd⟩⟩
      · cases hr
      · obtain ⟨hist, s'', hrun, hlast⟩ := ih hrest
        exact ⟨_, s'', (Run.single ⟨left, reads, hhead, rfl, hdone, hd⟩).append hrun, hlast⟩

/-! ### Reads -/

theorem reads_of_recvRest {left : Int} {body : Bytes} {reads : List ReadResult} {q : Recv Bytes}
    (h : recvRest size left body reads = some q) :
    (q = .wait → ∃ used : List Bytes, reads = used.map .data) ∧
      ∀ body' rest, q = .ret body' rest → ∃ used : List Bytes, reads = used.map .data ++ rest := by
  obtain ⟨used, rest, hreads, ⟨rfl, -⟩ | ⟨rfl, rfl⟩ | ⟨n, rfl, -⟩⟩ := recvRest_outcome h
  · refine ⟨fun hq => ?_, fun body' rest' hq => ?_⟩ <;> cases hq
    exact ⟨used, hreads⟩
  · refine ⟨fun _ => ⟨used, by rw [hreads, List.append_nil]⟩, fun body' rest' hq => ?_⟩
    cases hq
  · refine ⟨fun hq => ?_, fun body' rest' hq => ?_⟩ <;> cases hq

theorem reads_of_recvChunkData {contentLen : Int} {left body : Bytes} {reads : List ReadResult}
    {d : Recv (Bytes × Bytes)} (h : recvChunkData size contentLen left body reads = some d) :
    (d = .wait → ∃ used : List Bytes, reads = used.map .data) ∧
      ∀ q rest, d = .ret q rest →
        q.2.length ≤ left.length ∧ ∃ used : List Bytes, reads = used.map .data ++ rest := by
  rw [recvChunkData] at h
  split_ifs at h with hint hwhole hneg
  · cases h
    refine ⟨fun hd => ?_, fun q rest hd => ?_⟩ <;> cases hd
  · cases h
    refine ⟨fun hd => ?_, fun q rest hd => ?_⟩ <;> cases hd
  · cases h
    refine ⟨fun hd => ?_, fun q rest hd => ?_⟩ <;> cases hd
    refine ⟨?_, [], rfl⟩
    rw [List.length_drop]
    exact Nat.sub_le ..
  · obtain ⟨q, hq, hbind⟩ := Option.bind_eq_some_iff.mp h
    obtain ⟨hwait, hret⟩ := reads_of_recvRest hq
    cases q with
    | wait =>
      cases hbind
      refine ⟨fun _ => hwait rfl, fun q rest hd => ?_⟩
      cases hd
    | null | thrown =>
      cases hbind
      refine ⟨fun hd => ?_, fun q rest hd => ?_⟩ <;> cases hd
    | ret body' rest =>
      cases hbind
      split_ifs
      · refine ⟨fun hd => ?_, fun q rest hd => ?_⟩ <;> cases hd
      · refine ⟨fun hd => ?_, fun q rest hd => ?_⟩ <;> cases hd
        exact ⟨Nat.zero_le _, hret body' rest rfl⟩

/-- A loop that waits has met no `read` that failed. -/
theorem chunks_wait (h : chunks M size n s = some .wait) :
    ∃ used : List Bytes, s.reads = used.map .data := by
  induction n generalizing s with
  | zero => cases h
  | succ n ih =>
    rcases chunks_succ h with ⟨hhead, -⟩ | ⟨parser, left, reads, d, hhead, hd, hcases⟩
    · rcases chunkHead_last hhead with hnull | ⟨-, hused⟩ | ⟨t, -, ⟨-, hthrown⟩ | ⟨_, _, -, hret⟩⟩
      · cases hnull
      · exact hused
      · cases hthrown
      · cases hret
    · obtain ⟨t, ht, -, rfl⟩ := chunkHead_ret hhead
      obtain ⟨used, hused⟩ := ht.taken
      obtain ⟨hwait, hret⟩ := reads_of_recvChunkData hd
      rw [hused]
      rcases hcases with ⟨hdata, -⟩ | ⟨_, -, hr⟩ | ⟨-, hr⟩ | ⟨s', rfl, hdata, ⟨-, hr⟩ | ⟨hdone, hrest⟩⟩
      · obtain ⟨used', hused'⟩ := hwait hdata
        exact ⟨used ++ used', by rw [hused', List.map_append]⟩
      · cases hr
      · cases hr
      · cases hr
      · obtain ⟨-, used', hused'⟩ := hret _ _ hdata
        obtain ⟨used'', hused''⟩ := ih hrest
        exact ⟨used ++ (used' ++ used''), by rw [hused', hused'', List.map_append, List.map_append]⟩

/-! ### The end of the loop -/

theorem available_append (used : List Bytes) (reads : List ReadResult) :
    available (used.map .data ++ reads) = used.flatten.length + available reads := by
  rw [available, available, List.map_append, List.sum_append, List.length_flatten, List.map_map]
  rfl

theorem available_cons (bytes : Bytes) (reads : List ReadResult) :
    available (.data bytes :: reads) = bytes.length + available reads := by
  rw [available, available, List.map_cons, List.sum_cons]
  rfl

/-- What is ahead at the begin of a turn of the loop for a size line was there, or has been read. -/
theorem LineTurn.ahead (ht : LineTurn M size s t) :
    t.data.length + available t.reads ≤ s.ahead := by
  apply ht.invariant (P := fun t => t.data.length + available t.reads ≤ s.ahead)
  · intro bytes rest hreads
    have havailable := available_cons bytes rest
    rw [← hreads] at havailable
    dsimp only [List.nil_append]
    rw [Receiving.ahead]
    omega
  · exact Nat.le_refl _
  · rintro u bytes v - hle ⟨left, hturn, hreads, hdata⟩
    obtain ⟨k, -, hleft, -⟩ := HeadLoop.left_of_turn (Or.inl hturn)
    have hshort : left.length ≤ u.data.length := by
      rw [hleft, List.length_drop]
      exact Nat.sub_le ..
    have havailable := available_cons bytes v.reads
    rw [← hreads] at havailable
    rw [hdata, List.length_append]
    omega

variable {fields : Nat → UInt8 → List ResponseAction × Nat}

/-- A turn that finishes a size line takes a byte. -/
theorem taken_of_finished {x parser : HttpResponseParser} {data left : Bytes}
    (h : (responseHead (httpclientParser fields) size true).turn x data = .finished parser left) :
    left.length < data.length := by
  obtain ⟨k, hexecute, hleft, -⟩ := HeadLoop.left_of_turn (Or.inr h)
  obtain ⟨herror, hfinished⟩ := HeadLoop.finished_of_turn h
  have hmap : ((httpclientParser fields).scan (HttpResponseParser.act data) 0 1 x.init data).map
      (fun r => (r.1, { r.2.2 with cs := r.2.1 })) = some (k, parser) := hexecute
  obtain ⟨⟨k', cs, y⟩, hscan, hpair⟩ := Option.map_eq_some_iff.mp hmap
  obtain ⟨rfl, hparser⟩ : k' = k ∧ { y with cs := cs } = parser := Prod.mk.inj hpair
  have hstate : parser.cs = cs := by rw [← hparser]
  have hcs : parser.cs ≠ 0 := of_decide_eq_false (Bool.or_eq_false_iff.mp herror).2
  have hlast : parser.cs = 120 := by
    rcases Bool.or_eq_true_iff.mp hfinished with hyes | hyes
    · exact absurd (of_decide_eq_true hyes) hcs
    · exact of_decide_eq_true hyes
  rw [hstate] at hcs hlast
  -- a scan that takes nothing stays in its first state
  have hpos : k' ≠ 0 := by
    rintro rfl
    rcases Scanner.scan_stays hscan with hstart | hyes
    · rw [hlast] at hstart
      cases hstart
    · exact hcs (of_decide_eq_true hyes)
  have hdata : data ≠ [] := by
    rintro rfl
    have hstart : 1 = cs := congrArg (fun r => r.2.1) (Option.some.inj hscan)
    rw [hlast] at hstart
    cases hstart
  have hlen := List.length_pos_of_ne_nil hdata
  rw [hleft, List.length_drop]
  omega

/-- What is ahead gets less from chunk to chunk. -/
theorem ahead_of_ret {parser : HttpResponseParser} {left body : Bytes} {reads : List ReadResult}
    {q : Bytes × Bytes} {rest : List ReadResult}
    (hhead : chunkHead (httpclientParser fields) size s = some (.ret (parser, left) reads))
    (hdata : recvChunkData size parser.contentLen left body reads = some (.ret q rest)) :
    q.2.length + available rest < s.ahead := by
  obtain ⟨t, ht, hturn, rfl⟩ := chunkHead_ret hhead
  obtain ⟨hleft, used, hused⟩ := (reads_of_recvChunkData hdata).2 _ _ rfl
  have hahead := ht.ahead
  have hshort := taken_of_finished hturn
  rw [hused, available_append] at hahead
  omega

/-- A bound that is not exceeded does not matter. -/
theorem chunks_eq {n m : Nat} (hn : s.ahead < n) (hm : s.ahead < m) :
    chunks (httpclientParser fields) size n s = chunks (httpclientParser fields) size m s := by
  induction n generalizing s m with
  | zero => exact absurd hn (Nat.not_lt_zero _)
  | succ n ih =>
    cases m with
    | zero => exact absurd hm (Nat.not_lt_zero _)
    | succ m =>
      rw [chunks, chunks, recvChunks, recvChunks, ← chunkHead]
      cases hhead : chunkHead (httpclientParser fields) size s with
      | none => rfl
      | some r =>
        cases r with
        | wait | null | thrown => rfl
        | ret q reads =>
          obtain ⟨parser, left⟩ := q
          rw [Option.bind_some, Option.bind_some, Recv.bind_ret, Recv.bind_ret]
          dsimp only
          cases hdata : recvChunkData size parser.contentLen left s.body reads with
          | none => rfl
          | some d =>
            cases d with
            | wait | null | thrown => rfl
            | ret q rest =>
              obtain ⟨body, left'⟩ := q
              rw [Option.bind_some, Option.bind_some, Recv.bind_ret, Recv.bind_ret]
              dsimp only
              -- the induction goes on with less ahead, so both bounds are still large enough
              have hless := ahead_of_ret hhead hdata
              have hnext : (⟨parser, left', body, rest⟩ : Receiving).ahead < s.ahead := hless
              split
              · rfl
              · exact ih (s := ⟨parser, left', body, rest⟩) (by omega) (by omega)

/-! ## Safe sizes -/

theorem left_of_ret {parser : HttpResponseParser} {left : Bytes} {reads : List ReadResult}
    (h : chunkHead M size s = some (.ret (parser, left) reads)) (hleft : s.left.length ≤ size) :
    left.length < size := by
  obtain ⟨t, ht, hturn, -⟩ := chunkHead_ret h
  obtain ⟨hdata, -⟩ := ht.resume h hleft
  exact HeadLoop.left_lt_of_turn (Or.inr hturn) hdata

/-- The bytes in the buffer never fill it. -/
theorem left_of_run {hist : List Int} (hrun : Run (ChunkStep M size) s hist s')
    (hleft : s.left.length < size) : s'.left.length < size := by
  apply hrun.invariant (fun s' => s'.left.length < size) hleft
  rintro u contentLen v hu ⟨left, reads, hhead, hsize, -, hdata⟩
  have hless := left_of_ret hhead (Nat.le_of_lt hu)
  obtain ⟨hle, -⟩ := (reads_of_recvChunkData hdata).2 _ _ rfl
  exact Nat.lt_of_le_of_lt hle hless

/-- What the loop over the chunks should do: the counts are right, no exception leaves it, and it does not
go on behind the end of the stream. -/
structure ChunksSafe (M : Scanner Nat ResponseAction) (size : Nat) (init : Receiving)
    (r : Recv HttpResponse) : Prop where
  calls : ∀ hist s c, Run (ChunkStep M size) init hist s → Calls M size s c → c.Safe size
  returns : r ≠ .thrown
  ends : ∀ n, .fail n ∈ init.reads → r ≠ .wait

/-- What the chunks have to be: no status line in the place of a size line has a name that goes on behind
the buffer, and every size fits. -/
def ChunksFit (M : Scanner Nat ResponseAction) (size : Nat) (init : Receiving) : Prop :=
  ∀ hist s, Run (ChunkStep M size) init hist s →
    (∀ t, LineTurn M size s t → t.data.head? = some 72 → lineWrites M t.data ≠ none) ∧
    ∀ parser left reads, chunkHead M size s = some (.ret (parser, left) reads) →
      SizeFits parser.contentLen left s.body reads

theorem chunksFit_of_safe {init : Receiving} {q : Recv (HttpResponseParser × Bytes)}
    {f : HttpResponseParser × Bytes → HttpResponse} (hq : chunks M size n init = some q)
    (hleft : init.left.length < size) (hsafe : ChunksSafe M size init (q.map f)) :
    ChunksFit M size init := by
  intro hist s hrun
  have hless := left_of_run hrun hleft
  obtain ⟨m, hm⟩ := chunks_run hrun hq
  have hreturns : q ≠ .thrown := by
    rintro rfl
    exact hsafe.returns rfl
  constructor
  · intro t ht _ hnone
    obtain ⟨r, hhead, hthrown⟩ := chunkHead_of_chunks hm
    exact hreturns (hthrown ((chunkHead_thrown_iff hhead (Nat.le_of_lt hless)).mpr ⟨t, ht, hnone⟩))
  · intro parser left reads hret
    obtain ⟨d, hd, hthrown⟩ := data_of_chunks hm hret
    refine (dataCalls_safe_iff (left_of_ret hret (Nat.le_of_lt hless)) hd).mp ⟨fun c hc => ?_, ?_⟩
    · exact hsafe.calls hist s c hrun (.data hret hc)
    · exact fun hdata => hreturns (hthrown hdata)

/-- A chunk that fits is taken safely. -/
theorem call_safe {c : BufferCall} (h : chunks M size n s = some r) (hless : s.left.length < size)
    (hfit : ∀ parser left reads, chunkHead M size s = some (.ret (parser, left) reads) →
      SizeFits parser.contentLen left s.body reads)
    (hc : Calls M size s c) : c.Safe size := by
  cases hc with
  | first hnil => exact ⟨by omega, Int.le_refl 0, by omega⟩
  | line ht hmore =>
    obtain ⟨q, hhead, -⟩ := chunkHead_of_chunks h
    obtain ⟨hdata, -⟩ := ht.resume hhead (Nat.le_of_lt hless)
    have hlen := HeadLoop.left_lt_of_turn (Or.inl hmore) hdata
    dsimp only [responseHead] at hlen
    exact ⟨by omega, by omega, by omega⟩
  | data hret hc =>
    obtain ⟨d, hd, -⟩ := data_of_chunks h hret
    have hsafe := (dataCalls_safe_iff (left_of_ret hret (Nat.le_of_lt hless)) hd).mpr
      (hfit _ _ _ hret)
    exact hsafe.1 c hc

theorem safe_of_chunksFit {init : Receiving} {q : Recv (HttpResponseParser × Bytes)}
    {f : HttpResponseParser × Bytes → HttpResponse}
    (hq : chunks (httpclientParser fields) size n init = some q) (hleft : init.left.length < size)
    (hfit : ChunksFit (httpclientParser fields) size init) :
    ChunksSafe (httpclientParser fields) size init (q.map f) := by
  refine ⟨fun hist s c hrun hc => ?_, fun hr => ?_, fun k hfail hr => ?_⟩
  · obtain ⟨m, hm⟩ := chunks_run hrun hq
    exact call_safe hm (left_of_run hrun hleft) (hfit hist s hrun).2 hc
  · have hthrown : q = .thrown := by
      cases q with
      | thrown => rfl
      | wait | null | ret => cases hr
    subst hthrown
    obtain ⟨hist, s, hrun, hhead | ⟨parser, left, reads, hret, hd⟩⟩ := chunks_thrown hq
    · have hless := left_of_run hrun hleft
      obtain ⟨t, ht, hnone⟩ := (chunkHead_thrown_iff hhead (Nat.le_of_lt hless)).mp rfl
      -- only a status line can throw
      by_cases hstatus : t.data.head? = some 72
      · exact (hfit hist s hrun).1 t ht hstatus hnone
      · rw [lineWrites_eq fields hstatus] at hnone
        cases hnone
    · have hless := left_of_run hrun hleft
      have hsafe := (dataCalls_safe_iff (left_of_ret hret (Nat.le_of_lt hless)) hd).mpr
        ((hfit hist s hrun).2 _ _ _ hret)
      exact hsafe.2 rfl
  · have hwait : q = .wait := by
      cases q with
      | wait => rfl
      | thrown | null | ret => cases hr
    subst hwait
    obtain ⟨used, hused⟩ := chunks_wait hq
    rw [hused] at hfail
    simp at hfail

/-- The chunked branch of `recvResponse` is safe if and only if the chunks fit; the loop ends, with the bound
that the model has and with every greater one. -/
theorem chunksSafe_iff {parser : HttpResponseParser} {left : Bytes} {reads rest : List ReadResult}
    {r : Recv HttpResponse}
    (hhead : (responseHead (httpclientParser fields) size false).recvHead {} [] reads =
      some (.ret (parser, left) rest))
    (hchunked : parser.chunked = true)
    (h : recvResponse (httpclientParser fields) size reads = some r) :
    (∀ n, left.length + available rest < n →
      recvChunks (httpclientParser fields) size n parser left [] rest =
        recvChunks (httpclientParser fields) size (left.length + available rest + 1) parser left [] rest) ∧
    (ChunksSafe (httpclientParser fields) size { parser, left, reads := rest } r ↔
      ChunksFit (httpclientParser fields) size { parser, left, reads := rest }) := by
  -- what the head has left fits into the buffer
  have hleft : left.length < size := by
    obtain ⟨t, ht, hturn, -⟩ := HeadLoop.recvHead_ret hhead
    obtain ⟨hdata, -⟩ := ht.resume hhead (Nat.zero_le _)
    exact HeadLoop.left_lt_of_turn (Or.inr hturn) hdata
  rw [recvResponse, hhead, Option.bind_some, Recv.bind_ret] at h
  dsimp only at h
  rw [if_pos hchunked] at h
  obtain ⟨q, hq, rfl⟩ := Option.map_eq_some_iff.mp h
  refine ⟨fun n hn => ?_, chunksFit_of_safe hq hleft, safe_of_chunksFit hq hleft⟩
  exact chunks_eq (s := { parser, left, reads := rest }) hn (Nat.lt_succ_self _)

end Loop

def chunkedParser : HttpResponseParser where
  cs := 120
  chunked := true
  mark := 35
  fieldStart := 17
  fieldLen := 17
  data :=
    { reason := ascii ['O', 'K']
      headers := [(ascii "transfer-encoding".toList, ascii "chunked".toList)] }

def hiResponse : Bytes := chunkedHead ++ ascii "2\r\nhi\r\n0\r\n\r\n".toList

def firstLine : Receiving where
  parser := chunkedParser
  left := ascii "2\r\nhi\r\n0\r\n\r\n".toList
  reads := []

def lastLine : Receiving where
  parser := { chunkedParser with contentLen := 2, mark := 0, fieldStart := 0, fieldLen := 0 }
  left := ascii "0\r\n\r\n".toList
  body := ascii ['h', 'i']
  reads := []

theorem chunkHead_firstLine :
    chunkHead (httpclientParser chunkedFields) 4096 firstLine =
      some (.ret (lastLine.parser, firstLine.left.drop 3) []) := by decide +kernel

theorem chunkHead_lastLine :
    chunkHead (httpclientParser chunkedFields) 4096 lastLine =
      some (.ret ({ lastLine.parser with contentLen := 0, chunksDone := true }, ascii ['\r', '\n'])
        []) := by decide +kernel

/-- The loop comes to the two size lines of `hiResponse`, and to no other turn. -/
theorem chunk_of_run_hi {hist : List Int} {s : Receiving}
    (hrun : Run (ChunkStep (httpclientParser chunkedFields) 4096) firstLine hist s) :
    s = firstLine ∨ s = lastLine := by
  apply hrun.invariant (fun s => s = firstLine ∨ s = lastLine) (Or.inl rfl)
  rintro u _ ⟨parser, left, body, reads⟩ (rfl | rfl) ⟨left', reads', hhead, rfl, hdone, hdata⟩
  · have hchunk : recvChunkData 4096 2 (firstLine.left.drop 3) [] [] =
        some (.ret (lastLine.body, lastLine.left) []) := by decide +kernel
    rw [chunkHead_firstLine] at hhead
    cases hhead
    cases hchunk.symm.trans hdata
    exact Or.inr rfl
  · rw [chunkHead_lastLine] at hhead
    cases hhead
    cases hdone

theorem chunksFit_hi : ChunksFit (httpclientParser chunkedFields) 4096 firstLine := by
  intro hist s hrun
  have hs := chunk_of_run_hi hrun
  constructor
  · intro t ht hstatus
    have hdata : t.data = s.left := by
      rcases hs with rfl | rfl <;> rw [ht.of_left (List.cons_ne_nil _ _) rfl]
    rw [hdata] at hstatus
    rcases hs with rfl | rfl <;> cases hstatus
  · intro parser left reads hhead
    rcases hs with rfl | rfl
    · rw [chunkHead_firstLine] at hhead
      cases hhead
      exact Or.inl (by decide)
    · rw [chunkHead_lastLine] at hhead
      cases hhead
      exact Or.inl (by decide)

theorem chunksSafe_iff_hi :
    recvResponse (httpclientParser chunkedFields) 4096 [.data hiResponse] =
        some (.ret { chunkedParser.data with body := ascii ['h', 'i'] } []) ∧
      ChunksFit (httpclientParser chunkedFields) 4096 firstLine ∧
      ChunksSafe (httpclientParser chunkedFields) 4096 firstLine
        (.ret { chunkedParser.data with body := ascii ['h', 'i'] } []) := by
  have hhead : (responseHead (httpclientParser chunkedFields) 4096 false).recvHead {} []
      [.data hiResponse] = some (.ret (firstLine.parser, firstLine.left) firstLine.reads) := by decide +kernel
  have h : recvResponse (httpclientParser chunkedFields) 4096 [.data hiResponse] =
      some (.ret { chunkedParser.data with body := ascii ['h', 'i'] } []) := by decide +kernel
  exact ⟨h, chunksFit_hi, (chunksSafe_iff hhead rfl h).2.mpr chunksFit_hi⟩

/-- A head, and a size line of which the size is -1 as an `int`. -/
def minusOneResponse : Bytes := chunkedHead ++ ascii "FFFFFFFF\r\nhi".toList

/-- `append` gets the size -1. -/
theorem minus_one_appended :
    (responseHead (httpclientParser chunkedFields) 4096 false).recvHead {} [] [.data minusOneResponse] =
        some (.ret (chunkedParser, minusOneResponse.drop chunkedHead.length) []) ∧
      chunkedParser.chunked = true ∧
      recvResponse (httpclientParser chunkedFields) 4096 [.data minusOneResponse] = some .thrown ∧
      ¬ ChunksSafe (httpclientParser chunkedFields) 4096
        { parser := chunkedParser, left := minusOneResponse.drop chunkedHead.length, reads := [] }
        .thrown :=
  ⟨by decide +kernel, rfl, by decide +kernel, fun hsafe => hsafe.returns rfl⟩

end HttpConnection

end Azure
