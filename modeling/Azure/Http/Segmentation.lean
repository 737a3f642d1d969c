import Azure.Http.Chunked
import Azure.Http.KeepAlive

/-!
# Heads in pieces

`execute` sets the stored positions to the start of the buffer whenever it begins.  A token that a read
cuts in two is lost with the position of its first byte; a cut between tokens makes no difference.
-/

namespace Azure

open Reasoning

/-! ## Loops over a scanner -/

/-- How the parser of a loop scans: `begins` sets the positions back, and `ends` stores the state. -/
structure HeadScan (P A : Type) where
  machine : Scanner Nat A
  act : Bytes → Nat → A → P → Option P
  cs : P → Nat
  begins : P → P
  ends : Nat → P → P
  error : P → Int

namespace HeadScan

variable {P A : Type} (H : HeadScan P A)

structure Runs (L : HeadLoop P) : Prop where
  execute : ∀ x data, data ≠ [] → L.execute x data =
    (H.machine.scan (H.act data) 0 (H.cs x) (H.begins x) data).map fun r =>
      (r.1, H.ends r.2.1 r.2.2)
  hasError : ∀ x, L.hasError x = (H.error x ≠ 0 || H.machine.isError (H.cs x))
  isFinished : ∀ x, L.isFinished x =
    (H.machine.isError (H.cs x) || H.machine.isFinished (H.cs x))
  cs_ends : ∀ s x, H.cs (H.ends s x) = s
  error_ends : ∀ s x, H.error (H.ends s x) = H.error x
  sticky : ∀ buffer p a x x', H.act buffer p a x = some x' → H.error x ≠ 0 → H.error x' ≠ 0

variable {H} {L : HeadLoop P} {x : P} {w post : Bytes}

/-- A turn on a piece of an accepted head. -/
theorem Runs.turn (h : H.Runs L) (hsize : 0 ≠ L.size) (hw : w ≠ [])
    (haccepts : H.machine.accepts (H.cs x) (w ++ post) = true) :
    L.turn x w =
      match H.machine.follow (H.act w) 0 (H.cs x) (H.begins x) w with
      | none => .thrown
      | some z =>
        if H.error z ≠ 0 then .null
        else if post = [] then .finished (H.ends (H.machine.run (H.cs x) w) z) []
        else .more (H.ends (H.machine.run (H.cs x) w) z) [] := by
  obtain ⟨hnoerror, hfinished, -⟩ := Scanner.accepts_append haccepts hw
  rw [HeadLoop.turn, h.execute x w hw, Scanner.scan_of_accepts _ _ _ haccepts]
  cases H.machine.follow (H.act w) 0 (H.cs x) (H.begins x) w with
  | none => rfl
  | some z =>
    simp only [Option.map_some, h.hasError, h.isFinished, h.cs_ends, h.error_ends, hnoerror,
      hfinished, Nat.zero_add, List.drop_length, List.length_nil, hsize, Bool.or_false,
      Bool.false_or, decide_eq_true_eq, List.isEmpty_iff, if_false]

theorem Runs.error_of_follow (h : H.Runs L) {buffer : Bytes} {p s : Nat} {x' : P}
    (hfollow : H.machine.follow (H.act buffer) p s x w = some x') (herror : H.error x ≠ 0) :
    H.error x' ≠ 0 :=
  H.machine.follow_invariant (fun x => H.error x ≠ 0)
    (fun p a x x' _ => h.sticky buffer p a x x') hfollow herror

/-- What a read brings goes to the parser when nothing is left over. -/
theorem recvHead_piece {bytes : Bytes} {reads : List ReadResult}
    (hanswers : (ReadResult.data bytes).answers L.size = true) :
    L.recvHead x [] (.data bytes :: reads) =
      match L.turn x bytes with
      | .thrown => some .thrown
      | .null => some (.null true)
      | .finished parser left => some (.ret (parser, left) reads)
      | .more parser left => L.recvHead parser left reads := by
  rw [HeadLoop.recvHead]
  show (if (!(ReadResult.data bytes).answers L.size) = true then none else _) = _
  rw [hanswers]
  rfl

/-- Clean pieces: `Same` is what a parser on the pieces has in common with one on the whole head. -/
theorem Runs.recv_clean (h : H.Runs L) {R : Type} [DecidableEq R] {ρ : Scanner.Registers A R}
    (reads : List ReadResult) (Same : P → P → Prop)
    (hagree : ∀ pre w post s x y, H.machine.clean ρ [] s w = true → Same x y →
      ∃ x' y', H.machine.follow (H.act w) 0 s (H.begins x) w = some x' ∧
        H.machine.follow (H.act (pre ++ w ++ post)) pre.length s y w = some y' ∧ Same x' y')
    (herror : ∀ x y, Same x y → H.error x = H.error y)
    (hends : ∀ s x y, Same x y → Same (H.ends s x) y) {pieces : List Bytes}
    {pre : Bytes} {y z : P} (hne : pieces ≠ [])
    (hanswers : ∀ d ∈ pieces, (ReadResult.data d).answers L.size = true)
    (haccepts : H.machine.accepts (H.cs x) pieces.flatten = true)
    (hclean : H.machine.cleanPieces ρ (H.cs x) pieces = true) (hsame : Same x y)
    (hfollow : H.machine.follow (H.act (pre ++ pieces.flatten)) pre.length (H.cs x) y
      pieces.flatten = some z) (hz : H.error z = 0) :
    ∃ x', Same x' z ∧
      L.recvHead x [] (pieces.map ReadResult.data ++ reads) = some (.ret (x', []) reads) := by
  induction pieces generalizing x y pre with
  | nil => exact absurd rfl hne
  | cons w ws ih =>
    have hw := hanswers w List.mem_cons_self
    have hw' := hw
    simp only [ReadResult.answers, Bool.and_eq_true, decide_eq_true_eq] at hw'
    have hpos := List.length_pos_of_ne_nil hw'.1.1
    rw [List.flatten_cons] at haccepts hfollow
    simp only [Scanner.cleanPieces, Bool.and_eq_true] at hclean
    obtain ⟨x', y', hx, hy, hsame'⟩ := hagree pre w ws.flatten (H.cs x) x y hclean.1 hsame
    rw [Scanner.follow_append, ← List.append_assoc, hy, Option.bind_some] at hfollow
    -- an error would stay to the end
    have hzero : H.error x' = 0 := by
      rw [herror x' y' hsame']
      by_contra hne
      exact h.error_of_follow hfollow hne hz
    have hturn := h.turn (x := x) (by omega) hw'.1.1 haccepts
    rw [hx] at hturn
    simp only [hzero, ne_eq, not_true_eq_false, if_false] at hturn
    rw [List.map_cons, List.cons_append, recvHead_piece hw, hturn]
    obtain ⟨-, -, hrest⟩ := Scanner.accepts_append haccepts hw'.1.1
    -- the last piece ends the head, and every other one leaves bytes to read
    by_cases hws : ws = []
    · subst hws
      cases hfollow
      exact ⟨_, hends _ _ _ hsame', rfl⟩
    · have hflat : ws.flatten ≠ [] := fun hnil => by
        have hcs := hws
        obtain ⟨d, ds, rfl⟩ := List.exists_cons_of_ne_nil hcs
        have hd := hanswers d (List.mem_cons_of_mem w List.mem_cons_self)
        simp only [ReadResult.answers, Bool.and_eq_true, decide_eq_true_eq] at hd
        exact hd.1.1 (List.flatten_eq_nil_iff.mp hnil d List.mem_cons_self)
      have hcs := h.cs_ends (H.machine.run (H.cs x) w) x'
      have hfollow' : H.machine.follow (H.act (pre ++ w ++ ws.flatten)) (pre ++ w).length
          (H.cs (H.ends (H.machine.run (H.cs x) w) x')) y' ws.flatten = some z := by
        rw [hcs, List.length_append]
        exact hfollow
      rw [if_neg hflat]
      exact ih hws (fun d hd => hanswers d (List.mem_cons_of_mem w hd))
        (by rw [hcs]; exact hrest hflat) (by rw [hcs]; exact hclean.2) (hends _ _ _ hsame') hfollow'

/-- A head whose second piece ends with an error. -/
theorem Runs.recv_broken (h : H.Runs L) {u v : Bytes} (hv : v ≠ [])
    (hanswers : ∀ d ∈ [u, v], (ReadResult.data d).answers L.size = true)
    (haccepts : H.machine.accepts (H.cs x) (u ++ v) = true)
    (hlost : ∀ y z, H.machine.follow (H.act v) 0 (H.machine.run (H.cs x) u) (H.begins y) v =
      some z → H.error z ≠ 0) :
    L.recvHead x [] [.data u, .data v] = some .thrown ∨
      L.recvHead x [] [.data u, .data v] = some (.null true) := by
  have hu := hanswers u List.mem_cons_self
  have hu' := hu
  simp only [ReadResult.answers, Bool.and_eq_true, decide_eq_true_eq] at hu'
  have hpos := List.length_pos_of_ne_nil hu'.1.1
  have hsize : 0 ≠ L.size := by omega
  rw [recvHead_piece hu, h.turn hsize hu'.1.1 haccepts]
  cases H.machine.follow (H.act u) 0 (H.cs x) (H.begins x) u with
  | none => exact .inl rfl
  | some y =>
    dsimp only
    by_cases hy : H.error y ≠ 0
    · rw [if_pos hy]
      exact .inr rfl
    rw [if_neg hy, if_neg hv]
    dsimp only
    -- the second piece is scanned from where the first one led
    obtain ⟨-, -, hrest⟩ := Scanner.accepts_append haccepts hu'.1.1
    have haccepts' : H.machine.accepts (H.cs (H.ends (H.machine.run (H.cs x) u) y)) (v ++ []) =
        true := by
      rw [h.cs_ends, List.append_nil]
      exact hrest hv
    rw [recvHead_piece (hanswers v (by simp)), h.turn hsize hv haccepts', h.cs_ends]
    cases hfollow : H.machine.follow (H.act v) 0 (H.machine.run (H.cs x) u)
      (H.begins (H.ends (H.machine.run (H.cs x) u) y)) v with
    | none => exact .inl rfl
    | some z =>
      have hz := hlost _ z hfollow
      dsimp only
      rw [if_pos hz]
      exact .inr rfl

end HeadScan

/-! ## Versions -/

theorem strneq_head {a b : UInt8} {lhs rhs : Bytes} {n : Nat} (hne : a ≠ b) (hn : n ≠ 0) :
    strneq (a :: lhs) (b :: rhs) n = false := by
  obtain ⟨n, rfl⟩ := Nat.exists_eq_succ_of_ne_zero hn
  simp [strneq, hne]

/-- A version that does not begin with its first byte is invalid. -/
theorem versionOf_tail {rest : Bytes} {n : Nat} (hn : n ≠ 0) : versionOf (84 :: rest) n = none := by
  have h11 : strneq (84 :: rest) http11 n = false := strneq_head (by decide) hn
  have h10 : strneq (84 :: rest) http10 n = false := strneq_head (by decide) hn
  rw [versionOf, h11, h10]
  rfl

structure Cut (size : Nat) (head : Bytes) (pieces : List Bytes) : Prop where
  bytes : pieces.flatten = head
  answers : ∀ d ∈ pieces, (ReadResult.data d).answers size = true

theorem Cut.ne_nil {size : Nat} {head : Bytes} {pieces : List Bytes} (h : Cut size head pieces)
    (hne : head ≠ []) : pieces ≠ [] := by
  rintro rfl
  exact hne h.bytes.symm

/-- A head that fits into the buffer; the lengths are `int`s. -/
def Fits (size : Nat) (head : Bytes) : Prop := head.length ≤ size ∧ head.length < 2 ^ 31

theorem Fits.answers {size : Nat} {head : Bytes} (h : Fits size head) {d : Bytes} (hd : d ≠ [])
    (hle : d.length ≤ head.length) : (ReadResult.data d).answers size = true := by
  simp only [ReadResult.answers, Bool.and_eq_true, decide_eq_true_eq]
  exact ⟨⟨hd, Nat.le_trans hle h.1⟩, Nat.lt_of_le_of_lt hle h.2⟩

/-- The head in one read. -/
theorem Fits.whole {size : Nat} {head : Bytes} (h : Fits size head) (hne : head ≠ []) :
    Cut size head [head] := by
  constructor
  · exact List.flatten_singleton
  · intro d hd
    rw [List.mem_singleton.mp hd]
    exact h.answers hne (Nat.le_refl _)

/-- The head in two reads. -/
theorem Fits.two {size : Nat} {head u v : Bytes} (h : Fits size head) (hhead : head = u ++ v)
    (hu : u ≠ []) (hv : v ≠ []) : Cut size head [u, v] := by
  have hlength := congrArg List.length hhead
  rw [List.length_append] at hlength
  constructor
  · rw [hhead]
    simp
  · intro d hd
    simp only [List.mem_cons, List.not_mem_nil, or_false] at hd
    obtain rfl | rfl := hd
    · exact h.answers hu (by omega)
    · exact h.answers hv (by omega)

theorem readFixSize_nil {n : UInt64} (hn : n.toNat ≠ 0) :
    SocketStream.readFixSize n [] = some .wait := by
  have htransfer : Stream.readFixSize n ([].map ReadResult.result) =
      { calls := [{ offset := some 0, requested := n.toNat }] } := by
    rw [List.map_nil, Stream.readFixSize, Stream.fixSize, if_neg hn]
  rw [SocketStream.readFixSize, htransfer]
  rfl

/-- Nothing has come behind a head. -/
theorem recvBody_nil {length : Int} (hlength : length < 2 ^ 63) :
    recvBody length [] [] = some (.ret [] []) ∨ recvBody length [] [] = some .wait := by
  unfold recvBody
  by_cases hpos : length ≤ 0
  · rw [if_pos hpos]
    exact .inl rfl
  · have hrest : (UInt64.ofNat (length - (([] : Bytes).length : Int)).toNat).toNat ≠ 0 := by
      rw [UInt64.toNat_ofNat_of_lt' (by simp only [List.length_nil, UInt64.size]; omega)]
      simp only [List.length_nil]
      omega
    rw [if_neg hpos, if_neg (show ¬ length ≤ (([] : Bytes).length : Int) from hpos),
      readFixSize_nil hrest]
    exact .inr rfl

/-! ## Requests -/

namespace HttpRequestParser

theorem error_of_act {buffer : Bytes} {p : Nat} {a : RequestAction} {x x' : HttpRequestParser}
    (h : act buffer p a x = some x') (hx : x.error ≠ 0) : x'.error ≠ 0 := by
  cases a with
  | mark | startField | writeField | startValue | startQuery | requestUri | done | xml | json =>
    cases h
    exact hx
  | writeValue =>
    rw [act] at h
    split at h
    · cases h
      exact hx
    · obtain ⟨field, -, h⟩ := Option.bind_eq_some_iff.mp h
      obtain ⟨value, -, rfl⟩ := Option.map_eq_some_iff.mp h
      exact hx
  | requestMethod =>
    rw [act] at h
    split at h
    · cases h
      exact (by decide : (1000 : Int) ≠ 0)
    · cases h
      exact hx
  | fragment | requestPath =>
    obtain ⟨v, -, rfl⟩ := Option.map_eq_some_iff.mp h
    exact hx
  | queryString =>
    obtain ⟨start, -, h⟩ := Option.bind_eq_some_iff.mp h
    obtain ⟨v, -, rfl⟩ := Option.map_eq_some_iff.mp h
    exact hx
  | httpVersion =>
    rw [act] at h
    split at h
    · cases h
      exact (by decide : (1001 : Int) ≠ 0)
    · cases h
      exact hx

def scan (uri : Nat → UInt8 → List RequestAction × Nat) :
    HeadScan HttpRequestParser RequestAction where
  machine := httpParser uri
  act := act
  cs := cs
  begins x := { x with mark := 0, fieldLen := 0, fieldStart := 0 }
  ends s x := { x with cs := s }
  error := error

theorem scan_runs (uri : Nat → UInt8 → List RequestAction × Nat) (size : Nat) :
    (scan uri).Runs (HttpSession.requestHead (httpParser uri) size) where
  execute x data hne := by
    show execute (httpParser uri) x data = _
    rw [execute, if_neg hne]
    rfl
  hasError _ := rfl
  isFinished _ := rfl
  cs_ends _ _ := rfl
  error_ends _ _ := rfl
  sticky _ _ _ _ _ := error_of_act

/-- Without its first byte a version is not recognised. -/
theorem error_of_version {v : Bytes} {q : Nat} (hq : 1 ≤ q) {x x' : HttpRequestParser}
    (hmark : x.mark = 0) (h : act (84 :: v) q .httpVersion x = some x') : x'.error ≠ 0 := by
  have hlen : tokenLen 0 q ≠ 0 := by
    rw [tokenLen_of_le (Nat.zero_le q)]
    omega
  rw [act, hmark, List.drop_zero, versionOf_tail hlen] at h
  cases h
  exact (by decide : (1001 : Int) ≠ 0)

/-- Behind the first byte of a version nothing is stored up to its end. -/
theorem httpNext_quiet (uri : Nat → UInt8 → List RequestAction × Nat) (s : Nat) (b : UInt8)
    (hs : 6 ≤ s ∧ s ≤ 12) :
    (httpParser uri).isError (httpNext uri s b).2 = true ∨
      (httpNext uri s b).1 = [] ∧ 6 ≤ (httpNext uri s b).2 ∧ (httpNext uri s b).2 ≤ 12 ∨
      (httpNext uri s b).1 = [.httpVersion] := by
  obtain ⟨hlow, hhigh⟩ := hs
  have hstates : s = 6 ∨ s = 7 ∨ s = 8 ∨ s = 9 ∨ s = 10 ∨ s = 11 ∨ s = 12 := by omega
  rcases hstates with rfl | rfl | rfl | rfl | rfl | rfl | rfl <;> simp only [httpNext] <;>
    split_ifs <;> simp [httpParser]

/-- A read that ends behind the first byte of the version. -/
theorem error_of_cut {uri : Nat → UInt8 → List RequestAction × Nat} {v : Bytes}
    {x z : HttpRequestParser} (haccepts : (httpParser uri).accepts 6 v = true)
    (hmark : x.mark = 0)
    (hfollow : (httpParser uri).follow (act (84 :: v)) 0 5 x (84 :: v) = some z) :
    z.error ≠ 0 :=
  Scanner.follow_quiet (fun s => 6 ≤ s ∧ s ≤ 12) .httpVersion (fun x => x.error ≠ 0)
    (httpNext_quiet uri) (fun _ _ _ _ => error_of_act)
    (fun _ _ hq h => error_of_version hq hmark h) (by decide) haccepts
    (show (httpParser uri).follow (act (84 :: v)) 1 6 x v = some z from hfollow)

end HttpRequestParser

namespace RequestHead

variable {uri : Nat → UInt8 → List RequestAction × Nat} {size : Nat}

/-- Whatever the reads that bring the head, `recvRequest` comes to the same. -/
def SameForEveryCut (size : Nat) (r : RequestHead uri) : Prop :=
  ∀ (ps qs : List Bytes) (reads : List ReadResult), Cut size r.head ps → Cut size r.head qs →
    HttpSession.recvRequest (httpParser uri) size (ps.map ReadResult.data ++ reads) =
      HttpSession.recvRequest (httpParser uri) size (qs.map ReadResult.data ++ reads)

/-- The version is at least two bytes long. -/
theorem version_split (r : RequestHead uri) : ∃ u v, r.head = (u ++ [72]) ++ 84 :: v ∧
    (httpParser uri).run 1 (u ++ [72]) = 5 ∧ (httpParser uri).accepts 6 v = true := by
  obtain ⟨u, w, hhead, hrun⟩ := r.version
  have haccepted := r.accepted
  rw [hhead] at haccepted
  have hu : u ≠ [] := by
    rintro rfl
    cases hrun
  have hw : w ≠ [] := by
    intro hw
    obtain ⟨-, hfinished, -⟩ := Scanner.accepts_append haccepted hu
    rw [hrun, hw] at hfinished
    cases hfinished
  obtain ⟨-, -, hrest⟩ := Scanner.accepts_append haccepted hu
  have hversion := hrest hw
  rw [hrun] at hversion
  -- the version begins with these two bytes
  have hH : ∃ w', w = 72 :: w' ∧ (httpParser uri).accepts 5 w' = true := by
    obtain ⟨b, w', rfl⟩ := List.exists_cons_of_ne_nil hw
    by_cases hb : b = 72
    · subst hb
      exact ⟨w', rfl, hversion⟩
    · simp [Scanner.accepts, httpParser, httpNext, hb] at hversion
  obtain ⟨w', rfl, hT⟩ := hH
  cases w' with
  | nil => cases hT
  | cons b v =>
    by_cases hb : b = 84
    · subst hb
      refine ⟨u, v, ?_, ?_, hT⟩
      · rw [hhead, List.append_assoc]
        rfl
      · rw [Scanner.run_append, hrun]
        rfl
    · simp [Scanner.accepts, httpParser, httpNext, hb] at hT

/-- When no read ends within a token, the request is that of the head. -/
theorem recvRequest_clean (huri : RequestUri uri) (r : RequestHead uri) {pieces : List Bytes}
    (hcut : Cut size r.head pieces)
    (hclean : (httpParser uri).cleanPieces RequestAction.registers 1 pieces = true)
    (reads : List ReadResult) :
    HttpSession.recvRequest (httpParser uri) size (pieces.map ReadResult.data ++ reads) =
      (recvBody r.parser.data.headers.contentLength.toInt64.toInt [] reads).map
        (Recv.map (HttpSession.finish r.parser.data)) := by
  have hagree : ∀ (pre w post : Bytes) (s : Nat) (x y : HttpRequestParser),
      (httpParser uri).clean RequestAction.registers [] s w = true →
      x.data = y.data ∧ x.error = y.error →
      ∃ x' y', (httpParser uri).follow (HttpRequestParser.act w) 0 s
          ((HttpRequestParser.scan uri).begins x) w = some x' ∧
        (httpParser uri).follow (HttpRequestParser.act (pre ++ w ++ post)) pre.length s y w =
          some y' ∧ x'.data = y'.data ∧ x'.error = y'.error := by
    intro pre w post s x y hw hsame
    have hboth := HttpRequestParser.follow_agrees huri pre [] post
      (x := (HttpRequestParser.scan uri).begins x) (y := y) hsame.1 hsame.2 hw
    rw [List.append_nil] at hboth
    exact hboth
  have hparsed : (httpParser uri).follow (HttpRequestParser.act ([] ++ pieces.flatten)) 0 1 {}
      pieces.flatten = some r.parser := by
    rw [List.nil_append, hcut.bytes]
    exact r.parsed
  have hrecv := (HttpRequestParser.scan_runs uri size).recv_clean reads
    (x := ({} : HttpRequestParser)) (fun x y => x.data = y.data ∧ x.error = y.error) hagree
    (fun x y h => h.2) (fun s x y h => h) (hcut.ne_nil r.head_ne_nil) hcut.answers
    (hcut.bytes ▸ r.accepted) hclean ⟨rfl, rfl⟩ hparsed r.valid
  obtain ⟨x, ⟨hdata, -⟩, hret⟩ := hrecv
  rw [HttpSession.recvRequest, hret, Option.bind_some, Recv.bind_ret]
  dsimp only
  rw [hdata]

/-- A read that ends behind the first byte of the version. -/
theorem recvRequest_cut (r : RequestHead uri) (hfits : Fits size r.head) :
    ∃ u v, Cut size r.head [u, v] ∧
      (HttpSession.recvRequest (httpParser uri) size [.data u, .data v] = some .thrown ∨
        HttpSession.recvRequest (httpParser uri) size [.data u, .data v] = some (.null true)) := by
  obtain ⟨u, v, hhead, hrun, haccepts⟩ := r.version_split
  have hcut : Cut size r.head [u ++ [72], 84 :: v] := hfits.two hhead (by simp) (by simp)
  refine ⟨u ++ [72], 84 :: v, hcut, ?_⟩
  have hlost : ∀ y z, (httpParser uri).follow (HttpRequestParser.act (84 :: v)) 0
      ((httpParser uri).run 1 (u ++ [72])) ((HttpRequestParser.scan uri).begins y) (84 :: v) =
        some z → z.error ≠ 0 := by
    intro y z hfollow
    rw [hrun] at hfollow
    exact HttpRequestParser.error_of_cut haccepts rfl hfollow
  have hbroken := (HttpRequestParser.scan_runs uri size).recv_broken
    (x := ({} : HttpRequestParser)) (List.cons_ne_nil 84 v) hcut.answers (hhead ▸ r.accepted) hlost
  rcases hbroken with hthrown | hnull
  · left
    rw [HttpSession.recvRequest, hthrown]
    rfl
  · right
    rw [HttpSession.recvRequest, hnull]
    rfl

theorem not_sameForEveryCut (huri : RequestUri uri) (r : RequestHead uri)
    (hfits : Fits size r.head) : ¬ r.SameForEveryCut size := by
  intro hsame
  obtain ⟨u, v, hcut, hbroken⟩ := r.recvRequest_cut hfits
  have hwhole := hfits.whole r.head_ne_nil
  have hclean : (httpParser uri).cleanPieces RequestAction.registers 1 [r.head] = true := by
    rw [Scanner.cleanPieces, Scanner.cleanPieces, r.clean]
    rfl
  have hrecv := hsame [u, v] [r.head] [] hcut hwhole
  rw [r.recvRequest_clean huri hwhole hclean, List.append_nil] at hrecv
  have hlength := Int64.toInt_lt r.parser.data.headers.contentLength.toInt64
  rcases recvBody_nil hlength with hbody | hbody <;> rw [hbody] at hrecv <;>
    rcases hbroken with hthrown | hnull
  · cases hthrown.symm.trans hrecv
  · cases hnull.symm.trans hrecv
  · cases hthrown.symm.trans hrecv
  · cases hnull.symm.trans hrecv

end RequestHead

/-! ## Responses -/

namespace HttpResponseParser

theorem error_of_act {buffer : Bytes} {p : Nat} {a : ResponseAction} {x x' : HttpResponseParser}
    (h : act buffer p a x = some x') (hx : x.error ≠ 0) : x'.error ≠ 0 := by
  cases a with
  | mark | startField | writeField | startValue | writeContentLen | writeConnectionClose
  | statusCode | chunkSize | transChunked | done =>
    cases h
    exact hx
  | writeValue =>
    rw [act] at h
    split at h
    · cases h
      exact hx
    · obtain ⟨field, -, h⟩ := Option.bind_eq_some_iff.mp h
      obtain ⟨value, -, rfl⟩ := Option.map_eq_some_iff.mp h
      exact hx
  | reasonPhrase =>
    obtain ⟨v, -, rfl⟩ := Option.map_eq_some_iff.mp h
    exact hx
  | httpVersion =>
    rw [act] at h
    split at h
    · cases h
      exact (by decide : (1001 : Int) ≠ 0)
    · cases h
      exact hx

def scan (fields : Nat → UInt8 → List ResponseAction × Nat) :
    HeadScan HttpResponseParser ResponseAction where
  machine := httpclientParser fields
  act := act
  cs := cs
  begins x := { x with mark := 0, fieldLen := 0, fieldStart := 0 }
  ends s x := { x with cs := s }
  error := error

theorem scan_runs (fields : Nat → UInt8 → List ResponseAction × Nat) (size : Nat) :
    (scan fields).Runs (HttpConnection.responseHead (httpclientParser fields) size false) where
  execute _ _ _ := rfl
  hasError _ := rfl
  isFinished _ := rfl
  cs_ends _ _ := rfl
  error_ends _ _ := rfl
  sticky _ _ _ _ _ := error_of_act

/-- Without its first byte a version is not recognised. -/
theorem error_of_version {v : Bytes} {q : Nat} (hq : 1 ≤ q) {x x' : HttpResponseParser}
    (hmark : x.mark = 0) (h : act (84 :: v) q .httpVersion x = some x') : x'.error ≠ 0 := by
  have hlen : tokenLen 0 q ≠ 0 := by
    rw [tokenLen_of_le (Nat.zero_le q)]
    omega
  rw [act, hmark, List.drop_zero, versionOf_tail hlen] at h
  cases h
  exact (by decide : (1001 : Int) ≠ 0)

/-- Behind the first byte of a version nothing is stored up to its end. -/
theorem httpclientNext_quiet (fields : Nat → UInt8 → List ResponseAction × Nat) (s : Nat) (b : UInt8)
    (hs : 9 ≤ s ∧ s ≤ 15) :
    (httpclientParser fields).isError (httpclientNext fields s b).2 = true ∨
      (httpclientNext fields s b).1 = [] ∧
        9 ≤ (httpclientNext fields s b).2 ∧ (httpclientNext fields s b).2 ≤ 15 ∨
      (httpclientNext fields s b).1 = [.httpVersion] := by
  obtain ⟨hlow, hhigh⟩ := hs
  have hstates : s = 9 ∨ s = 10 ∨ s = 11 ∨ s = 12 ∨ s = 13 ∨ s = 14 ∨ s = 15 := by omega
  rcases hstates with rfl | rfl | rfl | rfl | rfl | rfl | rfl <;> simp only [httpclientNext] <;>
    split_ifs <;> simp [httpclientParser]

/-- A read that ends behind the first byte of the version. -/
theorem error_of_cut {fields : Nat → UInt8 → List ResponseAction × Nat} {v : Bytes}
    {x z : HttpResponseParser} (haccepts : (httpclientParser fields).accepts 9 v = true)
    (hmark : x.mark = 0)
    (hfollow : (httpclientParser fields).follow (act (84 :: v)) 0 8 x (84 :: v) = some z) :
    z.error ≠ 0 :=
  Scanner.follow_quiet (fun s => 9 ≤ s ∧ s ≤ 15) .httpVersion (fun x => x.error ≠ 0)
    (httpclientNext_quiet fields) (fun _ _ _ _ => error_of_act)
    (fun _ _ hq h => error_of_version hq hmark h) (by decide) haccepts
    (show (httpclientParser fields).follow (act (84 :: v)) 1 9 x v = some z from hfollow)

end HttpResponseParser

namespace HttpConnection

variable {M : Scanner Nat ResponseAction} {size : Nat} {x y : HttpResponseParser}

/-- The parser of the size lines begins with the data and the error of the one before. -/
theorem turn_init (h : x.init = y.init) (data : Bytes) :
    (responseHead M size true).turn x data = (responseHead M size true).turn y data := by
  simp only [HeadLoop.turn, responseHead, HttpResponseParser.execute, if_true, h]

theorem recvHead_init (h : x.init = y.init) (left : Bytes) (reads : List ReadResult) :
    (responseHead M size true).recvHead x left reads =
      (responseHead M size true).recvHead y left reads := by
  cases reads with
  | nil => rfl
  | cons r reads => simp only [HeadLoop.recvHead, turn_init h]

theorem recvChunkHead_init (h : x.init = y.init) (left : Bytes) (reads : List ReadResult) :
    recvChunkHead M size x left reads = recvChunkHead M size y left reads := by
  simp only [recvChunkHead, turn_init h, recvHead_init h]

theorem recvChunks_init (h : x.init = y.init) (n : Nat) (left body : Bytes)
    (reads : List ReadResult) :
    recvChunks M size n x left body reads = recvChunks M size n y left body reads := by
  cases n with
  | zero => rfl
  | succ n => rw [recvChunks, recvChunks, recvChunkHead_init h]

def behind (M : Scanner Nat ResponseAction) (size : Nat) (parser : HttpResponseParser)
    (reads : List ReadResult) : Option (Recv HttpResponse) :=
  if parser.chunked then
    (recvChunks M size (available reads + 1) parser [] [] reads).map
      (Recv.map fun (parser, body) => { parser.data with body })
  else
    (recvBody parser.data.headers.contentLength.toInt64.toInt [] reads).map
      (Recv.map fun body => { parser.data with body })

theorem behind_congr (hdata : x.data = y.data) (herror : x.error = y.error)
    (hchunked : x.chunked = y.chunked) (reads : List ReadResult) :
    behind M size x reads = behind M size y reads := by
  have hinit : x.init = y.init := by
    rw [HttpResponseParser.init, HttpResponseParser.init, hdata, herror]
  rw [behind, behind, hchunked, hdata, recvChunks_init hinit]

/-- Nothing has come behind a head. -/
theorem behind_nil (x : HttpResponseParser) :
    (∃ response, behind M size x [] = some (.ret response [])) ∨
      behind M size x [] = some .wait := by
  rw [behind]
  by_cases hchunked : x.chunked = true
  · rw [if_pos hchunked]
    exact .inr rfl
  · rw [if_neg hchunked]
    rcases recvBody_nil (Int64.toInt_lt x.data.headers.contentLength.toInt64) with hbody | hbody
    · left
      rw [hbody]
      exact ⟨_, rfl⟩
    · right
      rw [hbody]
      rfl

end HttpConnection

namespace ResponseHead

variable {fields : Nat → UInt8 → List ResponseAction × Nat} {size : Nat}

/-- Whatever the reads that bring the head, `recvResponse` comes to the same. -/
def SameForEveryCut (size : Nat) (r : ResponseHead fields) : Prop :=
  ∀ (ps qs : List Bytes) (reads : List ReadResult), Cut size r.head ps → Cut size r.head qs →
    HttpConnection.recvResponse (httpclientParser fields) size (ps.map ReadResult.data ++ reads) =
      HttpConnection.recvResponse (httpclientParser fields) size (qs.map ReadResult.data ++ reads)

/-- The version is at least two bytes long. -/
theorem version_split (r : ResponseHead fields) : ∃ v, r.head = [72] ++ 84 :: v ∧
    (httpclientParser fields).accepts 9 v = true := by
  have haccepted := r.accepted
  obtain ⟨w, hhead⟩ := List.head?_eq_some_iff.mp r.version
  rw [hhead] at haccepted
  have hT : (httpclientParser fields).accepts 8 w = true := haccepted
  cases w with
  | nil => cases hT
  | cons b v =>
    by_cases hb : b = 84
    · subst hb
      exact ⟨v, hhead, hT⟩
    · simp [Scanner.accepts, httpclientParser, httpclientNext, hb] at hT

/-- When no read ends within a token, the parser of the head is that of the whole head. -/
theorem recvResponse_clean (hfields : HeaderFields fields) (r : ResponseHead fields)
    {pieces : List Bytes} (hcut : Cut size r.head pieces)
    (hclean : (httpclientParser fields).cleanPieces ResponseAction.registers 1 pieces = true)
    (reads : List ReadResult) :
    HttpConnection.recvResponse (httpclientParser fields) size
        (pieces.map ReadResult.data ++ reads) =
      HttpConnection.behind (httpclientParser fields) size r.parser reads := by
  have hagree : ∀ (pre w post : Bytes) (s : Nat) (x y : HttpResponseParser),
      (httpclientParser fields).clean ResponseAction.registers [] s w = true →
      x.data = y.data ∧ x.error = y.error ∧ x.chunked = y.chunked →
      ∃ x' y', (httpclientParser fields).follow (HttpResponseParser.act w) 0 s
          ((HttpResponseParser.scan fields).begins x) w = some x' ∧
        (httpclientParser fields).follow (HttpResponseParser.act (pre ++ w ++ post)) pre.length s y
          w = some y' ∧ x'.data = y'.data ∧ x'.error = y'.error ∧ x'.chunked = y'.chunked := by
    intro pre w post s x y hw hsame
    have hboth := HttpResponseParser.follow_agrees hfields pre [] post
      (x := (HttpResponseParser.scan fields).begins x) (y := y) hsame.1 hsame.2.1 hsame.2.2 hw
    rw [List.append_nil] at hboth
    exact hboth
  have hparsed : (httpclientParser fields).follow
      (HttpResponseParser.act ([] ++ pieces.flatten)) 0 1 {} pieces.flatten = some r.parser := by
    rw [List.nil_append, hcut.bytes]
    exact r.parsed
  have hrecv := (HttpResponseParser.scan_runs fields size).recv_clean reads
    (x := ({} : HttpResponseParser))
    (fun x y => x.data = y.data ∧ x.error = y.error ∧ x.chunked = y.chunked) hagree
    (fun x y h => h.2.1) (fun s x y h => h) (hcut.ne_nil r.head_ne_nil) hcut.answers
    (hcut.bytes ▸ r.accepted) hclean ⟨rfl, rfl, rfl⟩ hparsed r.valid
  obtain ⟨x, ⟨hdata, herror, hchunked⟩, hret⟩ := hrecv
  rw [← HttpConnection.behind_congr hdata herror hchunked, HttpConnection.recvResponse, hret,
    Option.bind_some, Recv.bind_ret]
  dsimp only
  rw [List.length_nil, Nat.zero_add]
  rfl

/-- A read that ends behind the first byte of the version. -/
theorem recvResponse_cut (r : ResponseHead fields) (hfits : Fits size r.head) :
    ∃ u v, Cut size r.head [u, v] ∧
      (HttpConnection.recvResponse (httpclientParser fields) size [.data u, .data v] =
          some .thrown ∨
        HttpConnection.recvResponse (httpclientParser fields) size [.data u, .data v] =
          some (.null true)) := by
  obtain ⟨v, hhead, haccepts⟩ := r.version_split
  have hcut : Cut size r.head [[72], 84 :: v] := hfits.two hhead (by simp) (by simp)
  have hlost : ∀ y z, (httpclientParser fields).follow (HttpResponseParser.act (84 :: v)) 0 8
      ((HttpResponseParser.scan fields).begins y) (84 :: v) = some z → z.error ≠ 0 :=
    fun y z hfollow => HttpResponseParser.error_of_cut haccepts rfl hfollow
  have hbroken := (HttpResponseParser.scan_runs fields size).recv_broken
    (x := ({} : HttpResponseParser)) (List.cons_ne_nil 84 v) hcut.answers (hhead ▸ r.accepted) hlost
  refine ⟨[72], 84 :: v, hcut, ?_⟩
  rcases hbroken with hthrown | hnull
  · left
    rw [HttpConnection.recvResponse, hthrown]
    rfl
  · right
    rw [HttpConnection.recvResponse, hnull]
    rfl

theorem not_sameForEveryCut (hfields : HeaderFields fields) (r : ResponseHead fields)
    (hfits : Fits size r.head) : ¬ r.SameForEveryCut size := by
  intro hsame
  obtain ⟨u, v, hcut, hbroken⟩ := r.recvResponse_cut hfits
  have hwhole := hfits.whole r.head_ne_nil
  have hclean : (httpclientParser fields).cleanPieces ResponseAction.registers 1 [r.head] = true := by
    rw [Scanner.cleanPieces, Scanner.cleanPieces, r.clean]
    rfl
  have hrecv := hsame [u, v] [r.head] [] hcut hwhole
  rw [r.recvResponse_clean hfields hwhole hclean, List.append_nil] at hrecv
  change HttpConnection.recvResponse (httpclientParser fields) size [.data u, .data v] = _ at hrecv
  rcases HttpConnection.behind_nil r.parser with ⟨response, hret⟩ | hwait
  · rw [hret] at hrecv
    rcases hbroken with hthrown | hnull
    · cases hthrown.symm.trans hrecv
    · cases hnull.symm.trans hrecv
  · rw [hwait] at hrecv
    rcases hbroken with hthrown | hnull
    · cases hthrown.symm.trans hrecv
    · cases hnull.symm.trans hrecv

end ResponseHead

/-! ## Cuts -/

/-- No head comes to the same for every cut; cuts that leave the tokens whole make no difference. -/
theorem head_cuts {uri : Nat → UInt8 → List RequestAction × Nat} (huri : RequestUri uri)
    {fields : Nat → UInt8 → List ResponseAction × Nat} (hfields : HeaderFields fields)
    (size : Nat) :
    (∀ r : RequestHead uri, Fits size r.head → ¬ r.SameForEveryCut size) ∧
      (∀ (r : RequestHead uri) (ps qs : List Bytes) (reads : List ReadResult),
        Cut size r.head ps → Cut size r.head qs →
        (httpParser uri).cleanPieces RequestAction.registers 1 ps = true →
        (httpParser uri).cleanPieces RequestAction.registers 1 qs = true →
        HttpSession.recvRequest (httpParser uri) size (ps.map ReadResult.data ++ reads) =
          HttpSession.recvRequest (httpParser uri) size (qs.map ReadResult.data ++ reads)) ∧
      (∀ r : ResponseHead fields, Fits size r.head → ¬ r.SameForEveryCut size) ∧
      ∀ (r : ResponseHead fields) (ps qs : List Bytes) (reads : List ReadResult),
        Cut size r.head ps → Cut size r.head qs →
        (httpclientParser fields).cleanPieces ResponseAction.registers 1 ps = true →
        (httpclientParser fields).cleanPieces ResponseAction.registers 1 qs = true →
        HttpConnection.recvResponse (httpclientParser fields) size
            (ps.map ReadResult.data ++ reads) =
          HttpConnection.recvResponse (httpclientParser fields) size
            (qs.map ReadResult.data ++ reads) := by
  refine ⟨fun r => r.not_sameForEveryCut huri, ?_, fun r => r.not_sameForEveryCut hfields, ?_⟩
  · intro r ps qs reads hps hqs hcleanp hcleanq
    rw [r.recvRequest_clean huri hps hcleanp, r.recvRequest_clean huri hqs hcleanq]
  · intro r ps qs reads hps hqs hcleanp hcleanq
    rw [r.recvResponse_clean hfields hps hcleanp, r.recvResponse_clean hfields hqs hcleanq]

theorem head_cuts_get : ¬ getRequest.toRequestHead.SameForEveryCut 4096 ∧
    ¬ ResponseHead.SameForEveryCut 4096 chunkedResponse ∧
    HttpSession.recvRequest (httpParser getUri) 4096
        [.data (getHead.take 6), .data (getHead.drop 6)] =
      HttpSession.recvRequest (httpParser getUri) 4096 [.data getHead] := by
  obtain ⟨hrequest, hclean, hresponse, -⟩ := head_cuts getUri_space chunkedFields_trusted 4096
  refine ⟨hrequest getRequest.toRequestHead ⟨by decide, by decide⟩,
    hresponse chunkedResponse ⟨by decide, by decide⟩, ?_⟩
  exact hclean getRequest.toRequestHead [getHead.take 6, getHead.drop 6] [getHead] []
    ⟨by decide, by decide⟩ ⟨by decide, by decide⟩ (by decide +kernel) (by decide +kernel)

/-- The read ends behind the first byte of the version. -/
theorem version_cut :
    HttpSession.recvRequest (httpParser getUri) 4096 [.data getHead] =
        some (.ret getRequest.request []) ∧
      HttpSession.recvRequest (httpParser getUri) 4096
        [.data (getHead.take 7), .data (getHead.drop 7)] = some (.null true) ∧
      ¬ getRequest.toRequestHead.SameForEveryCut 4096 := by
  have hwhole : HttpSession.recvRequest (httpParser getUri) 4096 [.data getHead] =
      some (.ret getRequest.request []) := by decide +kernel
  have hcut : HttpSession.recvRequest (httpParser getUri) 4096
      [.data (getHead.take 7), .data (getHead.drop 7)] = some (.null true) := by decide +kernel
  refine ⟨hwhole, hcut, fun hsame => ?_⟩
  have hboth := hsame [getHead] [getHead.take 7, getHead.drop 7] []
    ⟨by decide, by decide⟩ ⟨by decide, by decide⟩
  cases hwhole.symm.trans (hboth.trans hcut)

end Azure
