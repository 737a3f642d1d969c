import Azure.Http.Parser
import Azure.Reasoning.Overwrite
import Mathlib.Data.List.Find

/-!
# What the callbacks see

A callback gets a pointer into the buffer of its call of `execute`.  When the positions it uses were
stored during the same call, what it sees are the bytes of the head and nothing else: neither where
the head lies in the buffer nor what stands behind it makes a difference.
-/

namespace Azure

open Reasoning

/-! ## Tokens -/

section Tokens

variable {w : Bytes} {at_ len : Nat}

theorem tokenLen_of_le {fpc : Nat} (h : at_ ≤ fpc) : tokenLen at_ fpc = fpc - at_ := if_pos h

/-- A token of the piece `w` of a buffer. -/
theorem tokenString_piece (pre post : Bytes) (h : at_ + len ≤ w.length) :
    tokenString (pre ++ w ++ post) (pre.length + at_) len = some (slice w at_ len) := by
  have hle : pre.length + at_ + len ≤ (pre ++ w ++ post).length := by
    simp only [List.length_append]
    omega
  rw [tokenString, if_pos hle]
  congr 1
  show slice (pre ++ w ++ post) (pre.length + at_) len = _
  rw [List.append_assoc, slice_append_right, slice_append_left h]

/-- The token from a stored position on, in both buffers. -/
theorem token_piece {pre post post' : Bytes} {fpc : Nat} (hat : at_ ≤ fpc) (hfpc : fpc ≤ w.length) :
    tokenString (w ++ post) at_ (tokenLen at_ fpc) = some (slice w at_ (fpc - at_)) ∧
      tokenString (pre ++ w ++ post') (pre.length + at_) (tokenLen (pre.length + at_)
        (pre.length + fpc)) = some (slice w at_ (fpc - at_)) := by
  have hle : at_ + (fpc - at_) ≤ w.length := by omega
  constructor
  · rw [tokenLen_of_le hat]
    have hpiece := tokenString_piece [] post hle
    simpa using hpiece
  · rw [tokenLen_of_le (by omega), show pre.length + fpc - (pre.length + at_) = fpc - at_ by omega]
    exact tokenString_piece pre post' hle

theorem drop_piece {pre post : Bytes} (h : at_ ≤ w.length) :
    (pre ++ w ++ post).drop (pre.length + at_) = w.drop at_ ++ post := by
  rw [List.append_assoc, List.drop_length_add_append, List.drop_append_of_le_length h]

theorem strneq_congr {lhs lhs' rhs : Bytes} {n : Nat} (h : lhs.take n = lhs'.take n) :
    strneq lhs rhs n = strneq lhs' rhs n := by
  induction n generalizing lhs lhs' rhs with
  | zero => rfl
  | succ n ih =>
    cases lhs with
    | nil =>
      cases lhs' with
      | nil => rfl
      | cons b bs => simp at h
    | cons a as =>
      cases lhs' with
      | nil => simp at h
      | cons b bs =>
        simp only [List.take_succ_cons, List.cons.injEq] at h
        obtain ⟨rfl, h⟩ := h
        simp only [strneq, List.headD_cons, List.tail_cons, ih h]
        rfl

/-- The version is read off the token. -/
theorem versionOf_congr {lhs lhs' : Bytes} (h : lhs.take len = lhs'.take len) :
    versionOf lhs len = versionOf lhs' len := by
  rw [versionOf, versionOf, strneq_congr h, strneq_congr h]

theorem isPrefixOf_append {s tok r : Bytes} {c : UInt8} (hs : c ∉ s) :
    s.isPrefixOf (tok ++ c :: r) = s.isPrefixOf tok := by
  induction s generalizing tok with
  | nil => simp
  | cons a s ih =>
    simp only [List.mem_cons, not_or] at hs
    cases tok with
    | nil =>
      have hne : (a == c) = false := beq_false_of_ne (Ne.symm hs.1)
      simp [List.isPrefixOf, hne]
    | cons b tok =>
      simp only [List.cons_append, List.isPrefixOf]
      rw [ih hs.2]

/-- No method has a space in its name. -/
theorem HttpMethod.ofChars_append (tok r : Bytes) :
    HttpMethod.ofChars (tok ++ 32 :: r) = HttpMethod.ofChars tok := by
  have hspace : ∀ e ∈ HttpMethod.map, (32 : UInt8) ∉ e.2 := by decide
  unfold HttpMethod.ofChars
  congr 1
  apply List.find?_congr
  intro e he
  exact isPrefixOf_append (hspace e he)

theorem leadingDigits_append {base : Nat} (acc : Nat) (tok r : Bytes) {c : UInt8}
    (hc : ∀ d ∈ digitOf c, base ≤ d) :
    leadingDigits base acc (tok ++ c :: r) = leadingDigits base acc tok := by
  induction tok generalizing acc with
  | nil =>
    cases hd : digitOf c with
    | none => simp [leadingDigits, hd]
    | some d => simp [leadingDigits, hd, Nat.not_lt.mpr (hc d hd)]
  | cons b tok ih =>
    rw [List.cons_append, leadingDigits, leadingDigits]
    cases digitOf b with
    | none => rfl
    | some d =>
      dsimp only
      rw [ih]

theorem digitOf_of_not_isdigit {c : UInt8} (hc : isdigit c = false) : ∀ d ∈ digitOf c, 10 ≤ d := by
  intro d hd
  unfold isdigit at hc
  rw [decide_eq_false_iff_not] at hc
  unfold digitOf at hd
  rw [if_neg hc] at hd
  split at hd
  · rename_i hupper
    have hle := UInt8.le_iff_toNat_le.mp hupper.1
    rw [Option.mem_some_iff] at hd
    simp only [UInt8.reduceToNat] at hle
    omega
  · split at hd
    · rename_i hlower
      have hle := UInt8.le_iff_toNat_le.mp hlower.1
      rw [Option.mem_some_iff] at hd
      simp only [UInt8.reduceToNat] at hle
      omega
    · cases hd

/-- A number is read off its digits, whatever other text stands behind them. -/
theorem atoi_digits {tok r : Bytes} (htok : tok ≠ []) (hdigits : tok.all isdigit = true)
    (hr : ∀ c, r.head? = some c → isdigit c = false) :
    atoi (tok ++ r) = intOfLong (min (leadingDigits 10 0 tok : Int) (2 ^ 63 - 1)) := by
  obtain ⟨d, ds, rfl⟩ := List.exists_cons_of_ne_nil htok
  simp only [List.all_cons, Bool.and_eq_true] at hdigits
  have hd := hdigits.1
  unfold isdigit at hd
  simp only [decide_eq_true_eq] at hd
  have hspace : isspace d = false := by
    unfold isspace
    rw [decide_eq_false_iff_not]
    rintro (rfl | ⟨-, hle⟩)
    · exact absurd hd.1 (by decide)
    · exact absurd (UInt8.le_trans hd.1 hle) (by decide)
  have hminus : d ≠ 45 := by
    rintro rfl
    exact absurd hd.1 (by decide)
  have hplus : d ≠ 43 := by
    rintro rfl
    exact absurd hd.1 (by decide)
  have hnumber : leadingDigits 10 0 (d :: ds ++ r) = leadingDigits 10 0 (d :: ds) := by
    cases r with
    | nil => rw [List.append_nil]
    | cons c r => exact leadingDigits_append 0 _ r (digitOf_of_not_isdigit (hr c rfl))
  rw [List.cons_append] at hnumber
  simp [atoi, strtol, hspace, hminus, hplus, hnumber]

theorem atoi_append {tok r : Bytes} (htok : tok ≠ []) (hdigits : tok.all isdigit = true) :
    atoi (tok ++ 32 :: r) = atoi tok := by
  have hfront := atoi_digits (r := 32 :: r) htok hdigits fun c hc => by
    rw [← Option.some.inj hc]
    rfl
  have hall := atoi_digits (r := []) htok hdigits fun c hc => by cases hc
  rw [hfront, ← hall, List.append_nil]

end Tokens

/-! ## Positions -/

inductive Position where
  | mark
  | fieldStart
  | fieldLen
  | queryStart
  deriving DecidableEq, Repr

structure Positions where
  mark : Nat
  fieldStart : Nat
  fieldLen : Nat
  queryStart : Option Nat

namespace Positions

/-- Two parsers at position `p` of the same bytes, which lie `o` further behind in the buffer of `y`.
`F` are the positions that have been stored since. -/
structure Agree (o : Nat) (F : List Position) (p : Nat) (x y : Positions) : Prop where
  mark : .mark ∈ F → x.mark ≤ p ∧ y.mark = o + x.mark
  fieldStart : .fieldStart ∈ F → x.fieldStart ≤ p ∧ y.fieldStart = o + x.fieldStart
  fieldLen : .fieldLen ∈ F →
    .fieldStart ∈ F ∧ x.fieldStart + x.fieldLen ≤ p ∧ y.fieldLen = x.fieldLen
  queryStart : .queryStart ∈ F →
    ∃ q ≤ p, x.queryStart = some q ∧ y.queryStart = some (o + q)

namespace Agree

variable {o p q : Nat} {F : List Position} {x y : Positions}

theorem nil : Agree o [] p x y :=
  ⟨fun h => absurd h List.not_mem_nil, fun h => absurd h List.not_mem_nil,
    fun h => absurd h List.not_mem_nil, fun h => absurd h List.not_mem_nil⟩

theorem mono (h : Agree o F p x y) (hpq : p ≤ q) : Agree o F q x y where
  mark := fun hF => ⟨Nat.le_trans (h.mark hF).1 hpq, (h.mark hF).2⟩
  fieldStart := fun hF => ⟨Nat.le_trans (h.fieldStart hF).1 hpq, (h.fieldStart hF).2⟩
  fieldLen := fun hF =>
    ⟨(h.fieldLen hF).1, Nat.le_trans (h.fieldLen hF).2.1 hpq, (h.fieldLen hF).2.2⟩
  queryStart := fun hF => by
    obtain ⟨r, hr, hx, hy⟩ := h.queryStart hF
    exact ⟨r, Nat.le_trans hr hpq, hx, hy⟩

theorem storeMark (h : Agree o F p x y) :
    Agree o (.mark :: F) p { x with mark := p } { y with mark := o + p } where
  mark := fun _ => ⟨Nat.le_refl p, rfl⟩
  fieldStart := fun hF => h.fieldStart (by simpa using hF)
  fieldLen := fun hF => by
    have hold := h.fieldLen (by simpa using hF)
    exact ⟨List.mem_cons_of_mem _ hold.1, hold.2⟩
  queryStart := fun hF => h.queryStart (by simpa using hF)

/-- A field that begins puts the length of the last one out of date. -/
theorem storeField (h : Agree o F p x y) :
    Agree o (.fieldStart :: F.filter (· ∉ [Position.fieldLen])) p
      { x with fieldStart := p } { y with fieldStart := o + p } where
  mark := fun hF => h.mark (by simpa using hF)
  fieldStart := fun _ => ⟨Nat.le_refl p, rfl⟩
  fieldLen := fun hF => by simp at hF
  queryStart := fun hF => h.queryStart (by simpa using hF)

theorem storeLen (h : Agree o F p x y) (hstart : .fieldStart ∈ F) :
    Agree o (.fieldLen :: F) p { x with fieldLen := tokenLen x.fieldStart p }
      { y with fieldLen := tokenLen y.fieldStart (o + p) } where
  mark := fun hF => h.mark (by simpa using hF)
  fieldStart := fun hF => h.fieldStart (by simpa using hF)
  fieldLen := fun _ => by
    obtain ⟨hle, heq⟩ := h.fieldStart hstart
    refine ⟨List.mem_cons_of_mem _ hstart, ?_, ?_⟩
    · show x.fieldStart + tokenLen x.fieldStart p ≤ p
      rw [tokenLen_of_le hle]
      omega
    · show tokenLen y.fieldStart (o + p) = tokenLen x.fieldStart p
      rw [heq, tokenLen_of_le hle, tokenLen_of_le (by omega)]
      omega
  queryStart := fun hF => h.queryStart (by simpa using hF)

theorem storeQuery (h : Agree o F p x y) :
    Agree o (.queryStart :: F) p { x with queryStart := some p }
      { y with queryStart := some (o + p) } where
  mark := fun hF => h.mark (by simpa using hF)
  fieldStart := fun hF => h.fieldStart (by simpa using hF)
  fieldLen := fun hF => by
    have hold := h.fieldLen (by simpa using hF)
    exact ⟨List.mem_cons_of_mem _ hold.1, hold.2⟩
  queryStart := fun _ => ⟨p, Nat.le_refl p, rfl, rfl⟩

variable {pre w : Bytes} (post post' : Bytes)

/-- The bytes from the mark on, up to the end of the token. -/
theorem markToken (h : Agree pre.length F p x y) (hmark : .mark ∈ F) (hp : p ≤ w.length) :
    tokenString (w ++ post) x.mark (tokenLen x.mark p) = some (slice w x.mark (p - x.mark)) ∧
      tokenString (pre ++ w ++ post') y.mark (tokenLen y.mark (pre.length + p)) =
        some (slice w x.mark (p - x.mark)) := by
  obtain ⟨hle, heq⟩ := h.mark hmark
  rw [heq]
  exact token_piece hle hp

theorem queryToken (h : Agree pre.length F p x y) (hquery : .queryStart ∈ F) (hp : p ≤ w.length) :
    ∃ q q', x.queryStart = some q ∧ y.queryStart = some q' ∧
      tokenString (w ++ post) q (tokenLen q p) = some (slice w q (p - q)) ∧
      tokenString (pre ++ w ++ post') q' (tokenLen q' (pre.length + p)) =
        some (slice w q (p - q)) := by
  obtain ⟨q, hq, hx, hy⟩ := h.queryStart hquery
  exact ⟨q, _, hx, hy, token_piece hq hp⟩

theorem fieldToken (h : Agree pre.length F p x y) (hfield : .fieldLen ∈ F) (hp : p ≤ w.length) :
    y.fieldLen = x.fieldLen ∧
      tokenString (w ++ post) x.fieldStart x.fieldLen = some (slice w x.fieldStart x.fieldLen) ∧
      tokenString (pre ++ w ++ post') y.fieldStart y.fieldLen =
        some (slice w x.fieldStart x.fieldLen) := by
  obtain ⟨hstart, hlen, hlen'⟩ := h.fieldLen hfield
  have hle : x.fieldStart + x.fieldLen ≤ w.length := Nat.le_trans hlen hp
  refine ⟨hlen', ?_, ?_⟩
  · have hpiece := tokenString_piece [] post hle
    simpa using hpiece
  · rw [hlen', (h.fieldStart hstart).2]
    exact tokenString_piece pre post' hle

theorem version (h : Agree pre.length F p x y) (hmark : .mark ∈ F) (hp : p ≤ w.length) :
    versionOf ((pre ++ w ++ post').drop y.mark) (tokenLen y.mark (pre.length + p)) =
      versionOf ((w ++ post).drop x.mark) (tokenLen x.mark p) := by
  obtain ⟨hle, heq⟩ := h.mark hmark
  have hlen : p - x.mark ≤ (w.drop x.mark).length := by
    rw [List.length_drop]
    omega
  rw [heq, drop_piece (by omega), List.drop_append_of_le_length (by omega), tokenLen_of_le hle,
    tokenLen_of_le (by omega), show pre.length + p - (pre.length + x.mark) = p - x.mark by omega]
  apply versionOf_congr
  rw [List.take_append_of_le_length hlen, List.take_append_of_le_length hlen]

/-- What the callbacks see that look for the end of the token themselves. -/
theorem splitMark {b : UInt8} (h : Agree pre.length F p x y) (hmark : .mark ∈ F)
    (hb : w[p]? = some b) :
    (∃ r, (w ++ post).drop x.mark = slice w x.mark (p - x.mark) ++ b :: r) ∧
      ∃ r, (pre ++ w ++ post').drop y.mark = slice w x.mark (p - x.mark) ++ b :: r := by
  obtain ⟨hle, heq⟩ := h.mark hmark
  obtain ⟨hp, hget⟩ := List.getElem?_eq_some_iff.mp hb
  have hsplit : w.drop x.mark = slice w x.mark (p - x.mark) ++ b :: w.drop (p + 1) := by
    have hdrop : w.drop p = b :: w.drop (p + 1) := by
      rw [List.drop_eq_getElem_cons hp, hget]
    rw [← hdrop, slice]
    conv_lhs => rw [← List.take_append_drop (p - x.mark) (w.drop x.mark)]
    rw [List.drop_drop, show x.mark + (p - x.mark) = p by omega]
  constructor
  · refine ⟨w.drop (p + 1) ++ post, ?_⟩
    rw [List.drop_append_of_le_length (by omega), hsplit]
    simp
  · refine ⟨w.drop (p + 1) ++ post', ?_⟩
    rw [heq, drop_piece (by omega), hsplit]
    simp

end Agree

end Positions

/-! ## Requests -/

namespace RequestAction

def registers : Scanner.Registers RequestAction Position where
  reads
    | writeField => [.fieldStart]
    | writeValue => [.fieldStart, .fieldLen, .mark]
    | requestMethod | fragment | httpVersion | requestPath => [.mark]
    | queryString => [.queryStart]
    | _ => []
  stores
    | mark | startValue => some .mark
    | startField => some .fieldStart
    | writeField => some .fieldLen
    | startQuery => some .queryStart
    | _ => none
  drops
    | startField => [.fieldLen]
    | _ => []

end RequestAction

/-- What the transitions of the method and the URI have to be trusted for: a space ends the method. -/
structure RequestUri (uri : Nat → UInt8 → List RequestAction × Nat) : Prop where
  space : ∀ cs b, .requestMethod ∈ (uri cs b).1 → b = 32

theorem RequestUri.space_of_mem {uri : Nat → UInt8 → List RequestAction × Nat} (h : RequestUri uri)
    {cs : Nat} {b : UInt8} (hmem : .requestMethod ∈ (httpNext uri cs b).1) : b = 32 := by
  have hspace := h.space cs b
  unfold httpNext at hmem
  split at hmem <;> (try split_ifs at hmem) <;> simp_all

namespace HttpRequestParser

def positions (x : HttpRequestParser) : Positions where
  mark := x.mark
  fieldStart := x.fieldStart
  fieldLen := x.fieldLen
  queryStart := x.queryStart

/-- Two parsers after the same bytes, which lie `o` further behind in the buffer of `y`. -/
structure Agrees (o : Nat) (F : List Position) (p : Nat) (x y : HttpRequestParser) : Prop where
  data : x.data = y.data
  error : x.error = y.error
  positions : x.positions.Agree o F p y.positions

section Act

variable {pre w : Bytes} (post post' : Bytes) {p : Nat} {F : List Position} {x y : HttpRequestParser}

/-- An action whose positions are stored does the same in both buffers. -/
theorem act_agrees {a : RequestAction} {b : UInt8} (hb : w[p]? = some b)
    (hmethod : a = .requestMethod → b = 32) (h : Agrees pre.length F p x y)
    (hreads : ∀ r ∈ RequestAction.registers.reads a, r ∈ F) :
    ∃ x' y', act (w ++ post) p a x = some x' ∧
      act (pre ++ w ++ post') (pre.length + p) a y = some y' ∧
      Agrees pre.length (Scanner.stored RequestAction.registers F a) p x' y' := by
  obtain ⟨hdata, herror, hpos⟩ := h
  have hw : p ≤ w.length := Nat.le_of_lt (List.getElem?_eq_some_iff.mp hb).choose
  cases a with
  | mark | startValue =>
    rw [Scanner.stored_of_stores rfl rfl]
    exact ⟨_, _, rfl, rfl, hdata, herror, hpos.storeMark⟩
  | startField => exact ⟨_, _, rfl, rfl, hdata, herror, hpos.storeField⟩
  | writeField =>
    rw [Scanner.stored_of_stores rfl rfl]
    have hstart : Position.fieldStart ∈ F := hreads _ (by simp [RequestAction.registers])
    exact ⟨_, _, rfl, rfl, hdata, herror, hpos.storeLen hstart⟩
  | startQuery =>
    rw [Scanner.stored_of_stores rfl rfl]
    exact ⟨_, _, rfl, rfl, hdata, herror, hpos.storeQuery⟩
  | writeValue =>
    rw [Scanner.stored_of_drops rfl rfl]
    have hmark : Position.mark ∈ F := hreads _ (by simp [RequestAction.registers])
    have hfield : Position.fieldLen ∈ F := hreads _ (by simp [RequestAction.registers])
    obtain ⟨hvalue, hvalue'⟩ := hpos.markToken post post' hmark hw
    obtain ⟨hlen, hname, hname'⟩ := hpos.fieldToken post post' hfield hw
    dsimp only [HttpRequestParser.positions] at hvalue hvalue' hlen hname hname'
    by_cases hzero : x.fieldLen = 0
    · refine ⟨x, y, ?_, ?_, hdata, herror, hpos⟩
      · rw [act, if_pos hzero]
      · rw [act, if_pos (hlen.trans hzero)]
    · simp only [act, if_neg hzero, if_neg (hlen ▸ hzero), hvalue, hvalue', hname, hname',
        Option.bind_some, Option.map_some]
      exact ⟨_, _, rfl, rfl, by rw [hdata], herror, hpos⟩
  | requestMethod =>
    rw [Scanner.stored_of_drops rfl rfl]
    have hmark : Position.mark ∈ F := hreads _ (by simp [RequestAction.registers])
    obtain rfl := hmethod rfl
    -- the name of the method ends at the space
    obtain ⟨⟨r, hr⟩, r', hr'⟩ := hpos.splitMark post post' hmark hb
    dsimp only [HttpRequestParser.positions] at hr hr'
    simp only [act, hr, hr', HttpMethod.ofChars_append]
    cases HttpMethod.ofChars (slice w x.mark (p - x.mark)) with
    | none => exact ⟨_, _, rfl, rfl, hdata, rfl, hpos⟩
    | some m => exact ⟨_, _, rfl, rfl, by rw [hdata], herror, hpos⟩
  | fragment | requestPath =>
    rw [Scanner.stored_of_drops rfl rfl]
    have hmark : Position.mark ∈ F := hreads _ (by simp [RequestAction.registers])
    obtain ⟨hx, hy⟩ := hpos.markToken post post' hmark hw
    dsimp only [HttpRequestParser.positions] at hx hy
    simp only [act, hx, hy, Option.map_some]
    exact ⟨_, _, rfl, rfl, by rw [hdata], herror, hpos⟩
  | queryString =>
    rw [Scanner.stored_of_drops rfl rfl]
    have hquery : Position.queryStart ∈ F := hreads _ (by simp [RequestAction.registers])
    obtain ⟨q, q', hxq, hyq, hx, hy⟩ :=
      hpos.queryToken post post' hquery hw
    dsimp only [HttpRequestParser.positions] at hxq hyq
    refine ⟨{ x with data := { x.data with query := slice w q (p - q) } },
      { y with data := { y.data with query := slice w q (p - q) } }, ?_, ?_, ?_⟩
    · simp only [act, hxq, hx, Option.bind_some, Option.map_some]
    · simp only [act, hyq, hy, Option.bind_some, Option.map_some]
    · exact ⟨by rw [hdata], herror, hpos⟩
  | httpVersion =>
    rw [Scanner.stored_of_drops rfl rfl]
    have hmark : Position.mark ∈ F := hreads _ (by simp [RequestAction.registers])
    have hversion := hpos.version post post' hmark hw
    dsimp only [HttpRequestParser.positions] at hversion
    simp only [act, hversion]
    cases versionOf ((w ++ post).drop x.mark) (tokenLen x.mark p) with
    | none => exact ⟨_, _, rfl, rfl, hdata, rfl, hpos⟩
    | some v => exact ⟨_, _, rfl, rfl, by rw [hdata], herror, hpos⟩
  | requestUri | done | xml | json =>
    rw [Scanner.stored_of_drops rfl rfl]
    exact ⟨x, y, rfl, rfl, hdata, herror, hpos⟩

end Act

/-- A clean piece does the same to both parsers. -/
theorem follow_agrees {uri : Nat → UInt8 → List RequestAction × Nat} (huri : RequestUri uri)
    (pre : Bytes) {w : Bytes} (post post' : Bytes) {s : Nat} {x y : HttpRequestParser}
    (hdata : x.data = y.data) (herror : x.error = y.error)
    (hclean : (httpParser uri).clean RequestAction.registers [] s w = true) :
    ∃ x' y', (httpParser uri).follow (act (w ++ post)) 0 s x w = some x' ∧
      (httpParser uri).follow (act (pre ++ w ++ post')) pre.length s y w = some y' ∧
      x'.data = y'.data ∧ x'.error = y'.error := by
  have hrun : ∃ F x' y', (httpParser uri).follow (act (w ++ post)) 0 s x w = some x' ∧
      (httpParser uri).follow (act (pre ++ w ++ post')) pre.length s y w = some y' ∧
      Agrees pre.length F w.length x' y' := by
    apply Scanner.follow_clean (fun F p _ x y => Agrees pre.length F p x y) pre.length ?_
      ⟨hdata, herror, .nil⟩ hclean
    intro F p s b x y hb h hclean
    obtain ⟨x', y', hx, hy, h'⟩ := Scanner.foldlM_clean (fun F x y => Agrees pre.length F p x y)
      (fun F a x y ha h hreads => act_agrees post post' hb (fun heq => huri.space_of_mem (heq ▸ ha)) h hreads) h
      hclean
    exact ⟨x', y', hx, hy, h'.data, h'.error, h'.positions.mono (Nat.le_succ p)⟩
  obtain ⟨F, x', y', hx, hy, h⟩ := hrun
  exact ⟨x', y', hx, hy, h.data, h.error⟩

end HttpRequestParser

/-! ## Responses -/

namespace ResponseAction

def registers : Scanner.Registers ResponseAction Position where
  reads
    | writeField => [.fieldStart]
    | writeValue => [.fieldStart, .fieldLen, .mark]
    | writeContentLen | reasonPhrase | statusCode | httpVersion | chunkSize => [.mark]
    | _ => []
  stores
    | mark | startValue => some .mark
    | startField => some .fieldStart
    | writeField => some .fieldLen
    | _ => none
  drops
    | startField => [.fieldLen]
    | _ => []

end ResponseAction

/-- What the transitions of the headers have to be trusted for: the status is not read there. -/
structure HeaderFields (fields : Nat → UInt8 → List ResponseAction × Nat) : Prop where
  noStatus : ∀ cs b, .statusCode ∉ (fields cs b).1
  target : ∀ cs b, (fields cs b).2 ≠ 17

namespace HeaderFields

variable {fields : Nat → UInt8 → List ResponseAction × Nat}

theorem status_of_mem (h : HeaderFields fields) {cs : Nat} {b : UInt8}
    (hmem : .statusCode ∈ (httpclientNext fields cs b).1) :
    cs = 17 ∧ b = 32 ∧ httpclientNext fields cs b = ([.statusCode], 18) := by
  have hnone := h.noStatus cs b
  unfold httpclientNext at hmem ⊢
  split at hmem <;> (try split_ifs at hmem ⊢) <;> simp_all

/-- The digits of the status. -/
theorem digit_of_target (h : HeaderFields fields) {cs : Nat} {b : UInt8}
    (htarget : (httpclientNext fields cs b).2 = 17) :
    isdigit b = true ∧
      (cs = 16 ∧ (httpclientNext fields cs b).1 = [.mark] ∨
        cs = 17 ∧ (httpclientNext fields cs b).1 = []) := by
  have hnone := h.target cs b
  unfold httpclientNext at htarget ⊢
  split at htarget <;> (try split_ifs at htarget ⊢) <;> simp_all

end HeaderFields

namespace HttpResponseParser

def positions (x : HttpResponseParser) : Positions where
  mark := x.mark
  fieldStart := x.fieldStart
  fieldLen := x.fieldLen
  queryStart := none

/-- Two parsers after the same bytes, which lie `o` further behind in the buffer of `y`. -/
structure Agrees (o : Nat) (F : List Position) (p : Nat) (x y : HttpResponseParser) : Prop where
  data : x.data = y.data
  error : x.error = y.error
  chunked : x.chunked = y.chunked
  positions : x.positions.Agree o F p y.positions

def InStatus (w : Bytes) (F : List Position) (p s : Nat) (x : HttpResponseParser) : Prop :=
  s = 17 → .mark ∈ F → x.mark < p ∧ (slice w x.mark (p - x.mark)).all isdigit = true

section Act

variable {pre w : Bytes} (post post' : Bytes) {p : Nat} {F : List Position} {x y : HttpResponseParser}

theorem act_agrees {a : ResponseAction} {b : UInt8} (hb : w[p]? = some b)
    (hstatus : a = .statusCode → b = 32 ∧ InStatus w F p 17 x) (h : Agrees pre.length F p x y)
    (hreads : ∀ r ∈ ResponseAction.registers.reads a, r ∈ F) :
    ∃ x' y', act (w ++ post) p a x = some x' ∧
      act (pre ++ w ++ post') (pre.length + p) a y = some y' ∧
      Agrees pre.length (Scanner.stored ResponseAction.registers F a) p x' y' := by
  obtain ⟨hdata, herror, hchunked, hpos⟩ := h
  obtain ⟨hlt, -⟩ := List.getElem?_eq_some_iff.mp hb
  have hw : p ≤ w.length := Nat.le_of_lt hlt
  cases a with
  | mark | startValue =>
    rw [Scanner.stored_of_stores rfl rfl]
    exact ⟨_, _, rfl, rfl, hdata, herror, hchunked, hpos.storeMark⟩
  | startField => exact ⟨_, _, rfl, rfl, hdata, herror, hchunked, hpos.storeField⟩
  | writeField =>
    rw [Scanner.stored_of_stores rfl rfl]
    have hstart : Position.fieldStart ∈ F := hreads _ (by simp [ResponseAction.registers])
    exact ⟨_, _, rfl, rfl, hdata, herror, hchunked, hpos.storeLen hstart⟩
  | writeValue =>
    rw [Scanner.stored_of_drops rfl rfl]
    have hmark : Position.mark ∈ F := hreads _ (by simp [ResponseAction.registers])
    have hfield : Position.fieldLen ∈ F := hreads _ (by simp [ResponseAction.registers])
    obtain ⟨hvalue, hvalue'⟩ := hpos.markToken post post' hmark hw
    obtain ⟨hlen, hname, hname'⟩ := hpos.fieldToken post post' hfield hw
    dsimp only [HttpResponseParser.positions] at hvalue hvalue' hlen hname hname'
    by_cases hzero : x.fieldLen = 0
    · refine ⟨x, y, ?_, ?_, hdata, herror, hchunked, hpos⟩
      · rw [act, if_pos hzero]
      · rw [act, if_pos (hlen.trans hzero)]
    · simp only [act, if_neg hzero, if_neg (hlen ▸ hzero), hvalue, hvalue', hname, hname',
        Option.bind_some, Option.map_some]
      exact ⟨_, _, rfl, rfl, by rw [hdata], herror, hchunked, hpos⟩
  | reasonPhrase =>
    rw [Scanner.stored_of_drops rfl rfl]
    have hmark : Position.mark ∈ F := hreads _ (by simp [ResponseAction.registers])
    obtain ⟨hx, hy⟩ := hpos.markToken post post' hmark hw
    dsimp only [HttpResponseParser.positions] at hx hy
    simp only [act, hx, hy, Option.map_some]
    exact ⟨_, _, rfl, rfl, by rw [hdata], herror, hchunked, hpos⟩
  | statusCode =>
    rw [Scanner.stored_of_drops rfl rfl]
    have hmark : Position.mark ∈ F := hreads _ (by simp [ResponseAction.registers])
    obtain ⟨rfl, hdigits⟩ := hstatus rfl
    obtain ⟨hbefore, hall⟩ := hdigits rfl hmark
    have hne : slice w x.mark (p - x.mark) ≠ [] := by
      apply List.ne_nil_of_length_pos
      rw [length_slice (by omega)]
      omega
    -- the number ends at the space
    obtain ⟨⟨r, hr⟩, r', hr'⟩ := hpos.splitMark post post' hmark hb
    dsimp only [HttpResponseParser.positions] at hr hr'
    simp only [act, hr, hr', atoi_append hne hall]
    exact ⟨_, _, rfl, rfl, by rw [hdata], herror, hchunked, hpos⟩
  | httpVersion =>
    rw [Scanner.stored_of_drops rfl rfl]
    have hmark : Position.mark ∈ F := hreads _ (by simp [ResponseAction.registers])
    have hversion := hpos.version post post' hmark hw
    dsimp only [HttpResponseParser.positions] at hversion
    simp only [act, hversion]
    cases versionOf ((w ++ post).drop x.mark) (tokenLen x.mark p) with
    | none => exact ⟨_, _, rfl, rfl, hdata, rfl, hchunked, hpos⟩
    | some v => exact ⟨_, _, rfl, rfl, by rw [hdata], herror, hchunked, hpos⟩
  | chunkSize | transChunked =>
    rw [Scanner.stored_of_drops rfl rfl]
    exact ⟨_, _, rfl, rfl, hdata, herror, rfl, hpos⟩
  | writeContentLen | writeConnectionClose | done =>
    rw [Scanner.stored_of_drops rfl rfl]
    exact ⟨_, _, rfl, rfl, hdata, herror, hchunked, hpos⟩

end Act

section Follow

variable {fields : Nat → UInt8 → List ResponseAction × Nat} {pre w : Bytes}

theorem inStatus_next (hfields : HeaderFields fields) {F F' : List Position} {p s : Nat} {b : UInt8}
    {post : Bytes} {x x' : HttpResponseParser} (hb : w[p]? = some b) (h : InStatus w F p s x)
    (hF : F' = (httpclientNext fields s b).1.foldl (Scanner.stored ResponseAction.registers) F)
    (hx : (httpclientNext fields s b).1.foldlM (fun x a => act (w ++ post) p a x) x = some x') :
    InStatus w F' (p + 1) (httpclientNext fields s b).2 x' := by
  intro htarget hmark
  obtain ⟨hp, hget⟩ := List.getElem?_eq_some_iff.mp hb
  have hlast : slice w p 1 = [b] := by
    rw [slice, List.drop_eq_getElem_cons hp, hget]
    rfl
  obtain ⟨hdigit, ⟨rfl, hacts⟩ | ⟨rfl, hacts⟩⟩ := hfields.digit_of_target htarget
  · -- the first digit
    rw [hacts] at hx
    cases hx
    refine ⟨Nat.lt_succ_self p, ?_⟩
    show (slice w p (p + 1 - p)).all isdigit = true
    rw [Nat.add_sub_cancel_left, hlast]
    simpa using hdigit
  · rw [hacts] at hx hF
    cases hx
    subst hF
    obtain ⟨hlt, hall⟩ := h rfl hmark
    refine ⟨Nat.lt_succ_of_lt hlt, ?_⟩
    rw [show p + 1 - x.mark = p - x.mark + 1 by omega, slice_add,
      show x.mark + (p - x.mark) = p by omega, hlast, List.all_append, hall]
    simpa using hdigit

/-- A clean piece does the same to both parsers. -/
theorem follow_agrees (hfields : HeaderFields fields) (pre : Bytes) (post post' : Bytes) {s : Nat}
    {x y : HttpResponseParser} (hdata : x.data = y.data) (herror : x.error = y.error)
    (hchunked : x.chunked = y.chunked)
    (hclean : (httpclientParser fields).clean ResponseAction.registers [] s w = true) :
    ∃ x' y', (httpclientParser fields).follow (act (w ++ post)) 0 s x w = some x' ∧
      (httpclientParser fields).follow (act (pre ++ w ++ post')) pre.length s y w = some y' ∧
      x'.data = y'.data ∧ x'.error = y'.error ∧ x'.chunked = y'.chunked := by
  have hrun : ∃ F x' y', (httpclientParser fields).follow (act (w ++ post)) 0 s x w = some x' ∧
      (httpclientParser fields).follow (act (pre ++ w ++ post')) pre.length s y w = some y' ∧
      Agrees pre.length F w.length x' y' ∧
        InStatus w F w.length ((httpclientParser fields).run s w) x' := by
    apply Scanner.follow_clean (fun F p s x y => Agrees pre.length F p x y ∧ InStatus w F p s x)
      pre.length ?_ ⟨⟨hdata, herror, hchunked, .nil⟩, fun _ hF => absurd hF List.not_mem_nil⟩ hclean
    intro F p s b x y hb ⟨h, hstatus⟩ hclean
    have hfold : ∃ x' y',
        (httpclientNext fields s b).1.foldlM (fun x a => act (w ++ post) p a x) x = some x' ∧
        (httpclientNext fields s b).1.foldlM
          (fun y a => act (pre ++ w ++ post') (pre.length + p) a y) y = some y' ∧
        Agrees pre.length
          ((httpclientNext fields s b).1.foldl (Scanner.stored ResponseAction.registers) F) p x' y' := by
      -- the status is read up to the end of its digits, which are in the piece
      by_cases hmem : .statusCode ∈ (httpclientNext fields s b).1
      · obtain ⟨rfl, rfl, heq⟩ := hfields.status_of_mem hmem
        simp only [httpclientParser, heq, Scanner.cleanActs, Bool.and_true, List.all_eq_true,
          decide_eq_true_eq] at hclean
        obtain ⟨x', y', hx, hy, h'⟩ := act_agrees post post' hb
          (fun _ => ⟨rfl, hstatus⟩) h hclean
        refine ⟨x', y', ?_, ?_, by rw [heq]; exact h'⟩
        · rw [heq, List.foldlM_cons, hx]
          rfl
        · rw [heq, List.foldlM_cons, hy]
          rfl
      · exact Scanner.foldlM_clean (fun F x y => Agrees pre.length F p x y)
          (fun F a x y ha h hreads => act_agrees post post' hb (fun heq => absurd (heq ▸ ha) hmem) h hreads)
          h hclean
    obtain ⟨x', y', hx, hy, h'⟩ := hfold
    exact ⟨x', y', hx, hy,
      ⟨h'.data, h'.error, h'.chunked, h'.positions.mono (Nat.le_succ p)⟩,
      inStatus_next hfields hb hstatus rfl hx⟩
  obtain ⟨F, x', y', hx, hy, h, -⟩ := hrun
  exact ⟨x', y', hx, hy, h.data, h.error, h.chunked⟩

end Follow

end HttpResponseParser

end Azure
