import Azure.Http.Dump
import Azure.Http.Methods
import Azure.Reasoning.Passes

/-!
# Request lines

The transitions of `http11_parser.rl.cc` on the method and on a URI that begins with a single slash.
Those on other URIs are a parameter.  `uri_relaxed` is never set, so it is one, too; the texts below do
without the bytes that depend on it.
-/

namespace Azure

open Reasoning

/-! ## The table -/

/-- `more_delims` -/
def isdelim (relaxed : Bool) (b : UInt8) : Bool := relaxed ∧ (b = 94 ∨ b = 123 ∨ b = 125)

def ispath (b : UInt8) : Bool :=
  b = 33 ∨ b = 36 ∨ 38 ≤ b ∧ b ≤ 59 ∨ b = 61 ∨ 64 ≤ b ∧ b ≤ 90 ∨ b = 95 ∨ 97 ≤ b ∧ b ≤ 122 ∨
    b = 126 ∨ 128 ≤ b

def isquery (b : UInt8) : Bool := ispath b ∨ b = 63

def originNext (relaxed : Bool) (absolute : Nat → UInt8 → List RequestAction × Nat) :
    Nat → UInt8 → List RequestAction × Nat
  | 1, b =>
    if HttpMethod.ismethod b then ([.mark], 2)
    else if b = 60 then ([.mark], 194)
    else if b = 64 then ([.mark], 198)
    else ([], 0)
  | 2, b => if b = 32 then ([.requestMethod], 3) else if HttpMethod.ismethod b then ([], 175) else ([], 0)
  -- the URI
  | 3, b =>
    if b = 32 then ([.mark, .requestPath, .requestUri], 4)
    else if b = 35 then ([.mark, .requestPath, .requestUri], 20)
    else if b = 37 then ([.mark], 24)
    else if b = 47 then ([.mark], 33)
    else if b = 63 then ([.mark, .requestPath], 29)
    else if 65 ≤ b ∧ b ≤ 90 ∨ 97 ≤ b ∧ b ≤ 122 then ([.mark], 173)
    else if b = 33 ∨ b = 36 ∨ 38 ≤ b ∧ b ≤ 46 ∨ 48 ≤ b ∧ b ≤ 57 ∨ b = 59 ∨ b = 61 ∨ b = 64 ∨
        b = 95 ∨ b = 126 ∨ isdelim relaxed b then ([.mark], 19)
    else ([], 0)
  -- the fragment
  | 20, b =>
    if b = 32 then ([.mark, .fragment], 4)
    else if b = 37 then ([.mark], 22)
    else if isquery b ∨ isdelim relaxed b then ([.mark], 21)
    else ([], 0)
  | 21, b =>
    if b = 32 then ([.fragment], 4)
    else if b = 37 then ([], 22)
    else if isquery b ∨ isdelim relaxed b then ([], 21)
    else ([], 0)
  | 22, b => if isxdigit b then ([], 23) else ([], 0)
  | 23, b => if isxdigit b then ([], 21) else ([], 0)
  -- the path behind its first segment byte
  | 26, b =>
    if b = 32 then ([.requestPath, .requestUri], 4)
    else if b = 35 then ([.requestPath, .requestUri], 20)
    else if b = 37 then ([], 27)
    else if b = 63 then ([.requestPath], 29)
    else if ispath b ∨ isdelim relaxed b then ([], 26)
    else ([], 0)
  | 27, b => if isxdigit b then ([], 28) else ([], 0)
  | 28, b => if isxdigit b then ([], 26) else ([], 0)
  -- the query
  | 29, b =>
    if b = 32 then ([.startQuery, .queryString, .requestUri], 4)
    else if b = 35 then ([.startQuery, .queryString, .requestUri], 20)
    else if b = 37 then ([.startQuery], 31)
    else if isquery b ∨ isdelim relaxed b then ([.startQuery], 30)
    else ([], 0)
  | 30, b =>
    if b = 32 then ([.queryString, .requestUri], 4)
    else if b = 35 then ([.queryString, .requestUri], 20)
    else if b = 37 then ([], 31)
    else if isquery b ∨ isdelim relaxed b then ([], 30)
    else ([], 0)
  | 31, b => if isxdigit b then ([], 32) else ([], 0)
  | 32, b => if isxdigit b then ([], 30) else ([], 0)
  -- the first slash; behind a second one stands an authority
  | 33, b =>
    if b = 32 then ([.requestPath, .requestUri], 4)
    else if b = 35 then ([.requestPath, .requestUri], 20)
    else if b = 37 then ([], 27)
    else if b = 47 then ([], 34)
    else if b = 63 then ([.requestPath], 29)
    else if ispath b ∨ isdelim relaxed b then ([], 26)
    else ([], 0)
  | cs, b =>
    -- the bytes of the method behind the second one
    if 175 ≤ cs ∧ cs ≤ 193 then
      if b = 32 then ([.requestMethod], 3)
      else if HttpMethod.ismethod b ∧ cs < 193 then ([], cs + 1)
      else ([], 0)
    else absolute cs b

theorem originNext_space {relaxed : Bool} {absolute : Nat → UInt8 → List RequestAction × Nat}
    (h : RequestUri absolute) : RequestUri (originNext relaxed absolute) where
  space cs b hmem := by
    unfold originNext at hmem
    split at hmem <;> (try split_ifs at hmem) <;>
      first
        | assumption
        | exact h.space _ _ hmem
        | simp at hmem

def assigned : Nat → List Position
  | 2 | 5 | 6 | 7 | 8 | 9 | 10 | 11 | 12 | 21 | 22 | 23 | 26 | 27 | 28 | 33 => [.mark]
  | 14 | 18 => [.fieldStart]
  | 15 => [.fieldStart, .fieldLen]
  | 16 => [.fieldStart, .fieldLen, .mark]
  | 30 | 31 | 32 => [.queryStart]
  | cs => if 175 ≤ cs ∧ cs ≤ 193 then [.mark] else []

/-! ## Tokens of a line -/

/-- A token from where it was marked up to the position behind it. -/
theorem tokenString_between (pre tok post : Bytes) :
    tokenString (pre ++ tok ++ post) pre.length (tokenLen pre.length (pre.length + tok.length)) =
      some tok := by
  rw [tokenLen_of_le (Nat.le_add_right ..), Nat.add_sub_cancel_left, tokenString,
    if_pos (by simp only [List.length_append]; omega)]
  rw [List.append_assoc, List.drop_left, List.take_left]

namespace HttpRequestParser

section Line

variable {relaxed : Bool} {absolute : Nat → UInt8 → List RequestAction × Nat}

abbrev Takes (relaxed : Bool) (absolute : Nat → UInt8 → List RequestAction × Nat) (buffer : Bytes) :
    Nat → Nat → HttpRequestParser → Bytes → Nat → HttpRequestParser → Prop :=
  Scanner.Passes (httpParser (originNext relaxed absolute)) (act buffer) RequestAction.registers
    assigned

variable {buffer pre post : Bytes} {p s t : Nat} {x y : HttpRequestParser} {b : UInt8}

theorem httpNext_uri {uri : Nat → UInt8 → List RequestAction × Nat} (h : s < 4 ∨ 18 < s) :
    httpNext uri s b = uri s b := by
  unfold httpNext
  split <;> first | omega | rfl

theorem originNext_method (h : 175 ≤ s ∧ s ≤ 193) :
    originNext relaxed absolute s b =
      if b = 32 then ([.requestMethod], 3)
      else if HttpMethod.ismethod b ∧ s < 193 then ([], s + 1)
      else ([], 0) := by
  unfold originNext
  split <;> first | omega | rw [if_pos h]

theorem assigned_method (h : 175 ≤ s ∧ s ≤ 193) : assigned s = [.mark] := by
  unfold assigned
  split <;> first | omega | rw [if_pos h]

theorem unfinished {uri : Nat → UInt8 → List RequestAction × Nat} (h : 1 ≤ s ∧ s < 348) :
    (httpParser uri).isError s = false ∧ (httpParser uri).isFinished s = false := by
  simp only [httpParser, decide_eq_false_iff_not]
  omega

theorem assigned_methodState {n : Nat} (h : 1 ≤ n ∧ n ≤ 20) : assigned (methodState n) = [.mark] := by
  unfold methodState
  split_ifs with hn
  · rfl
  · exact assigned_method (by omega)

theorem next_methodState {n : Nat} (hn : 1 ≤ n ∧ n ≤ 20) :
    (httpParser (originNext relaxed absolute)).next (methodState n) b =
      if b = 32 then ([.requestMethod], 3)
      else if HttpMethod.ismethod b ∧ n < 20 then ([], methodState (n + 1))
      else ([], 0) := by
  show httpNext _ _ b = _
  unfold methodState
  by_cases hone : n = 1
  · subst hone
    rw [if_pos rfl, httpNext_uri (by omega)]
    simp [originNext]
  · rw [if_neg hone, httpNext_uri (by omega), originNext_method (by omega)]
    have hlast : 173 + n < 193 ↔ n < 20 := by omega
    have hmore : ¬ n + 1 = 1 := by omega
    simp only [hlast, Nat.add_assoc, if_neg hmore]

theorem takes_method_rest {w : Bytes} {n : Nat} (hw : w.all HttpMethod.ismethod = true) (hn : 1 ≤ n)
    (hlen : n + w.length ≤ 20) :
    Takes relaxed absolute buffer p (methodState n) x w (methodState (n + w.length)) x := by
  induction w generalizing p n with
  | nil => exact .nil
  | cons b w ih =>
    rw [List.all_cons, Bool.and_eq_true] at hw
    rw [List.length_cons] at hlen ⊢
    have hrest := ih (p := p + 1) (n := n + 1) hw.2 (by omega) (by omega)
    rw [Nat.add_assoc, Nat.add_comm 1] at hrest
    have hspace : b ≠ 32 := by
      rintro rfl
      exact absurd hw.1 (by decide)
    refine .cons (.quiet ?_ ?_ ?_) hrest
    · rw [next_methodState (by omega), if_neg hspace, if_pos ⟨hw.1, by omega⟩]
    · apply unfinished
      unfold methodState
      split <;> omega
    · rw [assigned_methodState (by omega), assigned_methodState (by omega)]
      exact List.Subset.refl _

/-- The method and the space behind it. -/
theorem takes_method {tok : Bytes} {m : HttpMethod} (hbuffer : buffer = tok ++ 32 :: post)
    (htok : tok ≠ []) (hbytes : tok.all HttpMethod.ismethod = true) (hlen : tok.length ≤ 20)
    (hm : HttpMethod.ofChars tok = some m) :
    Takes relaxed absolute buffer 0 1 x (tok ++ [32]) 3
      { x with mark := 0, data := { x.data with method := m } } := by
  rcases List.exists_cons_of_ne_nil htok with ⟨b, w, rfl⟩
  rw [List.all_cons, Bool.and_eq_true] at hbytes
  rw [List.length_cons] at hlen
  have hfirst : Takes relaxed absolute buffer 0 1 x [b] 2 { x with mark := 0 } := by
    refine .byte [.mark] ?_ rfl rfl (unfinished (by omega)) (by decide)
    show originNext relaxed absolute 1 b = _
    simp only [originNext, hbytes.1, if_true]
  have hrest : Takes relaxed absolute buffer 1 2 { x with mark := 0 } w (methodState (1 + w.length))
      { x with mark := 0 } := takes_method_rest (n := 1) hbytes.2 (Nat.le_refl 1) (by omega)
  have hend : Takes relaxed absolute buffer (0 + (b :: w).length) (methodState (1 + w.length))
      { x with mark := 0 } [32] 3 { x with mark := 0, data := { x.data with method := m } } := by
    refine .byte [.requestMethod] ?_ ?_ rfl (unfinished (by omega)) ?_
    · rw [next_methodState (by omega), if_pos rfl]
    · have hchars : HttpMethod.ofChars (buffer.drop 0) = some m := by
        rw [List.drop_zero, hbuffer, HttpMethod.ofChars_append, hm]
      simp only [List.foldlM_cons, List.foldlM_nil, act, hchars]
      rfl
    · rw [assigned_methodState (by omega)]
      decide
  exact (hfirst.cons hrest).append hend

/-! ### The URI -/

theorem plain_of_ispath (h : ispath b = true) : b ≠ 32 ∧ b ≠ 35 ∧ b ≠ 37 ∧ b ≠ 63 := by
  refine ⟨?_, ?_, ?_, ?_⟩ <;>
  · rintro rfl
    revert h
    decide

theorem plain_of_isquery (h : isquery b = true) : b ≠ 32 ∧ b ≠ 35 ∧ b ≠ 37 := by
  refine ⟨?_, ?_, ?_⟩ <;>
  · rintro rfl
    revert h
    decide

def isText (plain : UInt8 → Bool) (w : Bytes) : Bool := Scanner.escaped 37 plain isxdigit w

/-- The first byte of a text: an escape begins, or it is plain. -/
theorem first_of_isText {plain : UInt8 → Bool} {w : Bytes} (hw : isText plain (b :: w) = true) :
    b = 37 ∨ plain b = true := by
  cases w with
  | nil => exact .inr hw
  | cons c w =>
    cases w with
    | nil =>
      simp only [isText, Scanner.escaped, Bool.and_eq_true] at hw
      exact .inr hw.1
    | cons d w =>
      simp only [isText, Scanner.escaped] at hw
      split at hw
      · next hb => exact .inl hb
      · exact .inr (Bool.and_eq_true_iff.mp hw).1

/-- The states of a text: `s₀` in front of it, `s` within it, `s₁` and `s₂` within its escapes.  The
actions are those on its first byte. -/
structure TextStates (relaxed : Bool) (absolute : Nat → UInt8 → List RequestAction × Nat)
    (plain first : UInt8 → Bool) (s₀ s s₁ s₂ : Nat) (acts : List RequestAction) : Prop where
  rest : ∀ b, plain b = true → originNext relaxed absolute s b = ([], s)
  enters : ∀ b, plain b = true → first b = true → originNext relaxed absolute s₀ b = (acts, s)
  escape : originNext relaxed absolute s 37 = ([], s₁) ∧ originNext relaxed absolute s₀ 37 = (acts, s₁)
  digit : ∀ b, isxdigit b = true →
    originNext relaxed absolute s₁ b = ([], s₂) ∧ originNext relaxed absolute s₂ b = ([], s)
  uri : ∀ r ∈ [s₀, s, s₁, s₂], 18 < r ∧ r < 348
  keeps : assigned s₁ = assigned s ∧ assigned s₂ = assigned s
  assigns : Scanner.Assigns RequestAction.registers (assigned s₀) acts (assigned s)
  breaks : acts.any (httpParser (originNext relaxed absolute)).breaks = false

theorem takes_text {plain first : UInt8 → Bool} {s₀ s s₁ s₂ : Nat} {acts : List RequestAction}
    (h : TextStates relaxed absolute plain first s₀ s s₁ s₂ acts) {w : Bytes} (hne : w ≠ [])
    (hw : isText plain w = true) (hfirst : ∀ b, w.head? = some b → b = 37 ∨ first b = true)
    (hacts : acts.foldlM (fun x a => act buffer p a x) x = some y) :
    Takes relaxed absolute buffer p s₀ x w s y := by
  have hnext : ∀ r ∈ [s₀, s, s₁, s₂], ∀ b, (httpParser (originNext relaxed absolute)).next r b =
      originNext relaxed absolute r b := fun r hr b => httpNext_uri (.inr (h.uri r hr).1)
  have hrest : Takes relaxed absolute buffer p s y w s y := by
    apply Scanner.Passes.escaped 37 plain isxdigit s₁ s₂ _ _ _ _ _ hw
    · intro b hb
      rw [hnext s (by simp), h.rest b hb]
    · rw [hnext s (by simp), h.escape.1]
    · intro b hb
      rw [hnext s₁ (by simp), (h.digit b hb).1]
    · intro b hb
      rw [hnext s₂ (by simp), (h.digit b hb).2]
    · intro r hr
      have hr' : r ∈ [s₀, s, s₁, s₂] := List.mem_cons_of_mem _ hr
      refine ⟨unfinished (by have := h.uri r hr'; omega), ?_⟩
      simp only [List.mem_cons, List.not_mem_nil, or_false] at hr
      rcases hr with rfl | rfl | rfl
      · rfl
      · exact h.keeps.1
      · exact h.keeps.2
  rcases List.exists_cons_of_ne_nil hne with ⟨b, w, rfl⟩
  have hsame : originNext relaxed absolute s₀ b = (acts, (originNext relaxed absolute s b).2) ∧
      (originNext relaxed absolute s b).1 = [] := by
    by_cases hesc : b = 37
    · subst hesc
      rw [h.escape.1, h.escape.2]
      exact ⟨rfl, rfl⟩
    · have hplain := (first_of_isText hw).resolve_left hesc
      have hgood := (hfirst b rfl).resolve_left hesc
      rw [h.rest b hplain, h.enters b hplain hgood]
      exact ⟨rfl, rfl⟩
  refine .enter hrest ?_ ?_ hacts h.breaks h.assigns
  · rw [hnext s₀ (by simp), hnext s (by simp), hsame.1]
  · rw [hnext s (by simp), hsame.2]

theorem pathStates : TextStates relaxed absolute ispath (· ≠ 47) 33 26 27 28 [] where
  rest b hb := by
    obtain ⟨h32, h35, h37, h63⟩ := plain_of_ispath hb
    simp only [originNext, h32, h35, h37, h63, hb, if_false, true_or, if_true]
  enters b hb hslash := by
    obtain ⟨h32, h35, h37, h63⟩ := plain_of_ispath hb
    have h47 : b ≠ 47 := of_decide_eq_true hslash
    simp only [originNext, h32, h35, h37, h47, h63, hb, if_false, true_or, if_true]
  escape := ⟨rfl, rfl⟩
  digit b hb := by simp only [originNext, hb, if_true, and_self]
  uri := by decide
  keeps := by decide
  assigns := by decide
  breaks := rfl

theorem queryStates : TextStates relaxed absolute isquery (fun _ => true) 29 30 31 32 [.startQuery] where
  rest b hb := by
    obtain ⟨h32, h35, h37⟩ := plain_of_isquery hb
    simp only [originNext, h32, h35, h37, hb, if_false, true_or, if_true]
  enters b hb _ := by
    obtain ⟨h32, h35, h37⟩ := plain_of_isquery hb
    simp only [originNext, h32, h35, h37, hb, if_false, true_or, if_true]
  escape := ⟨rfl, rfl⟩
  digit b hb := by simp only [originNext, hb, if_true, and_self]
  uri := by decide
  keeps := by decide
  assigns := by decide
  breaks := rfl

theorem fragmentStates : TextStates relaxed absolute isquery (fun _ => true) 20 21 22 23 [.mark] where
  rest b hb := by
    obtain ⟨h32, -, h37⟩ := plain_of_isquery hb
    simp only [originNext, h32, h37, hb, if_false, true_or, if_true]
  enters b hb _ := by
    obtain ⟨h32, -, h37⟩ := plain_of_isquery hb
    simp only [originNext, h32, h37, hb, if_false, true_or, if_true]
  escape := ⟨rfl, rfl⟩
  digit b hb := by simp only [originNext, hb, if_true, and_self]
  uri := by decide
  keeps := by decide
  assigns := by decide
  breaks := rfl

/-- A fragment and the space behind it. -/
theorem takes_fragment {f : Bytes} (hbuffer : buffer = pre ++ f ++ post) (hne : f ≠ [])
    (hf : isText isquery f = true) :
    Takes relaxed absolute buffer pre.length 20 x (f ++ [32]) 4
      { x with mark := pre.length, data := { x.data with fragment := f } } := by
  have htoken : Takes relaxed absolute buffer pre.length 20 x f 21 { x with mark := pre.length } :=
    takes_text fragmentStates hne hf (fun _ _ => .inr rfl) rfl
  refine htoken.append (.byte [.fragment] rfl ?_ rfl (unfinished (by omega)) (by decide))
  simp only [List.foldlM_cons, List.foldlM_nil, act, hbuffer, tokenString_between, Option.map_some]
  rfl

def fragmentTail (f : Bytes) : Bytes := if f = [] then [] else 35 :: f

/-- The end of a token that a space or a fragment may follow. -/
theorem takes_fragmentTail {f : Bytes} (hbuffer : buffer = pre ++ (fragmentTail f ++ post))
    (hf : isText isquery f = true)
    (hspace : Takes relaxed absolute buffer pre.length s x [32] 4 y)
    (hsharp : Takes relaxed absolute buffer pre.length s x [35] 20 y) (hy : y.data.fragment = []) :
    ∃ z, Takes relaxed absolute buffer pre.length s x (fragmentTail f ++ [32]) 4 z ∧
      z.data = { y.data with fragment := f } ∧ z.error = y.error := by
  by_cases hnil : f = []
  · subst hnil
    refine ⟨y, hspace, ?_, rfl⟩
    rw [← hy]
  · have hsplit : buffer = pre ++ [35] ++ f ++ post := by
      rw [hbuffer]
      simp [fragmentTail, hnil]
    have hfragment : Takes relaxed absolute buffer (pre ++ [35]).length 20 y (f ++ [32]) 4 _ :=
      takes_fragment hsplit hnil hf
    rw [List.length_append, List.length_singleton] at hfragment
    have htake := hsharp.cons hfragment
    rw [fragmentTail, if_neg hnil]
    exact ⟨_, htake, rfl, rfl⟩

/-- A query, with the fragment behind it and the space. -/
theorem takes_query {q f : Bytes} (hbuffer : buffer = pre ++ q ++ (fragmentTail f ++ post))
    (hne : q ≠ []) (hq : isText isquery q = true) (hf : isText isquery f = true)
    (hx : x.data.fragment = []) :
    ∃ y, Takes relaxed absolute buffer pre.length 29 x (q ++ (fragmentTail f ++ [32])) 4 y ∧
      y.data = { x.data with query := q, fragment := f } ∧ y.error = x.error := by
  have htoken : Takes relaxed absolute buffer pre.length 29 x q 30
      { x with queryStart := some pre.length } :=
    takes_text queryStates hne hq (fun _ _ => .inr rfl) rfl
  -- the query ends at a space or at a number sign
  have hend : ∀ b t, originNext relaxed absolute 30 b = ([.queryString, .requestUri], t) →
      1 ≤ t ∧ t < 348 → assigned t = [] →
      Takes relaxed absolute buffer (pre ++ q).length 30 { x with queryStart := some pre.length } [b]
        t { x with queryStart := some pre.length, data := { x.data with query := q } } := by
    intro b t hnext ht hassigned
    refine .byte [.queryString, .requestUri] hnext ?_ rfl (unfinished ht) ?_
    · simp only [List.foldlM_cons, List.foldlM_nil, act, hbuffer, List.length_append,
        tokenString_between, Option.map_some, Option.bind_some]
      rfl
    · rw [hassigned]
      decide
  rcases takes_fragmentTail hbuffer hf (hend 32 4 rfl (by omega) rfl)
    (hend 35 20 rfl (by omega) rfl) hx with ⟨z, hz, hdata, herror⟩
  rw [List.length_append] at hz
  exact ⟨z, htoken.append hz, hdata, herror⟩

def uriTail (q f : Bytes) : Bytes :=
  (if q = [] then [] else [63]) ++ q ++ (if f = [] then [] else [35]) ++ f

theorem uriTail_eq (q f : Bytes) :
    uriTail q f = if q = [] then fragmentTail f else 63 :: q ++ fragmentTail f := by
  unfold uriTail fragmentTail
  by_cases hq : q = [] <;> by_cases hf : f = [] <;> simp [hq, hf]

/-- The end of a path that a space, a query or a fragment may follow. -/
theorem takes_uriTail {q f : Bytes} (hbuffer : buffer = pre ++ (uriTail q f ++ post))
    (hq : isText isquery q = true) (hf : isText isquery f = true)
    (hspace : Takes relaxed absolute buffer pre.length s x [32] 4 y)
    (hsharp : Takes relaxed absolute buffer pre.length s x [35] 20 y)
    (hmark : Takes relaxed absolute buffer pre.length s x [63] 29 y) (hquery : y.data.query = [])
    (hfragment : y.data.fragment = []) :
    ∃ z, Takes relaxed absolute buffer pre.length s x (uriTail q f ++ [32]) 4 z ∧
      z.data = { y.data with query := q, fragment := f } ∧ z.error = y.error := by
  rw [uriTail_eq] at hbuffer ⊢
  by_cases hnil : q = []
  · subst hnil
    rw [if_pos rfl] at hbuffer ⊢
    rcases takes_fragmentTail hbuffer hf hspace hsharp hfragment with ⟨z, hz, hdata, herror⟩
    refine ⟨z, hz, ?_, herror⟩
    rw [hdata, ← hquery]
  · rw [if_neg hnil] at hbuffer ⊢
    have hsplit : buffer = pre ++ [63] ++ q ++ (fragmentTail f ++ post) := by
      rw [hbuffer]
      simp
    obtain ⟨z, hz, hdata, herror⟩ : ∃ z, Takes relaxed absolute buffer (pre ++ [63]).length 29 y
        (q ++ (fragmentTail f ++ [32])) 4 z ∧
        z.data = { y.data with query := q, fragment := f } ∧ z.error = y.error :=
      takes_query hsplit hnil hq hf hfragment
    rw [List.length_append, List.length_singleton] at hz
    refine ⟨z, ?_, hdata, herror⟩
    rw [List.append_assoc, List.cons_append]
    exact hmark.cons hz

def isPath (path : Bytes) : Bool :=
  path.head? = some 47 && isText ispath path.tail && path.tail.head? ≠ some 47

variable (relaxed absolute x) in
/-- The URI and the space behind it. -/
theorem takes_uri {path q f : Bytes} (hbuffer : buffer = pre ++ path ++ (uriTail q f ++ post))
    (hpath : isPath path = true) (hq : isText isquery q = true) (hf : isText isquery f = true)
    (hquery : x.data.query = []) (hfragment : x.data.fragment = []) :
    ∃ y, Takes relaxed absolute buffer pre.length 3 x (path ++ (uriTail q f ++ [32])) 4 y ∧
      y.data = { x.data with path, query := q, fragment := f } ∧ y.error = x.error := by
  simp only [isPath, Bool.and_eq_true, decide_eq_true_eq] at hpath
  obtain ⟨⟨hhead, htext⟩, hsecond⟩ := hpath
  obtain ⟨w, rfl⟩ := List.head?_eq_some_iff.mp hhead
  rw [List.tail_cons] at htext hsecond
  have hslash : Takes relaxed absolute buffer pre.length 3 x [47] 33 { x with mark := pre.length } :=
    .byte [.mark] rfl rfl rfl (unfinished (by omega)) (by decide)
  have hrest : ∃ s, (s = 33 ∨ s = 26) ∧ Takes relaxed absolute buffer (pre.length + 1) 33
      { x with mark := pre.length } w s { x with mark := pre.length } := by
    by_cases hnil : w = []
    · subst hnil
      exact ⟨33, .inl rfl, .nil⟩
    · refine ⟨26, .inr rfl, takes_text pathStates hnil htext (fun b hb => .inr ?_) rfl⟩
      apply decide_eq_true
      rintro rfl
      exact hsecond hb
  rcases hrest with ⟨s, hs, hrest⟩
  -- the path ends at a space, a number sign or a question mark
  have hend : ∀ b t acts, originNext relaxed absolute 33 b = (.requestPath :: acts, t) →
      originNext relaxed absolute 26 b = (.requestPath :: acts, t) → acts = [] ∨ acts = [.requestUri] →
      1 ≤ t ∧ t < 348 → assigned t = [] →
      Takes relaxed absolute buffer (pre ++ 47 :: w).length s { x with mark := pre.length } [b] t
        { x with mark := pre.length, data := { x.data with path := 47 :: w } } := by
    intro b t acts h33 h26 hacts ht hassigned
    have hnext : (httpParser (originNext relaxed absolute)).next s b = (.requestPath :: acts, t) := by
      rcases hs with rfl | rfl
      · exact h33
      · exact h26
    have hstate : assigned s = [.mark] := by rcases hs with rfl | rfl <;> rfl
    refine .byte _ hnext ?_ ?_ (unfinished ht) ?_
    · rcases hacts with rfl | rfl <;>
        simp only [List.foldlM_cons, List.foldlM_nil, act, hbuffer, List.length_append,
          tokenString_between, Option.map_some] <;> rfl
    · rcases hacts with rfl | rfl <;> rfl
    · rw [hassigned, hstate]
      rcases hacts with rfl | rfl <;> decide
  rcases takes_uriTail hbuffer hq hf
    (hend 32 4 [.requestUri] rfl rfl (.inr rfl) (by omega) rfl)
    (hend 35 20 [.requestUri] rfl rfl (.inr rfl) (by omega) rfl)
    (hend 63 29 [] rfl rfl (.inl rfl) (by omega) rfl) hquery hfragment with ⟨z, hz, hdata, herror⟩
  refine ⟨z, ?_, hdata, herror⟩
  rw [List.length_append, List.length_cons, Nat.add_comm w.length, ← Nat.add_assoc] at hz
  exact hslash.cons (hrest.append hz)

/-! ### The version -/

/-- The version and the line end. -/
theorem takes_version {version : UInt8} (hversion : version = 0x11 ∨ version = 0x10)
    (hbuffer : buffer = pre ++ versionText version ++ (crlf ++ post)) :
    Takes relaxed absolute buffer pre.length 4 x (versionText version ++ crlf) 13
      { x with mark := pre.length, data := { x.data with version } } := by
  have hbyte : ∀ q s b t, httpNext (originNext relaxed absolute) s b = ([], t) → 1 ≤ t ∧ t < 348 →
      assigned t ⊆ assigned s → Takes relaxed absolute buffer q s { x with mark := pre.length } [b] t
        { x with mark := pre.length } :=
    fun q s b t hnext ht hassigned => .quiet hnext (unfinished ht) hassigned
  have hfirst : Takes relaxed absolute buffer pre.length 4 x [72] 5 { x with mark := pre.length } :=
    .byte [.mark] rfl rfl rfl (unfinished (by omega)) (by decide)
  -- the two versions part at the last digit
  have hrest : Takes relaxed absolute buffer (pre.length + 1) 5 { x with mark := pre.length }
      (versionText version).tail 12 { x with mark := pre.length } := by
    rcases hversion with rfl | rfl
    all_goals
      refine .cons (hbyte _ 5 84 6 rfl (by omega) (by decide)) ?_
      refine .cons (hbyte _ 6 84 7 rfl (by omega) (by decide)) ?_
      refine .cons (hbyte _ 7 80 8 rfl (by omega) (by decide)) ?_
      refine .cons (hbyte _ 8 47 9 rfl (by omega) (by decide)) ?_
      refine .cons (hbyte _ 9 49 10 rfl (by omega) (by decide)) ?_
      refine .cons (hbyte _ 10 46 11 rfl (by omega) (by decide)) ?_
    · exact hbyte _ 11 49 12 rfl (by omega) (by decide)
    · exact hbyte _ 11 48 12 rfl (by omega) (by decide)
  have hlength : (versionText version).length = 8 := by rcases hversion with rfl | rfl <;> decide
  have hline : versionText version = 72 :: (versionText version).tail := by
    rcases hversion with rfl | rfl <;> decide
  have htoken := hfirst.cons hrest
  rw [← hline] at htoken
  -- `strncmp` compares the eight bytes of the token
  have hof : versionOf (buffer.drop pre.length) (tokenLen pre.length (pre.length + 8)) =
      some version := by
    have htake : (buffer.drop pre.length).take 8 = (versionText version).take 8 := by
      rw [hbuffer, List.append_assoc, List.drop_left, ← hlength, List.take_left, List.take_length]
    rw [tokenLen_of_le (Nat.le_add_right ..), Nat.add_sub_cancel_left, versionOf_congr htake]
    rcases hversion with rfl | rfl <;> decide
  have hreturn : Takes relaxed absolute buffer (pre.length + (versionText version).length) 12
      { x with mark := pre.length } [13] 17
      { x with mark := pre.length, data := { x.data with version } } := by
    refine .byte [.httpVersion] rfl ?_ rfl (unfinished (by omega)) (by decide)
    rw [hlength]
    simp only [List.foldlM_cons, List.foldlM_nil, act, hof]
    rfl
  exact htoken.append (hreturn.cons (.quiet rfl (unfinished (by omega)) (by decide)))

end Line

end HttpRequestParser

end Azure
