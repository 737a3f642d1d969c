import Azure.Http.Tokens
import Mathlib.Data.List.TakeWhile

/-!
# Methods

`CharsToHttpMethod` looks for a name in front of what the buffer holds, and does not ask where the token
ends: a name in front of a longer token is taken for the method.
-/

namespace Azure

open Reasoning

namespace HttpMethod

def ofString (m : Bytes) : Option HttpMethod :=
  (map.find? fun e => e.2 = cStr m).map Prod.fst

/-- `upper | digit` -/
def ismethod (b : UInt8) : Bool := 48 ≤ b ∧ b ≤ 57 ∨ 65 ≤ b ∧ b ≤ 90

theorem map_inj : ∀ e ∈ map, ∀ e' ∈ map, e.2 = e'.2 → e = e' := by decide +kernel

/-- No name is in front of another one. -/
theorem map_prefix : ∀ e ∈ map, ∀ e' ∈ map, e.2.isPrefixOf e'.2 = true → e.2 = e'.2 := by
  decide +kernel

section
variable {t : Bytes}

theorem cStr_of_ismethod (ht : t.all ismethod = true) : cStr t = t := by
  apply List.takeWhile_eq_self_iff.mpr
  intro b hb
  have hmethod := List.all_eq_true.mp ht b hb
  apply decide_eq_true
  rintro rfl
  exact absurd hmethod (by decide)

theorem ofString_eq_some_iff (ht : t.all ismethod = true) (m : HttpMethod) :
    ofString t = some m ↔ (m, t) ∈ map := by
  rw [ofString, cStr_of_ismethod ht]
  constructor
  · intro h
    obtain ⟨e, he, hm⟩ := Option.map_eq_some_iff.mp h
    have hname : e.2 = t := by simpa using List.find?_some he
    have hmem := List.mem_of_find?_eq_some he
    have heq : e = (m, t) := Prod.ext hm hname
    exact heq ▸ hmem
  · intro h
    cases hfind : map.find? fun e => e.2 = t with
    | none => exact absurd (decide_eq_true rfl) (List.find?_eq_none.mp hfind (m, t) h)
    | some e =>
      have hname : e.2 = t := by simpa using List.find?_some hfind
      rw [map_inj e (List.mem_of_find?_eq_some hfind) (m, t) h hname]
      rfl

/-- The two functions agree on the tokens that no shorter name stands in front of. -/
theorem ofChars_eq_ofString_iff (ht : t.all ismethod = true) :
    ofChars t = ofString t ↔ ∀ e ∈ map, e.2 <+: t → e.2 = t := by
  constructor
  · intro h e he hpre
    cases hchars : ofChars t with
    | none =>
      rw [ofChars, Option.map_eq_none_iff, List.find?_eq_none] at hchars
      exact absurd (List.isPrefixOf_iff_prefix.mpr hpre) (hchars e he)
    | some m =>
      have hmem := (ofString_eq_some_iff ht m).mp (h ▸ hchars)
      -- two names in front of one token: no name is in front of another one
      exact map_prefix e he (m, t) hmem (List.isPrefixOf_iff_prefix.mpr hpre)
  · intro h
    rw [ofChars, ofString, cStr_of_ismethod ht]
    congr 1
    apply List.find?_congr
    intro e he
    rw [Bool.eq_iff_iff, decide_eq_true_iff, List.isPrefixOf_iff_prefix]
    exact ⟨h e he, fun heq => heq ▸ List.prefix_refl t⟩

end

end HttpMethod

/-! ## The request line -/

/-- What the transitions of `http11_parser.rl.cc` do with a method: 20 characters at most, and the space
behind them.  Those of the URI leave the version to `HTTP/`. -/
structure RequestMethod (uri : Nat → UInt8 → List RequestAction × Nat) : Prop where
  first : ∀ b, HttpMethod.ismethod b = true → uri 1 b = ([.mark], 2)
  second : ∀ b, HttpMethod.ismethod b = true → uri 2 b = ([], 175)
  more : ∀ s b, 175 ≤ s → s ≤ 192 → HttpMethod.ismethod b = true → uri s b = ([], s + 1)
  space : ∀ s, s = 2 ∨ 175 ≤ s ∧ s ≤ 193 → uri s 32 = ([.requestMethod], 3)
  version : ∀ s b, .httpVersion ∉ (uri s b).1 ∧ ((uri s b).2 < 5 ∨ 12 < (uri s b).2)

namespace HttpRequestParser

variable {uri : Nat → UInt8 → List RequestAction × Nat}

/-- The state behind `k` characters of a method. -/
def methodState (k : Nat) : Nat := if k = 1 then 2 else 173 + k

theorem httpNext_method (huri : RequestMethod uri) {k : Nat} (hk : 1 ≤ k) (hlt : k < 20) {b : UInt8}
    (hb : HttpMethod.ismethod b = true) :
    httpNext uri (methodState k) b = ([], methodState (k + 1)) := by
  by_cases hone : k = 1
  · subst hone
    exact huri.second b hb
  · have hstate : methodState k = 173 + k := if_neg hone
    have hnext : methodState (k + 1) = 173 + k + 1 := if_neg (by omega)
    have htable : httpNext uri (173 + k) b = uri (173 + k) b := by
      unfold httpNext
      split <;> first | omega | rfl
    rw [hstate, hnext, htable]
    exact huri.more (173 + k) b (by omega) (by omega) hb

theorem httpNext_space (huri : RequestMethod uri) {k : Nat} (hk : 1 ≤ k) (hle : k ≤ 20) :
    httpNext uri (methodState k) 32 = ([.requestMethod], 3) := by
  have htable : httpNext uri (methodState k) 32 = uri (methodState k) 32 := by
    have hstate : methodState k = 2 ∨ 174 < methodState k := by
      unfold methodState
      split <;> omega
    unfold httpNext
    split <;> first | omega | rfl
  rw [htable]
  apply huri.space
  unfold methodState
  split <;> omega

theorem methodState_ne_zero (k : Nat) : methodState k ≠ 0 := by
  unfold methodState
  split <;> omega

/-- The characters of a method are taken without an action. -/
theorem scan_method (huri : RequestMethod uri) {data w : Bytes} (hw : w.all HttpMethod.ismethod = true)
    {k : Nat} (hk : 1 ≤ k) (hle : k + w.length ≤ 20) (p : Nat) (x : HttpRequestParser) (rest : Bytes) :
    (httpParser uri).scan (act data) p (methodState k) x (w ++ rest) =
      (httpParser uri).scan (act data) (p + w.length) (methodState (k + w.length)) x rest := by
  induction w generalizing k p with
  | nil => rfl
  | cons b w ih =>
    rw [List.all_cons, Bool.and_eq_true] at hw
    rw [List.length_cons] at hle
    have hnext : (httpParser uri).next (methodState k) b = ([], methodState (k + 1)) :=
      httpNext_method huri hk (by omega) hw.1
    have herror : (httpParser uri).isError (methodState (k + 1)) = false :=
      decide_eq_false (methodState_ne_zero (k + 1))
    rw [List.cons_append, Scanner.scan, hnext]
    simp only [herror, Bool.false_eq_true, if_false, List.foldlM_nil, Option.pure_def,
      Option.bind_some, List.any_nil]
    -- the states of the method count its characters
    rw [ih hw.2 (by omega) (by omega), List.length_cons, Nat.add_assoc, Nat.add_comm 1, Nat.add_assoc k,
      Nat.add_comm 1]

/-- The scan of a method and the space behind it. -/
theorem scan_token (huri : RequestMethod uri) {data t : Bytes} (ht : t.all HttpMethod.ismethod = true)
    (hpos : 1 ≤ t.length) (hle : t.length ≤ 20) (x : HttpRequestParser) (rest : Bytes) :
    (httpParser uri).scan (act data) 0 1 x (t ++ 32 :: rest) =
      (act data t.length .requestMethod { x with mark := 0 }).bind fun x =>
        (httpParser uri).scan (act data) (t.length + 1) 3 x rest := by
  obtain ⟨b, w, rfl⟩ := List.exists_cons_of_length_pos hpos
  rw [List.all_cons, Bool.and_eq_true] at ht
  rw [List.length_cons] at hle
  have hfirst : (httpParser uri).next 1 b = ([.mark], methodState 1) := huri.first b ht.1
  have herror : (httpParser uri).isError (methodState 1) = false := rfl
  have hspace : (httpParser uri).next (methodState (1 + w.length)) 32 = ([.requestMethod], 3) :=
    httpNext_space huri (by omega) (by omega)
  have hthree : (httpParser uri).isError 3 = false := rfl
  have hmark : (httpParser uri).breaks .mark = false := rfl
  have hmethod : (httpParser uri).breaks .requestMethod = false := rfl
  rw [List.cons_append, Scanner.scan, hfirst]
  simp only [herror, hmark, Bool.false_eq_true, if_false, List.foldlM_cons, List.foldlM_nil,
    List.any_cons, List.any_nil, Bool.or_false, Option.bind_eq_bind, Option.pure_def]
  show ((some { x with mark := 0 } : Option HttpRequestParser).bind some).bind _ = _
  rw [Option.bind_some, Option.bind_some, scan_method huri ht.2 (by omega) (by omega), Scanner.scan, hspace]
  simp only [hthree, hmethod, Bool.false_eq_true, if_false, List.foldlM_cons, List.foldlM_nil,
    List.any_cons, List.any_nil, Bool.or_false, Option.bind_eq_bind, Option.pure_def, Option.bind_fun_some,
    List.length_cons, Nat.zero_add, Nat.add_comm w.length 1]

/-! ## The error -/

theorem act_error {buffer : Bytes} {p : Nat} {a : RequestAction} {x x' : HttpRequestParser}
    (ha : a ≠ .httpVersion) (h : act buffer p a x = some x') (herror : x.error = 1000) :
    x'.error = 1000 := by
  cases a with
  | httpVersion => exact absurd rfl ha
  | mark | startField | writeField | startValue | startQuery | done | requestUri | xml | json =>
    cases h
    exact herror
  | writeValue =>
    rw [act] at h
    split at h
    · cases h
      exact herror
    · obtain ⟨field, -, hvalue⟩ := Option.bind_eq_some_iff.mp h
      obtain ⟨value, -, rfl⟩ := Option.map_eq_some_iff.mp hvalue
      exact herror
  | requestMethod =>
    rw [act] at h
    split at h
    · cases h
      rfl
    · cases h
      exact herror
  | fragment | requestPath =>
    obtain ⟨v, -, rfl⟩ := Option.map_eq_some_iff.mp h
    exact herror
  | queryString =>
    obtain ⟨start, -, hquery⟩ := Option.bind_eq_some_iff.mp h
    obtain ⟨v, -, rfl⟩ := Option.map_eq_some_iff.mp hquery
    exact herror

theorem acts_error {buffer : Bytes} {p : Nat} {acts : List RequestAction} {x x' : HttpRequestParser}
    (hacts : .httpVersion ∉ acts) (h : acts.foldlM (fun x a => act buffer p a x) x = some x')
    (herror : x.error = 1000) : x'.error = 1000 := by
  induction acts generalizing x with
  | nil =>
    cases h
    exact herror
  | cons a acts ih =>
    rw [List.mem_cons, not_or] at hacts
    rw [List.foldlM_cons] at h
    obtain ⟨y, hy, hrest⟩ := Option.bind_eq_some_iff.mp h
    exact ih hacts.2 hrest (act_error (Ne.symm hacts.1) hy herror)

/-- The parser after a method that is not known: in the version the mark is where `HTTP/` begins. -/
structure Rejected (buffer : Bytes) (p s : Nat) (x : HttpRequestParser) : Prop where
  error : x.error = 1000
  version : 5 ≤ s → s ≤ 12 → ∃ u, u <+: buffer.drop x.mark ∧ x.mark + u.length = p ∧
    (s < 12 → u = http11.take (s - 4)) ∧ (s = 12 → u = http11 ∨ u = http10)

theorem prefix_append_byte {u w : Bytes} {b : UInt8} (h : u <+: w) (hb : w[u.length]? = some b) :
    u ++ [b] <+: w := by
  obtain ⟨v, rfl⟩ := h
  rw [List.getElem?_append_right (Nat.le_refl _), Nat.sub_self] at hb
  obtain ⟨c, v, rfl⟩ := List.exists_cons_of_ne_nil (List.ne_nil_of_mem (List.mem_of_getElem? hb))
  cases hb
  exact ⟨v, by simp⟩

/-- The version is one of the two that the parser knows. -/
theorem versionOf_known {w u : Bytes} (h : u <+: w) (hu : u = http11 ∨ u = http10) :
    versionOf w u.length ≠ none := by
  have htake : w.take u.length = u.take u.length := by
    rw [List.take_length]
    exact (List.prefix_iff_eq_take.mp h).symm
  rw [versionOf_congr htake]
  rcases hu with rfl | rfl <;> decide

variable {buffer : Bytes} {p s : Nat} {x x' : HttpRequestParser} {b : UInt8}

/-- One character of the version. -/
theorem Rejected.next (hb : buffer[p]? = some b) (h : Rejected buffer p s x) (hlow : 5 ≤ s) (hhigh : s < 12) :
    ∃ u, u <+: buffer.drop x.mark ∧ x.mark + u.length = p + 1 ∧ u = http11.take (s - 4) ++ [b] := by
  obtain ⟨u, hpre, hlen, hu, -⟩ := h.version hlow (Nat.le_of_lt hhigh)
  refine ⟨u ++ [b], prefix_append_byte hpre ?_, ?_, by rw [hu hhigh]⟩
  · rw [List.getElem?_drop, hlen, hb]
  · rw [List.length_append, List.length_singleton, ← Nat.add_assoc, hlen]

/-- The transitions of the version, and that no others have to do with it. -/
theorem httpNext_version (huri : RequestMethod uri) (s : Nat) (b : UInt8) :
    (.httpVersion ∉ (httpNext uri s b).1 ∧ ((httpNext uri s b).2 < 5 ∨ 12 < (httpNext uri s b).2)) ∨
    (b = 72 ∧ httpNext uri s b = ([.mark], 5)) ∨
    (5 ≤ s ∧ s < 11 ∧ httpNext uri s b = ([], s + 1) ∧
      http11.take (s - 4) ++ [b] = http11.take (s - 3)) ∨
    (s = 11 ∧ httpNext uri s b = ([], 12) ∧
      (http11.take 7 ++ [b] = http11 ∨ http11.take 7 ++ [b] = http10)) ∨
    (s = 12 ∧ ∃ t, 12 < t ∧ httpNext uri s b = ([.httpVersion], t)) := by
  have hdigit : 48 ≤ b ∧ b ≤ 49 →
      http11.take 7 ++ [b] = http11 ∨ http11.take 7 ++ [b] = http10 := by
    intro hb
    have hcases : b = 49 ∨ b = 48 := by
      rw [UInt8.le_iff_toNat_le, UInt8.le_iff_toNat_le] at hb
      rw [← UInt8.toNat_inj, ← UInt8.toNat_inj]
      have hlow : 48 ≤ b.toNat := hb.1
      have hhigh : b.toNat ≤ 49 := hb.2
      show b.toNat = 49 ∨ b.toNat = 48
      omega
    rcases hcases with rfl | rfl <;> decide
  unfold httpNext
  split
  case h_16 => exact Or.inl (huri.version _ b)
  -- the letters of the version
  case h_1 =>
    split
    · exact Or.inr (Or.inl ⟨by assumption, rfl⟩)
    · exact Or.inl ⟨by decide, by decide⟩
  case h_2 | h_3 | h_4 | h_5 | h_6 | h_7 =>
    split
    · next heq => exact Or.inr (Or.inr (Or.inl ⟨by decide, by decide, rfl, by rw [heq]; decide⟩))
    · exact Or.inl ⟨by decide, by decide⟩
  case h_8 =>
    split
    · next hb => exact Or.inr (Or.inr (Or.inr (Or.inl ⟨rfl, rfl, hdigit hb⟩)))
    · exact Or.inl ⟨by decide, by decide⟩
  case h_9 =>
    split_ifs
    · exact Or.inr (Or.inr (Or.inr (Or.inr ⟨rfl, 13, by decide, rfl⟩)))
    · exact Or.inr (Or.inr (Or.inr (Or.inr ⟨rfl, 17, by decide, rfl⟩)))
    · exact Or.inl ⟨by decide, by decide⟩
  -- the fields
  all_goals
    split_ifs
    all_goals exact Or.inl ⟨by decide, by decide⟩

theorem Rejected.step (huri : RequestMethod uri) (hb : buffer[p]? = some b) (h : Rejected buffer p s x)
    (hacts : (httpNext uri s b).1.foldlM (fun x a => act buffer p a x) x = some x') :
    Rejected buffer (p + 1) (httpNext uri s b).2 x' := by
  rcases httpNext_version huri s b with ⟨hquiet, hstate⟩ | ⟨rfl, hnext⟩ | ⟨hlow, hhigh, hnext, htext⟩ |
    ⟨rfl, hnext, htext⟩ | ⟨rfl, t, ht, hnext⟩
  -- outside of the version nothing touches the error
  · refine ⟨acts_error hquiet hacts h.error, fun hlow hhigh => ?_⟩
    omega
  · rw [hnext] at hacts ⊢
    cases hacts
    refine ⟨h.error, fun _ _ => ⟨[72], prefix_append_byte (List.nil_prefix) ?_, rfl, fun _ => rfl, ?_⟩⟩
    · rw [List.getElem?_drop]
      exact hb
    · intro hfive
      cases hfive
  · rw [hnext] at hacts ⊢
    cases hacts
    obtain ⟨u, hpre, hlen, hu⟩ := h.next hb hlow (by omega)
    refine ⟨h.error, fun _ _ => ⟨u, hpre, hlen, fun _ => ?_, fun heq => ?_⟩⟩
    · have hsub : s + 1 - 4 = s - 3 := by omega
      rw [hu, htext, hsub]
    · omega
  · rw [hnext] at hacts ⊢
    cases hacts
    obtain ⟨u, hpre, hlen, hu⟩ := h.next hb (by decide) (by decide)
    exact ⟨h.error, fun _ _ => ⟨u, hpre, hlen, fun hlt => absurd hlt (by decide), fun _ => hu ▸ htext⟩⟩
  · rw [hnext] at hacts ⊢
    -- the version is complete, and a known one, so its error is not written over
    obtain ⟨u, hpre, hlen, -, hu⟩ := h.version (by decide) (by decide)
    have hlt : tokenLen x.mark p = u.length := by
      rw [tokenLen, if_pos (by omega)]
      omega
    have hknown := versionOf_known hpre (hu rfl)
    refine ⟨?_, fun _ hhigh => by omega⟩
    rw [List.foldlM_cons, act, hlt] at hacts
    cases hversion : versionOf (buffer.drop x.mark) u.length with
    | none => exact absurd hversion hknown
    | some v =>
      rw [hversion] at hacts
      cases hacts
      exact h.error

/-- What a fresh parser makes of a buffer that begins with a token and a space. -/
theorem execute_token (huri : RequestMethod uri) {t : Bytes} (ht : t.all HttpMethod.ismethod = true)
    (hpos : 1 ≤ t.length) (hle : t.length ≤ 20) (rest : Bytes) :
    ({} : HttpRequestParser).execute (httpParser uri) (t ++ 32 :: rest) =
      ((act (t ++ 32 :: rest) t.length .requestMethod {}).bind fun x =>
        (httpParser uri).scan (act (t ++ 32 :: rest)) (t.length + 1) 3 x rest).map
          fun r => (r.1, { r.2.2 with cs := r.2.1 }) := by
  rw [execute, if_neg (by simp), scan_token huri ht hpos hle]

/-- An unknown method is the error of the request, whatever stands behind it. -/
theorem execute_unknown (huri : RequestMethod uri) {t : Bytes} (ht : t.all HttpMethod.ismethod = true)
    (hpos : 1 ≤ t.length) (hle : t.length ≤ 20) {rest : Bytes}
    (hunknown : HttpMethod.ofChars (t ++ 32 :: rest) = none) {taken : Nat}
    (h : ({} : HttpRequestParser).execute (httpParser uri) (t ++ 32 :: rest) = some (taken, x')) :
    x'.error = 1000 := by
  have hmethod : act (t ++ 32 :: rest) t.length .requestMethod {} = some { error := 1000 } := by
    rw [act, List.drop_zero, hunknown]
  rw [execute_token huri ht hpos hle, hmethod, Option.bind_some] at h
  obtain ⟨⟨q, cs, y⟩, hscan, hx⟩ := Option.map_eq_some_iff.mp h
  have hrest : (t ++ 32 :: rest).drop (t.length + 1) = rest := by
    rw [List.drop_append]
    simp
  -- the error is kept up to the end of the scan
  obtain ⟨s', hrejected, -⟩ := Scanner.scan_invariant (Rejected (t ++ 32 :: rest))
    (fun p s x b x' hb h _ hacts => h.step huri hb hacts) hrest hscan
    ⟨rfl, fun hlow _ => absurd hlow (by decide)⟩
  cases hx
  exact hrejected.error

end HttpRequestParser

/-- A token is recognised as what it is: the buffer it begins tells what its name does, and a request
line with a method that has no name is rejected. -/
structure Recognised (uri : Nat → UInt8 → List RequestAction × Nat) (t : Bytes) : Prop where
  same : ∀ cont, HttpMethod.ofChars (t ++ 32 :: cont) = HttpMethod.ofString t
  named : ∀ m, HttpMethod.ofString t = some m ↔ (m, t) ∈ HttpMethod.map
  rejected : HttpMethod.ofString t = none →
    (∃ r, ({} : HttpRequestParser).execute (httpParser uri) (t ++ [32]) = some r) ∧
    ∀ cont taken x, ({} : HttpRequestParser).execute (httpParser uri) (t ++ 32 :: cont) = some (taken, x) →
      x.error = 1000

/-- The tokens that are recognised are those with no name in front of them. -/
theorem recognised_iff {uri : Nat → UInt8 → List RequestAction × Nat} (huri : RequestMethod uri)
    {t : Bytes} (ht : t.all HttpMethod.ismethod = true) (hpos : 1 ≤ t.length) (hle : t.length ≤ 20) :
    Recognised uri t ↔ ¬ ∃ e ∈ HttpMethod.map, e.2 <+: t ∧ e.2 ≠ t := by
  -- no name in front of the token: the prefix search finds the name that is the token, or none
  have hnames : (¬ ∃ e ∈ HttpMethod.map, e.2 <+: t ∧ e.2 ≠ t) ↔
      HttpMethod.ofChars t = HttpMethod.ofString t := by
    rw [HttpMethod.ofChars_eq_ofString_iff ht]
    push Not
    rfl
  rw [hnames]
  constructor
  · intro h
    have hsame := h.same []
    rwa [HttpMethod.ofChars_append] at hsame
  · intro h
    have hsame : ∀ cont, HttpMethod.ofChars (t ++ 32 :: cont) = HttpMethod.ofString t := fun cont =>
      (HttpMethod.ofChars_append t cont).trans h
    refine ⟨hsame, HttpMethod.ofString_eq_some_iff ht, fun hnone => ⟨?_, ?_⟩⟩
    · rw [HttpRequestParser.execute_token huri ht hpos hle, HttpRequestParser.act, List.drop_zero, hsame,
        hnone]
      exact ⟨_, rfl⟩
    · intro cont taken x hexecute
      exact HttpRequestParser.execute_unknown huri ht hpos hle ((hsame cont).trans hnone) hexecute

def methodUri (s : Nat) (b : UInt8) : List RequestAction × Nat :=
  if b = 32 ∧ (s = 2 ∨ 175 ≤ s ∧ s ≤ 193) then ([.requestMethod], 3)
  else if HttpMethod.ismethod b then
    if s = 1 then ([.mark], 2)
    else if s = 2 then ([], 175)
    else if 175 ≤ s ∧ s ≤ 192 then ([], s + 1)
    else ([], 0)
  else ([], 0)

theorem methodUri_method : RequestMethod methodUri where
  first b hb := by simp [methodUri, hb]
  second b hb := by
    have hne : b ≠ 32 := by
      rintro rfl
      exact absurd hb (by decide)
    simp [methodUri, hb, hne]
  more s b hlow hhigh hb := by
    have hne : b ≠ 32 := by
      rintro rfl
      exact absurd hb (by decide)
    have hone : s ≠ 1 := by omega
    have htwo : s ≠ 2 := by omega
    simp [methodUri, hb, hne, hone, htwo, hlow, hhigh]
  space s hs := by
    rw [methodUri, if_pos ⟨rfl, hs⟩]
  version s b := by
    unfold methodUri
    split_ifs <;> simp
    omega

/-- `BREW` is no method, and is not taken for one. -/
theorem recognised_brew : Recognised methodUri (ascii "BREW".toList) :=
  (recognised_iff methodUri_method (by decide) (by decide) (by decide)).mpr (by decide +kernel)

/-- `GETX` is taken for `GET`. -/
theorem getx_not_recognised : ¬ Recognised methodUri (ascii "GETX".toList) := by
  intro h
  have hsame := h.same []
  exact absurd hsame (by decide +kernel)

end Azure
