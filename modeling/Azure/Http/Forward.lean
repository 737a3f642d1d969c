import Azure.Http.Client
import Azure.Http.Server

/-!
# Requests that are sent on

What the parser of requests accepts can be written again: its headers are names and values, in the order
of a map, and its method is one that the parser knows.  So a request can be received, sent on by
`HttpConnection::DoRequest(req, uri)` and received again.
-/

namespace Azure

open Reasoning

namespace HttpRequestParser

variable {relaxed : Bool} {absolute : Nat → UInt8 → List RequestAction × Nat} {buffer : Bytes}
  {x x' : HttpRequestParser} {p s start : Nat} {b : UInt8} {v : Bytes}

/-! ## Tokens -/

def Token (buffer : Bytes) (start p : Nat) (v : Bytes) : Prop :=
  ∃ pre post, buffer = pre ++ v ++ post ∧ pre.length = start ∧ start + v.length = p

theorem token_one (hb : buffer[p]? = some b) : Token buffer p (p + 1) [b] := by
  obtain ⟨hlt, hget⟩ := List.getElem?_eq_some_iff.mp hb
  refine ⟨buffer.take p, buffer.drop (p + 1), ?_, List.length_take_of_le hlt.le, rfl⟩
  rw [List.append_assoc, List.singleton_append, ← hget, List.getElem_cons_drop, List.take_append_drop]

/-- The byte behind a token. -/
theorem Token.rest (h : Token buffer start p v) (hb : buffer[p]? = some b) :
    ∃ pre post, buffer = pre ++ v ++ b :: post ∧ pre.length = start ∧ start + v.length = p := by
  obtain ⟨pre, post, rfl, rfl, rfl⟩ := h
  rw [← List.length_append, List.getElem?_append_right (Nat.le_refl _), Nat.sub_self] at hb
  cases post with
  | nil => cases hb
  | cons c post =>
    cases hb
    exact ⟨pre, post, rfl, rfl, rfl⟩

theorem Token.snoc (h : Token buffer start p v) (hb : buffer[p]? = some b) :
    Token buffer start (p + 1) (v ++ [b]) := by
  obtain ⟨pre, post, hbuffer, hpre, hlen⟩ := h.rest hb
  refine ⟨pre, post, ?_, hpre, ?_⟩
  · rw [hbuffer, List.append_assoc, List.append_assoc, List.append_assoc, List.singleton_append]
  · rw [List.length_append, List.length_singleton]
    omega

theorem Token.tokenString (h : Token buffer start p v) :
    tokenString buffer start (tokenLen start p) = some v := by
  obtain ⟨pre, post, rfl, rfl, rfl⟩ := h
  exact tokenString_between pre v post

/-- No method that the parser knows has a minus. -/
theorem Token.ofChars (h : Token buffer start p v) (hv : v.all HttpMethod.ismethod = true)
    (hb : buffer[p]? = some 32) {m : HttpMethod} (hm : HttpMethod.ofChars (buffer.drop start) = some m) :
    m ≠ .msearch ∧ m ≠ .invalid := by
  obtain ⟨pre, post, hbuffer, hpre, -⟩ := h.rest hb
  rw [hbuffer, List.append_assoc, ← hpre, List.drop_left, HttpMethod.ofChars] at hm
  obtain ⟨e, he, rfl⟩ := Option.map_eq_some_iff.mp hm
  have hmem := List.mem_of_find?_eq_some he
  have hprefix := List.find?_some he
  constructor
  · intro hsearch
    have hname : ∀ e ∈ HttpMethod.map, e.1 = .msearch → e.2.take 2 = [77, 45] := by decide
    have htake : e.2.take 2 <+: v ++ 32 :: post :=
      (List.take_prefix 2 e.2).trans (List.isPrefixOf_iff_prefix.mp hprefix)
    rw [hname e hmem hsearch] at htake
    rcases v with _ | ⟨c, _ | ⟨d, v⟩⟩
    · rw [List.nil_append, List.cons_prefix_cons] at htake
      exact absurd htake.1 (by decide)
    · rw [List.cons_append, List.nil_append, List.cons_prefix_cons, List.cons_prefix_cons] at htake
      exact absurd htake.2.1 (by decide)
    · rw [List.cons_append, List.cons_append, List.cons_prefix_cons, List.cons_prefix_cons] at htake
      rw [List.all_cons, List.all_cons, ← htake.2.1, Bool.and_eq_true, Bool.and_eq_true] at hv
      exact absurd hv.2.1 (by decide)
  · have hknown : ∀ e ∈ HttpMethod.map, e.1 ≠ .invalid := by decide
    exact hknown e hmem

/-! ## What has been stored -/

structure Stored (req : HttpRequest) : Prop where
  method : req.method ≠ .msearch ∧ req.method ≠ .invalid
  version : req.version = 0x11 ∨ req.version = 0x10
  headers : ∀ e ∈ req.headers, isName e.1 = true ∧ isValue e.2 = true
  ordered : req.headers.Ordered

structure Marked (buffer : Bytes) (p s : Nat) (x : HttpRequestParser) : Prop where
  method : s = 2 ∨ 175 ≤ s ∧ s ≤ 193 →
    ∃ v, Token buffer x.mark p v ∧ v.all HttpMethod.ismethod = true
  name : s = 14 → ∃ k, Token buffer x.fieldStart p k ∧ isName k = true ∧ k ≠ [13]
  -- a carriage return where a name begins
  line : s = 18 → Token buffer x.fieldStart p [13]
  field : s = 15 ∨ s = 16 →
    ∃ k, tokenString buffer x.fieldStart x.fieldLen = some k ∧ isName k = true
  value : s = 16 → ∃ v, Token buffer x.mark p v ∧ v ≠ [] ∧ isValue v = true

def Free (s : Nat) : Prop := s ≠ 2 ∧ ¬ (14 ≤ s ∧ s ≤ 16) ∧ s ≠ 18 ∧ ¬ (175 ≤ s ∧ s ≤ 193)

theorem Free.marked (h : Free s) (x : HttpRequestParser) : Marked buffer p s x := by
  unfold Free at h
  constructor <;> intro hs <;> omega

/-- The actions that store neither a method nor a header keep what is stored. -/
theorem stored_of_act {a : RequestAction} (ha : a ≠ .requestMethod ∧ a ≠ .writeValue)
    (h : act buffer p a x = some x') (hx : Stored x.data) : Stored x'.data := by
  cases a with
  | requestMethod => exact absurd rfl ha.1
  | writeValue => exact absurd rfl ha.2
  | httpVersion =>
    simp only [act] at h
    split at h
    · cases h
      exact hx
    · next v hv =>
      cases h
      have hversion : v = 0x11 ∨ v = 0x10 := by
        unfold versionOf at hv
        split_ifs at hv
        · exact .inl (Option.some.inj hv).symm
        · exact .inr (Option.some.inj hv).symm
      exact { method := hx.method, version := hversion, headers := hx.headers, ordered := hx.ordered }
  | queryString =>
    simp only [act] at h
    obtain ⟨start, -, hrest⟩ := Option.bind_eq_some_iff.mp h
    obtain ⟨v, -, rfl⟩ := Option.map_eq_some_iff.mp hrest
    exact { method := hx.method, version := hx.version, headers := hx.headers, ordered := hx.ordered }
  | fragment | requestPath =>
    simp only [act] at h
    obtain ⟨v, -, rfl⟩ := Option.map_eq_some_iff.mp h
    exact { method := hx.method, version := hx.version, headers := hx.headers, ordered := hx.ordered }
  | _ =>
    cases h
    exact hx

theorem stored_of_acts {acts : List RequestAction}
    (hacts : ∀ a ∈ acts, a ≠ .requestMethod ∧ a ≠ .writeValue)
    (h : acts.foldlM (fun x a => act buffer p a x) x = some x') (hx : Stored x.data) :
    Stored x'.data := by
  induction acts generalizing x with
  | nil =>
    cases h
    exact hx
  | cons a acts ih =>
    rw [List.foldlM_cons] at h
    obtain ⟨y, hy, hrest⟩ := Option.bind_eq_some_iff.mp h
    rw [List.forall_mem_cons] at hacts
    exact ih hacts.2 hrest (stored_of_act hacts.1 hy hx)

theorem stored_method (htoken : Token buffer x.mark p v) (hv : v.all HttpMethod.ismethod = true)
    (hb : buffer[p]? = some 32) (h : act buffer p .requestMethod x = some x') (hx : Stored x.data) :
    Stored x'.data := by
  simp only [act] at h
  split at h
  · cases h
    exact hx
  · next m hm =>
    cases h
    exact { method := htoken.ofChars hv hb hm, version := hx.version, headers := hx.headers
            ordered := hx.ordered }

theorem stored_value {k : Bytes} (hfield : tokenString buffer x.fieldStart x.fieldLen = some k)
    (hk : isName k = true) (htoken : Token buffer x.mark p v) (hv : isValue v = true)
    (h : act buffer p .writeValue x = some x') (hx : Stored x.data) : Stored x'.data := by
  simp only [act, hfield, htoken.tokenString, Option.bind_some, Option.map_some] at h
  split_ifs at h
  · cases h
    exact hx
  · cases h
    exact { method := hx.method, version := hx.version
            headers := HeaderMap.forall_set (P := fun k => isName k = true)
              (Q := fun v => isValue v = true) hx.headers ⟨hk, hv⟩
            ordered := HeaderMap.ordered_set hx.ordered k v }

/-! ## The states -/

/-- The transitions that are not spelled out keep off the states and the callbacks of the method and of the
headers.  What leads out of the last state does not count: no scan gets there. -/
def Confined (absolute : Nat → UInt8 → List RequestAction × Nat) : Prop :=
  ∀ s b, s < 348 → (∀ a ∈ (absolute s b).1, a ≠ .requestMethod ∧ a ≠ .writeValue) ∧
    Free (absolute s b).2

theorem next_version (hs : 4 ≤ s ∧ s ≤ 12 ∨ s = 17) (b : UInt8) :
    (∀ a ∈ (httpNext (originNext relaxed absolute) s b).1, a ≠ .requestMethod ∧ a ≠ .writeValue) ∧
      Free (httpNext (originNext relaxed absolute) s b).2 := by
  have hcases : s = 4 ∨ s = 5 ∨ s = 6 ∨ s = 7 ∨ s = 8 ∨ s = 9 ∨ s = 10 ∨ s = 11 ∨ s = 12 ∨
      s = 17 := by omega
  rcases hcases with rfl | rfl | rfl | rfl | rfl | rfl | rfl | rfl | rfl | rfl
  all_goals
    simp only [httpNext]
    split_ifs <;> simp [Free]

theorem next_uri (habsolute : Confined absolute) (hs : s < 348)
    (huri : s < 4 ∧ s ≠ 1 ∧ s ≠ 2 ∨ 18 < s ∧ ¬ (175 ≤ s ∧ s ≤ 193)) (b : UInt8) :
    (∀ a ∈ (httpNext (originNext relaxed absolute) s b).1, a ≠ .requestMethod ∧ a ≠ .writeValue) ∧
      Free (httpNext (originNext relaxed absolute) s b).2 := by
  have hmethod : ¬ (175 ≤ s ∧ s ≤ 193) := by omega
  have hother := habsolute s b hs
  rw [httpNext_uri (by omega)]
  unfold originNext
  split
  case h_1 => omega
  case h_2 => omega
  case h_16 => rwa [if_neg hmethod]
  all_goals split_ifs <;> simp [Free]

/-! ## The states of the method and of the headers -/

def Kept (buffer : Bytes) (p s : Nat) (x : HttpRequestParser) : Prop :=
  Stored x.data ∧ Marked buffer p s x

/-- A transition without a register behind it. -/
theorem Kept.free (hs : Free s) (hx : Stored x.data) : Kept buffer p s x := ⟨hx, hs.marked x⟩

theorem Kept.method (hs : s = 2 ∨ 175 ≤ s ∧ s ≤ 193) (htoken : Token buffer x.mark p v)
    (hv : v.all HttpMethod.ismethod = true) (hx : Stored x.data) : Kept buffer p s x := by
  refine ⟨hx, ?_⟩
  constructor
  · exact fun _ => ⟨v, htoken, hv⟩
  all_goals
    intro hs'
    omega

theorem Kept.field {k : Bytes} (hfield : tokenString buffer x.fieldStart x.fieldLen = some k)
    (hk : isName k = true) (hx : Stored x.data) : Kept buffer p 15 x := by
  refine ⟨hx, ?_⟩
  constructor
  case field => exact fun _ => ⟨k, hfield, hk⟩
  all_goals
    intro hs'
    omega

theorem kept_first (hb : buffer[p]? = some b) (hx : Kept buffer p 1 x)
    (h : (httpNext (originNext relaxed absolute) 1 b).1.foldlM (fun x a => act buffer p a x) x =
      some x') : Kept buffer (p + 1) (httpNext (originNext relaxed absolute) 1 b).2 x' := by
  rw [httpNext_uri (by omega)] at h ⊢
  simp only [originNext] at h ⊢
  split_ifs at h ⊢ with hmethod
  · cases h
    exact .method (.inl rfl) (token_one hb) (by rw [List.all_cons, hmethod]; rfl) hx.1
  all_goals
    cases h
    exact .free (by simp [Free]) hx.1

theorem kept_method (hb : buffer[p]? = some b) (hx : Kept buffer p s x)
    (hs : s = 2 ∨ 175 ≤ s ∧ s ≤ 193)
    (h : (httpNext (originNext relaxed absolute) s b).1.foldlM (fun x a => act buffer p a x) x =
      some x') : Kept buffer (p + 1) (httpNext (originNext relaxed absolute) s b).2 x' := by
  obtain ⟨v, htoken, hv⟩ := hx.2.method hs
  have hmore : HttpMethod.ismethod b = true → (v ++ [b]).all HttpMethod.ismethod = true := by
    intro hb
    rw [List.all_append, hv, List.all_cons, hb]
    rfl
  have hspace : ∀ x', b = 32 → act buffer p .requestMethod x = some x' → Kept buffer (p + 1) 3 x' := by
    rintro x' rfl hact
    exact .free (by simp [Free]) (stored_method htoken hv hb hact hx.1)
  rw [httpNext_uri (by omega)] at h ⊢
  rcases hs with rfl | hs
  · simp only [originNext] at h ⊢
    split_ifs at h ⊢ with h32 hmethod
    · exact hspace x' h32 (by simpa using h)
    · cases h
      exact .method (.inr (by omega)) (htoken.snoc hb) (hmore hmethod) hx.1
    · cases h
      exact .free (by simp [Free]) hx.1
  · rw [originNext_method hs] at h ⊢
    split_ifs at h ⊢ with h32 hmethod
    · exact hspace x' h32 (by simpa using h)
    · cases h
      exact .method (.inr (by omega)) (htoken.snoc hb) (hmore hmethod.1) hx.1
    · cases h
      exact .free (by simp [Free]) hx.1

/-- The start of a line. -/
theorem kept_line (hb : buffer[p]? = some b) (hx : Kept buffer p 13 x)
    (h : (httpNext (originNext relaxed absolute) 13 b).1.foldlM (fun x a => act buffer p a x) x =
      some x') : Kept buffer (p + 1) (httpNext (originNext relaxed absolute) 13 b).2 x' := by
  simp only [httpNext] at h ⊢
  split_ifs at h ⊢ with h10 h13 hfield
  · cases h
    exact .free (by simp [Free]) hx.1
  · cases h
    refine ⟨hx.1, ?_⟩
    constructor
    case line => exact fun _ => h13 ▸ token_one hb
    all_goals
      intro hs
      omega
  · cases h
    refine ⟨hx.1, ?_⟩
    constructor
    case name =>
      refine fun _ => ⟨[b], token_one hb, ?_, ?_⟩
      · simp [isName, hfield, h10]
      · simpa using h13
    all_goals
      intro hs
      omega
  · cases h
    exact .free (by simp [Free]) hx.1

theorem isName_snoc {k : Bytes} (hk : isName k = true) (hb : isfield b = true)
    (hcrlf : k = [13] → b ≠ 10) : isName (k ++ [b]) = true ∧ k ++ [b] ≠ [13] := by
  simp only [isName, Bool.and_eq_true, decide_eq_true_eq] at hk ⊢
  obtain ⟨⟨⟨hne, hall⟩, hlf⟩, htake⟩ := hk
  obtain ⟨c, k, rfl⟩ := List.exists_cons_of_ne_nil hne
  refine ⟨⟨⟨⟨List.cons_ne_nil _ _, ?_⟩, hlf⟩, ?_⟩, ?_⟩
  · rw [List.all_append, hall, List.all_cons, hb]
    rfl
  · cases k with
    | nil =>
      intro heq
      obtain ⟨rfl, hrest⟩ := List.cons.inj heq
      exact hcrlf rfl (List.cons.inj hrest).1
    | cons d k => exact htake
  · simp

/-- The name of a field, also behind a carriage return. -/
theorem kept_name {k : Bytes} (hb : buffer[p]? = some b) (hx : Stored x.data)
    (htoken : Token buffer x.fieldStart p k) (hk : isName k = true) (hcrlf : k = [13] → b ≠ 10)
    (hnext : httpNext (originNext relaxed absolute) s b =
      if b = 58 then ([.writeField], 15) else if isfield b then ([], 14) else ([], 0))
    (h : (httpNext (originNext relaxed absolute) s b).1.foldlM (fun x a => act buffer p a x) x =
      some x') : Kept buffer (p + 1) (httpNext (originNext relaxed absolute) s b).2 x' := by
  rw [hnext] at h ⊢
  split_ifs at h ⊢ with h58 hfield
  · cases h
    exact .field htoken.tokenString hk hx
  · cases h
    refine ⟨hx, ?_⟩
    constructor
    case name => exact fun _ => ⟨k ++ [b], htoken.snoc hb, isName_snoc hk hfield hcrlf⟩
    all_goals
      intro hs
      omega
  · cases h
    exact .free (by simp [Free]) hx

theorem isValue_snoc (hv : isValue v = true) (hb : b ≠ 0 ∧ b ≠ 10 ∧ b ≠ 13 ∧ b ≠ 127)
    (hfirst : v = [] → b ≠ 9 ∧ b ≠ 32) : isValue (v ++ [b]) = true := by
  simp only [isValue, Bool.and_eq_true, decide_eq_true_eq] at hv ⊢
  obtain ⟨⟨hall, htab⟩, hspace⟩ := hv
  refine ⟨⟨?_, ?_⟩, ?_⟩
  · rw [List.all_append, hall, List.all_cons]
    simp [hb]
  · cases v with
    | nil => exact fun heq => (hfirst rfl).1 (Option.some.inj heq)
    | cons c v => exact htab
  · cases v with
    | nil => exact fun heq => (hfirst rfl).2 (Option.some.inj heq)
    | cons c v => exact hspace

theorem Kept.value {k : Bytes} (hfield : tokenString buffer x.fieldStart x.fieldLen = some k)
    (hk : isName k = true) (htoken : Token buffer x.mark p v) (hne : v ≠ []) (hv : isValue v = true)
    (hx : Stored x.data) : Kept buffer p 16 x := by
  refine ⟨hx, ?_⟩
  constructor
  case field => exact fun _ => ⟨k, hfield, hk⟩
  case value => exact fun _ => ⟨v, htoken, hne, hv⟩
  all_goals
    intro hs
    omega

/-- Behind the colon: the blanks, and the first byte of the value. -/
theorem kept_gap (hb : buffer[p]? = some b) (hx : Kept buffer p 15 x)
    (h : (httpNext (originNext relaxed absolute) 15 b).1.foldlM (fun x a => act buffer p a x) x =
      some x') : Kept buffer (p + 1) (httpNext (originNext relaxed absolute) 15 b).2 x' := by
  obtain ⟨k, hfield, hk⟩ := hx.2.field (.inl rfl)
  have hempty : ∀ {t}, Free t → [RequestAction.startValue, .writeValue].foldlM
      (fun x a => act buffer p a x) x = some x' → Kept buffer (p + 1) t x' := by
    intro t ht hacts
    have hz : act buffer p .writeValue { x with mark := p } = some x' := by
      rw [← hacts]
      exact (bind_pure _).symm
    have hnone : Token buffer p p [] := by
      obtain ⟨pre, post, hbuffer, hpre, -⟩ := token_one hb
      exact ⟨pre, b :: post, by simpa using hbuffer, hpre, rfl⟩
    exact .free ht (stored_value (x := { x with mark := p }) hfield hk hnone rfl hz hx.1)
  simp only [httpNext] at h ⊢
  split_ifs at h ⊢ with hnot hblank h10 h13
  · cases h
    exact .free (by simp [Free]) hx.1
  · cases h
    exact .field hfield hk hx.1
  · exact hempty (by simp [Free]) h
  · exact hempty (by simp [Free]) h
  · cases h
    rw [not_or] at hnot hblank
    exact .value hfield hk (token_one hb) (List.cons_ne_nil _ _)
      (isValue_snoc (v := []) rfl ⟨hnot.1, h10, h13, hnot.2⟩ fun _ => hblank) hx.1

theorem kept_value (hb : buffer[p]? = some b) (hx : Kept buffer p 16 x)
    (h : (httpNext (originNext relaxed absolute) 16 b).1.foldlM (fun x a => act buffer p a x) x =
      some x') : Kept buffer (p + 1) (httpNext (originNext relaxed absolute) 16 b).2 x' := by
  obtain ⟨k, hfield, hk⟩ := hx.2.field (.inr rfl)
  obtain ⟨v, htoken, hne, hv⟩ := hx.2.value rfl
  simp only [httpNext] at h ⊢
  split_ifs at h ⊢ with hnot h10 h13
  · cases h
    exact .free (by simp [Free]) hx.1
  · exact .free (by simp [Free]) (stored_value hfield hk htoken hv (by simpa using h) hx.1)
  · exact .free (by simp [Free]) (stored_value hfield hk htoken hv (by simpa using h) hx.1)
  · cases h
    rw [not_or] at hnot
    exact .value hfield hk (htoken.snoc hb) (by simp)
      (isValue_snoc hv ⟨hnot.1, h10, h13, hnot.2⟩ fun hnil => absurd hnil hne) hx.1

/-- Every transition of a scan keeps what has been stored fit to be written again. -/
theorem kept_next (habsolute : Confined absolute) (hb : buffer[p]? = some b) (hs : s < 348)
    (hx : Kept buffer p s x)
    (h : (httpNext (originNext relaxed absolute) s b).1.foldlM (fun x a => act buffer p a x) x =
      some x') : Kept buffer (p + 1) (httpNext (originNext relaxed absolute) s b).2 x' := by
  have hplain : (∀ a ∈ (httpNext (originNext relaxed absolute) s b).1,
      a ≠ .requestMethod ∧ a ≠ .writeValue) ∧ Free (httpNext (originNext relaxed absolute) s b).2 →
        Kept buffer (p + 1) (httpNext (originNext relaxed absolute) s b).2 x' :=
    fun hnext => .free hnext.2 (stored_of_acts hnext.1 h hx.1)
  by_cases hversion : 4 ≤ s ∧ s ≤ 12 ∨ s = 17
  · exact hplain (next_version hversion b)
  by_cases hmethod : s = 2 ∨ 175 ≤ s ∧ s ≤ 193
  · exact kept_method hb hx hmethod h
  by_cases huri : s < 4 ∧ s ≠ 1 ∧ s ≠ 2 ∨ 18 < s ∧ ¬ (175 ≤ s ∧ s ≤ 193)
  · exact hplain (next_uri habsolute hs huri b)
  have hcases : s = 1 ∨ s = 13 ∨ s = 14 ∨ s = 15 ∨ s = 16 ∨ s = 18 := by omega
  rcases hcases with rfl | rfl | rfl | rfl | rfl | rfl
  · exact kept_first hb hx h
  · exact kept_line hb hx h
  · obtain ⟨k, htoken, hk, hne⟩ := hx.2.name rfl
    exact kept_name hb hx.1 htoken hk (fun heq => absurd heq hne) rfl h
  · exact kept_gap hb hx h
  · exact kept_value hb hx h
  · by_cases h10 : b = 10
    · subst h10
      cases h
      exact .free (show Free 348 by simp [Free]) hx.1
    · exact kept_name hb hx.1 (hx.2.line rfl) (by decide) (fun _ => h10)
        (by simp only [httpNext, if_neg h10]) h

end HttpRequestParser

/-! ## Accepted requests -/

section

open HttpRequestParser

variable {relaxed : Bool} {absolute : Nat → UInt8 → List RequestAction × Nat}

theorem RequestHead.stored (habsolute : Confined absolute) (r : RequestHead (originNext relaxed absolute)) :
    Stored r.parser.data := by
  have hkept : Kept r.head (0 + r.head.length) ((httpParser (originNext relaxed absolute)).run 1 r.head)
      r.parser := by
    apply Scanner.accepts_invariant (Kept r.head) _ rfl rfl r.accepted r.parsed
    · refine .free (by simp [Free]) ?_
      exact { method := ⟨by decide, by decide⟩, version := .inl rfl
              headers := fun e he => absurd he List.not_mem_nil, ordered := .nil }
    · intro p s x b x' hb hs hx hfold
      exact kept_next habsolute hb (by simpa [httpParser] using hs) hx hfold
  exact hkept.1

/-- What begins with a slash and is no authority, without the bytes that only a relaxed parser takes. -/
structure HttpRequest.OriginForm (req : HttpRequest) : Prop where
  path : isPath req.path = true
  query : isText isquery req.query = true
  fragment : isText isquery req.fragment = true

theorem eq_zero_of_toInt {n : UInt64} (h : n.toInt64.toInt = 0) : n = 0 := by
  have hbits : n.toInt64.toBitVec = 0#64 := by
    rw [← Int64.toInt_toBitVec] at h
    exact BitVec.eq_of_toInt_eq (by rw [h]; rfl)
  rw [UInt64.toBitVec_toInt64] at hbits
  exact UInt64.toBitVec_inj.mp hbits

/-- An accepted request can be sent on, if its target can. -/
theorem WireRequest.sendable_iff (habsolute : Confined absolute)
    (r : WireRequest (originNext relaxed absolute)) : r.request.Sendable ↔ r.request.OriginForm := by
  constructor
  · intro h
    exact { path := h.path, query := h.query, fragment := h.fragment }
  · intro h
    have hstored := r.stored habsolute
    have hnone : r.body = [] → r.parser.data.headers.contentLength = 0 := by
      intro hnil
      apply eq_zero_of_toInt
      rw [r.length, hnil]
      rfl
    have hbody : r.body.length < 2 ^ 63 := by
      have hlt := Int64.toInt_lt r.parser.data.headers.contentLength.toInt64
      rw [r.length] at hlt
      omega
    exact { method := hstored.method, version := hstored.version
            path := h.path, query := h.query, fragment := h.fragment
            headers := fun e he => hstored.headers e (List.mem_of_mem_filter he)
            ordered := hstored.ordered
            noLength := fun hnil => hnone hnil
            body := hbody }

/-- What has come can be sent on again. -/
theorem HttpRequest.Sendable.received {req : HttpRequest} (h : req.Sendable) : req.received.Sendable := by
  have hentries : ∀ e ∈ req.received.headers.erase connectionKey,
      isName e.1 = true ∧ isValue e.2 = true := by
    have hset := HeaderMap.forall_set (P := fun k => isName k = true) (Q := fun v => isValue v = true)
      h.headers (isName_connection req.close)
    exact fun e he => HeaderMap.forall_setAll (P := fun k => isName k = true)
      (Q := fun v => isValue v = true) hset (fun e he => isName_length he) e (List.mem_of_mem_filter he)
  have hordered : req.received.headers.Ordered :=
    HeaderMap.ordered_setAll (HeaderMap.ordered_set (List.Pairwise.filter _ h.ordered) _ _) _
  have hnone : req.body = [] → req.received.headers.contentLength = 0 := by
    intro hnil
    apply eq_zero_of_toInt
    rw [HttpRequest.received, contentLength_receivedHeaders req.close h.noLength h.body, hnil]
    rfl
  exact { method := h.method, version := h.version, path := h.path, query := h.query
          fragment := h.fragment, headers := hentries, ordered := hordered
          noLength := hnone
          body := h.body }

/-! ## Proxies -/

/-- What comes out of `n` proxies: each sends what it has received on as it is, by
`HttpConnection::DoRequest(req, uri)`, and the next receives it, in the reads that the network makes of
it. -/
inductive Relayed (M : Scanner Nat RequestAction) (size : Nat) (req : HttpRequest) :
    Nat → HttpRequest → Prop
  | start : Relayed M size req 0 req
  | hop {n : Nat} {sent got : HttpRequest} {pieces : List Bytes} {later : List ReadResult}
      (h : Relayed M size req n sent) (hcarries : Carries size sent pieces)
      (hrecv : HttpSession.recvRequest M size (pieces.map ReadResult.data ++ later) =
        some (.ret got later)) : Relayed M size req (n + 1) got

/-- The members but for the headers, and the headers but for those that each hop writes. -/
structure SameRequest (req got : HttpRequest) : Prop where
  method : got.method = req.method
  version : got.version = req.version
  close : got.close = req.close
  path : got.path = req.path
  query : got.query = req.query
  fragment : got.fragment = req.fragment
  body : got.body = req.body
  headers : ∀ key, ¬ HeaderMap.same key connectionKey →
    ¬ (req.body ≠ [] ∧ HeaderMap.same lengthKey key) → got.headers.find key = req.headers.find key

theorem SameRequest.received {req got : HttpRequest} (h : SameRequest req got) :
    SameRequest req got.received := by
  have hheaders : ∀ key, ¬ HeaderMap.same key connectionKey →
      ¬ (req.body ≠ [] ∧ HeaderMap.same lengthKey key) →
        got.received.headers.find key = req.headers.find key := by
    intro key hkey hlength
    rw [find_received got hkey, h.body, if_neg hlength]
    exact h.headers key hkey hlength
  exact { method := h.method, version := h.version, close := h.close, path := h.path, query := h.query
          fragment := h.fragment, body := h.body, headers := hheaders }

/-- What a request has become behind any number of proxies: each of them gets it whole, however the network
has cut it, and it is the request that has come to the first. -/
theorem relayed_accepted (habsolute : RequestUri absolute) (hconfined : Confined absolute)
    (r : WireRequest (originNext relaxed absolute)) (horigin : r.request.OriginForm) {size n : Nat}
    {req : HttpRequest} (h : Relayed (httpParser (originNext relaxed absolute)) size r.request n req) :
    SameRequest r.request req ∧ ∀ pieces later, Carries size req pieces →
      ∃ got, HttpSession.recvRequest (httpParser (originNext relaxed absolute)) size
        (pieces.map ReadResult.data ++ later) = some (.ret got later) := by
  have hkept : SameRequest r.request req ∧ req.Sendable := by
    induction h with
    | start =>
      refine ⟨?_, (r.sendable_iff hconfined).mpr horigin⟩
      exact ⟨rfl, rfl, rfl, rfl, rfl, rfl, rfl, fun _ _ _ => rfl⟩
    | hop _ hcarries hrecv ih =>
      rw [Brings.recvRequest relaxed habsolute ⟨hcarries, ih.2⟩] at hrecv
      cases hrecv
      exact ⟨ih.1.received, ih.2.received⟩
  refine ⟨hkept.1, fun pieces later hcarries => ⟨req.received, ?_⟩⟩
  exact Brings.recvRequest relaxed habsolute ⟨hcarries, hkept.2⟩ later

def postHead : Bytes :=
  ascii "POST /a%20b?c HTTP/1.0\r\nX-Y:  z\r\nContent-Length: 2\r\n\r\n".toList

def postRequest : WireRequest (originNext false fun _ _ => ([], 0)) where
  head := postHead
  body := ascii "ok".toList
  parser := { mark := 49, fieldStart := 52, fieldLen := 14, queryStart := some 12
              data := { method := .post, version := 0x10, path := ascii "/a%20b".toList
                        query := ascii "c".toList
                        headers := [(ascii "Content-Length".toList, ascii "2".toList),
                          (ascii "X-Y".toList, ascii "z".toList)] } }
  accepted := by decide +kernel
  clean := by decide +kernel
  parsed := by decide +kernel
  valid := rfl
  version := ⟨postHead.take 14, postHead.drop 14, by decide +kernel, by decide +kernel⟩
  length := by decide +kernel

theorem relayed_accepted_post : SameRequest postRequest.request postRequest.request.received ∧
    ∀ pieces later, Carries 4096 postRequest.request.received pieces →
      ∃ got, HttpSession.recvRequest (httpParser (originNext false fun _ _ => ([], 0))) 4096
        (pieces.map ReadResult.data ++ later) = some (.ret got later) := by
  have hspace : RequestUri fun _ _ => ([], 0) := ⟨by simp⟩
  have hconfined : Confined fun _ _ => ([], 0) := fun s b _ => ⟨by simp, by simp [Free]⟩
  have horigin : postRequest.request.OriginForm := by
    refine ⟨?_, ?_, ?_⟩ <;> decide +kernel
  have hcarries : Carries 4096 postRequest.request [postRequest.request.dump] :=
    { readable := by
        unfold Readable
        decide +kernel
      bytes := by simp
      first := by
        intro d hd
        cases Option.some.inj hd
        decide +kernel }
  have hsent : Brings 4096 postRequest.request [postRequest.request.dump] :=
    ⟨hcarries, (postRequest.sendable_iff hconfined).mpr horigin⟩
  have hhop : Relayed (httpParser (originNext false fun _ _ => ([], 0))) 4096 postRequest.request 1
      postRequest.request.received :=
    .hop .start hcarries (hsent.recvRequest false hspace [])
  exact relayed_accepted hspace hconfined postRequest horigin hhop

end

end Azure
