import Azure.Http.Accessors
import Azure.Http.RequestLine

/-!
# Header lines

A map that is written line by line and read back by `m_headers[key] = val` is the same map.  The lines
of a message leave the connection out; they are written for the connection of the message itself.
-/

namespace Azure

open Reasoning

namespace HeaderMap

/-! ## Maps that are built line by line -/

def Ordered (m : HeaderMap) : Prop := m.Pairwise fun a b => caseInsensitiveLess a.1 b.1 = true

instance (m : HeaderMap) : Decidable (Ordered m) := inferInstanceAs (Decidable (List.Pairwise _ _))

/-- `m_headers[key] = val` for these entries, one after the other. -/
def setAll (m : HeaderMap) (es : HeaderMap) : HeaderMap := es.foldl (fun m e => m.set e.1 e.2) m

theorem setAll_cons (m : HeaderMap) (e : Bytes × Bytes) (es : HeaderMap) :
    m.setAll (e :: es) = (m.set e.1 e.2).setAll es := rfl

theorem less_trans {a b c : Bytes} (hab : caseInsensitiveLess a b = true)
    (hbc : caseInsensitiveLess b c = true) : caseInsensitiveLess a c = true := by
  simp only [caseInsensitiveLess, decide_eq_true_iff] at hab hbc ⊢
  exact List.lt_trans hab hbc

theorem not_less_of_less {a b : Bytes} (h : caseInsensitiveLess a b = true) :
    caseInsensitiveLess b a = false := by
  simp only [caseInsensitiveLess, decide_eq_true_iff, decide_eq_false_iff_not] at h ⊢
  exact List.lt_asymm h

theorem less_congr {a b c : Bytes} (h : same a b) :
    caseInsensitiveLess a c = caseInsensitiveLess b c ∧
      caseInsensitiveLess c a = caseInsensitiveLess c b := by
  rw [same] at h
  simp only [caseInsensitiveLess, h, and_self]

theorem less_or_less {a b : Bytes} (h : ¬ same a b) :
    caseInsensitiveLess a b = true ∨ caseInsensitiveLess b a = true := by
  have hneither := not_less_iff a b
  rw [decide_eq_false h] at hneither
  cases ha : caseInsensitiveLess a b with
  | true => exact .inl rfl
  | false =>
    rw [ha] at hneither
    exact .inr (by simpa using hneither)

/-- An entry behind all others. -/
theorem set_last {m : HeaderMap} {key val : Bytes}
    (h : ∀ e ∈ m, caseInsensitiveLess e.1 key = true) : m.set key val = m ++ [(key, val)] := by
  induction m with
  | nil => rfl
  | cons e m ih =>
    rw [set, if_pos (h e List.mem_cons_self), ih fun e' he' => h e' (List.mem_cons_of_mem e he')]
    rfl

/-- A map that is in order is built from its own entries. -/
theorem setAll_of_ordered {m es : HeaderMap} (h : Ordered (m ++ es)) : m.setAll es = m ++ es := by
  induction es generalizing m with
  | nil => exact (List.append_nil m).symm
  | cons e es ih =>
    have hlast : ∀ e' ∈ m, caseInsensitiveLess e'.1 e.1 = true := fun e' he' =>
      (List.pairwise_append.mp h).2.2 e' he' e List.mem_cons_self
    rw [setAll_cons, set_last hlast, ih]
    · rw [List.append_assoc]
      rfl
    · rw [List.append_assoc]
      exact h

/-- A map has keys and values that have been set. -/
theorem forall_set {P Q : Bytes → Prop} {m : HeaderMap} {key val : Bytes}
    (hm : ∀ e ∈ m, P e.1 ∧ Q e.2) (hset : P key ∧ Q val) : ∀ e ∈ m.set key val, P e.1 ∧ Q e.2 := by
  induction m with
  | nil => simpa [set] using hset
  | cons e m ih =>
    rw [List.forall_mem_cons] at hm
    rw [set]
    split_ifs
    · exact List.forall_mem_cons.mpr ⟨hm.1, ih hm.2⟩
    · exact List.forall_mem_cons.mpr ⟨hset, List.forall_mem_cons.mpr hm⟩
    · exact List.forall_mem_cons.mpr ⟨⟨hm.1.1, hset.2⟩, hm.2⟩

theorem forall_setAll {P Q : Bytes → Prop} {m es : HeaderMap}
    (hm : ∀ e ∈ m, P e.1 ∧ Q e.2) (hes : ∀ e ∈ es, P e.1 ∧ Q e.2) :
    ∀ e ∈ m.setAll es, P e.1 ∧ Q e.2 := by
  induction es generalizing m with
  | nil => exact hm
  | cons e es ih =>
    rw [List.forall_mem_cons] at hes
    exact ih (forall_set hm hes.1) hes.2

theorem ordered_set {m : HeaderMap} (h : m.Ordered) (key val : Bytes) :
    Ordered (m.set key val) := by
  induction m with
  | nil => exact List.pairwise_singleton _ _
  | cons e m ih =>
    obtain ⟨hfirst, hrest⟩ := List.pairwise_cons.mp h
    rw [set]
    split_ifs with hless hmore
    · have hkeys : ∀ e' ∈ set key val m, caseInsensitiveLess e.1 e'.1 = true ∧ True :=
        forall_set (P := fun k => caseInsensitiveLess e.1 k = true) (Q := fun _ => True)
          (fun e' he' => ⟨hfirst e' he', trivial⟩) ⟨hless, trivial⟩
      exact List.pairwise_cons.mpr ⟨fun e' he' => (hkeys e' he').1, ih hrest⟩
    · refine List.pairwise_cons.mpr ⟨List.forall_mem_cons.mpr ⟨hmore, fun e' he' => ?_⟩, h⟩
      exact less_trans hmore (hfirst e' he')
    · exact List.pairwise_cons.mpr ⟨hfirst, hrest⟩

theorem ordered_setAll {m : HeaderMap} (h : m.Ordered) (es : HeaderMap) :
    Ordered (m.setAll es) := by
  induction es generalizing m with
  | nil => exact h
  | cons e es ih => exact ih (ordered_set h e.1 e.2)

/-- Two entries that the map tells apart can be written in either order. -/
theorem set_comm {key key' : Bytes} (hne : ¬ same key key') (val val' : Bytes) (m : HeaderMap) :
    (m.set key' val').set key val = (m.set key val).set key' val' := by
  induction m with
  | nil =>
    rcases less_or_less hne with h | h
    · have hnot := not_less_of_less h
      simp only [set, h, hnot, Bool.false_eq_true, if_true, if_false]
    · have hnot := not_less_of_less h
      simp only [set, h, hnot, Bool.false_eq_true, if_true, if_false]
  | cons e m ih =>
    obtain ⟨k, v⟩ := e
    by_cases hk : caseInsensitiveLess k key = true <;> by_cases hk' : caseInsensitiveLess k key' = true
    · simp only [set, hk, hk', if_true, ih]
    · -- `key'` is written in front of what follows `k` or at `k`, `key` behind it
      rw [set, if_neg hk']
      by_cases hbefore : caseInsensitiveLess key' k = true
      · have hless := less_trans hbefore hk
        simp only [set, hk, hk', hbefore, hless, Bool.false_eq_true, if_true, if_false]
      · simp only [set, hk, hk', hbefore, Bool.false_eq_true, if_true, if_false]
    · have hgoal : set key val ((k, v) :: set key' val' m) =
          set key' val' (set key val ((k, v) :: m)) := by
        by_cases hbefore : caseInsensitiveLess key k = true
        · have hless := less_trans hbefore hk'
          simp only [set, hk, hk', hbefore, hless, Bool.false_eq_true, if_true, if_false]
        · simp only [set, hk, hk', hbefore, Bool.false_eq_true, if_true, if_false]
      rw [← hgoal, set, if_pos hk']
    · by_cases hbefore : caseInsensitiveLess key k = true <;>
        by_cases hbefore' : caseInsensitiveLess key' k = true
      · rcases less_or_less hne with h | h
        · have hnot := not_less_of_less h
          simp only [set, hk, hk', hbefore, hbefore', h, hnot, Bool.false_eq_true, if_true, if_false]
        · have hnot := not_less_of_less h
          simp only [set, hk, hk', hbefore, hbefore', h, hnot, Bool.false_eq_true, if_true, if_false]
      · -- `k` is `key'`
        have hsame : same k key' := by
          by_contra hnot
          exact (less_or_less hnot).elim hk' hbefore'
        have hless : caseInsensitiveLess key key' = true := by
          rw [← (less_congr hsame).2]
          exact hbefore
        have hnot := not_less_of_less hless
        simp only [set, hk, hk', hbefore, hbefore', hless, hnot, Bool.false_eq_true, if_true, if_false]
      · have hsame : same k key := by
          by_contra hnot
          exact (less_or_less hnot).elim hk hbefore
        have hless : caseInsensitiveLess key' key = true := by
          rw [← (less_congr hsame).2]
          exact hbefore'
        have hnot := not_less_of_less hless
        simp only [set, hk, hk', hbefore, hbefore', hless, hnot, Bool.false_eq_true, if_true, if_false]
      · -- both are `k`
        have hsame : ∀ {c : Bytes}, ¬ caseInsensitiveLess k c = true →
            ¬ caseInsensitiveLess c k = true → same k c := by
          intro c h h'
          by_contra hnot
          exact (less_or_less hnot).elim h h'
        exact absurd ((hsame hk hbefore).symm.trans (hsame hk' hbefore')) hne

/-- An entry that is written first stands where it would stand if it were written last. -/
theorem setAll_set {key : Bytes} {es : HeaderMap} (hne : ∀ e ∈ es, ¬ same e.1 key) (val : Bytes)
    (m : HeaderMap) : (m.set key val).setAll es = (m.setAll es).set key val := by
  induction es generalizing m with
  | nil => rfl
  | cons e es ih =>
    rw [setAll_cons, setAll_cons, set_comm (hne e List.mem_cons_self),
      ih fun e' he' => hne e' (List.mem_cons_of_mem e he')]

theorem not_same_of_mem_erase {key : Bytes} {m : HeaderMap} {e : Bytes × Bytes}
    (he : e ∈ m.erase key) : ¬ same e.1 key := by
  rw [erase, List.mem_filter] at he
  intro hsame
  have hneither := not_less_iff e.1 key
  rw [decide_eq_true hsame, Bool.and_eq_true, Bool.not_eq_true', Bool.not_eq_true'] at hneither
  rw [hneither.1, hneither.2] at he
  exact absurd he.2 (by decide)

/-- The entries that are written are those that `erase` leaves. -/
theorem lines_eq (m : HeaderMap) :
    m.lines = (m.erase (ascii "connection".toList)).map headerLine := by
  rw [lines, erase]
  congr 1
  apply List.filter_congr
  intro e _
  rw [show strcaseeq e.1 (ascii "connection".toList) =
    decide (same e.1 (ascii "connection".toList)) from rfl, ← not_less_iff, Bool.not_and,
    Bool.not_not, Bool.not_not]

end HeaderMap

/-! ## Reading a line -/

/-- What can be read back as the name of a field.  The grammar does not end a name at a control byte;
a line end in front of it ends the headers. -/
def isName (k : Bytes) : Bool :=
  k ≠ [] && k.all isfield && k.head? ≠ some 10 && k.take 2 ≠ [13, 10]

/-- What can be read back as the value of a field: the blanks in front of it are skipped. -/
def isValue (v : Bytes) : Bool :=
  v.all (fun b => b ≠ 0 && b ≠ 10 && b ≠ 13 && b ≠ 127) && v.head? ≠ some 9 && v.head? ≠ some 32

namespace HttpRequestParser

variable {relaxed : Bool} {absolute : Nat → UInt8 → List RequestAction × Nat} {buffer pre post : Bytes}
  {x : HttpRequestParser}

/-- The name of a field and the colon. -/
theorem takes_name {k : Bytes} (hk : isName k = true) :
    Takes relaxed absolute buffer pre.length 13 x (k ++ [58]) 15
      { x with fieldStart := pre.length, fieldLen := k.length } := by
  simp only [isName, Bool.and_eq_true, decide_eq_true_eq] at hk
  obtain ⟨⟨⟨hne, hall⟩, hlf⟩, hcrlf⟩ := hk
  rcases List.exists_cons_of_ne_nil hne with ⟨b, w, rfl⟩
  rw [List.all_cons, Bool.and_eq_true] at hall
  have h10 : b ≠ 10 := by
    rintro rfl
    exact hlf rfl
  -- a carriage return leads to a state of its own
  have hfirst : Takes relaxed absolute buffer pre.length 13 x [b] (if b = 13 then 18 else 14)
      { x with fieldStart := pre.length } := by
    by_cases h13 : b = 13
    · subst h13
      rw [if_pos rfl]
      exact .byte [.startField] rfl rfl rfl (unfinished (by omega)) (by decide)
    · rw [if_neg h13]
      refine .byte [.startField] ?_ rfl rfl (unfinished (by omega)) (by decide)
      show httpNext (originNext relaxed absolute) 13 b = _
      simp only [httpNext, h10, h13, hall.1, if_false, if_true]
  have hbyte : ∀ q c, isfield c = true → Takes relaxed absolute buffer q 14
      { x with fieldStart := pre.length } [c] 14 { x with fieldStart := pre.length } := by
    intro q c hc
    have h58 : c ≠ 58 := by
      rintro rfl
      exact absurd hc (by decide)
    refine .quiet ?_ (unfinished (by omega)) (List.Subset.refl _)
    show httpNext (originNext relaxed absolute) 14 c = _
    simp only [httpNext, h58, hc, if_false, if_true]
  have hrest : ∃ s, (s = 14 ∨ s = 18) ∧ Takes relaxed absolute buffer (pre.length + 1)
      (if b = 13 then 18 else 14) { x with fieldStart := pre.length } w s
      { x with fieldStart := pre.length } := by
    cases w with
    | nil =>
      refine ⟨if b = 13 then 18 else 14, ?_, .nil⟩
      split <;> simp
    | cons c w =>
      rw [List.all_cons, Bool.and_eq_true] at hall
      have hsecond : Takes relaxed absolute buffer (pre.length + 1) (if b = 13 then 18 else 14)
          { x with fieldStart := pre.length } [c] 14 { x with fieldStart := pre.length } := by
        by_cases h13 : b = 13
        · subst h13
          have hc10 : c ≠ 10 := by
            rintro rfl
            exact hcrlf rfl
          have hc58 : c ≠ 58 := by
            rintro rfl
            exact absurd hall.2.1 (by decide)
          rw [if_pos rfl]
          refine .quiet ?_ (unfinished (by omega)) (by decide)
          show httpNext (originNext relaxed absolute) 18 c = _
          simp only [httpNext, hc10, hc58, hall.2.1, if_false, if_true]
        · rw [if_neg h13]
          exact hbyte _ c hall.2.1
      refine ⟨14, .inl rfl, hsecond.cons (.loop (fun c' hc' => ?_) (unfinished (by omega)))⟩
      have hfield := List.all_eq_true.mp hall.2.2 c' hc'
      have h58 : c' ≠ 58 := by
        rintro rfl
        exact absurd hfield (by decide)
      show httpNext (originNext relaxed absolute) 14 c' = _
      simp only [httpNext, h58, hfield, if_false, if_true]
  obtain ⟨s, hs, hrest⟩ := hrest
  have hcolon : Takes relaxed absolute buffer (pre.length + (b :: w).length) s
      { x with fieldStart := pre.length } [58] 15
      { x with fieldStart := pre.length, fieldLen := (b :: w).length } := by
    have hacts : [RequestAction.writeField].foldlM
        (fun x a => act buffer (pre.length + (b :: w).length) a x)
        { x with fieldStart := pre.length } =
          some { x with fieldStart := pre.length, fieldLen := (b :: w).length } := by
      simp only [List.foldlM_cons, List.foldlM_nil, act, tokenLen_of_le (Nat.le_add_right ..),
        Nat.add_sub_cancel_left]
      rfl
    rcases hs with rfl | rfl
    · exact .byte [.writeField] rfl hacts rfl (unfinished (by omega)) (by decide)
    · exact .byte [.writeField] rfl hacts rfl (unfinished (by omega)) (by decide)
  exact (hfirst.cons hrest).append hcolon

/-- What `writeValue` makes of a name and a value that stand in the buffer. -/
theorem act_writeValue {k gap v : Bytes} (hk : k ≠ [])
    (hbuffer : buffer = pre ++ k ++ gap ++ v ++ post) (hstart : x.fieldStart = pre.length)
    (hlen : x.fieldLen = k.length) (hmark : x.mark = (pre ++ k ++ gap).length) :
    act buffer ((pre ++ k ++ gap).length + v.length) .writeValue x =
      some { x with data := { x.data with headers := x.data.headers.set k v } } := by
  have hname : tokenString buffer x.fieldStart x.fieldLen = some k := by
    have htoken := tokenString_between pre k (gap ++ (v ++ post))
    rw [tokenLen_of_le (Nat.le_add_right ..), Nat.add_sub_cancel_left] at htoken
    rw [hstart, hlen, hbuffer, ← htoken]
    simp only [List.append_assoc]
  have hvalue : tokenString buffer x.mark (tokenLen x.mark ((pre ++ k ++ gap).length + v.length)) =
      some v := by
    rw [hmark, hbuffer]
    exact tokenString_between (pre ++ k ++ gap) v post
  have hnonzero : x.fieldLen ≠ 0 := by
    rw [hlen]
    exact Nat.ne_of_gt (List.length_pos_of_ne_nil hk)
  simp only [act, if_neg hnonzero, hname, hvalue, Option.bind_some, Option.map_some]

/-- The value of a field, behind the blank, and the carriage return. -/
theorem takes_value {k gap v : Bytes} (hk : k ≠ []) (hv : isValue v = true)
    (hbuffer : buffer = pre ++ k ++ gap ++ v ++ post) (hstart : x.fieldStart = pre.length)
    (hlen : x.fieldLen = k.length) :
    Takes relaxed absolute buffer (pre ++ k ++ gap).length 15 x (v ++ [13]) 17
      { x with mark := (pre ++ k ++ gap).length
               data := { x.data with headers := x.data.headers.set k v } } := by
  simp only [isValue, Bool.and_eq_true, decide_eq_true_eq] at hv
  obtain ⟨⟨hall, htab⟩, hspace⟩ := hv
  have hplain : ∀ b ∈ v, b ≠ 0 ∧ b ≠ 10 ∧ b ≠ 13 ∧ b ≠ 127 := by
    intro b hb
    have hbyte := List.all_eq_true.mp hall b hb
    simp only [Bool.and_eq_true, decide_eq_true_eq] at hbyte
    exact ⟨hbyte.1.1.1, hbyte.1.1.2, hbyte.1.2, hbyte.2⟩
  have hwrite := act_writeValue (x := { x with mark := (pre ++ k ++ gap).length }) hk hbuffer hstart
    hlen rfl
  -- an empty value begins and ends at the carriage return
  cases v with
  | nil =>
    refine .byte [.startValue, .writeValue] rfl ?_ rfl (unfinished (by omega)) (by decide)
    rw [List.length_nil, Nat.add_zero] at hwrite
    simp only [List.foldlM_cons, List.foldlM_nil]
    show (act buffer _ .writeValue _).bind _ = _
    rw [hwrite]
    rfl
  | cons b w =>
    obtain ⟨h0, h10, h13, h127⟩ := hplain b List.mem_cons_self
    have h9 : b ≠ 9 := by
      rintro rfl
      exact htab rfl
    have h32 : b ≠ 32 := by
      rintro rfl
      exact hspace rfl
    have hfirst : Takes relaxed absolute buffer (pre ++ k ++ gap).length 15 x [b] 16
        { x with mark := (pre ++ k ++ gap).length } := by
      refine .byte [.startValue] ?_ rfl rfl (unfinished (by omega)) (by decide)
      show httpNext (originNext relaxed absolute) 15 b = _
      simp only [httpNext, h0, h9, h10, h13, h32, h127, or_self, if_false]
    have hrest : Takes relaxed absolute buffer ((pre ++ k ++ gap).length + 1) 16
        { x with mark := (pre ++ k ++ gap).length } w 16
        { x with mark := (pre ++ k ++ gap).length } := by
      refine .loop (fun c hc => ?_) (unfinished (by omega))
      obtain ⟨c0, c10, c13, c127⟩ := hplain c (List.mem_cons_of_mem b hc)
      show httpNext (originNext relaxed absolute) 16 c = _
      simp only [httpNext, c0, c10, c13, c127, or_self, if_false]
    refine (hfirst.cons hrest).append (.byte [.writeValue] rfl ?_ rfl
      (unfinished (by omega)) (by decide))
    simp only [List.foldlM_cons, List.foldlM_nil]
    rw [hwrite]
    rfl

variable (relaxed absolute x) in
/-- The line of a header, with its line end. -/
theorem takes_header {k v : Bytes} (hbuffer : buffer = pre ++ (headerLine (k, v) ++ crlf) ++ post)
    (hk : isName k = true) (hv : isValue v = true) :
    ∃ y, Takes relaxed absolute buffer pre.length 13 x (headerLine (k, v) ++ crlf) 13 y ∧
      y.data = { x.data with headers := x.data.headers.set k v } ∧ y.error = x.error := by
  have hne : k ≠ [] := by
    rintro rfl
    exact absurd hk (by decide)
  have hname : Takes relaxed absolute buffer pre.length 13 x (k ++ [58]) 15
      { x with fieldStart := pre.length, fieldLen := k.length } := takes_name hk
  -- the blank behind the colon
  have hblank : Takes relaxed absolute buffer (pre.length + (k ++ [58]).length) 15
      { x with fieldStart := pre.length, fieldLen := k.length } [32] 15
      { x with fieldStart := pre.length, fieldLen := k.length
               mark := pre.length + (k ++ [58]).length } :=
    .byte [.startValue] rfl rfl rfl (unfinished (by omega)) (by decide)
  have hsplit : buffer = pre ++ k ++ [58, 32] ++ v ++ ([13, 10] ++ post) := by
    rw [hbuffer]
    simp [headerLine, crlf, ascii]
  have hvalue : Takes relaxed absolute buffer (pre ++ k ++ [58, 32]).length 15
      { x with fieldStart := pre.length, fieldLen := k.length
               mark := pre.length + (k ++ [58]).length } (v ++ [13]) 17 _ :=
    takes_value hne hv hsplit rfl rfl
  have hgap : (pre ++ k ++ [58, 32]).length = pre.length + (k ++ [58]).length + 1 := by
    simp only [List.length_append, List.length_cons, List.length_nil]
    omega
  rw [hgap] at hvalue
  have hline : headerLine (k, v) ++ crlf = (k ++ [58]) ++ (32 :: ((v ++ [13]) ++ [10])) := by
    simp [headerLine, crlf, ascii]
  rw [hline]
  exact ⟨_, hname.append (hblank.cons (hvalue.append (.quiet rfl (unfinished (by omega)) (by decide)))),
    rfl, rfl⟩

variable (relaxed absolute x) in
/-- The lines of some headers. -/
theorem takes_headers {es : HeaderMap}
    (hbuffer : buffer = pre ++ (es.map headerLine).flatMap (fun l => l ++ crlf) ++ post)
    (hes : ∀ e ∈ es, isName e.1 = true ∧ isValue e.2 = true) :
    ∃ y, Takes relaxed absolute buffer pre.length 13 x
        ((es.map headerLine).flatMap fun l => l ++ crlf) 13 y ∧
      y.data = { x.data with headers := x.data.headers.setAll es } ∧ y.error = x.error := by
  induction es generalizing pre x with
  | nil => exact ⟨x, .nil, rfl, rfl⟩
  | cons e es ih =>
    obtain ⟨k, v⟩ := e
    obtain ⟨hk, hv⟩ := hes (k, v) List.mem_cons_self
    rw [List.map_cons, List.flatMap_cons] at hbuffer ⊢
    have hfirst : buffer = pre ++ (headerLine (k, v) ++ crlf) ++
        ((es.map headerLine).flatMap (fun l => l ++ crlf) ++ post) := by
      rw [hbuffer]
      simp only [List.append_assoc]
    have hrest : buffer = pre ++ (headerLine (k, v) ++ crlf) ++
        (es.map headerLine).flatMap (fun l => l ++ crlf) ++ post := by
      rw [hfirst]
      simp only [List.append_assoc]
    obtain ⟨y, hy, hdata, herror⟩ := takes_header relaxed absolute x hfirst hk hv
    obtain ⟨z, hz, hdata', herror'⟩ := ih y hrest fun e he => hes e (List.mem_cons_of_mem _ he)
    rw [List.length_append] at hz
    refine ⟨z, hy.append hz, ?_, herror'.trans herror⟩
    rw [hdata', hdata, HeaderMap.setAll_cons]

end HttpRequestParser

end Azure
