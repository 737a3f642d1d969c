import Azure.Http.HeaderLines
import Azure.Http.ResponseFields
import Azure.Uri.Printing

/-!
# The lines of a response

What `httpclient_parser.rl.cc` makes of the lines that `dump` writes.
-/

namespace Azure

open Reasoning

namespace HttpResponseParser

/-! ## States -/

def isNameState (s : Nat) : Bool := s = 21 ∨ 25 ≤ s ∧ s ≤ 34 ∨ 44 ≤ s ∧ s ≤ 60 ∨ 101 ≤ s ∧ s ≤ 111

def isValueState (s : Nat) : Bool := s = 23 ∨ 81 ≤ s ∧ s ≤ 87 ∨ 96 ≤ s ∧ s ≤ 100 ∨ s = 119

def nameRead (s : Nat) : Bytes :=
  if 25 ≤ s ∧ s ≤ 34 then connectionWord.take (s - 24)
  else if 44 ≤ s ∧ s ≤ 60 then transferWord.take (s - 43)
  else if 101 ≤ s ∧ s ≤ 111 then lengthWord.take (s - 97)
  else []

def behindName (s : Nat) : Nat := if s = 34 then 35 else if s = 60 then 61 else if s = 111 then 112 else 22

def assigned (s : Nat) : List Position :=
  if isNameState s then [.fieldStart]
  else if isValueState s then [.fieldStart, .fieldLen, .mark]
  else if s = 22 ∨ s = 35 ∨ s = 61 ∨ s = 112 then [.fieldStart, .fieldLen]
  else if 8 ≤ s ∧ s ≤ 15 ∨ s = 17 ∨ s = 19 then [.mark]
  else []

theorem assigned_name {s : Nat} (h : isNameState s = true) : assigned s = [.fieldStart] := if_pos h

theorem assigned_value {s : Nat} (h : isValueState s = true) :
    assigned s = [.fieldStart, .fieldLen, .mark] := by
  have hname : isNameState s = false := by
    simp only [isNameState, isValueState, decide_eq_true_eq, decide_eq_false_iff_not] at h ⊢
    omega
  rw [assigned, hname, if_neg Bool.false_ne_true, if_pos h]

abbrev Takes (buffer : Bytes) :
    Nat → Nat → HttpResponseParser → Bytes → Nat → HttpResponseParser → Prop :=
  Scanner.Passes (httpclientParser fieldsNext) (act buffer) ResponseAction.registers assigned

theorem unfinished {s : Nat} (h : s ≠ 0 ∧ s ≠ 120) :
    (httpclientParser fieldsNext).isError s = false ∧
      (httpclientParser fieldsNext).isFinished s = false := by
  simp only [httpclientParser, decide_eq_false_iff_not]
  exact h

theorem next_fields {s : Nat} (b : UInt8) (h : 20 ≤ s ∧ s ≠ 120) :
    (httpclientParser fieldsNext).next s b = fieldsNext s b := by
  show httpclientNext fieldsNext s b = _
  unfold httpclientNext
  split <;> first | omega | rfl

/-! ## Names -/

theorem not_delimiter_of_istoken {b : UInt8} (h : istoken b = true) : b ≠ 58 ∧ b ≠ 10 ∧ b ≠ 13 := by
  refine ⟨?_, ?_, ?_⟩ <;>
  · rintro rfl
    revert h
    decide

/-- A byte of a name goes on with the word, or it leaves it for good. -/
theorem nameNext_token (word : Bytes) (i go behind : Nat) {b : UInt8} (hb : istoken b = true) :
    nameNext word i go behind b = ([], 21) ∨
      word[i]? = some (tolower b) ∧ nameNext word i go behind b = ([], go) := by
  have h58 := (not_delimiter_of_istoken hb).1
  by_cases hword : word[i]? = some (tolower b)
  · exact .inr ⟨hword, by rw [nameNext, if_neg h58, if_pos hword]⟩
  · exact .inl (by rw [nameNext, if_neg h58, if_neg hword, if_pos hb])

/-- The words that are watched for, and the state in front of their first letter. -/
theorem fieldsNext_word {s : Nat} (b : UInt8) :
    (25 ≤ s ∧ s ≤ 33 ∧ s ≠ 27 → fieldsNext s b = nameNext connectionWord (s - 24) (s + 1) 22 b) ∧
    (44 ≤ s ∧ s ≤ 59 → fieldsNext s b = nameNext transferWord (s - 43) (s + 1) 22 b) ∧
    (101 ≤ s ∧ s ≤ 110 → fieldsNext s b = nameNext lengthWord (s - 97) (s + 1) 22 b) := by
  refine ⟨fun h => ?_, fun h => ?_, fun h => ?_⟩
  · unfold fieldsNext
    split <;> first | omega | rw [if_pos (by omega)]
  · unfold fieldsNext
    split <;> first | omega | rw [if_neg (by omega), if_neg (by omega), if_pos (by omega)]
  · unfold fieldsNext
    split <;> first
      | omega
      | rw [if_neg (by omega), if_neg (by omega), if_neg (by omega), if_neg (by omega),
          if_neg (by omega), if_neg (by omega), if_neg (by omega), if_neg (by omega),
          if_pos (by omega)]

theorem nameRead_connection {s : Nat} (h : 25 ≤ s ∧ s ≤ 34) : nameRead s = connectionWord.take (s - 24) :=
  if_pos h

theorem nameRead_transfer {s : Nat} (h : 44 ≤ s ∧ s ≤ 60) : nameRead s = transferWord.take (s - 43) := by
  rw [nameRead, if_neg (by omega), if_pos h]

theorem nameRead_length {s : Nat} (h : 101 ≤ s ∧ s ≤ 111) : nameRead s = lengthWord.take (s - 97) := by
  rw [nameRead, if_neg (by omega), if_neg (by omega), if_pos h]

theorem take_next {word : Bytes} {i : Nat} {c : UInt8} (h : word[i]? = some c) :
    word.take (i + 1) = word.take i ++ [c] := by
  rw [List.take_add_one, h]
  rfl

/-- A byte of a name: the machine is out of the words, or it has read one more letter of one. -/
theorem name_step {s : Nat} {b : UInt8} (hs : isNameState s = true) (hb : istoken b = true) :
    ∃ t, fieldsNext s b = ([], t) ∧ isNameState t = true ∧
      (t ≠ 21 → s ≠ 21 ∧ nameRead t = nameRead s ++ [tolower b]) := by
  obtain ⟨hconnection, htransfer, hlength⟩ := fieldsNext_word (s := s) b
  have hout : ∀ behind, fieldsNext s b = nameNext [] 0 0 behind b →
      ∃ t, fieldsNext s b = ([], t) ∧ isNameState t = true ∧
        (t ≠ 21 → s ≠ 21 ∧ nameRead t = nameRead s ++ [tolower b]) := by
    intro behind hnext
    rcases nameNext_token [] 0 0 behind hb with hleaves | ⟨hword, -⟩
    · exact ⟨21, hnext.trans hleaves, rfl, fun hne => absurd rfl hne⟩
    · cases hword
  have hon : ∀ (word : Bytes) (i : Nat), fieldsNext s b = nameNext word i (s + 1) 22 b → s ≠ 21 →
      (word[i]? = some (tolower b) →
        isNameState (s + 1) = true ∧ nameRead (s + 1) = nameRead s ++ [tolower b]) →
      ∃ t, fieldsNext s b = ([], t) ∧ isNameState t = true ∧
        (t ≠ 21 → s ≠ 21 ∧ nameRead t = nameRead s ++ [tolower b]) := by
    intro word i hnext hne hread
    rcases nameNext_token word i (s + 1) 22 hb with hleaves | ⟨hword, hgo⟩
    · exact ⟨21, hnext.trans hleaves, rfl, fun hne => absurd rfl hne⟩
    · obtain ⟨hname, hletters⟩ := hread hword
      exact ⟨s + 1, hnext.trans hgo, hname, fun _ => ⟨hne, hletters⟩⟩
  have hinside : (25 ≤ s + 1 ∧ s + 1 ≤ 34 ∨ 44 ≤ s + 1 ∧ s + 1 ≤ 60 ∨ 101 ≤ s + 1 ∧ s + 1 ≤ 111) →
      isNameState (s + 1) = true := fun h => decide_eq_true (.inr h)
  simp only [isNameState, decide_eq_true_eq] at hs
  rcases hs with rfl | hs | hs | hs
  · exact hout 22 rfl
  · by_cases hlast : s = 34
    · subst hlast
      exact hout 35 rfl
    by_cases hthird : s = 27
    · -- `Connection` and `Content-Length` part
      subst hthird
      by_cases ht : tolower b = 116
      · refine ⟨101, if_pos ht, rfl, fun _ => ⟨by decide, ?_⟩⟩
        rw [ht]
        decide
      · have hnext : fieldsNext 27 b = nameNext connectionWord 3 28 22 b := if_neg ht
        refine hon connectionWord 3 hnext (by decide) fun hword => ⟨rfl, ?_⟩
        rw [nameRead_connection (by omega), nameRead_connection (by omega)]
        exact take_next hword
    · refine hon connectionWord (s - 24) (hconnection ⟨hs.1, by omega, hthird⟩) (by omega)
        fun hword => ⟨hinside (.inl (by omega)), ?_⟩
      rw [nameRead_connection (by omega), nameRead_connection hs, ← take_next hword]
      congr 1
      omega
  · by_cases hlast : s = 60
    · subst hlast
      exact hout 61 rfl
    · refine hon transferWord (s - 43) (htransfer (by omega)) (by omega)
        fun hword => ⟨hinside (.inr (.inl (by omega))), ?_⟩
      rw [nameRead_transfer (by omega), nameRead_transfer hs, ← take_next hword]
      congr 1
      omega
  · by_cases hlast : s = 111
    · subst hlast
      exact hout 112 rfl
    · refine hon lengthWord (s - 97) (hlength (by omega)) (by omega)
        fun hword => ⟨hinside (.inr (.inr (by omega))), ?_⟩
      rw [nameRead_length (by omega), nameRead_length hs, ← take_next hword]
      congr 1
      omega

/-- The colon behind a name. -/
theorem name_colon {s : Nat} (hs : isNameState s = true) :
    fieldsNext s 58 = ([.writeField], behindName s) := by
  obtain ⟨hconnection, htransfer, hlength⟩ := fieldsNext_word (s := s) 58
  have hbehind : s ≠ 34 → s ≠ 60 → s ≠ 111 → behindName s = 22 := by
    intro h34 h60 h111
    rw [behindName, if_neg h34, if_neg h60, if_neg h111]
  simp only [isNameState, decide_eq_true_eq] at hs
  rcases hs with rfl | hs | hs | hs
  · rfl
  · by_cases hlast : s = 34
    · subst hlast
      rfl
    by_cases hthird : s = 27
    · subst hthird
      rfl
    · rw [hconnection ⟨hs.1, by omega, hthird⟩, hbehind hlast (by omega) (by omega)]
      rfl
  · by_cases hlast : s = 60
    · subst hlast
      rfl
    · rw [htransfer (by omega), hbehind (by omega) hlast (by omega)]
      rfl
  · by_cases hlast : s = 111
    · subst hlast
      rfl
    · rw [hlength (by omega), hbehind (by omega) (by omega) hlast]
      rfl

/-- The first byte of a name. -/
theorem lineNext_token (acts : List ResponseAction) {b : UInt8} (hb : istoken b = true) :
    ∃ t, lineNext acts b = (acts ++ [.startField], t) ∧ isNameState t = true ∧
      (t ≠ 21 → nameRead t = [tolower b]) := by
  obtain ⟨-, h10, h13⟩ := not_delimiter_of_istoken hb
  rw [lineNext, if_neg h10, if_neg h13]
  by_cases hc : tolower b = 99
  · exact ⟨25, if_pos hc, rfl, fun _ => by rw [hc]; decide⟩
  by_cases ht : tolower b = 116
  · exact ⟨44, by rw [if_neg hc, if_pos ht], rfl, fun _ => by rw [ht]; decide⟩
  · exact ⟨21, by rw [if_neg hc, if_neg ht, if_pos hb], rfl, fun hne => absurd rfl hne⟩

def IsLineStart (s : Nat) : Prop := s = 20 ∨ s = 43

def IsValueStart (k : Bytes) (q : Nat) : Prop :=
  q = 22 ∨ q = 35 ∧ k.map tolower = connectionWord ∨ q = 61 ∧ k.map tolower = transferWord ∨
    q = 112 ∧ k.map tolower = lengthWord

theorem isValueStart_behindName {k : Bytes} {s : Nat} (hk : s ≠ 21 → k.map tolower = nameRead s) :
    IsValueStart k (behindName s) := by
  unfold IsValueStart behindName
  split_ifs with h34 h60 h111
  · exact .inr (.inl ⟨rfl, by rw [hk (by omega), h34]; decide⟩)
  · exact .inr (.inr (.inl ⟨rfl, by rw [hk (by omega), h60]; decide⟩))
  · exact .inr (.inr (.inr ⟨rfl, by rw [hk (by omega), h111]; decide⟩))
  · exact .inl rfl

variable {buffer pre post : Bytes} {x : HttpResponseParser}

variable (buffer pre x) in
/-- The name of a field and the colon. -/
theorem takes_name {k : Bytes} {s : Nat} (hs : IsLineStart s) (hne : k ≠ [])
    (hk : k.all istoken = true) :
    ∃ q, Takes buffer pre.length s x (k ++ [58]) q
        { x with fieldStart := pre.length, fieldLen := k.length } ∧ IsValueStart k q := by
  rcases List.exists_cons_of_ne_nil hne with ⟨b, w, rfl⟩
  rw [List.all_cons, Bool.and_eq_true] at hk
  -- at one of the two places a `connection: close` in front is still to be noted
  have hfirst : ∃ t, Takes buffer pre.length s x [b] t { x with fieldStart := pre.length } ∧
      isNameState t = true ∧ (t ≠ 21 → nameRead t = [tolower b]) := by
    rcases hs with rfl | rfl
    · obtain ⟨t, hnext, ht, hread⟩ := lineNext_token [] hk.1
      have hstate : t ≠ 0 ∧ t ≠ 120 := by
        simp only [isNameState, decide_eq_true_eq] at ht
        omega
      refine ⟨t, .byte _ hnext rfl rfl (unfinished hstate) ?_, ht, hread⟩
      rw [assigned_name ht]
      decide
    · obtain ⟨t, hnext, ht, hread⟩ := lineNext_token [.writeConnectionClose] hk.1
      have hstate : t ≠ 0 ∧ t ≠ 120 := by
        simp only [isNameState, decide_eq_true_eq] at ht
        omega
      refine ⟨t, .byte _ hnext rfl rfl (unfinished hstate) ?_, ht, hread⟩
      rw [assigned_name ht]
      decide
  obtain ⟨t, hfirst, ht, hread⟩ := hfirst
  -- while the name agrees with one that the parser watches for, the state says how much was read
  have hstep : ∀ v s, isNameState s = true ∧ (s ≠ 21 → v.map tolower = nameRead s) → ∀ c ∈ w,
      ∃ u, (httpclientParser fieldsNext).next s c = ([], u) ∧
        ((httpclientParser fieldsNext).isError u = false ∧
          (httpclientParser fieldsNext).isFinished u = false) ∧ assigned u ⊆ assigned s ∧
        isNameState u = true ∧ (u ≠ 21 → (v ++ [c]).map tolower = nameRead u) := by
    rintro v s ⟨hs, hv⟩ c hc
    obtain ⟨u, hnext, hu, hletters⟩ := name_step hs (List.all_eq_true.mp hk.2 c hc)
    have hstates : 20 ≤ s ∧ s ≠ 120 ∧ u ≠ 0 ∧ u ≠ 120 := by
      simp only [isNameState, decide_eq_true_eq] at hs hu
      omega
    refine ⟨u, ?_, unfinished hstates.2.2, ?_, hu, fun hne => ?_⟩
    · rw [next_fields c ⟨hstates.1, hstates.2.1⟩, hnext]
    · rw [assigned_name hu, assigned_name hs]
      exact List.Subset.refl _
    · obtain ⟨hne', heq⟩ := hletters hne
      rw [List.map_append, hv hne', heq]
      rfl
  have hbegun : isNameState t = true ∧ (t ≠ 21 → [b].map tolower = nameRead t) :=
    ⟨ht, fun hne => (hread hne).symm⟩
  obtain ⟨u, hrest, hu, hletters⟩ : ∃ u, Takes buffer (pre.length + 1) t
      { x with fieldStart := pre.length } w u { x with fieldStart := pre.length } ∧
      isNameState u = true ∧ (u ≠ 21 → ([b] ++ w).map tolower = nameRead u) :=
    Scanner.Passes.within
      (fun v s => isNameState s = true ∧ (s ≠ 21 → v.map tolower = nameRead s)) hstep hbegun
  refine ⟨behindName u, ?_, isValueStart_behindName hletters⟩
  have hstate : 20 ≤ u ∧ u ≠ 120 := by
    simp only [isNameState, decide_eq_true_eq] at hu
    omega
  have hbehind : behindName u = 35 ∨ behindName u = 61 ∨ behindName u = 112 ∨ behindName u = 22 := by
    unfold behindName
    split_ifs <;> simp
  refine (hfirst.cons hrest).append (.byte [.writeField] ?_ ?_ rfl
    (unfinished (by omega)) ?_)
  · rw [next_fields 58 hstate, name_colon hu]
  · simp only [List.foldlM_cons, List.foldlM_nil, act, tokenLen_of_le (Nat.le_add_right ..),
      Nat.add_sub_cancel_left]
    rfl
  · rw [assigned_name hu]
    rcases hbehind with heq | heq | heq | heq <;> rw [heq] <;> decide

/-! ## Values -/

def valueRead (s : Nat) : Bytes := chunkedWord.take (s - 80)

/-- A byte of a value, where another state of the word behind it may follow. -/
theorem valueNext_byte (word : Bytes) (i go : Nat) {b : UInt8} (hb : b ≠ 10 ∧ b ≠ 13) :
    valueNext word i go b = ([], 23) ∨
      word[i]? = some (tolower b) ∧ valueNext word i go b = ([], go) := by
  by_cases hword : word[i]? = some (tolower b)
  · exact .inr ⟨hword, by rw [valueNext, if_neg hb.1, if_neg hb.2, if_pos hword]⟩
  · exact .inl (by rw [valueNext, if_neg hb.1, if_neg hb.2, if_neg hword])

theorem fieldsNext_value {s : Nat} (b : UInt8) :
    (81 ≤ s ∧ s ≤ 86 → fieldsNext s b = valueNext chunkedWord (s - 80) (s + 1) b) ∧
      (96 ≤ s ∧ s ≤ 99 → fieldsNext s b = valueNext closeWord (s - 95) (s + 1) b) := by
  refine ⟨fun h => ?_, fun h => ?_⟩
  · unfold fieldsNext
    split <;> first
      | omega
      | rw [if_neg (by omega), if_neg (by omega), if_neg (by omega), if_neg (by omega),
          if_neg (by omega), if_pos (by omega)]
  · unfold fieldsNext
    split <;> first
      | omega
      | rw [if_neg (by omega), if_neg (by omega), if_neg (by omega), if_neg (by omega),
          if_neg (by omega), if_neg (by omega), if_neg (by omega), if_pos (by omega)]

theorem value_step {s : Nat} {b : UInt8} (hs : isValueState s = true) (hb : b ≠ 10 ∧ b ≠ 13) :
    ∃ t, fieldsNext s b = ([], t) ∧ isValueState t = true ∧
      (81 ≤ t ∧ t ≤ 87 → (81 ≤ s ∧ s ≤ 87) ∧ valueRead t = valueRead s ++ [tolower b]) := by
  obtain ⟨hchunked, hclose⟩ := fieldsNext_value (s := s) b
  have hout : fieldsNext s b = valueNext [] 0 0 b →
      ∃ t, fieldsNext s b = ([], t) ∧ isValueState t = true ∧
        (81 ≤ t ∧ t ≤ 87 → (81 ≤ s ∧ s ≤ 87) ∧ valueRead t = valueRead s ++ [tolower b]) := by
    intro hnext
    rcases valueNext_byte [] 0 0 hb with hleaves | ⟨hword, -⟩
    · exact ⟨23, hnext.trans hleaves, rfl, fun h => by omega⟩
    · cases hword
  have hend : ∀ lf cr lfActs crActs, endNext lfActs lf crActs cr (valueNext [] 0 0) b =
      valueNext [] 0 0 b := by
    intro lf cr lfActs crActs
    rw [endNext, if_neg hb.1, if_neg hb.2]
  simp only [isValueState, decide_eq_true_eq] at hs
  rcases hs with rfl | hs | hs | rfl
  · exact hout rfl
  · by_cases hlast : s = 87
    · subst hlast
      exact hout (hend ..)
    rcases valueNext_byte chunkedWord (s - 80) (s + 1) hb with hleaves | ⟨hword, hgo⟩
    · exact ⟨23, (hchunked (by omega)).trans hleaves, rfl, fun h => by omega⟩
    · refine ⟨s + 1, (hchunked (by omega)).trans hgo, decide_eq_true (by omega), fun _ => ⟨hs, ?_⟩⟩
      rw [valueRead, valueRead, ← take_next hword]
      congr 1
      omega
  · by_cases hlast : s = 100
    · subst hlast
      exact hout (hend ..)
    rcases valueNext_byte closeWord (s - 95) (s + 1) hb with hleaves | ⟨-, hgo⟩
    · exact ⟨23, (hclose (by omega)).trans hleaves, rfl, fun h => by omega⟩
    · exact ⟨s + 1, (hclose (by omega)).trans hgo, decide_eq_true (by omega), fun h => by omega⟩
  · by_cases hdigit : isdigit b = true
    · exact ⟨119, if_pos hdigit, rfl, fun h => by omega⟩
    · exact hout ((if_neg hdigit).trans (hend ..))

/-- The first byte of a value. -/
theorem startNext_byte {k : Bytes} {q : Nat} {b : UInt8} (hq : IsValueStart k q)
    (hb : b ≠ 10 ∧ b ≠ 13) (hblank : isblank b = false) :
    ∃ t, fieldsNext q b = ([.startValue], t) ∧ isValueState t = true ∧
      (81 ≤ t ∧ t ≤ 87 → k.map tolower = transferWord ∧ valueRead t = [tolower b]) := by
  have hnext : ∀ self lf cr first go, startNext self lf cr first go b =
      ([.startValue], if first b then go else 23) := by
    intro self lf cr first go
    rw [startNext, hblank, if_neg Bool.false_ne_true, if_neg hb.1, if_neg hb.2]
    split <;> rfl
  rcases hq with rfl | ⟨rfl, -⟩ | ⟨rfl, hk⟩ | ⟨rfl, -⟩
  · exact ⟨23, hnext 22 20 24 (fun _ => false) 0, rfl, fun h => by omega⟩
  · refine ⟨_, hnext .., ?_, fun h => ?_⟩
    · split <;> rfl
    · split at h <;> omega
  · refine ⟨_, hnext .., ?_, fun h => ⟨hk, ?_⟩⟩
    · split <;> rfl
    · split at h
      · next hc =>
        have hletter : tolower b = 99 := of_decide_eq_true hc
        rw [if_pos hc, hletter]
        decide
      · omega
  · refine ⟨_, hnext .., ?_, fun h => ?_⟩
    · split <;> rfl
    · split at h <;> omega

/-- The carriage return behind a value, unless the machine takes the value for that of a body in
chunks. -/
theorem value_end {s : Nat} (hs : isValueState s = true) (hchunked : s ≠ 87) :
    ∃ acts t u, fieldsNext s 13 = (acts, t) ∧ fieldsNext t 10 = ([], u) ∧
      (acts = [.writeValue] ∨ acts = [.writeContentLen, .writeValue]) ∧ (t = 24 ∨ t = 88) ∧
      IsLineStart u := by
  obtain ⟨hchunks, hclose⟩ := fieldsNext_value (s := s) 13
  have hplain : fieldsNext s 13 = ([.writeValue], 24) →
      ∃ acts t u, fieldsNext s 13 = (acts, t) ∧ fieldsNext t 10 = ([], u) ∧
        (acts = [.writeValue] ∨ acts = [.writeContentLen, .writeValue]) ∧ (t = 24 ∨ t = 88) ∧
        IsLineStart u :=
    fun h => ⟨_, 24, 20, h, rfl, .inl rfl, .inl rfl, .inl rfl⟩
  simp only [isValueState, decide_eq_true_eq] at hs
  rcases hs with rfl | hs | hs | rfl
  · exact hplain rfl
  · exact hplain (hchunks (by omega))
  · by_cases hlast : s = 100
    · subst hlast
      exact ⟨_, 88, 43, rfl, rfl, .inl rfl, .inr rfl, .inr rfl⟩
    · exact hplain (hclose (by omega))
  · exact ⟨_, 24, 20, rfl, rfl, .inr rfl, .inl rfl, .inl rfl⟩

def isWatched (k : Bytes) : Bool :=
  k.map tolower = connectionWord ∨ k.map tolower = transferWord ∨ k.map tolower = lengthWord

/-- What is read back as it stands: a name and a value on one line.  A name that is watched for must have
a value, and the body must not be announced in chunks. -/
def isHeader (e : Bytes × Bytes) : Bool :=
  e.1 ≠ [] ∧ e.1.all istoken = true ∧ e.2.all (fun b => b ≠ 10 && b ≠ 13) = true ∧
    e.2.head?.all (fun b => !isblank b) = true ∧ (isWatched e.1 = true → e.2 ≠ []) ∧
    ¬ (e.1.map tolower = transferWord ∧ e.2.map tolower = chunkedWord)

/-- What `writeValue` makes of a name and a value that stand in the buffer. -/
theorem act_writeValue {k gap v : Bytes} (hk : k ≠ [])
    (hbuffer : buffer = pre ++ k ++ gap ++ v ++ post) (hstart : x.fieldStart = pre.length)
    (hlen : x.fieldLen = k.length) (hmark : x.mark = (pre ++ k ++ gap).length) :
    act buffer ((pre ++ k ++ gap).length + v.length) .writeValue x =
      some { x with data := { x.data with headers := x.data.headers.set k v } } := by
  have hname : tokenString buffer x.fieldStart x.fieldLen = some k := by
    have htoken := tokenString_between pre k (gap ++ (v ++ post))
    rw [tokenLen_of_le (Nat.le_add_right ..), Nat.add_sub_cancel_left] at htoken
    rw [hstart, hlen, hbuffer, ← htoken]
    simp only [List.append_assoc]
  have hvalue : tokenString buffer x.mark (tokenLen x.mark ((pre ++ k ++ gap).length + v.length)) =
      some v := by
    rw [hmark, hbuffer]
    exact tokenString_between (pre ++ k ++ gap) v post
  have hnonzero : x.fieldLen ≠ 0 := by
    rw [hlen]
    exact Nat.ne_of_gt (List.length_pos_of_ne_nil hk)
  simp only [act, if_neg hnonzero, hname, hvalue, Option.bind_some, Option.map_some]

structure Took (k v : Bytes) (x y : HttpResponseParser) : Prop where
  data : y.data = { x.data with headers := x.data.headers.set k v }
  error : y.error = x.error
  chunked : y.chunked = x.chunked

variable (x) in
/-- The value of a field and the line end. -/
theorem takes_value {k gap v : Bytes} {q : Nat} (hq : IsValueStart k q) (he : isHeader (k, v) = true)
    (hbuffer : buffer = pre ++ k ++ gap ++ v ++ post) (hstart : x.fieldStart = pre.length)
    (hlen : x.fieldLen = k.length) :
    ∃ t y, Takes buffer (pre ++ k ++ gap).length q x (v ++ crlf) t y ∧ IsLineStart t ∧ Took k v x y := by
  simp only [isHeader, decide_eq_true_eq] at he
  obtain ⟨hk, -, hall, hblank, hwatched, hchunked⟩ := he
  have hplain : ∀ b ∈ v, b ≠ 10 ∧ b ≠ 13 := by
    intro b hb
    have hbyte := List.all_eq_true.mp hall b hb
    simp only [Bool.and_eq_true, decide_eq_true_eq] at hbyte
    exact hbyte
  have hq' : (20 ≤ q ∧ q ≠ 120) ∧ assigned q = [.fieldStart, .fieldLen] := by
    rcases hq with rfl | ⟨rfl, -⟩ | ⟨rfl, -⟩ | ⟨rfl, -⟩ <;> decide
  have hwrite := act_writeValue (x := { x with mark := (pre ++ k ++ gap).length }) hk hbuffer hstart
    hlen rfl
  cases v with
  | nil =>
    -- only a name that is not watched for has no value
    have hq22 : q = 22 := by
      rcases hq with rfl | ⟨-, heq⟩ | ⟨-, heq⟩ | ⟨-, heq⟩
      · rfl
      · exact absurd rfl (hwatched (decide_eq_true (.inl heq)))
      · exact absurd rfl (hwatched (decide_eq_true (.inr (.inl heq))))
      · exact absurd rfl (hwatched (decide_eq_true (.inr (.inr heq))))
    subst hq22
    refine ⟨20, { x with mark := (pre ++ k ++ gap).length
                         data := { x.data with headers := x.data.headers.set k [] } },
      ?_, .inl rfl, ⟨rfl, rfl, rfl⟩⟩
    refine .cons (.byte [.startValue, .writeValue] (t := 24) rfl ?_ rfl
      (unfinished (by omega)) (by decide)) (.quiet rfl (unfinished (by omega)) (by decide))
    rw [List.length_nil, Nat.add_zero] at hwrite
    simp only [List.foldlM_cons, List.foldlM_nil]
    show (act buffer _ .writeValue _).bind _ = _
    rw [hwrite]
    rfl
  | cons b w =>
    have hb := hplain b List.mem_cons_self
    obtain ⟨s, hnext, hs, hread⟩ := startNext_byte hq hb (by simpa using hblank)
    have hs' : (20 ≤ s ∧ s ≠ 120) ∧ (s ≠ 0 ∧ s ≠ 120) := by
      simp only [isValueState, decide_eq_true_eq] at hs
      omega
    have hfirst : Takes buffer (pre ++ k ++ gap).length q x [b] s
        { x with mark := (pre ++ k ++ gap).length } := by
      refine .byte [.startValue] ?_ rfl rfl (unfinished hs'.2) ?_
      · rw [next_fields b hq'.1, hnext]
      · rw [hq'.2, assigned_value hs]
        decide
    let Holds (v : Bytes) (s : Nat) : Prop := isValueState s = true ∧
      (81 ≤ s ∧ s ≤ 87 → k.map tolower = transferWord ∧ valueRead s = v.map tolower)
    have hstep : ∀ v s, Holds v s → ∀ c ∈ w, ∃ t, (httpclientParser fieldsNext).next s c = ([], t) ∧
        ((httpclientParser fieldsNext).isError t = false ∧
          (httpclientParser fieldsNext).isFinished t = false) ∧ assigned t ⊆ assigned s ∧
        Holds (v ++ [c]) t := by
      rintro v s ⟨hs, hv⟩ c hc
      obtain ⟨t, hnext, ht, hletters⟩ := value_step hs (hplain c (List.mem_cons_of_mem b hc))
      have hstates : (20 ≤ s ∧ s ≠ 120) ∧ (t ≠ 0 ∧ t ≠ 120) := by
        simp only [isValueState, decide_eq_true_eq] at hs ht
        omega
      refine ⟨t, ?_, unfinished hstates.2, ?_, ht, fun h => ?_⟩
      · rw [next_fields c hstates.1, hnext]
      · rw [assigned_value hs, assigned_value ht]
        exact List.Subset.refl _
      · obtain ⟨hinside, heq⟩ := hletters h
        obtain ⟨hname, hbefore⟩ := hv hinside
        refine ⟨hname, ?_⟩
        rw [heq, hbefore, List.map_append]
        rfl
    obtain ⟨u, hrest, hu, hletters⟩ : ∃ u, Takes buffer ((pre ++ k ++ gap).length + 1) s
        { x with mark := (pre ++ k ++ gap).length } w u { x with mark := (pre ++ k ++ gap).length } ∧
        Holds ([b] ++ w) u := Scanner.Passes.within Holds hstep ⟨hs, hread⟩
    have hu87 : u ≠ 87 := by
      rintro rfl
      obtain ⟨hname, heq⟩ := hletters (by omega)
      exact hchunked ⟨hname, heq.symm.trans (by decide)⟩
    obtain ⟨acts, t, t', hcr, hlf, hacts, ht, hline⟩ := value_end hu hu87
    have hu' : 20 ≤ u ∧ u ≠ 120 := by
      simp only [isValueState, decide_eq_true_eq] at hu
      omega
    have hend : ∃ y, Takes buffer ((pre ++ k ++ gap).length + (b :: w).length) u
        { x with mark := (pre ++ k ++ gap).length } [13] t y ∧ Took k (b :: w) x y := by
      have hstore : Scanner.Assigns ResponseAction.registers (assigned u) acts (assigned t) := by
        rw [assigned_value hu]
        rcases ht with rfl | rfl <;> rcases hacts with rfl | rfl <;> decide
      have hbreaks : acts.any (httpclientParser fieldsNext).breaks = false := by
        rcases hacts with rfl | rfl <;> rfl
      have hmoves : ∃ y, acts.foldlM (fun x a => act buffer ((pre ++ k ++ gap).length +
          (b :: w).length) a x) { x with mark := (pre ++ k ++ gap).length } = some y ∧
          Took k (b :: w) x y := by
        rcases hacts with rfl | rfl
        · simp only [List.foldlM_cons, List.foldlM_nil, hwrite]
          exact ⟨_, rfl, rfl, rfl, rfl⟩
        · simp only [List.foldlM_cons, List.foldlM_nil]
          have hlength := act_writeValue (x := { x with
            mark := (pre ++ k ++ gap).length
            contentLen := intOfLong (strtol 10 (buffer.drop (pre ++ k ++ gap).length)) })
            hk hbuffer hstart hlen rfl
          show ∃ y, (act buffer _ .writeValue _).bind _ = some y ∧ _
          rw [hlength]
          exact ⟨_, rfl, rfl, rfl, rfl⟩
      obtain ⟨y, hy, htook⟩ := hmoves
      refine ⟨y, .byte acts ?_ hy hbreaks (unfinished (by omega)) hstore, htook⟩
      rw [next_fields 13 hu', hcr]
    obtain ⟨y, hend, htook⟩ := hend
    refine ⟨t', y, ?_, hline, htook⟩
    have hlast : Takes buffer ((pre ++ k ++ gap).length + (b :: w).length + 1) t y [10] t' y := by
      refine .quiet ?_ (unfinished ?_) ?_
      · rw [next_fields 10 (by omega), hlf]
      · rcases hline with rfl | rfl <;> decide
      · rcases hline with rfl | rfl
        · exact List.nil_subset _
        · exact List.nil_subset _
    exact (hfirst.cons hrest).append (hend.cons hlast)

variable (x) in
/-- The line of a header, with its line end. -/
theorem takes_header {e : Bytes × Bytes} {s : Nat} (hs : IsLineStart s)
    (hbuffer : buffer = pre ++ (headerLine e ++ crlf) ++ post) (he : isHeader e = true) :
    ∃ t y, Takes buffer pre.length s x (headerLine e ++ crlf) t y ∧ IsLineStart t ∧ Took e.1 e.2 x y := by
  obtain ⟨k, v⟩ := e
  have hk : k ≠ [] ∧ k.all istoken = true := by
    simp only [isHeader, decide_eq_true_eq] at he
    exact ⟨he.1, he.2.1⟩
  obtain ⟨q, hname, hq⟩ := takes_name buffer pre x hs hk.1 hk.2
  -- the blank behind the colon
  have hblank : Takes buffer (pre.length + (k ++ [58]).length) q
      { x with fieldStart := pre.length, fieldLen := k.length } [32] q
      { x with fieldStart := pre.length, fieldLen := k.length
               mark := pre.length + (k ++ [58]).length } := by
    rcases hq with rfl | ⟨rfl, -⟩ | ⟨rfl, -⟩ | ⟨rfl, -⟩ <;>
      exact .byte [.startValue] rfl rfl rfl (unfinished (by omega)) (by decide)
  have hsplit : buffer = pre ++ k ++ [58, 32] ++ v ++ (crlf ++ post) := by
    rw [hbuffer]
    simp [headerLine, crlf, ascii]
  obtain ⟨t, y, hvalue, ht, htook⟩ := takes_value
    { x with fieldStart := pre.length, fieldLen := k.length
             mark := pre.length + (k ++ [58]).length } hq he hsplit rfl rfl
  have hgap : (pre ++ k ++ [58, 32]).length = pre.length + (k ++ [58]).length + 1 := by
    simp only [List.length_append, List.length_cons, List.length_nil]
    omega
  rw [hgap] at hvalue
  have hline : headerLine (k, v) ++ crlf = (k ++ [58]) ++ (32 :: (v ++ crlf)) := by
    simp [headerLine, crlf, ascii]
  rw [hline]
  exact ⟨t, y, hname.append (hblank.cons hvalue), ht, ⟨htook.data, htook.error, htook.chunked⟩⟩

variable (x) in
/-- The lines of some headers. -/
theorem takes_headers {es : HeaderMap} {s : Nat} (hs : IsLineStart s)
    (hbuffer : buffer = pre ++ (es.map headerLine).flatMap (fun l => l ++ crlf) ++ post)
    (hes : ∀ e ∈ es, isHeader e = true) :
    ∃ t y, Takes buffer pre.length s x ((es.map headerLine).flatMap fun l => l ++ crlf) t y ∧
      IsLineStart t ∧ y.data = { x.data with headers := x.data.headers.setAll es } ∧
      y.error = x.error ∧ y.chunked = x.chunked := by
  induction es generalizing pre x s with
  | nil => exact ⟨s, x, .nil, hs, rfl, rfl, rfl⟩
  | cons e es ih =>
    rw [List.map_cons, List.flatMap_cons] at hbuffer ⊢
    have hfirst : buffer = pre ++ (headerLine e ++ crlf) ++
        ((es.map headerLine).flatMap (fun l => l ++ crlf) ++ post) := by
      rw [hbuffer]
      simp only [List.append_assoc]
    have hrest : buffer = pre ++ (headerLine e ++ crlf) ++
        (es.map headerLine).flatMap (fun l => l ++ crlf) ++ post := by
      rw [hfirst]
      simp only [List.append_assoc]
    obtain ⟨t, y, hy, ht, htook⟩ := takes_header x hs hfirst (hes e List.mem_cons_self)
    obtain ⟨u, z, hz, hu, hdata, herror, hchunked⟩ := ih y ht hrest
      fun e' he' => hes e' (List.mem_cons_of_mem _ he')
    rw [List.length_append] at hz
    refine ⟨u, z, hy.append hz, hu, ?_, herror.trans htook.error, hchunked.trans htook.chunked⟩
    rw [hdata, htook.data, HeaderMap.setAll_cons]

/-! ## The status line -/

/-- A digit of a number. -/
theorem takes_digits {p s : Nat} {w : Bytes} (hw : w.all isdigit = true) (hs : s ≠ 0 ∧ s ≠ 120)
    (hnext : ∀ b, isdigit b = true → (httpclientParser fieldsNext).next s b = ([], s)) :
    Takes buffer p s x w s x :=
  .loop (fun b hb => hnext b (List.all_eq_true.mp hw b hb)) (unfinished hs)

/-- The version and the blank behind it. -/
theorem takes_version {version : UInt8} (hversion : version = 0x11 ∨ version = 0x10)
    (hbuffer : buffer = pre ++ versionText version ++ (32 :: post)) :
    Takes buffer pre.length 1 x (versionText version ++ [32]) 16
      { x with mark := pre.length, data := { x.data with version } } := by
  have hbyte : ∀ q s b t, httpclientNext fieldsNext s b = ([], t) → t ≠ 0 ∧ t ≠ 120 →
      assigned t ⊆ assigned s → Takes buffer q s { x with mark := pre.length } [b] t
        { x with mark := pre.length } :=
    fun q s b t hnext ht hassigned => .quiet hnext (unfinished ht) hassigned
  have hfirst : Takes buffer pre.length 1 x [72] 8 { x with mark := pre.length } :=
    .byte [.mark] rfl rfl rfl (unfinished (by omega)) (by decide)
  have hrest : Takes buffer (pre.length + 1) 8 { x with mark := pre.length }
      (versionText version).tail 15 { x with mark := pre.length } := by
    rcases hversion with rfl | rfl
    all_goals
      refine .cons (hbyte _ 8 84 9 rfl (by omega) (by decide)) ?_
      refine .cons (hbyte _ 9 84 10 rfl (by omega) (by decide)) ?_
      refine .cons (hbyte _ 10 80 11 rfl (by omega) (by decide)) ?_
      refine .cons (hbyte _ 11 47 12 rfl (by omega) (by decide)) ?_
      refine .cons (hbyte _ 12 49 13 rfl (by omega) (by decide)) ?_
      refine .cons (hbyte _ 13 46 14 rfl (by omega) (by decide)) ?_
    · exact hbyte _ 14 49 15 rfl (by omega) (by decide)
    · exact hbyte _ 14 48 15 rfl (by omega) (by decide)
  have hlength : (versionText version).length = 8 := by rcases hversion with rfl | rfl <;> decide
  have hline : versionText version = 72 :: (versionText version).tail := by
    rcases hversion with rfl | rfl <;> decide
  have htoken := hfirst.cons hrest
  rw [← hline] at htoken
  have hof : versionOf (buffer.drop pre.length) (tokenLen pre.length (pre.length + 8)) =
      some version := by
    have htake : (buffer.drop pre.length).take 8 = (versionText version).take 8 := by
      rw [hbuffer, List.append_assoc, List.drop_left, ← hlength, List.take_left, List.take_length]
    rw [tokenLen_of_le (Nat.le_add_right ..), Nat.add_sub_cancel_left, versionOf_congr htake]
    rcases hversion with rfl | rfl <;> decide
  refine htoken.append (.byte [.httpVersion] rfl ?_ rfl (unfinished (by omega)) (by decide))
  rw [hlength]
  simp only [List.foldlM_cons, List.foldlM_nil, act, hof]
  rfl

/-- The status and the blank behind it. -/
theorem takes_status {n : Nat} (hn : n < 2 ^ 31) (hbuffer : buffer = pre ++ decimal n ++ (32 :: post)) :
    Takes buffer pre.length 16 x (decimal n ++ [32]) 18
      { x with mark := pre.length, data := { x.data with status := n } } := by
  have hall := decimal_all n
  have hne := decimal_ne_nil n
  have hstatus : atoi (buffer.drop pre.length) = n := by
    rw [hbuffer, List.append_assoc, List.drop_left, atoi_digits hne hall, leadingDigits_decimal,
      intOfLong_of_lt hn]
    intro c hc
    rw [← Option.some.inj hc]
    rfl
  rcases List.exists_cons_of_ne_nil hne with ⟨b, w, heq⟩
  rw [heq, List.all_cons, Bool.and_eq_true] at hall
  rw [heq]
  have hfirst : Takes buffer pre.length 16 x [b] 17 { x with mark := pre.length } := by
    refine .byte [.mark] ?_ rfl rfl (unfinished (by omega)) (by decide)
    show httpclientNext fieldsNext 16 b = _
    simp only [httpclientNext, hall.1, if_true]
  have hrest : Takes buffer (pre.length + 1) 17 { x with mark := pre.length } w 17
      { x with mark := pre.length } := by
    refine takes_digits hall.2 (by omega) fun c hc => ?_
    have h32 : c ≠ 32 := by
      rintro rfl
      exact absurd hc (by decide)
    show httpclientNext fieldsNext 17 c = _
    simp only [httpclientNext, h32, hc, if_false, if_true]
  refine (hfirst.cons hrest).append (.byte [.statusCode] rfl ?_ rfl (unfinished (by omega))
    (by decide))
  simp only [List.foldlM_cons, List.foldlM_nil, act, hstatus]
  rfl

/-- The reason and the line end. -/
theorem takes_reason {reason : Bytes} (hne : reason ≠ [])
    (hreason : reason.all (fun b => b ≠ 10 && b ≠ 13) = true)
    (hbuffer : buffer = pre ++ reason ++ post) :
    Takes buffer pre.length 18 x (reason ++ crlf) 20
      { x with mark := pre.length, data := { x.data with reason } } := by
  have hplain : ∀ b ∈ reason, b ≠ 10 ∧ b ≠ 13 := by
    intro b hb
    have hbyte := List.all_eq_true.mp hreason b hb
    simp only [Bool.and_eq_true, decide_eq_true_eq] at hbyte
    exact hbyte
  rcases List.exists_cons_of_ne_nil hne with ⟨b, w, rfl⟩
  have hfirst : Takes buffer pre.length 18 x [b] 19 { x with mark := pre.length } := by
    refine .byte [.mark] ?_ rfl rfl (unfinished (by omega)) (by decide)
    show httpclientNext fieldsNext 18 b = _
    simp only [httpclientNext, (hplain b List.mem_cons_self).1, if_false]
  have hrest : Takes buffer (pre.length + 1) 19 { x with mark := pre.length } w 19
      { x with mark := pre.length } := by
    refine .loop (fun c hc => ?_) (unfinished (by omega))
    obtain ⟨h10, h13⟩ := hplain c (List.mem_cons_of_mem b hc)
    show httpclientNext fieldsNext 19 c = _
    simp only [httpclientNext, h10, h13, if_false]
  have hcr : Takes buffer (pre.length + (b :: w).length) 19 { x with mark := pre.length } [13] 24
      { x with mark := pre.length, data := { x.data with reason := b :: w } } := by
    refine .byte [.reasonPhrase] rfl ?_ rfl (unfinished (by omega)) (by decide)
    simp only [List.foldlM_cons, List.foldlM_nil, act, hbuffer, tokenString_between, Option.map_some]
    rfl
  exact (hfirst.cons hrest).append (hcr.cons (.quiet rfl (unfinished (by omega)) (by decide)))

end HttpResponseParser

end Azure
