import Azure.Http.Receive

/-!
# What a size line writes

The machine that parses the head of a response also parses the lines in front of the chunks, with the same
callbacks.  An extension of a chunk is stored as a header, and a status line is taken as well.
-/

namespace Azure

open Reasoning

/-! ## Writes -/

inductive HeadWrite where
  | header (field value : Bytes)
  | status (v : Int)
  | reason (v : Bytes)
  | version (v : UInt8)
  deriving DecidableEq, Repr

def HeadWrite.apply (data : HttpResponse) : HeadWrite → HttpResponse
  | header field value => { data with headers := data.headers.set field value }
  | status v => { data with status := v }
  | reason v => { data with reason := v }
  | version v => { data with version := v }

structure LineScan where
  mark : Nat := 0
  fieldStart : Nat := 0
  fieldLen : Nat := 0
  writes : List HeadWrite := []

namespace LineScan

def write (x : LineScan) (w : HeadWrite) : LineScan := { x with writes := x.writes ++ [w] }

/-- An action at the position `fpc` of the buffer; `none` when a name is said to end behind the buffer. -/
def act (buffer : Bytes) (fpc : Nat) (a : ResponseAction) (x : LineScan) : Option LineScan :=
  match a with
  | .mark | .startValue => some { x with mark := fpc }
  | .startField => some { x with fieldStart := fpc }
  | .writeField => some { x with fieldLen := tokenLen x.fieldStart fpc }
  | .writeValue =>
    if x.fieldLen = 0 then some x
    else
      (tokenString buffer x.fieldStart x.fieldLen).bind fun field =>
        (tokenString buffer x.mark (tokenLen x.mark fpc)).map fun value => x.write (.header field value)
  | .reasonPhrase =>
    (tokenString buffer x.mark (tokenLen x.mark fpc)).map fun v => x.write (.reason v)
  | .statusCode => some (x.write (.status (atoi (buffer.drop x.mark))))
  | .httpVersion =>
    some ((versionOf (buffer.drop x.mark) (tokenLen x.mark fpc)).elim x fun v => x.write (.version v))
  | .writeContentLen | .writeConnectionClose | .chunkSize | .transChunked | .done => some x

end LineScan

/-- What a call of `execute` for a size line writes, with these data in the buffer. -/
def lineWrites (M : Scanner Nat ResponseAction) (data : Bytes) : Option (List HeadWrite) :=
  (M.scan (LineScan.act data) 0 1 {} data).map fun r => r.2.2.writes

namespace HttpResponseParser

/-- A parser that began with `data` has come to these positions and has made these writes. -/
structure Writes (data : HttpResponse) (x : HttpResponseParser) (y : LineScan) : Prop where
  mark : x.mark = y.mark
  fieldStart : x.fieldStart = y.fieldStart
  fieldLen : x.fieldLen = y.fieldLen
  data : x.data = y.writes.foldl HeadWrite.apply data

theorem Writes.write {data : HttpResponse} {x : HttpResponseParser} {y : LineScan}
    (h : Writes data x y) (w : HeadWrite) :
    Writes data { x with data := w.apply x.data } (y.write w) where
  mark := h.mark
  fieldStart := h.fieldStart
  fieldLen := h.fieldLen
  data := by rw [LineScan.write, List.foldl_append, ← h.data]; rfl

theorem act_writes (buffer : Bytes) (fpc : Nat) (a : ResponseAction) {data : HttpResponse}
    {x : HttpResponseParser} {y : LineScan} (h : Writes data x y) :
    Option.Rel (Writes data) (act buffer fpc a x) (LineScan.act buffer fpc a y) := by
  obtain ⟨hmark, hstart, hlen, hdata⟩ := h
  cases a with
  | mark | startValue => exact .some ⟨rfl, hstart, hlen, hdata⟩
  | startField => exact .some ⟨hmark, rfl, hlen, hdata⟩
  | writeField => exact .some ⟨hmark, hstart, by rw [hstart], hdata⟩
  | writeContentLen | chunkSize | transChunked | writeConnectionClose | done =>
    exact .some ⟨hmark, hstart, hlen, hdata⟩
  | writeValue =>
    rw [act, LineScan.act, ← hlen, ← hstart, ← hmark]
    by_cases hzero : x.fieldLen = 0
    · rw [if_pos hzero, if_pos hzero]
      exact .some ⟨hmark, hstart, hlen, hdata⟩
    · rw [if_neg hzero, if_neg hzero]
      cases tokenString buffer x.fieldStart x.fieldLen with
      | none => exact .none
      | some field =>
        rw [Option.bind_some, Option.bind_some]
        cases tokenString buffer x.mark (tokenLen x.mark fpc) with
        | none => exact .none
        | some value => exact .some (Writes.write ⟨hmark, hstart, hlen, hdata⟩ (.header field value))
  | reasonPhrase =>
    rw [act, LineScan.act, ← hmark]
    cases tokenString buffer x.mark (tokenLen x.mark fpc) with
    | none => exact .none
    | some v => exact .some (Writes.write ⟨hmark, hstart, hlen, hdata⟩ (.reason v))
  | statusCode =>
    rw [act, LineScan.act, ← hmark]
    exact .some (Writes.write ⟨hmark, hstart, hlen, hdata⟩ (.status _))
  | httpVersion =>
    rw [act, LineScan.act, ← hmark]
    cases versionOf (buffer.drop x.mark) (tokenLen x.mark fpc) with
    | none => exact .some ⟨hmark, hstart, hlen, hdata⟩
    | some v => exact .some (Writes.write ⟨hmark, hstart, hlen, hdata⟩ (.version v))

/-- A call of `execute` for a size line writes what `lineWrites` says. -/
theorem execute_writes (M : Scanner Nat ResponseAction) (x : HttpResponseParser) (data : Bytes) :
    Option.Rel (fun r ws => r.2.data = ws.foldl HeadWrite.apply x.data) (x.execute M true data)
      (lineWrites M data) := by
  have hscan := Scanner.scan_related (M := M) (Writes x.data) (fun p a x y h => act_writes data p a h)
    (w := data) (p := 0) (s := 1) (x := x.init) (y := {}) ⟨rfl, rfl, rfl, rfl⟩
  rw [execute, if_pos rfl, lineWrites]
  show Option.Rel _ (Option.map _ (M.scan (act data) 0 1 x.init data)) _
  revert hscan
  cases M.scan (act data) 0 1 x.init data <;>
    cases M.scan (LineScan.act data) 0 1 {} data <;> intro hscan
  · exact .none
  · cases hscan
  · cases hscan
  · cases hscan with
    | some h => exact .some h.2.2.data

end HttpResponseParser

/-! ## Extensions -/

/-- Where the text of the extensions is: behind a semicolon, in a name, behind the sign between a name and
a value, in a value. -/
inductive Extending where
  | start
  | name (n : Bytes)
  | eq (n : Bytes)
  | value (n v : Bytes)

namespace Extending

/-- The extensions that the text says, each of them closed by a semicolon or by the begin of a line end.
A name without a value has the empty one. -/
def extensions : Extending → Bytes → List (Bytes × Bytes)
  | _, [] => []
  | start, b :: bs => if istoken b then extensions (name [b]) bs else []
  | name n, b :: bs =>
    if b = 10 ∨ b = 13 then [(n, [])]
    else if b = 59 then (n, []) :: extensions start bs
    else if b = 61 then extensions (eq n) bs
    else if istoken b then extensions (name (n ++ [b])) bs
    else []
  | eq n, b :: bs => if istoken b then extensions (value n [b]) bs else []
  | value n v, b :: bs =>
    if b = 10 ∨ b = 13 then [(n, v)]
    else if b = 59 then (n, v) :: extensions start bs
    else if istoken b then extensions (value n (v ++ [b])) bs
    else []

def state : Extending → Nat
  | start => 4
  | name _ => 5
  | eq _ => 6
  | value _ _ => 7

end Extending

def extensionsBehind : Bytes → List (Bytes × Bytes)
  | [] => []
  | b :: bs =>
    if b = 59 then Extending.start.extensions bs
    else if isxdigit b then extensionsBehind bs
    else []

def extensionsOf : Bytes → List (Bytes × Bytes)
  | [] => []
  | b :: bs => if isxdigit b then extensionsBehind bs else []

namespace Extending

variable {fields : Nat → UInt8 → List ResponseAction × Nat} {buffer w : Bytes} {p : Nat} {x : LineScan}

def Placed (buffer : Bytes) (p : Nat) (x : LineScan) : Extending → Prop
  | start => True
  | name n => n ≠ [] ∧ x.fieldStart + n.length = p ∧ (buffer.drop x.fieldStart).take n.length = n
  | eq n => n ≠ [] ∧ x.fieldLen = n.length ∧ tokenString buffer x.fieldStart x.fieldLen = some n
  | value n v => n ≠ [] ∧ x.fieldLen = n.length ∧ tokenString buffer x.fieldStart x.fieldLen = some n ∧
      x.mark + v.length = p ∧ (buffer.drop x.mark).take v.length = v

/-- One more byte of a token. -/
theorem take_succ {b : UInt8} {start : Nat} {v : Bytes} (hp : start + v.length = p)
    (hv : (buffer.drop start).take v.length = v) (hw : buffer.drop p = b :: w) :
    (buffer.drop start).take (v ++ [b]).length = v ++ [b] := by
  have hnext : (buffer.drop start).drop v.length = b :: w := by rw [List.drop_drop, hp, hw]
  rw [List.length_append, List.take_add, hv, hnext]
  rfl

/-- A token that ends where the scan stands. -/
theorem tokenString_here {start : Nat} {v : Bytes} (hp : start + v.length = p)
    (hv : (buffer.drop start).take v.length = v) (hlen : p ≤ buffer.length) :
    tokenString buffer start (tokenLen start p) = some v := by
  have hstart : start ≤ p := by omega
  have hsize : p - start = v.length := by omega
  rw [tokenLen, if_pos hstart, hsize, tokenString, if_pos (by omega), hv]

theorem length_of_drop {b : UInt8} (hw : buffer.drop p = b :: w) :
    p < buffer.length ∧ buffer.drop (p + 1) = w := by
  constructor
  · have hlen := congrArg List.length hw
    rw [List.length_drop, List.length_cons] at hlen
    omega
  · rw [← List.tail_drop, hw]
    rfl

/-- The value of an extension is stored. -/
theorem act_writeValue {n v : Bytes} (hn : n ≠ []) (hlen : x.fieldLen = n.length)
    (hname : tokenString buffer x.fieldStart x.fieldLen = some n)
    (hvalue : tokenString buffer x.mark (tokenLen x.mark p) = some v) :
    LineScan.act buffer p .writeValue x = some (x.write (.header n v)) := by
  have hzero : x.fieldLen ≠ 0 := by
    rw [hlen]
    exact fun hnil => hn (List.eq_nil_of_length_eq_zero hnil)
  rw [LineScan.act, if_neg hzero, hname, Option.bind_some, hvalue]
  rfl

/-- The name of an extension that has no value, and its value. -/
theorem act_name {n : Bytes} (hn : n ≠ []) (hp : x.fieldStart + n.length = p)
    (hname : (buffer.drop x.fieldStart).take n.length = n) (hlen : p ≤ buffer.length) :
    Placed buffer (p + 1) { x with fieldLen := tokenLen x.fieldStart p, mark := p } (.eq n) ∧
      LineScan.act buffer p .writeValue { x with fieldLen := tokenLen x.fieldStart p, mark := p } =
        some ({ x with fieldLen := tokenLen x.fieldStart p, mark := p }.write (.header n [])) := by
  have hstart : x.fieldStart ≤ p := by omega
  have hsize : tokenLen x.fieldStart p = n.length := by
    rw [tokenLen, if_pos hstart]
    omega
  have hfield := tokenString_here hp hname hlen
  refine ⟨⟨hn, hsize, hfield⟩, act_writeValue hn hsize hfield ?_⟩
  exact tokenString_here (v := []) rfl rfl hlen

/-- Behind the carriage return nothing is written. -/
theorem scan_return (fields : Nat → UInt8 → List ResponseAction × Nat) (buffer w : Bytes) (p : Nat)
    (x : LineScan) :
    ∃ q t, (httpclientParser fields).scan (LineScan.act buffer) p 3 x w = some (q, t, x) := by
  cases w with
  | nil => exact ⟨p, 3, rfl⟩
  | cons b w =>
    rw [Scanner.scan]
    by_cases hb : b = 10
    · subst hb
      exact ⟨p + 1, 120, rfl⟩
    · have hnext : (httpclientParser fields).next 3 b = ([], 0) := if_neg hb
      rw [hnext]
      exact ⟨p, 0, rfl⟩

def Closes (b : UInt8) : Prop := b = 10 ∨ b = 13 ∨ b = 59

instance (b : UInt8) : Decidable (Closes b) := inferInstanceAs (Decidable (_ ∨ _ ∨ _))

theorem ne_of_not_closes {b : UInt8} (hb : ¬ Closes b) : b ≠ 10 ∧ b ≠ 13 ∧ b ≠ 59 := by
  rw [Closes, not_or, not_or] at hb
  exact hb

def later (b : UInt8) (w : Bytes) : List (Bytes × Bytes) := if b = 59 then start.extensions w else []

theorem extensions_name {b : UInt8} (hb : Closes b) (n w : Bytes) :
    (name n).extensions (b :: w) = (n, []) :: later b w := by
  rcases hb with rfl | rfl | rfl <;> rfl

theorem extensions_value {b : UInt8} (hb : Closes b) (n v w : Bytes) :
    (value n v).extensions (b :: w) = (n, v) :: later b w := by
  rcases hb with rfl | rfl | rfl <;> rfl

/-- A scan that writes an extension at the byte that closes it. -/
theorem scan_closed (fields : Nat → UInt8 → List ResponseAction × Nat) {b : UInt8} (hb : Closes b)
    {s : Nat} {acts : List ResponseAction} {y : LineScan}
    (hlf : (httpclientParser fields).next s 10 = (acts ++ [.done], 120))
    (hcr : (httpclientParser fields).next s 13 = (acts, 3))
    (hsemi : (httpclientParser fields).next s 59 = (acts, 4)) (hdone : .done ∉ acts)
    (hacts : acts.foldlM (fun x a => LineScan.act buffer p a x) x = some y)
    (hlater : ∃ q t z, (httpclientParser fields).scan (LineScan.act buffer) (p + 1) 4 y w = some (q, t, z) ∧
      z.writes = y.writes ++ (start.extensions w).map fun f => .header f.1 f.2) :
    ∃ q t z, (httpclientParser fields).scan (LineScan.act buffer) p s x (b :: w) = some (q, t, z) ∧
      z.writes = y.writes ++ (later b w).map fun f => .header f.1 f.2 := by
  have hbreaks : acts.any (httpclientParser fields).breaks = false := by
    rw [List.any_eq_false]
    intro a ha hbreak
    exact hdone (of_decide_eq_true hbreak ▸ ha)
  rcases hb with rfl | rfl | rfl
  · have hlast : (acts ++ [ResponseAction.done]).foldlM (fun x a => LineScan.act buffer p a x) x = some y := by
      rw [List.foldlM_append, hacts]
      rfl
    have hend : (acts ++ [ResponseAction.done]).any (httpclientParser fields).breaks = true := by
      rw [List.any_append, Bool.or_eq_true]
      exact Or.inr rfl
    refine ⟨p + 1, 120, y, ?_, (List.append_nil _).symm⟩
    rw [Scanner.scan, hlf]
    dsimp only
    rw [hlast, Option.bind_some, if_pos hend]
    rfl
  · obtain ⟨q, t, hscan⟩ := scan_return fields buffer w (p + 1) y
    refine ⟨q, t, y, ?_, (List.append_nil _).symm⟩
    rw [Scanner.scan, hcr]
    dsimp only
    rw [hacts, Option.bind_some, hbreaks]
    exact hscan
  · obtain ⟨q, t, z, hscan, hz⟩ := hlater
    refine ⟨q, t, z, ?_, hz⟩
    rw [Scanner.scan, hsemi]
    dsimp only
    rw [hacts, Option.bind_some, hbreaks]
    exact hscan

/-- A scan in the extensions writes what their text says. -/
theorem scan_extensions (fields : Nat → UInt8 → List ResponseAction × Nat) (e : Extending)
    (hw : buffer.drop p = w) (h : Placed buffer p x e) :
    ∃ q t y, (httpclientParser fields).scan (LineScan.act buffer) p e.state x w = some (q, t, y) ∧
      y.writes = x.writes ++ (e.extensions w).map fun f => .header f.1 f.2 := by
  induction w generalizing p x e with
  | nil => exact ⟨p, e.state, x, rfl, by cases e <;> simp [extensions]⟩
  | cons b w ih =>
    obtain ⟨hp, hrest⟩ := length_of_drop hw
    cases e with
    | start =>
      rw [state, Scanner.scan]
      by_cases hb : istoken b = true
      · have hnext : (httpclientParser fields).next 4 b = ([.startField], 5) := if_pos hb
        have hplaced : Placed buffer (p + 1) { x with fieldStart := p } (.name [b]) :=
          ⟨List.cons_ne_nil b [], rfl, by rw [hw]; rfl⟩
        rw [hnext, extensions, if_pos hb]
        exact ih (.name [b]) hrest hplaced
      · have hnext : (httpclientParser fields).next 4 b = ([], 0) := if_neg hb
        rw [hnext, extensions, if_neg hb]
        exact ⟨p, 0, x, rfl, by simp⟩
    | name n =>
      -- a name that is closed is a field with the empty value
      obtain ⟨hn, hplace, hname⟩ := h
      obtain ⟨hnamed, hwrite⟩ := act_name hn hplace hname (Nat.le_of_lt hp)
      by_cases hb : Closes b
      · have hacts : [ResponseAction.writeField, .startValue, .writeValue].foldlM
            (fun x a => LineScan.act buffer p a x) x = some _ :=
          (Option.bind_fun_some _).trans hwrite
        obtain ⟨q, t, y, hscan, hy⟩ := scan_closed fields hb (s := 5) rfl rfl rfl (by decide) hacts
          (ih .start hrest trivial)
        refine ⟨q, t, y, hscan, ?_⟩
        rw [hy, extensions_name hb, LineScan.write, List.append_assoc]
        rfl
      obtain ⟨hlf, hcr, hsemi⟩ := ne_of_not_closes hb
      have hline : ¬ (b = 10 ∨ b = 13) := not_or.mpr ⟨hlf, hcr⟩
      rw [state, Scanner.scan, extensions, if_neg hline, if_neg hsemi]
      by_cases hequals : b = 61
      · subst hequals
        exact ih (.eq n) hrest hnamed
      have hnext : (httpclientParser fields).next 5 b = if istoken b then ([], 5) else ([], 0) := by
        show httpclientNext fields 5 b = _
        rw [httpclientNext, if_neg hlf, if_neg hcr, if_neg hsemi, if_neg hequals]
      rw [if_neg hequals, hnext]
      by_cases htoken : istoken b = true
      · rw [if_pos htoken, if_pos htoken]
        refine ih (.name (n ++ [b])) hrest ⟨by simp, ?_, take_succ hplace hname hw⟩
        rw [List.length_append, ← Nat.add_assoc, hplace]
        rfl
      · rw [if_neg htoken, if_neg htoken]
        exact ⟨p, 0, x, rfl, by simp⟩
    | eq n =>
      obtain ⟨hn, hlen, hname⟩ := h
      rw [state, Scanner.scan]
      by_cases hb : istoken b = true
      · have hnext : (httpclientParser fields).next 6 b = ([.startValue], 7) := if_pos hb
        have hplaced : Placed buffer (p + 1) { x with mark := p } (.value n [b]) :=
          ⟨hn, hlen, hname, rfl, by rw [hw]; rfl⟩
        rw [hnext, extensions, if_pos hb]
        exact ih (.value n [b]) hrest hplaced
      · have hnext : (httpclientParser fields).next 6 b = ([], 0) := if_neg hb
        rw [hnext, extensions, if_neg hb]
        exact ⟨p, 0, x, rfl, by simp⟩
    | value n v =>
      -- the positions of the name are kept while the value is read
      obtain ⟨hn, hlen, hname, hplace, hvalue⟩ := h
      have hwrite := act_writeValue hn hlen hname (tokenString_here hplace hvalue (Nat.le_of_lt hp))
      by_cases hb : Closes b
      · have hacts : [ResponseAction.writeValue].foldlM (fun x a => LineScan.act buffer p a x) x = some _ :=
          (Option.bind_fun_some _).trans hwrite
        obtain ⟨q, t, y, hscan, hy⟩ := scan_closed fields hb (s := 7) rfl rfl rfl (by decide) hacts
          (ih .start hrest trivial)
        refine ⟨q, t, y, hscan, ?_⟩
        rw [hy, extensions_value hb, LineScan.write, List.append_assoc]
        rfl
      obtain ⟨hlf, hcr, hsemi⟩ := ne_of_not_closes hb
      have hline : ¬ (b = 10 ∨ b = 13) := not_or.mpr ⟨hlf, hcr⟩
      have hnext : (httpclientParser fields).next 7 b = if istoken b then ([], 7) else ([], 0) := by
        show httpclientNext fields 7 b = _
        rw [httpclientNext, if_neg hlf, if_neg hcr, if_neg hsemi]
      rw [state, Scanner.scan, extensions, if_neg hline, if_neg hsemi, hnext]
      by_cases htoken : istoken b = true
      · rw [if_pos htoken, if_pos htoken]
        refine ih (.value n (v ++ [b])) hrest ⟨hn, hlen, hname, ?_, take_succ hplace hvalue hw⟩
        rw [List.length_append, ← Nat.add_assoc, hplace]
        rfl
      · rw [if_neg htoken, if_neg htoken]
        exact ⟨p, 0, x, rfl, by simp⟩

/-- A scan in the digits. -/
theorem scan_digits (fields : Nat → UInt8 → List ResponseAction × Nat) (hw : buffer.drop p = w)
    (x : LineScan) :
    ∃ q t y, (httpclientParser fields).scan (LineScan.act buffer) p 2 x w = some (q, t, y) ∧
      y.writes = x.writes ++ (extensionsBehind w).map fun f => .header f.1 f.2 := by
  induction w generalizing p with
  | nil => exact ⟨p, 2, x, rfl, by simp [extensionsBehind]⟩
  | cons b w ih =>
    obtain ⟨-, hrest⟩ := length_of_drop hw
    by_cases hlf : b = 10
    · subst hlf
      exact ⟨p + 1, 120, x, rfl, (List.append_nil _).symm⟩
    by_cases hcr : b = 13
    · subst hcr
      obtain ⟨q, t, hscan⟩ := scan_return fields buffer w (p + 1) x
      exact ⟨q, t, x, hscan, (List.append_nil _).symm⟩
    by_cases hsemi : b = 59
    · subst hsemi
      exact scan_extensions fields .start hrest trivial
    have hnext : (httpclientParser fields).next 2 b = if isxdigit b then ([], 2) else ([], 0) := by
      show httpclientNext fields 2 b = _
      rw [httpclientNext, if_neg hlf, if_neg hcr, if_neg hsemi]
    rw [Scanner.scan, hnext, extensionsBehind, if_neg hsemi]
    by_cases hb : isxdigit b = true
    · rw [if_pos hb, if_pos hb]
      exact ih hrest
    · rw [if_neg hb, if_neg hb]
      exact ⟨p, 0, x, rfl, by simp⟩

end Extending

/-- What a size line writes are its extensions; a status line begins with another byte. -/
theorem lineWrites_eq (fields : Nat → UInt8 → List ResponseAction × Nat) {data : Bytes}
    (h : data.head? ≠ some 72) :
    lineWrites (httpclientParser fields) data =
      some ((extensionsOf data).map fun f => .header f.1 f.2) := by
  cases data with
  | nil => rfl
  | cons b data =>
    have hstatus : b ≠ 72 := fun hb => h (congrArg some hb)
    have hnext : (httpclientParser fields).next 1 b =
        if isxdigit b then ([.mark], 2) else ([], 0) := if_neg hstatus
    rw [lineWrites, Scanner.scan, hnext, extensionsOf]
    by_cases hb : isxdigit b = true
    · rw [if_pos hb, if_pos hb]
      have hrest : (b :: data).drop 1 = data := rfl
      obtain ⟨q, t, y, hscan, hy⟩ := Extending.scan_digits fields hrest { mark := 0 }
      show Option.map _ ((httpclientParser fields).scan _ 1 2 ({ mark := 0 } : LineScan) data) = _
      rw [hscan, Option.map_some, hy]
      rfl
    · rw [if_neg hb, if_neg hb]
      rfl

example : extensionsOf (ascii "5;foo=bar;baz\r\n".toList) =
    [(ascii "foo".toList, ascii "bar".toList), (ascii "baz".toList, [])] := by decide

end Azure
