import Azure.ByteArray.Buffers

/-!
# The string codec and what readers make of the unread bytes

A string is a length and its bytes.  The typed readers are functions of the bytes that are left to
read: each takes some of them and returns a value, or throws when they run out.  `Reads` says which
function a call computes, also when it throws.
-/

namespace Azure

open Reasoning

namespace ByteArray

/-! ## The string codec -/

/-- `std::string buf; buf.resize(len); read(&buf[0], len)`.  Behind `maxSize`, which is
`std::string::max_size()`, `resize` throws a `std::length_error`. -/
def readBytes (maxSize len : Nat) : Call (List UInt8) :=
  if len > maxSize then fun b => some (.error "basic_string::_M_replace_aux", b) else read len

def writeStringF16 (host : Endian) (garbage garbage' : Garbage) (value : List UInt8)
    (b : ByteArray) : Option ByteArray := do
  let b ← writeFint16 host garbage (BitVec.ofNat 16 value.length) b
  b.write garbage' value

def writeStringF32 (host : Endian) (garbage garbage' : Garbage) (value : List UInt8)
    (b : ByteArray) : Option ByteArray := do
  let b ← writeFint32 host garbage (BitVec.ofNat 32 value.length) b
  b.write garbage' value

def writeStringF64 (host : Endian) (garbage garbage' : Garbage) (value : List UInt8)
    (b : ByteArray) : Option ByteArray := do
  let b ← writeFint64 host garbage (BitVec.ofNat 64 value.length) b
  b.write garbage' value

/-- The length goes through `writeFint64` here too. -/
def writeStringVint (host : Endian) (garbage garbage' : Garbage) (value : List UInt8)
    (b : ByteArray) : Option ByteArray := do
  let b ← writeFint64 host garbage (BitVec.ofNat 64 value.length) b
  b.write garbage' value

def writeStringWithoutLength (garbage : Garbage) (value : List UInt8) : ByteArray → Option ByteArray :=
  write garbage value

def readStringF16 (host : Endian) (maxSize : Nat) : Call (List UInt8) :=
  (readFuint16 host).bind fun len => readBytes maxSize len.toNat

def readStringF32 (host : Endian) (maxSize : Nat) : Call (List UInt8) :=
  (readFuint32 host).bind fun len => readBytes maxSize len.toNat

def readStringF64 (host : Endian) (maxSize : Nat) : Call (List UInt8) :=
  (readFuint64 host).bind fun len => readBytes maxSize len.toNat

def readStringVint (host : Endian) (maxSize : Nat) : Call (List UInt8) :=
  (readUint64 host).bind fun len => readBytes maxSize len.toNat

inductive StringKind where
  | f16 | f32 | f64 | vint
  deriving DecidableEq, Repr

def writeString (host : Endian) (garbage garbage' : Garbage) :
    StringKind → List UInt8 → ByteArray → Option ByteArray
  | .f16 => writeStringF16 host garbage garbage'
  | .f32 => writeStringF32 host garbage garbage'
  | .f64 => writeStringF64 host garbage garbage'
  | .vint => writeStringVint host garbage garbage'

def readString (host : Endian) (maxSize : Nat) : StringKind → Call (List UInt8)
  | .f16 => readStringF16 host maxSize
  | .f32 => readStringF32 host maxSize
  | .f64 => readStringF64 host maxSize
  | .vint => readStringVint host maxSize

/-! ## Readers -/

structure Advanced (b b' : ByteArray) (n : Nat) : Prop where
  chained : Chained b'
  flat : b'.flat = { b.flat with position := b.position + n }
  endian : b'.endian = b.endian
  same : n = 0 → b' = b

theorem Advanced.refl {b : ByteArray} (h : Chained b) : Advanced b b 0 := ⟨h, rfl, rfl, fun _ => rfl⟩

theorem Advanced.position {b b' : ByteArray} {n : Nat} (h : Advanced b b' n) :
    b'.position = b.position + n := congrArg Flat.position h.flat

theorem Advanced.size {b b' : ByteArray} {n : Nat} (h : Advanced b b' n) : b'.size = b.size :=
  congrArg Flat.size h.flat

theorem Advanced.capacity {b b' : ByteArray} {n : Nat} (h : Advanced b b' n) (hb : Chained b) :
    b'.capacity = b.capacity := by
  have hbytes : b'.flat.bytes = b.flat.bytes := by rw [h.flat]
  rw [← h.chained.length_content, ← hb.length_content]
  exact congrArg List.length hbytes

theorem Advanced.trans {b c d : ByteArray} {m n : Nat} (h : Advanced b c m) (h' : Advanced c d n) :
    Advanced b d (m + n) := by
  refine ⟨h'.chained, ?_, h'.endian.trans h.endian, fun hzero => ?_⟩
  · rw [h'.flat, h.flat, h.position, Nat.add_assoc]
  · rw [h'.same (by omega), h.same (by omega)]

/-- Nothing changed exactly when nothing was read. -/
theorem Advanced.eq_iff {b b' : ByteArray} {n : Nat} (h : Advanced b b' n) : b' = b ↔ n = 0 := by
  constructor
  · intro heq
    have hpos := h.position
    rw [heq] at hpos
    omega
  · exact h.same

theorem length_toString {b : ByteArray} (h : Chained b) :
    b.flat.toString.length = b.size - b.position :=
  Unread.length ⟨h, rfl⟩

/-- What is left after reading. -/
theorem Advanced.toString {b b' : ByteArray} {n : Nat} (h : Advanced b b' n) :
    b'.flat.toString = b.flat.toString.drop n := by
  rw [Flat.toString, Flat.toString, h.flat]
  show ((b.flat.bytes.drop (b.position + n)).take (b.size - (b.position + n))) =
    ((b.flat.bytes.drop b.position).take (b.size - b.position)).drop n
  rw [List.drop_take, List.drop_drop, Nat.sub_add_eq]

def orThrow {α : Type} : Option α → Except String α
  | some v => .ok v
  | none => .error "not enough len"

/-- The call makes of the unread bytes what `f` makes of them: a value, unless it throws, and the
number of bytes it takes. -/
def Reads {α : Type} (endian : Endian) (c : Call α) (f : List UInt8 → Option α × Nat) : Prop :=
  ∀ b, Chained b → b.endian = endian →
    ∃ b', c b = some (orThrow (f b.flat.toString).1, b') ∧ Advanced b b' (f b.flat.toString).2

theorem Reads.congr {α : Type} {endian : Endian} {c : Call α} {f g : List UInt8 → Option α × Nat}
    (h : Reads endian c f) (heq : ∀ bs, f bs = g bs) : Reads endian c g := by
  rwa [show g = f from (funext heq).symm]

def mapValue {α β : Type} (g : α → β) (f : List UInt8 → Option α × Nat) (bs : List UInt8) :
    Option β × Nat :=
  ((f bs).1.map g, (f bs).2)

theorem Reads.map {α β : Type} {endian : Endian} {c : Call α} {f : List UInt8 → Option α × Nat}
    (h : Reads endian c f) (g : α → β) : Reads endian (c.map g) (mapValue g f) := by
  intro b hb hend
  rcases h b hb hend with ⟨b', hc, hadv⟩
  refine ⟨b', ?_, hadv⟩
  rw [Call.map, hc, Option.map_some, mapValue]
  cases hv : (f b.flat.toString).1 with
  | none => rfl
  | some v => rfl

/-- The second reader gets what the first one left. -/
theorem Reads.bind {α β : Type} {endian : Endian} {c : Call α} {f : List UInt8 → Option α × Nat}
    {d : α → Call β} {g : α → List UInt8 → Option β × Nat} (h : Reads endian c f)
    (hd : ∀ v, Reads endian (d v) (g v)) :
    Reads endian (c.bind d) fun bs =>
      match (f bs).1 with
      | none => (none, (f bs).2)
      | some v => ((g v (bs.drop (f bs).2)).1, (f bs).2 + (g v (bs.drop (f bs).2)).2) := by
  intro b hb hend
  rcases h b hb hend with ⟨b', hc, hadv⟩
  dsimp only
  unfold Call.bind
  rw [hc]
  cases hv : (f b.flat.toString).1 with
  | none => exact ⟨b', rfl, hadv⟩
  | some v =>
    rcases hd v b' hadv.chained (hadv.endian.trans hend) with ⟨b'', hc', hadv'⟩
    rw [hadv.toString] at hc' hadv'
    exact ⟨b'', hc', hadv.trans hadv'⟩

theorem reads_pure {α : Type} (endian : Endian) (v : α) :
    Reads endian (fun b => some (.ok v, b)) fun _ => (some v, 0) :=
  fun b hb _ => ⟨b, rfl, .refl hb⟩

/-- `read` checks the length before it moves. -/
theorem reads_read (endian : Endian) {n : Nat} (hn : 1 ≤ n) :
    Reads endian (ByteArray.read n) fun bs =>
      if n ≤ bs.length then (some (bs.take n), n) else (none, 0) := by
  intro b hb _
  have hlen := length_toString hb
  by_cases hfit : n ≤ b.flat.toString.length
  · rcases read_ok hb hn (by omega) with ⟨b', hread, hb', hkept, hflat⟩
    simp only [hfit, if_true]
    refine ⟨b', ?_, hb', hflat, hkept.2, fun hzero => by omega⟩
    rw [hread, Flat.toString]
    show some (Except.ok (slice b.flat.bytes b.position n), b') =
      some (.ok ((slice b.flat.bytes b.position (b.size - b.position)).take n), b')
    rw [slice, slice, List.take_take, Nat.min_eq_left (by omega)]
  · simp only [hfit, if_false]
    refine ⟨b, ?_, .refl hb⟩
    unfold ByteArray.read
    rw [if_pos (by rw [hb.getReadSize]; omega)]
    rfl

/-! ## Numbers -/

def fixedOf (host endian : Endian) (n : Nat) (bs : List UInt8) : Option Nat × Nat :=
  if n ≤ bs.length then
    let v := ofMemory host (bs.take n)
    (some (if endian = .big then byteswap n v else v), n)
  else (none, 0)

theorem reads_readF (host endian : Endian) {n : Nat} (hn : 1 ≤ n) :
    Reads endian (readF host n) (fixedOf host endian n) := by
  intro b hb hend
  rcases reads_read endian hn b hb hend with ⟨b', hread, hadv⟩
  by_cases hfit : n ≤ b.flat.toString.length
  · simp only [hfit, if_true] at hread hadv
    simp only [fixedOf, hfit, if_true]
    refine ⟨b', ?_, hadv⟩
    rw [readF, Call.bind, hread]
    simp only [orThrow, hadv.endian, hend]
  -- the exception of `read` goes through `readF`
  · simp only [hfit, if_false] at hread hadv
    simp only [fixedOf, hfit, if_false]
    refine ⟨b', ?_, hadv⟩
    rw [readF, Call.bind, hread]
    rfl

def byteOf : List UInt8 → Option (BitVec 8) × Nat
  | [] => (none, 0)
  | byte :: _ => (some (BitVec.ofNat 8 byte.toNat), 1)

theorem reads_byte (host endian : Endian) : Reads endian (readFuint8 host) byteOf := by
  apply ((reads_read endian (Nat.le_refl 1)).map
    fun buf => BitVec.ofNat 8 (ofMemory host buf)).congr
  intro bs
  cases bs with
  | nil => rfl
  | cons byte rest =>
    have hone : 1 ≤ (byte :: rest).length := Nat.succ_le_succ (Nat.zero_le _)
    rw [mapValue, if_pos hone]
    cases host <;> rfl

/-- The loop of `readUint32` and `readUint64` on bytes. -/
def scanVarint {w : Nat} : Nat → Nat → BitVec w → List UInt8 → Option (BitVec w) × Nat
  | 0, _, result, _ => (some result, 0)
  | turns + 1, i, result, bs =>
    if i < w then
      match bs with
      | [] => (none, 0)
      | byte :: rest =>
        let bits := BitVec.ofNat 8 byte.toNat
        if byte.toNat < 0x80 then (some (result ||| (bits.setWidth w <<< i)), 1)
        else
          let r := scanVarint turns (i + 7) (result ||| ((bits &&& 0x7f).setWidth w <<< i)) rest
          (r.1, r.2 + 1)
    else (some result, 0)

theorem reads_readVarint {w : Nat} (host endian : Endian) (turns i : Nat) (result : BitVec w) :
    Reads endian (readVarint host turns i result) (scanVarint turns i result) := by
  induction turns generalizing i result with
  | zero => exact reads_pure endian result
  | succ turns ih =>
    unfold readVarint
    by_cases hi : i < w
    · rw [if_pos hi]
      -- what follows the byte is either nothing or the next turn
      have hnext : ∀ byte : BitVec 8, Reads endian
          (if byte.toNat < 0x80 then fun b => some (.ok (result ||| (byte.setWidth w <<< i)), b)
            else readVarint host turns (i + 7) (result ||| ((byte &&& 0x7f).setWidth w <<< i)))
          fun bs =>
            if byte.toNat < 0x80 then (some (result ||| (byte.setWidth w <<< i)), 0)
            else scanVarint turns (i + 7) (result ||| ((byte &&& 0x7f).setWidth w <<< i)) bs := by
        intro byte
        by_cases hstop : byte.toNat < 0x80
        · simp only [hstop, if_true]
          exact reads_pure endian _
        · simp only [hstop, if_false]
          exact ih _ _
      apply ((reads_byte host endian).bind hnext).congr
      intro bs
      -- one byte decides on the turn
      cases bs with
      | nil => simp only [scanVarint, byteOf, hi, if_true]
      | cons byte rest =>
        have hbyte : (BitVec.ofNat 8 byte.toNat).toNat = byte.toNat := by
          rw [BitVec.toNat_ofNat, Nat.mod_eq_of_lt byte.toNat_lt]
        simp only [scanVarint, byteOf, hi, if_true, hbyte, List.drop_succ_cons, List.drop_zero]
        by_cases hstop : byte.toNat < 0x80
        · simp only [hstop, if_true]
        · simp only [hstop, if_false, Nat.add_comm]
    · rw [if_neg hi]
      apply (reads_pure endian result).congr
      intro bs
      unfold scanVarint
      rw [if_neg hi]

theorem fixedOf_lt {host endian : Endian} {n v : Nat} {bs : List UInt8}
    (h : (fixedOf host endian n bs).1 = some v) : v < 256 ^ n := by
  unfold fixedOf at h
  by_cases hfit : n ≤ bs.length
  · rw [if_pos hfit] at h
    cases h
    have hlen : (bs.take n).length = n := List.length_take_of_le hfit
    split
    · exact byteswap_lt n _
    · cases host with
      | little =>
        have hlt := ofBytes_lt (bs.take n)
        rwa [hlen] at hlt
      | big =>
        have hlt := ofBytes_lt (bs.take n).reverse
        rwa [List.length_reverse, hlen] at hlt
  · rw [if_neg hfit] at h
    cases h

/-! ## Strings -/

def stringLength (host endian : Endian) : StringKind → List UInt8 → Option Nat × Nat
  | .f16 => fixedOf host endian 2
  | .f32 => fixedOf host endian 4
  | .f64 => fixedOf host endian 8
  | .vint => mapValue BitVec.toNat (scanVarint 10 0 (0 : BitVec 64))

/-- A string is read in two steps. -/
theorem readString_bind {w : Nat} {endian : Endian} {c : Call (BitVec w)}
    {f : List UInt8 → Option (BitVec w) × Nat} (hc : Reads endian c f) (maxSize : Nat)
    {b : ByteArray} (h : Chained b) (hend : b.endian = endian) :
    ∃ b₁, Advanced b b₁ (f b.flat.toString).2 ∧
      c.bind (fun len => readBytes maxSize len.toNat) b =
        match (f b.flat.toString).1.map BitVec.toNat with
        | none => some (.error "not enough len", b₁)
        | some len => readBytes maxSize len b₁ := by
  rcases hc b h hend with ⟨b₁, hcall, hadv⟩
  refine ⟨b₁, hadv, ?_⟩
  unfold Call.bind
  rw [hcall]
  cases (f b.flat.toString).1 with
  | none => rfl
  | some v => rfl

/-- The readers of an unsigned length of fixed width. -/
theorem readString_fixed {w n : Nat} (hn : 1 ≤ n) (hw : 256 ^ n = 2 ^ w) (host : Endian)
    (maxSize : Nat) {b : ByteArray} (h : Chained b) :
    ∃ b₁, Advanced b b₁ (fixedOf host b.endian n b.flat.toString).2 ∧
      ((readF host n).map (BitVec.ofNat w)).bind (fun len => readBytes maxSize len.toNat) b =
        match (fixedOf host b.endian n b.flat.toString).1 with
        | none => some (.error "not enough len", b₁)
        | some len => readBytes maxSize len b₁ := by
  rcases readString_bind ((reads_readF host b.endian hn).map (BitVec.ofNat w)) maxSize h rfl with
    ⟨b₁, hadv, hread⟩
  refine ⟨b₁, hadv, ?_⟩
  rw [hread, mapValue]
  cases hv : (fixedOf host b.endian n b.flat.toString).1 with
  | none => rfl
  | some v =>
    -- the word is wide enough for the bytes that were read
    have hlt := fixedOf_lt hv
    rw [hw] at hlt
    have hback : (BitVec.ofNat w v).toNat = v := by
      rw [BitVec.toNat_ofNat, Nat.mod_eq_of_lt hlt]
    simp only [Option.map_some, hback]

theorem readString_spec (host : Endian) (maxSize : Nat) {b : ByteArray} (h : Chained b)
    (k : StringKind) :
    ∃ b₁, Advanced b b₁ (stringLength host b.endian k b.flat.toString).2 ∧
      readString host maxSize k b =
        match (stringLength host b.endian k b.flat.toString).1 with
        | none => some (.error "not enough len", b₁)
        | some len => readBytes maxSize len b₁ := by
  cases k with
  | f16 => exact readString_fixed (n := 2) (by decide) (by decide) host maxSize h
  | f32 => exact readString_fixed (n := 4) (by decide) (by decide) host maxSize h
  | f64 => exact readString_fixed (n := 8) (by decide) (by decide) host maxSize h
  | vint => exact readString_bind (reads_readVarint host b.endian 10 0 0) maxSize h rfl

/-- A read of nothing still looks at the node of the cursor. -/
theorem read_zero {b : ByteArray} (h : Chained b) :
    b.read 0 = if b.position = b.capacity then none else some (.ok [], b) := by
  unfold ByteArray.read
  rw [if_neg (Nat.not_lt_zero _)]
  cases hafter : b.after with
  | nil => rw [if_pos (h.after_eq_nil_iff.mp hafter)]
  | cons cur next =>
    have hpos : b.position ≠ b.capacity := by
      intro heq
      rw [h.after_eq_nil_iff.mpr heq] at hafter
      cases hafter
    rw [if_neg hpos]
    rfl

inductive BytesRead (maxSize len : Nat) (b : ByteArray) :
    Option (Except String (List UInt8) × ByteArray) → Prop where
  /-- `resize` throws. -/
  | tooLong (hmax : maxSize < len) :
    BytesRead maxSize len b (some (.error "basic_string::_M_replace_aux", b))
  /-- `read` throws. -/
  | short (hmax : len ≤ maxSize) (hshort : b.flat.toString.length < len) :
    BytesRead maxSize len b (some (.error "not enough len", b))
  /-- There is no node to look at. -/
  | noNode (hzero : len = 0) (hend : b.position = b.capacity) : BytesRead maxSize len b none
  | done (b' : ByteArray) (hmax : len ≤ maxSize) (hfit : len ≤ b.flat.toString.length)
    (hnode : 1 ≤ len ∨ b.position < b.capacity) (hadv : Advanced b b' len) :
    BytesRead maxSize len b (some (.ok (b.flat.toString.take len), b'))

theorem readBytes_cases {b : ByteArray} (h : Chained b) (maxSize len : Nat) :
    BytesRead maxSize len b (readBytes maxSize len b) := by
  have hlen := length_toString h
  have hle := h.position_le_capacity
  unfold readBytes
  by_cases hmax : len > maxSize
  · rw [if_pos hmax]
    exact .tooLong hmax
  · rw [if_neg hmax]
    -- `read` of nothing does not look at the size, but at the cursor
    by_cases hzero : len = 0
    · rw [hzero, read_zero h]
      split
      · next hend => exact .noNode rfl hend
      · next hne => exact .done b (Nat.zero_le _) (Nat.zero_le _) (Or.inr (by omega)) (.refl h)
    · rcases reads_read b.endian (Nat.pos_of_ne_zero hzero) b h rfl with ⟨b', hread, hadv⟩
      by_cases hfit : len ≤ b.flat.toString.length
      · simp only [hfit, if_true] at hread hadv
        rw [hread]
        exact .done b' (Nat.not_lt.mp hmax) hfit (Or.inl (Nat.pos_of_ne_zero hzero)) hadv
      · simp only [hfit, if_false] at hread hadv
        rw [hread, hadv.same rfl]
        exact .short (Nat.not_lt.mp hmax) (Nat.not_le.mp hfit)

end ByteArray

end Azure
