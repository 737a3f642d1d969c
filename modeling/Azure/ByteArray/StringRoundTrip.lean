import Azure.ByteArray.Host

/-!
# The string round trip

A length of `n` bytes is the length of the string modulo `256 ^ n`, while its bytes are written in
full.  The string comes back when the length fits; an empty one only when there is a node behind its
length.  `writeStringVint` writes a length of eight bytes, which `readStringVint` never takes for the
length of the string.
-/

namespace Azure

open Reasoning

namespace ByteArray

/-! ## Writing -/

def StringKind.bytes : StringKind → Nat
  | .f16 => 2
  | .f32 => 4
  | .f64 | .vint => 8

def lengthField (endian : Endian) (k : StringKind) (len : Nat) : List UInt8 :=
  memory endian k.bytes (len % 256 ^ k.bytes)

theorem StringKind.bytes_lt (k : StringKind) : k.bytes < 2 ^ 53 := by
  cases k <;> decide

@[simp] theorem length_lengthField (endian : Endian) (k : StringKind) (len : Nat) :
    (lengthField endian k len).length = k.bytes := length_memory ..

theorem writeString_eq (host : Endian) (garbage garbage' : Garbage) (k : StringKind)
    (value : List UInt8) (b : ByteArray) :
    writeString host garbage garbage' k value b =
      (b.write garbage (lengthField b.endian k value.length)).bind (·.write garbage' value) := by
  have hfield : ∀ n w, (BitVec.ofNat w value.length).toNat = value.length % 256 ^ n →
      writeF host n garbage (BitVec.ofNat w value.length).toNat b =
        b.write garbage (memory b.endian n (value.length % 256 ^ n)) := by
    intro n w hvalue
    rw [← fixedBytes_eq host, ← hvalue]
    rfl
  cases k with
  | f16 => exact congrArg (Option.bind · _) (hfield 2 16 (BitVec.toNat_ofNat ..))
  | f32 => exact congrArg (Option.bind · _) (hfield 4 32 (BitVec.toNat_ofNat ..))
  | f64 | vint => exact congrArg (Option.bind · _) (hfield 8 64 (BitVec.toNat_ofNat ..))

/-- A length is always written. -/
theorem write_length {b : ByteArray} (h : Chained b) (garbage : Garbage) (k : StringKind)
    (len : Nat) :
    ∃ c, b.write garbage (lengthField b.endian k len) = some c ∧
      Wrote (lengthField b.endian k len) b c := by
  apply write_small h garbage
  rw [length_lengthField]
  exact k.bytes_lt

/-! ## Reading back -/

/-- The bytes that `readBytes` returns are those it moved over. -/
theorem readBytes_some {b b' : ByteArray} (h : Chained b) {maxSize len : Nat} {value : List UInt8}
    (hread : readBytes maxSize len b = some (.ok value, b')) :
    value.length = len ∧ b'.position = b.position + len := by
  have hcases := readBytes_cases h maxSize len
  rw [hread] at hcases
  cases hcases with
  | done b' hmax hfit hnode hadv => exact ⟨List.length_take_of_le hfit, hadv.position⟩

/-- The bytes that stand there come back; the empty string needs a node at the cursor. -/
theorem readBytes_returns {b : ByteArray} (h : Chained b) {maxSize : Nat} {value rest : List UInt8}
    (hmax : value.length ≤ maxSize) (hun : b.flat.toString = value ++ rest)
    (hend : value = [] → b.position < b.capacity) :
    ∃ b', readBytes maxSize value.length b = some (.ok value, b') ∧
      b'.position = b.position + value.length := by
  have hlen : b.flat.toString.length = value.length + rest.length := by
    rw [hun, List.length_append]
  have hcases := readBytes_cases h maxSize value.length
  generalize readBytes maxSize value.length b = r at hcases
  cases hcases with
  | tooLong hlong => omega
  | short _ hshort => omega
  | noNode hzero hfull =>
    have hlt := hend (List.length_eq_zero_iff.mp hzero)
    omega
  | done b' _ _ _ hadv => exact ⟨b', by rw [hun, List.take_left], hadv.position⟩

/-- Written and read from the same position, the string comes back, and the position is behind what
was written. -/
def Returns (host : Endian) (maxSize : Nat) (k : StringKind) (value : List UInt8) (b : ByteArray) :
    Prop :=
  ∀ garbage garbage', ∃ b₁, writeString host garbage garbage' k value b = some b₁ ∧
    ∃ b₂, ((setPosition b.position).bind fun _ => readString host maxSize k) b₁ =
      some (.ok value, b₂) ∧ b₂.position = b₁.position

/-- The reader takes the length modulo the width. -/
theorem stringLength_field {k : StringKind} (hk : k ≠ .vint) (endian : Endian) (len : Nat)
    (rest : List UInt8) :
    stringLength .little endian k (lengthField endian k len ++ rest) =
      (some (len % 256 ^ k.bytes), k.bytes) := by
  have hlt : len % 256 ^ k.bytes < 256 ^ k.bytes := Nat.mod_lt _ (Nat.pow_pos (by decide))
  cases k with
  | f16 | f32 | f64 => exact fixedOf_memory .little endian hlt rest
  | vint => exact absurd rfl hk

theorem reread_string {b c b₁ : ByteArray} {maxSize : Nat} {k : StringKind} (hk : k ≠ .vint)
    {value : List UInt8} (hmax : value.length ≤ maxSize)
    (hx : Wrote (lengthField b.endian k value.length) b c) (hy : Wrote value c b₁) :
    (∃ b₂, ((setPosition b.position).bind fun _ => readString .little maxSize k) b₁ =
        some (.ok value, b₂) ∧ b₂.position = b₁.position) ↔
      value.length < 256 ^ k.bytes ∧ (value = [] → b.position + k.bytes < b.grownTo k.bytes) := by
  rcases hx.reread hy with ⟨e, rest, hset, he, hend, hcap, hpos, hun⟩
  -- the length is read back modulo its width, and the string begins behind it
  rcases readString_spec .little maxSize he k with ⟨e₁, hadv, hread⟩
  have hlength := stringLength_field hk b.endian value.length (value ++ rest)
  rw [hun, hend, hlength] at hadv hread
  dsimp only at hadv hread
  have hleft : e₁.flat.toString = value ++ rest := by
    have hdrop := hadv.toString
    rw [hun] at hdrop
    rw [hdrop, List.drop_left' (length_lengthField ..)]
  have hcall : ((setPosition b.position).bind fun _ => readString .little maxSize k) b₁ =
      readBytes maxSize (value.length % 256 ^ k.bytes) e₁ := by
    unfold Call.bind
    rw [hset]
    exact hread
  have hat : e₁.position = b.position + k.bytes := by rw [hadv.position, hpos]
  have hbehind : b₁.position = e₁.position + value.length := by
    rw [hy.position, hx.position, length_lengthField, hat]
  -- the capacity of an empty string is that of its length
  have hcapacity : value = [] → e₁.capacity = b.grownTo k.bytes := by
    intro hempty
    have hgrown := hy.capacity
    rw [hempty, List.length_nil, grownTo_zero hx.chained] at hgrown
    rw [hadv.capacity he, hcap, hgrown, hx.capacity, length_lengthField]
  rw [hcall]
  constructor
  · rintro ⟨b₂, hreturned, -⟩
    have hsame := (readBytes_some hadv.chained hreturned).1
    refine ⟨?_, fun hempty => ?_⟩
    · rw [hsame]
      exact Nat.mod_lt _ (Nat.pow_pos (by decide))
    · have hsome := (readBytes_isSome_iff hadv.chained maxSize _).mp
        (Option.isSome_of_eq_some hreturned)
      rw [← hsame, hempty, hat, hcapacity hempty] at hsome
      exact hsome.resolve_left (by decide)
  · rintro ⟨hlt, hroom⟩
    rw [Nat.mod_eq_of_lt hlt, hbehind]
    apply readBytes_returns hadv.chained hmax hleft
    intro hempty
    rw [hat, hcapacity hempty]
    exact hroom hempty

theorem Wrote.need {b c : ByteArray} {k : StringKind} {value : List UInt8}
    (hx : Wrote (lengthField b.endian k value.length) b c) :
    c.position + value.length - c.capacity =
      b.position + k.bytes + value.length - b.grownTo k.bytes := by
  rw [hx.position, hx.capacity, length_lengthField]

/-- A string that comes back has a length that fits, a node behind its length if it is empty, and
nodes enough for its bytes. -/
theorem Returns.fits {maxSize : Nat} {b : ByteArray} (h : Chained b) {k : StringKind}
    (hk : k ≠ .vint) {value : List UInt8} (hmax : value.length ≤ maxSize)
    (hreturns : Returns .little maxSize k value b) :
    value.length < 256 ^ k.bytes ∧ (value = [] → b.position + k.bytes < b.grownTo k.bytes) ∧
      Grows b.basesize (b.position + k.bytes + value.length - b.grownTo k.bytes) := by
  -- any garbage will do
  rcases hreturns (fun _ _ => 0) (fun _ _ => 0) with ⟨b₁, hwrite, hback⟩
  rw [writeString_eq] at hwrite
  rcases Option.bind_eq_some_iff.mp hwrite with ⟨c, hlength, hbytes⟩
  have hx := (write_wrote h hlength).2
  rcases write_wrote hx.chained hbytes with ⟨hgrows, hy⟩
  rw [hx.need, hx.basesize] at hgrows
  rcases (reread_string hk hmax hx hy).mp hback with ⟨hlt, hroom⟩
  exact ⟨hlt, hroom, hgrows⟩

/-- In every state that calls lead to, a string with a length of fixed width comes back exactly when
its length fits, its length does not end at the end of the capacity should it be empty, and the new
nodes are enough for its bytes. -/
theorem returns_iff {maxSize : Nat} {b : ByteArray} (hb : Reached .little maxSize b)
    {k : StringKind} (hk : k ≠ .vint) {value : List UInt8} (hmax : value.length ≤ maxSize) :
    Returns .little maxSize k value b ↔
      value.length < 256 ^ k.bytes ∧
        (value = [] → b.position + k.bytes < b.capacity ∨
          (b.position + k.bytes) % b.basesize ≠ 0) ∧
        Grows b.basesize (b.position + k.bytes + value.length - b.grownTo k.bytes) := by
  have h := hb.chained
  rw [← lt_grownTo_iff h k.bytes_lt]
  constructor
  · exact fun hreturns => hreturns.fits h hk hmax
  · rintro ⟨hlt, hroom, hgrows⟩ garbage garbage'
    -- the length is written first, and the room for the bytes is counted behind it
    rcases write_length h garbage k value.length with ⟨c, hlength, hx⟩
    rw [← hx.need, ← hx.basesize] at hgrows
    rcases write_grows hx.chained garbage' hgrows with ⟨b₁, hbytes, hy⟩
    refine ⟨b₁, ?_, (reread_string hk hmax hx hy).mpr ⟨hlt, hroom⟩⟩
    rw [writeString_eq, hlength]
    exact hbytes

theorem returns_iff_quad : Returns .little 100 .f16 [7, 8, 9] (quad 0 0 0 0) := by
  have hsmall : Grows (quad 0 0 0 0).basesize ((quad 0 0 0 0).position + StringKind.bytes .f16 +
      [7, 8, 9].length - (quad 0 0 0 0).grownTo (StringKind.bytes .f16)) :=
    grows_of_lt (by decide) (Nat.lt_of_le_of_lt (Nat.sub_le _ _) (by decide))
  exact (returns_iff (reached_quad .little 100 0 0 0 0) (by decide) (by decide)).mpr
    ⟨by decide, nofun, hsmall⟩

/-- A string of `2 ^ 16` bytes gets the length zero; and an empty string whose length fills the
buffer does not come back either. -/
theorem length_cut_off :
    Reached .little 100000 (quad 0 0 0 0) ∧
      ¬ Returns .little 100000 .f16 (List.replicate 65536 0) (quad 0 0 0 0) ∧
      ¬ Returns .little 100000 .f32 [] (quad 0 0 0 0) := by
  have hreached := reached_quad .little 100000 0 0 0 0
  refine ⟨hreached, fun hlong => ?_, fun hempty => ?_⟩
  · have hmax : (List.replicate 65536 (0 : UInt8)).length ≤ 100000 := by
      rw [List.length_replicate]
      decide
    have hlt := (hlong.fits hreached.chained (by decide) hmax).1
    rw [List.length_replicate] at hlt
    exact absurd hlt (by decide)
  · have hroom := (hempty.fits hreached.chained (by decide) (by decide)).2.1 rfl
    rw [lt_grownTo_iff hreached.chained (by decide)] at hroom
    exact absurd hroom (by decide)

/-! ## A length of eight bytes read as a varint -/

def septets : List UInt8 → Nat
  | [] => 0
  | byte :: rest => byte.toNat % 128 + 128 * septets rest

theorem septets_le (bs : List UInt8) : septets bs ≤ ofBytes bs := by
  induction bs with
  | nil => exact Nat.le_refl 0
  | cons byte rest ih =>
    unfold septets ofBytes
    omega

theorem septets_lt (bs : List UInt8) : septets bs < 128 ^ bs.length := by
  induction bs with
  | nil => decide
  | cons byte rest ih =>
    rw [septets, List.length_cons, Nat.pow_succ]
    omega

/-- One turn puts seven bits above those there are. -/
theorem or_septet {w i m : Nat} {result y : BitVec w} (hresult : result.toNat < 2 ^ i)
    (hi : i + 7 ≤ w) (hm : m < 128) (hy : y.toNat = m) :
    (result ||| y <<< i).toNat = result.toNat + 2 ^ i * m ∧
      (result ||| y <<< i).toNat < 2 ^ (i + 7) := by
  have hpow : 2 ^ (i + 7) = 2 ^ i * 128 := by rw [Nat.pow_add]
  have hwide : 2 ^ (i + 7) ≤ 2 ^ w := Nat.pow_le_pow_right (by decide) hi
  have hle : 2 ^ i * m ≤ 2 ^ i * 127 := Nat.mul_le_mul_left _ (by omega)
  have hsum : (result ||| y <<< i).toNat = result.toNat + 2 ^ i * m := by
    rw [toNat_or_shiftLeft hresult (by rw [hy, Nat.mul_comm]; omega), hy, Nat.mul_comm]
  rw [hsum]
  exact ⟨rfl, by omega⟩

/-- As long as the bits fit into the word, a varint is the number of its septets. -/
theorem scanVarint_value {w : Nat} (turns i : Nat) {result v : BitVec w} {bs : List UInt8}
    (hresult : result.toNat < 2 ^ i) (hv : (scanVarint turns i result bs).1 = some v)
    (hfit : i + 7 * (scanVarint turns i result bs).2 ≤ w) :
    v.toNat = result.toNat +
      2 ^ i * septets (bs.take (scanVarint turns i result bs).2) := by
  induction turns generalizing i result bs with
  | zero =>
    cases hv
    rfl
  | succ turns ih =>
    unfold scanVarint at hv hfit ⊢
    by_cases hi : i < w
    · rw [if_pos hi] at hv hfit ⊢
      cases bs with
      | nil => cases hv
      | cons byte rest =>
        dsimp only at hv hfit ⊢
        have hbyte : (BitVec.ofNat 8 byte.toNat).toNat = byte.toNat := by
          rw [BitVec.toNat_ofNat, Nat.mod_eq_of_lt byte.toNat_lt]
        have hmod : byte.toNat % 128 < 128 := Nat.mod_lt _ (by decide)
        -- the last byte, and a byte that goes on: both put their septet at `i`
        by_cases hstop : byte.toNat < 0x80
        · rw [if_pos hstop] at hv hfit ⊢
          cases hv
          have hwide : 2 ^ 7 ≤ 2 ^ w := Nat.pow_le_pow_right (by decide) (by omega)
          have hy : ((BitVec.ofNat 8 byte.toNat).setWidth w).toNat = byte.toNat % 128 := by
            rw [BitVec.toNat_setWidth, hbyte, Nat.mod_eq_of_lt (by omega), Nat.mod_eq_of_lt hstop]
          rw [(or_septet hresult (by omega) hmod hy).1]
          rfl
        · rw [if_neg hstop] at hv hfit ⊢
          dsimp only at hv hfit ⊢
          have hwide : 2 ^ 7 ≤ 2 ^ w := Nat.pow_le_pow_right (by decide) (by omega)
          have hy : ((BitVec.ofNat 8 byte.toNat &&& 0x7f).setWidth w).toNat = byte.toNat % 128 := by
            have hand : (BitVec.ofNat 8 byte.toNat &&& 0x7f).toNat = byte.toNat % 128 := by
              rw [BitVec.toNat_and, hbyte]
              exact Nat.and_two_pow_sub_one_eq_mod _ 7
            rw [BitVec.toNat_setWidth, hand, Nat.mod_eq_of_lt (by omega)]
          rcases or_septet hresult (by omega) hmod hy with ⟨hor, hbelow⟩
          rw [ih (i + 7) hbelow hv (by omega), hor, List.take_succ_cons, septets, Nat.pow_add]
          ring
    · rw [if_neg hi] at hv hfit ⊢
      cases hv
      rfl

/-- A varint of more than one byte begins with a byte that says so. -/
theorem scanVarint_first {w turns i : Nat} {result : BitVec w} {byte : UInt8} {rest : List UInt8}
    (h : 2 ≤ (scanVarint turns i result (byte :: rest)).2) : 0x80 ≤ byte.toNat := by
  by_contra hstop
  have hlt : byte.toNat < 0x80 := Nat.not_le.mp hstop
  cases turns with
  | zero =>
    have htwo : 2 ≤ 0 := h
    omega
  | succ turns =>
    unfold scanVarint at h
    split at h
    · dsimp only at h
      rw [if_pos hlt] at h
      dsimp only at h
      omega
    · dsimp only at h
      omega

/-- Eight bytes of a number are no varint of it. -/
theorem stringLength_vint_ne (host endian : Endian) {len : Nat} (hpos : 1 ≤ len)
    (rest : List UInt8) :
    stringLength host endian .vint (lengthField endian .vint len ++ rest) ≠ (some len, 8) := by
  intro heq
  have hsome : ((scanVarint 10 0 (0 : BitVec 64) (lengthField endian .vint len ++ rest)).1).map
      BitVec.toNat = some len := congrArg Prod.fst heq
  have htaken : (scanVarint 10 0 (0 : BitVec 64) (lengthField endian .vint len ++ rest)).2 = 8 :=
    congrArg Prod.snd heq
  rcases Option.map_eq_some_iff.mp hsome with ⟨v, hv, hlen⟩
  have hvalue := scanVarint_value 10 0 (by decide) hv (by rw [htaken]; decide)
  have hlt : len < 256 ^ 8 := by
    rw [← hlen]
    exact v.isLt
  have hfield : lengthField endian .vint len = memory endian 8 len := by
    show memory endian 8 (len % 256 ^ 8) = memory endian 8 len
    rw [Nat.mod_eq_of_lt hlt]
  have hzero : (0 : BitVec 64).toNat = 0 := rfl
  rw [htaken, hlen, hfield, List.take_left' (length_memory ..), hzero] at hvalue
  have hsum : len = septets (memory endian 8 len) := by omega
  -- eight bytes were taken, so the first one says that more follow
  have hfirst : ∀ byte bs, memory endian 8 len = byte :: bs → 0x80 ≤ byte.toNat := by
    intro byte bs hmem
    rw [hfield, hmem, List.cons_append] at htaken
    apply scanVarint_first
    rw [htaken]
    decide
  cases endian with
  | little =>
    -- the septets are less than the bytes, since the first byte has its highest bit set
    have hbytes := ofBytes_toBytes 8 len
    have hhigh := hfirst _ _ rfl
    have hle := septets_le (toBytes 7 (len / 256))
    have hwhole : septets (memory .little 8 len) =
        (UInt8.ofNat len).toNat % 128 + 128 * septets (toBytes 7 (len / 256)) := rfl
    have hparts : ofBytes (toBytes 8 len) =
        (UInt8.ofNat len).toNat + 256 * ofBytes (toBytes 7 (len / 256)) := rfl
    rw [Nat.mod_eq_of_lt hlt] at hbytes
    omega
  | big =>
    -- the highest byte comes first, and eight septets do not reach that far
    have hhigh := hfirst (UInt8.ofNat (len / 256 / 256 / 256 / 256 / 256 / 256 / 256)) _ rfl
    have hbound := septets_lt (memory .big 8 len)
    rw [length_memory, ← hsum] at hbound
    rw [UInt8.toNat_ofNat'] at hhigh
    omega

def WritesVarint (host : Endian) (value : List UInt8) (b : ByteArray) : Prop :=
  ∀ garbage garbage', ∃ b₁, writeStringVint host garbage garbage' value b = some b₁ ∧
    ∃ bs, stringLength host b.endian .vint bs = (some value.length, bs.length) ∧
      slice b₁.flat.bytes b.position (b₁.position - b.position) = bs ++ value

theorem not_writesVarint {host : Endian} {b : ByteArray} (h : Chained b) {value : List UInt8}
    (hpos : 1 ≤ value.length) : ¬ WritesVarint host value b := by
  intro hwrites
  rcases hwrites (fun _ _ => 0) (fun _ _ => 0) with ⟨b₁, hwrite, bs, hvarint, hslice⟩
  have hsplit : writeString host (fun _ _ => 0) (fun _ _ => 0) .vint value b = some b₁ := hwrite
  rw [writeString_eq] at hsplit
  rcases Option.bind_eq_some_iff.mp hsplit with ⟨c, hlength, hbytes⟩
  have hx := (write_wrote h hlength).2
  have hy := (write_wrote hx.chained hbytes).2
  have hmoved : b₁.position - b.position =
      (lengthField b.endian .vint value.length).length + value.length := by
    rw [hy.position, hx.position]
    omega
  -- the two lengths of eight bytes are the same bytes
  rw [hmoved, hx.append hy] at hslice
  have hsame := List.append_inj_left' hslice rfl
  rw [← hsame, length_lengthField] at hvarint
  apply stringLength_vint_ne host b.endian hpos []
  rw [List.append_nil]
  exact hvarint

theorem not_returns_vint {host : Endian} {maxSize : Nat} {b : ByteArray} (h : Chained b)
    {value : List UInt8} (hpos : 1 ≤ value.length) : ¬ Returns host maxSize .vint value b := by
  intro hreturns
  rcases hreturns (fun _ _ => 0) (fun _ _ => 0) with ⟨b₁, hwrite, b₂, hback, hbehind⟩
  rw [writeString_eq] at hwrite
  rcases Option.bind_eq_some_iff.mp hwrite with ⟨c, hlength, hbytes⟩
  have hx := (write_wrote h hlength).2
  have hy := (write_wrote hx.chained hbytes).2
  rcases hx.reread hy with ⟨e, rest, hset, he, hend, -, hpos', hun⟩
  rcases readString_spec host maxSize he .vint with ⟨e₁, hadv, hread⟩
  have hcall : ((setPosition b.position).bind fun _ => readString host maxSize .vint) b₁ =
      readString host maxSize .vint e := by
    unfold Call.bind
    rw [hset]
  have hne := stringLength_vint_ne host b.endian hpos (value ++ rest)
  rw [hcall, hread, hun, hend] at hback
  rw [hun, hend] at hadv
  generalize stringLength host b.endian .vint
    (lengthField b.endian .vint value.length ++ (value ++ rest)) = r at hback hadv hne
  rcases r with ⟨len, n⟩
  dsimp only at hback hadv
  cases len with
  | none => cases hback
  | some len =>
    -- what comes back is as long as the length says, so the length took eight bytes
    rcases readBytes_some hadv.chained hback with ⟨hlen, hmoved⟩
    have hn : n = 8 := by
      rw [hadv.position, hbehind, hpos', hy.position, hx.position, length_lengthField] at hmoved
      have height : StringKind.bytes .vint = 8 := rfl
      omega
    exact hne (by rw [hn, hlen])

/-- No string that is not empty is written with a varint length, and none comes back. -/
theorem vint_never {host : Endian} {maxSize : Nat} {b : ByteArray} (hb : Reached host maxSize b)
    {value : List UInt8} (hne : value ≠ []) :
    ¬ WritesVarint host value b ∧ ¬ Returns host maxSize .vint value b :=
  have hpos := List.length_pos_of_ne_nil hne
  ⟨not_writesVarint hb.chained hpos, not_returns_vint hb.chained hpos⟩

theorem vint_never_quad :
    ¬ WritesVarint .little [7] (quad 0 0 0 0) ∧ ¬ Returns .little 100 .vint [7] (quad 0 0 0 0) :=
  vint_never (reached_quad .little 100 0 0 0 0) (by decide)

/-- The length of a string of one byte: eight bytes are written, and the reader takes the first one of
them for all of it. -/
theorem length_left_over :
    Reached .little 100 (quad 0 0 0 0) ∧
      lengthField .little .vint 1 = [1, 0, 0, 0, 0, 0, 0, 0] ∧
      stringLength .little .little .vint [1, 0, 0, 0, 0, 0, 0, 0] = (some 1, 1) ∧
      ¬ (WritesVarint .little [7] (quad 0 0 0 0) ∧ Returns .little 100 .vint [7] (quad 0 0 0 0)) := by
  refine ⟨reached_quad .little 100 0 0 0 0, by decide, by decide, ?_⟩
  rintro ⟨hwrites, -⟩
  exact not_writesVarint (reached_quad .little 100 0 0 0 0).chained (by decide) hwrites

end ByteArray

end Azure
