import Azure.ByteArray.Codec
import Azure.ByteArray.Growth

/-!
# The codec round trip

`Unread b bs` says that `bs` is what is left to read.  Every value has one encoding that its writer
appends and that its reader takes off again, whatever follows; so a sequence of values is read back
in order, and nothing is left at the end.
-/

namespace Azure

open Reasoning

namespace ByteArray

def Unread (b : ByteArray) (bs : List UInt8) : Prop := Chained b ∧ b.flat.toString = bs

def written (b : ByteArray) : List UInt8 := slice b.flat.bytes 0 b.size

/-! ## Plain reads and writes -/

theorem Unread.length {b : ByteArray} {bs : List UInt8} (h : Unread b bs) :
    bs.length = b.size - b.position := by
  have hlen := h.1.length_content
  have hpos := h.1.position_le
  have hsize := h.1.size_le
  rw [← h.2]
  apply length_slice
  show b.position + (b.size - b.position) ≤ (content b.nodes).length
  omega

/-- A read inside the size moves the position over what it returns. -/
theorem read_ok {b : ByteArray} (h : Chained b) {n : Nat} (hn : 1 ≤ n)
    (hfit : n ≤ b.size - b.position) :
    ∃ b', b.read n = some (.ok (slice b.flat.bytes b.position n), b') ∧ Chained b' ∧
      (b'.basesize = b.basesize ∧ b'.endian = b.endian) ∧
      b'.flat = { b.flat with position := b.position + n } := by
  rcases read_spec h hn with ⟨r, b', hcall, hchained, hkept, hstep⟩
  have hfits : ¬ n > b.flat.size - b.flat.position := Nat.not_lt.mpr hfit
  unfold Flat.Step at hstep
  dsimp only at hstep
  rw [if_neg hfits] at hstep
  refine ⟨b', ?_, hchained, hkept, hstep.2⟩
  simp only [call, Option.map_eq_some_iff] at hcall
  rcases hcall with ⟨⟨res, c⟩, hread, hreply⟩
  rw [hstep.1] at hreply
  cases res with
  | ok buf =>
    cases hreply
    exact hread
  | error what => cases hreply

theorem Unread.read {b : ByteArray} {xs rest : List UInt8} (h : Unread b (xs ++ rest))
    (hne : 1 ≤ xs.length) :
    ∃ b', b.read xs.length = some (.ok xs, b') ∧ Unread b' rest ∧ b'.endian = b.endian := by
  have hlen := h.length
  rw [List.length_append] at hlen
  rcases read_ok h.1 hne (by omega) with ⟨b', hread, hchained, hkept, hflat⟩
  -- the slice from the position on is `xs ++ rest`, and the read splits it after `xs`
  have hsplit := h.2
  have hsum : b.flat.size - b.flat.position = xs.length + rest.length := hlen.symm
  rw [Flat.toString, hsum, slice_add] at hsplit
  have hfirst : (slice b.flat.bytes b.flat.position xs.length).length = xs.length := by
    apply length_slice
    have hbytes := h.1.length_content
    have hsize := h.1.size_le
    show b.position + xs.length ≤ (content b.nodes).length
    omega
  rcases List.append_inj hsplit hfirst with ⟨hxs, hrest⟩
  refine ⟨b', ?_, ⟨hchained, ?_⟩, hkept.2⟩
  · rw [hread]
    show some (Except.ok (slice b.flat.bytes b.flat.position xs.length), b') = _
    rw [hxs]
  · rw [hflat]
    show slice b.flat.bytes (b.flat.position + xs.length)
      (b.flat.size - (b.flat.position + xs.length)) = rest
    rw [Nat.sub_add_eq, hsum, Nat.add_sub_cancel_left, hrest]

/-- At the end of the buffer a write appends. -/
theorem Wrote.written {buf : List UInt8} {b b' : ByteArray} (h : Wrote buf b b')
    (hend : b.position = b.size) :
    b'.position = b'.size ∧ written b' = written b ++ buf := by
  have hsize := h.size
  have hposition := h.position
  have hlast : b'.size = b.size + buf.length := by
    rw [hsize, hend, Nat.max_eq_right (Nat.le_add_right _ _)]
  refine ⟨by omega, ?_⟩
  have hbytes := h.bytes
  rw [hend] at hbytes
  unfold ByteArray.written
  rw [hlast, slice_add, Nat.zero_add, hbytes, h.before 0 b.size (by omega)]

/-- Going back to the start leaves everything written to be read. -/
theorem setPosition_zero {b : ByteArray} (h : Chained b) :
    ∃ b', b.setPosition 0 = some (.ok (), b') ∧ Unread b' (written b) ∧ b'.endian = b.endian := by
  rcases setPosition_back h (Nat.zero_le _) with ⟨b', hset, hchained, hend, -, hflat⟩
  refine ⟨b', hset, ⟨hchained, ?_⟩, hend⟩
  rw [hflat]
  rfl

/-! ## Encodings -/

def Takes {α : Type} (endian : Endian) (c : Call α) (bs : List UInt8) (v : α) : Prop :=
  ∀ b rest, b.endian = endian → Unread b (bs ++ rest) →
    ∃ b', c b = some (.ok v, b') ∧ Unread b' rest ∧ b'.endian = endian

theorem Takes.map {α β : Type} {endian : Endian} {c : Call α} {bs : List UInt8} {v : α}
    (h : Takes endian c bs v) (f : α → β) : Takes endian (c.map f) bs (f v) := by
  intro b rest hend hun
  rcases h b rest hend hun with ⟨b', hc, hun', hend'⟩
  exact ⟨b', by simp only [Call.map, hc, Option.map_some, Except.map], hun', hend'⟩

theorem Takes.bind {α β : Type} {endian : Endian} {c : Call α} {f : α → Call β}
    {bs cs : List UInt8} {v : α} {u : β} (h : Takes endian c bs v)
    (hf : Takes endian (f v) cs u) : Takes endian (c.bind f) (bs ++ cs) u := by
  intro b rest hend hun
  rw [List.append_assoc] at hun
  rcases h b (cs ++ rest) hend hun with ⟨b', hc, hun', hend'⟩
  rcases hf b' rest hend' hun' with ⟨b'', hc', hun'', hend''⟩
  exact ⟨b'', by simp only [Call.bind, hc, hc'], hun'', hend''⟩

theorem takes_pure {α : Type} (endian : Endian) (v : α) :
    Takes endian (fun b => some (.ok v, b)) [] v :=
  fun b _ hend hun => ⟨b, rfl, hun, hend⟩

theorem takes_read (endian : Endian) (bs : List UInt8) (hne : 1 ≤ bs.length) :
    Takes endian (ByteArray.read bs.length) bs bs := by
  intro b rest hend hun
  rcases hun.read hne with ⟨b', hread, hun', hend'⟩
  exact ⟨b', hread, hun', hend'.trans hend⟩

def fixedBytes (host endian : Endian) (n value : Nat) : List UInt8 :=
  memory host n (if endian ≠ host then byteswap n value else value)

/-- On a little-endian host the two tests of the byte order agree. -/
theorem takes_readF {n value : Nat} (hn : 1 ≤ n) (hv : value < 256 ^ n) (endian : Endian) :
    Takes endian (readF .little n) (fixedBytes .little endian n value) value := by
  have hlen : (fixedBytes .little endian n value).length = n := length_memory ..
  have hread := takes_read endian (fixedBytes .little endian n value) (by omega)
  rw [hlen] at hread
  intro b rest hend hun
  rcases hread b rest hend hun with ⟨b', hc, hun', hend'⟩
  refine ⟨b', ?_, hun', hend'⟩
  simp only [readF, Call.bind, hc, hend', fixedBytes]
  cases endian with
  | little => simp [ofMemory_memory .little hv]
  | big => simp [ofMemory_memory .little (byteswap_lt n value), byteswap_byteswap hv]

theorem takes_byte (endian : Endian) (value : BitVec 8) (host : Endian) :
    Takes endian (readFuint8 host) (memory host 1 value.toNat) value := by
  have hlen : (memory host 1 value.toNat).length = 1 := length_memory ..
  have hread := (takes_read endian (memory host 1 value.toNat) (by omega)).map
    fun buf => BitVec.ofNat 8 (ofMemory host buf)
  rw [hlen, ofMemory_memory host (show value.toNat < 256 ^ 1 from value.isLt)] at hread
  rwa [BitVec.ofNat_toNat, BitVec.setWidth_eq] at hread

/-! ### Zigzag -/

/-- The code of a negative number is odd, and no number is too large for its code. -/
theorem toNat_encodeZigzag {w : Nat} (hw : 1 < w) (v : BitVec w) :
    (encodeZigzag v).toNat = if v.msb then 2 * (2 ^ w - v.toNat) - 1 else v.toNat * 2 := by
  have hpow : 2 ^ w = 2 ^ (w - 1) * 2 := by rw [← Nat.pow_succ]; congr 1; omega
  have hbig : 2 ≤ 2 ^ (w - 1) := by
    calc 2 = 2 ^ 1 := rfl
      _ ≤ 2 ^ (w - 1) := Nat.pow_le_pow_right (by decide) (by omega)
  have hv := v.isLt
  have hone : (1 : BitVec w).toNat = 1 := by
    show (BitVec.ofNat w 1).toNat = 1
    rw [BitVec.toNat_ofNat, Nat.mod_eq_of_lt (by omega)]
  have htwo : (2 : BitVec w).toNat = 2 := by
    show (BitVec.ofNat w 2).toNat = 2
    rw [BitVec.toNat_ofNat, Nat.mod_eq_of_lt (by omega)]
  have hmsb : v.msb = decide (2 ^ (w - 1) ≤ v.toNat) := BitVec.msb_eq_decide v
  unfold encodeZigzag
  by_cases hneg : 2 ^ (w - 1) ≤ v.toNat
  · rw [hmsb, decide_eq_true hneg, if_pos rfl, if_pos rfl]
    have hmag : (-v).toNat = 2 ^ w - v.toNat := by
      rw [BitVec.toNat_neg, Nat.mod_eq_of_lt (by omega)]
    rw [BitVec.toNat_sub, BitVec.toNat_mul, hmag, htwo, hone]
    by_cases hmin : v.toNat = 2 ^ (w - 1)
    · -- twice the magnitude wraps around to zero, and taking one wraps back
      rw [hmin, show (2 ^ w - 2 ^ (w - 1)) * 2 = 2 ^ w by omega, Nat.mod_self,
        Nat.mod_eq_of_lt (by omega)]
      omega
    · rw [Nat.mod_eq_of_lt (show (2 ^ w - v.toNat) * 2 < 2 ^ w by omega),
        show 2 ^ w - 1 + (2 ^ w - v.toNat) * 2 = 2 * (2 ^ w - v.toNat) - 1 + 2 ^ w by omega,
        Nat.add_mod_right, Nat.mod_eq_of_lt (by omega)]
  · rw [hmsb, decide_eq_false hneg, if_neg (by decide), if_neg (by decide)]
    rw [BitVec.toNat_mul, htwo, Nat.mod_eq_of_lt (by omega)]

theorem decodeZigzag_encodeZigzag {w : Nat} (hw : 1 < w) (v : BitVec w) :
    decodeZigzag (encodeZigzag v) = v := by
  have hv := v.isLt
  have hcode := toNat_encodeZigzag hw v
  have hone : (1 : BitVec w).toNat = 1 := by
    show (BitVec.ofNat w 1).toNat = 1
    rw [BitVec.toNat_ofNat, Nat.mod_eq_of_lt (Nat.one_lt_two_pow (by omega))]
  unfold decodeZigzag
  apply BitVec.eq_of_toNat_eq
  cases hmsb : v.msb with
  | true =>
    rw [hmsb, if_pos rfl] at hcode
    -- half the code is one less than the magnitude
    have hhalf : (encodeZigzag v >>> 1).toNat = 2 ^ w - v.toNat - 1 := by
      rw [BitVec.toNat_ushiftRight, hcode, Nat.shiftRight_eq_div_pow]
      omega
    have hodd : encodeZigzag v &&& 1 = 1 := by
      apply BitVec.eq_of_toNat_eq
      rw [BitVec.toNat_and, hcode, hone, Nat.and_one_is_mod]
      omega
    rw [hodd, show -(1 : BitVec w) = BitVec.allOnes w from BitVec.neg_one_eq_allOnes,
      BitVec.xor_allOnes, BitVec.toNat_not, hhalf]
    omega
  | false =>
    rw [hmsb, if_neg (by decide)] at hcode
    have heven : encodeZigzag v &&& 1 = 0 := by
      apply BitVec.eq_of_toNat_eq
      rw [BitVec.toNat_and, hcode, hone, Nat.and_one_is_mod, Nat.mul_mod_left]
      rfl
    rw [heven, neg_zero, show (0 : BitVec w) = 0#w from rfl, BitVec.xor_zero,
      BitVec.toNat_ushiftRight, hcode, Nat.shiftRight_eq_div_pow]
    omega

/-! ### Varints -/

/-- The loop fits into `tmp` when the value has seven bits for each place. -/
theorem varintBytes_isSome {w : Nat} (room : Nat) (value : BitVec w)
    (hroom : value.toNat < 2 ^ (7 * room)) (hpos : 1 ≤ room) :
    ∃ bs, varintBytes room value = some bs ∧ 1 ≤ bs.length ∧ bs.length ≤ room := by
  induction room generalizing value with
  | zero => omega
  | succ room ih =>
    unfold varintBytes
    by_cases hmore : value.toNat ≥ 0x80
    · have hshift : (value >>> 7).toNat = value.toNat / 128 := by
        rw [BitVec.toNat_ushiftRight, Nat.shiftRight_eq_div_pow]
      have hroom' : 1 ≤ room := by
        rcases Nat.eq_zero_or_pos room with hz | hz
        · rw [hz] at hroom
          have : value.toNat < 128 := hroom
          omega
        · exact hz
      have hlt : (value >>> 7).toNat < 2 ^ (7 * room) := by
        rw [hshift, Nat.div_lt_iff_lt_mul (by decide)]
        rw [Nat.mul_succ, Nat.pow_add] at hroom
        exact hroom
      rcases ih (value >>> 7) hlt hroom' with ⟨bs, hbs, hlo, hhi⟩
      rw [if_pos hmore, hbs]
      exact ⟨_, rfl, by simp, by simpa using hhi⟩
    · rw [if_neg hmore]
      exact ⟨_, rfl, by simp, by simp⟩

/-- Or-ing in bits above those already there adds them. -/
theorem toNat_or_shiftLeft {w i : Nat} {r x : BitVec w} (hr : r.toNat < 2 ^ i)
    (hfit : r.toNat + x.toNat * 2 ^ i < 2 ^ w) :
    (r ||| x <<< i).toNat = r.toNat + x.toNat * 2 ^ i := by
  rw [BitVec.toNat_or, BitVec.toNat_shiftLeft, Nat.shiftLeft_eq, Nat.mod_eq_of_lt (by omega),
    Nat.or_comm, Nat.mul_comm x.toNat, ← Nat.two_pow_add_eq_or_of_lt hr, Nat.add_comm]

/-- Reading resumes at bit `i` with the lower bits in `result`. -/
theorem takes_readVarint {w : Nat} (hw : 8 ≤ w) (endian host : Endian) (turns i : Nat)
    (value result : BitVec w) {bs : List UInt8} (hbs : varintBytes turns value = some bs)
    (hi : i < w) (hresult : result.toNat < 2 ^ i)
    (hfit : result.toNat + value.toNat * 2 ^ i < 2 ^ w) :
    ∃ v, v.toNat = result.toNat + value.toNat * 2 ^ i ∧
      Takes endian (readVarint host turns i result) bs v := by
  induction turns generalizing i value result bs with
  | zero => cases hbs
  | succ turns ih =>
    have hwide : 2 ^ 8 ≤ 2 ^ w := Nat.pow_le_pow_right (by decide) hw
    have hval := value.isLt
    unfold varintBytes at hbs
    unfold readVarint
    rw [if_pos hi]
    by_cases hmore : value.toNat ≥ 0x80
    · rw [if_pos hmore, Option.map_eq_some_iff] at hbs
      rcases hbs with ⟨cs, hcs, rfl⟩
      -- the seven low bits go into this byte, the others into the rest
      have hlow : value.toNat &&& 0x7f = value.toNat % 128 := Nat.and_two_pow_sub_one_eq_mod _ 7
      have hcont : (value.toNat &&& 0x7f) ||| 0x80 = value.toNat % 128 + 128 := by
        rw [hlow, Nat.or_comm,
          ← Nat.two_pow_add_eq_or_of_lt (show value.toNat % 128 < 2 ^ 7 by omega) 1]
        omega
      have hbyte : ∃ byte : BitVec 8, byte.toNat = value.toNat % 128 + 128 :=
        ⟨BitVec.ofNat 8 (value.toNat % 128 + 128), by
          rw [BitVec.toNat_ofNat, Nat.mod_eq_of_lt (by omega)]⟩
      rcases hbyte with ⟨byte, hbyte⟩
      have hmem : [UInt8.ofNat ((value.toNat &&& 0x7f) ||| 0x80)] =
          memory host 1 byte.toNat := by
        rw [hcont, hbyte]
        cases host <;> rfl
      have hshift : (value >>> 7).toNat = value.toNat / 128 := by
        rw [BitVec.toNat_ushiftRight, Nat.shiftRight_eq_div_pow]
      have hbits : ((byte &&& 0x7f).setWidth w).toNat = value.toNat % 128 := by
        have hand : (byte &&& 0x7f).toNat = value.toNat % 128 := by
          rw [BitVec.toNat_and, hbyte]
          show (value.toNat % 128 + 128) &&& (2 ^ 7 - 1) = _
          rw [Nat.and_two_pow_sub_one_eq_mod]
          omega
        rw [BitVec.toNat_setWidth, hand, Nat.mod_eq_of_lt (by omega)]
      have hpow : 2 ^ (i + 7) = 2 ^ i * 128 := by rw [Nat.pow_add]
      have hparts : value.toNat % 128 * 2 ^ i + value.toNat / 128 * (2 ^ i * 128) =
          value.toNat * 2 ^ i := by
        have hdm := Nat.div_add_mod value.toNat 128
        calc value.toNat % 128 * 2 ^ i + value.toNat / 128 * (2 ^ i * 128)
            = (128 * (value.toNat / 128) + value.toNat % 128) * 2 ^ i := by ring
          _ = value.toNat * 2 ^ i := by rw [hdm]
      have hor : (result ||| (byte &&& 0x7f).setWidth w <<< i).toNat =
          result.toNat + value.toNat % 128 * 2 ^ i := by
        rw [toNat_or_shiftLeft hresult (by rw [hbits]; omega), hbits]
      have hnext : i + 7 < w := by
        have hone : 2 ^ i * 128 ≤ value.toNat / 128 * (2 ^ i * 128) :=
          Nat.le_mul_of_pos_left _ (by omega)
        apply (Nat.pow_lt_pow_iff_right (show 1 < 2 by decide)).mp
        omega
      have hresult' : (result ||| (byte &&& 0x7f).setWidth w <<< i).toNat < 2 ^ (i + 7) := by
        have hle : value.toNat % 128 * 2 ^ i ≤ 127 * 2 ^ i :=
          Nat.mul_le_mul_right _ (by omega)
        omega
      rcases ih (i + 7) (value >>> 7) (result ||| (byte &&& 0x7f).setWidth w <<< i) hcs hnext
        hresult' (by rw [hor, hshift, hpow]; omega) with ⟨v, hv, htakes⟩
      refine ⟨v, by rw [hv, hor, hshift, hpow]; omega, ?_⟩
      have hgo : ¬ byte.toNat < 0x80 := by omega
      show Takes endian _ ([UInt8.ofNat ((value.toNat &&& 0x7f) ||| 0x80)] ++ cs) v
      rw [hmem]
      apply (takes_byte endian byte host).bind
      rw [if_neg hgo]
      exact htakes
    · rw [if_neg hmore] at hbs
      cases hbs
      have hbyte : (BitVec.ofNat 8 value.toNat).toNat = value.toNat := by
        rw [BitVec.toNat_ofNat, Nat.mod_eq_of_lt (by omega)]
      have hwiden : ((BitVec.ofNat 8 value.toNat).setWidth w).toNat = value.toNat := by
        rw [BitVec.toNat_setWidth, hbyte, Nat.mod_eq_of_lt hval]
      have hmem : [UInt8.ofNat value.toNat] =
          memory host 1 (BitVec.ofNat 8 value.toNat).toNat := by
        rw [hbyte]
        cases host <;> rfl
      refine ⟨result ||| (BitVec.ofNat 8 value.toNat).setWidth w <<< i, ?_, ?_⟩
      · rw [toNat_or_shiftLeft hresult (by rw [hwiden]; exact hfit), hwiden]
      · have hstop : (BitVec.ofNat 8 value.toNat).toNat < 0x80 := by omega
        rw [hmem, ← List.append_nil (memory host 1 _)]
        apply (takes_byte endian _ host).bind
        rw [if_pos hstop]
        exact takes_pure endian _

/-- A whole varint is read back. -/
theorem takes_varint {w : Nat} (hw : 8 ≤ w) (endian host : Endian) (turns : Nat)
    (value : BitVec w) {bs : List UInt8} (hbs : varintBytes turns value = some bs) :
    Takes endian (readVarint host turns 0 0) bs value := by
  have hzero : (0 : BitVec w).toNat = 0 := BitVec.toNat_ofNat ..|>.trans (Nat.zero_mod _)
  have hsum : (0 : BitVec w).toNat + value.toNat * 2 ^ 0 = value.toNat := by
    rw [hzero, Nat.zero_add, Nat.pow_zero, Nat.mul_one]
  rcases takes_readVarint hw endian host turns 0 value 0 hbs (by omega)
    (by rw [hzero]; decide) (by rw [hsum]; exact value.isLt) with ⟨v, hv, htakes⟩
  have heq : v = value := BitVec.eq_of_toNat_eq (hv.trans hsum)
  rwa [heq] at htakes

/-! ## Values -/

structure Encodes (host endian : Endian) (v : Value) (bs : List UInt8) : Prop where
  small : bs.length < 2 ^ 53
  writes : ∀ garbage b, b.endian = endian → writeValue host garbage v b = b.write garbage bs
  takes : Takes endian (readValue host v.1) bs v.2

theorem encodes_fixed (endian : Endian) {n w : Nat} (hn : 1 ≤ n) (hsmall : n < 2 ^ 53)
    (hw : 256 ^ n = 2 ^ w) (v : BitVec w) :
    (fixedBytes .little endian n v.toNat).length < 2 ^ 53 ∧
      (∀ garbage b, b.endian = endian → writeF .little n garbage v.toNat b =
        b.write garbage (fixedBytes .little endian n v.toNat)) ∧
      Takes endian ((readF .little n).map (BitVec.ofNat w)) (fixedBytes .little endian n v.toNat)
        v := by
  refine ⟨?_, ?_, ?_⟩
  · rw [fixedBytes, length_memory]
    exact hsmall
  · intro garbage b hend
    simp only [writeF, fixedBytes, hend]
  · have htakes := (takes_readF hn (show v.toNat < 256 ^ n by rw [hw]; exact v.isLt) endian).map
      (BitVec.ofNat w)
    rwa [BitVec.ofNat_toNat, BitVec.setWidth_eq] at htakes

theorem encodes_byte (endian : Endian) (v : BitVec 8) :
    (memory .little 1 v.toNat).length < 2 ^ 53 ∧
      Takes endian (readFuint8 .little) (memory .little 1 v.toNat) v :=
  ⟨by rw [length_memory]; decide, takes_byte endian v .little⟩

theorem encodes_varint {w : Nat} (hw : 8 ≤ w) (endian : Endian) (room : Nat) (hpos : 1 ≤ room)
    (hroom : w ≤ 7 * room) (hsmall : room < 2 ^ 53) (v : BitVec w) :
    ∃ bs, varintBytes room v = some bs ∧ bs.length < 2 ^ 53 ∧
      Takes endian (readVarint .little room 0 0) bs v := by
  have hlt : v.toNat < 2 ^ (7 * room) :=
    Nat.lt_of_lt_of_le v.isLt (Nat.pow_le_pow_right (by decide) hroom)
  rcases varintBytes_isSome room v hlt hpos with ⟨bs, hbs, -, hle⟩
  exact ⟨bs, hbs, by omega, takes_varint hw endian .little room v hbs⟩

theorem writeUint32_eq {v : BitVec 32} {bs : List UInt8} (hbs : varintBytes 5 v = some bs)
    (garbage : Garbage) (b : ByteArray) : writeUint32 garbage v b = b.write garbage bs := by
  rw [writeUint32, hbs]
  rfl

theorem writeUint64_eq {v : BitVec 64} {bs : List UInt8} (hbs : varintBytes 10 v = some bs)
    (garbage : Garbage) (b : ByteArray) : writeUint64 garbage v b = b.write garbage bs := by
  rw [writeUint64, hbs]
  rfl

/-- Every value has an encoding on a little-endian host. -/
theorem exists_encodes (endian : Endian) (v : Value) : ∃ bs, Encodes .little endian v bs := by
  rcases v with ⟨k, v⟩
  cases k with
  | fint8 | fuint8 =>
    have h := encodes_byte endian v
    exact ⟨_, h.1, fun _ _ _ => rfl, h.2⟩
  | fint16 | fuint16 =>
    have h := encodes_fixed endian (n := 2) (by decide) (by decide) (by decide) v
    exact ⟨_, h.1, h.2.1, h.2.2⟩
  | fint32 | fuint32 | float =>
    have h := encodes_fixed endian (n := 4) (by decide) (by decide) (by decide) v
    exact ⟨_, h.1, h.2.1, h.2.2⟩
  | fint64 | fuint64 | double =>
    have h := encodes_fixed endian (n := 8) (by decide) (by decide) (by decide) v
    exact ⟨_, h.1, h.2.1, h.2.2⟩
  | uint32 =>
    rcases encodes_varint (by decide) endian 5 (by decide) (by decide) (by decide) v with
      ⟨bs, hbs, hsmall, htakes⟩
    exact ⟨bs, hsmall, fun garbage b _ => writeUint32_eq hbs garbage b, htakes⟩
  | uint64 =>
    rcases encodes_varint (by decide) endian 10 (by decide) (by decide) (by decide) v with
      ⟨bs, hbs, hsmall, htakes⟩
    exact ⟨bs, hsmall, fun garbage b _ => writeUint64_eq hbs garbage b, htakes⟩
  | int32 =>
    rcases encodes_varint (by decide) endian 5 (by decide) (by decide) (by decide)
      (encodeZigzag32 v) with ⟨bs, hbs, hsmall, htakes⟩
    have hback := htakes.map decodeZigzag32
    rw [show decodeZigzag32 (encodeZigzag32 v) = v from
      decodeZigzag_encodeZigzag (by decide) v] at hback
    exact ⟨bs, hsmall, fun garbage b _ => writeUint32_eq hbs garbage b, hback⟩
  | int64 =>
    rcases encodes_varint (by decide) endian 10 (by decide) (by decide) (by decide)
      (encodeZigzag64 v) with ⟨bs, hbs, hsmall, htakes⟩
    have hback := htakes.map decodeZigzag64
    rw [show decodeZigzag64 (encodeZigzag64 v) = v from
      decodeZigzag_encodeZigzag (by decide) v] at hback
    exact ⟨bs, hsmall, fun garbage b _ => writeUint64_eq hbs garbage b, hback⟩

/-! ## Sequences -/

/-- Writing values at the end appends bytes that reading their kinds takes off again. -/
theorem writeAll_spec (endian : Endian) (vs : List (Garbage × Value)) {b : ByteArray}
    (h : Chained b) (hend : b.endian = endian) (hlast : b.position = b.size) :
    ∃ b' bs, writeAll .little vs b = some b' ∧ Chained b' ∧ b'.endian = endian ∧
      written b' = written b ++ bs ∧
      Takes endian (readAll .little (vs.map fun p => p.2.1)) bs (vs.map Prod.snd) := by
  induction vs generalizing b with
  | nil => exact ⟨b, [], rfl, h, hend, by simp, takes_pure endian []⟩
  | cons p vs ih =>
    rcases p with ⟨garbage, v⟩
    rcases exists_encodes endian v with ⟨bs, henc⟩
    rcases write_small h garbage henc.small with ⟨c, hwrite, hwrote⟩
    rcases hwrote.written hlast with ⟨hlast', hwritten⟩
    rcases ih hwrote.chained (hwrote.endian.trans hend) hlast' with
      ⟨b', cs, hall, hb', hend', hwritten', htakes⟩
    refine ⟨b', bs ++ cs, ?_, hb', hend', ?_, ?_⟩
    · simp only [writeAll, henc.writes garbage b hend, hwrite, Option.bind_eq_bind,
        Option.bind_some, hall]
    · rw [hwritten', hwritten, List.append_assoc]
    · exact henc.takes.bind (htakes.map (v :: ·))

theorem Chained.setIsLittleEndian {b : ByteArray} (h : Chained b) (val : Bool) :
    Chained (ByteArray.setIsLittleEndian val b) :=
  ⟨h.base_pos, h.uniform, h.nonempty, h.capacity_eq, h.position_le, h.size_le, h.cursor⟩

/-- The round trip: on a little-endian host, in either `m_endian` setting and for every node size,
values written one after another are read back in the same order, and nothing is left to read. -/
theorem codec_round_trip {basesize : Nat} (hbase : 1 ≤ basesize) (garbage : Nat → UInt8)
    (littleEndian : Bool) (vs : List (Garbage × Value)) :
    ∃ b b₀ b', writeAll .little vs (setIsLittleEndian littleEndian (new basesize garbage)) =
        some b ∧
      b.setPosition 0 = some (.ok (), b₀) ∧
      readAll .little (vs.map fun p => p.2.1) b₀ = some (.ok (vs.map Prod.snd), b') ∧
      b'.getReadSize = 0 := by
  have hstart := (new_chained hbase garbage).setIsLittleEndian littleEndian
  rcases writeAll_spec _ vs hstart rfl rfl with ⟨b, bs, hwrite, hb, hend, hwritten, htakes⟩
  rcases setPosition_zero hb with ⟨b₀, hset, hun, hend₀⟩
  have hempty : written (setIsLittleEndian littleEndian (new basesize garbage)) = [] :=
    slice_zero ..
  rw [hwritten, hempty, List.nil_append, ← List.append_nil bs] at hun
  rcases htakes b₀ [] (hend₀.trans hend) hun with ⟨b', hread, hrest, -⟩
  refine ⟨b, b₀, b', hwrite, hset, hread, ?_⟩
  rw [hrest.1.getReadSize, ← hrest.length, List.length_nil]

/-- Three values of three kinds across nodes of one byte. -/
theorem codec_round_trip_bytewise : ∃ b b₀ b',
    writeAll .little [(fun _ _ => 7, ⟨.fint32, 0x01020304⟩), (fun _ _ => 8, ⟨.int64, -300⟩),
        (fun _ _ => 9, ⟨.double, 0x3ff0000000000000⟩)]
      (setIsLittleEndian false (new 1 fun _ => 0)) = some b ∧
      b.setPosition 0 = some (.ok (), b₀) ∧
      readAll .little [.fint32, .int64, .double] b₀ =
        some (.ok [⟨.fint32, 0x01020304⟩, ⟨.int64, -300⟩, ⟨.double, 0x3ff0000000000000⟩], b') ∧
      b'.getReadSize = 0 :=
  codec_round_trip (by decide) (fun _ => 0) false
    [(fun _ _ => 7, ⟨.fint32, 0x01020304⟩), (fun _ _ => 8, ⟨.int64, -300⟩),
      (fun _ _ => 9, ⟨.double, 0x3ff0000000000000⟩)]

end ByteArray

end Azure
