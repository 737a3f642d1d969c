import Azure.ByteArray.Session
import Azure.Reasoning.Base128

/-!
# The shape of a varint

What the writers of varints put into `tmp` is the shortest number in base 128 that has the value,
and its own end can be told from it.  The reader stops there, whatever follows.
-/

namespace Azure

open Reasoning Base128

namespace ByteArray

/-- The low seven bits with the highest bit set. -/
theorem toNat_more (n : Nat) : (UInt8.ofNat ((n &&& 0x7f) ||| 0x80)).toNat = n % 128 + 128 := by
  have hlow : n &&& 0x7f = n % 128 := Nat.and_two_pow_sub_one_eq_mod _ 7
  have hset : (n &&& 0x7f) ||| 0x80 = n % 128 + 128 := by
    rw [hlow, Nat.or_comm, ← Nat.two_pow_add_eq_or_of_lt (show n % 128 < 2 ^ 7 by omega) 1]
    omega
  rw [hset, UInt8.toNat_ofNat', Nat.mod_eq_of_lt (by omega)]

/-- The loop of a writer holds in `value` what the bytes to come stand for. -/
theorem varintBytes_base128 {w room : Nat} {value : BitVec w} {bs : List UInt8}
    (hbs : varintBytes room value = some bs) :
    Terminated bs ∧ Base128.value bs = value.toNat ∧
      ∀ byte, bs.getLast? = some byte → byte.toNat = 0 → bs.length = 1 ∧ value.toNat = 0 := by
  induction room generalizing value bs with
  | zero => cases hbs
  | succ room ih =>
    unfold varintBytes at hbs
    by_cases hmore : value.toNat ≥ 0x80
    · rw [if_pos hmore, Option.map_eq_some_iff] at hbs
      rcases hbs with ⟨cs, hcs, rfl⟩
      rcases ih hcs with ⟨hterm, hvalue, hzero⟩
      have hshift : (value >>> 7).toNat = value.toNat / 128 := by
        rw [BitVec.toNat_ushiftRight, Nat.shiftRight_eq_div_pow]
      have hbyte := toNat_more value.toNat
      refine ⟨(terminated_cons hterm.ne_nil).mpr ⟨by omega, hterm⟩, ?_, ?_⟩
      · rw [Base128.value, hbyte, hvalue, hshift]
        omega
      · -- what is left after the shift is not zero, so neither is the last byte
        intro byte hlast hbyte0
        rw [List.getLast?_cons, Option.some_inj] at hlast
        have hlast' : cs.getLast? = some byte := by
          rw [List.getLast?_eq_some_getLast hterm.ne_nil]
          rw [List.getLast?_eq_some_getLast hterm.ne_nil] at hlast
          exact congrArg some hlast
        have hnone := (hzero byte hlast' hbyte0).2
        omega
    · rw [if_neg hmore] at hbs
      cases hbs
      have hlt : value.toNat < 128 := Nat.not_le.mp hmore
      have hbyte : (UInt8.ofNat value.toNat).toNat = value.toNat := by
        rw [UInt8.toNat_ofNat', Nat.mod_eq_of_lt (by omega)]
      refine ⟨?_, ?_, ?_⟩
      · show (UInt8.ofNat value.toNat).toNat < 128
        rw [hbyte]
        exact hlt
      · rw [Base128.value, Base128.value, hbyte, Nat.mod_eq_of_lt hlt, Nat.mul_zero, Nat.add_zero]
      · intro byte hlast hbyte0
        have hsame : UInt8.ofNat value.toNat = byte := Option.some.inj hlast
        rw [← hsame, hbyte] at hbyte0
        exact ⟨rfl, hbyte0⟩

theorem varintBytes_trimmed {w room : Nat} {value : BitVec w} {bs : List UInt8}
    (hbs : varintBytes room value = some bs) : Trimmed bs := by
  intro hlong byte hlast hzero
  have hone := ((varintBytes_base128 hbs).2.2 byte hlast hzero).1
  omega

/-- Seven more bits above the first `i`. -/
theorem toNat_or_shiftLeft_lt {w i : Nat} {r x : BitVec w} (hr : r.toNat < 2 ^ i)
    (hx : x.toNat < 2 ^ 7) : (r ||| x <<< i).toNat < 2 ^ (i + 7) := by
  have hwide : r.toNat < 2 ^ (i + 7) :=
    Nat.lt_of_lt_of_le hr (Nat.pow_le_pow_right (by decide) (by omega))
  have hshifted : (x <<< i).toNat < 2 ^ (i + 7) := by
    rw [BitVec.toNat_shiftLeft, Nat.shiftLeft_eq, Nat.pow_add, Nat.mul_comm (2 ^ i)]
    apply Nat.lt_of_le_of_lt (Nat.mod_le _ _)
    exact Nat.mul_lt_mul_of_pos_right hx (Nat.two_pow_pos i)
  rw [BitVec.toNat_or]
  exact Nat.or_lt_two_pow hwide hshifted

/-- A reader that has taken `n` bytes has seen no more than `7 * n` bits. -/
theorem scanVarint_lt {w turns i : Nat} {result v : BitVec w} {bs : List UInt8}
    (hresult : result.toNat < 2 ^ i) (h : (scanVarint turns i result bs).1 = some v) :
    v.toNat < 2 ^ (i + 7 * (scanVarint turns i result bs).2) := by
  induction turns generalizing i result bs with
  | zero =>
    cases h
    exact hresult
  | succ turns ih =>
    unfold scanVarint at h ⊢
    by_cases hi : i < w
    · rw [if_pos hi] at h ⊢
      cases bs with
      | nil => cases h
      | cons byte rest =>
        dsimp only at h ⊢
        by_cases hstop : byte.toNat < 0x80
        · rw [if_pos hstop] at h ⊢
          cases h
          apply toNat_or_shiftLeft_lt hresult
          rw [BitVec.toNat_setWidth, BitVec.toNat_ofNat]
          exact Nat.lt_of_le_of_lt (Nat.le_trans (Nat.mod_le _ _) (Nat.mod_le _ _)) hstop
        · rw [if_neg hstop] at h ⊢
          have hbits : ((BitVec.ofNat 8 byte.toNat &&& 0x7f).setWidth w).toNat < 2 ^ 7 := by
            rw [BitVec.toNat_setWidth, BitVec.toNat_and]
            apply Nat.lt_of_le_of_lt (Nat.mod_le _ _)
            exact Nat.lt_of_le_of_lt Nat.and_le_right (by decide)
          have hnext := ih (toNat_or_shiftLeft_lt hresult hbits) h
          dsimp only
          rwa [Nat.mul_succ, Nat.add_comm (7 * _) 7, ← Nat.add_assoc]
    · rw [if_neg hi] at h ⊢
      cases h
      exact hresult

/-- A varint that is read takes as many bytes as its value needs. -/
theorem scanVarint_length {w room turns : Nat} {value : BitVec w} {bs xs : List UInt8}
    (hw : 0 < w) (hbs : varintBytes room value = some bs)
    (h : (scanVarint (turns + 1) 0 0 xs).1 = some value) :
    bs.length ≤ (scanVarint (turns + 1) 0 (0 : BitVec w) xs).2 := by
  have hlt := scanVarint_lt (by simp) h
  rw [Nat.zero_add, Nat.pow_mul] at hlt
  apply (varintBytes_trimmed hbs).length_le (varintBytes_base128 hbs).1 (scanVarint_pos hw h)
  rwa [(varintBytes_base128 hbs).2.1]

/-- `bs` is the encoding of `value` in a `tmp` of `room` bytes. -/
structure Varint {w : Nat} (room : Nat) (write : Garbage → BitVec w → ByteArray → Option ByteArray)
    (read : Endian → Call (BitVec w)) (value : BitVec w) (bs : List UInt8) : Prop where
  writes : ∀ garbage b, write garbage value b = b.write garbage bs
  length_pos : 1 ≤ bs.length
  length_le : bs.length ≤ room
  more : ∀ byte ∈ bs.dropLast, 0x80 ≤ byte.toNat
  last : ∃ byte, bs.getLast? = some byte ∧ byte.toNat < 0x80 ∧ (1 < bs.length → byte.toNat ≠ 0)
  value_eq : Base128.value bs = value.toNat
  /-- No number in base 128 with this value is shorter. -/
  shortest : ∀ cs, Terminated cs → Base128.value cs = value.toNat → bs.length ≤ cs.length
  /-- No bytes of which the reader makes this value are fewer. -/
  least : ∀ host b b', Chained b → read host b = some (.ok value, b') →
    b.position + bs.length ≤ b'.position
  reads : ∀ host b rest, Chained b → b.flat.toString = bs ++ rest →
    ∃ b', read host b = some (.ok value, b') ∧ Advanced b b' bs.length

def Varints {w : Nat} (room : Nat) (write : Garbage → BitVec w → ByteArray → Option ByteArray)
    (read : Endian → Call (BitVec w)) : Prop :=
  (∀ value : BitVec w, ∃ bs, varintBytes room value = some bs ∧ Varint room write read value bs) ∧
    ∀ (value other : BitVec w) (bs cs : List UInt8), varintBytes room value = some bs →
      varintBytes room other = some cs → bs <+: cs → bs = cs

/-- The reader consumes exactly the encoding at the front of what is unread. -/
theorem readVarint_advanced {w turns : Nat} (hw : 8 ≤ w) (host : Endian) {value : BitVec w}
    {bs rest : List UInt8} (hbs : varintBytes turns value = some bs) {b : ByteArray}
    (hb : Chained b) (hun : b.flat.toString = bs ++ rest) :
    ∃ b', readVarint host turns 0 0 b = some (.ok value, b') ∧ Advanced b b' bs.length := by
  rcases takes_varint hw b.endian host turns value hbs b rest rfl ⟨hb, hun⟩ with
    ⟨b', hread, hun', -⟩
  rcases reads_readVarint host b.endian turns 0 0 b hb rfl with ⟨b'', hread', hadv⟩
  rw [hread, Option.some_inj, Prod.mk.injEq] at hread'
  rw [← hread'.2] at hadv
  refine ⟨b', hread, ?_⟩
  -- what is left tells how far the position has moved
  have hlen := length_toString hb
  rw [hun, List.length_append] at hlen
  have hlen' := hun'.length
  rw [hadv.position, hadv.size] at hlen'
  have hin := hadv.chained.position_le
  rw [hadv.position, hadv.size] at hin
  have htaken : (scanVarint turns 0 (0 : BitVec w) b.flat.toString).2 = bs.length := by omega
  rwa [htaken] at hadv

theorem varints_readVarint {w turns : Nat} (hw : 8 ≤ w) (hroom : w ≤ 7 * (turns + 1))
    {write : Garbage → BitVec w → ByteArray → Option ByteArray}
    (hwrite : ∀ garbage value b bs, varintBytes (turns + 1) value = some bs →
      write garbage value b = b.write garbage bs) :
    Varints (turns + 1) write fun host => readVarint host (turns + 1) 0 0 := by
  constructor
  · intro value
    have hlt : value.toNat < 2 ^ (7 * (turns + 1)) :=
      Nat.lt_of_lt_of_le value.isLt (Nat.pow_le_pow_right (by decide) hroom)
    rcases varintBytes_isSome (turns + 1) value hlt (by omega) with ⟨bs, hbs, hpos, hle⟩
    rcases varintBytes_base128 hbs with ⟨hterm, hvalue, -⟩
    rcases terminated_iff.mp hterm with ⟨hmore, byte, hlast, hlow⟩
    refine ⟨bs, hbs, fun garbage b => hwrite garbage value b bs hbs, hpos, hle, hmore,
      ⟨byte, hlast, hlow, fun hlong => varintBytes_trimmed hbs hlong byte hlast⟩, hvalue, ?_, ?_,
      fun host b rest hb hun => readVarint_advanced hw host hbs hb hun⟩
    · intro cs hcs heq
      exact (varintBytes_trimmed hbs).shortest hterm hcs (heq.trans hvalue.symm)
    · intro host b b' hb hread
      rcases reads_readVarint host b.endian (turns + 1) 0 (0 : BitVec w) b hb rfl with
        ⟨b'', hread', hadv⟩
      rw [hread, Option.some_inj, Prod.mk.injEq] at hread'
      rw [← hread'.2] at hadv
      have hsome : (scanVarint (turns + 1) 0 (0 : BitVec w) b.flat.toString).1 = some value := by
        cases hscan : (scanVarint (turns + 1) 0 (0 : BitVec w) b.flat.toString).1 with
        | none =>
          rw [hscan] at hread'
          cases hread'.1
        | some v =>
          rw [hscan] at hread'
          cases hread'.1
          rfl
      have htaken := scanVarint_length (by omega) hbs hsome
      rw [hadv.position]
      omega
  · intro value other bs cs hbs hcs hbegin
    exact (varintBytes_base128 hbs).1.eq_of_isPrefix (varintBytes_base128 hcs).1 hbegin

/-- The varints of both widths. -/
theorem varints_canonical : Varints 5 writeUint32 readUint32 ∧ Varints 10 writeUint64 readUint64 :=
  ⟨varints_readVarint (by decide) (by decide) fun garbage _ b _ hbs => writeUint32_eq hbs garbage b,
    varints_readVarint (by decide) (by decide) fun garbage _ b _ hbs =>
      writeUint64_eq hbs garbage b⟩

end ByteArray

end Azure
