import Azure.ByteArray.Session

/-!
# The byte order of the host

The writers swap when `m_endian` is not the order of the host, so they put the same bytes down on
every host.  The readers swap when it is big, and that is the same test on a little-endian host only.
-/

namespace Azure

open Reasoning

namespace ByteArray

def Kind.Ordered : Kind → Prop
  | .fint16 | .fuint16 | .fint32 | .fuint32 | .fint64 | .fuint64 | .float | .double => True
  | .fint8 | .fuint8 | .int32 | .uint32 | .int64 | .uint64 => False

def Kind.bytes (k : Kind) : Nat := k.width / 8

theorem Kind.pow_bytes (k : Kind) : 256 ^ k.bytes = 2 ^ k.width := by
  cases k <;> decide

theorem fixedBytes_eq (host endian : Endian) (n value : Nat) :
    fixedBytes host endian n value = memory endian n value := memory_swapped host endian n value

/-- What the writers write does not depend on the host. -/
theorem writeValue_ordered {k : Kind} (hk : k.Ordered) (host : Endian) (garbage : Garbage)
    (v : BitVec k.width) (b : ByteArray) :
    writeValue host garbage ⟨k, v⟩ b = b.write garbage (memory b.endian k.bytes v.toNat) := by
  rw [← fixedBytes_eq host]
  cases k with
  | fint16 | fuint16 | fint32 | fuint32 | fint64 | fuint64 | float | double => rfl
  | fint8 | fuint8 | int32 | uint32 | int64 | uint64 => exact absurd hk id

theorem valueOf_ordered {k : Kind} (hk : k.Ordered) (host endian : Endian) :
    valueOf host endian k = mapValue (BitVec.ofNat k.width) (fixedOf host endian k.bytes) := by
  cases k with
  | fint16 | fuint16 | fint32 | fuint32 | fint64 | fuint64 | float | double => rfl
  | fint8 | fuint8 | int32 | uint32 | int64 | uint64 => exact absurd hk id

/-- The reader tests for big endian, not for the order of its host. -/
theorem fixedOf_memory (host endian : Endian) {n v : Nat} (hv : v < 256 ^ n) (rest : List UInt8) :
    fixedOf host endian n (memory endian n v ++ rest) =
      (some (if host = .little then v else byteswap n v), n) := by
  have hlen := length_memory endian n v
  have hfit : n ≤ (memory endian n v ++ rest).length := by
    rw [List.length_append]
    omega
  have htake : (memory endian n v ++ rest).take n = memory endian n v := by
    rw [List.take_append_of_le_length (by omega), List.take_of_length_le (by omega)]
  unfold fixedOf
  rw [if_pos hfit, htake]
  dsimp only
  -- four cases: the reader swaps when `endian` is big, its host when it is big
  cases host with
  | little =>
    cases endian with
    | little => rw [ofMemory_memory .little hv]; rfl
    | big =>
      show (some (byteswap n (byteswap n v)), n) = (some v, n)
      rw [byteswap_byteswap hv]
  | big =>
    cases endian with
    | little => rfl
    | big => rw [ofMemory_memory .big hv]; rfl

/-- The writer puts the value down in the order of `m_endian`, and the reader, on a host of its own,
makes the value of these bytes. -/
def Portable (writer reader : Endian) (k : Kind) (v : BitVec k.width) (b c : ByteArray) : Prop :=
  (∀ garbage, ∃ b', writeValue writer garbage ⟨k, v⟩ b = some b' ∧
    Flat.Step b.basesize b.flat (.write garbage (memory b.endian k.bytes v.toNat), .done) b'.flat) ∧
  ∃ c', readValue reader k c = some (.ok v, c') ∧ c'.position = c.position + k.bytes

/-- The bytes on the wire are always right; they are read back exactly on a little-endian host, and
on a big-endian one where the value is the same in both orders. -/
theorem portable_iff {writer reader : Endian} {maxSize : Nat} {b c : ByteArray}
    (hb : Reached writer maxSize b) (hc : Reached reader maxSize c) (hend : c.endian = b.endian)
    {k : Kind} (hk : k.Ordered) (v : BitVec k.width) {rest : List UInt8}
    (hun : c.flat.toString = memory b.endian k.bytes v.toNat ++ rest) :
    Portable writer reader k v b c ↔
      reader = .little ∨ byteswap k.bytes v.toNat = v.toNat := by
  have hlt : v.toNat < 256 ^ k.bytes := by
    rw [k.pow_bytes]
    exact v.isLt
  have hwrites : ∀ garbage, ∃ b', writeValue writer garbage ⟨k, v⟩ b = some b' ∧
      Flat.Step b.basesize b.flat (.write garbage (memory b.endian k.bytes v.toNat), .done)
        b'.flat := by
    intro garbage
    have hsmall : (memory b.endian k.bytes v.toNat).length < 2 ^ 53 := by
      rw [length_memory]
      cases k <;> decide
    rcases write_spec hb.chained garbage _ hsmall with ⟨b', hwrite, -, -, hstep⟩
    exact ⟨b', by rw [writeValue_ordered hk, hwrite], hstep⟩
  -- the reader finds the bytes of the value, and swaps them or not
  rcases reads_value reader b.endian k c hc.chained hend with ⟨c', hread, hadv⟩
  rw [valueOf_ordered hk, mapValue, hun, fixedOf_memory reader b.endian hlt] at hread hadv
  dsimp only [Option.map_some, orThrow] at hread hadv
  constructor
  · rintro ⟨-, c'', hread', -⟩
    rw [hread] at hread'
    injection hread' with hpair
    injection hpair with hvalue
    injection hvalue with hv
    cases reader with
    | little => exact Or.inl rfl
    | big =>
      have hback := congrArg BitVec.toNat hv
      rw [if_neg (by decide), BitVec.toNat_ofNat, ← k.pow_bytes,
        Nat.mod_eq_of_lt (byteswap_lt _ _)] at hback
      exact Or.inr hback
  · intro hor
    refine ⟨hwrites, c', ?_, hadv.position⟩
    have hsame : (if reader = .little then v.toNat else byteswap k.bytes v.toNat) = v.toNat := by
      split
      · rfl
      · next hbig => exact hor.resolve_left hbig
    rw [hread, hsame, BitVec.ofNat_toNat, BitVec.setWidth_eq]

theorem portable_iff_quad :
    Portable .big .little .fuint16 0x0102 (quad 0 0 0 0) (quad 1 2 3 4) := by
  have hun : (quad 1 2 3 4).flat.toString =
      memory (quad 0 0 0 0).endian (Kind.bytes .fuint16) (0x0102 : BitVec 16).toNat ++ [3, 4] := by
    decide
  apply (portable_iff (reached_quad .big 100 0 0 0 0) (reached_quad .little 100 1 2 3 4) rfl
    (k := .fuint16) trivial 0x0102 hun).mpr
  exact Or.inl rfl

/-- A big-endian host writes `01 02`, and reads `0x0201` where it stands. -/
theorem swapped_on_big_host :
    ∃ b', Reached .big 100 (quad 1 2 3 4) ∧
      writeFuint16 .big (fun _ _ => 0) 0x0102 (quad 0 0 3 4) = some b' ∧
      b'.flat.bytes = (quad 1 2 3 4).flat.bytes ∧
      (readFuint16 .big (quad 1 2 3 4)).map Prod.fst = some (.ok 0x0201) ∧
      ¬ Portable .big .big .fuint16 0x0102 (quad 0 0 3 4) (quad 1 2 3 4) := by
  refine ⟨_, reached_quad .big 100 1 2 3 4, rfl, rfl, rfl, ?_⟩
  rintro ⟨-, c', hread, -⟩
  have hvalue : (readFuint16 .big (quad 1 2 3 4)).map Prod.fst = some (.ok 0x0102) :=
    congrArg (Option.map Prod.fst) hread
  exact absurd hvalue (by decide)

end ByteArray

end Azure
