import Azure.ByteArray.Strings

/-!
# Sessions of public calls

Every public call keeps the cursor invariant, so what a reader does in a state that calls lead to
follows from the bytes that are left to read.  Two things can go wrong: a read of nothing at the end
of the capacity looks at a node that is not there, and a reader that takes its bytes in several
reads has moved when a later one throws.
-/

namespace Azure

open Reasoning

namespace ByteArray

/-! ## Typed readers -/

def valueOf (host endian : Endian) : (k : Kind) → List UInt8 → Option (BitVec k.width) × Nat
  | .fint8 => byteOf
  | .fuint8 => byteOf
  | .fint16 => mapValue (BitVec.ofNat 16) (fixedOf host endian 2)
  | .fuint16 => mapValue (BitVec.ofNat 16) (fixedOf host endian 2)
  | .fint32 => mapValue (BitVec.ofNat 32) (fixedOf host endian 4)
  | .fuint32 => mapValue (BitVec.ofNat 32) (fixedOf host endian 4)
  | .fint64 => mapValue (BitVec.ofNat 64) (fixedOf host endian 8)
  | .fuint64 => mapValue (BitVec.ofNat 64) (fixedOf host endian 8)
  | .int32 => mapValue decodeZigzag32 (scanVarint 5 0 (0 : BitVec 32))
  | .uint32 => scanVarint 5 0 (0 : BitVec 32)
  | .int64 => mapValue decodeZigzag64 (scanVarint 10 0 (0 : BitVec 64))
  | .uint64 => scanVarint 10 0 (0 : BitVec 64)
  | .float => mapValue (BitVec.ofNat 32) (fixedOf host endian 4)
  | .double => mapValue (BitVec.ofNat 64) (fixedOf host endian 8)

theorem reads_value (host endian : Endian) (k : Kind) :
    Reads endian (readValue host k) (valueOf host endian k) := by
  cases k with
  | fint8 | fuint8 => exact reads_byte host endian
  | fint16 | fuint16 => exact (reads_readF host endian (show 1 ≤ 2 by decide)).map _
  | fint32 | fuint32 | float => exact (reads_readF host endian (show 1 ≤ 4 by decide)).map _
  | fint64 | fuint64 | double => exact (reads_readF host endian (show 1 ≤ 8 by decide)).map _
  | int32 => exact (reads_readVarint host endian 5 0 0).map _
  | uint32 => exact reads_readVarint host endian 5 0 (0 : BitVec 32)
  | int64 => exact (reads_readVarint host endian 10 0 0).map _
  | uint64 => exact reads_readVarint host endian 10 0 (0 : BitVec 64)

/-! ## Public calls -/

/-- Every call that changes the object; the allocating ones come with what `new` finds in memory. -/
inductive PublicOp where
  | basic (op : ByteArrayOp)
  | setIsLittleEndian (val : Bool)
  | writeValue (garbage : Garbage) (v : Value)
  | readValue (k : Kind)
  | writeString (garbage garbage' : Garbage) (k : StringKind) (value : List UInt8)
  | readString (k : StringKind)
  | writeStringWithoutLength (garbage : Garbage) (value : List UInt8)

def publicCall (host : Endian) (maxSize : Nat) (b : ByteArray) : PublicOp → Option ByteArray
  | .basic op => (b.call op).map Prod.snd
  | .setIsLittleEndian val => some (ByteArray.setIsLittleEndian val b)
  | .writeValue garbage v => ByteArray.writeValue host garbage v b
  | .readValue k => (ByteArray.readValue host k b).map Prod.snd
  | .writeString garbage garbage' k value => ByteArray.writeString host garbage garbage' k value b
  | .readString k => (ByteArray.readString host maxSize k b).map Prod.snd
  | .writeStringWithoutLength garbage value => ByteArray.writeStringWithoutLength garbage value b

def PublicStep (host : Endian) (maxSize : Nat) (b : ByteArray) (op : PublicOp) (b' : ByteArray) :
    Prop := b.publicCall host maxSize op = some b'

/-- A state that public calls lead to; the counters are `size_t`. -/
def Reached (host : Endian) (maxSize : Nat) (b : ByteArray) : Prop :=
  (∃ basesize garbage ops, 1 ≤ basesize ∧
    Run (PublicStep host maxSize) (new basesize garbage) ops b) ∧ b.capacity < 2 ^ 64

theorem writeValue_write {host : Endian} {garbage : Garbage} {v : Value} {b b' : ByteArray}
    (h : writeValue host garbage v b = some b') : ∃ bs, b.write garbage bs = some b' := by
  rcases v with ⟨k, v⟩
  cases k with
  | fint8 | fuint8 | fint16 | fuint16 | fint32 | fuint32 | fint64 | fuint64 | float | double =>
    exact ⟨_, h⟩
  | int32 | uint32 | int64 | uint64 =>
    -- the varint is put together first and written in one piece
    rcases Option.bind_eq_some_iff.mp h with ⟨bs, -, hwrite⟩
    exact ⟨bs, hwrite⟩

theorem writeString_write {host : Endian} {garbage garbage' : Garbage} {k : StringKind}
    {value : List UInt8} {b b' : ByteArray}
    (h : writeString host garbage garbage' k value b = some b') :
    ∃ bs c, b.write garbage bs = some c ∧ c.write garbage' value = some b' := by
  cases k with
  | f16 | f32 | f64 | vint =>
    rcases Option.bind_eq_some_iff.mp h with ⟨c, hlength, hbytes⟩
    exact ⟨_, c, hlength, hbytes⟩

theorem Chained.readBytes {b : ByteArray} (h : Chained b) {maxSize len : Nat}
    {r : Except String (List UInt8) × ByteArray} (hread : ByteArray.readBytes maxSize len b = some r) :
    Chained r.2 := by
  have hcases := readBytes_cases h maxSize len
  rw [hread] at hcases
  cases hcases with
  | tooLong hmax => exact h
  | short hmax hshort => exact h
  | done b' hmax hfit hnode hadv => exact hadv.chained

theorem Chained.publicCall {host : Endian} {maxSize : Nat} {b b' : ByteArray} (h : Chained b)
    {op : PublicOp} (hcall : b.publicCall host maxSize op = some b') : Chained b' := by
  cases op with
  | basic op =>
    rcases Option.map_eq_some_iff.mp hcall with ⟨⟨r, c⟩, hbasic, heq⟩
    cases heq
    exact h.call hbasic
  | setIsLittleEndian val =>
    cases hcall
    exact h.setIsLittleEndian val
  | writeValue garbage v =>
    rcases writeValue_write hcall with ⟨bs, hwrite⟩
    exact (write_some h hwrite).1
  | readValue k =>
    rcases Option.map_eq_some_iff.mp hcall with ⟨⟨r, c⟩, hread, heq⟩
    cases heq
    rcases reads_value host b.endian k b h rfl with ⟨c', hread', hadv⟩
    rw [hread] at hread'
    cases hread'
    exact hadv.chained
  | writeString garbage garbage' k value =>
    rcases writeString_write hcall with ⟨bs, c, hlength, hbytes⟩
    exact (write_some (write_some h hlength).1 hbytes).1
  | readString k =>
    rcases Option.map_eq_some_iff.mp hcall with ⟨⟨r, c⟩, hread, heq⟩
    cases heq
    -- the length has been read, and the bytes start from where it ended
    rcases readString_spec host maxSize h k with ⟨b₁, hadv, hspec⟩
    rw [hread] at hspec
    split at hspec
    · cases hspec
      exact hadv.chained
    · exact hadv.chained.readBytes hspec.symm
  | writeStringWithoutLength garbage value => exact (write_some h hcall).1

theorem Reached.chained {host : Endian} {maxSize : Nat} {b : ByteArray}
    (h : Reached host maxSize b) : Chained b := by
  rcases h with ⟨⟨basesize, garbage, ops, hbase, hrun⟩, -⟩
  apply hrun.invariant Chained (new_chained hbase garbage)
  exact fun b op b' hb hstep => hb.publicCall hstep

/-! ## The end of the capacity -/

theorem read_isSome_iff {b : ByteArray} (h : Chained b) {n : Nat} (hn : n ≤ b.getReadSize) :
    (b.read n).isSome ↔ 1 ≤ n ∨ b.position < b.capacity := by
  have hle := h.position_le_capacity
  by_cases hzero : n = 0
  · rw [hzero, read_zero h]
    split
    · next heq =>
      constructor
      · exact fun hsome => by cases hsome
      · intro hor
        omega
    · next hne => exact ⟨fun _ => Or.inr (by omega), fun _ => rfl⟩
  · rw [h.getReadSize] at hn
    rcases read_ok h (by omega) hn with ⟨b', hread, -⟩
    rw [hread]
    exact ⟨fun _ => Or.inl (by omega), fun _ => rfl⟩

theorem readBytes_isSome_iff {b : ByteArray} (h : Chained b) (maxSize len : Nat) :
    (readBytes maxSize len b).isSome ↔ 1 ≤ len ∨ b.position < b.capacity := by
  have hcases := readBytes_cases h maxSize len
  generalize readBytes maxSize len b = r at hcases
  cases hcases with
  | tooLong hmax => exact ⟨fun _ => Or.inl (by omega), fun _ => rfl⟩
  | short hmax hshort => exact ⟨fun _ => Or.inl (by omega), fun _ => rfl⟩
  | noNode hzero hend =>
    refine ⟨fun hsome => (by cases hsome), fun hor => ?_⟩
    omega
  | done b' hmax hfit hnode hadv => exact ⟨fun _ => hnode, fun _ => rfl⟩

theorem readString_isSome_iff (host : Endian) (maxSize : Nat) {b : ByteArray} (h : Chained b)
    (k : StringKind) : (readString host maxSize k b).isSome ↔
      ∀ n, stringLength host b.endian k b.flat.toString = (some 0, n) →
        b.position + n < b.capacity := by
  rcases readString_spec host maxSize h k with ⟨b₁, hadv, hread⟩
  have hpos := hadv.position
  have hcap := hadv.capacity h
  rw [hread]
  generalize stringLength host b.endian k b.flat.toString = r at hpos
  rcases r with ⟨len, n⟩
  dsimp only at hpos ⊢
  -- without a length nothing else is read
  cases len with
  | none => exact ⟨fun _ => nofun, fun _ => rfl⟩
  | some len =>
    dsimp only
    rw [readBytes_isSome_iff hadv.chained, hpos, hcap]
    constructor
    · intro hor m heq
      cases heq
      exact hor.resolve_left (by decide)
    · intro hall
      by_cases hzero : len = 0
      · exact Or.inr (hall n (by rw [hzero]))
      · exact Or.inl (by omega)

/-- In every state that calls lead to, a read inside the size completes exactly when it reads
something or the position is not at the end of the capacity; and a string that can be read is read
unless it is empty and its length ends there. -/
theorem no_null_iff {host : Endian} {maxSize : Nat} {b : ByteArray} (hb : Reached host maxSize b) :
    (∀ n, n ≤ b.getReadSize → ((b.read n).isSome ↔ 1 ≤ n ∨ b.position < b.capacity)) ∧
      ∀ k : StringKind, (readString host maxSize k b).isSome ↔
        ∀ n, stringLength host b.endian k b.flat.toString = (some 0, n) →
          b.position + n < b.capacity :=
  ⟨fun _ hn => read_isSome_iff hb.chained hn, readString_isSome_iff host maxSize hb.chained⟩

def quad (x y z w : UInt8) : ByteArray where
  basesize := 4
  capacity := 4
  size := 4
  after := [{ size := 4, ptr := [x, y, z, w], length_ptr := rfl }]

theorem reached_quad (host : Endian) (maxSize : Nat) (x y z w : UInt8) :
    Reached host maxSize (quad x y z w) := by
  have hnew : Run (PublicStep host maxSize) (new 4 fun _ => 0) [] (new 4 fun _ => 0) := .nil _
  have hwrite := hnew.snoc (show PublicStep host maxSize _
    (.basic (.write (fun _ _ => 0) [x, y, z, w])) _ from rfl)
  have hseek := hwrite.snoc (show PublicStep host maxSize _ (.basic (.setPosition 0))
    (quad x y z w) from rfl)
  exact ⟨⟨4, fun _ => 0, _, by decide, hseek⟩, show 4 < 2 ^ 64 by decide⟩

theorem no_null_iff_quad : ((quad 1 2 3 4).read 0).isSome ∧
    (readString .little 100 .f16 (quad 0 0 3 4)).isSome := by
  refine ⟨((no_null_iff (reached_quad .little 100 1 2 3 4)).1 0 (by decide)).mpr
    (Or.inr (by decide)), ?_⟩
  apply ((no_null_iff (reached_quad .little 100 0 0 3 4)).2 .f16).mpr
  intro n heq
  have hlength : stringLength .little (quad 0 0 3 4).endian .f16 (quad 0 0 3 4).flat.toString =
      (some 0, 2) := by decide
  rw [hlength] at heq
  cases heq
  decide

/-- Zero bytes are asked for and none are left, but there is no node at the cursor; and the empty
string does not come back from a buffer that its length fills. -/
theorem null_cursor_read :
    (∃ b, Reached .little 100 b ∧ 0 ≤ b.getReadSize ∧ b.read 0 = none) ∧
      ∃ b, Reached .little 100 b ∧ stringLength .little b.endian .f32 b.flat.toString = (some 0, 4) ∧
        readString .little 100 .f32 b = none := by
  refine ⟨⟨{ quad 1 2 3 4 with position := 4, before := (quad 1 2 3 4).after, after := [] }, ?_,
    Nat.zero_le _, rfl⟩, quad 0 0 0 0, reached_quad .little 100 0 0 0 0, by decide, rfl⟩
  have hnew : Run (PublicStep .little 100) (new 4 fun _ => 0) [] (new 4 fun _ => 0) := .nil _
  have hwrite := hnew.snoc (show PublicStep .little 100 _
    (.basic (.write (fun _ _ => 0) [1, 2, 3, 4])) _ from rfl)
  exact ⟨⟨4, fun _ => 0, _, by decide, hwrite⟩, by decide⟩

/-! ## Truncated data -/

def Unchanged {α : Type} (c : Call α) (b : ByteArray) : Prop :=
  ∀ b', c b = some (.error "not enough len", b') → b' = b

def Kind.turns : Kind → Nat
  | .int32 | .uint32 => 5
  | .int64 | .uint64 => 10
  | _ => 0

def StringKind.turns : StringKind → Nat
  | .vint => 10
  | _ => 0

/-- The bytes are the beginning of a varint of at most `turns` bytes, but not all of it. -/
def Stalls (turns : Nat) (bs : List UInt8) : Prop :=
  bs ≠ [] ∧ bs.length < turns ∧ ∀ byte ∈ bs, 0x80 ≤ byte.toNat

/-- A varint that does not end has taken everything there was. -/
theorem scanVarint_none_iff {w : Nat} {turns i : Nat} (hturns : i + 7 * turns < w + 7)
    (result : BitVec w) (bs : List UInt8) :
    ((scanVarint turns i result bs).1 = none ↔
      bs.length < turns ∧ ∀ byte ∈ bs, 0x80 ≤ byte.toNat) ∧
      ((scanVarint turns i result bs).1 = none → (scanVarint turns i result bs).2 = bs.length) := by
  induction turns generalizing i result bs with
  | zero =>
    have hsome : (scanVarint 0 i result bs).1 ≠ none := Option.some_ne_none result
    exact ⟨⟨fun h => absurd h hsome, fun h => absurd h.1 (Nat.not_lt_zero _)⟩,
      fun h => absurd h hsome⟩
  | succ turns ih =>
    have hi : i < w := by omega
    unfold scanVarint
    rw [if_pos hi]
    cases bs with
    | nil =>
      exact ⟨⟨fun _ => ⟨Nat.succ_pos _, fun _ hb => absurd hb List.not_mem_nil⟩, fun _ => rfl⟩,
        fun _ => rfl⟩
    | cons byte rest =>
      dsimp only
      -- a byte with the highest bit clear ends the varint
      by_cases hstop : byte.toNat < 0x80
      · rw [if_pos hstop]
        refine ⟨⟨fun h => absurd h (Option.some_ne_none _), fun h => ?_⟩,
          fun h => absurd h (Option.some_ne_none _)⟩
        exact absurd hstop (Nat.not_lt.mpr (h.2 byte (List.mem_cons_self ..)))
      · rw [if_neg hstop]
        rcases ih (i := i + 7) (by omega) (result ||| _) rest with ⟨hiff, htaken⟩
        refine ⟨?_, fun h => ?_⟩
        · rw [hiff, List.length_cons]
          constructor
          · rintro ⟨hlen, hall⟩
            refine ⟨Nat.succ_lt_succ hlen, fun b hb => ?_⟩
            rcases List.mem_cons.mp hb with rfl | hb
            · exact Nat.not_lt.mp hstop
            · exact hall b hb
          · rintro ⟨hlen, hall⟩
            exact ⟨Nat.lt_of_succ_lt_succ hlen, fun b hb => hall b (List.mem_cons_of_mem byte hb)⟩
        · rw [htaken h, List.length_cons]

/-- A varint has moved when it throws exactly when it stalls. -/
theorem scanVarint_stalls {w turns : Nat} (hturns : 7 * turns < w + 7) (bs : List UInt8) :
    ((scanVarint turns 0 (0 : BitVec w) bs).1 = none ∧ (scanVarint turns 0 (0 : BitVec w) bs).2 ≠ 0) ↔
      Stalls turns bs := by
  have hfits : 0 + 7 * turns < w + 7 := by omega
  rcases scanVarint_none_iff hfits (0 : BitVec w) bs with ⟨hiff, htaken⟩
  constructor
  · rintro ⟨hnone, hmoved⟩
    rw [htaken hnone] at hmoved
    exact ⟨fun hnil => hmoved (by rw [hnil]; rfl), hiff.mp hnone⟩
  · rintro ⟨hne, hstall⟩
    have hnone := hiff.mpr hstall
    refine ⟨hnone, ?_⟩
    rw [htaken hnone]
    exact fun hzero => hne (List.length_eq_zero_iff.mp hzero)

/-- A number of fixed width is read at once or not at all. -/
theorem fixedOf_none {host endian : Endian} {n : Nat} {bs : List UInt8}
    (h : (fixedOf host endian n bs).1 = none) : (fixedOf host endian n bs).2 = 0 := by
  unfold fixedOf at h ⊢
  split
  · next hfit =>
    rw [if_pos hfit] at h
    cases h
  · rfl

theorem byteOf_none {bs : List UInt8} (h : (byteOf bs).1 = none) : (byteOf bs).2 = 0 := by
  cases bs with
  | nil => rfl
  | cons byte rest => cases h

theorem mapValue_stalls {α β : Type} (g : α → β) (f : List UInt8 → Option α × Nat)
    (bs : List UInt8) :
    ((mapValue g f bs).1 = none ∧ (mapValue g f bs).2 ≠ 0) ↔ ((f bs).1 = none ∧ (f bs).2 ≠ 0) := by
  rw [mapValue, Option.map_eq_none_iff]

theorem not_stalls_zero (bs : List UInt8) : ¬ Stalls 0 bs := fun h => Nat.not_lt_zero _ h.2.1

theorem valueOf_stalls (host endian : Endian) (k : Kind) (bs : List UInt8) :
    ((valueOf host endian k bs).1 = none ∧ (valueOf host endian k bs).2 ≠ 0) ↔
      Stalls k.turns bs := by
  cases k with
  | fint8 | fuint8 =>
    exact ⟨fun h => absurd (byteOf_none h.1) h.2, fun h => absurd h (not_stalls_zero bs)⟩
  | fint16 | fuint16 | fint32 | fuint32 | fint64 | fuint64 | float | double =>
    exact ⟨fun h => absurd (fixedOf_none (Option.map_eq_none_iff.mp h.1)) h.2,
      fun h => absurd h (not_stalls_zero bs)⟩
  | int32 => exact (mapValue_stalls ..).trans (scanVarint_stalls (by decide) bs)
  | uint32 => exact scanVarint_stalls (w := 32) (by decide) bs
  | int64 => exact (mapValue_stalls ..).trans (scanVarint_stalls (by decide) bs)
  | uint64 => exact scanVarint_stalls (w := 64) (by decide) bs

theorem stringLength_stalls (host endian : Endian) (k : StringKind) (bs : List UInt8) :
    ((stringLength host endian k bs).1 = none ∧ (stringLength host endian k bs).2 ≠ 0) ↔
      Stalls k.turns bs := by
  cases k with
  | f16 | f32 | f64 =>
    exact ⟨fun h => absurd (fixedOf_none h.1) h.2, fun h => absurd h (not_stalls_zero bs)⟩
  | vint => exact (mapValue_stalls ..).trans (scanVarint_stalls (by decide) bs)

theorem scanVarint_pos {w turns i : Nat} {result v : BitVec w} {bs : List UInt8} (hi : i < w)
    (h : (scanVarint (turns + 1) i result bs).1 = some v) :
    1 ≤ (scanVarint (turns + 1) i result bs).2 := by
  cases bs with
  | nil =>
    rw [scanVarint, if_pos hi] at h
    cases h
  | cons byte rest =>
    rw [scanVarint, if_pos hi]
    dsimp only
    split
    · exact Nat.le_refl 1
    · exact Nat.succ_pos _

/-- A length takes at least one byte. -/
theorem stringLength_pos {host endian : Endian} {k : StringKind} {bs : List UInt8} {len n : Nat}
    (h : stringLength host endian k bs = (some len, n)) : 1 ≤ n := by
  have hfixed : ∀ m, 1 ≤ m → fixedOf host endian m bs = (some len, n) → 1 ≤ n := by
    intro m hm heq
    unfold fixedOf at heq
    split at heq
    · cases heq
      exact hm
    · cases heq
  cases k with
  | f16 => exact hfixed 2 (by decide) h
  | f32 => exact hfixed 4 (by decide) h
  | f64 => exact hfixed 8 (by decide) h
  | vint =>
    have hsome := congrArg Prod.fst h
    have htaken : (scanVarint 10 0 (0 : BitVec 64) bs).2 = n := congrArg Prod.snd h
    rcases Option.map_eq_some_iff.mp hsome with ⟨v, hv, -⟩
    rw [← htaken]
    exact scanVarint_pos (by decide) hv

theorem Reads.unchanged_iff {α : Type} {endian : Endian} {c : Call α}
    {f : List UInt8 → Option α × Nat} (hc : Reads endian c f) {b : ByteArray} (h : Chained b)
    (hend : b.endian = endian) :
    Unchanged c b ↔ ¬ ((f b.flat.toString).1 = none ∧ (f b.flat.toString).2 ≠ 0) := by
  rcases hc b h hend with ⟨b₁, hcall, hadv⟩
  cases hv : (f b.flat.toString).1 with
  | none =>
    rw [hv] at hcall
    constructor
    · intro hun hmoved
      exact hmoved.2 (hadv.eq_iff.mp (hun b₁ hcall))
    · intro hmoved b' hthrow
      rw [hcall] at hthrow
      cases hthrow
      by_contra hne
      exact hmoved ⟨rfl, fun hzero => hne (hadv.eq_iff.mpr hzero)⟩
  | some v =>
    rw [hv] at hcall
    refine ⟨fun _ hmoved => (by cases hmoved.1), fun _ b' hthrow => ?_⟩
    rw [hcall] at hthrow
    cases hthrow

theorem readString_unchanged_iff (host : Endian) (maxSize : Nat) {b : ByteArray} (h : Chained b)
    (k : StringKind) : Unchanged (readString host maxSize k) b ↔
      ¬ Stalls k.turns b.flat.toString ∧
        ∀ len n, stringLength host b.endian k b.flat.toString = (some len, n) → len ≤ maxSize →
          n + len ≤ b.flat.toString.length := by
  rcases readString_spec host maxSize h k with ⟨b₁, hadv, hread⟩
  have hpos := @stringLength_pos host b.endian k b.flat.toString
  rw [← stringLength_stalls host b.endian k]
  unfold Unchanged
  rw [hread]
  generalize stringLength host b.endian k b.flat.toString = r at hadv hpos
  rcases r with ⟨len, n⟩
  dsimp only at hadv ⊢
  cases len with
  | none =>
    constructor
    · intro hun
      have hzero := hadv.eq_iff.mp (hun b₁ rfl)
      exact ⟨fun hmoved => hmoved.2 hzero, nofun⟩
    · rintro ⟨hmoved, -⟩ b' hthrow
      cases hthrow
      by_contra hne
      exact hmoved ⟨rfl, fun hzero => hne (hadv.eq_iff.mpr hzero)⟩
  | some len =>
    have hn := hpos rfl
    have hleft : b₁.flat.toString.length = b.flat.toString.length - n := by
      rw [hadv.toString, List.length_drop]
    -- the length lies within what could be read
    have hwithin : n ≤ b.flat.toString.length := by
      have hle := hadv.chained.position_le
      rw [hadv.position, hadv.size] at hle
      have hlen := length_toString h
      omega
    dsimp only
    constructor
    · intro hun
      refine ⟨fun hmoved => (by cases hmoved.1), fun len' m heq hmax => ?_⟩
      cases heq
      by_contra hshort
      -- the payload is cut off, and the length has been taken already
      have hthrow : readBytes maxSize len b₁ = some (.error "not enough len", b₁) := by
        have hcases := readBytes_cases hadv.chained maxSize len
        generalize readBytes maxSize len b₁ = r at hcases
        cases hcases with
        | tooLong hlong => omega
        | short _ _ => rfl
        | noNode hzero _ => omega
        | done _ _ hfit _ _ => omega
      have hzero := hadv.eq_iff.mp (hun b₁ hthrow)
      omega
    -- with all the bytes there, nothing throws for want of them
    · rintro ⟨-, hall⟩ b' hthrow
      exfalso
      have hcases := readBytes_cases hadv.chained maxSize len
      generalize readBytes maxSize len b₁ = r at hcases hthrow
      cases hcases with
      | tooLong _ => simp at hthrow
      | short hmax hshort =>
        have hfit := hall len n rfl hmax
        omega
      | noNode _ _ => cases hthrow
      | done _ _ _ _ _ => cases hthrow

/-- In every state that calls lead to, a truncated read leaves the buffer as it is exactly when it
does not end inside a varint, and not between the length of a string and its bytes. -/
theorem truncated_iff {host : Endian} {maxSize : Nat} {b : ByteArray}
    (hb : Reached host maxSize b) :
    (∀ k : Kind, Unchanged (readValue host k) b ↔ ¬ Stalls k.turns b.flat.toString) ∧
      ∀ k : StringKind, Unchanged (readString host maxSize k) b ↔
        ¬ Stalls k.turns b.flat.toString ∧
          ∀ len n, stringLength host b.endian k b.flat.toString = (some len, n) → len ≤ maxSize →
            n + len ≤ b.flat.toString.length := by
  refine ⟨fun k => ?_, readString_unchanged_iff host maxSize hb.chained⟩
  rw [(reads_value host b.endian k).unchanged_iff hb.chained rfl, valueOf_stalls]

theorem truncated_iff_quad :
    Unchanged (readValue .little .fint64) (quad 1 2 3 4) ∧
      Unchanged (readString .little 100 .f64) (quad 1 2 3 4) := by
  have h := truncated_iff (reached_quad .little 100 1 2 3 4)
  refine ⟨(h.1 .fint64).mpr (not_stalls_zero _), (h.2 .f64).mpr ⟨not_stalls_zero _, ?_⟩⟩
  intro len n heq
  have hnone : stringLength .little (quad 1 2 3 4).endian .f64 (quad 1 2 3 4).flat.toString =
      (none, 0) := by decide
  rw [hnone] at heq
  cases heq

/-- A varint that is cut off is gone, and so is the length of a string whose bytes are missing. -/
theorem prefix_consumed :
    (∃ b, readUint32 .little (quad 0x80 0x81 0x82 0x83) = some (.error "not enough len", b) ∧
      b.position = 4 ∧ ¬ Unchanged (readValue .little .uint32) (quad 0x80 0x81 0x82 0x83)) ∧
    ∃ b, readStringF16 .little 100 (quad 0 5 3 4) = some (.error "not enough len", b) ∧
      b.position = 2 ∧ ¬ Unchanged (readString .little 100 .f16) (quad 0 5 3 4) := by
  refine ⟨⟨_, rfl, rfl, fun hun => ?_⟩, ⟨_, rfl, rfl, fun hun => ?_⟩⟩
  · exact absurd (congrArg position (hun _ rfl)) (by decide)
  · exact absurd (congrArg position (hun _ rfl)) (by decide)

end ByteArray

end Azure
