import Azure.ByteArray.Refinement

/-!
# Writes and growth

`addCapacity` computes the number of new nodes in floating point.  A write has a result exactly when
that many nodes are enough, and then the capacity is the one they give; the bytes stand behind one
another from the position on.
-/

namespace Azure

open Reasoning

namespace ByteArray

/-- As many nodes as the division gives have room for `need` bytes. -/
def Grows (basesize need : Nat) : Prop := need ≤ growthCount need basesize * basesize

def grownTo (b : ByteArray) (n : Nat) : Nat :=
  if b.position + n ≤ b.capacity then b.capacity
  else b.capacity + growthCount (b.position + n - b.capacity) b.basesize * b.basesize

theorem grows_zero (basesize : Nat) : Grows basesize 0 := Nat.zero_le _

theorem grows_of_lt {basesize need : Nat} (hbase : 1 ≤ basesize) (h : need < 2 ^ 53) :
    Grows basesize need := by
  by_cases hzero : need = 0
  · rw [hzero]
    exact grows_zero basesize
  · have hdm := Nat.div_add_mod (need + basesize - 1) basesize
    have hmod := Nat.mod_lt (need + basesize - 1) hbase
    unfold Grows
    rw [growthCount_eq (by omega) h hbase, Nat.mul_comm]
    omega

/-- The quotient is not rounded down to nothing. -/
theorem grows_of_le {basesize need : Nat} (h : need ≤ basesize) : Grows basesize need := by
  by_cases hzero : need = 0
  · rw [hzero]
    exact grows_zero basesize
  · have hneed : (0 : ℚ) < Binary64.ofNat need :=
      Binary64.round_pos (by exact_mod_cast Nat.pos_of_ne_zero hzero)
    have hbase : (0 : ℚ) < Binary64.ofNat basesize :=
      Binary64.round_pos (by exact_mod_cast (show 0 < basesize by omega))
    have hquotient : 0 < Binary64.div (Binary64.mul 1 (Binary64.ofNat need))
        (Binary64.ofNat basesize) :=
      Binary64.round_pos (div_pos (Binary64.round_pos (by rwa [one_mul])) hbase)
    -- a positive quotient is rounded up to at least one node
    have hcount : 1 ≤ growthCount need basesize := by
      have hceil := Int.ceil_pos.mpr hquotient
      unfold growthCount
      omega
    exact Nat.le_trans h (Nat.le_mul_of_pos_left basesize hcount)

theorem grownTo_zero {b : ByteArray} (h : Chained b) : b.grownTo 0 = b.capacity :=
  if_pos h.position_le_capacity

/-- A few bytes do not end at the end of the capacity unless they fill a node. -/
theorem lt_grownTo_iff {b : ByteArray} (h : Chained b) {n : Nat} (hn : n < 2 ^ 53) :
    b.position + n < b.grownTo n ↔
      b.position + n < b.capacity ∨ (b.position + n) % b.basesize ≠ 0 := by
  have hle := h.position_le_capacity
  have hcap : b.capacity = b.basesize * b.nodes.length := by rw [h.capacity_eq, Nat.mul_comm]
  unfold grownTo
  by_cases hin : b.position + n ≤ b.capacity
  · rw [if_pos hin]
    refine ⟨Or.inl, fun hor => ?_⟩
    by_contra hend
    have heq : b.position + n = b.basesize * b.nodes.length := by omega
    exact (hor.resolve_left hend) (by rw [heq, Nat.mul_mod_right])
  · rw [if_neg hin, growthCount_eq (by omega) (by omega) h.base_pos]
    -- `d` bytes do not fit into the old nodes
    generalize hd : b.position + n - b.capacity = d
    have hsum : b.position + n = d + b.basesize * b.nodes.length := by omega
    have hmod : (b.position + n) % b.basesize = d % b.basesize := by
      rw [hsum, Nat.add_mul_mod_self_left]
    have hdm := Nat.div_add_mod (d + b.basesize - 1) b.basesize
    have hlt := Nat.mod_lt (d + b.basesize - 1) h.base_pos
    rw [hmod, Nat.mul_comm]
    constructor
    · intro hbelow
      right
      intro hzero
      -- the last node is full, so rounding up adds nothing
      have hdvd := Nat.mul_div_cancel' (Nat.dvd_of_mod_eq_zero hzero)
      have hexact : (d + b.basesize - 1) / b.basesize = d / b.basesize := by
        apply Nat.div_eq_of_lt_le
        · rw [Nat.mul_comm]
          omega
        · rw [Nat.mul_comm, Nat.mul_add]
          omega
      rw [hexact] at hbelow
      omega
    · intro hor
      have hne := hor.resolve_left (by omega)
      have hdiv := Nat.div_add_mod d b.basesize
      by_contra hnot
      have heq : d = b.basesize * ((d + b.basesize - 1) / b.basesize) := by omega
      exact hne (by rw [heq, Nat.mul_mod_right])

structure Wrote (buf : List UInt8) (b b' : ByteArray) : Prop where
  chained : Chained b'
  basesize : b'.basesize = b.basesize
  endian : b'.endian = b.endian
  position : b'.position = b.position + buf.length
  size : b'.size = max b.size (b.position + buf.length)
  capacity : b'.capacity = b.grownTo buf.length
  /-- The bytes written. -/
  bytes : slice b'.flat.bytes b.position buf.length = buf
  /-- The bytes before the position are the old ones. -/
  before : ∀ i n, i + n ≤ b.position → slice b'.flat.bytes i n = slice b.flat.bytes i n

theorem Wrote.of_flat {b b' c : ByteArray} {buf junk : List UInt8}
    (h : Chained b) (hc : Chained b') (hkept : b'.basesize = b.basesize ∧ b'.endian = b.endian)
    (hcflat : c.flat = { b.flat with bytes := b.flat.bytes ++ junk })
    (hroom : b.position + buf.length ≤ (b.flat.bytes ++ junk).length)
    (hcap : (b.flat.bytes ++ junk).length = b.grownTo buf.length)
    (hflat : b'.flat = {
      bytes := overwrite c.flat.bytes b.position buf
      position := b.position + buf.length
      size := max b.size (b.position + buf.length) }) : Wrote buf b b' := by
  have hbytes : b'.flat.bytes = overwrite (b.flat.bytes ++ junk) b.position buf := by
    rw [hflat, hcflat]
  have hlen : b.flat.bytes.length = b.capacity := h.length_content
  have hle := h.position_le_capacity
  refine ⟨hc, hkept.1, hkept.2, congrArg Flat.position hflat, congrArg Flat.size hflat, ?_, ?_, ?_⟩
  · rw [← hc.length_content, ← hcap, ← length_overwrite hroom, ← hbytes]
    rfl
  · rw [hbytes, slice_overwrite_self hroom]
  -- the new nodes and the bytes written are both behind the old ones
  · intro i n hin
    rw [hbytes, slice_overwrite_before (by rw [List.length_append]; omega) hin,
      slice_append_left (by omega)]

theorem Wrote.nil {b : ByteArray} (h : Chained b) : Wrote [] b b where
  chained := h
  basesize := rfl
  endian := rfl
  position := rfl
  size := (Nat.max_eq_left h.position_le).symm
  capacity := (grownTo_zero h).symm
  bytes := slice_zero ..
  before _ _ _ := rfl

/-! ## Writes that have a result -/

theorem writeLoop_fits {basesize : Nat} {after : List Node} (hsize : Uniform basesize after)
    {before : List Node} {npos position : Nat} {buf : List UInt8} (hnpos : npos < basesize)
    {r : List Node × List Node × Nat} (h : writeLoop before after npos position buf = some r) :
    npos + buf.length ≤ after.length * basesize := by
  induction after generalizing before npos position buf with
  | nil => cases h
  | cons cur next ih =>
    have hcur : cur.size = basesize := hsize cur (by simp)
    have hncap : sizeSub cur.size npos = basesize - npos := by
      rw [hcur, sizeSub_of_le (by omega)]
    unfold writeLoop at h
    dsimp only at h
    rw [hncap] at h
    rw [List.length_cons, Nat.add_mul, Nat.one_mul]
    by_cases hlast : basesize - npos ≥ buf.length
    · omega
    · rw [if_neg hlast] at h
      rcases Option.bind_eq_some_iff.mp h with ⟨cur', -, hloop⟩
      have hrest := ih (Uniform.cons.mp hsize).2 (by omega) hloop
      rw [List.length_drop] at hrest
      omega

/-- A loop that got to its end had room. -/
theorem grown_of_fits {b c : ByteArray} {garbage : Garbage} {n : Nat} (h : Chained b)
    (hn : 1 ≤ n) (hadd : b.addCapacity garbage n = some c)
    (hfit : c.position % c.basesize + n ≤ c.after.length * c.basesize) :
    Chained c ∧ (c.basesize = b.basesize ∧ c.endian = b.endian) ∧
      Flat.Grown n b.flat c.flat := by
  rcases addCapacity_grows h garbage n hn with ⟨c', hadd', hc, hkept, junk, hflat, hfits, -⟩
  rw [hadd] at hadd'
  cases hadd'
  have hroom := hc.room
  have hle := Nat.le_trans hc.position_le hc.size_le
  have hlen : b.flat.bytes.length = b.capacity := h.length_content
  have hposition : c.position = b.position := congrArg Flat.position hflat
  refine ⟨hc, hkept, junk, hflat, ?_, ?_⟩
  · show b.position + n ≤ (content c.nodes).length
    rw [hc.length_content]
    omega
  · intro hold
    apply hfits
    show b.flat.position + n ≤ b.capacity
    omega

/-- A write that has a result found room behind `addCapacity`. -/
theorem write_fits {b b' : ByteArray} (h : Chained b) {garbage : Garbage} {buf : List UInt8}
    (hne : 1 ≤ buf.length) (hwrite : b.write garbage buf = some b') :
    ∃ c, b.addCapacity garbage buf.length = some c ∧
      c.position % c.basesize + buf.length ≤ c.after.length * c.basesize := by
  unfold write at hwrite
  rw [if_neg (by omega)] at hwrite
  rcases Option.bind_eq_some_iff.mp hwrite with ⟨c, hadd, hrest⟩
  rcases Option.bind_eq_some_iff.mp hrest with ⟨r, hloop, -⟩
  rcases addCapacity_grows h garbage buf.length hne with ⟨c', hadd', hc, -⟩
  rw [hadd] at hadd'
  cases hadd'
  exact ⟨c, hadd, writeLoop_fits (Uniform.append.mp hc.uniform).2 (Nat.mod_lt _ hc.base_pos) hloop⟩

/-- What `addCapacity` leaves has room for the write exactly when its nodes are enough. -/
theorem write_room {b c : ByteArray} (h : Chained b) {garbage : Garbage} {buf : List UInt8}
    (hne : 1 ≤ buf.length) (hadd : b.addCapacity garbage buf.length = some c)
    (hroom : b.position + buf.length ≤ c.capacity) :
    Grows b.basesize (b.position + buf.length - b.capacity) ∧
      ∃ b', b.write garbage buf = some b' ∧ Wrote buf b b' := by
  have hle := h.position_le_capacity
  have hlen : b.flat.bytes.length = b.capacity := h.length_content
  rcases addCapacity_grows h garbage buf.length hne with
    ⟨c', hadd', hc, hkept, junk, hflat, hfits, hshort⟩
  rw [hadd] at hadd'
  cases hadd'
  have hneed : buf.length - (b.capacity - b.position) = b.position + buf.length - b.capacity := by
    omega
  rw [hneed] at hshort
  have hcap : (b.flat.bytes ++ junk).length = c.capacity := by
    rw [← hc.length_content]
    exact congrArg (fun f => f.bytes.length) hflat.symm
  -- without new nodes the capacity is the old one
  have hgrown : (b.flat.bytes ++ junk).length = b.grownTo buf.length := by
    unfold grownTo
    rw [List.length_append, hlen]
    split
    · next hin => rw [hfits hin, List.length_nil, Nat.add_zero]
    · next hout => rw [hshort (by omega)]
  refine ⟨?_, ?_⟩
  · by_cases hin : b.position + buf.length ≤ b.capacity
    · rw [Nat.sub_eq_zero_of_le hin]
      exact grows_zero _
    · have hjunk := hshort (by omega)
      rw [List.length_append, hlen] at hcap
      unfold Grows
      omega
  · have hold : b.position + buf.length ≤ b.flat.bytes.length → junk = [] := by
      rw [hlen]
      exact hfits
    rcases write_of_room hne hadd hc hkept ⟨junk, hflat, by rw [hflat, hcap]; exact hroom, hold⟩
      with ⟨b', hwrite, hc', hkept', hflat'⟩
    exact ⟨b', hwrite, .of_flat h hc' hkept' hflat (by rw [hcap]; exact hroom) hgrown hflat'⟩

/-- The write has a result when the new nodes are enough. -/
theorem write_grows {b : ByteArray} (h : Chained b) (garbage : Garbage) {buf : List UInt8}
    (hgrows : Grows b.basesize (b.position + buf.length - b.capacity)) :
    ∃ b', b.write garbage buf = some b' ∧ Wrote buf b b' := by
  by_cases hempty : buf.length = 0
  · rw [List.length_eq_zero_iff.mp hempty]
    exact ⟨b, rfl, .nil h⟩
  · rcases addCapacity_grows h garbage buf.length (by omega) with
      ⟨c, hadd, hc, hkept, junk, hflat, hfits, hshort⟩
    have hcap : c.capacity = b.capacity + junk.length := by
      rw [← hc.length_content, ← h.length_content, ← List.length_append]
      exact congrArg (fun f => f.bytes.length) hflat
    have hle := h.position_le_capacity
    have hneed : buf.length - (b.capacity - b.position) =
        b.position + buf.length - b.capacity := by omega
    rw [hneed] at hshort
    unfold Grows at hgrows
    exact (write_room h (by omega) hadd (by omega)).2

theorem write_small {b : ByteArray} (h : Chained b) (garbage : Garbage) {buf : List UInt8}
    (hsmall : buf.length < 2 ^ 53) :
    ∃ b', b.write garbage buf = some b' ∧ Wrote buf b b' := by
  have hle := h.position_le_capacity
  apply write_grows h garbage
  apply grows_of_lt h.base_pos
  omega

theorem write_wrote {b b' : ByteArray} (h : Chained b) {garbage : Garbage} {buf : List UInt8}
    (hwrite : b.write garbage buf = some b') :
    Grows b.basesize (b.position + buf.length - b.capacity) ∧ Wrote buf b b' := by
  by_cases hempty : buf.length = 0
  · have hnil := List.length_eq_zero_iff.mp hempty
    subst hnil
    cases hwrite
    refine ⟨?_, .nil h⟩
    rw [List.length_nil, Nat.add_zero, Nat.sub_eq_zero_of_le h.position_le_capacity]
    exact grows_zero _
  · rcases write_fits h (by omega) hwrite with ⟨c, hadd, hfit⟩
    rcases grown_of_fits h (by omega) hadd hfit with ⟨hc, -, junk, hflat, hroom, -⟩
    have hin : b.position + buf.length ≤ c.capacity := by
      rw [← hc.length_content]
      exact hroom
    rcases write_room h (by omega) hadd hin with ⟨hgrows, b'', hwrite', hwrote⟩
    rw [hwrite] at hwrite'
    cases hwrite'
    exact ⟨hgrows, hwrote⟩

theorem Wrote.append {xs ys : List UInt8} {b c d : ByteArray} (hx : Wrote xs b c)
    (hy : Wrote ys c d) :
    slice d.flat.bytes b.position (xs.length + ys.length) = xs ++ ys := by
  have hpos := hx.position
  rw [slice_add, hy.before b.position xs.length (by omega), hx.bytes, ← hpos, hy.bytes]

/-! ## Going back -/

/-- Going back inside the size. -/
theorem setPosition_back {b : ByteArray} (h : Chained b) {v : Nat} (hv : v ≤ b.size) :
    ∃ b', b.setPosition v = some (.ok (), b') ∧ Chained b' ∧ b'.endian = b.endian ∧
      b'.capacity = b.capacity ∧ b'.flat = { b.flat with position := v } := by
  have hsize := h.size_le
  have hlen : b.flat.bytes.length = b.capacity := h.length_content
  rcases setPosition_spec h v with ⟨r, b', hcall, hchained, hkept, hstep⟩
  unfold Flat.Step at hstep
  dsimp only at hstep
  rw [if_neg (by omega)] at hstep
  -- the size does not move
  have hmax : max b.flat.size v = b.size := Nat.max_eq_left hv
  rw [hmax] at hstep
  refine ⟨b', ?_, hchained, hkept.2, ?_, hstep.2⟩
  · simp only [call, Option.map_eq_some_iff] at hcall
    rcases hcall with ⟨⟨res, c⟩, hset, hreply⟩
    rw [hstep.1] at hreply
    cases res with
    | ok u =>
      cases hreply
      exact hset
    | error what => cases hreply
  · rw [← hchained.length_content, ← h.length_content]
    exact congrArg (fun f => f.bytes.length) hstep.2

/-- Back where the first of two writes began, both are there to be read. -/
theorem Wrote.reread {xs ys : List UInt8} {b c d : ByteArray} (hx : Wrote xs b c)
    (hy : Wrote ys c d) :
    ∃ e rest, d.setPosition b.position = some (.ok (), e) ∧ Chained e ∧ e.endian = b.endian ∧
      e.capacity = d.capacity ∧ e.position = b.position ∧ e.flat.toString = xs ++ (ys ++ rest) := by
  have hpos := hx.position
  have hsize := hy.size
  have hle := hy.chained.position_le
  rw [hy.position] at hle
  rcases setPosition_back hy.chained (show b.position ≤ d.size by omega) with
    ⟨e, hset, he, hend, hcap, hflat⟩
  refine ⟨e, slice d.flat.bytes (b.position + (xs.length + ys.length))
    (d.size - (b.position + (xs.length + ys.length))), hset, he, ?_, hcap,
    congrArg Flat.position hflat, ?_⟩
  · rw [hend, hy.endian, hx.endian]
  · have hsplit : d.size - b.position =
        xs.length + ys.length + (d.size - (b.position + (xs.length + ys.length))) := by omega
    rw [Flat.toString, hflat]
    show slice d.flat.bytes b.position (d.size - b.position) = _
    rw [hsplit, slice_add, hx.append hy, List.append_assoc]

end ByteArray

end Azure
