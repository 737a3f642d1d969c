import Azure.ByteArray.Flat

/-!
# The segmented buffer refines the flat one

`Chained` is the cursor invariant.  Each loop of the source gets one lemma, by induction on the
chain from the cursor on, that says what it does to the bytes of that chain and how many nodes the
cursor passes; the calls and the runs follow from these.
-/

namespace Azure

open Reasoning

theorem sizeSub_of_le {a b : Nat} (h : b ≤ a) : sizeSub a b = a - b := if_pos h

theorem Node.store_eq (node : Node) (npos : Nat) (src : List UInt8)
    (h : npos + src.length ≤ node.size) : ∃ node', node.store npos src = some node' ∧
      node'.size = node.size ∧ node'.ptr = overwrite node.ptr npos src := by
  unfold Node.store
  rw [dif_pos h]
  exact ⟨_, rfl, rfl, rfl⟩

theorem Node.load_eq {node : Node} {npos len : Nat} (h : npos + len ≤ node.size) :
    node.load npos len = some (slice node.ptr npos len) := if_pos h

namespace ByteArray

def Uniform (basesize : Nat) (ns : List Node) : Prop := ∀ n ∈ ns, n.size = basesize

structure Chained (b : ByteArray) : Prop where
  base_pos : 1 ≤ b.basesize
  uniform : Uniform b.basesize b.nodes
  nonempty : 1 ≤ b.nodes.length
  capacity_eq : b.capacity = b.nodes.length * b.basesize
  position_le : b.position ≤ b.size
  size_le : b.size ≤ b.capacity
  cursor : b.before.length = b.position / b.basesize

/-! ## Chains -/

@[simp] theorem content_cons (n : Node) (ns : List Node) :
    content (n :: ns) = n.ptr ++ content ns := rfl

@[simp] theorem content_append (ns ms : List Node) :
    content (ns ++ ms) = content ns ++ content ms := by
  simp [content]

theorem length_content {basesize : Nat} {ns : List Node} (h : Uniform basesize ns) :
    (content ns).length = ns.length * basesize := by
  induction ns with
  | nil => simp [content]
  | cons n ns ih =>
    have hn : n.ptr.length = basesize := by rw [n.length_ptr, h n (by simp)]
    rw [content_cons, List.length_append, hn, ih fun m hm => h m (by simp [hm]), List.length_cons,
      Nat.add_mul]
    omega

theorem Uniform.cons {basesize : Nat} {n : Node} {ns : List Node} :
    Uniform basesize (n :: ns) ↔ n.size = basesize ∧ Uniform basesize ns := List.forall_mem_cons

theorem Uniform.append {basesize : Nat} {ns ms : List Node} :
    Uniform basesize (ns ++ ms) ↔ Uniform basesize ns ∧ Uniform basesize ms := by
  unfold Uniform
  simp only [List.mem_append]
  constructor
  · exact fun h => ⟨fun n hn => h n (Or.inl hn), fun n hn => h n (Or.inr hn)⟩
  · exact fun h n hn => hn.elim (h.1 n) (h.2 n)

/-! ## The loops -/

/-- `write` overwrites the chain from the cursor on and passes every node it fills. -/
theorem writeLoop_spec {basesize : Nat} (hbase : 1 ≤ basesize) (after : List Node)
    (hsize : Uniform basesize after) (before : List Node) (npos position : Nat)
    (buf : List UInt8) (hnpos : npos < basesize) (hbuf : 1 ≤ buf.length)
    (hfit : npos + buf.length ≤ after.length * basesize) :
    ∃ ws rest, writeLoop before after npos position buf =
        some (before ++ ws, rest, position + buf.length) ∧
      Uniform basesize (ws ++ rest) ∧ (ws ++ rest).length = after.length ∧
      content (ws ++ rest) = overwrite (content after) npos buf ∧
      ws.length = (npos + buf.length) / basesize := by
  induction after generalizing before npos position buf with
  | nil =>
    simp only [List.length_nil, Nat.zero_mul] at hfit
    omega
  | cons cur next ih =>
    obtain ⟨hcur, hnext⟩ := Uniform.cons.mp hsize
    have hptr : cur.ptr.length = basesize := by rw [cur.length_ptr, hcur]
    have hncap : sizeSub cur.size npos = basesize - npos := by
      rw [hcur, sizeSub_of_le (by omega)]
    rw [List.length_cons, Nat.add_mul, Nat.one_mul] at hfit
    unfold writeLoop
    dsimp only
    rw [hncap]
    by_cases hlast : basesize - npos ≥ buf.length
    · -- the rest of the data fits into this node
      rw [if_pos hlast]
      rcases cur.store_eq npos buf (by omega) with
        ⟨cur', hstore, hsize', hptr'⟩
      have hcontent : content (cur' :: next) = overwrite (content (cur :: next)) npos buf := by
        rw [content_cons, content_cons, overwrite_append_left (by omega), hptr']
      have huniform : Uniform basesize (cur' :: next) :=
        Uniform.cons.mpr ⟨hsize'.trans hcur, hnext⟩
      rw [hstore]
      simp only [Option.bind_eq_bind, Option.bind_some]
      by_cases hfull : cur'.size = npos + buf.length
      · rw [if_pos hfull]
        refine ⟨[cur'], next, rfl, huniform, rfl, hcontent, ?_⟩
        rw [← hfull, hsize', hcur, Nat.div_self (by omega), List.length_singleton]
      · rw [if_neg hfull]
        refine ⟨[], cur' :: next, by rw [List.append_nil], huniform, rfl, hcontent, ?_⟩
        rw [Nat.div_eq_of_lt (by omega), List.length_nil]
    · -- this node is filled and the loop goes on in the next one
      rw [if_neg hlast]
      have htake : (buf.take (basesize - npos)).length = basesize - npos := by
        rw [List.length_take]
        omega
      have hdrop : (buf.drop (basesize - npos)).length = buf.length - (basesize - npos) :=
        List.length_drop
      rcases cur.store_eq npos (buf.take (basesize - npos)) (by omega) with ⟨cur', hstore, hsize', hptr'⟩
      rcases ih hnext (before ++ [cur']) 0 (position + (basesize - npos))
        (buf.drop (basesize - npos)) (by omega) (by omega) (by omega) with
        ⟨ws, rest, hloop, huniform, hlen, hcontent, hws⟩
      rw [hstore]
      simp only [Option.bind_eq_bind, Option.bind_some]
      refine ⟨cur' :: ws, rest, ?_, ?_, ?_, ?_, ?_⟩
      · rw [hloop, hdrop, List.append_assoc, List.singleton_append]
        congr 3
        omega
      · exact Uniform.cons.mpr ⟨hsize'.trans hcur, huniform⟩
      · rw [List.cons_append, List.length_cons, hlen, List.length_cons]
      · rw [List.cons_append, content_cons, hcontent, content_cons,
          overwrite_append_cross (by omega) (by omega), hptr', hptr]
      · rw [List.length_cons, hws, hdrop, ← Nat.add_div_right _ (by omega)]
        congr 1
        omega

/-- `read` collects the bytes of the chain from the cursor on and passes every node it exhausts. -/
theorem readLoop_spec {basesize : Nat} (hbase : 1 ≤ basesize) (after : List Node)
    (hsize : Uniform basesize after) (before : List Node) (npos position size : Nat)
    (buf : List UInt8) (hnpos : npos < basesize) (hpos : 1 ≤ size)
    (hfit : npos + size ≤ after.length * basesize) :
    ∃ ws rest, readLoop before after npos position size buf =
        some (buf ++ slice (content after) npos size, before ++ ws, rest, position + size) ∧
      after = ws ++ rest ∧ ws.length = (npos + size) / basesize := by
  induction after generalizing before npos position size buf with
  | nil =>
    simp only [List.length_nil, Nat.zero_mul] at hfit
    omega
  | cons cur next ih =>
    obtain ⟨hcur, hnext⟩ := Uniform.cons.mp hsize
    have hptr : cur.ptr.length = basesize := by rw [cur.length_ptr, hcur]
    have hncap : sizeSub cur.size npos = basesize - npos := by
      rw [hcur, sizeSub_of_le (by omega)]
    rw [List.length_cons, Nat.add_mul, Nat.one_mul] at hfit
    unfold readLoop
    dsimp only
    rw [hncap]
    -- the node has all that is left, or it is read to its end and the loop goes on behind it
    by_cases hlast : basesize - npos ≥ size
    · rw [if_pos hlast, Node.load_eq (by omega)]
      simp only [Option.bind_eq_bind, Option.bind_some]
      rw [content_cons, slice_append_left (by omega)]
      -- the cursor passes a node only when it has been read to its end
      by_cases hfull : cur.size = npos + size
      · rw [if_pos hfull]
        refine ⟨[cur], next, rfl, rfl, ?_⟩
        rw [← hfull, hcur, Nat.div_self (by omega), List.length_singleton]
      · rw [if_neg hfull]
        refine ⟨[], cur :: next, by rw [List.append_nil], rfl, ?_⟩
        rw [Nat.div_eq_of_lt (by omega), List.length_nil]
    · rw [if_neg hlast, Node.load_eq (by omega)]
      simp only [Option.bind_eq_bind, Option.bind_some]
      rcases ih hnext (before ++ [cur]) 0 (position + (basesize - npos)) (size - (basesize - npos))
        (buf ++ slice cur.ptr npos (basesize - npos)) (by omega) (by omega) (by omega) with
        ⟨ws, rest, hloop, heq, hws⟩
      have hsplit : slice (content (cur :: next)) npos size =
          slice cur.ptr npos (basesize - npos) ++
            slice (content next) 0 (size - (basesize - npos)) := by
        conv_lhs => rw [show size = (basesize - npos) + (size - (basesize - npos)) by omega]
        rw [slice_add, content_cons, slice_append_left (by omega),
          show npos + (basesize - npos) = cur.ptr.length + 0 by omega, slice_append_right]
      refine ⟨cur :: ws, rest, ?_, ?_, ?_⟩
      · rw [hloop, hsplit, List.append_assoc, List.append_assoc, List.singleton_append]
        congr 4
        omega
      · rw [heq, List.cons_append]
      · rw [List.length_cons, hws, ← Nat.add_div_right _ (by omega)]
        congr 1
        omega

/-- `setPosition` walks past `v / basesize` nodes, also when `v` is the end of the chain. -/
theorem seek_spec {basesize : Nat} (hbase : 1 ≤ basesize) (after : List Node)
    (hsize : Uniform basesize after) (before : List Node) (v : Nat) (hne : after ≠ [])
    (hfit : v ≤ after.length * basesize) :
    ∃ ws rest, seek before after v = some (before ++ ws, rest) ∧ after = ws ++ rest ∧
      ws.length = v / basesize := by
  induction after generalizing before v with
  | nil => exact absurd rfl hne
  | cons cur next ih =>
    obtain ⟨hcur, hnext⟩ := Uniform.cons.mp hsize
    rw [List.length_cons, Nat.add_mul, Nat.one_mul] at hfit
    unfold seek
    rw [hcur]
    by_cases hgt : v > basesize
    · rw [if_pos hgt, sizeSub_of_le (by omega)]
      have hne' : next ≠ [] := by
        intro h
        rw [h, List.length_nil, Nat.zero_mul] at hfit
        omega
      rcases ih hnext (before ++ [cur]) (v - basesize) hne' (by omega) with
        ⟨ws, rest, hseek, heq, hws⟩
      refine ⟨cur :: ws, rest, ?_, by rw [heq, List.cons_append], ?_⟩
      · rw [hseek, List.append_assoc, List.singleton_append]
      · rw [List.length_cons, hws, ← Nat.add_div_right _ (by omega)]
        congr 1
        omega
    · rw [if_neg hgt]
      by_cases heq : v = basesize
      · rw [if_pos heq]
        refine ⟨[cur], next, rfl, rfl, ?_⟩
        rw [heq, Nat.div_self (by omega), List.length_singleton]
      · rw [if_neg heq]
        refine ⟨[], cur :: next, by rw [List.append_nil], rfl, ?_⟩
        rw [Nat.div_eq_of_lt (by omega), List.length_nil]

/-- `getWriteBuffers` names the windows from the cursor on. -/
theorem buffersLoop_spec {basesize : Nat} (after : List Node)
    (hsize : Uniform basesize after) (node npos len : Nat) (hnpos : npos < basesize)
    (hpos : 1 ≤ len) (hfit : npos + len ≤ after.length * basesize) :
    ∃ iov, buffersLoop node after npos len = some iov ∧
      Flat.Covers basesize (node * basesize + npos) iov len := by
  induction after generalizing node npos len with
  | nil =>
    simp only [List.length_nil, Nat.zero_mul] at hfit
    omega
  | cons cur next ih =>
    obtain ⟨hcur, hnext⟩ := Uniform.cons.mp hsize
    have hncap : sizeSub cur.size npos = basesize - npos := by
      rw [hcur, sizeSub_of_le (by omega)]
    rw [List.length_cons, Nat.add_mul, Nat.one_mul] at hfit
    unfold buffersLoop
    dsimp only
    rw [hncap]
    by_cases hlast : basesize - npos ≥ len
    · rw [if_pos hlast]
      refine ⟨_, rfl, rfl, ?_, Nat.le_refl _, ?_⟩
      · show npos + len ≤ basesize
        omega
      · show len - len = 0
        omega
    · rw [if_neg hlast]
      rcases ih hnext (node + 1) 0 (len - (basesize - npos)) (by omega) (by omega) (by omega) with
        ⟨iov, hloop, hcovers⟩
      rw [hloop]
      simp only [Option.bind_eq_bind, Option.bind_some]
      refine ⟨_, rfl, rfl, ?_, ?_, ?_⟩
      · show npos + (basesize - npos) ≤ basesize
        omega
      · show basesize - npos ≤ len
        omega
      · have hstart : node * basesize + npos + (basesize - npos) = (node + 1) * basesize + 0 := by
          rw [Nat.add_mul]
          omega
        show Flat.Covers basesize (node * basesize + npos + (basesize - npos)) iov _
        rw [hstart]
        exact hcovers

/-! ## The cursor -/

theorem Chained.length_content {b : ByteArray} (h : Chained b) :
    (content b.nodes).length = b.capacity := by
  rw [ByteArray.length_content h.uniform, h.capacity_eq]

theorem length_nodes (b : ByteArray) :
    b.nodes.length = b.before.length + b.after.length := by
  rw [nodes, List.length_append]

/-- The bytes left in the chain from the cursor on, counted from the start of its node. -/
theorem Chained.room {b : ByteArray} (h : Chained b) :
    b.position % b.basesize + (b.capacity - b.position) = b.after.length * b.basesize := by
  have hdm := Nat.div_add_mod b.position b.basesize
  have hlen := length_nodes b
  have hcap := h.capacity_eq
  have hle : b.position ≤ b.capacity := Nat.le_trans h.position_le h.size_le
  rw [hlen, Nat.add_mul, h.cursor, Nat.mul_comm (b.position / b.basesize)] at hcap
  omega

/-- The cursor is null exactly at the end of the chain. -/
theorem Chained.after_eq_nil_iff {b : ByteArray} (h : Chained b) :
    b.after = [] ↔ b.position = b.capacity := by
  have hroom := h.room
  have hle : b.position ≤ b.capacity := Nat.le_trans h.position_le h.size_le
  have hmod := Nat.mod_lt b.position h.base_pos
  rw [← List.length_eq_zero_iff]
  constructor
  · intro hz
    rw [hz, Nat.zero_mul] at hroom
    omega
  · intro heq
    rw [heq, Nat.sub_self, Nat.add_zero, ← heq] at hroom
    rcases Nat.eq_zero_or_pos b.after.length with hz | hpos
    · exact hz
    · have hge := Nat.le_mul_of_pos_left b.basesize hpos
      omega

theorem Chained.position_le_capacity {b : ByteArray} (h : Chained b) : b.position ≤ b.capacity :=
  Nat.le_trans h.position_le h.size_le

theorem Chained.getCapacity {b : ByteArray} (h : Chained b) :
    b.getCapacity = b.capacity - b.position :=
  sizeSub_of_le (Nat.le_trans h.position_le h.size_le)

theorem Chained.getReadSize {b : ByteArray} (h : Chained b) :
    b.getReadSize = b.size - b.position := sizeSub_of_le h.position_le

theorem Chained.content_split {b : ByteArray} (h : Chained b) :
    b.position = (content b.before).length + b.position % b.basesize ∧
      content b.nodes = content b.before ++ content b.after := by
  refine ⟨?_, by rw [nodes, content_append]⟩
  have hdm := Nat.div_add_mod b.position b.basesize
  have hbefore : Uniform b.basesize b.before := (Uniform.append.mp h.uniform).1
  rw [ByteArray.length_content hbefore, h.cursor, Nat.mul_comm]
  omega

theorem new_chained {basesize : Nat} (hbase : 1 ≤ basesize) (garbage : Nat → UInt8) :
    Chained (new basesize garbage) where
  base_pos := hbase
  uniform := by simp [Uniform, nodes, new, Node.new]
  nonempty := by simp [nodes, new]
  capacity_eq := by simp [nodes, new]
  position_le := Nat.le_refl 0
  size_le := Nat.zero_le _
  cursor := by simp [new]

/-! ## The calls -/

/-- Rounded up in floating point, the count is the exact one. -/
theorem growthCount_eq {size basesize : Nat} (hpos : 1 ≤ size) (hsmall : size < 2 ^ 53)
    (hbase : 1 ≤ basesize) : growthCount size basesize = (size + basesize - 1) / basesize := by
  unfold growthCount
  rw [Binary64.ceil_div_ofNat hsmall hpos hbase, Int.toNat_natCast]

/-- The nodes `addCapacity` creates keep the cursor where the position says; there are as many as
the rounded division gives. -/
theorem addCapacity_grows {b : ByteArray} (h : Chained b) (garbage : Garbage) (size : Nat)
    (hpos : 1 ≤ size) :
    ∃ b', b.addCapacity garbage size = some b' ∧ Chained b' ∧
      (b'.basesize = b.basesize ∧ b'.endian = b.endian) ∧
      ∃ junk, b'.flat = { b.flat with bytes := b.flat.bytes ++ junk } ∧
        (b.position + size ≤ b.capacity → junk = []) ∧
        (b.capacity < b.position + size → junk.length =
          growthCount (size - (b.capacity - b.position)) b.basesize * b.basesize) := by
  have hle : b.position ≤ b.capacity := Nat.le_trans h.position_le h.size_le
  have hnil := h.after_eq_nil_iff
  have hne : b.nodes ≠ [] := by
    intro hz
    have hone := h.nonempty
    rw [hz, List.length_nil] at hone
    omega
  unfold addCapacity
  rw [if_neg (by omega)]
  dsimp only
  rw [h.getCapacity]
  by_cases henough : b.capacity - b.position ≥ size
  · rw [if_pos henough]
    exact ⟨b, rfl, h, ⟨rfl, rfl⟩, [], by simp, fun _ => rfl, fun hlt => by omega⟩
  · rw [if_neg henough, if_neg hne, sizeSub_of_le (by omega)]
    generalize growthCount (size - (b.capacity - b.position)) b.basesize = count
    generalize hnew : (List.range count).map (fun i => Node.new b.basesize (garbage i)) = new
    have huniform : Uniform b.basesize new := by
      intro n hn
      rw [← hnew] at hn
      rcases List.mem_map.mp hn with ⟨i, -, rfl⟩
      rfl
    have hnewlen : new.length = count := by rw [← hnew, List.length_map, List.length_range]
    -- whichever part of the chain the new nodes land in, the chain is the old one and the new nodes
    have hgoal : ∀ before after : List Node, before ++ after = b.nodes ++ new →
        before.length = b.position / b.basesize →
        ∃ b', some { b with capacity := b.capacity + count * b.basesize, before, after } =
            some b' ∧
          Chained b' ∧ (b'.basesize = b.basesize ∧ b'.endian = b.endian) ∧
          ∃ junk, b'.flat = { b.flat with bytes := b.flat.bytes ++ junk } ∧
            (b.position + size ≤ b.capacity → junk = []) ∧
            (b.capacity < b.position + size → junk.length = count * b.basesize) := by
      intro before after hchain hcursor
      refine ⟨_, rfl, ⟨h.base_pos, ?_, ?_, ?_, h.position_le, ?_, hcursor⟩, ⟨rfl, rfl⟩,
        content new, ?_, ?_, ?_⟩
      · show Uniform b.basesize (before ++ after)
        rw [hchain]
        exact Uniform.append.mpr ⟨h.uniform, huniform⟩
      · show 1 ≤ (before ++ after).length
        rw [hchain, List.length_append]
        exact Nat.le_add_right_of_le h.nonempty
      · show b.capacity + count * b.basesize = (before ++ after).length * b.basesize
        rw [hchain, List.length_append, hnewlen, Nat.add_mul, h.capacity_eq]
      · exact Nat.le_add_right_of_le h.size_le
      · show Flat.mk (content (before ++ after)) b.position b.size = _
        rw [hchain, content_append]
        rfl
      · intro hfit
        omega
      · intro _
        rw [ByteArray.length_content huniform, hnewlen]
    by_cases hzero : b.capacity - b.position = 0
    · rw [if_pos hzero]
      apply hgoal (b.before ++ b.after) new rfl
      rw [hnil.mpr (by omega), List.append_nil, h.cursor]
    · rw [if_neg hzero, if_neg (by rw [hnil]; omega)]
      exact hgoal b.before (b.after ++ new) (by rw [nodes, List.append_assoc]) h.cursor

/-- Below `2^53` bytes the division is exact enough, and the new nodes are enough. -/
theorem addCapacity_spec {b : ByteArray} (h : Chained b) (garbage : Garbage) (size : Nat)
    (hpos : 1 ≤ size) (hsmall : size < 2 ^ 53) :
    ∃ b', b.addCapacity garbage size = some b' ∧ Chained b' ∧
      (b'.basesize = b.basesize ∧ b'.endian = b.endian) ∧ Flat.Grown size b.flat b'.flat := by
  have hlen : b.flat.bytes.length = b.capacity := h.length_content
  rcases addCapacity_grows h garbage size hpos with
    ⟨b', hadd, hc, hkept, junk, hflat, hfits, hshort⟩
  refine ⟨b', hadd, hc, hkept, junk, hflat, ?_, ?_⟩
  · rw [hflat]
    show b.position + size ≤ (b.flat.bytes ++ junk).length
    rw [List.length_append, hlen]
    by_cases hroom : b.position + size ≤ b.capacity
    · omega
    · have hle := Nat.le_trans h.position_le h.size_le
      have hcount := growthCount_eq (show 1 ≤ size - (b.capacity - b.position) by omega) (by omega)
        h.base_pos
      have hdm := Nat.div_add_mod (size - (b.capacity - b.position) + b.basesize - 1) b.basesize
      have hmod := Nat.mod_lt (size - (b.capacity - b.position) + b.basesize - 1) h.base_pos
      rw [hshort (by omega), hcount, Nat.mul_comm]
      omega
  · intro hfit
    apply hfits
    show b.flat.position + size ≤ b.capacity
    omega

/-- The rest of `write`, once there is room. -/
theorem write_of_room {b c : ByteArray} {garbage : Garbage} {buf : List UInt8}
    (hne : 1 ≤ buf.length) (hadd : b.addCapacity garbage buf.length = some c) (hc : Chained c)
    (hkept : c.basesize = b.basesize ∧ c.endian = b.endian)
    (hgrown : Flat.Grown buf.length b.flat c.flat) :
    ∃ b', b.write garbage buf = some b' ∧ Chained b' ∧
      (b'.basesize = b.basesize ∧ b'.endian = b.endian) ∧
      b'.flat = {
        bytes := overwrite c.flat.bytes b.position buf
        position := b.position + buf.length
        size := max b.size (b.position + buf.length) } := by
  have hfits := hgrown
  rcases hfits with ⟨junk, hflat, hroom, -⟩
  have hposition : c.position = b.position := congrArg Flat.position hflat
  have hsize : c.size = b.size := congrArg Flat.size hflat
  have hcap : c.position + buf.length ≤ c.capacity := by
    rw [hposition, ← hc.length_content]
    exact hroom
  rcases writeLoop_spec hc.base_pos c.after (Uniform.append.mp hc.uniform).2 c.before
    (c.position % c.basesize) c.position buf (Nat.mod_lt _ hc.base_pos) (by omega)
    (by have := hc.room; omega) with ⟨ws, rest, hloop, huniform, hlen, hcontent, hws⟩
  unfold write
  rw [if_neg (by omega), hadd]
  simp only [Option.bind_eq_bind, Option.bind_some, hloop]
  have hnodes : (c.before ++ ws ++ rest).length = c.nodes.length := by
    rw [List.append_assoc, List.length_append, hlen, length_nodes]
  -- the chain behind the cursor is untouched, so the whole chain is overwritten at the position
  have hbytes : content (c.before ++ ws ++ rest) =
      overwrite (content c.nodes) c.position buf := by
    have hsplit := hc.content_split
    rw [List.append_assoc, content_append, hcontent, hsplit.2]
    conv_rhs => rw [hsplit.1]
    rw [overwrite_append_right]
  have hdm := Nat.div_add_mod c.position c.basesize
  have hcursor : (c.before ++ ws).length = (c.position + buf.length) / c.basesize := by
    have hsum : c.position + buf.length = c.position % c.basesize + buf.length +
        c.basesize * (c.position / c.basesize) := by omega
    rw [List.length_append, hc.cursor, hws, hsum, Nat.add_mul_div_left _ _ hc.base_pos,
      Nat.add_comm]
  -- both branches of the last test leave the size at the maximum
  have hmax : (if c.position + buf.length > c.size
      then ({ c with before := c.before ++ ws, after := rest, position := c.position + buf.length,
                     size := c.position + buf.length } : ByteArray)
      else { c with before := c.before ++ ws, after := rest,
                    position := c.position + buf.length }) =
      { c with before := c.before ++ ws, after := rest, position := c.position + buf.length,
               size := max c.size (c.position + buf.length) } := by
    split
    · next hgt => rw [Nat.max_eq_right (Nat.le_of_lt hgt)]
    · next hle => rw [Nat.max_eq_left (Nat.not_lt.mp hle)]
  refine ⟨_, congrArg some hmax, ⟨hc.base_pos, ?_, ?_, ?_, ?_, ?_, hcursor⟩, hkept, ?_⟩
  · show Uniform c.basesize (c.before ++ ws ++ rest)
    rw [List.append_assoc]
    exact Uniform.append.mpr ⟨(Uniform.append.mp hc.uniform).1, huniform⟩
  · show 1 ≤ (c.before ++ ws ++ rest).length
    rw [hnodes]
    exact hc.nonempty
  · show c.capacity = (c.before ++ ws ++ rest).length * c.basesize
    rw [hnodes, hc.capacity_eq]
  · exact Nat.le_max_right _ _
  · exact Nat.max_le.mpr ⟨hc.size_le, hcap⟩
  · show Flat.mk (content (c.before ++ ws ++ rest)) (c.position + buf.length)
      (max c.size (c.position + buf.length)) = Flat.mk (overwrite (content c.nodes) b.position buf)
      (b.position + buf.length) (max b.size (b.position + buf.length))
    rw [hbytes, hposition, hsize]

theorem write_of_grown {b c : ByteArray} {garbage : Garbage} {buf : List UInt8}
    (hne : 1 ≤ buf.length) (hadd : b.addCapacity garbage buf.length = some c) (hc : Chained c)
    (hkept : c.basesize = b.basesize ∧ c.endian = b.endian)
    (hgrown : Flat.Grown buf.length b.flat c.flat) :
    ∃ b', b.write garbage buf = some b' ∧ Chained b' ∧
      (b'.basesize = b.basesize ∧ b'.endian = b.endian) ∧
      Flat.Step b.basesize b.flat (.write garbage buf, .done) b'.flat := by
  rcases write_of_room hne hadd hc hkept hgrown with ⟨b', hwrite, hc', hkept', hflat⟩
  exact ⟨b', hwrite, hc', hkept', rfl, c.flat, hgrown, hflat⟩

theorem write_nil {b : ByteArray} (h : Chained b) (garbage : Garbage) :
    b.write garbage [] = some b ∧
      Flat.Step b.basesize b.flat (.write garbage [], .done) b.flat := by
  have hmax : max b.size b.position = b.size := Nat.max_eq_left h.position_le
  have hlen := h.length_content
  have hle := Nat.le_trans h.position_le h.size_le
  refine ⟨rfl, rfl, b.flat, ⟨[], by simp, ?_, fun _ => rfl⟩, ?_⟩
  · show b.position + 0 ≤ (content b.nodes).length
    omega
  · show b.flat = Flat.mk (overwrite (content b.nodes) b.position []) (b.position + 0)
      (max b.size (b.position + 0))
    rw [overwrite_nil, Nat.add_zero, hmax]
    rfl

theorem write_spec {b : ByteArray} (h : Chained b) (garbage : Garbage) (buf : List UInt8)
    (hsmall : buf.length < 2 ^ 53) :
    ∃ b', b.write garbage buf = some b' ∧ Chained b' ∧
      (b'.basesize = b.basesize ∧ b'.endian = b.endian) ∧
      Flat.Step b.basesize b.flat (.write garbage buf, .done) b'.flat := by
  by_cases hempty : buf.length = 0
  · rw [List.length_eq_zero_iff.mp hempty]
    rcases write_nil h garbage with ⟨hwrite, hstep⟩
    exact ⟨b, hwrite, h, ⟨rfl, rfl⟩, hstep⟩
  · rcases addCapacity_spec h garbage buf.length (by omega) hsmall with
      ⟨c, hadd, hc, hkept, hgrown⟩
    exact write_of_grown (by omega) hadd hc hkept hgrown

/-- The loop of `read` from the cursor of a well-formed buffer, for a read inside the size. -/
theorem readLoop_cursor {b : ByteArray} (h : Chained b) (size : Nat) (hpos : 1 ≤ size)
    (hfit : size ≤ b.size - b.position) :
    ∃ ws rest, readLoop b.before b.after (b.position % b.basesize) b.position size [] =
        some (slice (content b.nodes) b.position size, b.before ++ ws, rest, b.position + size) ∧
      b.after = ws ++ rest ∧ (b.before ++ ws).length = (b.position + size) / b.basesize := by
  have hroom := h.room
  have hsize := h.size_le
  rcases readLoop_spec h.base_pos b.after (Uniform.append.mp h.uniform).2 b.before
    (b.position % b.basesize) b.position size [] (Nat.mod_lt _ h.base_pos) hpos (by omega) with
    ⟨ws, rest, hloop, heq, hws⟩
  refine ⟨ws, rest, ?_, heq, ?_⟩
  · have hsplit := h.content_split
    rw [hloop, List.nil_append, hsplit.2]
    conv_rhs => rw [hsplit.1, Nat.add_assoc]
    rw [slice_append_right, ← Nat.add_assoc, ← hsplit.1]
  · have hdm := Nat.div_add_mod b.position b.basesize
    have hsum : b.position + size = b.position % b.basesize + size +
        b.basesize * (b.position / b.basesize) := by omega
    rw [List.length_append, h.cursor, hws, hsum, Nat.add_mul_div_left _ _ h.base_pos, Nat.add_comm]

theorem after_ne_nil {b : ByteArray} (h : Chained b) (hlt : b.position < b.capacity) :
    ∃ cur next, b.after = cur :: next := by
  cases hafter : b.after with
  | nil =>
    have heq := h.after_eq_nil_iff.mp hafter
    omega
  | cons cur next => exact ⟨cur, next, rfl⟩

theorem read_spec {b : ByteArray} (h : Chained b) {n : Nat} (hpos : 1 ≤ n) :
    ∃ r b', b.call (.read n) = some (r, b') ∧ Chained b' ∧
      (b'.basesize = b.basesize ∧ b'.endian = b.endian) ∧
      Flat.Step b.basesize b.flat (.read n, r) b'.flat := by
  unfold call Flat.Step read
  dsimp only
  rw [h.getReadSize]
  by_cases hgt : n > b.size - b.position
  · rw [if_pos hgt]
    have hflat : n > b.flat.size - b.flat.position := hgt
    refine ⟨_, b, rfl, h, ⟨rfl, rfl⟩, ?_⟩
    rw [if_pos hflat]
    exact ⟨rfl, rfl⟩
  · have hsize := h.size_le
    rcases after_ne_nil h (by omega) with ⟨cur, next, hafter⟩
    rcases readLoop_cursor h n hpos (by omega) with ⟨ws, rest, hloop, heq, hcursor⟩
    have hchain : b.before ++ ws ++ rest = b.nodes := by
      rw [List.append_assoc, ← heq, nodes]
    rw [if_neg hgt]
    rw [hafter] at hloop ⊢
    dsimp only
    rw [if_neg (by omega), hloop]
    refine ⟨_, _, rfl, ⟨h.base_pos, ?_, ?_, ?_, ?_, hsize, hcursor⟩, ⟨rfl, rfl⟩, ?_⟩
    · show Uniform b.basesize (b.before ++ ws ++ rest)
      rw [hchain]
      exact h.uniform
    · show 1 ≤ (b.before ++ ws ++ rest).length
      rw [hchain]
      exact h.nonempty
    · show b.capacity = (b.before ++ ws ++ rest).length * b.basesize
      rw [hchain, h.capacity_eq]
    · show b.position + n ≤ b.size
      omega
    · have hflat : ¬ n > b.flat.size - b.flat.position := hgt
      rw [if_neg hflat]
      refine ⟨rfl, ?_⟩
      show Flat.mk (content (b.before ++ ws ++ rest)) (b.position + n) b.size = _
      rw [hchain]
      rfl

theorem setPosition_spec {b : ByteArray} (h : Chained b) (v : Nat) :
    ∃ r b', b.call (.setPosition v) = some (r, b') ∧ Chained b' ∧
      (b'.basesize = b.basesize ∧ b'.endian = b.endian) ∧
      Flat.Step b.basesize b.flat (.setPosition v, r) b'.flat := by
  have hlen : b.flat.bytes.length = b.capacity := h.length_content
  unfold call Flat.Step setPosition
  dsimp only
  rw [hlen]
  -- a position behind the capacity throws before anything is changed
  by_cases hgt : v > b.capacity
  · rw [if_pos hgt]
    refine ⟨_, b, rfl, h, ⟨rfl, rfl⟩, ?_⟩
    rw [if_pos hgt]
    exact ⟨rfl, rfl⟩
  · have hne : b.nodes ≠ [] := by
      intro hz
      have hone := h.nonempty
      rw [hz, List.length_nil] at hone
      omega
    have hcap := h.capacity_eq
    rcases seek_spec h.base_pos b.nodes h.uniform [] v hne (by omega) with
      ⟨ws, rest, hseek, heq, hws⟩
    rw [List.nil_append] at hseek
    -- behind the size the size follows
    have hmax : (if v > b.size then ({ b with position := v, size := v } : ByteArray)
        else { b with position := v }) = { b with position := v, size := max b.size v } := by
      split
      · next hgt => rw [Nat.max_eq_right (Nat.le_of_lt hgt)]
      · next hle => rw [Nat.max_eq_left (Nat.not_lt.mp hle)]
    have hnodes : ({ b with position := v, size := max b.size v } : ByteArray).nodes = b.nodes := rfl
    rw [if_neg hgt, hmax, hnodes, hseek]
    refine ⟨_, _, rfl, ⟨h.base_pos, ?_, ?_, ?_, Nat.le_max_right _ _, ?_, hws⟩, ⟨rfl, rfl⟩, ?_⟩
    · show Uniform b.basesize (ws ++ rest)
      rw [← heq]
      exact h.uniform
    · show 1 ≤ (ws ++ rest).length
      rw [← heq]
      exact h.nonempty
    · show b.capacity = (ws ++ rest).length * b.basesize
      rw [← heq, h.capacity_eq]
    · have hsize := h.size_le
      show max b.size v ≤ b.capacity
      omega
    · rw [if_neg hgt]
      refine ⟨rfl, ?_⟩
      show Flat.mk (content (ws ++ rest)) v (max b.size v) = _
      rw [← heq]
      rfl

theorem clear_spec {b : ByteArray} (h : Chained b) :
    ∃ b', b.clear = some b' ∧ Chained b' ∧
      (b'.basesize = b.basesize ∧ b'.endian = b.endian) ∧
      Flat.Step b.basesize b.flat (.clear, .done) b'.flat := by
  have hone := h.nonempty
  have huniform := h.uniform
  unfold clear
  cases hnodes : b.nodes with
  | nil =>
    rw [hnodes, List.length_nil] at hone
    omega
  | cons root rest =>
    rw [hnodes] at huniform
    have hroot : root.size = b.basesize := huniform root (by simp)
    have hptr : root.ptr.length = b.basesize := by rw [root.length_ptr, hroot]
    refine ⟨_, rfl, ⟨h.base_pos, ?_, Nat.le_refl 1, ?_, Nat.le_refl 0, Nat.zero_le _, ?_⟩,
      ⟨rfl, rfl⟩, rfl, ?_⟩
    · intro n hn
      rw [List.mem_singleton.mp hn, hroot]
    · show b.basesize = 1 * b.basesize
      rw [Nat.one_mul]
    · show 0 = 0 / b.basesize
      rw [Nat.zero_div]
    · show Flat.mk (content [root]) 0 0 = Flat.mk ((content b.nodes).take b.basesize) 0 0
      rw [hnodes, content_cons, content_cons, ← hptr, List.take_left]
      simp [content]

/-- The rest of `getWriteBuffers`, once there is room. -/
theorem getWriteBuffers_of_grown {b c : ByteArray} {garbage : Garbage} {len : Nat}
    (hne : 1 ≤ len) (hadd : b.addCapacity garbage len = some c) (hc : Chained c)
    (hbase : c.basesize = b.basesize) (hgrown : Flat.Grown len b.flat c.flat) :
    ∃ iov, b.getWriteBuffers garbage len = some ((len, iov), c) ∧
      Flat.Covers b.basesize b.position iov len := by
  rcases hgrown with ⟨junk, hflat, hroom, -⟩
  have hposition : c.position = b.position := congrArg Flat.position hflat
  have hcap : c.position + len ≤ c.capacity := by
    rw [hposition, ← hc.length_content]
    exact hroom
  rcases buffersLoop_spec c.after (Uniform.append.mp hc.uniform).2 c.before.length
    (c.position % c.basesize) len (Nat.mod_lt _ hc.base_pos) (by omega)
    (by have := hc.room; omega) with ⟨iov, hloop, hcovers⟩
  unfold getWriteBuffers
  rw [if_neg (by omega), hadd]
  simp only [Option.bind_eq_bind, Option.bind_some, hloop]
  refine ⟨iov, rfl, ?_⟩
  have hdm := Nat.div_add_mod c.position c.basesize
  rw [← hbase, ← hposition]
  rw [hc.cursor, Nat.mul_comm, hdm] at hcovers
  exact hcovers

theorem getWriteBuffers_spec {b : ByteArray} (h : Chained b) (garbage : Garbage) {len : Nat}
    (hsmall : len < 2 ^ 53) :
    ∃ r b', b.call (.getWriteBuffers garbage len) = some (r, b') ∧ Chained b' ∧
      (b'.basesize = b.basesize ∧ b'.endian = b.endian) ∧
      Flat.Step b.basesize b.flat (.getWriteBuffers garbage len, r) b'.flat := by
  by_cases hempty : len = 0
  · have hlen := h.length_content
    have hle := Nat.le_trans h.position_le h.size_le
    rw [hempty]
    refine ⟨_, b, rfl, h, ⟨rfl, rfl⟩, [], rfl, rfl, [], by simp, ?_, fun _ => rfl⟩
    show b.position + 0 ≤ (content b.nodes).length
    omega
  · rcases addCapacity_spec h garbage len (by omega) hsmall with
      ⟨c, hadd, hc, hkept, hgrown⟩
    rcases getWriteBuffers_of_grown (by omega) hadd hc hkept.1 hgrown with
      ⟨iov, hbuffers, hcovers⟩
    refine ⟨_, c, ?_, hc, hkept, iov, rfl, hcovers, hgrown⟩
    simp only [call, hbuffers, Option.map_some]

theorem toString_spec {b : ByteArray} (h : Chained b) :
    b.toString = some (.ok b.flat.toString) := by
  unfold toString readAt
  dsimp only
  rw [h.getReadSize, sizeSub_of_le h.position_le]
  by_cases hempty : b.size - b.position = 0
  · rw [if_pos hempty]
    show _ = some (Except.ok (slice (content b.nodes) b.position (b.size - b.position)))
    rw [hempty, slice_zero]
  · have hsize := h.size_le
    rcases after_ne_nil h (by omega) with ⟨cur, next, hafter⟩
    rcases readLoop_cursor h (b.size - b.position) (by omega) (Nat.le_refl _) with
      ⟨ws, rest, hloop, -, -⟩
    rw [if_neg hempty, if_neg (by omega)]
    rw [hafter] at hloop ⊢
    dsimp only
    rw [if_neg hempty, hloop]
    rfl

/-! ## Runs -/

/-- The calls stay within `2^53` bytes and no call reads zero bytes. -/
def Small (b : ByteArray) (e : ByteArrayEvent) : Prop :=
  match e.1 with
  | .write _ buf => b.position + buf.length < 2 ^ 53
  | .read n => 1 ≤ n
  | .getWriteBuffers _ len => b.position + len < 2 ^ 53
  | .setPosition _ => True
  | .clear => True

/-- Every small call from a well-formed buffer has a result, which is well formed and is what the
flat buffer does. -/
theorem call_spec {b : ByteArray} (h : Chained b) {op : ByteArrayOp} {r : ByteArrayReply}
    (hsmall : Small b (op, r)) :
    ∃ r' b', b.call op = some (r', b') ∧ Chained b' ∧
      (b'.basesize = b.basesize ∧ b'.endian = b.endian) ∧
      Flat.Step b.basesize b.flat (op, r') b'.flat := by
  cases op with
  | write garbage buf =>
    have hlt : b.position + buf.length < 2 ^ 53 := hsmall
    rcases write_spec h garbage buf (by omega) with ⟨b', hwrite, hspec⟩
    exact ⟨.done, b', by simp only [call, hwrite, Option.map_some], hspec⟩
  | read n => exact read_spec h hsmall
  | setPosition v => exact setPosition_spec h v
  | clear =>
    rcases clear_spec h with ⟨b', hclear, hspec⟩
    exact ⟨.done, b', by simp only [call, hclear, Option.map_some], hspec⟩
  | getWriteBuffers garbage len =>
    have hlt : b.position + len < 2 ^ 53 := hsmall
    exact getWriteBuffers_spec h garbage (by omega)

/-- A run of small calls is a run of the flat buffer, and the invariant holds at its end. -/
theorem run_refines {b b' : ByteArray} {hist : List ByteArrayEvent} (h : Chained b)
    (hrun : Run (Guarded Small Step) b hist b') :
    Chained b' ∧ b'.basesize = b.basesize ∧ Run (Flat.Step b.basesize) b.flat hist b'.flat := by
  induction hrun with
  | nil => exact ⟨h, rfl, .nil _⟩
  | snoc _ hs ih =>
    rcases ih with ⟨hc, hbase, hflat⟩
    rcases hs with ⟨hsmall, hcall⟩
    rcases call_spec hc hsmall with ⟨r, c, hcall', hchained, hkept, hstep⟩
    rw [Step, hcall'] at hcall
    cases hcall
    rw [hbase] at hstep
    exact ⟨hchained, hkept.1.trans hbase, .snoc hflat hstep⟩

/-- A `ByteArray` refines the flat buffer: in every run the chain, the counters and the cursor fit
together, no small call fails, the run is a run of the flat buffer with the same replies, and
`toString` is the flat slice. -/
theorem refines_flat {basesize : Nat} {garbage : Nat → UInt8} {hist : List ByteArrayEvent}
    {b : ByteArray} (hbase : 1 ≤ basesize)
    (hrun : Run (Guarded Small Step) (new basesize garbage) hist b) :
    (b.basesize = basesize ∧ (∀ n ∈ b.nodes, n.size = basesize) ∧
        b.nodes.length = b.capacity / basesize ∧ b.capacity = b.nodes.length * basesize ∧
        1 ≤ b.nodes.length ∧ b.position ≤ b.size ∧ b.size ≤ b.capacity ∧
        b.before.length = b.position / basesize ∧ (b.after = [] ↔ b.position = b.capacity)) ∧
      Run (Flat.Step basesize) (new basesize garbage).flat hist b.flat ∧
      b.flat.bytes.length = b.capacity ∧ b.toString = some (.ok b.flat.toString) ∧
      ∀ op r, Small b (op, r) → (b.call op).isSome := by
  rcases run_refines (new_chained hbase garbage) hrun with ⟨h, hb, hflat⟩
  have hbase' : b.basesize = basesize := hb
  have hcap := h.capacity_eq
  have huniform := h.uniform
  have hcursor := h.cursor
  rw [hbase'] at hcap huniform hcursor
  refine ⟨⟨hbase', huniform, ?_, hcap, h.nonempty, h.position_le, h.size_le, hcursor,
    h.after_eq_nil_iff⟩, hflat, h.length_content, toString_spec h, ?_⟩
  · rw [hcap, Nat.mul_div_cancel _ hbase]
  · intro op r hsmall
    rcases call_spec h hsmall with ⟨r', b', hcall, -⟩
    rw [hcall]
    rfl

theorem refines_flat_reread : ∃ b,
    Run (Guarded Small Step) (new 4 fun _ => 0)
      [(.write (fun _ _ => 0) [1, 2, 3], .done), (.setPosition 1, .done),
        (.read 2, .bytes [2, 3]), (.read 1, .outOfRange "not enough len")] b ∧
      b.before.length = b.position / 4 ∧ b.toString = some (.ok b.flat.toString) := by
  have hnew : Run (Guarded Small Step) (new 4 fun _ => 0) [] (new 4 fun _ => 0) := .nil _
  have hwrite := hnew.snoc (show Guarded Small Step _ (.write (fun _ _ => 0) [1, 2, 3], .done) _
    from ⟨show 0 + 3 < 2 ^ 53 by decide, rfl⟩)
  have hseek := hwrite.snoc (show Guarded Small Step _ (.setPosition 1, .done) _
    from ⟨trivial, rfl⟩)
  have hread := hseek.snoc (show Guarded Small Step _ (.read 2, .bytes [2, 3]) _
    from ⟨show 1 ≤ 2 by decide, rfl⟩)
  have hshort := hread.snoc (show Guarded Small Step _ (.read 1, .outOfRange "not enough len") _
    from ⟨Nat.le_refl 1, rfl⟩)
  have hflat := refines_flat (by decide) hshort
  exact ⟨_, hshort, hflat.1.2.2.2.2.2.2.2.1, hflat.2.2.2.1⟩

end ByteArray

end Azure
