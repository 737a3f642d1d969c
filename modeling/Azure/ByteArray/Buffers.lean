import Azure.ByteArray.RoundTrip

/-!
# Gather, scatter and positional reads

The slices a `ByteArray` hands to `sendmsg` and `recvmsg` are windows of its nodes.  `Flat.Covers`
says where they lie; what a gathering call reads and a scattering call stores follows from that
alone.  The calls that take a position of their own are compared with the flat buffer at that
position.
-/

namespace Azure

open Reasoning

namespace Iovec

def load (ns : List Node) (v : Iovec) : Option (List UInt8) := do
  let node ← ns[v.node]?
  node.load v.base v.len

def Apart (v w : Iovec) : Prop :=
  v.node ≠ w.node ∨ v.base + v.len ≤ w.base ∨ w.base + w.len ≤ v.base

end Iovec

def gather (ns : List Node) : List Iovec → Option (List UInt8)
  | [] => some []
  | v :: vs => do
    let bytes ← v.load ns
    let rest ← gather ns vs
    some (bytes ++ rest)

def scatter : List Node → List Iovec → List UInt8 → Option (List Node)
  | ns, [], data => if data = [] then some ns else none
  | ns, v :: vs, data => do
    let node ← ns[v.node]?
    let node ← node.store v.base (data.take v.len)
    scatter (ns.set v.node node) vs (data.drop v.len)

namespace ByteArray

def getReadBuffers (len : UInt32) (b : ByteArray) : Option (Nat × List Iovec) :=
  let len := if len.toNat > b.getReadSize then b.getReadSize else len.toNat
  if len = 0 then some (0, [])
  else do
    let buffers ← buffersLoop b.before.length b.after (b.position % b.basesize) len
    some (len, buffers)

/-- `count` steps along the chain. -/
def advance : Nat → List Node → Option (List Node)
  | 0, ns => some ns
  | _ + 1, [] => none
  | count + 1, _ :: next => advance count next

/-- `getReadBuffers(buffers, len, position)`; the length is cut to what is left behind
`m_position`. -/
def getReadBuffersAt (len : UInt32) (position : UInt64) (b : ByteArray) :
    Option (Nat × List Iovec) :=
  let len := if len.toNat > b.getReadSize then b.getReadSize else len.toNat
  if len = 0 then some (0, [])
  else do
    let npos := position.toNat % b.basesize
    let count := position.toNat / b.basesize
    let cur ← advance count b.nodes
    let buffers ← buffersLoop count cur npos len
    some (len, buffers)

def withNodes (b : ByteArray) (ns : List Node) : ByteArray :=
  { b with before := ns.take b.before.length, after := ns.drop b.before.length }

/-- A state that public calls lead to from a new buffer, in either byte order; the counters are
`size_t`. -/
def Reachable (b : ByteArray) : Prop :=
  (∃ basesize garbage endian hist, 1 ≤ basesize ∧
    Run Step { new basesize garbage with endian } hist b) ∧ b.capacity < 2 ^ 64

/-! ## Windows of a chain -/

theorem Uniform.split {basesize : Nat} {ns : List Node} (h : Uniform basesize ns) {i : Nat}
    (hi : i < ns.length) : ∃ pre cur next, ns = pre ++ cur :: next ∧ pre.length = i ∧
      cur.ptr.length = basesize ∧ cur.size = basesize ∧
      (content pre).length = i * basesize := by
  have hcur : ns[i].size = basesize := h _ (List.getElem_mem hi)
  have hpre : (ns.take i).length = i := List.length_take_of_le (Nat.le_of_lt hi)
  refine ⟨ns.take i, ns[i], ns.drop (i + 1), ?_, hpre, ?_, hcur, ?_⟩
  · rw [List.getElem_cons_drop, List.take_append_drop]
  · rw [Node.length_ptr, hcur]
  · have huniform : Uniform basesize (ns.take i) := fun n hn => h n (List.mem_of_mem_take hn)
    rw [ByteArray.length_content huniform, hpre]

/-- The bytes of a window are a slice of the chain. -/
theorem load_eq {basesize : Nat} {ns : List Node} (h : Uniform basesize ns) {v : Iovec}
    (hnode : v.node < ns.length) (hlen : v.base + v.len ≤ basesize) :
    v.load ns = some (slice (content ns) (v.node * basesize + v.base) v.len) := by
  rcases h.split hnode with ⟨pre, cur, next, heq, hpre, hptr, hsize, hcontent⟩
  have hget : ns[v.node]? = some cur := by
    rw [heq, ← hpre, List.getElem?_append_right (Nat.le_refl _), Nat.sub_self]
    rfl
  unfold Iovec.load
  rw [hget]
  simp only [Option.bind_eq_bind, Option.bind_some]
  rw [Node.load_eq (by omega), heq, content_append, content_cons, ← hcontent, slice_append_right,
    slice_append_left (by omega)]

/-- Storing into a window overwrites the bytes of the chain there. -/
theorem store_eq {basesize : Nat} {ns : List Node} (h : Uniform basesize ns) {i base : Nat}
    (hi : i < ns.length) {data : List UInt8} (hlen : base + data.length ≤ basesize) :
    ∃ node node', ns[i]? = some node ∧ node.store base data = some node' ∧
      Uniform basesize (ns.set i node') ∧
      content (ns.set i node') = overwrite (content ns) (i * basesize + base) data := by
  rcases h.split hi with ⟨pre, cur, next, heq, hpre, hptr, hsize, hcontent⟩
  have hget : ns[i]? = some cur := by
    rw [heq, ← hpre, List.getElem?_append_right (Nat.le_refl _), Nat.sub_self]
    rfl
  rcases cur.store_eq base data (by omega) with ⟨cur', hstore, hsize', hptr'⟩
  have hset : ns.set i cur' = pre ++ cur' :: next := by
    rw [heq, ← hpre, List.set_append_right _ _ (Nat.le_refl _), Nat.sub_self, List.set_cons_zero]
  refine ⟨cur, cur', hget, hstore, ?_, ?_⟩
  · intro n hn
    rcases List.mem_or_eq_of_mem_set hn with hn | rfl
    · exact h n hn
    · rw [hsize', hsize]
  · rw [hset, heq, content_append, content_append, content_cons, content_cons, hptr',
      ← hcontent, overwrite_append_right, overwrite_append_left (by omega)]

end ByteArray

namespace Flat.Covers

variable {basesize start n : Nat} {iov : List Iovec}

theorem sum_len (h : Flat.Covers basesize start iov n) : (iov.map Iovec.len).sum = n := by
  induction iov generalizing start n with
  | nil => exact h.symm
  | cons v vs ih =>
    rcases h with ⟨-, -, hle, hrest⟩
    rw [List.map_cons, List.sum_cons, ih hrest]
    omega

/-- Every window lies at or behind the start. -/
theorem start_le (h : Flat.Covers basesize start iov n) {v : Iovec} (hv : v ∈ iov) :
    start ≤ v.node * basesize + v.base := by
  induction iov generalizing start n with
  | nil => cases hv
  | cons w ws ih =>
    rcases h with ⟨hstart, -, -, hrest⟩
    rcases List.mem_cons.mp hv with rfl | hv
    · exact Nat.le_of_eq hstart.symm
    · exact Nat.le_trans (Nat.le_add_right _ _) (ih hrest hv)

theorem apart (h : Flat.Covers basesize start iov n) : iov.Pairwise Iovec.Apart := by
  induction iov generalizing start n with
  | nil => exact .nil
  | cons v vs ih =>
    rcases h with ⟨hstart, -, -, hrest⟩
    refine .cons ?_ (ih hrest)
    intro w hw
    have hle := hrest.start_le hw
    by_cases hnode : v.node = w.node
    · right
      left
      rw [hnode] at hstart
      omega
    · exact Or.inl hnode

/-- Gathering reads the bytes the windows cover. -/
theorem gather_eq {ns : List Node} (h : Flat.Covers basesize start iov n)
    (hns : ByteArray.Uniform basesize ns) (hpos : ∀ v ∈ iov, 1 ≤ v.len)
    (hfit : start + n ≤ ns.length * basesize) :
    gather ns iov = some (slice (ByteArray.content ns) start n) := by
  induction iov generalizing start n with
  | nil =>
    have hn : n = 0 := h
    rw [hn, slice_zero]
    rfl
  | cons v vs ih =>
    rcases h with ⟨hstart, hinside, hle, hrest⟩
    have hv := hpos v (by simp)
    have hnode : v.node < ns.length :=
      Nat.lt_of_mul_lt_mul_right (show v.node * basesize < ns.length * basesize by omega)
    have hsplit : n = v.len + (n - v.len) := by omega
    unfold gather
    rw [ByteArray.load_eq hns hnode hinside, ih hrest (fun w hw => hpos w (by simp [hw]))
      (by omega), hstart]
    simp only [Option.bind_eq_bind, Option.bind_some]
    conv_rhs => rw [hsplit, slice_add]

/-- Scattering overwrites the first bytes the windows cover. -/
theorem scatter_eq {ns : List Node} {data : List UInt8} (h : Flat.Covers basesize start iov n)
    (hns : ByteArray.Uniform basesize ns) (hpos : ∀ v ∈ iov, 1 ≤ v.len)
    (hfit : start + n ≤ ns.length * basesize) (hdata : data.length ≤ n) :
    ∃ ns', scatter ns iov data = some ns' ∧ ByteArray.Uniform basesize ns' ∧
      ns'.length = ns.length ∧
      ByteArray.content ns' = overwrite (ByteArray.content ns) start data := by
  induction iov generalizing start n ns data with
  | nil =>
    have hn : n = 0 := h
    have hnil : data = [] := List.length_eq_zero_iff.mp (by omega)
    refine ⟨ns, ?_, hns, rfl, by rw [hnil, overwrite_nil]⟩
    unfold scatter
    rw [if_pos hnil]
  | cons v vs ih =>
    rcases h with ⟨hstart, hinside, hle, hrest⟩
    have hv := hpos v (by simp)
    have hnode : v.node < ns.length :=
      Nat.lt_of_mul_lt_mul_right (show v.node * basesize < ns.length * basesize by omega)
    have htake : (data.take v.len).length ≤ v.len := List.length_take_le _ _
    have hdrop : (data.drop v.len).length = data.length - v.len := List.length_drop
    have hfirst : v.base + (data.take v.len).length ≤ basesize := by omega
    rcases ByteArray.store_eq hns hnode hfirst with
      ⟨node, node', hget, hstore, huniform, hcontent⟩
    have hmore : (data.drop v.len).length ≤ n - v.len := by omega
    rcases ih hrest huniform (fun w hw => hpos w (by simp [hw]))
      (by rw [List.length_set]; omega) hmore with
      ⟨ns', hscatter, huniform', hlen', hcontent'⟩
    refine ⟨ns', ?_, huniform', by rw [hlen', List.length_set], ?_⟩
    · unfold scatter
      rw [hget]
      simp only [Option.bind_eq_bind, Option.bind_some]
      rw [hstore]
      exact hscatter
    · rw [hcontent', hcontent, hstart]
      -- either the data end in this window or the next one goes on where it ends
      by_cases hshort : data.length ≤ v.len
      · rw [List.drop_eq_nil_of_le hshort, overwrite_nil, List.take_of_length_le hshort]
      · have hfull : (data.take v.len).length = v.len := List.length_take_of_le (by omega)
        have hbytes := ByteArray.length_content hns
        conv_lhs => rw [← hfull]
        conv_rhs => rw [← List.take_append_drop v.len data]
        rw [hfull, ← overwrite_overwrite (by omega), hfull]

end Flat.Covers

namespace ByteArray

/-! ## The loops run off a chain that is too short -/

theorem readLoop_fits {basesize : Nat} {after : List Node} (hsize : Uniform basesize after)
    {before : List Node} {npos position size : Nat} {buf : List UInt8} (hnpos : npos < basesize)
    {r : List UInt8 × List Node × List Node × Nat}
    (h : readLoop before after npos position size buf = some r) :
    npos + size ≤ after.length * basesize := by
  induction after generalizing before npos position size buf with
  | nil => cases h
  | cons cur next ih =>
    have hcur : cur.size = basesize := hsize cur (by simp)
    have hncap : sizeSub cur.size npos = basesize - npos := by
      rw [hcur, sizeSub_of_le (by omega)]
    unfold readLoop at h
    dsimp only at h
    rw [hncap] at h
    rw [List.length_cons, Nat.add_mul, Nat.one_mul]
    by_cases hlast : basesize - npos ≥ size
    · omega
    · rw [if_neg hlast] at h
      rcases Option.bind_eq_some_iff.mp h with ⟨chunk, -, hloop⟩
      have hrest := ih (Uniform.cons.mp hsize).2 (by omega) hloop
      omega

/-- The windows `buffersLoop` names are not empty. -/
theorem buffersLoop_fits {basesize : Nat} {after : List Node} (hsize : Uniform basesize after)
    {node npos len : Nat} (hnpos : npos < basesize) (hlen : 1 ≤ len) {iov : List Iovec}
    (h : buffersLoop node after npos len = some iov) :
    npos + len ≤ after.length * basesize ∧ ∀ v ∈ iov, 1 ≤ v.len := by
  induction after generalizing node npos len iov with
  | nil => cases h
  | cons cur next ih =>
    have hcur : cur.size = basesize := hsize cur (by simp)
    have hncap : sizeSub cur.size npos = basesize - npos := by
      rw [hcur, sizeSub_of_le (by omega)]
    unfold buffersLoop at h
    dsimp only at h
    rw [hncap] at h
    rw [List.length_cons, Nat.add_mul, Nat.one_mul]
    by_cases hlast : basesize - npos ≥ len
    · rw [if_pos hlast] at h
      cases h
      refine ⟨by omega, ?_⟩
      intro v hv
      rw [List.mem_singleton.mp hv]
      exact hlen
    · rw [if_neg hlast] at h
      rcases Option.bind_eq_some_iff.mp h with ⟨rest, hloop, hiov⟩
      cases hiov
      have hrest := ih (Uniform.cons.mp hsize).2 (by omega) (by omega) hloop
      refine ⟨by omega, ?_⟩
      intro v hv
      rcases List.mem_cons.mp hv with rfl | hv
      · show 1 ≤ basesize - npos
        omega
      · exact hrest.2 v hv

/-! ## Reachable states -/

theorem write_some {b b' : ByteArray} (h : Chained b) {garbage : Garbage} {buf : List UInt8}
    (hwrite : b.write garbage buf = some b') :
    Chained b' ∧ Flat.Step b.basesize b.flat (.write garbage buf, .done) b'.flat := by
  by_cases hempty : buf.length = 0
  · rw [List.length_eq_zero_iff.mp hempty] at hwrite ⊢
    rcases write_nil h garbage with ⟨hsame, hstep⟩
    rw [hsame] at hwrite
    cases hwrite
    exact ⟨h, hstep⟩
  · rcases write_fits h (by omega) hwrite with ⟨c, hadd, hfit⟩
    rcases grown_of_fits h (by omega) hadd hfit with ⟨hc, hkept, hgrown⟩
    rcases write_of_grown (by omega) hadd hc hkept hgrown with ⟨c', hwrite', hc', -, hstep⟩
    rw [hwrite] at hwrite'
    cases hwrite'
    exact ⟨hc', hstep⟩

theorem getWriteBuffers_some {b c : ByteArray} (h : Chained b) {garbage : Garbage} {len total : Nat}
    {iov : List Iovec} (hlen : 1 ≤ len)
    (hbuffers : b.getWriteBuffers garbage len = some ((total, iov), c)) :
    Chained c ∧ c.basesize = b.basesize ∧ Flat.Grown len b.flat c.flat ∧ total = len ∧
      Flat.Covers b.basesize b.position iov len ∧ ∀ v ∈ iov, 1 ≤ v.len := by
  have hdo := hbuffers
  unfold getWriteBuffers at hdo
  rw [if_neg (by omega)] at hdo
  rcases Option.bind_eq_some_iff.mp hdo with ⟨c', hadd, hrest⟩
  rcases Option.bind_eq_some_iff.mp hrest with ⟨iov', hloop, heq⟩
  cases heq
  rcases addCapacity_grows h garbage len hlen with ⟨c', hadd', hc, -⟩
  rw [hadd] at hadd'
  cases hadd'
  have hfit := buffersLoop_fits (Uniform.append.mp hc.uniform).2 (Nat.mod_lt _ hc.base_pos) hlen
    hloop
  rcases grown_of_fits h hlen hadd hfit.1 with ⟨-, hkept, hgrown⟩
  rcases getWriteBuffers_of_grown hlen hadd hc hkept.1 hgrown with ⟨iov', hbuffers', hcovers⟩
  rw [hbuffers] at hbuffers'
  cases hbuffers'
  exact ⟨hc, hkept.1, hgrown, rfl, hcovers, hfit.2⟩

/-- Every call that has a result keeps the cursor invariant, whatever its arguments. -/
theorem Chained.call {b b' : ByteArray} (h : Chained b) {op : ByteArrayOp} {r : ByteArrayReply}
    (hcall : b.call op = some (r, b')) : Chained b' := by
  cases op with
  | write garbage buf =>
    rcases Option.map_eq_some_iff.mp hcall with ⟨c, hwrite, heq⟩
    cases heq
    exact (write_some h hwrite).1
  | read size =>
    by_cases hzero : size = 0
    · -- nothing moves, and without a cursor there is no result
      have hsame : ∀ c r, b.read 0 = some (r, c) → c = b := by
        intro c r hread
        unfold read at hread
        rw [if_neg (by omega)] at hread
        cases hafter : b.after with
        | nil =>
          rw [hafter] at hread
          cases hread
        | cons cur next =>
          rw [hafter] at hread
          cases hread
          rfl
      rcases Option.map_eq_some_iff.mp hcall with ⟨⟨res, c⟩, hread, heq⟩
      rw [hzero] at hread
      have hc := hsame c res hread
      cases res with
      | ok bytes =>
        cases heq
        rw [hc]
        exact h
      | error what =>
        cases heq
        rw [hc]
        exact h
    · rcases read_spec h (show 1 ≤ size by omega) with ⟨r', c, hcall', hc, -⟩
      rw [hcall] at hcall'
      cases hcall'
      exact hc
  | setPosition v =>
    rcases setPosition_spec h v with ⟨r', c, hcall', hc, -⟩
    rw [hcall] at hcall'
    cases hcall'
    exact hc
  | clear =>
    rcases Option.map_eq_some_iff.mp hcall with ⟨c, hclear, heq⟩
    cases heq
    rcases clear_spec h with ⟨c', hclear', hc, -⟩
    rw [hclear] at hclear'
    cases hclear'
    exact hc
  | getWriteBuffers garbage len =>
    rcases Option.map_eq_some_iff.mp hcall with ⟨⟨⟨total, iov⟩, c⟩, hbuffers, heq⟩
    cases heq
    by_cases hzero : len = 0
    · rw [hzero] at hbuffers
      cases hbuffers
      exact h
    · exact (getWriteBuffers_some h (by omega) hbuffers).1

theorem Reachable.chained {b : ByteArray} (h : Reachable b) : Chained b := by
  rcases h with ⟨⟨basesize, garbage, endian, hist, hbase, hrun⟩, -⟩
  have hnew := new_chained hbase garbage
  apply hrun.invariant Chained
  · exact ⟨hnew.base_pos, hnew.uniform, hnew.nonempty, hnew.capacity_eq, hnew.position_le,
      hnew.size_le, hnew.cursor⟩
  · exact fun b e b' hb hstep => hb.call hstep

/-! ## Gather and scatter -/

/-- The windows from any position inside the chain. -/
theorem Chained.windows {b : ByteArray} (h : Chained b) {position n : Nat} (hn : 1 ≤ n)
    (hfit : position + n ≤ b.capacity) :
    ∃ iov, buffersLoop (position / b.basesize) (b.nodes.drop (position / b.basesize))
        (position % b.basesize) n = some iov ∧
      iov.Pairwise Iovec.Apart ∧ gather b.nodes iov = some (slice b.flat.bytes position n) := by
  have hdm := Nat.div_add_mod position b.basesize
  have hmod := Nat.mod_lt position h.base_pos
  have hcap := h.capacity_eq
  have huniform : Uniform b.basesize (b.nodes.drop (position / b.basesize)) :=
    fun n hn => h.uniform n (List.mem_of_mem_drop hn)
  have hlt : position / b.basesize < b.nodes.length := by
    apply Nat.div_lt_of_lt_mul
    rw [Nat.mul_comm]
    omega
  have hroom : position % b.basesize + n ≤
      (b.nodes.drop (position / b.basesize)).length * b.basesize := by
    rw [List.length_drop, Nat.sub_mul, Nat.mul_comm (position / b.basesize)]
    omega
  rcases buffersLoop_spec _ huniform (position / b.basesize) (position % b.basesize) n hmod hn
    hroom with ⟨iov, hloop, hcovers⟩
  rw [Nat.mul_comm, hdm] at hcovers
  exact ⟨iov, hloop, hcovers.apart,
    hcovers.gather_eq h.uniform (buffersLoop_fits huniform hmod hn hloop).2 (by omega)⟩

theorem after_eq_drop (b : ByteArray) : b.after = b.nodes.drop b.before.length := by
  rw [nodes, List.drop_left]

theorem getReadBuffers_spec {b : ByteArray} (h : Chained b) (len : UInt32) :
    ∃ iov, b.getReadBuffers len = some (min len.toNat b.getReadSize, iov) ∧
      iov.Pairwise Iovec.Apart ∧
      gather b.nodes iov = some (slice b.flat.bytes b.position (min len.toNat b.getReadSize)) := by
  have hclamp : (if len.toNat > b.getReadSize then b.getReadSize else len.toNat) =
      min len.toNat b.getReadSize := by
    split <;> omega
  have hread := h.getReadSize
  have hsize := h.size_le
  unfold getReadBuffers
  dsimp only
  rw [hclamp]
  generalize hn : min len.toNat b.getReadSize = n
  by_cases hzero : n = 0
  · rw [if_pos hzero, hzero]
    exact ⟨[], rfl, .nil, by rw [slice_zero]; rfl⟩
  · have hpos := h.position_le
    have hfit : b.position + n ≤ b.capacity := by omega
    rcases h.windows (by omega) hfit with ⟨iov, hloop, hapart, hgather⟩
    rw [if_neg hzero, h.cursor, after_eq_drop, h.cursor, hloop]
    exact ⟨iov, rfl, hapart, hgather⟩

/-- Storing through the windows and moving the position behind the data is what the flat buffer
does for `write`. -/
theorem scatter_spec {b c : ByteArray} {len : Nat} {iov : List Iovec} {data : List UInt8}
    (hc : Chained c) (hbase : c.basesize = b.basesize) (hgrown : Flat.Grown len b.flat c.flat)
    (hcovers : Flat.Covers b.basesize b.position iov len) (hpos : ∀ v ∈ iov, 1 ≤ v.len)
    (hdata : data.length ≤ len) :
    ∃ ns d, scatter c.nodes iov data = some ns ∧
      (c.withNodes ns).call (.setPosition (c.position + data.length)) = some (.done, d) ∧
      d.flat = {
        bytes := overwrite c.flat.bytes b.position data
        position := b.position + data.length
        size := max b.size (b.position + data.length) } := by
  rcases hgrown with ⟨junk, hflat, hroom, -⟩
  have hposition : c.position = b.position := congrArg Flat.position hflat
  have hsize : c.size = b.size := congrArg Flat.size hflat
  have hlen := hc.length_content
  have hroom' : b.position + len ≤ c.capacity := by
    rw [← hlen]
    exact hroom
  rw [← hbase] at hcovers
  rcases hcovers.scatter_eq hc.uniform hpos (by rw [← hc.capacity_eq]; exact hroom') hdata with
    ⟨ns, hscatter, huniform, hns, hcontent⟩
  -- the nodes are as many as before, so the cursor stays where it is
  have hnodes : (c.withNodes ns).nodes = ns := List.take_append_drop _ _
  have hbefore : c.before.length ≤ ns.length := by
    rw [hns, length_nodes]
    omega
  have hwith : Chained (c.withNodes ns) := by
    refine ⟨hc.base_pos, ?_, ?_, ?_, hc.position_le, hc.size_le, ?_⟩
    · rw [hnodes]
      exact huniform
    · rw [hnodes, hns]
      exact hc.nonempty
    · rw [hnodes, hns]
      exact hc.capacity_eq
    · show (ns.take c.before.length).length = c.position / c.basesize
      rw [List.length_take_of_le hbefore, hc.cursor]
  rcases setPosition_spec hwith (c.position + data.length) with ⟨r, d, hcall, -, -, hstep⟩
  have hbytes : (c.withNodes ns).flat.bytes.length = c.capacity := hwith.length_content
  unfold Flat.Step at hstep
  dsimp only at hstep
  rw [if_neg (by omega)] at hstep
  refine ⟨ns, d, hscatter, by rw [hcall, hstep.1], ?_⟩
  rw [hstep.2]
  show Flat.mk (content (c.withNodes ns).nodes) (c.position + data.length)
    (max c.size (c.position + data.length)) = _
  rw [hnodes, hcontent, hposition, hsize]
  rfl

/-- The two ways to store the same data agree on everything up to the size. -/
theorem written_grown {b d : ByteArray} {g : Flat} {data junk : List UInt8} (h : Chained b)
    (hg : g = { b.flat with bytes := b.flat.bytes ++ junk })
    (hroom : b.position + data.length ≤ g.bytes.length)
    (hd : d.flat = {
      bytes := overwrite g.bytes b.position data
      position := b.position + data.length
      size := max b.size (b.position + data.length) }) :
    written d = b.flat.bytes.take b.position ++ data ++
      slice b.flat.bytes (b.position + data.length) (b.size - (b.position + data.length)) := by
  have hlen : b.flat.bytes.length = b.capacity := h.length_content
  have hsize := h.size_le
  have hbytes : g.bytes = b.flat.bytes ++ junk := by rw [hg]
  have hd' : d.size = max b.size (b.position + data.length) := congrArg Flat.size hd
  unfold written
  rw [hd', show d.flat.bytes = overwrite g.bytes b.position data by rw [hd]]
  rw [hbytes] at hroom ⊢
  exact slice_overwrite_grown h.position_le (by omega) junk hroom

/-- Gathering reads what `toString` returns, and scattering with `setPosition` is `write`.  The
growth is computed in floating point, so that the calls have a result is stated below `2^53`
bytes; that they agree is not bounded. -/
theorem buffers_agree {b : ByteArray} (hb : Reachable b) :
    (∀ len : UInt32, ∃ s iov, b.toString = some (.ok s) ∧
      b.getReadBuffers len = some (min len.toNat b.getReadSize, iov) ∧
      iov.Pairwise Iovec.Apart ∧
      gather b.nodes iov = some (s.take (min len.toNat b.getReadSize))) ∧
    ∀ (garbage garbage' : Garbage) (len : Nat) (data : List UInt8),
      1 ≤ len → data.length ≤ len →
      (b.position + len < 2 ^ 53 → (b.call (.getWriteBuffers garbage len)).isSome ∧
        (b.call (.write garbage' data)).isSome) ∧
      ∀ r c, b.call (.getWriteBuffers garbage len) = some (r, c) →
        ∃ iov ns d, r = .buffers len iov ∧ (iov.map Iovec.len).sum = len ∧
          iov.Pairwise Iovec.Apart ∧ scatter c.nodes iov data = some ns ∧
          (c.withNodes ns).call (.setPosition (c.position + data.length)) = some (.done, d) ∧
          ∀ r' e, b.call (.write garbage' data) = some (r', e) →
            d.position = e.position ∧ d.size = e.size ∧ written d = written e := by
  have h := hb.chained
  refine ⟨?_, ?_⟩
  · intro len
    rcases getReadBuffers_spec h len with ⟨iov, hread, hapart, hgather⟩
    refine ⟨_, iov, toString_spec h, hread, hapart, ?_⟩
    have hsize : b.flat.size - b.flat.position = b.getReadSize := h.getReadSize.symm
    rw [hgather, Flat.toString, hsize, slice, slice, List.take_take,
      Nat.min_eq_left (Nat.min_le_right _ _)]
    rfl
  · intro garbage garbage' len data hlen hdata
    refine ⟨?_, ?_⟩
    · intro hsmall
      rcases getWriteBuffers_spec h garbage (show len < 2 ^ 53 by omega) with ⟨r, c, hcall, -⟩
      rcases write_spec h garbage' data (by omega) with ⟨e, hwrite, -⟩
      refine ⟨by rw [hcall, Option.isSome_some], ?_⟩
      simp only [call, hwrite, Option.map_some, Option.isSome_some]
    · intro r c hcall
      rcases Option.map_eq_some_iff.mp hcall with ⟨⟨⟨total, iov⟩, c'⟩, hbuffers, heq⟩
      cases heq
      rcases getWriteBuffers_some h hlen hbuffers with
        ⟨hc, hbase, hgrown, htotal, hcovers, hpos⟩
      rcases scatter_spec hc hbase hgrown hcovers hpos hdata with ⟨ns, d, hscatter, hset, hd⟩
      refine ⟨iov, ns, d, by rw [htotal], hcovers.sum_len, hcovers.apart, hscatter, hset, ?_⟩
      intro r' e hwrite
      rcases Option.map_eq_some_iff.mp hwrite with ⟨e', hwrite, heq⟩
      cases heq
      rcases (write_some h hwrite).2 with ⟨-, g, ⟨junk', hg, hroom', -⟩, he⟩
      rcases hgrown with ⟨junk, hflat, hroom, -⟩
      refine ⟨(congrArg Flat.position hd).trans (congrArg Flat.position he).symm,
        (congrArg Flat.size hd).trans (congrArg Flat.size he).symm, ?_⟩
      -- what the new nodes held lies behind the size, so both sides are the same bytes
      have hfit := Nat.le_trans (Nat.add_le_add_left hdata b.position) hroom
      rw [written_grown h hflat hfit hd, written_grown h hg hroom' he]

/-- A buffer of nodes of four bytes with eight bytes in it, read from the start again. -/
def eight : ByteArray where
  basesize := 4
  capacity := 8
  size := 8
  after := [Node.new 4 fun i => UInt8.ofNat (i + 1), Node.new 4 fun i => UInt8.ofNat (i + 5)]

/-- The same buffer when its first node is full. -/
def four : ByteArray where
  basesize := 4
  position := 4
  capacity := 4
  size := 4
  before := [Node.new 4 fun i => UInt8.ofNat (i + 1)]
  after := []

theorem reachable_eight : Reachable eight := by
  have hcount : growthCount 4 4 = 1 := growthCount_eq (by decide) (by decide) (by decide)
  have hgrow : four.addCapacity (fun _ _ => 0) 4 =
      some { four with capacity := 8, after := [Node.new 4 fun _ => 0] } := by
    show some { four with
      capacity := 4 + growthCount 4 4 * 4
      after := (List.range (growthCount 4 4)).map fun _ => Node.new 4 fun _ => 0 } = _
    rw [hcount]
    rfl
  have hsecond : four.write (fun _ _ => 0) [5, 6, 7, 8] =
      some { eight with position := 8, before := eight.after, after := [] } := by
    unfold write
    rw [if_neg (by decide), show four.addCapacity _ ([5, 6, 7, 8] : List UInt8).length = _ from hgrow]
    rfl
  -- the first node is filled, a second one is created and filled, and the cursor goes back
  have hnew : Run Step { new 4 fun _ => 0 with endian := .big } [] (new 4 fun _ => 0) := .nil _
  have hfour := hnew.snoc (show Step _ (.write (fun _ _ => 0) [1, 2, 3, 4], .done) four from rfl)
  have hfull := hfour.snoc (show Step four (.write (fun _ _ => 0) [5, 6, 7, 8], .done) _ from
    congrArg (Option.map _) hsecond)
  have hseek := hfull.snoc (show Step _ (.setPosition 0, .done) eight from rfl)
  exact ⟨⟨4, fun _ => 0, .big, _, by decide, hseek⟩, by decide⟩

theorem buffers_agree_eight : ∃ ns d,
    scatter eight.nodes [⟨0, 0, 4⟩, ⟨1, 0, 2⟩] [9, 9, 9, 9, 9] = some ns ∧
      (eight.withNodes ns).call (.setPosition 5) = some (.done, d) ∧
      written d = [9, 9, 9, 9, 9, 6, 7, 8] := by
  have hbuffers : eight.call (.getWriteBuffers (fun _ _ => 0) 6) =
      some (.buffers 6 [⟨0, 0, 4⟩, ⟨1, 0, 2⟩], eight) := rfl
  rcases ((buffers_agree reachable_eight).2 (fun _ _ => 0) (fun _ _ => 0) 6 [9, 9, 9, 9, 9]
    (by decide) (by decide)).2 _ _ hbuffers with ⟨iov, ns, d, hiov, -, -, hscatter, hset, hsame⟩
  cases hiov
  exact ⟨ns, d, hscatter, hset, (hsame .done _ rfl).2.2⟩

/-! ## Reads at a position -/

/-- `read(buf, size, position)` throws exactly when the window is not inside the size, and fills
`buf` with the window otherwise. -/
def ReadsAt (b : ByteArray) (size position : UInt64) : Prop :=
  b.readAt size.toNat position.toNat =
    if position.toNat + size.toNat > b.size then some (.error "not enough len")
    else some (.ok (slice b.flat.bytes position.toNat size.toNat))

def inCursorNode (b : ByteArray) (position : Nat) : Nat :=
  b.position / b.basesize * b.basesize + position % b.basesize

/-- `read(buf, size, position)` once the test has let it pass. -/
theorem readAt_passed {b : ByteArray} (h : Chained b) {size position : Nat} (hsize : 1 ≤ size)
    (htest : ¬ size > sizeSub b.size position) :
    b.readAt size position =
      if b.inCursorNode position + size ≤ b.capacity then
        some (.ok (slice b.flat.bytes (b.inCursorNode position) size))
      else none := by
  have huniform := (Uniform.append.mp h.uniform).2
  have hmod := Nat.mod_lt position h.base_pos
  have hcap := h.capacity_eq
  have hbefore : (content b.before).length = b.position / b.basesize * b.basesize := by
    rw [ByteArray.length_content (Uniform.append.mp h.uniform).1, h.cursor]
  rw [length_nodes, Nat.add_mul, h.cursor] at hcap
  have hroom : b.inCursorNode position + size ≤ b.capacity ↔
      position % b.basesize + size ≤ b.after.length * b.basesize := by
    unfold inCursorNode
    omega
  unfold readAt
  rw [if_neg htest]
  by_cases hfit : position % b.basesize + size ≤ b.after.length * b.basesize
  · rcases readLoop_spec h.base_pos b.after huniform b.before (position % b.basesize) position size
      [] hmod hsize hfit with ⟨ws, rest, hloop, -, -⟩
    have hne : b.after ≠ [] := by
      intro hnil
      rw [hnil, List.length_nil, Nat.zero_mul] at hfit
      omega
    have hflat : b.flat.bytes = content b.before ++ content b.after := h.content_split.2
    rw [if_pos (hroom.mpr hfit), inCursorNode, hflat, ← hbefore, slice_append_right]
    cases hafter : b.after with
    | nil => exact absurd hafter hne
    | cons cur next =>
      rw [hafter] at hloop
      dsimp only
      rw [if_neg (by omega), hloop]
      rfl
  · -- the loop runs off the chain, or there is no cursor at all
    rw [if_neg fun hfits => hfit (hroom.mp hfits)]
    cases hafter : b.after with
    | nil => rfl
    | cons cur next =>
      rw [hafter] at hfit huniform
      dsimp only
      rw [if_neg (by omega)]
      cases hloop : readLoop b.before (cur :: next) (position % b.basesize) position size [] with
      | none => rfl
      | some r => exact absurd (readLoop_fits huniform hmod hloop) hfit

/-- The test misses windows behind the size that are too short to make the subtraction wrap back,
and the node is right only where the cursor's node holds the same bytes at the same place. -/
theorem readsAt_iff {b : ByteArray} (hb : Reachable b) {size position : UInt64}
    (hsize : 1 ≤ size.toNat) :
    ReadsAt b size position ↔
      (b.size < position.toNat + size.toNat ∧
        (position.toNat ≤ b.size ∨ b.size + 2 ^ 64 < position.toNat + size.toNat)) ∨
      (position.toNat + size.toNat ≤ b.size ∧
        b.inCursorNode position.toNat + size.toNat ≤ b.capacity ∧
        slice b.flat.bytes (b.inCursorNode position.toNat) size.toNat =
          slice b.flat.bytes position.toNat size.toNat) := by
  have h := hb.chained
  unfold ReadsAt
  -- behind the size the call has to throw, within it to bring the bytes
  by_cases hbeyond : position.toNat + size.toNat > b.size
  · rw [if_pos hbeyond]
    have htest : size.toNat > sizeSub b.size position.toNat ↔
        position.toNat ≤ b.size ∨ b.size + 2 ^ 64 < position.toNat + size.toNat := by
      have hlt := position.toNat_lt
      unfold sizeSub
      split <;> omega
    by_cases hthrows : size.toNat > sizeSub b.size position.toNat
    · have herror : b.readAt size.toNat position.toNat = some (.error "not enough len") := by
        unfold readAt
        rw [if_pos hthrows]
      exact ⟨fun _ => Or.inl ⟨hbeyond, htest.mp hthrows⟩, fun _ => herror⟩
    -- the difference has wrapped around, so the test lets the call pass
    · rw [readAt_passed h hsize hthrows]
      constructor
      · intro heq
        split at heq <;> cases heq
      · rintro (⟨-, hwrap⟩ | ⟨hinside, -, -⟩)
        · exact absurd (htest.mpr hwrap) hthrows
        · omega
  · have hthrows : ¬ size.toNat > sizeSub b.size position.toNat := by
      rw [sizeSub_of_le (by omega)]
      omega
    rw [if_neg hbeyond, readAt_passed h hsize hthrows]
    constructor
    · intro heq
      split at heq
      · next hfit =>
        refine Or.inr ⟨by omega, hfit, ?_⟩
        injection heq with heq
        injection heq
      · cases heq
    · rintro (⟨hlt, -⟩ | ⟨-, hfit, hsame⟩)
      · omega
      · rw [if_pos hfit, hsame]

theorem readsAt_iff_eight : ReadsAt eight 3 1 :=
  (readsAt_iff reachable_eight (by decide)).mpr (Or.inr (by decide))

/-- The bytes 5 to 8 are asked for; the cursor is on the first node, and 1 to 4 come. -/
theorem second_node_unread : Reachable eight ∧
    eight.readAt 4 4 = some (.ok [1, 2, 3, 4]) ∧ ¬ ReadsAt eight 4 4 := by
  have hread : eight.readAt 4 4 = some (.ok [1, 2, 3, 4]) := rfl
  refine ⟨reachable_eight, hread, ?_⟩
  intro hreads
  have heq : some (Except.ok ([1, 2, 3, 4] : List UInt8)) =
      some (Except.ok (slice eight.flat.bytes 4 4) : Except String (List UInt8)) :=
    hread.symm.trans hreads
  injection heq with heq
  injection heq with heq
  exact absurd heq (by decide)

/-- `getReadBuffers(buffers, len, position)` gives the windows of what is left behind `position`. -/
def GathersAt (b : ByteArray) (len : UInt32) (position : UInt64) : Prop :=
  ∃ iov, b.getReadBuffersAt len position =
      some (min len.toNat (b.size - position.toNat), iov) ∧
    iov.Pairwise Iovec.Apart ∧
    gather b.nodes iov =
      some (slice b.flat.bytes position.toNat (min len.toNat (b.size - position.toNat)))

theorem advance_eq {ns : List Node} {count : Nat} (h : count ≤ ns.length) :
    advance count ns = some (ns.drop count) := by
  induction count generalizing ns with
  | zero => rfl
  | succ count ih =>
    cases ns with
    | nil => cases h
    | cons n ns => exact ih (Nat.le_of_succ_le_succ h)

/-- The length is cut to what is left behind `m_position`, which has to come to the same. -/
theorem gathersAt_iff {b : ByteArray} (hb : Reachable b) {len : UInt32} {position : UInt64}
    (hposition : position.toNat ≤ b.size) :
    GathersAt b len position ↔
      position.toNat = b.position ∨
        (len.toNat ≤ b.size - b.position ∧ len.toNat ≤ b.size - position.toNat) := by
  have h := hb.chained
  have hpos := h.position_le
  have hsize := h.size_le
  have hclamp : (if len.toNat > b.getReadSize then b.getReadSize else len.toNat) =
      min len.toNat (b.size - b.position) := by
    rw [h.getReadSize]
    split <;> omega
  have hmin : min len.toNat (b.size - b.position) = min len.toNat (b.size - position.toNat) ↔
      position.toNat = b.position ∨
        (len.toNat ≤ b.size - b.position ∧ len.toNat ≤ b.size - position.toNat) := by
    omega
  -- both ways of cutting `len` come to the same `n`
  rw [← hmin]
  unfold GathersAt getReadBuffersAt
  dsimp only
  rw [hclamp]
  generalize min len.toNat (b.size - b.position) = n at *
  constructor
  · rintro ⟨iov, hbuffers, -, -⟩
    by_cases hzero : n = 0
    · rw [if_pos hzero] at hbuffers
      injection hbuffers with heq
      injection heq with heq
      rw [hzero, heq]
    · rw [if_neg hzero] at hbuffers
      rcases Option.bind_eq_some_iff.mp hbuffers with ⟨cur, -, hrest⟩
      rcases Option.bind_eq_some_iff.mp hrest with ⟨iov', -, heq⟩
      injection heq with heq
      injection heq
  · intro heq
    rw [← heq]
    by_cases hzero : n = 0
    · rw [if_pos hzero, hzero, slice_zero]
      exact ⟨[], rfl, .nil, rfl⟩
    · have hfit : position.toNat + n ≤ b.capacity := by omega
      rcases h.windows (by omega) hfit with ⟨iov, hloop, hapart, hgather⟩
      have hcount : position.toNat / b.basesize ≤ b.nodes.length := by
        apply Nat.div_le_of_le_mul
        rw [Nat.mul_comm, ← h.capacity_eq]
        omega
      rw [if_neg hzero, advance_eq hcount]
      simp only [Option.bind_eq_bind, Option.bind_some]
      rw [hloop]
      exact ⟨iov, rfl, hapart, hgather⟩

theorem gathersAt_iff_eight : GathersAt eight 2 3 :=
  (gathersAt_iff reachable_eight (by decide)).mpr (Or.inr (by decide))

/-- The cursor is at the start and two bytes are left behind 6, but the length is not cut: the walk
goes past the last node. -/
theorem walks_past_end : Reachable eight ∧ eight.getReadBuffersAt 8 6 = none ∧
    ¬ GathersAt eight 8 6 := by
  have hnone : eight.getReadBuffersAt 8 6 = none := by decide
  refine ⟨reachable_eight, hnone, ?_⟩
  rintro ⟨iov, hbuffers, -, -⟩
  rw [hnone] at hbuffers
  cases hbuffers

end ByteArray

end Azure
