import Azure.ByteArray.Session

/-!
# Files

`writeToFile` takes as many bytes from each node as are left in the buffer, or as the node has, less
the offset in the node.  That is right when the dump begins with a whole node or fills the first one,
and otherwise the loop leaves the chain.  `readFromFile` writes one block of `m_basesize` bytes after
the other.
-/

namespace Azure

open Reasoning

namespace ByteArray

def signed (width : Nat) (x : Int) : Int := Int.bmod x (2 ^ width)

/-- The loop of `writeToFile` from the node at hand on: the bytes it puts into the file.  No result
when there is no node, or when the block is none of the node. -/
def dumpLoop (basesize : Nat) : List Node → Int → Nat → Option (List UInt8)
  | [], read_size, _ => if read_size > 0 then none else some []
  | cur :: next, read_size, pos =>
    if read_size > 0 then
      -- `int diff`
      let diff := signed 32 (pos % basesize : Nat)
      -- the offset is taken off after the minimum
      let len := signed 64 ((if read_size > signed 64 basesize then ↑basesize else read_size) - diff)
      if 0 ≤ diff ∧ 0 ≤ len then do
        let block ← cur.load diff.toNat len.toNat
        let rest ← dumpLoop basesize next (read_size - len) (pos + len.toNat)
        some (block ++ rest)
      else none
    else some []

def writeToFile (b : ByteArray) : Option (List UInt8) :=
  dumpLoop b.basesize b.after (signed 64 b.getReadSize) b.position

/-- The loop of `readFromFile` on the rest of the file; `read` sets `eof` when it gets less than it
asks for.  Each turn comes with what the allocations of its `write` find in memory. -/
def loadLoop (garbage : Nat → Garbage) : Nat → List UInt8 → ByteArray → Option ByteArray
  | 0, _, _ => none
  | turns + 1, file, b => do
    let buf := file.take b.basesize
    let c ← b.write (garbage turns) buf
    if file.length < b.basesize then some c else loadLoop garbage turns (file.drop b.basesize) c

def readFromFile (garbage : Nat → Garbage) (file : List UInt8) (b : ByteArray) : Option ByteArray :=
  loadLoop garbage (file.length + 1) file b

/-! ## Reading a file -/

/-- Every turn but the last takes a whole block, so there are turns enough. -/
theorem loadLoop_spec (garbage : Nat → Garbage) (turns : Nat) {file : List UInt8} {b : ByteArray}
    (h : Chained b) (hend : b.position = b.size) (hturns : file.length < turns) :
    ∃ c, loadLoop garbage turns file b = some c ∧ Chained c ∧ written c = written b ++ file := by
  induction turns generalizing file b with
  | zero => omega
  | succ turns ih =>
    have hbase := h.base_pos
    have hle := h.position_le_capacity
    have hblock : (file.take b.basesize).length ≤ b.basesize := List.length_take_le _ _
    have hneed : b.position + (file.take b.basesize).length - b.capacity ≤ b.basesize := by omega
    rcases write_grows h (garbage turns) (grows_of_le hneed) with ⟨c, hwrite, hwrote⟩
    rcases hwrote.written hend with ⟨hend', hwritten⟩
    unfold loadLoop
    dsimp only
    rw [hwrite]
    simp only [Option.bind_eq_bind, Option.bind_some]
    by_cases hlast : file.length < b.basesize
    · rw [if_pos hlast]
      rw [List.take_of_length_le (Nat.le_of_lt hlast)] at hwritten
      exact ⟨c, rfl, hwrote.chained, hwritten⟩
    · rw [if_neg hlast]
      have hshorter : (file.drop b.basesize).length < turns := by
        rw [List.length_drop]
        omega
      rcases ih hwrote.chained hend' hshorter with ⟨d, hload, hd, hall⟩
      refine ⟨d, hload, hd, ?_⟩
      rw [hall, hwritten, List.append_assoc, List.take_append_drop]

/-! ## Writing a file -/

/-- One turn, as long as the numbers fit: the block begins at the offset in the node, and is shorter
by the offset than what is left or than the node. -/
theorem dumpLoop_cons {basesize r pos : Nat} (cur : Node) (next : List Node) (hpos : 1 ≤ r)
    (hr : r < 2 ^ 63) (hbase : basesize < 2 ^ 63) (hoffset : pos % basesize < 2 ^ 31) :
    dumpLoop basesize (cur :: next) r pos =
      if pos % basesize ≤ min r basesize then
        (cur.load (pos % basesize) (min r basesize - pos % basesize)).bind fun block =>
          (dumpLoop basesize next (r - (min r basesize - pos % basesize) : Nat)
            (pos + (min r basesize - pos % basesize))).bind fun rest => some (block ++ rest)
      else none := by
  have hdiff : signed 32 (pos % basesize : Nat) = (pos % basesize : Nat) := by
    apply Int.bmod_eq_of_le_mul_two <;> omega
  have hnode : signed 64 basesize = basesize := by
    apply Int.bmod_eq_of_le_mul_two <;> omega
  have hblock : (if (r : Int) > basesize then (basesize : Int) else r) = (min r basesize : Nat) := by
    split <;> omega
  have hlen : signed 64 ((min r basesize : Nat) - (pos % basesize : Nat)) =
      (min r basesize : Nat) - (pos % basesize : Nat) := by
    apply Int.bmod_eq_of_le_mul_two <;> omega
  rw [dumpLoop, if_pos (show (r : Int) > 0 by omega), hdiff, hnode, hblock]
  dsimp only
  rw [hlen]
  by_cases hfits : pos % basesize ≤ min r basesize
  · have hcount : ((min r basesize : Nat) - (pos % basesize : Nat) : Int) =
        (min r basesize - pos % basesize : Nat) := by omega
    have hleft : (r : Int) - (min r basesize - pos % basesize : Nat) =
        (r - (min r basesize - pos % basesize) : Nat) := by omega
    rw [if_pos ⟨by omega, by omega⟩, if_pos hfits, hcount, hleft, Int.toNat_natCast,
      Int.toNat_natCast]
    rfl
  · rw [if_neg (by omega), if_neg hfits]

theorem dumpLoop_zero (basesize : Nat) (nodes : List Node) (pos : Nat) :
    dumpLoop basesize nodes (0 : Nat) pos = some [] := by
  cases nodes with
  | nil => rfl
  | cons cur next => rfl

/-- From the start of a node on, the blocks are the bytes in order. -/
theorem dumpLoop_aligned {basesize : Nat} {nodes : List Node} (hsize : Uniform basesize nodes)
    (hbase : basesize < 2 ^ 63) {r pos : Nat} (hpos : pos % basesize = 0) (hr : r < 2 ^ 63)
    (hfit : r ≤ nodes.length * basesize) :
    dumpLoop basesize nodes r pos = some ((content nodes).take r) := by
  induction nodes generalizing r pos with
  | nil =>
    have hzero : r = 0 := by
      rw [List.length_nil, Nat.zero_mul] at hfit
      omega
    rw [hzero, dumpLoop_zero, List.take_zero]
  | cons cur next ih =>
    have hcur : cur.size = basesize := hsize cur (List.mem_cons_self ..)
    have hptr : cur.ptr.length = basesize := by rw [cur.length_ptr, hcur]
    by_cases hzero : r = 0
    · rw [hzero, dumpLoop_zero, List.take_zero]
    · rw [dumpLoop_cons cur next (by omega) hr hbase (by omega), hpos, if_pos (Nat.zero_le _),
        Nat.sub_zero, Node.load_eq (by omega), Option.bind_some]
      -- the next block begins with its node again
      have hrest : dumpLoop basesize next (r - min r basesize : Nat) (pos + min r basesize) =
          some ((content next).take (r - min r basesize)) := by
        by_cases hlast : r ≤ basesize
        · rw [Nat.min_eq_left hlast, Nat.sub_self, dumpLoop_zero, List.take_zero]
        · rw [List.length_cons, Nat.add_mul, Nat.one_mul] at hfit
          rw [Nat.min_eq_right (by omega)]
          apply ih (fun n hn => hsize n (List.mem_cons_of_mem cur hn)) _ (by omega) (by omega)
          rw [Nat.add_mod_right, hpos]
      rw [hrest, Option.bind_some, content_cons, List.take_append, hptr]
      have hblock : slice cur.ptr 0 (min r basesize) = cur.ptr.take r := by
        rw [slice, List.drop_zero, ← hptr, ← List.take_take, List.take_length]
      have hleft : r - min r basesize = r - basesize := by omega
      rw [hblock, hleft]

/-- The unread bytes, counted from the node of the cursor on. -/
theorem toString_after {b : ByteArray} (h : Chained b) :
    b.flat.toString =
      ((content b.after).drop (b.position % b.basesize)).take (b.size - b.position) := by
  rcases h.content_split with ⟨hposition, hcontent⟩
  show slice (content b.nodes) b.position (b.size - b.position) = _
  generalize b.size - b.position = r
  rw [hcontent]
  conv_lhs => rw [hposition]
  rw [slice_append_right]
  rfl

theorem writeToFile_eq {b : ByteArray} (h : Chained b) (hr : b.size - b.position < 2 ^ 63) :
    b.writeToFile =
      dumpLoop b.basesize b.after (b.size - b.position : Nat) b.position := by
  have hsigned : signed 64 (b.size - b.position : Nat) = (b.size - b.position : Nat) := by
    apply Int.bmod_eq_of_le_mul_two <;> omega
  rw [writeToFile, h.getReadSize, hsigned]

/-- The dump begins with a whole node, or takes the first one to its end; and the counters fit into
their signed types. -/
def Dumpable (b : ByteArray) : Prop :=
  b.size - b.position = 0 ∨
    b.size - b.position < 2 ^ 63 ∧ b.basesize < 2 ^ 63 ∧
      (b.position % b.basesize = 0 ∨
        b.basesize ≤ b.size - b.position ∧ b.position % b.basesize < 2 ^ 31)

theorem Dumpable.writeToFile {b : ByteArray} (h : Chained b) (hdump : Dumpable b) :
    b.writeToFile = some b.flat.toString := by
  have hroom := h.room
  have hmod := Nat.mod_lt b.position h.base_pos
  have hsize := h.size_le
  have hle := h.position_le
  have huniform := (Uniform.append.mp h.uniform).2
  rw [toString_after h]
  generalize hr : b.size - b.position = r at *
  by_cases hzero : r = 0
  · rw [writeToFile_eq h (by omega), hr, hzero, dumpLoop_zero, List.take_zero]
  · unfold Dumpable at hdump
    rw [hr] at hdump
    rcases hdump.resolve_left hzero with ⟨hfits, hbase, haligned | ⟨hlong, hoffset⟩⟩
    · rw [writeToFile_eq h (by omega), hr, haligned, List.drop_zero]
      exact dumpLoop_aligned huniform hbase haligned hfits (by omega)
    · rw [writeToFile_eq h (by omega), hr]
      cases hafter : b.after with
      | nil =>
        rw [hafter, List.length_nil, Nat.zero_mul] at hroom
        omega
      | cons cur next =>
        rw [hafter] at hroom huniform
        rw [List.length_cons, Nat.add_mul, Nat.one_mul] at hroom
        have hcur : cur.size = b.basesize := huniform cur (List.mem_cons_self ..)
        have hptr : cur.ptr.length = b.basesize := by rw [cur.length_ptr, hcur]
        -- the first block goes to the end of its node, and the others begin with a whole one
        have haligned : (b.position + (b.basesize - b.position % b.basesize)) % b.basesize = 0 := by
          have hdm := Nat.div_add_mod b.position b.basesize
          have hsum : b.position + (b.basesize - b.position % b.basesize) =
              b.basesize * (b.position / b.basesize + 1) := by
            rw [Nat.mul_add, Nat.mul_one]
            omega
          rw [hsum, Nat.mul_mod_right]
        have hrest : dumpLoop b.basesize next (r - (b.basesize - b.position % b.basesize) : Nat)
            (b.position + (b.basesize - b.position % b.basesize)) =
            some ((content next).take (r - (b.basesize - b.position % b.basesize))) :=
          dumpLoop_aligned (fun n hn => huniform n (List.mem_cons_of_mem cur hn)) hbase haligned
            (by omega) (by omega)
        have hblock : slice cur.ptr (b.position % b.basesize)
            (b.basesize - b.position % b.basesize) = cur.ptr.drop (b.position % b.basesize) := by
          apply List.take_of_length_le
          rw [List.length_drop, hptr]
        rw [dumpLoop_cons cur next (by omega) hfits hbase hoffset, Nat.min_eq_right hlong,
          if_pos (Nat.le_of_lt hmod), Node.load_eq (by omega), Option.bind_some, hrest,
          Option.bind_some, hblock, content_cons, List.drop_append_of_le_length (by omega),
          List.take_append, List.length_drop, hptr,
          List.take_of_length_le (show (cur.ptr.drop _).length ≤ r by rw [List.length_drop]; omega)]

/-- Once a block is empty, the loop goes from node to node until there is none. -/
theorem dumpLoop_stuck {basesize r pos : Nat} (nodes : List Node) (hr : 1 ≤ r)
    (hoffset : pos % basesize = r) (hlt : r < basesize) (hbase : basesize ≤ 2 ^ 31) :
    dumpLoop basesize nodes r pos = none := by
  induction nodes with
  | nil => rw [dumpLoop, if_pos (show (r : Int) > 0 by omega)]
  | cons cur next ih =>
    rw [dumpLoop_cons cur next hr (by omega) (by omega) (by omega), hoffset,
      Nat.min_eq_left (Nat.le_of_lt hlt), if_pos (Nat.le_refl r), Nat.sub_self, Nat.sub_zero,
      Nat.add_zero, ih]
    -- an empty block changes neither the position nor what is left
    cases cur.load r 0 with
    | none => rfl
    | some block => rfl

/-- A dump that begins within a node and ends before the bytes of a node are full leaves the chain. -/
theorem dumpLoop_short {basesize r pos : Nat} (nodes : List Node) (hr : 1 ≤ r)
    (hoffset : pos % basesize ≠ 0) (hlt : r < basesize) (hbase : basesize ≤ 2 ^ 31) :
    dumpLoop basesize nodes r pos = none := by
  have hmod := Nat.mod_lt pos (show 0 < basesize by omega)
  cases nodes with
  | nil => rw [dumpLoop, if_pos (show (r : Int) > 0 by omega)]
  | cons cur next =>
    rw [dumpLoop_cons cur next hr (by omega) (by omega) (by omega),
      Nat.min_eq_left (Nat.le_of_lt hlt)]
    by_cases hfits : pos % basesize ≤ r
    · rw [if_pos hfits]
      have hrest : dumpLoop basesize next (r - (r - pos % basesize) : Nat)
          (pos + (r - pos % basesize)) = none := by
        have hback : r - (r - pos % basesize) = pos % basesize := by omega
        have hnext : (pos + (r - pos % basesize)) % basesize = r := by
          have hdm := Nat.div_add_mod pos basesize
          have hsum : pos + (r - pos % basesize) = r + basesize * (pos / basesize) := by omega
          rw [hsum, Nat.add_mul_mod_self_left, Nat.mod_eq_of_lt hlt]
        rw [hback]
        -- the next offset is what was left, and less is left now than that
        by_cases hsame : pos % basesize = r
        · rw [hsame] at hnext ⊢
          exact dumpLoop_stuck next hr hnext hlt hbase
        · cases next with
          | nil => rw [dumpLoop, if_pos (by omega)]
          | cons cur' next' =>
            rw [dumpLoop_cons cur' next' (by omega) (by omega) (by omega) (by omega), hnext,
              Nat.min_eq_left (by omega), if_neg (by omega)]
      rw [hrest]
      cases cur.load (pos % basesize) (r - pos % basesize) with
      | none => rfl
      | some block => rfl
    · rw [if_neg hfits]

theorem Dumpable.of_writeToFile {b : ByteArray} (h : Chained b) (hcap : b.capacity < 2 ^ 64)
    (hbase : b.basesize ≤ 2 ^ 31) (hdump : b.writeToFile = some b.flat.toString) :
    Dumpable b := by
  have hmod := Nat.mod_lt b.position h.base_pos
  have hsize := h.size_le
  have hlen := length_toString h
  by_contra hnot
  unfold Dumpable at hnot
  push Not at hnot
  rcases hnot with ⟨hunread, hcut⟩
  -- the negation leaves a short dump from within a node, or numbers out of range
  by_cases hr : b.size - b.position < 2 ^ 63
  · rcases hcut hr (by omega) with ⟨hoffset, hshort⟩
    have hlt : b.size - b.position < b.basesize := by
      by_contra hlong
      have := hshort (Nat.not_lt.mp hlong)
      omega
    rw [writeToFile_eq h hr,
      dumpLoop_short b.after (Nat.pos_of_ne_zero hunread) hoffset hlt hbase] at hdump
    cases hdump
  · -- as an `int64_t` the size is negative, and nothing is written
    have hnegative : signed 64 (b.size - b.position : Nat) ≤ 0 := by
      unfold signed Int.bmod
      dsimp only
      omega
    have hnothing : b.writeToFile = some [] := by
      rw [ByteArray.writeToFile, h.getReadSize]
      cases b.after with
      | nil => rw [dumpLoop, if_neg (by omega)]
      | cons cur next => rw [dumpLoop, if_neg (by omega)]
    rw [hnothing] at hdump
    injection hdump with hempty
    rw [← hempty, List.length_nil] at hlen
    omega

/-! ## Dump and load -/

theorem readFromFile_spec {basesize : Nat} (hbase : 1 ≤ basesize) (garbage : Nat → UInt8)
    (garbage' : Nat → Garbage) (file : List UInt8) :
    ∃ c d, readFromFile garbage' file (new basesize garbage) = some c ∧
      c.setPosition 0 = some (.ok (), d) ∧ d.toString = some (.ok file) := by
  rcases loadLoop_spec garbage' (file.length + 1) (new_chained hbase garbage) rfl
    (Nat.lt_succ_self file.length) with ⟨c, hload, hc, hwritten⟩
  rcases setPosition_zero hc with ⟨d, hset, hun, -⟩
  refine ⟨c, d, hload, hset, ?_⟩
  rw [toString_spec hun.1, hun.2, hwritten]
  rfl

/-- The dump ends with the bytes of `toString` in the file, and a fresh object of any base size that
reads the file has them too. -/
def Dumped (b : ByteArray) : Prop :=
  ∃ file, b.writeToFile = some file ∧ b.toString = some (.ok file) ∧
    ∀ basesize garbage garbage', 1 ≤ basesize →
      ∃ c d, readFromFile garbage' file (new basesize garbage) = some c ∧
        c.setPosition 0 = some (.ok (), d) ∧ d.toString = some (.ok file)

/-- In every state that calls lead to, a dump that begins with a whole node or takes the first one to
its end is right; and with nodes of at most 2 GiB no other one is. -/
theorem dumped_iff {host : Endian} {maxSize : Nat} {b : ByteArray} (hb : Reached host maxSize b) :
    (Dumpable b → Dumped b) ∧ (b.basesize ≤ 2 ^ 31 → Dumped b → Dumpable b) := by
  have h := hb.chained
  constructor
  · intro hdump
    exact ⟨b.flat.toString, hdump.writeToFile h, toString_spec h,
      fun basesize garbage garbage' hbase => readFromFile_spec hbase garbage garbage' _⟩
  · rintro hbase ⟨file, hwrite, hstring, -⟩
    rw [toString_spec h] at hstring
    cases hstring
    exact .of_writeToFile h hb.2 hbase hwrite

/-- The four bytes with the position in the middle. -/
def halfway : ByteArray := { quad 1 2 3 4 with position := 2 }

theorem reached_halfway (host : Endian) (maxSize : Nat) : Reached host maxSize halfway := by
  rcases reached_quad host maxSize 1 2 3 4 with ⟨⟨basesize, garbage, ops, hbase, hrun⟩, hcap⟩
  have hseek := hrun.snoc (show PublicStep host maxSize _ (.basic (.setPosition 2)) halfway from rfl)
  exact ⟨⟨basesize, garbage, _, hbase, hseek⟩, hcap⟩

theorem dumped_iff_quad : Dumped (quad 1 2 3 4) :=
  (dumped_iff (reached_quad .little 100 1 2 3 4)).1
    (Or.inr ⟨by decide, by decide, Or.inl (by decide)⟩)

/-- Two bytes are left in a node of four: the first block is empty, and the second turn looks at a
node that is not there. -/
theorem dump_leaves_chain : Reached .little 100 halfway ∧
    halfway.toString = some (.ok [3, 4]) ∧ halfway.writeToFile = none ∧ ¬ Dumped halfway := by
  have hnone : halfway.writeToFile = none := by decide
  refine ⟨reached_halfway .little 100, rfl, hnone, ?_⟩
  rintro ⟨file, hwrite, -⟩
  rw [hnone] at hwrite
  cases hwrite

end ByteArray

end Azure
