import FawnKV.Cindex.BitVector
import FawnKV.Lib.BitCode

/-! The other operations of `bit_vector`, and the list of bits that each of them makes. -/
namespace FawnKV.Cindex.BitVector

open Checked BitBlocks BitCode

section Functions

variable {w v : Nat} (b : BitVector w)

/-- What `push_back` does first: a full vector doubles its capacity. -/
def grown : BitVector w :=
  if b.size = b.capacity then
    ({ b with capacity := if b.capacity = 0 then 1 else b.capacity <<< 1 } : BitVector w).resize
  else b

def pushBack (x : Bool) : Except Fault (BitVector w) := do
  let b := b.grown
  let buf ← if x then setBit b.buf b.size else .ok b.buf
  .ok { b with buf, size := b.size + 1 }

def popBack : Except Fault (BitVector w) := do
  let _ ← require (0 < b.size)
  let buf ← unsetBit b.buf (b.size - 1)
  .ok { b with buf, size := b.size - 1 }

def clear (_ : BitVector w) : BitVector w := { buf := [], size := 0, capacity := 0 }

/-- `compact` of a vector that is not empty. -/
def compact : BitVector w := ({ b with capacity := b.size } : BitVector w).resize

/-- `append` of bits of another vector; the size grows by that of the other vector. -/
def appendVector (r : BitVector v) (i len : Nat) : Except Fault (BitVector w) := do
  let _ ← require (i + len ≤ r.size)
  let targetSize := b.size + r.size
  let b := b.reserve targetSize
  let buf ← copySet b.buf b.size r.buf i len
  .ok { b with buf, size := targetSize }

/-- `append` of bits of the vector itself: the blocks are read from the buffer that is written. -/
def appendSelf (i len : Nat) : Except Fault (BitVector w) := do
  let _ ← require (i + len ≤ b.size)
  let targetSize := b.size + b.size
  let b := b.reserve targetSize
  let buf ← copyWithin b.buf b.size i len
  .ok { b with buf, size := targetSize }

/-- `append` of the lowest `len` bits of an integer. The place of the first of them is a `size_t`. -/
def appendInt (x : BitVec v) (len : Nat) : Except Fault (BitVector w) :=
  b.append [x] ((v + 2 ^ 64 - len) % 2 ^ 64) len

def get (v i len : Nat) : Except Fault (BitVec v) := do
  let _ ← require (len ≤ v)
  let x ← copySet [(0 : BitVec v)] (v - len) b.buf i len
  Checked.get x 0

end Functions

section Bits

variable {w v i len : Nat} {b : BitVector w} {r : BitVector v}

theorem WellMade.buf_fits (h : b.WellMade) : b.size ≤ b.buf.length * w := by
  rw [h.length_buf]
  exact Nat.le_trans h.size_le (le_blockCount h.width _)

theorem range_bits {m : List (BitVec v)} {n : Nat} (h : i + len ≤ n) :
    (List.range len).map (fun k => bitAt m (i + k)) = ((bitsOf m n).drop i).take len := by
  have hlength := length_bitsOf m n
  refine List.ext_getElem ?_ fun k hk hk' => ?_
  · rw [List.length_map, List.length_range, List.length_take, List.length_drop, hlength]
    omega
  · simp only [bitsOf, List.getElem_map, List.getElem_range, List.getElem_take, List.getElem_drop]

theorem slice_bits (h : i + len ≤ r.size) :
    (List.range len).map (fun k => bitAt r.buf (i + k)) = (r.bits.drop i).take len := range_bits h

theorem WellMade.grown (h : b.WellMade) : b.grown.WellMade ∧ b.grown.size = b.size ∧
    b.size < b.grown.capacity ∧ ∀ j, bitAt b.grown.buf j = bitAt b.buf j := by
  have hle := h.size_le
  rw [BitVector.grown]
  split
  · rename_i hfull
    have hcapacity : b.capacity < if b.capacity = 0 then 1 else b.capacity <<< 1 := by
      rw [Nat.shiftLeft_eq]
      split <;> omega
    have hsize : b.size ≤ if b.capacity = 0 then 1 else b.capacity <<< 1 := by omega
    have hlen : blockCount w b.size ≤ b.buf.length := by
      rw [h.length_buf]
      exact blockCount_mono hle
    have hsame := resize_bitAt (b := { b with capacity := if b.capacity = 0 then 1 else b.capacity <<< 1 })
      h.width hsize hlen h.zeros
    exact ⟨.of_resize h.width hsize hlen h.zeros, rfl, by rw [hfull]; exact hcapacity, hsame⟩
  · exact ⟨h, rfl, by omega, fun j => rfl⟩

theorem WellMade.pushBack (h : b.WellMade) (x : Bool) :
    ∃ b', b.pushBack x = .ok b' ∧ b'.WellMade ∧ b'.bits = b.bits ++ [x] := by
  obtain ⟨hgrown, hsize, hcapacity, hsame⟩ := h.grown
  have hfits : b.size < b.grown.buf.length * w := by
    rw [hgrown.length_buf]
    exact Nat.lt_of_lt_of_le hcapacity (le_blockCount h.width _)
  obtain ⟨buf, hset, hlength, hbits⟩ : ∃ buf,
      (if x then setBit b.grown.buf b.size else .ok b.grown.buf) = .ok buf ∧
        buf.length = b.grown.buf.length ∧
        ∀ j, bitAt buf j = if j = b.size then x else bitAt b.grown.buf j := by
    cases x with
    | true => exact setBit_ok hfits
    | false =>
      refine ⟨b.grown.buf, rfl, rfl, fun j => ?_⟩
      by_cases hj : j = b.size
      · rw [if_pos hj, hsame, h.zeros j (Nat.le_of_eq hj.symm)]
      · rw [if_neg hj]
  refine ⟨⟨buf, b.size + 1, b.grown.capacity⟩, ?_, ⟨h.width, hcapacity, ?_, fun j hj => ?_⟩, ?_⟩
  · rw [BitVector.pushBack]
    dsimp only
    rw [hsize]
    cases x with
    | true =>
      rw [if_pos rfl] at hset ⊢
      rw [hset, ok_bind]
    | false =>
      cases hset
      rfl
  · exact hlength.trans hgrown.length_buf
  · have hj : b.size + 1 ≤ j := hj
    rw [hbits, if_neg (by omega), hsame, h.zeros j (by omega)]
  · rw [bits, bitsOf_succ, hbits, if_pos rfl, bits]
    congr 1
    exact bitsOf_congr fun j hj => by rw [hbits, if_neg (by omega), hsame]

theorem WellMade.popBack (h : b.WellMade) (hsize : 0 < b.size) :
    ∃ b', b.popBack = .ok b' ∧ b'.WellMade ∧ b'.bits = b.bits.dropLast := by
  have hfits := h.buf_fits
  have hle := h.size_le
  obtain ⟨buf, hunset, hlength, hbits⟩ := unsetBit_ok (m := b.buf) (i := b.size - 1) (by omega)
  refine ⟨⟨buf, b.size - 1, b.capacity⟩, ?_, ⟨h.width, ?_, ?_, fun j hj => ?_⟩, ?_⟩
  · rw [BitVector.popBack, require_ok hsize, ok_bind, hunset, ok_bind]
  · exact Nat.le_trans (Nat.sub_le _ _) hle
  · exact hlength.trans h.length_buf
  · have hj : b.size - 1 ≤ j := hj
    rw [hbits]
    split
    · rfl
    · exact h.zeros j (by omega)
  · obtain ⟨n, hn⟩ := Nat.exists_eq_succ_of_ne_zero (Nat.ne_of_gt hsize)
    rw [bits, bits, hn, bitsOf_succ, List.dropLast_concat]
    refine bitsOf_congr fun j hj => ?_
    have hj : j < n := hj
    rw [hbits, if_neg (by omega)]

theorem WellMade.clear (h : b.WellMade) : b.clear.WellMade ∧ b.clear.bits = [] := by
  have hcount : blockCount w 0 = 0 := Nat.div_eq_of_lt (by have := h.width; omega)
  exact ⟨⟨h.width, Nat.le_refl 0, hcount.symm, fun _ _ => BitVec.getMsbD_zero⟩, rfl⟩

theorem WellMade.compact (h : b.WellMade) : b.compact.WellMade ∧ b.compact.bits = b.bits := by
  have hlen : blockCount w b.size ≤ b.buf.length := by
    rw [h.length_buf]
    exact blockCount_mono h.size_le
  have hmade := WellMade.of_resize (b := { b with capacity := b.size }) h.width (Nat.le_refl _) hlen h.zeros
  have hsame := resize_bitAt (b := { b with capacity := b.size }) h.width (Nat.le_refl _) hlen h.zeros
  exact ⟨hmade, bitsOf_congr fun j _ => hsame j⟩

/-- What is appended are the bits asked for, and zeros for the others of the vector that they are from. -/
theorem WellMade.appendVector (h : b.WellMade) (hr : r.WellMade) (hle : i + len ≤ r.size) :
    ∃ b', b.appendVector r i len = .ok b' ∧ b'.WellMade ∧
      b'.bits = b.bits ++ (r.bits.drop i).take len ++ List.replicate (r.size - len) false := by
  have hsize := (h.reserve (b.size + r.size)).2.1
  have hfits := h.reserve_fits (b.size + r.size)
  obtain ⟨buf, hcopy, hcopied⟩ := copySet_ok h.width hr.width
    (show b.size + len ≤ (b.reserve (b.size + r.size)).buf.length * w by omega)
    (Nat.le_trans hle hr.buf_fits)
  obtain ⟨hmade, hbits⟩ := h.of_copied (by omega) hcopied
  refine ⟨_, ?_, hmade, ?_⟩
  · rw [BitVector.appendVector, require_ok hle, ok_bind]
    simp only [hsize, hcopy, ok_bind]
  · rw [hbits, slice_bits hle, Nat.add_sub_add_left]

theorem WellMade.appendSelf (h : b.WellMade) (hle : i + len ≤ b.size) :
    ∃ b', b.appendSelf i len = .ok b' ∧ b'.WellMade ∧
      b'.bits = b.bits ++ (b.bits.drop i).take len ++ List.replicate (b.size - len) false := by
  obtain ⟨-, hsize, -, hsame⟩ := h.reserve (b.size + b.size)
  have hfits := h.reserve_fits (b.size + b.size)
  obtain ⟨buf, hcopy, hcopied⟩ := copyWithin_ok h.width
    (show b.size + len ≤ (b.reserve (b.size + b.size)).buf.length * w by omega) hle
  obtain ⟨hmade, hbits⟩ := h.of_copied (by omega) hcopied
  refine ⟨_, ?_, hmade, ?_⟩
  · rw [BitVector.appendSelf, require_ok hle, ok_bind]
    simp only [hsize, hcopy, ok_bind]
  · simp only [hsame] at hbits
    rw [hbits, slice_bits hle, Nat.add_sub_add_left]

theorem bitAt_singleton (x : BitVec v) (hi : i < v) : bitAt [x] i = x.toNat.testBit (v - 1 - i) := by
  rw [bitAt, Nat.div_eq_of_lt hi, Nat.mod_eq_of_lt hi, List.getD_cons_zero, BitVec.getMsbD_eq_getLsbD,
    decide_eq_true hi, Bool.true_and, BitVec.testBit_toNat]

/-- The lowest bits of a number are the last ones of its block. -/
theorem singleton_bits (x : BitVec v) (hlen : len ≤ v) :
    (List.range len).map (fun k => bitAt [x] (v - len + k)) = beBits len x.toNat := by
  rw [beBits_eq_map]
  refine List.map_congr_left fun k hk => ?_
  have hk := List.mem_range.mp hk
  rw [bitAt_singleton x (by omega), show v - 1 - (v - len + k) = len - 1 - k by omega]

theorem WellMade.appendInt (h : b.WellMade) (x : BitVec v) (hpos : 0 < v) (hv : v ≤ 64) (hlen : len ≤ v) :
    ∃ b', b.appendInt x len = .ok b' ∧ b'.WellMade ∧ b'.bits = b.bits ++ beBits len x.toNat := by
  have hplace : (v + 2 ^ 64 - len) % 2 ^ 64 = v - len := by omega
  rw [BitVector.appendInt, hplace, ← singleton_bits x hlen]
  exact h.append hpos (by rw [List.length_singleton]; omega)

/-- `get` is the number that the bits are, highest first. -/
theorem WellMade.get (h : b.WellMade) (hpos : 0 < v) (hlen : len ≤ v) (hle : i + len ≤ b.size) :
    b.get v i len = .ok (BitVec.ofNat v (readBe ((b.bits.drop i).take len))) := by
  obtain ⟨x, hcopy, hlength, hbits⟩ : ∃ x, copySet [(0 : BitVec v)] (v - len) b.buf i len = .ok x ∧
      Copied [(0 : BitVec v)] (v - len) b.buf i len x :=
    copySet_ok hpos h.width (by rw [List.length_singleton]; omega) (Nat.le_trans hle h.buf_fits)
  obtain ⟨y, rfl⟩ := List.length_eq_one_iff.mp hlength
  have hzero : ∀ j, bitAt [(0 : BitVec v)] j = false := by
    intro j
    rw [bitAt]
    rcases Nat.eq_zero_or_pos (j / v) with hj | hj
    · rw [hj, List.getD_cons_zero]
      exact BitVec.getMsbD_zero
    · rw [List.getD_eq_default _ _ (by rw [List.length_singleton]; omega)]
      exact BitVec.getMsbD_zero
  have hslice : beBits len y.toNat = (b.bits.drop i).take len := by
    rw [← singleton_bits y hlen, ← slice_bits hle]
    refine List.map_congr_left fun k hk => ?_
    have hk := List.mem_range.mp hk
    rw [hbits, hzero, Bool.false_or, decide_eq_true (by omega), Bool.true_and, Nat.add_sub_cancel_left]
  have hlow : y.toNat < 2 ^ len := by
    refine Nat.lt_pow_two_of_testBit _ fun k hk => ?_
    by_cases hkv : k < v
    · have hbit := bitAt_singleton y (show v - 1 - k < v by omega)
      rw [show v - 1 - (v - 1 - k) = k by omega] at hbit
      rw [← hbit, hbits, hzero, Bool.false_or, decide_eq_false (by omega), Bool.false_and]
    · exact Nat.testBit_lt_two_pow (Nat.lt_of_lt_of_le y.isLt (Nat.pow_le_pow_right (by decide) (by omega)))
  have hnum := readBe_beBits len y.toNat
  rw [hslice, Nat.mod_eq_of_lt hlow] at hnum
  rw [BitVector.get, require_ok hlen, ok_bind, hcopy, ok_bind, hnum, BitVec.ofNat_toNat, BitVec.setWidth_eq]
  rfl

end Bits

end FawnKV.Cindex.BitVector
