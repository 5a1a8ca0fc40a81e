import FawnKV.Lib.BitBlocks

/-! `bit_vector`: a growing array of bits. It is in memory, so no count of its bits comes near `2 ^ 64`. -/
namespace FawnKV.Cindex

open Checked BitBlocks

structure BitVector (w : Nat) where
  buf : List (BitVec w)
  size : Nat
  capacity : Nat

namespace BitVector

section Functions

variable {w v : Nat} (b : BitVector w)

/-- `realloc` to the capacity; the blocks behind those of the size are set to zero. -/
def resize : BitVector w :=
  let old := blockCount w b.size
  let new := blockCount w b.capacity
  { b with buf := if old < new then b.buf.take old ++ List.replicate (new - old) 0 else b.buf.take new }

def empty : BitVector w := ({ buf := [], size := 0, capacity := 8 } : BitVector w).resize

/-- The loop that doubles the capacity, which is not zero. -/
def doubled (targetSize capacity : Nat) : Nat :=
  if 0 < capacity ∧ capacity < targetSize then doubled targetSize (capacity <<< 1) else capacity
termination_by targetSize - capacity
decreasing_by
  rw [Nat.shiftLeft_eq]
  omega

/-- What `append` does first. -/
def reserve (targetSize : Nat) : BitVector w :=
  if b.capacity < targetSize then
    ({ b with capacity := doubled targetSize (if b.capacity = 0 then 1 else b.capacity) } : BitVector w).resize
  else b

/-- `append` of bits in an array of blocks. -/
def append (r : List (BitVec v)) (i len : Nat) : Except Fault (BitVector w) := do
  let targetSize := b.size + len
  let b := b.reserve targetSize
  let buf ← copySet b.buf b.size r i len
  .ok { b with buf, size := targetSize }

/-- `operator[]` -/
def bit (i : Nat) : Except Fault Bool := do
  let _ ← require (i < b.size)
  getBit b.buf i

/-- The list of bits that the vector is. -/
def bits : List Bool := bitsOf b.buf b.size

structure WellMade : Prop where
  width : 0 < w
  size_le : b.size ≤ b.capacity
  length_buf : b.buf.length = blockCount w b.capacity
  zeros : ∀ i, b.size ≤ i → bitAt b.buf i = false

end Functions

section Growth

variable {w v n i len : Nat} {b : BitVector w}

theorem blockCount_mono {m n : Nat} (h : m ≤ n) : blockCount w m ≤ blockCount w n :=
  Nat.div_le_div_right (by omega)

theorem doubled_spec (target : Nat) {capacity : Nat} (h : 0 < capacity) :
    capacity ≤ doubled target capacity ∧ target ≤ doubled target capacity := by
  fun_induction doubled target capacity with
  | case1 capacity hlt ih =>
    obtain ⟨hle, htarget⟩ := ih (by rw [Nat.shiftLeft_eq]; omega)
    rw [Nat.shiftLeft_eq] at hle
    exact ⟨by omega, htarget⟩
  | case2 capacity hlt => exact ⟨Nat.le_refl capacity, by omega⟩

@[simp] theorem resize_size : b.resize.size = b.size := rfl

@[simp] theorem resize_capacity : b.resize.capacity = b.capacity := rfl

theorem length_bits : b.bits.length = b.size := length_bitsOf b.buf b.size

theorem getElem_bits (h : i < b.bits.length) : b.bits[i] = bitAt b.buf i := by
  simp only [bits, bitsOf, List.getElem_map, List.getElem_range]

/-- A vector that grows keeps its bits. -/
theorem resize_bitAt (hw : 0 < w) (hle : b.size ≤ b.capacity) (hlen : blockCount w b.size ≤ b.buf.length)
    (hzeros : ∀ i, b.size ≤ i → bitAt b.buf i = false) (j : Nat) : bitAt b.resize.buf j = bitAt b.buf j := by
  have hblocks := blockCount_mono (w := w) hle
  by_cases hj : j / w < blockCount w b.size
  · rw [resize]
    dsimp only
    split
    · have hlength : j / w < (b.buf.take (blockCount w b.size)).length := by
        rw [List.length_take]
        omega
      rw [bitAt, List.getD_append _ _ _ _ hlength]
      exact bitAt_take hj
    · exact bitAt_take (by omega)
  · have hsize : b.size ≤ j := by
      have hcount := le_blockCount hw b.size
      have hdiv := Nat.div_mul_le_self j w
      have hmul := Nat.mul_le_mul_right w (Nat.le_of_not_lt hj)
      omega
    have hzero : b.resize.buf.getD (j / w) 0 = 0 := by
      rw [resize]
      dsimp only
      split
      · rw [List.getD_append_right _ _ _ _ (by rw [List.length_take]; omega)]
        by_cases hin : j / w - (b.buf.take (blockCount w b.size)).length <
            blockCount w b.capacity - blockCount w b.size
        · exact List.getD_replicate _ hin
        · rw [List.getD_eq_default _ _ (by rw [List.length_replicate]; omega)]
      · rw [List.getD_eq_default _ _ (by rw [List.length_take]; omega)]
    rw [hzeros j hsize, bitAt, hzero]
    exact BitVec.getMsbD_zero

theorem length_resize (hle : b.size ≤ b.capacity) (hlen : blockCount w b.size ≤ b.buf.length) :
    b.resize.buf.length = blockCount w b.capacity := by
  have hblocks := blockCount_mono (w := w) hle
  rw [resize]
  dsimp only
  split
  · rw [List.length_append, List.length_take, List.length_replicate]
    omega
  · rw [List.length_take]
    omega

theorem WellMade.of_resize (hw : 0 < w) (hle : b.size ≤ b.capacity) (hlen : blockCount w b.size ≤ b.buf.length)
    (hzeros : ∀ i, b.size ≤ i → bitAt b.buf i = false) : b.resize.WellMade where
  width := hw
  size_le := hle
  length_buf := length_resize hle hlen
  zeros i hi := (resize_bitAt hw hle hlen hzeros i).trans (hzeros i hi)

theorem empty_wellMade (hw : 0 < w) : (empty : BitVector w).WellMade := by
  have hcount : blockCount w 0 = 0 := Nat.div_eq_of_lt (by omega)
  exact .of_resize hw (Nat.zero_le _) (Nat.le_of_eq hcount) fun i _ => BitVec.getMsbD_zero

theorem WellMade.reserve (h : b.WellMade) (target : Nat) :
    (b.reserve target).WellMade ∧ (b.reserve target).size = b.size ∧ target ≤ (b.reserve target).capacity ∧
      ∀ j, bitAt (b.reserve target).buf j = bitAt b.buf j := by
  rw [BitVector.reserve]
  split
  · rename_i hlt
    have hpos : 0 < if b.capacity = 0 then 1 else b.capacity := by
      split <;> omega
    obtain ⟨hle, htarget⟩ := doubled_spec target hpos
    have hcapacity : b.capacity ≤ doubled target (if b.capacity = 0 then 1 else b.capacity) := by
      refine Nat.le_trans ?_ hle
      split <;> omega
    have hsize := Nat.le_trans h.size_le hcapacity
    have hlen : blockCount w b.size ≤ b.buf.length := by
      rw [h.length_buf]
      exact blockCount_mono h.size_le
    have hsame := resize_bitAt
      (b := { b with capacity := doubled target (if b.capacity = 0 then 1 else b.capacity) })
      h.width hsize hlen h.zeros
    exact ⟨.of_resize h.width hsize hlen h.zeros, rfl, htarget, hsame⟩
  · rename_i hge
    exact ⟨h, rfl, Nat.le_of_not_lt hge, fun j => rfl⟩

theorem WellMade.reserve_fits (h : b.WellMade) (target : Nat) :
    target ≤ (b.reserve target).buf.length * w := by
  obtain ⟨hreserve, -, htarget, -⟩ := h.reserve target
  rw [hreserve.length_buf]
  exact Nat.le_trans htarget (le_blockCount h.width _)

/-- Bits copied behind those of a vector that has grown; between them and its new size there are zeros. -/
theorem WellMade.of_copied {r : List (BitVec v)} {buf : List (BitVec w)} {target : Nat} (h : b.WellMade)
    (hlen : b.size + len ≤ target) (hcopied : Copied (b.reserve target).buf b.size r i len buf) :
    (⟨buf, target, (b.reserve target).capacity⟩ : BitVector w).WellMade ∧
      (⟨buf, target, (b.reserve target).capacity⟩ : BitVector w).bits =
        b.bits ++ (List.range len).map (fun k => bitAt r (i + k)) ++
          List.replicate (target - (b.size + len)) false := by
  obtain ⟨hreserve, -, htarget, hsame⟩ := h.reserve target
  obtain ⟨hlength, hbits⟩ := hcopied
  refine ⟨⟨h.width, htarget, hlength.trans hreserve.length_buf, fun j hj => ?_⟩, ?_⟩
  · have hj : target ≤ j := hj
    rw [hbits, hsame, h.zeros j (by omega), decide_eq_false (by omega), Bool.false_and, Bool.or_false]
  · obtain ⟨k, rfl⟩ := Nat.exists_eq_add_of_le hlen
    rw [bits, bits, bitsOf, bitsOf, List.range_add, List.range_add, List.map_append, List.map_append,
      List.map_map, List.map_map, Nat.add_sub_cancel_left]
    congr 1
    · congr 1
      · refine List.map_congr_left fun j hj => ?_
        have hj := List.mem_range.mp hj
        rw [hbits, hsame, decide_eq_false (by omega), Bool.false_and, Bool.or_false]
      · refine List.map_congr_left fun k hk => ?_
        have hk := List.mem_range.mp hk
        rw [Function.comp_apply, hbits, hsame, h.zeros _ (by omega), Bool.false_or,
          decide_eq_true (by omega), Bool.true_and, Nat.add_sub_cancel_left]
    · refine List.ext_getElem (by simp) fun j hj hj' => ?_
      rw [List.getElem_map, List.getElem_replicate, Function.comp_apply, hbits, hsame,
        h.zeros _ (by omega), decide_eq_false (by omega), Bool.false_and, Bool.or_false]

/-- The appended bits stand behind those of the vector, which stays well made. -/
theorem WellMade.append {r : List (BitVec v)} (h : b.WellMade) (hv : 0 < v) (hr : i + len ≤ r.length * v) :
    ∃ b', b.append r i len = .ok b' ∧ b'.WellMade ∧
      b'.bits = b.bits ++ (List.range len).map fun k => bitAt r (i + k) := by
  have hsize := (h.reserve (b.size + len)).2.1
  obtain ⟨buf, hcopy, hcopied⟩ := copySet_ok h.width hv (h.reserve_fits (b.size + len)) hr
  obtain ⟨hmade, hbits⟩ := h.of_copied (Nat.le_refl _) hcopied
  refine ⟨_, ?_, hmade, ?_⟩
  · rw [BitVector.append, hsize, hcopy, ok_bind]
  · rw [hbits, Nat.sub_self, List.replicate_zero, List.append_nil]

theorem WellMade.bit (h : b.WellMade) (hi : i < b.bits.length) : b.bit i = .ok b.bits[i] := by
  have hsize : i < b.size := by rwa [length_bits] at hi
  have hbuf : i < b.buf.length * w := by
    have hcount := le_blockCount h.width b.capacity
    have hle := h.size_le
    rw [h.length_buf]
    omega
  rw [BitVector.bit, require_ok hsize, ok_bind, getBit_ok hbuf, getElem_bits hi]

end Growth

end BitVector

end FawnKV.Cindex
