import FawnKV.Lib.BitBlocks

/-! `bit_access::copy_set` with the blocks that it reads and writes. -/
namespace FawnKV.Cindex

open Checked BitBlocks

section Functions

variable {w v : Nat}

/-- What a round accesses: a block of the source, which is read, and one of the destination, which is read and
written. -/
structure Access where
  src : Nat
  dest : Nat
deriving DecidableEq

def copyLoopTraced (src : List (BitVec w)) :
    Nat → List (BitVec v) → Cursor → Cursor → Nat → Except Fault (List (BitVec v) × List Access)
  | _, dest, _, _, 0 => .ok (dest, [])
  | 0, _, _, _, _ + 1 => .error .running
  | rounds + 1, dest, d, s, count + 1 => do
    let n := min (min (v - d.offset) (w - s.offset)) (count + 1)
    let x ← get src s.block
    let y ← chunk x s.offset n d.offset
    let old ← get dest d.block
    let dest ← set dest d.block (old ||| y)
    let r ← copyLoopTraced src rounds dest (d.advance v n) (s.advance w n) (count + 1 - n)
    .ok (r.1, ⟨s.block, d.block⟩ :: r.2)

def copySetTraced (dest : List (BitVec v)) (destI : Nat) (src : List (BitVec w)) (srcI count : Nat) :
    Except Fault (List (BitVec v) × List Access) :=
  copyLoopTraced src count dest (.at v destI) (.at w srcI) count

end Functions

section Spec

variable {w v count rounds destI srcI : Nat} {src : List (BitVec w)} {dest dest' : List (BitVec v)}
  {d s : Cursor} {r : List (BitVec v) × List Access}

/-- The list of accesses is only written along. -/
theorem copyLoop_traced (h : copyLoop src rounds dest d s count = .ok dest') :
    ∃ accesses, copyLoopTraced src rounds dest d s count = .ok (dest', accesses) := by
  induction rounds generalizing dest d s count with
  | zero =>
    cases count with
    | zero =>
      cases h
      exact ⟨[], rfl⟩
    | succ count => cases h
  | succ rounds ih =>
    cases count with
    | zero =>
      rw [copyLoop] at h
      cases h
      exact ⟨[], by rw [copyLoopTraced]⟩
    | succ count =>
      simp only [copyLoop, bind_eq_ok] at h
      obtain ⟨x, hx, y, hy, old, hold, dest₁, hset, hloop⟩ := h
      obtain ⟨accesses, hrest⟩ := ih hloop
      refine ⟨⟨s.block, d.block⟩ :: accesses, ?_⟩
      simp only [copyLoopTraced, hx, hy, hold, hset, hrest, ok_bind]

theorem Cursor.index_div (hs : s.offset < w) : s.index w / w = s.block := by
  rw [Cursor.index, Nat.mul_comm, Nat.mul_add_div (by omega), Nat.div_eq_of_lt hs, Nat.add_zero]

/-- A round accesses the blocks of the first bit that it copies. -/
theorem copyLoopTraced_accesses (hd : d.offset < v) (hs : s.offset < w)
    (h : copyLoopTraced src rounds dest d s count = .ok r) :
    ∀ a ∈ r.2, ∃ k < count, a = ⟨(s.index w + k) / w, (d.index v + k) / v⟩ := by
  induction rounds generalizing dest d s count r with
  | zero =>
    cases count with
    | zero =>
      cases h
      exact fun a ha => absurd ha List.not_mem_nil
    | succ count => cases h
  | succ rounds ih =>
    cases count with
    | zero =>
      rw [copyLoopTraced] at h
      cases h
      exact fun a ha => absurd ha List.not_mem_nil
    | succ count =>
      obtain ⟨n, hn⟩ : ∃ n, n = min (min (v - d.offset) (w - s.offset)) (count + 1) := ⟨_, rfl⟩
      have hdn : d.offset + n ≤ v := by omega
      have hsn : s.offset + n ≤ w := by omega
      simp only [copyLoopTraced, ← hn, bind_eq_ok] at h
      obtain ⟨x, -, y, -, old, -, dest₁, -, rest, hrest, h⟩ := h
      cases h
      intro a ha
      rcases List.mem_cons.mp ha with rfl | ha
      · refine ⟨0, Nat.succ_pos _, ?_⟩
        rw [Nat.add_zero, Nat.add_zero, Cursor.index_div hs, Cursor.index_div hd]
      · obtain ⟨k, hk, hblocks⟩ := ih (Cursor.advance_offset (by omega) hdn)
          (Cursor.advance_offset (by omega) hsn) hrest a ha
        rw [Cursor.advance_index hdn, Cursor.advance_index hsn, Nat.add_assoc, Nat.add_assoc] at hblocks
        exact ⟨n + k, by omega, hblocks⟩

/-- The copy comes to its end with no fault, for any widths of the blocks; it copies the bits where there were
zeros before, leaves the others, and accesses no block but those of the bits that are copied. -/
theorem copySet_range (hv : 0 < v) (hw : 0 < w) (hdest : 0 < count → destI + count ≤ dest.length * v)
    (hsrc : 0 < count → srcI + count ≤ src.length * w)
    (hzero : ∀ k < count, bitAt dest (destI + k) = false) :
    ∃ dest' accesses, copySet dest destI src srcI count = .ok dest' ∧
      copySetTraced dest destI src srcI count = .ok (dest', accesses) ∧
      dest'.length = dest.length ∧
      (∀ k < count, bitAt dest' (destI + k) = bitAt src (srcI + k)) ∧
      (∀ j, j < destI ∨ destI + count ≤ j → bitAt dest' j = bitAt dest j) ∧
      (∀ a ∈ accesses, ∃ k < count, a = ⟨(srcI + k) / w, (destI + k) / v⟩) ∧
      (count = 0 → accesses = []) := by
  have hd : (Cursor.at v destI).index v = destI := Nat.div_add_mod' destI v
  have hs : (Cursor.at w srcI).index w = srcI := Nat.div_add_mod' srcI w
  obtain ⟨dest', hcopy, hcopied⟩ :
      ∃ dest', copySet dest destI src srcI count = .ok dest' ∧ Copied dest destI src srcI count dest' := by
    rcases Nat.eq_zero_or_pos count with rfl | hpos
    · refine ⟨dest, rfl, rfl, fun j => ?_⟩
      rw [decide_eq_false (by omega), Bool.false_and, Bool.or_false]
    · exact copySet_ok hv hw (hdest hpos) (hsrc hpos)
  obtain ⟨accesses, htraced⟩ := copyLoop_traced hcopy
  have haccesses := copyLoopTraced_accesses (Nat.mod_lt destI hv) (Nat.mod_lt srcI hw) htraced
  rw [hd, hs] at haccesses
  refine ⟨dest', accesses, hcopy, htraced, hcopied.1, fun k hk => ?_, fun j hj => ?_, haccesses, ?_⟩
  · rw [hcopied.2, hzero k hk, decide_eq_true (by omega), Nat.add_sub_cancel_left]
    rfl
  · rw [hcopied.2, decide_eq_false (by omega), Bool.false_and, Bool.or_false]
  · rintro rfl
    refine List.eq_nil_iff_forall_not_mem.mpr fun a ha => ?_
    obtain ⟨k, hk, -⟩ := haccesses a ha
    exact absurd hk (Nat.not_lt_zero k)

/-- Ten bits from the third on, out of bytes into a word of sixteen bits. -/
theorem copySet_range_ten : ∃ dest' accesses,
    copySetTraced [0xC000#16] 4 [0xAB#8, 0xCD#8] 2 10 = .ok (dest', accesses) ∧
      ∀ k < 10, bitAt dest' (4 + k) = bitAt [0xAB#8, 0xCD#8] (2 + k) := by
  have hdest : 0 < 10 → 4 + 10 ≤ [0xC000#16].length * 16 := by decide
  have hsrc : 0 < 10 → 2 + 10 ≤ [0xAB#8, 0xCD#8].length * 8 := by decide
  have hzero : ∀ k < 10, bitAt [0xC000#16] (4 + k) = false := by decide
  obtain ⟨dest', accesses, -, htraced, -, hbits, -⟩ := copySet_range (by decide) (by decide) hdest hsrc hzero
  exact ⟨dest', accesses, htraced, hbits⟩

end Spec

end FawnKV.Cindex
