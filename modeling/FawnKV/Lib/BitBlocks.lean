import FawnKV.Lib.Checked
import Mathlib.Data.BitVec
import Mathlib.Data.List.GetD

/-! Arrays of bits in blocks of one word each; the first bit of a block is its highest. -/
namespace BitBlocks

open Checked

section Operations

variable {w v : Nat}

/-- The bits of the array, and zeros behind it. -/
def bitAt (m : List (BitVec w)) (i : Nat) : Bool := (m.getD (i / w) 0).getMsbD (i % w)

/-- The first `n` bits of the array. -/
def bitsOf (m : List (BitVec w)) (n : Nat) : List Bool := (List.range n).map (bitAt m)

def blockCount (w n : Nat) : Nat := (n + w - 1) / w

def shiftLeft (x : BitVec w) (n : Nat) : Except Fault (BitVec w) :=
  if n < w then .ok (x <<< n) else .error .invalidShift

def shiftRight (x : BitVec w) (n : Nat) : Except Fault (BitVec w) :=
  if n < w then .ok (x >>> n) else .error .invalidShift

def setBit (m : List (BitVec w)) (i : Nat) : Except Fault (List (BitVec w)) := do
  let bit ← shiftLeft (1#w) (w - 1 - i % w)
  let x ← get m (i / w)
  set m (i / w) (x ||| bit)

def unsetBit (m : List (BitVec w)) (i : Nat) : Except Fault (List (BitVec w)) := do
  let bit ← shiftLeft (1#w) (w - 1 - i % w)
  let x ← get m (i / w)
  set m (i / w) (x &&& ~~~bit)

def getBit (m : List (BitVec w)) (i : Nat) : Except Fault Bool := do
  let bit ← shiftLeft (1#w) (w - 1 - i % w)
  let x ← get m (i / w)
  .ok (x &&& bit != 0)

/-- A block and a place in it. -/
structure Cursor where
  block : Nat
  offset : Nat

def Cursor.at (w i : Nat) : Cursor := ⟨i / w, i % w⟩

def Cursor.advance (w : Nat) (c : Cursor) (n : Nat) : Cursor :=
  if w - c.offset = n then ⟨c.block + 1, 0⟩ else ⟨c.block, c.offset + n⟩

/-- The `n` bits of `x` from `srcOffset` on, moved to `destOffset` in a word of another width. -/
def chunk (x : BitVec w) (srcOffset n destOffset : Nat) : Except Fault (BitVec v) := do
  let x ← shiftLeft x srcOffset
  let x ← shiftRight x (w - n)
  let y := x.setWidth v
  let _ ← require (y.setWidth w = x)
  shiftLeft y (v - destOffset - n)

/-- One round copies as many bits as lie in one block on both sides. -/
def copyLoop (src : List (BitVec w)) :
    Nat → List (BitVec v) → Cursor → Cursor → Nat → Except Fault (List (BitVec v))
  | _, dest, _, _, 0 => .ok dest
  | 0, _, _, _, _ + 1 => .error .running
  | rounds + 1, dest, d, s, count + 1 => do
    let n := min (min (v - d.offset) (w - s.offset)) (count + 1)
    let x ← get src s.block
    let y ← chunk x s.offset n d.offset
    let old ← get dest d.block
    let dest ← set dest d.block (old ||| y)
    copyLoop src rounds dest (d.advance v n) (s.advance w n) (count + 1 - n)

/-- Copies `count` bits, a round at least for each; the bits at the destination are to be zero. -/
def copySet (dest : List (BitVec v)) (destI : Nat) (src : List (BitVec w)) (srcI count : Nat) :
    Except Fault (List (BitVec v)) :=
  copyLoop src count dest (.at v destI) (.at w srcI) count

/-- The same loop with the array as its own source. -/
def copyWithinLoop : Nat → List (BitVec w) → Cursor → Cursor → Nat → Except Fault (List (BitVec w))
  | _, m, _, _, 0 => .ok m
  | 0, _, _, _, _ + 1 => .error .running
  | rounds + 1, m, d, s, count + 1 => do
    let n := min (min (w - d.offset) (w - s.offset)) (count + 1)
    let x ← get m s.block
    let y ← chunk x s.offset n d.offset
    let old ← get m d.block
    let m ← set m d.block (old ||| y)
    copyWithinLoop rounds m (d.advance w n) (s.advance w n) (count + 1 - n)

def copyWithin (m : List (BitVec w)) (destI srcI count : Nat) : Except Fault (List (BitVec w)) :=
  copyWithinLoop count m (.at w destI) (.at w srcI) count

end Operations

section Bits

variable {w v : Nat} {m : List (BitVec w)} {b i j n : Nat}

theorem shiftLeft_ok (h : n < w) (x : BitVec w) : shiftLeft x n = .ok (x <<< n) := if_pos h

theorem shiftRight_ok (h : n < w) (x : BitVec w) : shiftRight x n = .ok (x >>> n) := if_pos h

theorem bitAt_block (hi : i < w) : bitAt m (b * w + i) = (m.getD b 0).getMsbD i := by
  rw [bitAt, Nat.mul_add_mod_of_lt hi, Nat.mul_comm, Nat.mul_add_div (by omega),
    Nat.div_eq_of_lt hi, Nat.add_zero]

theorem exists_block (hw : 0 < w) (i : Nat) : ∃ b r, r < w ∧ i = b * w + r :=
  ⟨i / w, i % w, Nat.mod_lt i hw, (Nat.div_add_mod' i w).symm⟩

/-- A place is in the array when the blocks reach beyond it. -/
theorem block_lt (h : b * w + i < m.length * w) : b < m.length :=
  Nat.lt_of_mul_lt_mul_right (Nat.lt_of_le_of_lt (Nat.le_add_right _ i) h)

theorem getD_set_self {x : BitVec w} (h : b < m.length) : (m.set b x).getD b 0 = x := by
  rw [List.getD_eq_getElem?_getD, List.getElem?_set_self h, Option.getD_some]

theorem getD_set_ne {c : Nat} {x : BitVec w} (h : b ≠ c) : (m.set b x).getD c 0 = m.getD c 0 := by
  rw [List.getD_eq_getElem?_getD, List.getElem?_set_ne h, List.getD_eq_getElem?_getD]

theorem get_getD (h : b < m.length) : get m b = .ok (m.getD b 0) := by
  rw [List.getD_eq_getElem _ _ h]
  exact get_ok (List.getElem?_eq_getElem h)

/-- What an array with one block changed has for the bits. -/
theorem bitAt_set {x : BitVec w} {f : Nat → Bool} (hb : b < m.length) (hw : 0 < w)
    (hin : ∀ i < w, x.getMsbD i = f (b * w + i)) (hout : ∀ j, j / w ≠ b → bitAt m j = f j) (j : Nat) :
    bitAt (m.set b x) j = f j := by
  obtain ⟨c, r, hr, rfl⟩ := exists_block hw j
  rw [bitAt_block hr]
  have hdiv : (c * w + r) / w = c := by
    rw [Nat.mul_comm, Nat.mul_add_div hw, Nat.div_eq_of_lt hr, Nat.add_zero]
  by_cases hc : b = c
  · subst hc
    rw [getD_set_self hb]
    exact hin r hr
  · rw [getD_set_ne hc, ← bitAt_block hr]
    exact hout _ (by rw [hdiv]; exact fun heq => hc heq.symm)

theorem bitsOf_succ (m : List (BitVec w)) (n : Nat) : bitsOf m (n + 1) = bitsOf m n ++ [bitAt m n] := by
  rw [bitsOf, List.range_succ, List.map_append]
  rfl

theorem bitsOf_congr {m m' : List (BitVec w)} (h : ∀ j < n, bitAt m' j = bitAt m j) :
    bitsOf m' n = bitsOf m n :=
  List.map_congr_left fun j hj => h j (List.mem_range.mp hj)

theorem length_bitsOf (m : List (BitVec w)) (n : Nat) : (bitsOf m n).length = n := by
  rw [bitsOf, List.length_map, List.length_range]

theorem le_blockCount (hw : 0 < w) (n : Nat) : n ≤ blockCount w n * w := by
  have hdiv := Nat.div_add_mod' (n + w - 1) w
  have hmod := Nat.mod_lt (n + w - 1) hw
  rw [blockCount]
  omega

theorem bitAt_take (hj : j / w < n) : bitAt (m.take n) j = bitAt m j := by
  rw [bitAt, bitAt, List.getD_eq_getElem?_getD, List.getElem?_take_of_lt hj, List.getD_eq_getElem?_getD]

end Bits

section Single

variable {w : Nat} {m : List (BitVec w)} {i : Nat}

theorem getMsbD_bit (hi : i < w) (j : Nat) : ((1#w) <<< (w - 1 - i)).getMsbD j = decide (j = i) := by
  rw [BitVec.getMsbD_shiftLeft, BitVec.getMsbD_one]
  by_cases h : j = i
  · subst h
    simp
    omega
  · simp [h]
    omega

theorem index_lt (hi : i < m.length * w) : i / w < m.length ∧ i % w < w := by
  have hw : 0 < w := by
    rcases Nat.eq_zero_or_pos w with rfl | hw
    · simp at hi
    · exact hw
  exact ⟨Nat.div_lt_of_lt_mul (by rwa [Nat.mul_comm]), Nat.mod_lt i hw⟩

theorem index_eq (k : Nat) : i / w * w + k = i ↔ k = i % w := by
  have hdiv := Nat.div_add_mod' i w
  omega

theorem setBit_ok (hi : i < m.length * w) :
    ∃ m', setBit m i = .ok m' ∧ m'.length = m.length ∧ ∀ j, bitAt m' j = if j = i then true else bitAt m j := by
  obtain ⟨hblock, hoff⟩ := index_lt hi
  refine ⟨m.set (i / w) (m.getD (i / w) 0 ||| (1#w) <<< (w - 1 - i % w)), ?_, List.length_set,
    bitAt_set hblock (by omega) (fun k hk => ?_) fun j hj => ?_⟩
  · rw [setBit, shiftLeft_ok (by omega), ok_bind, get_getD hblock, ok_bind, set_ok hblock]
  · rw [BitVec.getMsbD_or, getMsbD_bit hoff, bitAt_block hk]
    by_cases heq : k = i % w
    · rw [if_pos ((index_eq k).mpr heq), decide_eq_true heq, Bool.or_true]
    · rw [if_neg (fun h => heq ((index_eq k).mp h)), decide_eq_false heq, Bool.or_false]
  · rw [if_neg (fun heq => hj (by rw [heq]))]

theorem unsetBit_ok (hi : i < m.length * w) :
    ∃ m', unsetBit m i = .ok m' ∧ m'.length = m.length ∧
      ∀ j, bitAt m' j = if j = i then false else bitAt m j := by
  obtain ⟨hblock, hoff⟩ := index_lt hi
  refine ⟨m.set (i / w) (m.getD (i / w) 0 &&& ~~~((1#w) <<< (w - 1 - i % w))), ?_, List.length_set,
    bitAt_set hblock (by omega) (fun k hk => ?_) fun j hj => ?_⟩
  · rw [unsetBit, shiftLeft_ok (by omega), ok_bind, get_getD hblock, ok_bind, set_ok hblock]
  · rw [BitVec.getMsbD_and, BitVec.getMsbD_not, getMsbD_bit hoff, bitAt_block hk, decide_eq_true hk,
      Bool.true_and]
    by_cases heq : k = i % w
    · rw [if_pos ((index_eq k).mpr heq), decide_eq_true heq, Bool.not_true, Bool.and_false]
    · rw [if_neg (fun h => heq ((index_eq k).mp h)), decide_eq_false heq, Bool.not_false, Bool.and_true]
  · rw [if_neg (fun heq => hj (by rw [heq]))]

theorem getBit_ok (hi : i < m.length * w) : getBit m i = .ok (bitAt m i) := by
  obtain ⟨hblock, hoff⟩ := index_lt hi
  rw [getBit, shiftLeft_ok (by omega), ok_bind, get_getD hblock, ok_bind, bitAt]
  congr 1
  cases hbit : (m.getD (i / w) 0).getMsbD (i % w) with
  | true =>
    rw [bne_iff_ne]
    intro hzero
    have := congrArg (fun x => BitVec.getMsbD x (i % w)) hzero
    simp only [BitVec.getMsbD_and, hbit, getMsbD_bit hoff, decide_true, Bool.and_true] at this
    simp at this
  | false =>
    rw [bne_eq_false_iff_eq]
    refine BitVec.eq_of_getMsbD_eq fun k hk => ?_
    rw [BitVec.getMsbD_and, getMsbD_bit hoff, show (0 : BitVec w).getMsbD k = false from BitVec.getMsbD_zero]
    by_cases heq : k = i % w
    · rw [heq, hbit, Bool.false_and]
    · rw [decide_eq_false heq, Bool.and_false]

end Single

section Copy

variable {w v : Nat} {src : List (BitVec w)} {dest : List (BitVec v)} {x : BitVec w}
  {srcOffset destOffset n : Nat}

/-- The bits of a chunk, which are nowhere lost on the way. -/
theorem chunk_ok (hn : 0 < n) (hs : srcOffset + n ≤ w) (hd : destOffset + n ≤ v) :
    ∃ y : BitVec v, chunk x srcOffset n destOffset = .ok y ∧
      ∀ i < v, y.getMsbD i =
        (decide (destOffset ≤ i ∧ i < destOffset + n) && x.getMsbD (srcOffset + (i - destOffset))) := by
  have hhigh : ∀ k, n ≤ k → (x <<< srcOffset >>> (w - n)).getLsbD k = false := by
    intro k hk
    rw [BitVec.getLsbD_ushiftRight]
    exact BitVec.getLsbD_of_ge _ _ (by omega)
  have hlow : ∀ k < n, (x <<< srcOffset >>> (w - n)).getLsbD k = x.getMsbD (srcOffset + (n - 1 - k)) := by
    intro k hk
    rw [BitVec.getLsbD_ushiftRight, BitVec.getLsbD_eq_getMsbD, BitVec.getMsbD_shiftLeft,
      show w - 1 - (w - n + k) + srcOffset = srcOffset + (n - 1 - k) by omega,
      decide_eq_true (show w - n + k < w by omega), Bool.true_and]
  have hwide : ((x <<< srcOffset >>> (w - n)).setWidth v).setWidth w = x <<< srcOffset >>> (w - n) := by
    refine BitVec.eq_of_getLsbD_eq fun k hk => ?_
    rw [BitVec.getLsbD_setWidth, BitVec.getLsbD_setWidth, decide_eq_true hk, Bool.true_and]
    by_cases hkv : k < v
    · rw [decide_eq_true hkv, Bool.true_and]
    · rw [hhigh k (by omega), Bool.and_false]
  refine ⟨(x <<< srcOffset >>> (w - n)).setWidth v <<< (v - destOffset - n), ?_, fun i hi => ?_⟩
  · rw [chunk, shiftLeft_ok (by omega), ok_bind, shiftRight_ok (by omega), ok_bind]
    simp only [require_ok hwide, ok_bind]
    exact shiftLeft_ok (by omega) _
  · rw [BitVec.getMsbD_eq_getLsbD, decide_eq_true hi, Bool.true_and, BitVec.getLsbD_shiftLeft,
      decide_eq_true (show v - 1 - i < v by omega), Bool.true_and, BitVec.getLsbD_setWidth]
    by_cases hlt : i < destOffset + n
    · rw [decide_eq_false (show ¬v - 1 - i < v - destOffset - n by omega), Bool.not_false, Bool.true_and,
        decide_eq_true (show v - 1 - i - (v - destOffset - n) < v by omega), Bool.true_and]
      by_cases hge : destOffset ≤ i
      · rw [hlow _ (by omega), decide_eq_true ⟨hge, hlt⟩, Bool.true_and,
          show n - 1 - (v - 1 - i - (v - destOffset - n)) = i - destOffset by omega]
      · rw [hhigh _ (by omega), decide_eq_false (fun h => hge h.1), Bool.false_and]
    · rw [decide_eq_true (show v - 1 - i < v - destOffset - n by omega), Bool.not_true, Bool.false_and,
        decide_eq_false (fun h => hlt h.2), Bool.false_and]

variable {d s : Cursor} {count rounds : Nat}

def Cursor.index (w : Nat) (c : Cursor) : Nat := c.block * w + c.offset

theorem Cursor.advance_index (hc : s.offset + n ≤ w) : (s.advance w n).index w = s.index w + n := by
  rw [advance]
  split
  · simp only [index, Nat.add_zero, Nat.add_mul, Nat.one_mul]
    omega
  · simp only [index]
    omega

theorem Cursor.advance_offset (hn : 0 < w) (hc : s.offset + n ≤ w) : (s.advance w n).offset < w := by
  rw [advance]
  split
  · exact hn
  · simp only
    omega

/-- The array after the copy: the bits from `srcI` on are merged in from `destI` on. -/
def Copied (dest : List (BitVec v)) (destI : Nat) (src : List (BitVec w)) (srcI count : Nat)
    (dest' : List (BitVec v)) : Prop :=
  dest'.length = dest.length ∧
    ∀ j, bitAt dest' j =
      (bitAt dest j || (decide (destI ≤ j ∧ j < destI + count) && bitAt src (srcI + (j - destI))))

/-- One block on either side. -/
theorem copied_block (hd : d.offset + n ≤ v) (hs : s.offset + n ≤ w) (hn : 0 < n)
    (hdest : d.block < dest.length) {y : BitVec v}
    (hy : ∀ i < v, y.getMsbD i = (decide (d.offset ≤ i ∧ i < d.offset + n) &&
      (src.getD s.block 0).getMsbD (s.offset + (i - d.offset)))) :
    Copied dest (d.index v) src (s.index w) n (dest.set d.block (dest.getD d.block 0 ||| y)) := by
  refine ⟨List.length_set, bitAt_set hdest (by omega) (fun i hi => ?_) fun j hj => ?_⟩
  · rw [BitVec.getMsbD_or, hy i hi, bitAt_block hi, Cursor.index, Cursor.index]
    congr 1
    by_cases hrange : d.offset ≤ i ∧ i < d.offset + n
    · rw [decide_eq_true hrange, decide_eq_true (by omega), Bool.true_and, Bool.true_and,
        show s.block * w + s.offset + (d.block * v + i - (d.block * v + d.offset)) =
          s.block * w + (s.offset + (i - d.offset)) by omega, bitAt_block (by omega)]
    · rw [decide_eq_false hrange, decide_eq_false (by omega), Bool.false_and, Bool.false_and]
  · have hrange : ¬(d.index v ≤ j ∧ j < d.index v + n) := by
      rintro ⟨hle, hlt⟩
      rw [Cursor.index] at hle hlt
      refine hj (Nat.div_eq_of_lt_le ?_ ?_)
      · omega
      · rw [Nat.add_mul, Nat.one_mul]
        omega
    rw [decide_eq_false hrange, Bool.false_and, Bool.or_false]

/-- One round of the loop, which copies as many bits as lie in one block on both sides. -/
theorem round_ok (src : List (BitVec w)) (hd : d.offset < v) (hs : s.offset < w)
    (hn : n = min (min (v - d.offset) (w - s.offset)) (count + 1)) (hdest : d.block < dest.length) :
    0 < n ∧ d.offset + n ≤ v ∧ s.offset + n ≤ w ∧
      ∃ y : BitVec v, chunk (src.getD s.block 0) s.offset n d.offset = .ok y ∧
        Copied dest (d.index v) src (s.index w) n (dest.set d.block (dest.getD d.block 0 ||| y)) := by
  have hpos : 0 < n := by omega
  have hdn : d.offset + n ≤ v := by omega
  have hsn : s.offset + n ≤ w := by omega
  obtain ⟨y, hchunk, hy⟩ := chunk_ok (x := src.getD s.block 0) hpos hsn hdn
  exact ⟨hpos, hdn, hsn, y, hchunk, copied_block hdn hsn hpos hdest hy⟩

theorem Copied.append {dest₁ dest₂ : List (BitVec v)} {destI srcI rest : Nat}
    (h : Copied dest destI src srcI n dest₁) (h' : Copied dest₁ (destI + n) src (srcI + n) rest dest₂) :
    Copied dest destI src srcI (n + rest) dest₂ := by
  refine ⟨h'.1.trans h.1, fun j => ?_⟩
  rw [h'.2 j, h.2 j, Bool.or_assoc]
  congr 1
  by_cases hfirst : destI ≤ j ∧ j < destI + n
  · rw [decide_eq_true hfirst, decide_eq_false (show ¬(destI + n ≤ j ∧ j < destI + n + rest) by omega),
      decide_eq_true (show destI ≤ j ∧ j < destI + (n + rest) by omega), Bool.false_and, Bool.or_false]
  · rw [decide_eq_false hfirst, Bool.false_and, Bool.false_or]
    by_cases hrest : destI + n ≤ j ∧ j < destI + n + rest
    · rw [decide_eq_true hrest, decide_eq_true (show destI ≤ j ∧ j < destI + (n + rest) by omega),
        Bool.true_and, Bool.true_and, show srcI + n + (j - (destI + n)) = srcI + (j - destI) by omega]
    · rw [decide_eq_false hrest, decide_eq_false (show ¬(destI ≤ j ∧ j < destI + (n + rest)) by omega),
        Bool.false_and, Bool.false_and]

theorem copyLoop_ok (hd : d.offset < v) (hs : s.offset < w) (hrounds : count ≤ rounds)
    (hdest : d.index v + count ≤ dest.length * v) (hsrc : s.index w + count ≤ src.length * w) :
    ∃ dest', copyLoop src rounds dest d s count = .ok dest' ∧
      Copied dest (d.index v) src (s.index w) count dest' := by
  induction rounds generalizing dest d s count with
  | zero =>
    obtain rfl : count = 0 := by omega
    refine ⟨dest, rfl, rfl, fun j => ?_⟩
    rw [decide_eq_false (by omega), Bool.false_and, Bool.or_false]
  | succ rounds ih =>
    cases count with
    | zero =>
      refine ⟨dest, by rw [copyLoop], rfl, fun j => ?_⟩
      rw [decide_eq_false (by omega), Bool.false_and, Bool.or_false]
    | succ count =>
      obtain ⟨n, hn⟩ : ∃ n, n = min (min (v - d.offset) (w - s.offset)) (count + 1) := ⟨_, rfl⟩
      have hdblock : d.block < dest.length := block_lt (i := d.offset) (w := v)
        (by rw [Cursor.index] at hdest; omega)
      have hsblock : s.block < src.length := block_lt (i := s.offset) (w := w)
        (by rw [Cursor.index] at hsrc; omega)
      obtain ⟨hpos, hdn, hsn, y, hchunk, hcopied⟩ := round_ok src hd hs hn hdblock
      have hdest' : (d.advance v n).index v + (count + 1 - n) ≤
          (dest.set d.block (dest.getD d.block 0 ||| y)).length * v := by
        rw [Cursor.advance_index hdn, List.length_set]
        omega
      have hsrc' : (s.advance w n).index w + (count + 1 - n) ≤ src.length * w := by
        rw [Cursor.advance_index hsn]
        omega
      obtain ⟨dest', hloop, hrest⟩ := ih (Cursor.advance_offset (by omega) hdn)
        (Cursor.advance_offset (by omega) hsn) (by omega) hdest' hsrc'
      rw [Cursor.advance_index hdn, Cursor.advance_index hsn] at hrest
      refine ⟨dest', ?_,
        by simpa only [show n + (count + 1 - n) = count + 1 by omega] using hcopied.append hrest⟩
      rw [copyLoop, ← hn, get_getD hsblock, ok_bind, hchunk, ok_bind, get_getD hdblock, ok_bind, set_ok hdblock,
        ok_bind, hloop]

theorem copySet_ok {destI srcI : Nat} (hv : 0 < v) (hw : 0 < w) (hdest : destI + count ≤ dest.length * v)
    (hsrc : srcI + count ≤ src.length * w) :
    ∃ dest', copySet dest destI src srcI count = .ok dest' ∧ Copied dest destI src srcI count dest' := by
  have hd : (Cursor.at v destI).index v = destI := Nat.div_add_mod' destI v
  have hs : (Cursor.at w srcI).index w = srcI := Nat.div_add_mod' srcI w
  rw [← hd] at hdest
  rw [← hs] at hsrc
  have hloop := copyLoop_ok (Nat.mod_lt destI hv) (Nat.mod_lt srcI hw) (Nat.le_refl count) hdest hsrc
  rwa [hd, hs] at hloop

end Copy

section Within

variable {w : Nat} {m : List (BitVec w)} {d s : Cursor} {count rounds : Nat}

/-- What lies before the destination is read as it was. -/
theorem Copied.of_source {dest dest' : List (BitVec w)} {src src' : List (BitVec w)} {destI srcI : Nat}
    (h : Copied dest destI src srcI count dest') (hsame : ∀ j < srcI + count, bitAt src' j = bitAt src j) :
    Copied dest destI src' srcI count dest' := by
  refine ⟨h.1, fun j => ?_⟩
  rw [h.2 j]
  congr 1
  by_cases hrange : destI ≤ j ∧ j < destI + count
  · rw [hsame _ (by omega)]
  · rw [decide_eq_false hrange, Bool.false_and, Bool.false_and]

theorem copyWithinLoop_ok (hd : d.offset < w) (hs : s.offset < w) (hrounds : count ≤ rounds)
    (hdest : d.index w + count ≤ m.length * w) (hbefore : s.index w + count ≤ d.index w) :
    ∃ m', copyWithinLoop rounds m d s count = .ok m' ∧ Copied m (d.index w) m (s.index w) count m' := by
  induction rounds generalizing m d s count with
  | zero =>
    obtain rfl : count = 0 := by omega
    refine ⟨m, rfl, rfl, fun j => ?_⟩
    rw [decide_eq_false (by omega), Bool.false_and, Bool.or_false]
  | succ rounds ih =>
    cases count with
    | zero =>
      refine ⟨m, by rw [copyWithinLoop], rfl, fun j => ?_⟩
      rw [decide_eq_false (by omega), Bool.false_and, Bool.or_false]
    | succ count =>
      obtain ⟨n, hn⟩ : ∃ n, n = min (min (w - d.offset) (w - s.offset)) (count + 1) := ⟨_, rfl⟩
      have hdblock : d.block < m.length := block_lt (i := d.offset) (w := w)
        (by rw [Cursor.index] at hdest; omega)
      have hsblock : s.block < m.length := block_lt (i := s.offset) (w := w)
        (by rw [Cursor.index] at hdest hbefore; rw [Cursor.index] at hbefore; omega)
      obtain ⟨hpos, hdn, hsn, y, hchunk, hcopied⟩ := round_ok m hd hs hn hdblock
      have hdest' : (d.advance w n).index w + (count + 1 - n) ≤
          (m.set d.block (m.getD d.block 0 ||| y)).length * w := by
        rw [Cursor.advance_index hdn, List.length_set]
        omega
      have hbefore' : (s.advance w n).index w + (count + 1 - n) ≤ (d.advance w n).index w := by
        rw [Cursor.advance_index hsn, Cursor.advance_index hdn]
        omega
      obtain ⟨m', hloop, hrest⟩ := ih (Cursor.advance_offset (by omega) hdn)
        (Cursor.advance_offset (by omega) hsn) (by omega) hdest' hbefore'
      rw [Cursor.advance_index hdn, Cursor.advance_index hsn] at hrest
      -- the bits that are still to be copied are not among those that this round has set
      have hsource : Copied (m.set d.block (m.getD d.block 0 ||| y)) (d.index w + n) m (s.index w + n)
          (count + 1 - n) m' := hrest.of_source fun j hj => by
        rw [hcopied.2 j, decide_eq_false (by omega), Bool.false_and, Bool.or_false]
      refine ⟨m', ?_,
        by simpa only [show n + (count + 1 - n) = count + 1 by omega] using hcopied.append hsource⟩
      rw [copyWithinLoop, ← hn, get_getD hsblock, ok_bind, hchunk, ok_bind, get_getD hdblock, ok_bind,
        set_ok hdblock, ok_bind, hloop]

theorem copyWithin_ok {destI srcI : Nat} (hw : 0 < w) (hdest : destI + count ≤ m.length * w)
    (hbefore : srcI + count ≤ destI) :
    ∃ m', copyWithin m destI srcI count = .ok m' ∧ Copied m destI m srcI count m' := by
  have hd : (Cursor.at w destI).index w = destI := Nat.div_add_mod' destI w
  have hs : (Cursor.at w srcI).index w = srcI := Nat.div_add_mod' srcI w
  rw [← hd] at hdest hbefore
  rw [← hs] at hbefore
  have hloop := copyWithinLoop_ok (Nat.mod_lt destI hw) (Nat.mod_lt srcI hw) (Nat.le_refl count) hdest hbefore
  rwa [hd, hs] at hloop

end Within

end BitBlocks
