import FawnKV.Cindex.BitVectorOps
import FawnKV.Cindex.ExpGolomb

/-! `exp_golomb` over `bit_vector`, with the copies of bits and the shifts of 64-bit words. -/
namespace FawnKV.Cindex

open Checked BitBlocks BitCode

namespace SignInterleave

def encodeWord (v : BitVec 64) : BitVec 64 :=
  if v &&& 1#64 <<< 63 = 0 then v <<< 1 else ~~~v <<< 1 ||| 1

def decodeWord (v : BitVec 64) : BitVec 64 :=
  if v &&& 1 = 0 then v >>> 1 &&& ~~~(1#64 <<< 63) else ~~~(v >>> 1) ||| 1#64 <<< 63

theorem getLsbD_lowest (i : Nat) : (1 : BitVec 64).getLsbD i = decide (i = 0) := by
  rw [show (1 : BitVec 64) = 1#64 from rfl, BitVec.getLsbD_one]
  rcases Nat.eq_zero_or_pos i with rfl | hpos
  · rfl
  · simp

theorem getLsbD_top (i : Nat) : (1#64 <<< 63).getLsbD i = decide (i = 63) := by
  rw [BitVec.getLsbD_shiftLeft, BitVec.getLsbD_one]
  rcases Nat.lt_trichotomy i 63 with hlt | rfl | hgt
  · simp [hlt, Nat.ne_of_lt hlt]
  · rfl
  · rw [decide_eq_false (show ¬i < 64 by omega), decide_eq_false (Nat.ne_of_gt hgt), Bool.false_and,
      Bool.false_and]

/-- A mask of one bit is zero where the bit is. -/
theorem and_mask_eq {v mask : BitVec 64} {k : Nat} (hmask : ∀ i, mask.getLsbD i = decide (i = k)) :
    v &&& mask = 0 ↔ v.getLsbD k = false := by
  constructor
  · intro h
    have hbit := congrArg (BitVec.getLsbD · k) h
    simpa [BitVec.getLsbD_and, hmask] using hbit
  · intro h
    refine BitVec.eq_of_getLsbD_eq fun i hi => ?_
    rw [BitVec.getLsbD_and, hmask, show (0 : BitVec 64).getLsbD i = false from BitVec.getLsbD_zero]
    by_cases hik : i = k
    · rw [hik, h, Bool.false_and]
    · rw [decide_eq_false hik, Bool.and_false]

/-- The sign becomes the lowest bit. -/
theorem getLsbD_encodeWord_zero (v : BitVec 64) : (encodeWord v).getLsbD 0 = v.getLsbD 63 := by
  rw [encodeWord]
  split
  · rename_i h
    rw [(and_mask_eq getLsbD_top).mp h, BitVec.getLsbD_shiftLeft, decide_eq_true Nat.zero_lt_one,
      Bool.not_true, Bool.and_false, Bool.false_and]
  · rename_i h
    rw [and_mask_eq getLsbD_top, Bool.not_eq_false] at h
    rw [h, BitVec.getLsbD_or, getLsbD_lowest, decide_eq_true rfl, Bool.or_true]

theorem getLsbD_encodeWord_succ (v : BitVec 64) {i : Nat} (hi : i < 63) :
    (encodeWord v).getLsbD (i + 1) = (v.getLsbD i ^^ v.getLsbD 63) := by
  have hlow : decide (i + 1 < 1) = false := decide_eq_false (by omega)
  have hhigh : decide (i + 1 < 64) = true := decide_eq_true (by omega)
  rw [encodeWord]
  split
  · rename_i h
    rw [(and_mask_eq getLsbD_top).mp h, BitVec.getLsbD_shiftLeft, hlow, hhigh, Nat.add_sub_cancel]
    simp
  · rename_i h
    rw [and_mask_eq getLsbD_top, Bool.not_eq_false] at h
    rw [h, BitVec.getLsbD_or, BitVec.getLsbD_shiftLeft, hlow, hhigh, Nat.add_sub_cancel, getLsbD_lowest,
      BitVec.getLsbD_not, decide_eq_true (show i < 64 by omega)]
    simp

theorem getLsbD_decodeWord_top (v : BitVec 64) : (decodeWord v).getLsbD 63 = v.getLsbD 0 := by
  rw [decodeWord]
  split
  · rename_i h
    rw [(and_mask_eq getLsbD_lowest).mp h, BitVec.getLsbD_and, BitVec.getLsbD_not, getLsbD_top,
      decide_eq_true rfl, Bool.not_true, Bool.and_false, Bool.and_false]
  · rename_i h
    rw [and_mask_eq getLsbD_lowest, Bool.not_eq_false] at h
    rw [h, BitVec.getLsbD_or, getLsbD_top, decide_eq_true rfl, Bool.or_true]

theorem getLsbD_decodeWord (v : BitVec 64) {i : Nat} (hi : i < 63) :
    (decodeWord v).getLsbD i = (v.getLsbD (i + 1) ^^ v.getLsbD 0) := by
  have hin : decide (i < 64) = true := decide_eq_true (by omega)
  have htop : decide (i = 63) = false := decide_eq_false (by omega)
  rw [decodeWord]
  split
  · rename_i h
    rw [(and_mask_eq getLsbD_lowest).mp h, BitVec.getLsbD_and, BitVec.getLsbD_ushiftRight,
      BitVec.getLsbD_not, getLsbD_top, hin, htop, Nat.add_comm 1 i]
    simp
  · rename_i h
    rw [and_mask_eq getLsbD_lowest, Bool.not_eq_false] at h
    rw [h, BitVec.getLsbD_or, BitVec.getLsbD_not, BitVec.getLsbD_ushiftRight, getLsbD_top, hin, htop,
      Nat.add_comm 1 i]
    simp

theorem decodeWord_encodeWord (v : BitVec 64) : decodeWord (encodeWord v) = v := by
  refine BitVec.eq_of_getLsbD_eq fun i hi => ?_
  by_cases hlast : i = 63
  · rw [hlast, getLsbD_decodeWord_top, getLsbD_encodeWord_zero]
  · rw [getLsbD_decodeWord _ (by omega), getLsbD_encodeWord_succ v (by omega), getLsbD_encodeWord_zero,
      Bool.xor_assoc, Bool.xor_self, Bool.xor_false]

theorem encodeWord_decodeWord (v : BitVec 64) : encodeWord (decodeWord v) = v := by
  refine BitVec.eq_of_getLsbD_eq fun i hi => ?_
  cases i with
  | zero => rw [getLsbD_encodeWord_zero, getLsbD_decodeWord_top]
  | succ i =>
    rw [getLsbD_encodeWord_succ _ (by omega), getLsbD_decodeWord v (by omega), getLsbD_decodeWord_top,
      Bool.xor_assoc, Bool.xor_self, Bool.xor_false]

end SignInterleave

namespace ExpGolomb

section Functions

variable {w : Nat}

/-- The loop that counts the bits of `m`. -/
def lenLoop (p len : Nat) : Nat :=
  if 0 < p then lenLoop (p / 2) (len + 1) else len
termination_by p

def pushZeros : Nat → BitVector w → Except Fault (BitVector w)
  | 0, outBuf => .ok outBuf
  | rounds + 1, outBuf => do
    let outBuf ← outBuf.pushBack false
    pushZeros rounds outBuf

/-- `encode` of a 64-bit word. Without a bit in `m` the shift in the assertion is by -1. -/
def encodeTo (order : Nat) (outBuf : BitVector w) (n : BitVec 64) : Except Fault (BitVector w) := do
  let high ← shiftRight n order
  let m := if order = 0 then n + 1 else high + 1
  let len := lenLoop m.toNat 0
  let outBuf ← pushZeros (len - 1) outBuf
  let top ← if len = 0 then .error .invalidShift else shiftRight m (len - 1)
  let _ ← require (top = 1)
  let outBuf ← outBuf.pushBack true
  let outBuf ← outBuf.appendInt m (len - 1)
  if order = 0 then .ok outBuf else outBuf.appendInt n order

/-- The loop over the leading zeros: the length and the iterator behind the first one. -/
def zerosIn (inBuf : BitVector w) (iter len : Nat) : Except Fault (Nat × Nat) :=
  if iter < inBuf.size then do
    let one ← inBuf.bit iter
    if one then .ok (len, iter + 1) else zerosIn inBuf (iter + 1) (len + 1)
  else .error .assertion
termination_by inBuf.size - iter

/-- `decode` of a 64-bit word, with the iterator behind its code. -/
def decodeFrom (order : Nat) (inBuf : BitVector w) (iter : Nat) : Except Fault (BitVec 64 × Nat) := do
  let (len, iter) ← zerosIn inBuf iter 1
  let m ← shiftLeft 1#64 (len - 1)
  let _ ← require (iter + (len - 1) ≤ inBuf.size)
  let low ← inBuf.get 64 iter (len - 1)
  let m := m ||| low
  let iter := iter + (len - 1)
  if order = 0 then .ok (m - 1, iter)
  else do
    let n ← shiftLeft (m - 1) order
    let _ ← require (iter + order ≤ inBuf.size)
    let rest ← inBuf.get 64 iter order
    .ok (n ||| rest, iter + order)

end Functions

section Encode

variable {w order : Nat} {outBuf : BitVector w} {n : BitVec 64}

theorem size_half {p : Nat} (hpos : 0 < p) : p.size = (p / 2).size + 1 := by
  apply Nat.le_antisymm
  · have hhalf : p / 2 < 2 ^ (p / 2).size := Nat.lt_size_self _
    rw [Nat.size_le, Nat.pow_succ]
    omega
  · obtain ⟨k, hk⟩ := Nat.exists_eq_succ_of_ne_zero (Nat.ne_of_gt (Nat.size_pos.mpr hpos))
    have hlt : p < 2 ^ p.size := Nat.lt_size_self _
    rw [hk, Nat.pow_succ] at hlt
    rw [hk]
    exact Nat.succ_le_succ (Nat.size_le.mpr (by omega))

theorem lenLoop_eq (p len : Nat) : lenLoop p len = len + p.size := by
  fun_induction lenLoop p len with
  | case1 p len hpos ih =>
    rw [ih, size_half hpos]
    omega
  | case2 p len hzero =>
    obtain rfl : p = 0 := by omega
    rw [Nat.size_zero]
    rfl

theorem pushZeros_ok (h : outBuf.WellMade) (rounds : Nat) : ∃ b, pushZeros rounds outBuf = .ok b ∧
    b.WellMade ∧ b.bits = outBuf.bits ++ List.replicate rounds false := by
  induction rounds generalizing outBuf with
  | zero => exact ⟨outBuf, rfl, h, (List.append_nil _).symm⟩
  | succ rounds ih =>
    obtain ⟨b, hpush, hb, hbits⟩ := h.pushBack false
    obtain ⟨c, hzeros, hc, hmore⟩ := ih hb
    refine ⟨c, ?_, hc, ?_⟩
    · rw [pushZeros, hpush, ok_bind, hzeros]
    · rw [hmore, hbits, List.append_assoc, List.replicate_succ, List.singleton_append]

/-- What is written behind the buffer is the code. -/
theorem encodeTo_refines (h : outBuf.WellMade) (horder : order < 64) (hm : n.toNat / 2 ^ order + 1 < 2 ^ 64) :
    ∃ b, encodeTo order outBuf n = .ok b ∧ b.WellMade ∧ b.bits = outBuf.bits ++ code order n.toNat := by
  obtain ⟨m, hmdef⟩ : ∃ m, m = n >>> order + 1 := ⟨_, rfl⟩
  have hmnat : m.toNat = n.toNat / 2 ^ order + 1 := by
    rw [hmdef, BitVec.toNat_add, BitVec.toNat_ushiftRight, Nat.shiftRight_eq_div_pow]
    exact Nat.mod_eq_of_lt hm
  have hmzero : order = 0 → n + 1 = m := by
    rintro rfl
    rw [hmdef, BitVec.ushiftRight_zero]
  have hone : 0 < m.toNat := hmnat ▸ Nat.succ_pos _
  have hpos : 0 < m.toNat.size := Nat.size_pos.mpr hone
  have hsize : m.toNat.size ≤ 64 := Nat.size_le.mpr m.isLt
  have htop : m >>> (m.toNat.size - 1) = 1 := by
    refine BitVec.eq_of_toNat_eq ?_
    rw [BitVec.toNat_ushiftRight, Nat.shiftRight_eq_div_pow, div_size hone]
    rfl
  obtain ⟨b₁, hzeros, hb₁, hbits₁⟩ := pushZeros_ok h (m.toNat.size - 1)
  obtain ⟨b₂, hpush, hb₂, hbits₂⟩ := hb₁.pushBack true
  obtain ⟨b₃, hlow, hb₃, hbits₃⟩ :=
    hb₂.appendInt m (by decide) (Nat.le_refl 64) (show m.toNat.size - 1 ≤ 64 by omega)
  obtain ⟨b₄, hrest, hb₄, hbits₄⟩ := hb₃.appendInt n (by decide) (Nat.le_refl 64) horder.le
  have hrun : encodeTo order outBuf n = if order = 0 then .ok b₃ else b₃.appendInt n order := by
    have hm' : (if order = 0 then n + 1 else n >>> order + 1) = m := by
      split
      · exact hmzero (by assumption)
      · exact hmdef.symm
    rw [encodeTo, shiftRight_ok horder, ok_bind]
    simp only [hm', lenLoop_eq, Nat.zero_add, hzeros, ok_bind, if_neg (Nat.ne_of_gt hpos),
      shiftRight_ok (show m.toNat.size - 1 < 64 by omega), require_ok htop, hpush, hlow]
  have hcode : code order n.toNat = List.replicate (m.toNat.size - 1) false ++ [true] ++
      beBits (m.toNat.size - 1) m.toNat ++ beBits order n.toNat := by
    rw [code, Nat.mod_eq_of_lt hm, hmnat]
  by_cases hzero : order = 0
  · refine ⟨b₃, by rw [hrun, if_pos hzero], hb₃, ?_⟩
    rw [hcode, hbits₃, hbits₂, hbits₁, hzero]
    simp [beBits]
  · refine ⟨b₄, by rw [hrun, if_neg hzero, hrest], hb₄, ?_⟩
    rw [hcode, hbits₄, hbits₃, hbits₂, hbits₁]
    simp

end Encode

section Decode

variable {w order iter len : Nat} {inBuf : BitVector w}

theorem zerosIn_refines (h : inBuf.WellMade) {r : Nat × Nat} (hzeros : zeros inBuf.bits iter len = some r) :
    zerosIn inBuf iter len = .ok r := by
  fun_induction zeros inBuf.bits iter len with
  | case1 iter len hlt hone =>
    cases hzeros
    rw [zerosIn, if_pos (by rwa [BitVector.length_bits] at hlt), h.bit hlt, ok_bind, hone, if_pos rfl]
  | case2 iter len hlt hzero ih =>
    rw [zerosIn, if_pos (by rwa [BitVector.length_bits] at hlt), h.bit hlt, ok_bind, if_neg hzero]
    exact ih hzeros
  | case3 iter len hge => cases hzeros

theorem get_refines (h : inBuf.WellMade) {v i : Nat} (hget : getBits len inBuf.bits iter = some (v, i)) :
    iter + len ≤ inBuf.size ∧ i = iter + len ∧ inBuf.get 64 iter len = .ok (BitVec.ofNat 64 v) := by
  rw [getBits] at hget
  split at hget
  · cases hget
  · rename_i hshort
    cases hget
    rw [BitVector.length_bits] at hshort
    exact ⟨by omega, rfl, h.get (by decide) (by omega) (by omega)⟩

theorem ofNat_shiftLeft (x k : Nat) : BitVec.ofNat 64 x <<< k = BitVec.ofNat 64 (x * 2 ^ k) := by
  refine BitVec.eq_of_toNat_eq ?_
  rw [BitVec.toNat_shiftLeft, BitVec.toNat_ofNat, BitVec.toNat_ofNat, Nat.shiftLeft_eq, Nat.mod_mul_mod]

/-- `decode` of the bits of the buffer is `decode` of the buffer. -/
theorem decodeFrom_refines (h : inBuf.WellMade) (horder : order < 64) {m i : Nat}
    (hdecode : decode order inBuf.bits iter = some (m, i)) :
    decodeFrom order inBuf iter = .ok (BitVec.ofNat 64 m, i) := by
  rw [decode, andThen] at hdecode
  obtain ⟨⟨len, j⟩, hzeros, hdecode⟩ := Option.bind_eq_some_iff.mp hdecode
  by_cases hlen : 64 < len
  · rw [if_pos hlen] at hdecode
    cases hdecode
  · rw [if_neg hlen] at hdecode
    obtain ⟨⟨low, k⟩, hlow, hdecode⟩ := Option.bind_eq_some_iff.mp hdecode
    obtain ⟨hfits, hk, hget⟩ := get_refines h hlow
    obtain ⟨p, hp⟩ : ∃ p, p = 2 ^ (len - 1) ||| low := ⟨_, rfl⟩
    have hpos : 1 ≤ p := hp ▸ Nat.le_trans Nat.one_le_two_pow Nat.left_le_or
    have hm : 1#64 <<< (len - 1) ||| BitVec.ofNat 64 low = BitVec.ofNat 64 p := by
      rw [hp, BitVec.ofNat_or, ofNat_shiftLeft 1, Nat.one_mul]
    have hpred : BitVec.ofNat 64 p - 1 = BitVec.ofNat 64 (p - 1) :=
      BitVec.ofNat_sub_ofNat_of_le p 1 (by decide) hpos
    dsimp only at hdecode
    rw [← hp] at hdecode
    rw [decodeFrom, zerosIn_refines h hzeros, ok_bind]
    simp only [shiftLeft_ok (show len - 1 < 64 by omega), ok_bind, require_ok hfits, hget, hm, hpred]
    by_cases hzero : order = 0
    · rw [if_pos hzero] at hdecode ⊢
      cases hdecode
      rw [hk]
    · rw [if_neg hzero] at hdecode ⊢
      obtain ⟨⟨rest, l⟩, hrest, hdecode⟩ := Option.bind_eq_some_iff.mp hdecode
      obtain ⟨hfits', hl, hget'⟩ := get_refines h hrest
      cases hdecode
      have hwrap : BitVec.ofNat 64 ((p - 1) * 2 ^ order % 2 ^ 64) = BitVec.ofNat 64 ((p - 1) * 2 ^ order) :=
        BitVec.eq_of_toNat_eq (by rw [BitVec.toNat_ofNat, BitVec.toNat_ofNat, Nat.mod_mod])
      rw [← hk, shiftLeft_ok horder, ok_bind, require_ok hfits', ok_bind, hget', ok_bind, hl, ofNat_shiftLeft,
        BitVec.ofNat_or, hwrap]

end Decode

/-- What `encode` writes behind a buffer is read back from every buffer that begins with it. -/
def ReadsBack (order : Nat) (n : BitVec 64) : Prop :=
  ∀ {w : Nat} (b : BitVector w), b.WellMade →
    ∃ b', encodeTo order b n = .ok b' ∧ b'.WellMade ∧ b.bits <+: b'.bits ∧
      ∀ {w' : Nat} (c : BitVector w'), c.WellMade → b'.bits <+: c.bits →
        decodeFrom order c b.size = .ok (n, b'.size)

theorem readsBack {order : Nat} {n : BitVec 64} (horder : order < 64) (hm : n.toNat / 2 ^ order + 1 < 2 ^ 64) :
    ReadsBack order n := by
  intro w b hb
  obtain ⟨b', hencode, hb', hbits⟩ := encodeTo_refines hb horder hm
  refine ⟨b', hencode, hb', ⟨_, hbits.symm⟩, fun {w'} c hc hstart => ?_⟩
  obtain ⟨post, hpost⟩ := hstart
  have hreads := decode_reads horder n.isLt hm b.bits post
  rw [← hbits, hpost] at hreads
  have hdecode := decodeFrom_refines hc horder hreads
  rw [BitVec.ofNat_toNat, BitVec.setWidth_eq, ← List.length_append, ← hbits, BitVector.length_bits,
    BitVector.length_bits] at hdecode
  exact hdecode

end ExpGolomb

open ExpGolomb SignInterleave

/-- A difference that is coded is not the least negative word. -/
theorem encodeWord_add_one_lt {left n : BitVec 64} (hle : left.toNat ≤ n.toNat) (hn : n.toNat < 2 ^ 63) :
    (encodeWord (left - n / 2)).toNat + 1 < 2 ^ 64 := by
  by_contra hge
  have hones : encodeWord (left - n / 2) = BitVec.allOnes 64 := by
    refine BitVec.eq_of_toNat_eq ?_
    rw [BitVec.toNat_allOnes]
    have := (encodeWord (left - n / 2)).isLt
    omega
  have hleast : ∀ d : BitVec 64, encodeWord d = BitVec.allOnes 64 → d = 1#64 <<< 63 := by
    intro d hd
    rw [← decodeWord_encodeWord d, hd]
    decide
  have hnat := congrArg BitVec.toNat (hleast _ hones)
  rw [BitVec.toNat_sub, BitVec.toNat_udiv, show (1#64 <<< 63).toNat = 2 ^ 63 by decide,
    show (2 : BitVec 64).toNat = 2 from rfl] at hnat
  omega

/-- The codes of all words are read back wherever they stand in a `bit_vector`, the signs come back in both
directions, and so do the sizes of the left trees that `trie` writes as differences. -/
theorem expGolomb_round_trip :
    (∀ (order : Nat) (n : BitVec 64), order < 64 → n.toNat / 2 ^ order + 1 < 2 ^ 64 → ReadsBack order n) ∧
      (∀ v : BitVec 64, decodeWord (encodeWord v) = v ∧ encodeWord (decodeWord v) = v) ∧
      ∀ left n : BitVec 64, left.toNat ≤ n.toNat → n.toNat < 2 ^ 63 →
        ReadsBack 0 (encodeWord (left - n / 2)) ∧ decodeWord (encodeWord (left - n / 2)) + n / 2 = left := by
  refine ⟨fun order n => readsBack, fun v => ⟨decodeWord_encodeWord v, encodeWord_decodeWord v⟩,
    fun left n hle hn => ⟨readsBack (by decide) ?_, ?_⟩⟩
  · rw [Nat.pow_zero, Nat.div_one]
    exact encodeWord_add_one_lt hle hn
  · rw [decodeWord_encodeWord, BitVec.sub_add_cancel]

end FawnKV.Cindex
