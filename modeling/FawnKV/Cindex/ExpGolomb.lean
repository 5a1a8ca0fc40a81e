import Mathlib.Data.Nat.Size
import FawnKV.Lib.BitCode

/-! Exponential Golomb codes of 64-bit words, and the interleaving of signs. -/
namespace FawnKV.Cindex

open BitCode

namespace SignInterleave

/-- Non-negative words to even ones, negative ones to odd ones; `~v` is `2 ^ 64 - 1 - v`. -/
def encode (v : Nat) : Nat :=
  if v < 2 ^ 63 then 2 * v % 2 ^ 64 else (2 * (2 ^ 64 - 1 - v) + 1) % 2 ^ 64

/-- The top bit is cleared in the first branch and set in the second. -/
def decode (v : Nat) : Nat :=
  if v % 2 = 0 then v / 2 % 2 ^ 63 else 2 ^ 63 + (2 ^ 64 - 1 - v / 2) % 2 ^ 63

theorem decode_encode {v : Nat} (hv : v < 2 ^ 64) : decode (encode v) = v := by
  unfold encode decode
  by_cases h : v < 2 ^ 63
  · rw [if_pos h, if_pos (by omega)]
    omega
  · rw [if_neg h, if_neg (by omega)]
    omega

theorem encode_lt (v : Nat) : encode v < 2 ^ 64 := by
  unfold encode
  split <;> omega

/-- The one word whose code would wrap in `exp_golomb` is the least negative one. -/
theorem encode_add_one_lt {v : Nat} (hv : v < 2 ^ 64) (hmin : v ≠ 2 ^ 63) :
    encode v + 1 < 2 ^ 64 := by
  unfold encode
  split <;> omega

end SignInterleave

namespace ExpGolomb

/-- The code: one zero less than the bit length of `m`, then `m` from its leading one on, then
the `order` lowest bits of `n`. -/
def code (order n : Nat) : Bits :=
  let m := (n / 2 ^ order + 1) % 2 ^ 64
  List.replicate (m.size - 1) false ++ [true] ++ beBits (m.size - 1) m ++ beBits order n

/-- `len` of the source is the bit length `Nat.size` of `m`. -/
def encode (order : Nat) (outBuf : Bits) (n : Nat) : Option Bits :=
  let m := (n / 2 ^ order + 1) % 2 ^ 64
  if m / 2 ^ (m.size - 1) = 1 then some (outBuf ++ code order n) else none

/-- The loop over the leading zeros: the length and the iterator behind the first one. -/
def zeros (inBuf : Bits) (iter len : Nat) : Option (Nat × Nat) :=
  if h : iter < inBuf.length then
    if inBuf[iter] then some (len, iter + 1) else zeros inBuf (iter + 1) (len + 1)
  else none
termination_by inBuf.length - iter

/-- `get<T>` of the buffer; more than 64 bits do not fit. -/
def getBits (len : Nat) : Reader Nat := fun inBuf iter =>
  if 64 < len ∨ inBuf.length < iter + len then none
  else some (readBe ((inBuf.drop iter).take len), iter + len)

def decode (order : Nat) : Reader Nat :=
  andThen (fun inBuf iter => zeros inBuf iter 1) fun len =>
    if 64 < len then fun _ _ => none
    else andThen (getBits (len - 1)) fun low =>
      let m := 2 ^ (len - 1) ||| low
      if order = 0 then fun _ iter => some (m - 1, iter)
      else andThen (getBits order) fun rest => fun _ iter =>
        some ((m - 1) * 2 ^ order % 2 ^ 64 ||| rest, iter)

theorem zeros_reads (k len : Nat) :
    Reads (fun inBuf iter => zeros inBuf iter len) (List.replicate k false ++ [true]) (len + k) := by
  induction k generalizing len with
  | zero =>
    intro pre post
    show zeros _ _ _ = _
    rw [zeros, dif_pos (by simp)]
    simp
  | succ k ih =>
    intro pre post
    have htail := ih (len + 1) (pre ++ [false]) post
    show zeros _ _ _ = _
    rw [zeros, dif_pos (by simp)]
    simp only [List.replicate_succ, List.append_assoc, List.cons_append, List.nil_append,
      List.length_append, List.length_cons, List.length_nil, List.length_replicate] at htail ⊢
    rw [List.getElem_append_right (Nat.le_refl _)]
    simp only [Nat.sub_self, List.getElem_cons_zero, Bool.false_eq_true, if_false]
    rw [htail]
    simp only [Option.some.injEq, Prod.mk.injEq]
    omega

theorem getBits_reads {len : Nat} (v : Nat) (hlen : len ≤ 64) :
    Reads (getBits len) (beBits len v) (v % 2 ^ len) := by
  intro pre post
  have hshort : ¬(64 < len ∨ (pre ++ beBits len v ++ post).length < pre.length + len) := by
    simp only [List.length_append, length_beBits]
    omega
  rw [getBits, if_neg hshort, List.append_assoc, List.drop_left,
    List.take_append_of_le_length (by simp), List.take_of_length_le (by simp), readBe_beBits,
    length_beBits]

theorem or_mod_two_pow (v k : Nat) : v / 2 ^ k * 2 ^ k ||| v % 2 ^ k = v := by
  have hor := Nat.two_pow_add_eq_or_of_lt (Nat.mod_lt v (Nat.two_pow_pos k)) (v / 2 ^ k)
  rw [Nat.mul_comm, ← hor]
  exact Nat.div_add_mod v (2 ^ k)

/-- The bit at `len - 1` is the leading one. -/
theorem div_size {m : Nat} (hm : 0 < m) : m / 2 ^ (m.size - 1) = 1 := by
  have hpos : 0 < m.size := Nat.size_pos.mpr hm
  have hlow : 2 ^ (m.size - 1) ≤ m := Nat.lt_size.mp (by omega)
  have hhigh : m < 2 ^ (m.size - 1) * 2 := by
    have hlt := Nat.lt_size_self m
    rwa [← Nat.sub_add_cancel hpos, Nat.pow_succ] at hlt
  exact Nat.div_eq_of_lt_le (by omega) (by omega)

theorem encode_eq {order n : Nat} (outBuf : Bits) (hm : n / 2 ^ order + 1 < 2 ^ 64) :
    encode order outBuf n = some (outBuf ++ code order n) := by
  simp only [encode, Nat.mod_eq_of_lt hm]
  rw [if_pos (div_size (Nat.succ_pos _))]

/-- `decode` returns the word `encode` wrote and stops behind its code. -/
theorem decode_reads {order n : Nat} (horder : order < 64) (hn : n < 2 ^ 64)
    (hm : n / 2 ^ order + 1 < 2 ^ 64) : Reads (decode order) (code order n) n := by
  have hsize : (n / 2 ^ order + 1).size ≤ 64 := Nat.size_le.mpr hm
  have hpos : 0 < (n / 2 ^ order + 1).size := Nat.size_pos.mpr (Nat.succ_pos _)
  simp only [code, Nat.mod_eq_of_lt hm, List.append_assoc]
  rw [← List.append_assoc]
  have hzeros := zeros_reads ((n / 2 ^ order + 1).size - 1) 1
  refine Reads.andThen hzeros ?_
  rw [if_neg (by omega), Nat.add_sub_cancel_left]
  have hmval := or_mod_two_pow (n / 2 ^ order + 1) ((n / 2 ^ order + 1).size - 1)
  rw [div_size (Nat.succ_pos _), Nat.one_mul] at hmval
  refine Reads.andThen (getBits_reads _ (by omega)) ?_
  simp only [hmval, Nat.add_sub_cancel]
  by_cases h0 : order = 0
  · subst h0
    simpa [beBits] using Reads.pure n
  · rw [if_neg h0]
    have hlt : n / 2 ^ order * 2 ^ order < 2 ^ 64 := lt_of_le_of_lt (Nat.div_mul_le_self _ _) hn
    have hlast : Reads (fun _ iter => some (n / 2 ^ order * 2 ^ order % 2 ^ 64 ||| n % 2 ^ order, iter))
        [] n := by
      rw [Nat.mod_eq_of_lt hlt, or_mod_two_pow]
      exact Reads.pure n
    rw [← List.append_nil (beBits order n)]
    exact Reads.andThen (getBits_reads n horder.le) hlast

end ExpGolomb

end FawnKV.Cindex
