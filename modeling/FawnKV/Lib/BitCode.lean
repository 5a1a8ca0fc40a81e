import Mathlib.Data.Nat.Bitwise
import Mathlib.Tactic.Ring
import Mathlib.Data.List.Basic

/-! Codes in a bit buffer read through an iterator: what a reader makes of a code, wherever in
the buffer it stands. -/
namespace BitCode

variable {α β : Type}

abbrev Bits := List Bool

/-- A reader takes the buffer and the iterator, and returns a value and the moved iterator;
`none` is a failed assertion. -/
abbrev Reader (α : Type) := Bits → Nat → Option (α × Nat)

/-- Started at the first bit of `code`, the reader returns `x` behind its last bit, whatever
stands before and after. -/
def Reads (rd : Reader α) (code : Bits) (x : α) : Prop :=
  ∀ pre post, rd (pre ++ code ++ post) pre.length = some (x, pre.length + code.length)

/-- One reader after the other. -/
def andThen (rd : Reader α) (f : α → Reader β) : Reader β :=
  fun buf iter => (rd buf iter).bind fun r => f r.1 buf r.2

theorem Reads.pure (x : α) : Reads (fun _ iter => some (x, iter)) [] x := by
  intro pre post
  simp

theorem Reads.andThen {rd : Reader α} {f : α → Reader β} {c₁ c₂ : Bits} {x : α} {y : β}
    (h₁ : Reads rd c₁ x) (h₂ : Reads (f x) c₂ y) : Reads (andThen rd f) (c₁ ++ c₂) y := by
  intro pre post
  have hfirst := h₁ pre (c₂ ++ post)
  have hsecond := h₂ (pre ++ c₁) post
  simp only [List.append_assoc, List.length_append] at hfirst hsecond ⊢
  simp only [BitCode.andThen, hfirst, Option.bind_some, hsecond]
  simp only [Nat.add_assoc]

/-- The lowest `len` bits of `v`, highest first. -/
def beBits : Nat → Nat → Bits
  | 0, _ => []
  | len + 1, v => v.testBit len :: beBits len v

theorem beBits_eq_map (len v : Nat) : beBits len v = (List.range len).map fun k => v.testBit (len - 1 - k) := by
  induction len with
  | zero => rfl
  | succ len ih =>
    rw [beBits, List.range_succ_eq_map, List.map_cons, List.map_map, ih]
    refine congrArg _ (List.map_congr_left fun k _ => ?_)
    rw [Function.comp_apply, Nat.succ_eq_add_one, Nat.add_sub_cancel, Nat.sub_sub, Nat.add_comm 1 k]

def readBe (bits : Bits) : Nat := bits.foldl (fun acc b => 2 * acc + b.toNat) 0

@[simp] theorem length_beBits (len v : Nat) : (beBits len v).length = len := by
  induction len with
  | zero => rfl
  | succ len ih => simp [beBits, ih]

theorem foldl_be (bits : Bits) (acc : Nat) :
    bits.foldl (fun acc b => 2 * acc + b.toNat) acc = acc * 2 ^ bits.length + readBe bits := by
  induction bits generalizing acc with
  | nil => simp [readBe]
  | cons b bits ih =>
    have hcons : readBe (b :: bits) = b.toNat * 2 ^ bits.length + readBe bits := by
      rw [readBe, List.foldl_cons, ih]
      simp
    rw [List.foldl_cons, ih, hcons, List.length_cons, Nat.pow_succ]
    ring

theorem readBe_cons (x : Bool) (l : Bits) :
    readBe (x :: l) = x.toNat * 2 ^ l.length + readBe l := by
  rw [readBe, List.foldl_cons, foldl_be]
  simp

theorem readBe_append (l m : Bits) : readBe (l ++ m) = readBe l * 2 ^ m.length + readBe m := by
  rw [readBe, List.foldl_append, foldl_be]
  rfl

theorem readBe_lt (l : Bits) : readBe l < 2 ^ l.length := by
  induction l with
  | nil => simp [readBe]
  | cons x l ih =>
    rw [readBe, List.foldl_cons, foldl_be, List.length_cons, Nat.pow_succ]
    cases x <;> simp <;> omega

theorem readBe_inj {l m : Bits} (hlen : l.length = m.length) (h : readBe l = readBe m) : l = m := by
  induction l generalizing m with
  | nil => exact (List.eq_nil_of_length_eq_zero hlen.symm).symm
  | cons x l ih =>
    cases m with
    | nil => simp at hlen
    | cons y m =>
      have hlen' : l.length = m.length := by simpa using hlen
      have hl := readBe_lt l
      have hm := readBe_lt m
      rw [readBe_cons, readBe_cons, hlen'] at h
      rw [hlen'] at hl
      cases x <;> cases y <;> simp at h <;> first
        | (rw [ih hlen' h])
        | omega

/-- Numbers of one length compare by the first bit in which they differ. -/
theorem readBe_map_le {f g : Nat → Bool} {n : Nat}
    (h : ∀ c < n, (∀ e < c, f e = g e) → f c = true → g c = true) :
    readBe ((List.range n).map f) ≤ readBe ((List.range n).map g) := by
  induction n with
  | zero => exact Nat.le_refl _
  | succ n ih =>
    have hle := ih fun c hc => h c (Nat.lt_succ_of_lt hc)
    have hsnoc : ∀ f : Nat → Bool, readBe ((List.range (n + 1)).map f) =
        readBe ((List.range n).map f) * 2 + (f n).toNat := by
      intro f
      rw [List.range_succ, List.map_append, readBe_append]
      simp [readBe]
    rw [hsnoc, hsnoc]
    have hf := Bool.toNat_le (f n)
    rcases Nat.lt_or_eq_of_le hle with hlt | heq
    · omega
    · have hsame := readBe_inj (by simp only [List.length_map]) heq
      have hlast := h n (Nat.lt_succ_self n) fun e he => List.map_inj_left.mp hsame e (List.mem_range.mpr he)
      have hbits : (f n).toNat ≤ (g n).toNat := by
        cases hfn : f n with
        | false => exact Nat.zero_le _
        | true => rw [hlast hfn]
      omega

theorem readBe_beBits (len v : Nat) : readBe (beBits len v) = v % 2 ^ len := by
  induction len with
  | zero => simp [beBits, readBe, Nat.mod_one]
  | succ len ih =>
    rw [beBits, readBe, List.foldl_cons, foldl_be, ih, length_beBits, Nat.mod_pow_succ,
      Nat.toNat_testBit]
    ring

end BitCode
