import FawnKV.Cindex.BitVectorOps
import FawnKV.Lib.Transition

/-! Sequences of calls of a `bit_vector`, beside the list of bits that the calls stand for. -/
namespace FawnKV.Cindex.BitVector

open Checked BitBlocks BitCode Transition

inductive Op where
  | pushBack (x : Bool)
  | popBack
  | appendVector {v : Nat} (r : BitVector v) (i len : Nat)
  | appendSelf (i len : Nat)
  | append {v : Nat} (r : List (BitVec v)) (i len : Nat)
  | appendInt {v : Nat} (x : BitVec v) (len : Nat)
  | clear
  | compact

/-- The call. -/
def Op.call {w : Nat} (b : BitVector w) : Op → Except Fault (BitVector w)
  | pushBack x => b.pushBack x
  | popBack => b.popBack
  | appendVector r i len => b.appendVector r i len
  | appendSelf i len => b.appendSelf i len
  | append r i len => b.append r i len
  | appendInt x len => b.appendInt x len
  | clear => .ok b.clear
  | compact => .ok b.compact

/-- What the call stands for. -/
def Op.apply (bits : Bits) : Op → Bits
  | pushBack x => bits ++ [x]
  | popBack => bits.dropLast
  | appendVector r i len => bits ++ (r.bits.drop i).take len
  | appendSelf i len => bits ++ (bits.drop i).take len
  | @append v r i len => bits ++ ((bitsOf r (r.length * v)).drop i).take len
  | appendInt x len => bits ++ beBits len x.toNat
  | clear => []
  | compact => bits

structure System (w : Nat) where
  vector : BitVector w
  bits : Bits

variable {w : Nat}

def start : System w := ⟨empty, []⟩

def step (s : System w) (op : Op) : Option (System w) :=
  match op.call s.vector with
  | .ok b => some ⟨b, op.apply s.bits⟩
  | .error _ => none

/-- The bits that a call takes are there. -/
def Valid (s : System w) : Op → Prop
  | .popBack | .compact => 0 < s.vector.size
  | .appendVector r i len => r.WellMade ∧ i + len ≤ r.size
  | .appendSelf i len => i + len ≤ s.vector.size
  | @Op.append v r i len => 0 < v ∧ i + len ≤ r.length * v
  | @Op.appendInt v _ len => 0 < v ∧ v ≤ 64 ∧ len ≤ v
  | .pushBack _ | .clear => True

/-- Of another vector, or of itself, the vector appends all bits. -/
def Whole (s : System w) : Op → Prop
  | .appendVector r _ len => len = r.size
  | .appendSelf _ len => len = s.vector.size
  | _ => True

/-- The vector shows the bits of the list, to `operator[]` and to `get`, and has zeros behind them. -/
structure Agrees (b : BitVector w) (bits : Bits) : Prop where
  size : b.size = bits.length
  bit : ∀ (i : Nat) (h : i < bits.length), b.bit i = .ok bits[i]
  get : ∀ v i len, 0 < v → len ≤ v → i + len ≤ bits.length →
    b.get v i len = .ok (BitVec.ofNat v (readBe ((bits.drop i).take len)))
  zeros : ∀ i, b.size ≤ i → i < b.buf.length * w → bitAt b.buf i = false

section Runs

variable {b : BitVector w} {s t : System w} {op : Op} {ops : List Op}

theorem agrees_iff (h : b.WellMade) (bits : Bits) : Agrees b bits ↔ b.bits = bits := by
  constructor
  · intro hagrees
    refine List.ext_getElem (length_bits.trans hagrees.size) fun i hi hi' => ?_
    have hbit := hagrees.bit i hi'
    rw [h.bit hi] at hbit
    exact Except.ok.inj hbit
  · rintro rfl
    refine ⟨length_bits.symm, fun i hi => h.bit hi, fun v i len hv hlen hle => ?_, fun i hi _ => h.zeros i hi⟩
    rw [length_bits] at hle
    exact h.get hv hlen hle

/-- A valid call is carried out; it does what it stands for exactly when it appends whole vectors. -/
theorem call_spec (h : s.vector.WellMade) (hvalid : Valid s op) :
    ∃ b, op.call s.vector = .ok b ∧ b.WellMade ∧
      (s.vector.bits = s.bits → (b.bits = op.apply s.bits ↔ Whole s op)) := by
  cases op with
  | pushBack x =>
    obtain ⟨b, hcall, hb, hbits⟩ := h.pushBack x
    exact ⟨b, hcall, hb, fun heq => iff_of_true (by rw [hbits, heq]; rfl) trivial⟩
  | popBack =>
    obtain ⟨b, hcall, hb, hbits⟩ := h.popBack hvalid
    exact ⟨b, hcall, hb, fun heq => iff_of_true (by rw [hbits, heq]; rfl) trivial⟩
  | appendVector r i len =>
    obtain ⟨b, hcall, hb, hbits⟩ := h.appendVector hvalid.1 hvalid.2
    refine ⟨b, hcall, hb, fun heq => ?_⟩
    have hle := hvalid.2
    rw [hbits, heq, Op.apply, Whole, List.append_right_eq_self, List.replicate_eq_nil_iff]
    omega
  | appendSelf i len =>
    obtain ⟨b, hcall, hb, hbits⟩ := h.appendSelf hvalid
    refine ⟨b, hcall, hb, fun heq => ?_⟩
    have hle : i + len ≤ s.vector.size := hvalid
    rw [hbits, heq, Op.apply, Whole, List.append_right_eq_self, List.replicate_eq_nil_iff]
    omega
  | append r i len =>
    obtain ⟨b, hcall, hb, hbits⟩ := h.append hvalid.1 hvalid.2
    refine ⟨b, hcall, hb, fun heq => iff_of_true ?_ trivial⟩
    rw [hbits, heq, Op.apply, range_bits hvalid.2]
  | appendInt x len =>
    obtain ⟨b, hcall, hb, hbits⟩ := h.appendInt x hvalid.1 hvalid.2.1 hvalid.2.2
    exact ⟨b, hcall, hb, fun heq => iff_of_true (by rw [hbits, heq]; rfl) trivial⟩
  | clear =>
    obtain ⟨hb, hbits⟩ := h.clear
    exact ⟨_, rfl, hb, fun _ => iff_of_true hbits trivial⟩
  | compact =>
    obtain ⟨hb, hbits⟩ := h.compact
    exact ⟨_, rfl, hb, fun heq => iff_of_true (by rw [hbits, heq]; rfl) trivial⟩

theorem step_spec (h : s.vector.WellMade) (hvalid : Valid s op) :
    ∃ t, step s op = some t ∧ t.vector.WellMade ∧
      (s.vector.bits = s.bits → (t.vector.bits = t.bits ↔ Whole s op)) := by
  obtain ⟨b, hcall, hb, hiff⟩ := call_spec h hvalid
  exact ⟨⟨b, op.apply s.bits⟩, by rw [step, hcall], hb, hiff⟩

/-- The vectors that valid calls make are well made, so that they can be appended to others. -/
theorem exists_run_wellMade (hw : 0 < w) (hvalid : Meets step Valid (start (w := w)) ops) :
    ∃ t, run step (start (w := w)) ops = some t ∧ t.vector.WellMade :=
  exists_run_of_meets (I := fun s : System w => s.vector.WellMade)
    (fun _ _ hvalid h => (step_spec h hvalid).imp fun _ ht => ⟨ht.1, ht.2.1⟩) hvalid (empty_wellMade hw)

/-- Over all sequences of valid calls, whatever the type of the blocks: the vector is the list of bits in every
state exactly as long as each `append` of a vector is of all its bits. -/
theorem bitVector_agrees_iff (hw : 0 < w) (ops : List Op) (hvalid : Meets step Valid (start (w := w)) ops) :
    ∃ t, run step (start (w := w)) ops = some t ∧
      (Always step (fun s : System w => Agrees s.vector s.bits) start ops ↔
        Meets step Whole (start (w := w)) ops) := by
  have hstart : (start (w := w)).vector.WellMade := empty_wellMade hw
  have hinv : ∀ (s : System w) op t, step s op = some t → Valid s op → s.vector.WellMade →
      t.vector.WellMade := by
    intro s op t ht hvalid h
    obtain ⟨t', ht', hmade, -⟩ := step_spec h hvalid
    rw [ht] at ht'
    cases ht'
    exact hmade
  obtain ⟨t, hrun, -⟩ := exists_run_wellMade hw hvalid
  refine ⟨t, hrun, always_iff_meets_of_assuming (I := fun s : System w => s.vector.WellMade) (A := Valid)
    hinv ?_ hrun hvalid hstart ?_⟩
  · intro s op t ht hvalid h hagrees
    obtain ⟨t', ht', hmade, hiff⟩ := step_spec h hvalid
    rw [ht] at ht'
    cases ht'
    rw [agrees_iff hmade]
    exact hiff ((agrees_iff h _).mp hagrees)
  · rw [agrees_iff hstart]
    rfl

theorem wellMade_two : (⟨[0xC0#8], 2, 8⟩ : BitVector 8).WellMade := by
  have hblock : ∀ i < 8, 2 ≤ i → bitAt [0xC0#8] i = false := by decide
  refine ⟨by decide, by decide, by decide, fun i hi => ?_⟩
  rcases Nat.lt_or_ge i 8 with hlt | hge
  · exact hblock i hlt hi
  · rw [bitAt, List.getD_eq_default _ _ (by rw [List.length_singleton]; omega)]
    exact BitVec.getMsbD_zero

/-- All bits of another vector are appended, and then all of the vector itself. -/
def wholeAppends : List Op :=
  [.pushBack false, .appendVector (v := 8) ⟨[0xC0#8], 2, 8⟩ 0 2, .popBack, .appendSelf 0 2]

theorem bitVector_agrees_iff_appends :
    ∃ t, run step (start (w := 8)) wholeAppends = some t ∧ t.bits = [false, true, false, true] ∧
      Always step (fun s : System 8 => Agrees s.vector s.bits) start wholeAppends := by
  have hvalid : Meets step Valid (start (w := 8)) wholeAppends := by
    refine ⟨trivial, fun s₁ h₁ => ?_⟩
    cases h₁
    refine ⟨⟨wellMade_two, by decide⟩, fun s₂ h₂ => ?_⟩
    cases h₂
    refine ⟨show 0 < 3 by decide, fun s₃ h₃ => ?_⟩
    cases h₃
    exact ⟨show 0 + 2 ≤ 2 by decide, fun _ _ => trivial⟩
  have hwhole : Meets step Whole (start (w := 8)) wholeAppends := by
    refine ⟨trivial, fun s₁ h₁ => ⟨rfl, fun s₂ h₂ => ⟨trivial, fun s₃ h₃ => ?_⟩⟩⟩
    cases h₁
    cases h₂
    cases h₃
    exact ⟨rfl, fun _ _ => trivial⟩
  obtain ⟨t, ht, hiff⟩ := bitVector_agrees_iff (by decide) wholeAppends hvalid
  have hbits : (run step (start (w := 8)) wholeAppends).map (fun t => t.bits) =
      some [false, true, false, true] := by decide +kernel
  rw [ht] at hbits
  exact ⟨t, ht, Option.some.inj hbits, hiff.mpr hwhole⟩

/-- One bit of a vector of two is appended. -/
theorem appendVector_part :
    Meets step Valid (start (w := 8)) [.appendVector ⟨[0xC0#8], 2, 8⟩ 0 1] ∧
      ∃ t, run step (start (w := 8)) [.appendVector ⟨[0xC0#8], 2, 8⟩ 0 1] = some t ∧
        t.bits = [true] ∧ t.vector.size = 2 ∧ ¬ Agrees t.vector t.bits := by
  refine ⟨⟨⟨wellMade_two, by decide⟩, fun _ _ => trivial⟩, _, rfl, by decide, rfl, fun hagrees => ?_⟩
  exact absurd hagrees.size (by decide)

end Runs

end FawnKV.Cindex.BitVector
