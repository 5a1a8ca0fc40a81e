import Mathlib.Data.List.Basic
import Mathlib.Algebra.Group.Nat.Defs

/-! Byte strings as files: positioned reads and writes, little-endian numbers. -/
namespace ByteFile

abbrev Bytes := List UInt8

/-- `pread`: at most `count` bytes from `offset`, fewer at the end of the file. -/
def pread (f : Bytes) (count offset : Nat) : Bytes := (f.drop offset).take count

/-- `pwrite`: a write past the end leaves a hole of zero bytes. -/
def pwrite (f : Bytes) (data : Bytes) (offset : Nat) : Bytes :=
  f.take offset ++ List.replicate (offset - f.length) 0 ++ data ++ f.drop (offset + data.length)

theorem pwrite_length (f data : Bytes) : pwrite f data f.length = f ++ data := by
  simp [pwrite]

theorem pread_append_length (f g : Bytes) (count : Nat) :
    pread (f ++ g) count f.length = g.take count := by
  simp [pread]

section Regions

variable {f data : Bytes} {count offset i : Nat}

theorem getElem?_pread : (pread f count offset)[i]? = if i < count then f[offset + i]? else none := by
  rw [pread, List.getElem?_take, List.getElem?_drop]

/-- A byte of the file after a write: of the data, of the file before, or of the hole between. -/
theorem getElem?_pwrite : (pwrite f data offset)[i]? =
    if i < offset then (if i < f.length then f[i]? else some 0)
    else if i < offset + data.length then data[i - offset]? else f[i]? := by
  have hlen : (f.take offset ++ List.replicate (offset - f.length) 0).length = offset := by
    rw [List.length_append, List.length_take, List.length_replicate]
    omega
  rw [pwrite, List.append_assoc]
  by_cases hi : i < offset
  · rw [if_pos hi, List.getElem?_append_left (by omega)]
    by_cases hf : i < f.length
    · rw [if_pos hf, List.getElem?_append_left (by rw [List.length_take]; omega), List.getElem?_take,
        if_pos hi]
    · rw [if_neg hf, List.getElem?_append_right (by rw [List.length_take]; omega),
        List.getElem?_replicate, List.length_take, if_pos (by omega)]
  · rw [if_neg hi, List.getElem?_append_right (by omega), hlen]
    by_cases hd : i < offset + data.length
    · rw [if_pos hd, List.getElem?_append_left (by omega)]
    · rw [if_neg hd, List.getElem?_append_right (by omega), List.getElem?_drop]
      congr 1
      omega

theorem length_pwrite : (pwrite f data offset).length = max f.length (offset + data.length) := by
  simp only [pwrite, List.length_append, List.length_take, List.length_replicate, List.length_drop]
  omega

/-- The data written is read back. -/
theorem pread_pwrite_self : pread (pwrite f data offset) data.length offset = data := by
  refine List.ext_getElem? fun i => ?_
  rw [getElem?_pread, getElem?_pwrite]
  by_cases hi : i < data.length
  · rw [if_pos hi, if_neg (by omega), if_pos (by omega), Nat.add_sub_cancel_left]
  · rw [if_neg hi, List.getElem?_eq_none (by omega)]

/-- A region of the file that the write does not meet is read as before. -/
theorem pread_pwrite_of_disjoint {offset' : Nat} (hin : offset' + count ≤ f.length)
    (hdisj : offset' + count ≤ offset ∨ offset + data.length ≤ offset') :
    pread (pwrite f data offset) count offset' = pread f count offset' := by
  refine List.ext_getElem? fun i => ?_
  rw [getElem?_pread, getElem?_pread, getElem?_pwrite]
  by_cases hi : i < count
  · rw [if_pos hi, if_pos hi]
    rcases hdisj with hbefore | hafter
    · rw [if_pos (by omega), if_pos (by omega)]
    · rw [if_neg (by omega), if_neg (by omega)]
  · rw [if_neg hi, if_neg hi]

/-- The bytes before a write are those of the file before. -/
theorem take_pwrite {n : Nat} (hn : n ≤ offset) (hlen : n ≤ f.length) :
    (pwrite f data offset).take n = f.take n := by
  refine List.ext_getElem? fun i => ?_
  rw [List.getElem?_take, List.getElem?_take, getElem?_pwrite]
  by_cases hi : i < n
  · rw [if_pos hi, if_pos hi, if_pos (by omega), if_pos (by omega)]
  · rw [if_neg hi, if_neg hi]

/-- A file cut behind a write ends with the data written. -/
theorem take_pwrite_end (h : offset ≤ f.length) :
    (pwrite f data offset).take (offset + data.length) = f.take offset ++ data := by
  have hhole : offset - f.length = 0 := by omega
  rw [pwrite, hhole, List.replicate_zero, List.append_nil]
  apply List.take_left'
  rw [List.length_append, List.length_take, Nat.min_eq_left h]

theorem pread_pread {count' offset' : Nat} (h : offset' + count' ≤ count) :
    pread (pread f count offset) count' offset' = pread f count' (offset + offset') := by
  refine List.ext_getElem? fun i => ?_
  rw [getElem?_pread, getElem?_pread, getElem?_pread]
  by_cases hi : i < count'
  · rw [if_pos hi, if_pos hi, if_pos (by omega), Nat.add_assoc]
  · rw [if_neg hi, if_neg hi]

end Regions

section Records

variable {α : Type} {enc : α → Bytes} {w : Nat} {l : List α}

theorem length_records (h : ∀ x ∈ l, (enc x).length = w) : (l.flatMap enc).length = w * l.length := by
  induction l with
  | nil => rfl
  | cons x l ih =>
    rw [List.flatMap_cons, List.length_append, h x List.mem_cons_self,
      ih fun y hy => h y (List.mem_cons_of_mem x hy), List.length_cons, Nat.mul_succ, Nat.add_comm]

/-- The `i`-th of records of one width. -/
theorem pread_records (h : ∀ x ∈ l, (enc x).length = w) {i : Nat} (hi : i < l.length) :
    pread (l.flatMap enc) w (w * i) = enc l[i] := by
  induction l generalizing i with
  | nil => exact absurd hi (Nat.not_lt_zero i)
  | cons x l ih =>
    have hx := h x List.mem_cons_self
    cases i with
    | zero =>
      rw [pread, Nat.mul_zero, List.drop_zero, List.flatMap_cons, List.take_left' hx]
      rfl
    | succ i =>
      have hrest := ih (fun y hy => h y (List.mem_cons_of_mem x hy)) (Nat.lt_of_succ_lt_succ hi)
      rw [pread, Nat.mul_succ, Nat.add_comm, ← List.drop_drop, List.flatMap_cons, List.drop_left' hx]
      exact hrest

end Records

/-- The `w` low-order bytes of `n`, least significant first. -/
def leBytes : Nat → Nat → Bytes
  | 0, _ => []
  | w + 1, n => UInt8.ofNat n :: leBytes w (n / 256)

/-- The number a little-endian byte string stands for. -/
def readLe : Bytes → Nat
  | [] => 0
  | b :: bs => b.toNat + 256 * readLe bs

@[simp] theorem length_leBytes (w n : Nat) : (leBytes w n).length = w := by
  induction w generalizing n with
  | zero => rfl
  | succ w ih => simp [leBytes, ih]

theorem readLe_leBytes {w n : Nat} (h : n < 256 ^ w) : readLe (leBytes w n) = n := by
  induction w generalizing n with
  | zero => simp at h; simp [leBytes, readLe, h]
  | succ w ih =>
    have hd : n / 256 < 256 ^ w := by
      rw [Nat.pow_succ] at h
      exact Nat.div_lt_of_lt_mul (by omega)
    simp only [leBytes, readLe, ih hd, UInt8.toNat_ofNat']
    omega

theorem readLe_lt (b : Bytes) : readLe b < 256 ^ b.length := by
  induction b with
  | nil => exact Nat.one_pos
  | cons x b ih =>
    have hx := x.toNat_lt
    rw [readLe, List.length_cons, Nat.pow_succ]
    omega

theorem readLe_replicate_zero (n : Nat) : readLe (List.replicate n 0) = 0 := by
  induction n with
  | zero => rfl
  | succ n ih =>
    rw [List.replicate_succ, readLe, ih]
    rfl

end ByteFile
