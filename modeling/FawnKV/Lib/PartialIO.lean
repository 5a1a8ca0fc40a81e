import Mathlib.Algebra.Order.BigOperators.Group.List
import Mathlib.Algebra.Order.Group.Int
import FawnKV.Lib.ByteFile
import Mathlib.Algebra.Order.Ring.Int

/-! Loops that move a block of memory to or from a file, where a call may move fewer bytes than it is
asked for. `place` says where in the block a call works when so many bytes have been moved. -/
namespace PartialIO

open ByteFile

/-- `while ((n = pwrite(fd, block + place, length, offset)) > 0)`, with the check for errors in its
body. The calls return `results`, and then 0. -/
def writeLoop (place : Nat → Nat) (block : Bytes) (offset : Nat) :
    List Int → Nat → Bytes → Bool × Bytes
  | [], _, file => (true, file)
  | n :: results, moved, file =>
    if 0 < n then
      let file := pwrite file (pread block n.toNat (place moved)) (offset + moved)
      if n < 0 then (false, file) else writeLoop place block offset results (moved + n.toNat) file
    else (true, file)

/-- `while ((n = pread(fd, block + place, length, offset)) > 0)`. There is no result when a call writes
behind the end of the block. -/
def readLoop (place : Nat → Nat) (file : Bytes) (offset : Nat) :
    List Int → Nat → Bytes → Option (Bool × Bytes)
  | [], _, block => some (true, block)
  | n :: results, moved, block =>
    if 0 < n then
      let piece := pread file n.toNat (offset + moved)
      if block.length < place moved + piece.length then none
      else
        let block := pwrite block piece (place moved)
        if n < 0 then some (false, block)
        else readLoop place file offset results (moved + n.toNat) block
    else some (true, block)

/-- The calls move `length` bytes in pieces of positive length. -/
structure Splits (results : List Int) (length : Nat) : Prop where
  positive : ∀ n ∈ results, 0 < n
  sum : results.sum = length

/-- A call returns -1 when the calls before it have moved less than `length` bytes. -/
def FailsPartWay (results : List Int) (length : Nat) : Prop :=
  ∃ pieces rest, results = pieces ++ -1 :: rest ∧ (∀ n ∈ pieces, 0 < n) ∧ pieces.sum < (length : Int)

section Loops

variable {place : Nat → Nat} {block block' file : Bytes} {offset length moved : Nat} {n : Int}
  {results : List Int}

theorem writeLoop_cons (hn : 0 < n) : writeLoop place block offset (n :: results) moved file =
    writeLoop place block offset results (moved + n.toNat)
      (pwrite file (pread block n.toNat (place moved)) (offset + moved)) := by
  rw [writeLoop, if_pos hn]
  exact if_neg (by omega)

/-- The condition of the loop leaves the check in its body nothing to find. -/
theorem writeLoop_fst : (writeLoop place block offset results moved file).1 = true := by
  induction results generalizing moved file with
  | nil => rfl
  | cons n results ih =>
    by_cases hn : 0 < n
    · rw [writeLoop_cons hn]
      exact ih
    · rw [writeLoop, if_neg hn]

theorem readLoop_cons (hn : 0 < n) : readLoop place file offset (n :: results) moved block =
    if block.length < place moved + (pread file n.toNat (offset + moved)).length then none
    else readLoop place file offset results (moved + n.toNat)
      (pwrite block (pread file n.toNat (offset + moved)) (place moved)) := by
  rw [readLoop, if_pos hn]
  refine if_congr Iff.rfl rfl ?_
  exact if_neg (by omega)

theorem readLoop_ne_false : readLoop place file offset results moved block ≠ some (false, block') := by
  induction results generalizing moved block with
  | nil => simp [readLoop]
  | cons n results ih =>
    by_cases hn : 0 < n
    · rw [readLoop_cons hn]
      split
      · simp
      · exact ih
    · rw [readLoop, if_neg hn]
      simp

/-- Later calls leave alone what stands before them in the file. -/
theorem writeLoop_before {i : Nat} (hi : i < offset + moved) (hfile : i < file.length) :
    (writeLoop place block offset results moved file).2[i]? = file[i]? := by
  induction results generalizing moved file with
  | nil => rfl
  | cons n results ih =>
    by_cases hn : 0 < n
    · rw [writeLoop_cons hn, ih (by omega) (by rw [length_pwrite]; omega), getElem?_pwrite, if_pos hi,
        if_pos hfile]
    · rw [writeLoop, if_neg hn]

theorem length_le_writeLoop : file.length ≤ (writeLoop place block offset results moved file).2.length := by
  induction results generalizing moved file with
  | nil => exact Nat.le_refl _
  | cons n results ih =>
    by_cases hn : 0 < n
    · rw [writeLoop_cons hn]
      refine Nat.le_trans ?_ ih
      rw [length_pwrite]
      exact Nat.le_max_left _ _
    · rw [writeLoop, if_neg hn]

theorem Splits.cons (h : Splits (n :: results) length) : 0 < n ∧ n.toNat ≤ length ∧
    Splits results (length - n.toNat) := by
  have hn := h.positive n List.mem_cons_self
  have hsum := h.sum
  rw [List.sum_cons] at hsum
  have hrest : 0 ≤ results.sum :=
    List.sum_nonneg fun m hm => (h.positive m (List.mem_cons_of_mem n hm)).le
  refine ⟨hn, by omega, fun m hm => h.positive m (List.mem_cons_of_mem n hm), ?_⟩
  omega

theorem Splits.nil (h : Splits [] length) : length = 0 := by
  have hsum := h.sum
  rw [List.sum_nil] at hsum
  omega

/-- One call moves the whole block. -/
theorem writeLoop_single (hplace : place 0 = 0) (h : Splits results block.length)
    (hone : results.length ≤ 1) : writeLoop place block offset results 0 file =
      (true, if block = [] then file else pwrite file block offset) := by
  match results, hone with
  | [], _ =>
    rw [if_pos (List.eq_nil_of_length_eq_zero h.nil)]
    rfl
  | [n], _ =>
    obtain ⟨hn, hle, hrest⟩ := h.cons
    have hlen := hrest.nil
    have hne : block ≠ [] := by
      rintro rfl
      simp only [List.length_nil] at hle
      omega
    rw [writeLoop_cons hn, if_neg hne, hplace, pread, List.drop_zero, List.take_of_length_le (by omega)]
    rfl

theorem readLoop_single (hplace : place 0 = 0) (h : Splits results block.length)
    (hone : results.length ≤ 1) (hfile : block ≠ [] → offset + block.length ≤ file.length) :
    readLoop place file offset results 0 block = some (true, pread file block.length offset) := by
  match results, hone with
  | [], _ =>
    rw [h.nil, pread, List.take_zero, List.eq_nil_of_length_eq_zero h.nil]
    rfl
  | [n], _ =>
    obtain ⟨hn, hle, hrest⟩ := h.cons
    have hlen : n.toNat = block.length := by
      have := hrest.nil
      omega
    have hfile : offset + block.length ≤ file.length := by
      refine hfile ?_
      rintro rfl
      simp only [List.length_nil] at hlen
      omega
    have hpiece : (pread file block.length offset).length = block.length := by
      rw [pread, List.length_take, List.length_drop]
      omega
    rw [readLoop_cons hn, hplace, hlen, Nat.add_zero, if_neg (by omega), readLoop]
    refine congrArg (fun b => some (true, b)) (List.ext_getElem? fun i => ?_)
    rw [getElem?_pwrite, hpiece, if_neg (Nat.not_lt_zero i)]
    by_cases hi : i < 0 + block.length
    · rw [if_pos hi, Nat.sub_zero]
    · rw [if_neg hi, List.getElem?_eq_none (by omega), List.getElem?_eq_none (by omega)]

/-- A second call takes its bytes from the start of the block again. -/
theorem writeLoop_again {n' : Int} (hn : 0 < n) (hn' : 0 < n') (hblock : block ≠ []) :
    (writeLoop (fun _ => 0) block offset (n :: n' :: results) 0 file).2[offset + n.toNat]? = block[0]? := by
  have hpos := List.length_pos_iff.mpr hblock
  have hpiece : 0 < (pread block n'.toNat 0).length := by
    rw [pread, List.length_take, List.length_drop]
    omega
  rw [writeLoop_cons hn, writeLoop_cons hn', writeLoop_before (by omega) (by rw [length_pwrite]; omega),
    getElem?_pwrite, if_neg (by omega), if_pos (by omega), getElem?_pread, if_pos (by omega)]
  congr 1
  omega

/-- Calls that all fill the start of the block leave the bytes behind the longest piece alone. -/
theorem readLoop_behind {ok : Bool} {i k : Nat} (hk : ∀ n ∈ results, n.toNat ≤ k) (hi : k ≤ i)
    (h : readLoop (fun _ => 0) file offset results moved block = some (ok, block')) :
    block'[i]? = block[i]? := by
  induction results generalizing moved block with
  | nil =>
    cases h
    rfl
  | cons n results ih =>
    by_cases hn : 0 < n
    · rw [readLoop_cons hn] at h
      split at h
      · cases h
      · rw [ih (fun m hm => hk m (List.mem_cons_of_mem n hm)) h, getElem?_pwrite, if_neg (Nat.not_lt_zero i)]
        have hpiece : (pread file n.toNat (offset + moved)).length ≤ k := by
          have hle := hk n List.mem_cons_self
          rw [pread, List.length_take]
          omega
        exact if_neg (by omega)
    · rw [readLoop, if_neg hn] at h
      cases h
      rfl

/-- Of two pieces or more, none is the whole block. -/
theorem Splits.lt_of_two (h : Splits results length) (htwo : 1 < results.length) :
    ∀ n ∈ results, n.toNat ≤ length - 1 := by
  match results, htwo with
  | a :: b :: rest, _ =>
    obtain ⟨ha, hale, htail⟩ := h.cons
    obtain ⟨hb, hble, -⟩ := htail.cons
    intro n hn
    rcases List.mem_cons.mp hn with rfl | hn
    · omega
    · have hle : n ≤ (b :: rest).sum := List.single_le_sum (fun m hm => (htail.positive m hm).le) n hn
      rw [htail.sum] at hle
      omega

/-- Calls that run ahead in the block write behind its end. -/
theorem readLoop_overrun (hplace : ∀ m, 0 < m → m < place m) (h : Splits results (block.length - moved))
    (hmoved : 0 < moved) (hlt : moved < block.length) (hfile : offset + block.length ≤ file.length) :
    readLoop place file offset results moved block = none := by
  induction results generalizing moved block with
  | nil => exact absurd h.nil (by omega)
  | cons n results ih =>
    obtain ⟨hn, hle, hrest⟩ := h.cons
    have hpiece : (pread file n.toNat (offset + moved)).length = n.toNat := by
      rw [pread, List.length_take, List.length_drop]
      omega
    have hahead := hplace moved hmoved
    rw [readLoop_cons hn, hpiece]
    split
    · rfl
    · rename_i hfits
      have hlen : (pwrite block (pread file n.toNat (offset + moved)) (place moved)).length = block.length := by
        rw [length_pwrite, hpiece]
        omega
      refine ih ?_ (by omega) ?_ ?_
      · rw [hlen, ← Nat.sub_sub]
        exact hrest
      · rw [hlen]
        omega
      · rw [hlen]
        exact hfile

theorem readLoop_two_overrun (hzero : place 0 = 0) (hplace : ∀ m, 0 < m → m < place m)
    (h : Splits results block.length) (htwo : 1 < results.length)
    (hfile : offset + block.length ≤ file.length) : readLoop place file offset results 0 block = none := by
  match results, htwo with
  | n :: n' :: rest, _ =>
    obtain ⟨hn, hle, hrest⟩ := h.cons
    obtain ⟨hn', hle', -⟩ := hrest.cons
    have hpiece : (pread file n.toNat offset).length = n.toNat := by
      rw [pread, List.length_take, List.length_drop]
      omega
    have hlen : (pwrite block (pread file n.toNat offset) 0).length = block.length := by
      rw [length_pwrite, hpiece]
      omega
    rw [readLoop_cons hn, hzero, Nat.add_zero, hpiece, if_neg (by omega), Nat.zero_add]
    refine readLoop_overrun hplace ?_ (by omega) ?_ ?_
    · rw [hlen]
      exact hrest
    · rw [hlen]
      omega
    · rw [hlen]
      exact hfile

theorem readLoop_two_behind {ok : Bool} (h : Splits results block.length) (htwo : 1 < results.length)
    (hread : readLoop (fun _ => 0) file offset results moved block = some (ok, block')) :
    block'[block.length - 1]? = block[block.length - 1]? :=
  readLoop_behind (h.lt_of_two htwo) (Nat.le_refl _) hread

theorem Splits.pos (h : Splits results length) (hne : results ≠ []) : 0 < length := by
  match results, hne with
  | n :: rest, _ =>
    obtain ⟨hn, hle, -⟩ := h.cons
    omega

end Loops

end PartialIO
