import FawnKV.Cindex.BucketingIndex
import FawnKV.Lib.Checked
import Mathlib.Data.Nat.Log

/-! `twolevel_absoff_bucketing`: offsets of 16 bits, each above the last pair of the group before. -/
namespace FawnKV.Cindex

open Checked

def sub64 (a b : Nat) : Nat := (a + 2 ^ 64 - b) % 2 ^ 64

/-- There is memory for both arrays. -/
structure TwolevelAbsoff where
  size : Nat
  upperBucketSize : Nat
  bucketInfo : List (Nat × Nat)
  upperBucketInfo : List (Nat × Nat)
  currentI : Nat
deriving DecidableEq

namespace TwolevelAbsoff

def bitsPerKeyBound : Nat := 4

def resize (size keysPerBucket : Nat) : Except Fault TwolevelAbsoff := do
  let fitting ← quotient (2 ^ 16) (bitsPerKeyBound * keysPerBucket % 2 ^ 64)
  let upperBucketSize := if fitting = 0 then 1 else fitting
  let groups ← quotient size upperBucketSize
  let upperBucketInfo ← set (List.replicate (groups + 2) (0, 0)) 0 (0, 0)
  .ok { size, upperBucketSize, bucketInfo := List.replicate size (0, 0), upperBucketInfo, currentI := 0 }

section Functions

variable (t : TwolevelAbsoff)

/-- `upper_index_offset` and `upper_dest_offset`. -/
def upperOffsets (i : Nat) : Except Fault (Nat × Nat) := do
  let groups ← quotient t.size t.upperBucketSize
  let _ ← require (i < groups + 1)
  get t.upperBucketInfo i

def insert (indexOffset destOffset : Nat) : Except Fault TwolevelAbsoff := do
  let _ ← require (t.currentI < t.size)
  let group ← quotient t.currentI t.upperBucketSize
  let base ← t.upperOffsets group
  let bucketInfo ← set t.bucketInfo t.currentI
    (sub64 indexOffset base.1 % 2 ^ 16, sub64 destOffset base.2 % 2 ^ 16)
  let upperBucketInfo ← set t.upperBucketInfo (group + 1) (indexOffset % 2 ^ 32, destOffset % 2 ^ 32)
  .ok { t with bucketInfo, upperBucketInfo, currentI := t.currentI + 1 }

def inserts (t : TwolevelAbsoff) : List (Nat × Nat) → Except Fault TwolevelAbsoff
  | [] => .ok t
  | p :: pairs => do
    let t ← t.insert p.1 p.2
    inserts t pairs

/-- `index_offset` and `dest_offset`. -/
def offsets (i : Nat) : Except Fault (Nat × Nat) := do
  let _ ← require (i < t.size)
  let group ← quotient i t.upperBucketSize
  let base ← t.upperOffsets group
  let info ← get t.bucketInfo i
  .ok ((base.1 + info.1) % 2 ^ 64, (base.2 + info.2) % 2 ^ 64)

end Functions

/-- The pair that the offsets of a group are stored against: the last one before the group. -/
def base (pairs : List (Nat × Nat)) (groupSize group : Nat) : Nat × Nat :=
  if group = 0 then (0, 0) else pairs.getD (group * groupSize - 1) (0, 0)

/-- The places of a group, as many as would fill 16 bits with four bits for each key. -/
def groupSize (keysPerBucket : Nat) : Nat := max 1 (2 ^ 16 / (bitsPerKeyBound * keysPerBucket % 2 ^ 64))

/-- The offsets of every place fit in 16 bits above the base of its group. -/
def Fits (pairs : List (Nat × Nat)) (groupSize : Nat) : Prop :=
  ∀ i p, pairs[i]? = some p →
    p.1 < (base pairs groupSize (i / groupSize)).1 + 2 ^ 16 ∧
      p.2 < (base pairs groupSize (i / groupSize)).2 + 2 ^ 16

/-- The pairs that `bucketing_index` inserts: two growing sequences of offsets below `2 ^ 32`. -/
structure Growing (pairs : List (Nat × Nat)) : Prop where
  pairwise : pairs.Pairwise fun p q => p.1 ≤ q.1 ∧ p.2 ≤ q.2
  lt : ∀ p ∈ pairs, p.1 < 2 ^ 32 ∧ p.2 < 2 ^ 32

/-- The arrays after some inserts. -/
structure Holds (t : TwolevelAbsoff) (size groupSize : Nat) (pairs : List (Nat × Nat)) : Prop where
  groupSize_pos : 0 < groupSize
  size_eq : t.size = size
  upperBucketSize : t.upperBucketSize = groupSize
  length_info : t.bucketInfo.length = size
  length_upper : t.upperBucketInfo.length = size / groupSize + 2
  currentI : t.currentI = pairs.length
  upper : ∀ g, g * groupSize ≤ pairs.length → g ≤ size / groupSize →
    t.upperBucketInfo[g]? = some (base pairs groupSize g)
  info : ∀ i p, pairs[i]? = some p → t.bucketInfo[i]? =
    some (sub64 p.1 (base pairs groupSize (i / groupSize)).1 % 2 ^ 16,
      sub64 p.2 (base pairs groupSize (i / groupSize)).2 % 2 ^ 16)

section Inserts

variable {size keysPerBucket n i g : Nat} {t : TwolevelAbsoff} {pairs rest : List (Nat × Nat)} {p : Nat × Nat}

theorem resize_ok (h : bitsPerKeyBound * keysPerBucket % 2 ^ 64 ≠ 0) (size : Nat) :
    ∃ t, resize size keysPerBucket = .ok t ∧ Holds t size (groupSize keysPerBucket) [] := by
  have hgroup : (if 2 ^ 16 / (bitsPerKeyBound * keysPerBucket % 2 ^ 64) = 0 then 1
      else 2 ^ 16 / (bitsPerKeyBound * keysPerBucket % 2 ^ 64)) = groupSize keysPerBucket := by
    rw [groupSize]
    split
    · rename_i hzero
      rw [hzero]
      rfl
    · rename_i hne
      exact (Nat.max_eq_right (Nat.pos_of_ne_zero hne)).symm
  have hpos : 0 < groupSize keysPerBucket := Nat.le_max_left 1 _
  rw [resize, quotient_ok (Nat.pos_of_ne_zero h), ok_bind]
  dsimp only
  rw [hgroup, quotient_ok hpos, ok_bind, set_ok (by rw [List.length_replicate]; exact Nat.succ_pos _), ok_bind]
  refine ⟨_, rfl, hpos, rfl, rfl, List.length_replicate, ?_, rfl, fun g hg _ => ?_, fun i p hp => nomatch hp⟩
  · rw [List.length_set, List.length_replicate]
  · obtain rfl : g = 0 := by
      rcases Nat.mul_eq_zero.mp (Nat.le_zero.mp hg) with hzero | hzero
      · exact hzero
      · omega
    rfl

theorem base_append (hpos : 0 < n) (h : g * n ≤ pairs.length) (rest : List (Nat × Nat)) :
    base (pairs ++ rest) n g = base pairs n g := by
  rw [base, base]
  by_cases hg : g = 0
  · rw [if_pos hg, if_pos hg]
  · rw [if_neg hg, if_neg hg]
    have hlt := Nat.mul_pos (Nat.pos_of_ne_zero hg) hpos
    rw [List.getD_append _ _ _ _ (by omega)]

theorem upperOffsets_ok (h : Holds t size n pairs) (hg : g * n ≤ pairs.length) (hle : g ≤ size / n) :
    t.upperOffsets g = .ok (base pairs n g) := by
  rw [upperOffsets, h.upperBucketSize, h.size_eq, quotient_ok h.groupSize_pos, ok_bind,
    require_ok (Nat.lt_succ_of_le hle), ok_bind, get_ok (h.upper g hg hle)]

theorem insert_ok (h : Holds t size n pairs) (hlt : pairs.length < size) (hp : p.1 < 2 ^ 32 ∧ p.2 < 2 ^ 32) :
    ∃ t', t.insert p.1 p.2 = .ok t' ∧ Holds t' size n (pairs ++ [p]) := by
  have hpos := h.groupSize_pos
  have hdiv : pairs.length / n * n ≤ pairs.length := Nat.div_mul_le_self _ _
  have hnext : pairs.length < (pairs.length / n + 1) * n := by
    rw [Nat.add_mul, Nat.one_mul, Nat.mul_comm]
    exact Nat.lt_mul_div_succ _ hpos
  have hle : pairs.length / n ≤ size / n := Nat.div_le_div_right (Nat.le_of_lt hlt)
  have hupper : pairs.length / n + 1 < t.upperBucketInfo.length := by
    rw [h.length_upper]
    exact Nat.lt_succ_of_le (Nat.succ_le_succ hle)
  have hlength : (pairs ++ [p]).length = pairs.length + 1 := List.length_append
  rw [insert, h.currentI, h.size_eq, require_ok hlt, ok_bind, h.upperBucketSize, quotient_ok hpos, ok_bind,
    upperOffsets_ok h hdiv hle, ok_bind, set_ok (by rw [h.length_info]; exact hlt), ok_bind,
    set_ok hupper, ok_bind, Nat.mod_eq_of_lt hp.1, Nat.mod_eq_of_lt hp.2]
  refine ⟨_, rfl, hpos, rfl, rfl, ?_, ?_, hlength.symm, fun g hg hgsize => ?_, fun i q hq => ?_⟩
  · exact (List.length_set ..).trans h.length_info
  · exact (List.length_set ..).trans h.length_upper
  · rw [hlength] at hg
    by_cases hlast : g = pairs.length / n + 1
    · -- the group is full, and its last pair is the base of the next one
      have hfull : g * n - 1 = pairs.length := by
        rw [← hlast] at hnext
        omega
      have hg0 : g ≠ 0 := hlast ▸ Nat.succ_ne_zero _
      show (t.upperBucketInfo.set (pairs.length / n + 1) p)[g]? = _
      rw [← hlast, List.getElem?_set_self (hlast ▸ hupper), base, if_neg hg0, hfull,
        List.getD_append_right _ _ _ _ (Nat.le_refl _), Nat.sub_self]
      rfl
    · have hold : g * n ≤ pairs.length := by
        by_contra hgt
        have hlow : pairs.length / n < g :=
          Nat.lt_of_mul_lt_mul_right (Nat.lt_of_le_of_lt hdiv (Nat.lt_of_not_le hgt))
        have hhigh : g ≤ pairs.length / n + 1 := Nat.le_of_mul_le_mul_right (Nat.le_trans hg hnext) hpos
        exact hlast (Nat.le_antisymm hhigh hlow)
      show (t.upperBucketInfo.set (pairs.length / n + 1) p)[g]? = _
      rw [List.getElem?_set_ne (Ne.symm hlast), h.upper g hold hgsize, base_append hpos hold]
  · have hgroup : i / n * n ≤ i := Nat.div_mul_le_self _ _
    rcases Nat.lt_or_ge i pairs.length with hold | hnew
    · rw [List.getElem?_append_left hold] at hq
      show (t.bucketInfo.set pairs.length _)[i]? = _
      rw [List.getElem?_set_ne (Nat.ne_of_gt hold), h.info i q hq, base_append hpos (by omega)]
    · obtain rfl : i = pairs.length := by
        have := (List.getElem?_eq_some_iff.mp hq).1
        omega
      rw [List.getElem?_append_right hnew, Nat.sub_self] at hq
      obtain rfl : p = q := Option.some.inj hq
      rw [base_append hpos hgroup]
      exact List.getElem?_set_self (h.length_info ▸ hlt)

theorem inserts_ok (h : Holds t size n pairs) (hsize : (pairs ++ rest).length ≤ size)
    (hrest : ∀ p ∈ rest, p.1 < 2 ^ 32 ∧ p.2 < 2 ^ 32) :
    ∃ t', t.inserts rest = .ok t' ∧ Holds t' size n (pairs ++ rest) := by
  induction rest generalizing t pairs with
  | nil => exact ⟨t, rfl, (List.append_nil pairs).symm ▸ h⟩
  | cons p rest ih =>
    obtain ⟨hp, hrest⟩ := List.forall_mem_cons.mp hrest
    have hlt : pairs.length < size := by
      rw [List.length_append, List.length_cons] at hsize
      omega
    obtain ⟨t', hinsert, h'⟩ := insert_ok h hlt hp
    have hassoc : pairs ++ p :: rest = pairs ++ [p] ++ rest := List.append_cons ..
    rw [hassoc] at hsize ⊢
    obtain ⟨t'', hrun, h''⟩ := ih h' hsize hrest
    exact ⟨t'', by rw [inserts, hinsert, ok_bind, hrun], h''⟩

end Inserts

section Offsets

variable {size n i : Nat} {t : TwolevelAbsoff} {pairs : List (Nat × Nat)} {p : Nat × Nat}

theorem Growing.getElem? (h : Growing pairs) {j : Nat} {q : Nat × Nat} (hi : pairs[i]? = some p)
    (hj : pairs[j]? = some q) (hle : j ≤ i) : q.1 ≤ p.1 ∧ q.2 ≤ p.2 := by
  rcases Nat.eq_or_lt_of_le hle with rfl | hlt
  · obtain rfl : q = p := Option.some.inj (hj.symm.trans hi)
    exact ⟨Nat.le_refl _, Nat.le_refl _⟩
  · obtain ⟨hjlen, rfl⟩ := List.getElem?_eq_some_iff.mp hj
    obtain ⟨hilen, rfl⟩ := List.getElem?_eq_some_iff.mp hi
    exact List.pairwise_iff_getElem.mp h.pairwise j i hjlen hilen hlt

theorem Growing.base_le (h : Growing pairs) (n : Nat) (hi : pairs[i]? = some p) :
    (base pairs n (i / n)).1 ≤ p.1 ∧ (base pairs n (i / n)).2 ≤ p.2 := by
  rw [base]
  split
  · exact ⟨Nat.zero_le _, Nat.zero_le _⟩
  · have hgroup : i / n * n ≤ i := Nat.div_mul_le_self _ _
    have hlen := (List.getElem?_eq_some_iff.mp hi).1
    have hbefore : i / n * n - 1 < pairs.length := by omega
    refine h.getElem? hi (j := i / n * n - 1) ?_ (by omega)
    rw [List.getD_eq_getElem _ _ hbefore, List.getElem?_eq_getElem hbefore]

theorem sub64_eq {a b : Nat} (hle : b ≤ a) (hlt : a < 2 ^ 64) : sub64 a b = a - b := by
  rw [sub64]
  omega

/-- A remainder of 16 bits gives the offset back where it fits. -/
theorem add_remainder_eq {a b : Nat} (hle : b ≤ a) (hlt : a < 2 ^ 32) :
    (b + sub64 a b % 2 ^ 16) % 2 ^ 64 = a ↔ a < b + 2 ^ 16 := by
  rw [sub64_eq hle (by omega)]
  omega

theorem offsets_ok (h : Holds t size n pairs) (hlen : pairs.length ≤ size) (hi : pairs[i]? = some p) :
    t.offsets i = .ok
      (((base pairs n (i / n)).1 + sub64 p.1 (base pairs n (i / n)).1 % 2 ^ 16) % 2 ^ 64,
        ((base pairs n (i / n)).2 + sub64 p.2 (base pairs n (i / n)).2 % 2 ^ 16) % 2 ^ 64) := by
  have hlt := (List.getElem?_eq_some_iff.mp hi).1
  have hgroup : i / n * n ≤ pairs.length := Nat.le_trans (Nat.div_mul_le_self _ _) (Nat.le_of_lt hlt)
  have hle : i / n ≤ size / n := Nat.div_le_div_right (Nat.le_of_lt (Nat.lt_of_lt_of_le hlt hlen))
  rw [offsets, h.size_eq, require_ok (Nat.lt_of_lt_of_le hlt hlen), ok_bind, h.upperBucketSize,
    quotient_ok h.groupSize_pos, ok_bind, upperOffsets_ok h hgroup hle, ok_bind,
    get_ok (h.info i p hi), ok_bind]

theorem resize_error {keysPerBucket : Nat} (h : bitsPerKeyBound * keysPerBucket % 2 ^ 64 = 0) (size : Nat) :
    resize size keysPerBucket = .error .divisionByZero := by
  rw [resize, h, quotient_zero, error_bind]

/-- What was inserted is returned, if and only if the arrays can be made and every offset fits in 16 bits above
the last pair of the group before. -/
theorem offsets_iff (size keysPerBucket : Nat) (pairs : List (Nat × Nat)) (hlen : pairs.length ≤ size)
    (h : Growing pairs) :
    (∃ t, (resize size keysPerBucket >>= fun t => t.inserts pairs) = .ok t ∧
      ∀ i p, pairs[i]? = some p → t.offsets i = .ok p) ↔
    bitsPerKeyBound * keysPerBucket % 2 ^ 64 ≠ 0 ∧ Fits pairs (groupSize keysPerBucket) := by
  by_cases hzero : bitsPerKeyBound * keysPerBucket % 2 ^ 64 = 0
  · rw [resize_error hzero, error_bind]
    exact iff_of_false (fun ⟨_, hrun, _⟩ => nomatch hrun) fun hne => hne.1 hzero
  · obtain ⟨t₀, hresize, h₀⟩ := resize_ok hzero size
    obtain ⟨t, hrun, ht⟩ := inserts_ok h₀ hlen h.lt
    rw [List.nil_append] at ht
    have hback : ∀ i p, pairs[i]? = some p → (t.offsets i = .ok p ↔
        p.1 < (base pairs (groupSize keysPerBucket) (i / groupSize keysPerBucket)).1 + 2 ^ 16 ∧
          p.2 < (base pairs (groupSize keysPerBucket) (i / groupSize keysPerBucket)).2 + 2 ^ 16) := by
      intro i p hi
      have hbase := h.base_le (groupSize keysPerBucket) hi
      have hlt := h.lt p (List.mem_of_getElem? hi)
      rw [offsets_ok ht hlen hi, Except.ok.injEq, Prod.ext_iff, add_remainder_eq hbase.1 hlt.1,
        add_remainder_eq hbase.2 hlt.2]
    rw [hresize, ok_bind]
    constructor
    · rintro ⟨t', hrun', hall⟩
      cases hrun.symm.trans hrun'
      exact ⟨hzero, fun i p hi => (hback i p hi).mp (hall i p hi)⟩
    · rintro ⟨-, hfits⟩
      exact ⟨t, hrun, fun i p hi => (hback i p hi).mpr (hfits i p hi)⟩

theorem growing_skewed : Growing [(0, 0), (70000, 70000)] := ⟨by simp, by simp⟩

/-- One bucket with so many keys that the next offsets do not fit above zero. -/
theorem offsets_skewed : Growing [(0, 0), (70000, 70000)] ∧
    (resize 2 1 >>= fun t => t.inserts [(0, 0), (70000, 70000)] >>= fun t => t.offsets 1) = .ok (4464, 4464) :=
  ⟨growing_skewed, by decide⟩

theorem offsets_iff_two : (∃ t, (resize 3 1 >>= fun t => t.inserts [(0, 0), (9, 5)]) = .ok t ∧
      ∀ i p, [(0, 0), (9, 5)][i]? = some p → t.offsets i = .ok p) ↔
    bitsPerKeyBound * 1 % 2 ^ 64 ≠ 0 ∧ Fits [(0, 0), (9, 5)] (groupSize 1) :=
  offsets_iff 3 1 [(0, 0), (9, 5)] (by decide) ⟨by simp, by simp⟩

end Offsets

end TwolevelAbsoff

end FawnKV.Cindex
