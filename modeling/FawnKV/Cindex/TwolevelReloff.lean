import FawnKV.Cindex.RelativeOffsets
import Mathlib.Tactic.LinearCombination

/-! `twolevel_reloff_bucketing`: groups of 29 buckets, with four bytes for the first one and one for each
other. -/
namespace FawnKV.Cindex.TwolevelReloff

open Checked EscapedDelta

def groupSize : Nat := 29
def deltaMask : Nat := 0xff
def baseIdx (i : Nat) : Nat := i / groupSize * (4 + (groupSize - 1))

section Functions

variable (m : List Nat)

/-- The array of pairs of bytes, one pair after the other. -/
def load (idx type : Nat) : Except Fault Nat := get m (2 * idx + type)

def store (idx type v : Nat) : Except Fault (List Nat) := set m (2 * idx + type) (v % 2 ^ 8)

def storeFirst (idx type v : Nat) : Except Fault (List Nat) := do
  let m ← store m (idx + 0) type ((v &&& 0xff000000) >>> 24)
  let m ← store m (idx + 1) type ((v &&& 0x00ff0000) >>> 16)
  let m ← store m (idx + 2) type ((v &&& 0x0000ff00) >>> 8)
  store m (idx + 3) type ((v &&& 0x000000ff) >>> 0)

def loadFirst (idx type : Nat) : Except Fault Nat := do
  let a ← load m (idx + 0) type
  let b ← load m (idx + 1) type
  let c ← load m (idx + 2) type
  let d ← load m (idx + 3) type
  .ok (a <<< 24 ||| b <<< 16 ||| c <<< 8 ||| d <<< 0)

def layout : Layout where
  groupSize := groupSize
  back _ := 1
  mask _ := deltaMask
  read m i type :=
    if i % groupSize = 0 then loadFirst m (baseIdx i) type else load m (baseIdx i + 4 + i % groupSize - 1) type
  write m i type v :=
    if i % groupSize = 0 then storeFirst m (baseIdx i) type v
    else store m (baseIdx i + 4 + i % groupSize - 1) type v

def resize (size : Nat) (keysPerBucket bitsPerBucket : BitVec 64) : Reloff :=
  let size := if size % groupSize ≠ 0 then (size + groupSize - 1) / groupSize * groupSize else size
  { size, keysPerBucket, bitsPerBucket
    bucketInfo := List.replicate (2 * (size / groupSize * (4 + (groupSize - 1)))) 0
    currentI := 0
    lastIndexOffsets := List.replicate groupSize 0
    lastDestOffsets := List.replicate groupSize 0
    overflow := [] }

variable (f : Int → Int) (t : Reloff)

def loadDelta (idx type id : Nat) : Except Fault (BitVec 64) := do
  let loaded ← load t.bucketInfo idx type
  t.loadDelta deltaMask loaded id

/-- The loop of `index_offset` with `rest` rounds to go. -/
def indexLoop : Nat → Nat → Nat → BitVec 64 → Except Fault (BitVec 64)
  | 0, _, _, v => .ok v
  | rest + 1, loadIdx, loadId, v => do
    let indexDelta ← loadDelta t loadIdx 0 loadId
    let destDelta ← loadDelta t loadIdx 1 (loadId + 1)
    indexLoop rest (loadIdx + 1) (loadId + 2) (v + indexDelta + BitVec.ofInt 64 (f destDelta.toInt))

def indexOffset (i : Nat) : Except Fault (BitVec 64) := do
  let _ ← require (i < t.size)
  let v ← loadFirst t.bucketInfo (baseIdx i) 0
  if i % groupSize ≠ 0 then
    let v ← indexLoop f t (i % groupSize) (baseIdx i + 4) ((i / groupSize * groupSize + 1) * 2 + 0)
      (BitVec.ofNat 64 v)
    .ok (v + BitVec.ofNat 64 (i % groupSize) * t.bitsPerBucket)
  else .ok (BitVec.ofNat 64 v)

def destLoop : Nat → Nat → Nat → BitVec 64 → Except Fault (BitVec 64)
  | 0, _, _, v => .ok v
  | rest + 1, loadIdx, loadId, v => do
    let destDelta ← loadDelta t loadIdx 1 loadId
    destLoop rest (loadIdx + 1) (loadId + 2) (v + destDelta)

def destOffset (i : Nat) : Except Fault (BitVec 64) := do
  let _ ← require (i < t.size)
  let v ← loadFirst t.bucketInfo (baseIdx i) 1
  if i % groupSize ≠ 0 then
    let v ← destLoop t (i % groupSize) (baseIdx i + 4) ((i / groupSize * groupSize + 1) * 2 + 1)
      (BitVec.ofNat 64 v)
    .ok (v + BitVec.ofNat 64 (i % groupSize) * t.keysPerBucket)
  else .ok (BitVec.ofNat 64 v)

def inserts (pairs : List (BitVec 64 × BitVec 64)) : Except Fault Reloff :=
  t.inserts layout f (indexOffset f) destOffset pairs

end Functions

section Bytes

variable {m m' : List Nat} {i idx type v p : Nat}

/-- A byte of a number, cut out with a mask. -/
theorem masked_byte (v s : Nat) : ((v &&& 0xff <<< s) >>> s) % 2 ^ 8 = v / 2 ^ s % 2 ^ 8 := by
  have hmask : (0xff : Nat) = 2 ^ 8 - 1 := rfl
  refine Nat.eq_of_testBit_eq fun i => ?_
  rw [Nat.testBit_mod_two_pow, Nat.testBit_mod_two_pow, ← Nat.shiftRight_eq_div_pow, Nat.testBit_shiftRight,
    Nat.testBit_shiftRight, Nat.testBit_and, Nat.testBit_shiftLeft, hmask, Nat.testBit_two_pow_sub_one]
  by_cases hi : i < 8
  · simp [hi]
  · simp [hi]

theorem four_bytes (hv : v < 2 ^ 32) : (v / 2 ^ 24 % 2 ^ 8) <<< 24 ||| (v / 2 ^ 16 % 2 ^ 8) <<< 16 |||
    (v / 2 ^ 8 % 2 ^ 8) <<< 8 ||| (v / 2 ^ 0 % 2 ^ 8) <<< 0 = v := by
  have hlow : (v / 2 ^ 8 % 2 ^ 8) <<< 8 ||| (v / 2 ^ 0 % 2 ^ 8) <<< 0 = v % 2 ^ 16 := by
    rw [Nat.shiftLeft_zero, ← Nat.shiftLeft_add_eq_or_of_lt (Nat.mod_lt _ (by decide)), Nat.shiftLeft_eq]
    omega
  have hmid : (v / 2 ^ 16 % 2 ^ 8) <<< 16 ||| v % 2 ^ 16 = v % 2 ^ 24 := by
    rw [← Nat.shiftLeft_add_eq_or_of_lt (Nat.mod_lt _ (by decide)), Nat.shiftLeft_eq]
    omega
  rw [Nat.or_assoc, hlow, Nat.or_assoc, hmid, ← Nat.shiftLeft_add_eq_or_of_lt (Nat.mod_lt _ (by decide)),
    Nat.shiftLeft_eq]
  omega

/-- The places of a number in the array. -/
def Inside (i type p : Nat) : Prop :=
  (i % groupSize = 0 ∧ ∃ b < 4, p = 2 * (baseIdx i + b) + type) ∨
    (i % groupSize ≠ 0 ∧ p = 2 * (baseIdx i + 4 + i % groupSize - 1) + type)

theorem Inside.eq {j k : Nat} (hj : Inside (j / 2) (j % 2) p) (hk : Inside (k / 2) (k % 2) p) : j = k := by
  have hjlt := Nat.mod_lt (j / 2) (show 0 < groupSize by decide)
  have hklt := Nat.mod_lt (k / 2) (show 0 < groupSize by decide)
  simp only [Inside, baseIdx, groupSize] at *
  rcases hj with ⟨hj, b, hb, rfl⟩ | ⟨hj, rfl⟩
  · rcases hk with ⟨hk, c, hc, heq⟩ | ⟨hk, heq⟩
    · omega
    · omega
  · rcases hk with ⟨hk, c, hc, heq⟩ | ⟨hk, heq⟩
    · omega
    · omega

theorem loadFirst_congr (h : ∀ b < 4, get m' (2 * (idx + b) + type) = get m (2 * (idx + b) + type)) :
    loadFirst m' idx type = loadFirst m idx type := by
  simp only [loadFirst, load, h 0 (by decide), h 1 (by decide), h 2 (by decide), h 3 (by decide)]

theorem read_congr (h : ∀ p, Inside i type p → get m' p = get m p) :
    layout.read m' i type = layout.read m i type := by
  simp only [layout]
  split
  · rename_i hgroup
    exact loadFirst_congr fun b hb => h _ (.inl ⟨hgroup, b, hb, rfl⟩)
  · rename_i hgroup
    exact h _ (.inr ⟨hgroup, rfl⟩)

theorem storeFirst_ok (hm : 2 * (idx + 3) + type < m.length) (hv : v < 2 ^ 32) :
    ∃ m', storeFirst m idx type v = .ok m' ∧ m'.length = m.length ∧ loadFirst m' idx type = .ok v ∧
      ∀ p, (∀ b < 4, p ≠ 2 * (idx + b) + type) → get m' p = get m p := by
  have hbyte : ∀ mask s, mask = 0xff <<< s → (v &&& mask) >>> s % 2 ^ 8 = v / 2 ^ s % 2 ^ 8 :=
    fun mask s hmask => hmask ▸ masked_byte v s
  have hstore : storeFirst m idx type v = .ok ((((m.set (2 * (idx + 0) + type) (v / 2 ^ 24 % 2 ^ 8)).set
      (2 * (idx + 1) + type) (v / 2 ^ 16 % 2 ^ 8)).set (2 * (idx + 2) + type) (v / 2 ^ 8 % 2 ^ 8)).set
      (2 * (idx + 3) + type) (v / 2 ^ 0 % 2 ^ 8)) := by
    simp only [storeFirst, store, hbyte 0xff000000 24 rfl, hbyte 0x00ff0000 16 rfl, hbyte 0x0000ff00 8 rfl,
      hbyte 0x000000ff 0 rfl]
    rw [set_ok (by omega), ok_bind, set_ok (by rw [List.length_set]; omega), ok_bind,
      set_ok (by simp only [List.length_set]; omega), ok_bind, set_ok (by simp only [List.length_set]; omega)]
  refine ⟨_, hstore, by simp only [List.length_set], ?_, fun p hp => ?_⟩
  · simp only [loadFirst, load]
    rw [get_set_ne (by omega), get_set_ne (by omega), get_set_ne (by omega), get_set_self (by omega), ok_bind,
      get_set_ne (by omega), get_set_ne (by omega), get_set_self (by rw [List.length_set]; omega), ok_bind,
      get_set_ne (by omega), get_set_self (by simp only [List.length_set]; omega), ok_bind,
      get_set_self (by simp only [List.length_set]; omega), ok_bind, four_bytes hv]
  · rw [get_set_ne (hp 3 (by decide)).symm, get_set_ne (hp 2 (by decide)).symm,
      get_set_ne (hp 1 (by decide)).symm, get_set_ne (hp 0 (by decide)).symm]

theorem write_ok (hm : ∀ p, Inside i type p → p < m.length)
    (hv : if i % groupSize = 0 then v < 2 ^ 32 else v ≤ deltaMask) :
    ∃ m', layout.write m i type v = .ok m' ∧ m'.length = m.length ∧ layout.read m' i type = .ok v ∧
      ∀ p, ¬Inside i type p → get m' p = get m p := by
  by_cases hgroup : i % groupSize = 0
  · rw [if_pos hgroup] at hv
    obtain ⟨m', hstore, hlength, hload, hother⟩ := storeFirst_ok (hm _ (.inl ⟨hgroup, 3, by decide, rfl⟩)) hv
    refine ⟨m', by simpa only [layout, if_pos hgroup] using hstore, hlength,
      by simpa only [layout, if_pos hgroup] using hload, fun p hp => hother p fun b hb heq => hp ?_⟩
    exact .inl ⟨hgroup, b, hb, heq⟩
  · rw [if_neg hgroup] at hv
    have hinside : Inside i type (2 * (baseIdx i + 4 + i % groupSize - 1) + type) := .inr ⟨hgroup, rfl⟩
    have hlt := hm _ hinside
    have hmod : v % 2 ^ 8 = v := Nat.mod_eq_of_lt (Nat.lt_of_le_of_lt hv (by decide))
    refine ⟨m.set (2 * (baseIdx i + 4 + i % groupSize - 1) + type) v, ?_, List.length_set, ?_, fun p hp => ?_⟩
    · simp only [layout, if_neg hgroup, store, hmod]
      exact set_ok hlt v
    · simp only [layout, if_neg hgroup, load]
      exact get_set_self hlt v
    · refine get_set_ne ?_ v
      rintro rfl
      exact hp hinside

/-- The array has a place for every number of the buckets before `n`. -/
def contract : layout.Contract where
  Fits n m := n % groupSize = 0 ∧ m.length = 2 * (n / groupSize * (4 + (groupSize - 1)))
  Free _ _ := True
  groupSize_pos := by decide
  back i hi := ⟨Nat.one_pos, Nat.pos_of_ne_zero hi⟩
  write := by
    intro n k v m hfits hk _ hv
    have hm : ∀ p, Inside (k / 2) (k % 2) p → p < m.length := by
      intro p hp
      rw [hfits.2]
      have hn := hfits.1
      have hlt := Nat.mod_lt (k / 2) (show 0 < groupSize by decide)
      simp only [Inside, baseIdx, groupSize] at *
      rcases hp with ⟨hp, b, hb, rfl⟩ | ⟨hp, rfl⟩
      · omega
      · omega
    obtain ⟨m', hwrite, hlength, hread, hother⟩ := write_ok hm hv
    refine ⟨m', hwrite, ⟨hfits.1, hlength.trans hfits.2⟩, hread, fun j hj hne => ⟨?_, fun _ => trivial⟩⟩
    exact read_congr fun p hp => hother p fun hp' => hne (hp.eq hp')

end Bytes

section Reading

variable {f : Int → Int} {pairs : List (BitVec 64 × BitVec 64)} {t : Reloff} {i k n s q rest : Nat}
  {v : BitVec 64}

/-- The first buckets of the groups have their offsets as they are. -/
theorem loadFirst_ok (h : Reloff.View contract f pairs t n) (hk : k < n) (hgroup : k / 2 % groupSize = 0) :
    loadFirst t.bucketInfo (baseIdx (k / 2)) (k % 2) = .ok (Layout.offset pairs k).toNat := by
  have hread := h.read k hk
  rw [Layout.cell, if_pos (show k / 2 % layout.groupSize = 0 from hgroup)] at hread
  simpa only [layout, if_pos hgroup] using hread

/-- The reader's place and id for a difference are those of the writer. -/
theorem loadDelta_ok (h : Reloff.View contract f pairs t n) (hk : k < n) (hgroup : k / 2 % groupSize ≠ 0) :
    loadDelta t (baseIdx (k / 2) + 4 + k / 2 % groupSize - 1) (k % 2) k =
      .ok (layout.delta f t.keysPerBucket t.bitsPerBucket pairs k) := by
  have hread := h.read k hk
  simp only [layout, if_neg hgroup] at hread
  rw [loadDelta, show load t.bucketInfo _ _ = _ from hread, ok_bind]
  exact h.loadDelta hk hgroup

theorem deltas_ok (h : Reloff.View contract f pairs t (2 * n)) (hn : q * groupSize + s + 1 < n)
    (hs : s + 1 < groupSize) :
    loadDelta t (q * 32 + 4 + s) 0 ((q * groupSize + s + 1) * 2) =
        .ok (layout.indexDelta f t.keysPerBucket t.bitsPerBucket pairs (q * groupSize + s + 1)) ∧
      loadDelta t (q * 32 + 4 + s) 1 ((q * groupSize + s + 1) * 2 + 1) =
        .ok (layout.destDelta t.keysPerBucket pairs (q * groupSize + s + 1)) := by
  have hmod : (q * groupSize + s + 1) % groupSize = s + 1 := by
    rw [Nat.add_assoc, Nat.mul_add_mod_of_lt hs]
  have hbase : baseIdx (q * groupSize + s + 1) = q * 32 := by
    simp only [baseIdx, groupSize] at *
    omega
  constructor
  · have hdiv : (q * groupSize + s + 1) * 2 / 2 = q * groupSize + s + 1 := by omega
    have hload := loadDelta_ok h (k := (q * groupSize + s + 1) * 2) (by omega)
      (by rw [hdiv, hmod]; exact Nat.succ_ne_zero s)
    rw [Layout.delta, if_pos (Nat.mul_mod_left _ 2), hdiv, hmod, hbase, Nat.mul_mod_left] at hload
    exact hload
  · have hdiv : ((q * groupSize + s + 1) * 2 + 1) / 2 = q * groupSize + s + 1 := by omega
    have hodd : ((q * groupSize + s + 1) * 2 + 1) % 2 = 1 := by omega
    have hload := loadDelta_ok h (k := (q * groupSize + s + 1) * 2 + 1) (by omega)
      (by rw [hdiv, hmod]; exact Nat.succ_ne_zero s)
    rw [Layout.delta, if_neg (by omega), hdiv, hmod, hbase, hodd] at hload
    exact hload

theorem index_step {keys bits : BitVec 64} (hv : v + BitVec.ofNat 64 s * bits = (Layout.pairAt pairs i).1) :
    v + layout.indexDelta f keys bits pairs (i + 1) +
      BitVec.ofInt 64 (f (layout.destDelta keys pairs (i + 1)).toInt) + BitVec.ofNat 64 (s + 1) * bits =
        (Layout.pairAt pairs (i + 1)).1 := by
  have hdelta : layout.indexDelta f keys bits pairs (i + 1) = (Layout.pairAt pairs (i + 1)).1 -
      (Layout.pairAt pairs i).1 - 1 * bits -
      BitVec.ofInt 64 (f (layout.destDelta keys pairs (i + 1)).toInt) := rfl
  have hnext : BitVec.ofNat 64 (s + 1) = BitVec.ofNat 64 s + 1 := BitVec.ofNat_add s 1
  rw [hdelta, hnext]
  linear_combination hv

theorem dest_step {keys : BitVec 64} (hv : v + BitVec.ofNat 64 s * keys = (Layout.pairAt pairs i).2) :
    v + layout.destDelta keys pairs (i + 1) + BitVec.ofNat 64 (s + 1) * keys =
      (Layout.pairAt pairs (i + 1)).2 := by
  have hdelta : layout.destDelta keys pairs (i + 1) = (Layout.pairAt pairs (i + 1)).2 -
      (Layout.pairAt pairs i).2 - 1 * keys := rfl
  have hnext : BitVec.ofNat 64 (s + 1) = BitVec.ofNat 64 s + 1 := BitVec.ofNat_add s 1
  rw [hdelta, hnext]
  linear_combination hv

theorem indexLoop_ok (h : Reloff.View contract f pairs t (2 * n)) (hn : q * groupSize + s + rest < n)
    (hs : s + rest < groupSize)
    (hv : v + BitVec.ofNat 64 s * t.bitsPerBucket = (Layout.pairAt pairs (q * groupSize + s)).1) :
    ∃ v', indexLoop f t rest (q * 32 + 4 + s) ((q * groupSize + s + 1) * 2) v = .ok v' ∧
      v' + BitVec.ofNat 64 (s + rest) * t.bitsPerBucket =
        (Layout.pairAt pairs (q * groupSize + (s + rest))).1 := by
  induction rest generalizing s v with
  | zero => exact ⟨v, rfl, hv⟩
  | succ rest ih =>
    obtain ⟨hindex, hdest⟩ := deltas_ok h (q := q) (s := s) (by omega) (by omega)
    obtain ⟨v', hloop, hv'⟩ := ih (s := s + 1) (by omega) (by omega) (index_step hv)
    have hid : (q * groupSize + s + 1) * 2 + 2 = (q * groupSize + (s + 1) + 1) * 2 := by omega
    refine ⟨v', ?_, by rwa [Nat.add_assoc, Nat.add_comm 1 rest] at hv'⟩
    rw [indexLoop, hindex, ok_bind, hdest, ok_bind, hid]
    exact hloop

theorem destLoop_ok (h : Reloff.View contract f pairs t (2 * n)) (hn : q * groupSize + s + rest < n)
    (hs : s + rest < groupSize)
    (hv : v + BitVec.ofNat 64 s * t.keysPerBucket = (Layout.pairAt pairs (q * groupSize + s)).2) :
    ∃ v', destLoop t rest (q * 32 + 4 + s) ((q * groupSize + s + 1) * 2 + 1) v = .ok v' ∧
      v' + BitVec.ofNat 64 (s + rest) * t.keysPerBucket =
        (Layout.pairAt pairs (q * groupSize + (s + rest))).2 := by
  induction rest generalizing s v with
  | zero => exact ⟨v, rfl, hv⟩
  | succ rest ih =>
    obtain ⟨-, hdest⟩ := deltas_ok h (q := q) (s := s) (by omega) (by omega)
    obtain ⟨v', hloop, hv'⟩ := ih (s := s + 1) (by omega) (by omega) (dest_step hv)
    have hid : (q * groupSize + s + 1) * 2 + 1 + 2 = (q * groupSize + (s + 1) + 1) * 2 + 1 := by omega
    refine ⟨v', ?_, by rwa [Nat.add_assoc, Nat.add_comm 1 rest] at hv'⟩
    rw [destLoop, hdest, ok_bind, hid]
    exact hloop

theorem heads_ok (h : Reloff.View contract f pairs t (2 * n)) (hn : q * groupSize < n) :
    loadFirst t.bucketInfo (q * 32) 0 = .ok (Layout.pairAt pairs (q * groupSize)).1.toNat ∧
      loadFirst t.bucketInfo (q * 32) 1 = .ok (Layout.pairAt pairs (q * groupSize)).2.toNat := by
  have hbase : baseIdx (q * groupSize) = q * 32 := by
    rw [baseIdx, Nat.mul_div_cancel _ (show 0 < groupSize by decide), groupSize]
  constructor
  · have hdiv : 2 * (q * groupSize) / 2 = q * groupSize := by omega
    have hload := loadFirst_ok h (k := 2 * (q * groupSize)) (by omega) (by rw [hdiv, Nat.mul_mod_left])
    rw [Layout.offset, if_pos (Nat.mul_mod_right 2 _), hdiv, hbase, Nat.mul_mod_right] at hload
    exact hload
  · have hdiv : (2 * (q * groupSize) + 1) / 2 = q * groupSize := by omega
    have hodd : (2 * (q * groupSize) + 1) % 2 = 1 := by omega
    have hload := loadFirst_ok h (k := 2 * (q * groupSize) + 1) (by omega) (by rw [hdiv, Nat.mul_mod_left])
    rw [Layout.offset, if_neg (by omega), hdiv, hbase, hodd] at hload
    exact hload

/-- The sums of the differences give back the offsets. -/
theorem offsets_ok (h : Reloff.View contract f pairs t (2 * n)) (hn : q * groupSize + s < n)
    (hs : s < groupSize) (hsize : q * groupSize + s < t.size) :
    indexOffset f t (q * groupSize + s) = .ok (Layout.pairAt pairs (q * groupSize + s)).1 ∧
      destOffset t (q * groupSize + s) = .ok (Layout.pairAt pairs (q * groupSize + s)).2 := by
  have hmod : (q * groupSize + s) % groupSize = s := Nat.mul_add_mod_of_lt hs
  have hdiv : (q * groupSize + s) / groupSize = q := by
    simp only [groupSize] at *
    omega
  have hbase : baseIdx (q * groupSize + s) = q * 32 := by rw [baseIdx, hdiv, groupSize]
  obtain ⟨hindex, hdest⟩ := heads_ok h (q := q) (by omega)
  rw [indexOffset, destOffset, require_ok hsize, ok_bind, ok_bind, hmod, hdiv, hbase, hindex, hdest,
    ok_bind, ok_bind]
  by_cases hzero : s = 0
  · subst hzero
    simp
  · have hend : q * groupSize + 0 + s < n := by omega
    have hend' : 0 + s < groupSize := by omega
    obtain ⟨v, hloop, hv⟩ := indexLoop_ok h hend hend'
      (v := BitVec.ofNat 64 (Layout.pairAt pairs (q * groupSize)).1.toNat) (by simp)
    obtain ⟨w, hloop', hw⟩ := destLoop_ok h hend hend'
      (v := BitVec.ofNat 64 (Layout.pairAt pairs (q * groupSize)).2.toNat) (by simp)
    rw [Nat.zero_add] at hv hw
    simp only [Nat.add_zero] at hloop hloop'
    rw [if_pos hzero, if_pos hzero, Nat.add_zero ((q * groupSize + 1) * 2), hloop, hloop', ok_bind,
      ok_bind, hv, hw]
    exact ⟨rfl, rfl⟩

theorem readsBack (n : Nat) : Reloff.ReadsBack contract f (indexOffset f) destOffset pairs t n := by
  intro h i hi hsize
  have hdecomp : i / groupSize * groupSize + i % groupSize = i := Nat.div_add_mod' i groupSize
  have hread := offsets_ok h (q := i / groupSize) (s := i % groupSize) (by rw [hdecomp]; exact hi)
    (Nat.mod_lt i (by decide)) (by rw [hdecomp]; exact hsize)
  rwa [hdecomp] at hread

end Reading

section Inserts

variable (f : Int → Int) (pairs : List (BitVec 64 × BitVec 64)) (size : Nat) (keys bits : BitVec 64)

theorem resize_size : (resize size keys bits).size % groupSize = 0 := by
  rw [resize]
  by_cases h : size % groupSize = 0
  · rw [if_neg (not_not.mpr h)]
    exact h
  · rw [if_pos h]
    exact Nat.mul_mod_left _ _

theorem resize_holds : Reloff.Holds contract f pairs (resize size keys bits) 0 where
  view :=
    { fits := ⟨resize_size size keys bits, List.length_replicate⟩
      read := fun _ hj => absurd hj (Nat.not_lt_zero _)
      free := fun _ _ _ => trivial
      found := fun _ hj => absurd hj (Nat.not_lt_zero _)
      ids := fun _ he => nomatch he
      nodup := List.nodup_nil
      count := rfl }
  currentI := rfl
  length_index := List.length_replicate
  length_dest := List.length_replicate
  last := fun _ hj => absurd hj (Nat.not_lt_zero _)

/-- All inserts come to their end, every pair is read back, and the table of overflows has one entry for each
difference that does not fit. -/
theorem twolevel_round_trip (hsize : pairs.length ≤ (resize size keys bits).size) (hshort : Layout.Short pairs)
    (hresidual : layout.Residual f keys bits pairs) (hlimit : layout.WithinLimit f keys bits pairs) :
    ∃ t, inserts f (resize size keys bits) pairs = .ok t ∧
      (∀ i p, pairs[i]? = some p → indexOffset f t i = .ok p.1 ∧ destOffset t i = .ok p.2) ∧
      (t.overflow.map Prod.fst).Nodup ∧
      ∀ k < 2 * pairs.length, layout.Escapes f keys bits pairs k →
        t.overflow.lookup k = some (layout.delta f keys bits pairs k) := by
  have hstart := resize_holds f pairs size keys bits
  have hs : Reloff.Storable layout f keys bits pairs := ⟨hshort, hresidual, hlimit⟩
  obtain ⟨t, hinserts⟩ := Reloff.inserts_ok hstart rfl hsize hs
    fun n t' _ _ => readsBack (f := f) (t := t') n
  obtain ⟨hholds, hsame⟩ := Reloff.inserts_inv hstart rfl hs hinserts
  rw [Nat.zero_add] at hholds
  refine ⟨t, hinserts, fun i p hp => ?_, hholds.view.nodup, fun k hk hescapes => ?_⟩
  · obtain ⟨hi, hp⟩ := List.getElem?_eq_some_iff.mp hp
    have hread := readsBack pairs.length hholds.view i hi
      (Nat.lt_of_lt_of_le hi (by rw [hsame.size]; exact hsize))
    rwa [Layout.pairAt, List.getD_eq_getElem _ _ hi, hp] at hread
  · have hfound := hholds.view.found k hk (by rw [hsame.keysPerBucket, hsame.bitsPerBucket]; exact hescapes)
    rwa [hsame.keysPerBucket, hsame.bitsPerBucket] at hfound

theorem twolevel_round_trip_overflow :
    ∃ t, inserts (2 * ·) (resize 2 16 50) [(0, 0), (1000, 300)] = .ok t ∧
      (∀ i p, ([(0, 0), (1000, 300)] : List (BitVec 64 × BitVec 64))[i]? = some p →
        indexOffset (2 * ·) t i = .ok p.1 ∧ destOffset t i = .ok p.2) ∧
      (t.overflow.map Prod.fst).Nodup ∧
      ∀ k < 2 * 2, layout.Escapes (2 * ·) 16 50 [(0, 0), (1000, 300)] k →
        t.overflow.lookup k = some (layout.delta (2 * ·) 16 50 [(0, 0), (1000, 300)] k) :=
  twolevel_round_trip (2 * ·) [(0, 0), (1000, 300)] 2 16 50 (by decide) (by simp [Layout.Short])
    (by decide) (by decide)

end Inserts

end FawnKV.Cindex.TwolevelReloff
