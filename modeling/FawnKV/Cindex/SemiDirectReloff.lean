import FawnKV.Cindex.RelativeOffsets
import FawnKV.Lib.BitFields
import Mathlib.Tactic.Ring

/-! `semi_direct_16_reloff_bucketing`: 16 buckets share five words of 32 bits, once for the index and once for
the destination. -/
namespace FawnKV.Cindex.SemiDirectReloff

open Checked EscapedDelta BitFields

def ranks : List Nat := [0, 0, 1, 2, 0, 3, 4, 5, 0, 6, 7, 8, 0, 9, 10, 11]

/-- A word and the bits in it. -/
structure Place where
  idx : Nat
  mask : Nat
  shift : Nat
deriving DecidableEq

/-- The places that `insert` and the readers pass to `store` and `load`. -/
def place (i : Nat) : Place :=
  let baseIdx := i / 16 * 5
  if i % 16 = 0 then ⟨baseIdx + 0, 0xffffffff, 0⟩
  else if i % 4 = 0 then ⟨baseIdx + 1, 0x3ff, (i % 16 / 4 - 1) * 10⟩
  else
    let rank := ranks.getD (i % 16) 0
    ⟨baseIdx + 2 + rank / 4, 0xff, rank % 4 * 8⟩

section Functions

variable (m : List Nat)

/-- The array of pairs of words, one pair after the other. -/
def load (p : Place) (type : Nat) : Except Fault Nat := do
  let w ← get m (2 * p.idx + type)
  .ok (field w p.shift p.mask)

def store (p : Place) (type v : Nat) : Except Fault (List Nat) := do
  let _ ← require (v &&& p.mask = v)
  let w ← get m (2 * p.idx + type)
  set m (2 * p.idx + type) (w ||| v <<< p.shift % 2 ^ 32)

def layout : Layout where
  groupSize := 16
  back i := if i % 4 = 0 then 4 else 1
  mask i := (place i).mask
  read m i type := load m (place i) type
  write m i type v := store m (place i) type v

def resize (size : Nat) (keysPerBucket bitsPerBucket : BitVec 64) : Reloff :=
  let size := if size % 16 ≠ 0 then (size + 15) / 16 * 16 else size
  { size, keysPerBucket, bitsPerBucket
    bucketInfo := List.replicate (2 * (size / 16 * 5)) 0
    currentI := 0
    lastIndexOffsets := List.replicate 16 0
    lastDestOffsets := List.replicate 16 0
    overflow := [] }

variable (f : Int → Int) (t : Reloff)

def loadDelta (p : Place) (type id : Nat) : Except Fault (BitVec 64) := do
  let loaded ← load t.bucketInfo p type
  t.loadDelta p.mask loaded id

def indexOffset (i : Nat) : Except Fault (BitVec 64) := do
  let _ ← require (i < t.size)
  if i % 16 = 0 then
    let v ← load t.bucketInfo (place i) 0
    .ok (BitVec.ofNat 64 v)
  else if i % 4 = 0 then
    let delta ← loadDelta t (place i) 0 (i * 2 + 0)
    let base ← indexOffset (i - 4)
    -- the id is that of the number for the index, here and nowhere else
    let destDelta ← loadDelta t (place i) 1 (i * 2 + 0)
    .ok (delta + base + 4 * t.bitsPerBucket + BitVec.ofInt 64 (f destDelta.toInt))
  else
    let delta ← loadDelta t (place i) 0 (i * 2 + 0)
    let base ← indexOffset (i - 1)
    let destDelta ← loadDelta t (place i) 1 (i * 2 + 1)
    .ok (delta + base + 1 * t.bitsPerBucket + BitVec.ofInt 64 (f destDelta.toInt))
termination_by i
decreasing_by all_goals omega

def destOffset (i : Nat) : Except Fault (BitVec 64) := do
  let _ ← require (i < t.size)
  if i % 16 = 0 then
    let v ← load t.bucketInfo (place i) 1
    .ok (BitVec.ofNat 64 v)
  else if i % 4 = 0 then
    let delta ← loadDelta t (place i) 1 (i * 2 + 1)
    let base ← destOffset (i - 4)
    .ok (delta + base + 4 * t.keysPerBucket)
  else
    let delta ← loadDelta t (place i) 1 (i * 2 + 1)
    let base ← destOffset (i - 1)
    .ok (delta + base + 1 * t.keysPerBucket)
termination_by i
decreasing_by all_goals omega

def inserts (pairs : List (BitVec 64 × BitVec 64)) : Except Fault Reloff :=
  t.inserts layout f (indexOffset f) destOffset pairs

/-- The lookup in the table of overflows of one `load_delta`: the number it is for, and the id that is looked
up. -/
def lookupOf (i type id : Nat) : List (Nat × Nat) :=
  if load t.bucketInfo (place i) type = .ok (place i).mask then [(2 * i + type, id)] else []

/-- The lookups that decoding the index offset of a bucket makes. -/
def indexLookups (i : Nat) : List (Nat × Nat) :=
  if i % 16 = 0 then []
  else if i % 4 = 0 then
    lookupOf t i 0 (i * 2 + 0) ++ indexLookups (i - 4) ++ lookupOf t i 1 (i * 2 + 0)
  else lookupOf t i 0 (i * 2 + 0) ++ indexLookups (i - 1) ++ lookupOf t i 1 (i * 2 + 1)
termination_by i
decreasing_by all_goals omega

def destLookups (i : Nat) : List (Nat × Nat) :=
  if i % 16 = 0 then []
  else if i % 4 = 0 then lookupOf t i 1 (i * 2 + 1) ++ destLookups (i - 4)
  else lookupOf t i 1 (i * 2 + 1) ++ destLookups (i - 1)
termination_by i
decreasing_by all_goals omega

end Functions

section Places

variable {m m' : List Nat} {i j k n v w : Nat}

def width (i : Nat) : Nat := if i % 16 = 0 then 32 else if i % 4 = 0 then 10 else 8

theorem mask_eq (i : Nat) : (place i).mask = 2 ^ width i - 1 := by
  rw [place, width]
  split
  · rfl
  · split
    · rfl
    · rfl

/-- The places of a group are those of the first one, five words further for each group between. -/
theorem place_idx (i : Nat) : (place i).idx = i / 16 * 5 + (place (i % 16)).idx := by
  have hdiv : i % 16 / 16 = 0 := Nat.div_eq_of_lt (Nat.mod_lt i (by decide))
  have hmod : i % 16 % 4 = i % 4 := Nat.mod_mod_of_dvd i (by decide)
  rw [place, place, Nat.mod_mod, hmod, hdiv, Nat.zero_mul]
  split
  · rfl
  · split
    · simp only [Nat.zero_add]
    · simp only [Nat.zero_add, Nat.add_assoc]

theorem place_shift (i : Nat) : (place i).shift = (place (i % 16)).shift := by
  have hmod : i % 16 % 4 = i % 4 := Nat.mod_mod_of_dvd i (by decide)
  rw [place, place, Nat.mod_mod, hmod]
  split
  · rfl
  · split
    · rfl
    · rfl

theorem width_mod (i : Nat) : width i = width (i % 16) := by
  rw [width, width, Nat.mod_mod, Nat.mod_mod_of_dvd i (by decide)]

/-- Every number has bits of its own. -/
theorem fields_fit : ∀ r < 16, (place r).idx < 5 ∧ (place r).shift + width r ≤ 32 := by decide

theorem fields_disjoint : ∀ r < 16, ∀ s < 16, r ≠ s → (place r).idx = (place s).idx →
    (place r).shift + width r ≤ (place s).shift ∨ (place s).shift + width s ≤ (place r).shift := by decide

theorem place_disjoint (h : j ≠ k) (hpos : 2 * (place (j / 2)).idx + j % 2 = 2 * (place (k / 2)).idx + k % 2) :
    (place (k / 2)).shift + width (k / 2) ≤ (place (j / 2)).shift ∨
      (place (j / 2)).shift + width (j / 2) ≤ (place (k / 2)).shift := by
  have hj := (fields_fit (j / 2 % 16) (Nat.mod_lt _ (by decide))).1
  have hk := (fields_fit (k / 2 % 16) (Nat.mod_lt _ (by decide))).1
  rw [place_idx (j / 2), place_idx (k / 2)] at hpos
  rw [place_shift (j / 2), place_shift (k / 2), width_mod (j / 2), width_mod (k / 2)]
  refine fields_disjoint _ (Nat.mod_lt _ (by decide)) _ (Nat.mod_lt _ (by decide)) ?_ ?_
  · omega
  · omega

theorem load_ok (h : m[2 * (place i).idx + k % 2]? = some w) :
    load m (place i) (k % 2) = .ok (field w (place i).shift (2 ^ width i - 1)) := by
  rw [load, get_ok h, ok_bind, mask_eq]

theorem store_ok (h : m[2 * (place i).idx + k % 2]? = some w) (hv : v < 2 ^ width i) :
    store m (place i) (k % 2) v = .ok (m.set (2 * (place i).idx + k % 2) (put w (place i).shift v)) := by
  obtain ⟨hlt, -⟩ := List.getElem?_eq_some_iff.mp h
  have hfit := (fields_fit (i % 16) (Nat.mod_lt _ (by decide))).2
  rw [← place_shift, ← width_mod] at hfit
  have hword : v <<< (place i).shift < 2 ^ 32 := by
    have hmul := (Nat.mul_lt_mul_right (Nat.two_pow_pos (place i).shift)).mpr hv
    rw [Nat.shiftLeft_eq]
    rw [← Nat.pow_add, Nat.add_comm] at hmul
    exact Nat.lt_of_lt_of_le hmul (Nat.pow_le_pow_right (by decide) hfit)
  rw [store, mask_eq, require_ok (and_mask hv), ok_bind, get_ok h, ok_bind, Nat.mod_eq_of_lt hword,
    set_ok hlt, put]

/-- The array has a word for every number of the buckets before `n`, and a number is put into bits that are
zero. -/
def contract : layout.Contract where
  Fits n m := n % 16 = 0 ∧ m.length = 2 * (n / 16 * 5)
  Free m k := load m (place (k / 2)) (k % 2) = .ok 0
  groupSize_pos := by decide
  back i hi := by
    have hi : i % 16 ≠ 0 := hi
    simp only [layout]
    split
    · omega
    · omega
  write := by
    intro n k v m hfits hk hfree hv
    have hplace : ∀ j, j / 2 < n → ∃ w, m[2 * (place (j / 2)).idx + j % 2]? = some w := by
      intro j hj
      have hidx := (fields_fit (j / 2 % 16) (Nat.mod_lt _ (by decide))).1
      have hn := hfits.1
      refine ⟨_, List.getElem?_eq_getElem ?_⟩
      rw [hfits.2, place_idx]
      omega
    obtain ⟨w, hw⟩ := hplace k hk
    obtain ⟨hlt, -⟩ := List.getElem?_eq_some_iff.mp hw
    have hv : if k / 2 % 16 = 0 then v < 2 ^ 32 else v ≤ (place (k / 2)).mask := hv
    have hv : v < 2 ^ width (k / 2) := by
      by_cases hgroup : k / 2 % 16 = 0
      · rw [if_pos hgroup] at hv
        rw [width, if_pos hgroup]
        exact hv
      · rw [if_neg hgroup, mask_eq] at hv
        have := Nat.two_pow_pos (width (k / 2))
        omega
    rw [load_ok hw] at hfree
    refine ⟨_, store_ok hw hv, ⟨hfits.1, List.length_set.trans hfits.2⟩, ?_, fun j hj hne => ?_⟩
    · have hself := load_ok (List.getElem?_set_self hlt (a := put w (place (k / 2)).shift v))
      rw [field_put (Except.ok.inj hfree) hv] at hself
      exact hself
    · have hsame :
          load (m.set (2 * (place (k / 2)).idx + k % 2) (put w (place (k / 2)).shift v)) (place (j / 2))
            (j % 2) = load m (place (j / 2)) (j % 2) := by
        by_cases hpos : 2 * (place (j / 2)).idx + j % 2 = 2 * (place (k / 2)).idx + k % 2
        · have hset := List.getElem?_set_self hlt (a := put w (place (k / 2)).shift v)
          rw [← hpos] at hset hw
          rw [← hpos, load_ok hset, load_ok hw, field_put_of_disjoint (place_disjoint hne hpos) hv]
        · rw [load, load, get_set_ne (Ne.symm hpos)]
      exact ⟨hsame, fun hfree => hsame.trans hfree⟩

end Places

section Reading

variable {f : Int → Int} {pairs : List (BitVec 64 × BitVec 64)} {t : Reloff} {i n : Nat}

/-- Before bucket `n`, no difference of ten bits for a destination is an overflow. -/
def Fitting (keys : BitVec 64) (pairs : List (BitVec 64 × BitVec 64)) (n : Nat) : Prop :=
  ∀ i < n, i % 16 ≠ 0 → i % 4 = 0 → ¬Overflows 0x3ff (layout.destDelta keys pairs i)

theorem head_ok (h : Reloff.View contract f pairs t (2 * n)) (hi : i < n) (hgroup : i % 16 = 0) :
    load t.bucketInfo (place i) 0 = .ok (Layout.pairAt pairs i).1.toNat ∧
      load t.bucketInfo (place i) 1 = .ok (Layout.pairAt pairs i).2.toNat := by
  have hdiv : 2 * i / 2 = i := by omega
  have hdiv' : (2 * i + 1) / 2 = i := by omega
  have hindex := h.read (2 * i) (by omega)
  have hdest := h.read (2 * i + 1) (by omega)
  rw [Layout.cell, hdiv, if_pos (show i % layout.groupSize = 0 from hgroup), Layout.offset, if_pos (by omega),
    hdiv, Nat.mul_mod_right] at hindex
  rw [Layout.cell, hdiv', if_pos (show i % layout.groupSize = 0 from hgroup), Layout.offset, if_neg (by omega),
    hdiv', Nat.mul_add_mod] at hdest
  exact ⟨hindex, hdest⟩

/-- What the array has for a difference. -/
theorem loads_ok (h : Reloff.View contract f pairs t (2 * n)) (hi : i < n) (hgroup : i % 16 ≠ 0) :
    load t.bucketInfo (place i) 0 =
        .ok (code (place i).mask (layout.indexDelta f t.keysPerBucket t.bitsPerBucket pairs i)) ∧
      load t.bucketInfo (place i) 1 = .ok (code (place i).mask (layout.destDelta t.keysPerBucket pairs i)) := by
  have hdiv : 2 * i / 2 = i := by omega
  have hdiv' : (2 * i + 1) / 2 = i := by omega
  have hindex := h.read (2 * i) (by omega)
  have hdest := h.read (2 * i + 1) (by omega)
  rw [Layout.cell, hdiv, if_neg (show i % layout.groupSize ≠ 0 from hgroup), Layout.delta, if_pos (by omega),
    hdiv, Nat.mul_mod_right] at hindex
  rw [Layout.cell, hdiv', if_neg (show i % layout.groupSize ≠ 0 from hgroup), Layout.delta, if_neg (by omega),
    hdiv', Nat.mul_add_mod] at hdest
  exact ⟨hindex, hdest⟩

/-- With the id of the writer, `load_delta` gives the difference. -/
theorem deltas_ok (h : Reloff.View contract f pairs t (2 * n)) (hi : i < n) (hgroup : i % 16 ≠ 0) :
    loadDelta t (place i) 0 (i * 2 + 0) =
        .ok (layout.indexDelta f t.keysPerBucket t.bitsPerBucket pairs i) ∧
      loadDelta t (place i) 1 (i * 2 + 1) = .ok (layout.destDelta t.keysPerBucket pairs i) := by
  obtain ⟨hindex, hdest⟩ := loads_ok h hi hgroup
  have hdiv : i * 2 / 2 = i := by omega
  have hdiv' : (i * 2 + 1) / 2 = i := by omega
  have hload := h.loadDelta (k := i * 2) (by omega) (by rw [hdiv]; exact hgroup)
  have hload' := h.loadDelta (k := i * 2 + 1) (by omega) (by rw [hdiv']; exact hgroup)
  rw [Layout.cell, hdiv, if_neg (show i % layout.groupSize ≠ 0 from hgroup), Layout.delta, if_pos (by omega),
    hdiv] at hload
  rw [Layout.cell, hdiv', if_neg (show i % layout.groupSize ≠ 0 from hgroup), Layout.delta, if_neg (by omega),
    hdiv'] at hload'
  exact ⟨by rw [loadDelta, hindex, ok_bind]; exact hload, by rw [loadDelta, hdest, ok_bind]; exact hload'⟩

/-- A difference that is no overflow is loaded with any id. -/
theorem destDelta_ok (h : Reloff.View contract f pairs t (2 * n)) (hi : i < n) (hgroup : i % 16 ≠ 0)
    (hfits : ¬Overflows (place i).mask (layout.destDelta t.keysPerBucket pairs i)) (id : Nat) :
    loadDelta t (place i) 1 id = .ok (layout.destDelta t.keysPerBucket pairs i) := by
  rw [loadDelta, (loads_ok h hi hgroup).2, ok_bind, Reloff.loadDelta,
    if_neg (fun heq => hfits (code_eq_mask_iff.mp heq)), code_sub_bias hfits]

theorem back_four (hfour : i % 4 = 0) : layout.back i = 4 := if_pos hfour

theorem back_one (hfour : i % 4 ≠ 0) : layout.back i = 1 := if_neg hfour

theorem destOffset_ok (h : Reloff.View contract f pairs t (2 * n)) (hi : i < n) (hsize : i < t.size) :
    destOffset t i = .ok (Layout.pairAt pairs i).2 := by
  induction i using Nat.strong_induction_on with
  | _ i ih =>
    rw [destOffset, require_ok hsize, ok_bind]
    by_cases hgroup : i % 16 = 0
    · rw [if_pos hgroup, (head_ok h hi hgroup).2, ok_bind, BitVec.ofNat_toNat, BitVec.setWidth_eq]
    · obtain ⟨-, hdest⟩ := deltas_ok h hi hgroup
      rw [if_neg hgroup]
      by_cases hfour : i % 4 = 0
      · have hsteps : (BitVec.ofNat 64 4) = 4 := rfl
        rw [if_pos hfour, hdest, ok_bind, ih (i - 4) (by omega) (by omega) (by omega), ok_bind,
          Layout.destDelta, back_four hfour, hsteps]
        congr 1
        ring
      · have hsteps : (BitVec.ofNat 64 1) = 1 := rfl
        rw [if_neg hfour, hdest, ok_bind, ih (i - 1) (by omega) (by omega) (by omega), ok_bind,
          Layout.destDelta, back_one hfour, hsteps]
        congr 1
        ring

theorem indexOffset_ok (h : Reloff.View contract f pairs t (2 * n)) (hfits : Fitting t.keysPerBucket pairs n)
    (hi : i < n) (hsize : i < t.size) : indexOffset f t i = .ok (Layout.pairAt pairs i).1 := by
  induction i using Nat.strong_induction_on with
  | _ i ih =>
    rw [indexOffset, require_ok hsize, ok_bind]
    by_cases hgroup : i % 16 = 0
    · rw [if_pos hgroup, (head_ok h hi hgroup).1, ok_bind, BitVec.ofNat_toNat, BitVec.setWidth_eq]
    · obtain ⟨hindex, hdest⟩ := deltas_ok h hi hgroup
      rw [if_neg hgroup]
      by_cases hfour : i % 4 = 0
      · have hmask : (place i).mask = 0x3ff := by
          rw [place, if_neg hgroup, if_pos hfour]
        have hdest := destDelta_ok h hi hgroup (by rw [hmask]; exact hfits i hi hgroup hfour) (i * 2 + 0)
        have hsteps : (BitVec.ofNat 64 4) = 4 := rfl
        rw [if_pos hfour, hindex, ok_bind, ih (i - 4) (by omega) (by omega) (by omega), ok_bind, hdest, ok_bind,
          Layout.indexDelta, back_four hfour, hsteps]
        congr 1
        ring
      · have hsteps : (BitVec.ofNat 64 1) = 1 := rfl
        rw [if_neg hfour, hindex, ok_bind, ih (i - 1) (by omega) (by omega) (by omega), ok_bind, hdest, ok_bind,
          Layout.indexDelta, back_one hfour, hsteps]
        congr 1
        ring

end Reading

section Lookups

variable {f : Int → Int} {pairs : List (BitVec 64 × BitVec 64)} {t : Reloff} {i n type id : Nat} {l : Nat × Nat}

/-- The entry that is found is the one that was stored for the number. -/
def Own (f : Int → Int) (pairs : List (BitVec 64 × BitVec 64)) (t : Reloff) (l : Nat × Nat) : Prop :=
  l.2 = l.1 ∧ t.overflow.lookup l.2 = some (layout.delta f t.keysPerBucket t.bitsPerBucket pairs l.1)

theorem mem_lookupOf : l ∈ lookupOf t i type id ↔
    load t.bucketInfo (place i) type = .ok (place i).mask ∧ l = (2 * i + type, id) := by
  rw [lookupOf]
  by_cases hload : load t.bucketInfo (place i) type = .ok (place i).mask
  · simp [hload]
  · simp [hload]

theorem loadDelta_congr {table : List (Nat × BitVec 64)}
    (h : ∀ l ∈ lookupOf t i type id, table.lookup l.2 = t.overflow.lookup l.2) :
    loadDelta { t with overflow := table } (place i) type id = loadDelta t (place i) type id := by
  rw [loadDelta, loadDelta]
  cases hload : load t.bucketInfo (place i) type with
  | error fault => rfl
  | ok loaded =>
    rw [ok_bind, ok_bind, Reloff.loadDelta, Reloff.loadDelta]
    by_cases hmask : loaded = (place i).mask
    · rw [h (2 * i + type, id) (mem_lookupOf.mpr ⟨by rw [hload, hmask], rfl⟩)]
    · rw [if_neg hmask, if_neg hmask]

/-- `index_offset` reads the table of overflows at its lookups only. -/
theorem indexOffset_congr {table : List (Nat × BitVec 64)}
    (h : ∀ l ∈ indexLookups t i, table.lookup l.2 = t.overflow.lookup l.2) :
    indexOffset f { t with overflow := table } i = indexOffset f t i := by
  induction i using Nat.strong_induction_on with
  | _ i ih =>
    rw [indexLookups] at h
    conv_lhs => rw [indexOffset]
    conv_rhs => rw [indexOffset]
    by_cases hgroup : i % 16 = 0
    · rw [if_pos hgroup, if_pos hgroup]
    · rw [if_neg hgroup] at h
      rw [if_neg hgroup, if_neg hgroup]
      by_cases hfour : i % 4 = 0
      · rw [if_pos hfour] at h
        have hindex := loadDelta_congr fun l hl => h l (List.mem_append_left _ (List.mem_append_left _ hl))
        have hbase := ih (i - 4) (by omega) fun l hl =>
          h l (List.mem_append_left _ (List.mem_append_right _ hl))
        have hdest := loadDelta_congr fun l hl => h l (List.mem_append_right _ hl)
        rw [if_pos hfour, if_pos hfour, hindex, hbase, hdest]
      · rw [if_neg hfour] at h
        have hindex := loadDelta_congr fun l hl => h l (List.mem_append_left _ (List.mem_append_left _ hl))
        have hbase := ih (i - 1) (by omega) fun l hl =>
          h l (List.mem_append_left _ (List.mem_append_right _ hl))
        have hdest := loadDelta_congr fun l hl => h l (List.mem_append_right _ hl)
        rw [if_neg hfour, if_neg hfour, hindex, hbase, hdest]

theorem destOffset_congr {table : List (Nat × BitVec 64)}
    (h : ∀ l ∈ destLookups t i, table.lookup l.2 = t.overflow.lookup l.2) :
    destOffset { t with overflow := table } i = destOffset t i := by
  induction i using Nat.strong_induction_on with
  | _ i ih =>
    rw [destLookups] at h
    conv_lhs => rw [destOffset]
    conv_rhs => rw [destOffset]
    by_cases hgroup : i % 16 = 0
    · rw [if_pos hgroup, if_pos hgroup]
    · rw [if_neg hgroup] at h
      rw [if_neg hgroup, if_neg hgroup]
      by_cases hfour : i % 4 = 0
      · rw [if_pos hfour] at h
        have hdest := loadDelta_congr fun l hl => h l (List.mem_append_left _ hl)
        rw [if_pos hfour, if_pos hfour, hdest, ih (i - 4) (by omega) fun l hl =>
          h l (List.mem_append_right _ hl)]
      · rw [if_neg hfour] at h
        have hdest := loadDelta_congr fun l hl => h l (List.mem_append_left _ hl)
        rw [if_neg hfour, if_neg hfour, hdest, ih (i - 1) (by omega) fun l hl =>
          h l (List.mem_append_right _ hl)]

theorem own_index (h : Reloff.View contract f pairs t (2 * n)) (hi : i < n) (hgroup : i % 16 ≠ 0)
    (hl : l ∈ lookupOf t i 0 (i * 2 + 0)) : Own f pairs t l := by
  obtain ⟨hload, rfl⟩ := mem_lookupOf.mp hl
  rw [(loads_ok h hi hgroup).1] at hload
  have hover := code_eq_mask_iff.mp (Except.ok.inj hload)
  have hdiv : 2 * i / 2 = i := by omega
  have hid : i * 2 = 2 * i := Nat.mul_comm i 2
  refine ⟨hid, ?_⟩
  rw [Nat.add_zero, Nat.add_zero, hid]
  refine h.found (2 * i) (by omega) ⟨by rw [hdiv]; exact hgroup, ?_⟩
  rw [Layout.delta, if_pos (Nat.mul_mod_right 2 i), hdiv]
  exact hover

theorem own_dest (h : Reloff.View contract f pairs t (2 * n)) (hi : i < n) (hgroup : i % 16 ≠ 0)
    (hl : l ∈ lookupOf t i 1 (i * 2 + 1)) : Own f pairs t l := by
  obtain ⟨hload, rfl⟩ := mem_lookupOf.mp hl
  rw [(loads_ok h hi hgroup).2] at hload
  have hover := code_eq_mask_iff.mp (Except.ok.inj hload)
  have hdiv : (2 * i + 1) / 2 = i := by omega
  have hid : i * 2 + 1 = 2 * i + 1 := by rw [Nat.mul_comm]
  refine ⟨hid, ?_⟩
  rw [hid]
  refine h.found (2 * i + 1) (by omega) ⟨by rw [hdiv]; exact hgroup, ?_⟩
  rw [Layout.delta, if_neg (by omega), hdiv]
  exact hover

theorem own_destLookups (h : Reloff.View contract f pairs t (2 * n)) (hi : i < n) :
    ∀ l ∈ destLookups t i, Own f pairs t l := by
  induction i using Nat.strong_induction_on with
  | _ i ih =>
    intro l hl
    rw [destLookups] at hl
    by_cases hgroup : i % 16 = 0
    · rw [if_pos hgroup] at hl
      cases hl
    · rw [if_neg hgroup] at hl
      have hrest : ∀ b, 0 < b → b ≤ i → l ∈ lookupOf t i 1 (i * 2 + 1) ++ destLookups t (i - b) →
          Own f pairs t l := by
        intro b hpos hle hl
        rcases List.mem_append.mp hl with hl | hl
        · exact own_dest h hi hgroup hl
        · exact ih (i - b) (by omega) (by omega) l hl
      split at hl
      · exact hrest 4 (by decide) (by omega) hl
      · exact hrest 1 (by decide) (by omega) hl

theorem own_indexLookups (h : Reloff.View contract f pairs t (2 * n)) (hfits : Fitting t.keysPerBucket pairs n)
    (hi : i < n) : ∀ l ∈ indexLookups t i, Own f pairs t l := by
  induction i using Nat.strong_induction_on with
  | _ i ih =>
    intro l hl
    rw [indexLookups] at hl
    by_cases hgroup : i % 16 = 0
    · rw [if_pos hgroup] at hl
      cases hl
    · rw [if_neg hgroup] at hl
      by_cases hfour : i % 4 = 0
      · rw [if_pos hfour, List.mem_append, List.mem_append] at hl
        rcases hl with (hl | hl) | hl
        · exact own_index h hi hgroup hl
        · exact ih (i - 4) (by omega) (by omega) l hl
        · have hmask : (place i).mask = 0x3ff := by
            rw [place, if_neg hgroup, if_pos hfour]
          obtain ⟨hload, -⟩ := mem_lookupOf.mp hl
          rw [(loads_ok h hi hgroup).2, hmask] at hload
          exact absurd (code_eq_mask_iff.mp (Except.ok.inj hload)) (hfits i hi hgroup hfour)
      · rw [if_neg hfour, List.mem_append, List.mem_append] at hl
        rcases hl with (hl | hl) | hl
        · exact own_index h hi hgroup hl
        · exact ih (i - 1) (by omega) (by omega) l hl
        · exact own_dest h hi hgroup hl

/-- When such a difference is an overflow, `index_offset` looks up another number's id for it. -/
theorem wrong_lookup (h : Reloff.View contract f pairs t (2 * n)) (hi : i < n) (hgroup : i % 16 ≠ 0)
    (hfour : i % 4 = 0) (hover : Overflows 0x3ff (layout.destDelta t.keysPerBucket pairs i)) :
    (2 * i + 1, 2 * i) ∈ indexLookups t i := by
  have hmask : (place i).mask = 0x3ff := by
    rw [place, if_neg hgroup, if_pos hfour]
  rw [indexLookups, if_neg hgroup, if_pos hfour, List.mem_append]
  refine .inr (mem_lookupOf.mpr ⟨?_, by rw [Nat.mul_comm i 2]; rfl⟩)
  rw [(loads_ok h hi hgroup).2, hmask, code_of_overflows hover]

end Lookups

section Inserts

variable (f : Int → Int) (pairs : List (BitVec 64 × BitVec 64)) (size : Nat) (keys bits : BitVec 64)

theorem resize_size : (resize size keys bits).size % 16 = 0 := by
  rw [resize]
  by_cases h : size % 16 = 0
  · rw [if_neg (not_not.mpr h)]
    exact h
  · rw [if_pos h]
    exact Nat.mul_mod_left _ _

theorem resize_free {k : Nat} (hk : k / 2 < (resize size keys bits).size) :
    load (resize size keys bits).bucketInfo (place (k / 2)) (k % 2) = .ok 0 := by
  have hsize := resize_size size keys bits
  have hidx := (fields_fit (k / 2 % 16) (Nat.mod_lt _ (by decide))).1
  have hlt : 2 * (place (k / 2)).idx + k % 2 < 2 * ((resize size keys bits).size / 16 * 5) := by
    rw [place_idx]
    omega
  have hword : (resize size keys bits).bucketInfo[2 * (place (k / 2)).idx + k % 2]? = some 0 :=
    List.getElem?_replicate_of_lt hlt
  rw [load_ok hword, field, Nat.zero_shiftRight, Nat.zero_and]

theorem resize_holds : Reloff.Holds contract f pairs (resize size keys bits) 0 where
  view :=
    { fits := ⟨resize_size size keys bits, List.length_replicate⟩
      read := fun _ hj => absurd hj (Nat.not_lt_zero _)
      free := fun _ _ hk => resize_free size keys bits hk
      found := fun _ hj => absurd hj (Nat.not_lt_zero _)
      ids := fun _ he => nomatch he
      nodup := List.nodup_nil
      count := rfl }
  currentI := rfl
  length_index := List.length_replicate
  length_dest := List.length_replicate
  last := fun _ hj => absurd hj (Nat.not_lt_zero _)

/-- What the inserts are for: every pair is read back, and every lookup on the way finds the entry of its
number. -/
def RoundTrip : Prop :=
  ∃ t, inserts f (resize size keys bits) pairs = .ok t ∧
    (∀ i p, pairs[i]? = some p → indexOffset f t i = .ok p.1 ∧ destOffset t i = .ok p.2) ∧
    ∀ i < pairs.length, ∀ l ∈ indexLookups t i ++ destLookups t i, Own f pairs t l

theorem readsBack {t : Reloff} {n : Nat} (hfits : Fitting t.keysPerBucket pairs n) :
    Reloff.ReadsBack contract f (indexOffset f) destOffset pairs t n :=
  fun h _ hi hsize => ⟨indexOffset_ok h hfits hi hsize, destOffset_ok h hi hsize⟩

/-- The inserts do it exactly when no difference of ten bits for a destination is an overflow. -/
theorem semiDirect_round_trip_iff (hsize : pairs.length ≤ (resize size keys bits).size)
    (hshort : Layout.Short pairs) (hresidual : layout.Residual f keys bits pairs)
    (hlimit : layout.WithinLimit f keys bits pairs) :
    RoundTrip f pairs size keys bits ↔ Fitting keys pairs pairs.length := by
  have hstart := resize_holds f pairs size keys bits
  have hs : Reloff.Storable layout f keys bits pairs := ⟨hshort, hresidual, hlimit⟩
  constructor
  · rintro ⟨t, hinserts, -, hown⟩ i hi hgroup hfour hover
    obtain ⟨hholds, hsame⟩ := Reloff.inserts_inv hstart rfl hs hinserts
    rw [Nat.zero_add] at hholds
    have hwrong := wrong_lookup hholds.view hi hgroup hfour (by rw [hsame.keysPerBucket]; exact hover)
    have hid : 2 * i = 2 * i + 1 := (hown i hi _ (List.mem_append_left _ hwrong)).1
    omega
  · intro hfits
    obtain ⟨t, hinserts⟩ := Reloff.inserts_ok hstart rfl hsize hs fun n t' hsame hn =>
      readsBack f pairs (t := t') (n := n) (by
        rw [hsame.keysPerBucket]
        exact fun i hi => hfits i (Nat.lt_of_lt_of_le hi hn))
    obtain ⟨hholds, hsame⟩ := Reloff.inserts_inv hstart rfl hs hinserts
    rw [Nat.zero_add] at hholds
    have hfits : Fitting t.keysPerBucket pairs pairs.length := by
      rw [hsame.keysPerBucket]
      exact hfits
    refine ⟨t, hinserts, fun i p hp => ?_, fun i hi l hl => ?_⟩
    · obtain ⟨hi, hp⟩ := List.getElem?_eq_some_iff.mp hp
      have hread := readsBack f pairs hfits hholds.view i hi
        (Nat.lt_of_lt_of_le hi (by rw [hsame.size]; exact hsize))
      rwa [Layout.pairAt, List.getD_eq_getElem _ _ hi, hp] at hread
    · rcases List.mem_append.mp hl with hl | hl
      · exact own_indexLookups hholds.view hfits hi l hl
      · exact own_destLookups hholds.view hi l hl

theorem semiDirect_round_trip_iff_overflow :
    RoundTrip (2 * ·) [(0, 0), (1000, 300)] 2 16 50 ↔ Fitting 16 [(0, 0), (1000, 300)] 2 :=
  semiDirect_round_trip_iff (2 * ·) [(0, 0), (1000, 300)] 2 16 50 (by decide)
    (by simp [Layout.Short]) (by decide) (by decide)

/-- The fifth bucket is 1000 keys further than expected: `insert` ends in an assertion, as `index_offset`
looks up the id 8 and not 9. -/
theorem fifthBucket_insert :
    let pairs := [(0, 0), (50, 16), (100, 32), (150, 48), (2200, 1064)]
    Layout.Short pairs ∧ layout.Residual (2 * ·) 16 50 pairs ∧ layout.WithinLimit (2 * ·) 16 50 pairs ∧
      inserts (2 * ·) (resize 5 16 50) pairs = .error .assertion ∧ ¬RoundTrip (2 * ·) pairs 5 16 50 := by
  have herror : inserts (2 * ·) (resize 5 16 50) [(0, 0), (50, 16), (100, 32), (150, 48), (2200, 1064)] =
      .error .assertion := by decide +kernel
  refine ⟨by simp [Layout.Short], by decide, by decide, herror, ?_⟩
  rintro ⟨t, hinserts, -⟩
  rw [herror] at hinserts
  cases hinserts

end Inserts

end FawnKV.Cindex.SemiDirectReloff
