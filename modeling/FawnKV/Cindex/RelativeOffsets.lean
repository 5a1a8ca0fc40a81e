import FawnKV.Lib.Checked
import FawnKV.Lib.EscapedDelta
import Mathlib.Data.List.GetD

/-! What the two bucketings with relative offsets share: the first bucket of a group has its offsets as they
are, and the others a difference to a bucket before them, in a field of a few bits or in a table of overflows.
-/
namespace FawnKV.Cindex

open Checked EscapedDelta

/-- Where the two numbers of a bucket, for the index and for the destination, stand in the array. -/
structure Layout where
  groupSize : Nat
  /-- How many buckets before it the bucket is that the differences are taken to. -/
  back : Nat → Nat
  mask : Nat → Nat
  read : List Nat → Nat → Nat → Except Fault Nat
  write : List Nat → Nat → Nat → Nat → Except Fault (List Nat)

structure Reloff where
  size : Nat
  keysPerBucket : BitVec 64
  bitsPerBucket : BitVec 64
  bucketInfo : List Nat
  currentI : Nat
  lastIndexOffsets : List (BitVec 64)
  lastDestOffsets : List (BitVec 64)
  overflow : List (Nat × BitVec 64)
deriving DecidableEq

namespace Reloff

section Functions

-- `f` is the product with `bits_per_key_`, cut off to an integer
variable (L : Layout) (f : Int → Int) (t : Reloff)

/-- `store_delta`, with the assertions on the number of overflows and on their ids. -/
def storeDelta (i type : Nat) (v : BitVec 64) : Except Fault Reloff :=
  if Overflows (L.mask i) v then do
    let _ ← require (t.currentI < 1000 ∨ t.overflow.length < t.currentI * 2 / 5)
    let _ ← require (t.overflow.lookup (2 * i + type) = none)
    let bucketInfo ← L.write t.bucketInfo i type (L.mask i)
    .ok { t with bucketInfo, overflow := (2 * i + type, narrow 16 v) :: t.overflow }
  else do
    let bucketInfo ← L.write t.bucketInfo i type (biased (L.mask i) v).toNat
    .ok { t with bucketInfo }

/-- `load_delta`, of what was loaded from the array. -/
def loadDelta (mask loaded id : Nat) : Except Fault (BitVec 64) :=
  if loaded = mask then
    match t.overflow.lookup id with
    | some v => .ok v
    | none => .error .assertion
  else .ok (BitVec.ofNat 64 loaded - BitVec.ofNat 64 (mask / 2))

/-- What `insert` stores for the bucket `current_i_`. -/
def store (index dest : BitVec 64) : Except Fault Reloff :=
  if t.currentI % L.groupSize = 0 then do
    let bucketInfo ← L.write t.bucketInfo t.currentI 0 index.toNat
    let bucketInfo ← L.write bucketInfo t.currentI 1 dest.toNat
    .ok { t with bucketInfo }
  else do
    let n := L.back t.currentI
    let lastIndex ← get t.lastIndexOffsets ((t.currentI - n) % L.groupSize)
    let lastDest ← get t.lastDestOffsets ((t.currentI - n) % L.groupSize)
    let destDelta := dest - lastDest - BitVec.ofNat 64 n * t.keysPerBucket
    let indexDelta :=
      index - lastIndex - BitVec.ofNat 64 n * t.bitsPerBucket - BitVec.ofInt 64 (f destDelta.toInt)
    let t ← t.storeDelta L t.currentI 0 indexDelta
    t.storeDelta L t.currentI 1 destDelta

-- the readers of the class, which `insert` calls in two assertions
variable (indexOffset destOffset : Reloff → Nat → Except Fault (BitVec 64))

def insert (index dest : BitVec 64) : Except Fault Reloff := do
  let _ ← require (t.currentI < t.size)
  let t ← t.store L f index dest
  let storedIndex ← indexOffset t t.currentI
  let _ ← require (storedIndex = index)
  let storedDest ← destOffset t t.currentI
  let _ ← require (storedDest = dest)
  let lastIndexOffsets ← set t.lastIndexOffsets (t.currentI % L.groupSize) index
  let lastDestOffsets ← set t.lastDestOffsets (t.currentI % L.groupSize) dest
  .ok { t with lastIndexOffsets, lastDestOffsets, currentI := t.currentI + 1 }

def inserts (t : Reloff) : List (BitVec 64 × BitVec 64) → Except Fault Reloff
  | [] => .ok t
  | p :: pairs => do
    let t ← t.insert L f indexOffset destOffset p.1 p.2
    inserts t pairs

end Functions

end Reloff

namespace Layout

section Numbers

variable (L : Layout) (f : Int → Int) (keysPerBucket bitsPerBucket : BitVec 64)
  (pairs : List (BitVec 64 × BitVec 64))

def pairAt (i : Nat) : BitVec 64 × BitVec 64 := pairs.getD i (0, 0)

def destDelta (i : Nat) : BitVec 64 :=
  (pairAt pairs i).2 - (pairAt pairs (i - L.back i)).2 - BitVec.ofNat 64 (L.back i) * keysPerBucket

def indexDelta (i : Nat) : BitVec 64 :=
  (pairAt pairs i).1 - (pairAt pairs (i - L.back i)).1 - BitVec.ofNat 64 (L.back i) * bitsPerBucket -
    BitVec.ofInt 64 (f (L.destDelta keysPerBucket pairs i).toInt)

/-- The numbers are counted through: `2 * i` is the index number of bucket `i`, and `2 * i + 1` the other. -/
def delta (k : Nat) : BitVec 64 :=
  if k % 2 = 0 then L.indexDelta f keysPerBucket bitsPerBucket pairs (k / 2)
  else L.destDelta keysPerBucket pairs (k / 2)

def offset (k : Nat) : BitVec 64 := if k % 2 = 0 then (pairAt pairs (k / 2)).1 else (pairAt pairs (k / 2)).2

/-- The number is an entry of the table of overflows, and `k` its id. -/
def Escapes (k : Nat) : Prop :=
  k / 2 % L.groupSize ≠ 0 ∧ Overflows (L.mask (k / 2)) (L.delta f keysPerBucket bitsPerBucket pairs k)

instance (k : Nat) : Decidable (L.Escapes f keysPerBucket bitsPerBucket pairs k) :=
  inferInstanceAs (Decidable (_ ∧ _))

/-- What the array has for the number. -/
def cell (k : Nat) : Nat :=
  if k / 2 % L.groupSize = 0 then (offset pairs k).toNat
  else code (L.mask (k / 2)) (L.delta f keysPerBucket bitsPerBucket pairs k)

/-- The entries of the table of overflows before the number `k`. -/
def escapesBefore (k : Nat) : Nat :=
  ((List.range k).filter fun j => L.Escapes f keysPerBucket bitsPerBucket pairs j).length

/-- The number of overflows stays within the limit of the assertion. -/
def WithinLimit : Prop :=
  ∀ k < 2 * pairs.length, L.Escapes f keysPerBucket bitsPerBucket pairs k →
    k / 2 < 1000 ∨ L.escapesBefore f keysPerBucket bitsPerBucket pairs k < k / 2 * 2 / 5

instance : Decidable (L.WithinLimit f keysPerBucket bitsPerBucket pairs) :=
  inferInstanceAs (Decidable (∀ k < 2 * pairs.length, _ → _))

/-- The residual differences fit in 16 signed bits. -/
def Residual : Prop :=
  ∀ k < 2 * pairs.length, k / 2 % L.groupSize ≠ 0 →
    -2 ^ 15 ≤ (L.delta f keysPerBucket bitsPerBucket pairs k).toInt ∧
      (L.delta f keysPerBucket bitsPerBucket pairs k).toInt < 2 ^ 15

instance : Decidable (L.Residual f keysPerBucket bitsPerBucket pairs) :=
  inferInstanceAs (Decidable (∀ k < 2 * pairs.length, _ → _))

/-- The offsets fit in the 32 bits of the first bucket of a group. -/
def Short : Prop := ∀ p ∈ pairs, p.1.toNat < 2 ^ 32 ∧ p.2.toNat < 2 ^ 32

instance : Decidable (Short pairs) := inferInstanceAs (Decidable (∀ p ∈ pairs, _))

end Numbers

/-- An array in which every number has a place of its own. -/
structure Contract (L : Layout) where
  /-- The array has places for the numbers before `2 * n`. -/
  Fits : Nat → List Nat → Prop
  /-- Nothing is stored for the number yet. -/
  Free : List Nat → Nat → Prop
  groupSize_pos : 0 < L.groupSize
  back : ∀ i, i % L.groupSize ≠ 0 → 0 < L.back i ∧ L.back i ≤ i % L.groupSize
  write : ∀ {n k v : Nat} {m : List Nat}, Fits n m → k / 2 < n → Free m k →
    (if k / 2 % L.groupSize = 0 then v < 2 ^ 32 else v ≤ L.mask (k / 2)) →
    ∃ m', L.write m (k / 2) (k % 2) v = .ok m' ∧ Fits n m' ∧ L.read m' (k / 2) (k % 2) = .ok v ∧
      ∀ j, j / 2 < n → j ≠ k →
        L.read m' (j / 2) (j % 2) = L.read m (j / 2) (j % 2) ∧ (Free m j → Free m' j)

end Layout

namespace Reloff

open Layout

section Storage

variable {L : Layout} {C : L.Contract} {f : Int → Int} {pairs : List (BitVec 64 × BitVec 64)}
  {t t' : Reloff} {i k n : Nat}

/-- The first `k` numbers are stored, in the array and in the table of overflows. -/
structure View (C : L.Contract) (f : Int → Int) (pairs : List (BitVec 64 × BitVec 64)) (t : Reloff) (k : Nat) :
    Prop where
  fits : C.Fits t.size t.bucketInfo
  read : ∀ j < k, L.read t.bucketInfo (j / 2) (j % 2) = .ok (L.cell f t.keysPerBucket t.bitsPerBucket pairs j)
  free : ∀ j, k ≤ j → j / 2 < t.size → C.Free t.bucketInfo j
  found : ∀ j < k, L.Escapes f t.keysPerBucket t.bitsPerBucket pairs j →
    t.overflow.lookup j = some (L.delta f t.keysPerBucket t.bitsPerBucket pairs j)
  ids : ∀ e ∈ t.overflow, e.1 < k
  nodup : (t.overflow.map Prod.fst).Nodup
  count : t.overflow.length = L.escapesBefore f t.keysPerBucket t.bitsPerBucket pairs k

/-- Only the array and the table of overflows are changed. -/
structure Frame (t t' : Reloff) : Prop where
  size : t'.size = t.size
  keysPerBucket : t'.keysPerBucket = t.keysPerBucket
  bitsPerBucket : t'.bitsPerBucket = t.bitsPerBucket
  currentI : t'.currentI = t.currentI
  lastIndexOffsets : t'.lastIndexOffsets = t.lastIndexOffsets
  lastDestOffsets : t'.lastDestOffsets = t.lastDestOffsets

theorem escapesBefore_succ (L : Layout) (f : Int → Int) (keys bits : BitVec 64)
    (pairs : List (BitVec 64 × BitVec 64)) (k : Nat) :
    L.escapesBefore f keys bits pairs (k + 1) =
      L.escapesBefore f keys bits pairs k + if L.Escapes f keys bits pairs k then 1 else 0 := by
  rw [escapesBefore, List.range_succ, List.filter_append, List.length_append, ← escapesBefore]
  by_cases h : L.Escapes f keys bits pairs k
  · simp [h]
  · simp [h]

/-- One more number is written to its place. -/
theorem View.write (h : View C f pairs t k) (hk : k / 2 < t.size)
    (hescapes : ¬L.Escapes f t.keysPerBucket t.bitsPerBucket pairs k)
    (hcell : if k / 2 % L.groupSize = 0 then L.cell f t.keysPerBucket t.bitsPerBucket pairs k < 2 ^ 32
      else L.cell f t.keysPerBucket t.bitsPerBucket pairs k ≤ L.mask (k / 2)) :
    ∃ m, L.write t.bucketInfo (k / 2) (k % 2) (L.cell f t.keysPerBucket t.bitsPerBucket pairs k) = .ok m ∧
      View C f pairs { t with bucketInfo := m } (k + 1) := by
  obtain ⟨m, hwrite, hfits, hself, hother⟩ := C.write h.fits hk (h.free k (Nat.le_refl k) hk) hcell
  refine ⟨m, hwrite, hfits, fun j hj => ?_, fun j hj hsize => ?_, fun j hj hesc => ?_,
    fun e he => ?_, h.nodup, ?_⟩
  · rcases Nat.lt_succ_iff_lt_or_eq.mp hj with hlt | rfl
    · exact (hother j (by omega) (by omega)).1.trans (h.read j hlt)
    · exact hself
  · exact (hother j hsize (by omega)).2 (h.free j (by omega) hsize)
  · rcases Nat.lt_succ_iff_lt_or_eq.mp hj with hlt | rfl
    · exact h.found j hlt hesc
    · exact absurd hesc hescapes
  · exact Nat.lt_succ_of_lt (h.ids e he)
  · rw [escapesBefore_succ, if_neg hescapes]
    exact h.count

/-- The escape is written, and the difference goes to the table. -/
theorem View.overflow (h : View C f pairs t k) (hk : k / 2 < t.size)
    (hescapes : L.Escapes f t.keysPerBucket t.bitsPerBucket pairs k) :
    ∃ m, L.write t.bucketInfo (k / 2) (k % 2) (L.mask (k / 2)) = .ok m ∧
      View C f pairs { t with
        bucketInfo := m
        overflow := (k, L.delta f t.keysPerBucket t.bitsPerBucket pairs k) :: t.overflow } (k + 1) := by
  have hcell : L.cell f t.keysPerBucket t.bitsPerBucket pairs k = L.mask (k / 2) := by
    rw [cell, if_neg hescapes.1, code_of_overflows hescapes.2]
  obtain ⟨m, hwrite, hfits, hself, hother⟩ := C.write (v := L.mask (k / 2)) h.fits hk
    (h.free k (Nat.le_refl k) hk) (by rw [if_neg hescapes.1])
  refine ⟨m, hwrite, hfits, fun j hj => ?_, fun j hj hsize => ?_, fun j hj hesc => ?_, fun e he => ?_, ?_, ?_⟩
  · rcases Nat.lt_succ_iff_lt_or_eq.mp hj with hlt | rfl
    · exact (hother j (by omega) (by omega)).1.trans (h.read j hlt)
    · exact hself.trans (congrArg _ hcell.symm)
  · exact (hother j hsize (by omega)).2 (h.free j (by omega) hsize)
  · rcases Nat.lt_succ_iff_lt_or_eq.mp hj with hlt | rfl
    · have hne : (j == k) = false := beq_false_of_ne (Nat.ne_of_lt hlt)
      simp only [List.lookup_cons, hne]
      exact h.found j hlt hesc
    · exact List.lookup_cons_self
  · rcases List.mem_cons.mp he with rfl | hold
    · exact Nat.lt_succ_self k
    · exact Nat.lt_succ_of_lt (h.ids e hold)
  · refine List.nodup_cons.mpr ⟨fun hmem => ?_, h.nodup⟩
    obtain ⟨e, he, heq⟩ := List.mem_map.mp hmem
    exact absurd (h.ids e he) (by simp only [heq]; omega)
  · rw [escapesBefore_succ, if_pos hescapes]
    exact congrArg (· + 1) h.count

/-- `store_delta` stores the number, as long as the limit of overflows is kept. -/
theorem View.storeDelta (h : View C f pairs t k) (hk : k / 2 < t.size) (hcurrent : t.currentI = k / 2)
    (hlast : k < 2 * pairs.length) (hgroup : k / 2 % L.groupSize ≠ 0)
    (hresidual : L.Residual f t.keysPerBucket t.bitsPerBucket pairs)
    (hlimit : L.WithinLimit f t.keysPerBucket t.bitsPerBucket pairs) :
    ∃ t', t.storeDelta L (k / 2) (k % 2) (L.delta f t.keysPerBucket t.bitsPerBucket pairs k) = .ok t' ∧
      View C f pairs t' (k + 1) ∧ Frame t t' := by
  have hid : 2 * (k / 2) + k % 2 = k := Nat.div_add_mod k 2
  by_cases hover : Overflows (L.mask (k / 2)) (L.delta f t.keysPerBucket t.bitsPerBucket pairs k)
  · obtain ⟨m, hwrite, hview⟩ := h.overflow hk ⟨hgroup, hover⟩
    have hfresh : t.overflow.lookup k = none := by
      rw [List.lookup_eq_none_iff]
      intro e he
      exact bne_iff_ne.mpr (Nat.ne_of_gt (h.ids e he))
    have hroom : t.currentI < 1000 ∨ t.overflow.length < t.currentI * 2 / 5 := by
      rw [hcurrent, h.count]
      exact hlimit k hlast ⟨hgroup, hover⟩
    obtain ⟨hlow, hhigh⟩ := hresidual k hlast hgroup
    refine ⟨_, ?_, hview, rfl, rfl, rfl, rfl, rfl, rfl⟩
    rw [Reloff.storeDelta, if_pos hover, hid, require_ok hroom, ok_bind, require_ok hfresh, ok_bind,
      hwrite, ok_bind, narrow_eq hlow hhigh (by decide)]
  · have hcell : L.cell f t.keysPerBucket t.bitsPerBucket pairs k =
        (biased (L.mask (k / 2)) (L.delta f t.keysPerBucket t.bitsPerBucket pairs k)).toNat := by
      rw [cell, if_neg hgroup, code, if_neg hover]
    have hsmall : code (L.mask (k / 2)) (L.delta f t.keysPerBucket t.bitsPerBucket pairs k) ≤ L.mask (k / 2) :=
      code_le
    obtain ⟨m, hwrite, hview⟩ := h.write hk (fun hescapes => hover hescapes.2)
      (by rw [if_neg hgroup, cell, if_neg hgroup]; exact hsmall)
    refine ⟨_, ?_, hview, rfl, rfl, rfl, rfl, rfl, rfl⟩
    rw [Reloff.storeDelta, if_neg hover, ← hcell, hwrite, ok_bind]

/-- The numbers before bucket `n` are stored, and the last offsets of its group are at hand. -/
structure Holds (C : L.Contract) (f : Int → Int) (pairs : List (BitVec 64 × BitVec 64)) (t : Reloff) (n : Nat) :
    Prop where
  view : View C f pairs t (2 * n)
  currentI : t.currentI = n
  length_index : t.lastIndexOffsets.length = L.groupSize
  length_dest : t.lastDestOffsets.length = L.groupSize
  last : ∀ j < n, n ≤ j + L.groupSize →
    t.lastIndexOffsets[j % L.groupSize]? = some (pairAt pairs j).1 ∧
      t.lastDestOffsets[j % L.groupSize]? = some (pairAt pairs j).2

/-- The conditions under which the offsets can be stored. -/
structure Storable (L : Layout) (f : Int → Int) (keys bits : BitVec 64) (pairs : List (BitVec 64 × BitVec 64)) :
    Prop where
  short : Short pairs
  residual : L.Residual f keys bits pairs
  limit : L.WithinLimit f keys bits pairs

theorem pairAt_short (h : Short pairs) (i : Nat) :
    (pairAt pairs i).1.toNat < 2 ^ 32 ∧ (pairAt pairs i).2.toNat < 2 ^ 32 := by
  rw [pairAt]
  by_cases hi : i < pairs.length
  · rw [List.getD_eq_getElem _ _ hi]
    exact h _ (List.getElem_mem hi)
  · rw [List.getD_eq_default _ _ (Nat.le_of_not_lt hi)]
    decide

theorem View.head (h : View C f pairs t k) (hk : k / 2 < t.size) (hshort : Short pairs)
    (hgroup : k / 2 % L.groupSize = 0) :
    ∃ m, L.write t.bucketInfo (k / 2) (k % 2) (offset pairs k).toNat = .ok m ∧
      View C f pairs { t with bucketInfo := m } (k + 1) := by
  have hcell : L.cell f t.keysPerBucket t.bitsPerBucket pairs k = (offset pairs k).toNat := if_pos hgroup
  rw [← hcell]
  refine h.write hk (fun hescapes => hescapes.1 hgroup) ?_
  rw [if_pos hgroup, hcell, offset]
  obtain ⟨hindex, hdest⟩ := pairAt_short hshort (k / 2)
  split
  · exact hindex
  · exact hdest

/-- What `insert` stores for a bucket. -/
theorem store_ok (h : Holds C f pairs t n) (hsize : n < t.size) (hn : n < pairs.length)
    (hs : Storable L f t.keysPerBucket t.bitsPerBucket pairs) :
    ∃ t', t.store L f (pairAt pairs n).1 (pairAt pairs n).2 = .ok t' ∧
      View C f pairs t' (2 * n + 2) ∧ Frame t t' := by
  obtain rfl := h.currentI
  have hindex : 2 * t.currentI / 2 = t.currentI := by omega
  have hdest : (2 * t.currentI + 1) / 2 = t.currentI := by omega
  have hindexMod : 2 * t.currentI % 2 = 0 := by omega
  have hdestMod : (2 * t.currentI + 1) % 2 = 1 := by omega
  rw [store]
  by_cases hgroup : t.currentI % L.groupSize = 0
  · obtain ⟨m, hwrite, hview⟩ := h.view.head (by omega) hs.short (by rw [hindex]; exact hgroup)
    obtain ⟨m', hwrite', hview'⟩ := hview.head (by simp only; omega) hs.short (by rw [hdest]; exact hgroup)
    rw [hindex, hindexMod, offset, if_pos hindexMod, hindex] at hwrite
    rw [hdest, hdestMod, offset, if_neg (by omega), hdest] at hwrite'
    refine ⟨_, ?_, hview', rfl, rfl, rfl, rfl, rfl, rfl⟩
    rw [if_pos hgroup, hwrite, ok_bind]
    simp only at hwrite'
    rw [hwrite', ok_bind]
  · obtain ⟨hback, hle⟩ := C.back t.currentI hgroup
    have hmod := Nat.mod_le t.currentI L.groupSize
    have hlt := Nat.mod_lt t.currentI C.groupSize_pos
    obtain ⟨hlastIndex, hlastDest⟩ := h.last (t.currentI - L.back t.currentI) (by omega) (by omega)
    obtain ⟨t₁, hstore, hview, hframe⟩ := h.view.storeDelta (by omega) hindex.symm (by omega)
      (by rw [hindex]; exact hgroup) hs.residual hs.limit
    obtain ⟨t₂, hstore', hview', hframe'⟩ := hview.storeDelta (by rw [hframe.size]; omega)
      (by rw [hframe.currentI, hdest]) (by omega) (by rw [hdest]; exact hgroup)
      (by rw [hframe.keysPerBucket, hframe.bitsPerBucket]; exact hs.residual)
      (by rw [hframe.keysPerBucket, hframe.bitsPerBucket]; exact hs.limit)
    refine ⟨t₂, ?_, hview', ⟨hframe'.size.trans hframe.size, hframe'.keysPerBucket.trans hframe.keysPerBucket,
      hframe'.bitsPerBucket.trans hframe.bitsPerBucket, hframe'.currentI.trans hframe.currentI,
      hframe'.lastIndexOffsets.trans hframe.lastIndexOffsets,
      hframe'.lastDestOffsets.trans hframe.lastDestOffsets⟩⟩
    rw [delta, if_pos hindexMod, hindex, hindexMod] at hstore
    rw [delta, if_neg (by omega), hdest, hdestMod, hframe.keysPerBucket] at hstore'
    rw [if_neg hgroup]
    simp only [get_ok hlastIndex, get_ok hlastDest, ok_bind]
    refine bind_eq_ok.mpr ⟨t₁, hstore, ?_⟩
    rw [hframe.currentI]
    exact hstore'

end Storage

section Runs

variable {L : Layout} {C : L.Contract} {f : Int → Int} {pairs rest : List (BitVec 64 × BitVec 64)}
  {t t' : Reloff} {n : Nat} {indexOffset destOffset : Reloff → Nat → Except Fault (BitVec 64)}

/-- The parameters that an insert leaves as they are. -/
structure Same (t t' : Reloff) : Prop where
  size : t'.size = t.size
  keysPerBucket : t'.keysPerBucket = t.keysPerBucket
  bitsPerBucket : t'.bitsPerBucket = t.bitsPerBucket

/-- The last offsets after those of one more bucket were put among them. -/
theorem last_set {l : List (BitVec 64)} {g : Nat} {x : Nat → BitVec 64} (hlen : l.length = g) (hpos : 0 < g)
    (h : ∀ j < n, n ≤ j + g → l[j % g]? = some (x j)) {j : Nat} (hj : j < n + 1) (hle : n + 1 ≤ j + g) :
    (l.set (n % g) (x n))[j % g]? = some (x j) := by
  rcases Nat.lt_succ_iff_lt_or_eq.mp hj with hlt | rfl
  · have hne : n % g ≠ j % g := by
      intro heq
      have hdvd : (n - j) % g = 0 := Nat.sub_mod_eq_zero_of_mod_eq heq
      rw [Nat.mod_eq_of_lt (by omega)] at hdvd
      omega
    rw [List.getElem?_set_ne hne]
    exact h j hlt (by omega)
  · have hmod : j % g < l.length := hlen.symm ▸ Nat.mod_lt j hpos
    exact List.getElem?_set_self hmod

theorem holds_insert (h : Holds C f pairs t n) (hview : View C f pairs t' (2 * n + 2)) (hframe : Frame t t')
    {lastIndex lastDest : List (BitVec 64)}
    (hindex : set t'.lastIndexOffsets (t'.currentI % L.groupSize) (pairAt pairs n).1 = .ok lastIndex)
    (hdest : set t'.lastDestOffsets (t'.currentI % L.groupSize) (pairAt pairs n).2 = .ok lastDest) :
    Holds C f pairs { t' with
      lastIndexOffsets := lastIndex
      lastDestOffsets := lastDest
      currentI := t'.currentI + 1 } (n + 1) := by
  obtain ⟨-, rfl⟩ := set_eq_ok.mp hindex
  obtain ⟨-, rfl⟩ := set_eq_ok.mp hdest
  have hcurrent : t'.currentI = n := hframe.currentI.trans h.currentI
  refine ⟨⟨hview.fits, hview.read, hview.free, hview.found, hview.ids, hview.nodup, hview.count⟩,
    congrArg (· + 1) hcurrent, ?_, ?_, fun j hj hle => ?_⟩
  · rw [List.length_set, hframe.lastIndexOffsets, h.length_index]
  · rw [List.length_set, hframe.lastDestOffsets, h.length_dest]
  · simp only [hcurrent, hframe.lastIndexOffsets, hframe.lastDestOffsets]
    exact ⟨last_set (x := fun j => (pairAt pairs j).1) h.length_index C.groupSize_pos
        (fun j hj hle => (h.last j hj hle).1) hj hle,
      last_set (x := fun j => (pairAt pairs j).2) h.length_dest C.groupSize_pos
        (fun j hj hle => (h.last j hj hle).2) hj hle⟩

/-- After an insert that came to its end its bucket is stored. -/
theorem insert_inv (h : Holds C f pairs t n) (hn : n < pairs.length)
    (hs : Storable L f t.keysPerBucket t.bitsPerBucket pairs)
    (hinsert : t.insert L f indexOffset destOffset (pairAt pairs n).1 (pairAt pairs n).2 = .ok t') :
    Holds C f pairs t' (n + 1) ∧ Same t t' := by
  rw [insert] at hinsert
  obtain ⟨_, hsize, hinsert⟩ := bind_eq_ok.mp hinsert
  rw [require_eq_ok, h.currentI] at hsize
  obtain ⟨t₁, hstore, hview, hframe⟩ := store_ok h hsize hn hs
  rw [hstore, ok_bind] at hinsert
  obtain ⟨_, _, hinsert⟩ := bind_eq_ok.mp hinsert
  obtain ⟨_, _, hinsert⟩ := bind_eq_ok.mp hinsert
  obtain ⟨_, _, hinsert⟩ := bind_eq_ok.mp hinsert
  obtain ⟨_, _, hinsert⟩ := bind_eq_ok.mp hinsert
  obtain ⟨lastIndex, hindex, hinsert⟩ := bind_eq_ok.mp hinsert
  obtain ⟨lastDest, hdest, hinsert⟩ := bind_eq_ok.mp hinsert
  cases hinsert
  exact ⟨holds_insert h hview hframe hindex hdest, hframe.size, hframe.keysPerBucket, hframe.bitsPerBucket⟩

/-- The readers give back the offsets of all buckets that are stored. -/
def ReadsBack (C : L.Contract) (f : Int → Int)
    (indexOffset destOffset : Reloff → Nat → Except Fault (BitVec 64))
    (pairs : List (BitVec 64 × BitVec 64)) (t : Reloff) (n : Nat) : Prop :=
  View C f pairs t (2 * n) → ∀ i < n, i < t.size →
    indexOffset t i = .ok (pairAt pairs i).1 ∧ destOffset t i = .ok (pairAt pairs i).2

/-- With readers that give back what is stored, the assertions of `insert` hold. -/
theorem insert_ok (h : Holds C f pairs t n) (hn : n < pairs.length) (hsize : n < t.size)
    (hs : Storable L f t.keysPerBucket t.bitsPerBucket pairs)
    (hread : ∀ t', Same t t' → ReadsBack C f indexOffset destOffset pairs t' (n + 1)) :
    ∃ t', t.insert L f indexOffset destOffset (pairAt pairs n).1 (pairAt pairs n).2 = .ok t' := by
  obtain ⟨t₁, hstore, hview, hframe⟩ := store_ok h hsize hn hs
  have hcurrent : t₁.currentI = n := hframe.currentI.trans h.currentI
  have hmod := Nat.mod_lt n C.groupSize_pos
  obtain ⟨hindex, hdest⟩ := hread t₁ ⟨hframe.size, hframe.keysPerBucket, hframe.bitsPerBucket⟩ hview n
    (Nat.lt_succ_self n) (by rw [hframe.size]; exact hsize)
  rw [insert, require_ok (by rw [h.currentI]; exact hsize), ok_bind, hstore, ok_bind, hcurrent, hindex, ok_bind,
    require_ok rfl, ok_bind, hdest, ok_bind, require_ok rfl, ok_bind,
    set_ok (by rw [hframe.lastIndexOffsets, h.length_index]; exact hmod), ok_bind,
    set_ok (by rw [hframe.lastDestOffsets, h.length_dest]; exact hmod), ok_bind]
  exact ⟨_, rfl⟩

theorem drop_eq_cons {p : BitVec 64 × BitVec 64} (h : pairs.drop n = p :: rest) :
    n < pairs.length ∧ p = pairAt pairs n ∧ pairs.drop (n + 1) = rest := by
  have hn : n < pairs.length := by
    by_contra hge
    rw [List.drop_eq_nil_of_le (Nat.le_of_not_lt hge)] at h
    cases h
  rw [List.drop_eq_getElem_cons hn] at h
  obtain ⟨hp, hrest⟩ := List.cons.inj h
  exact ⟨hn, by rw [pairAt, List.getD_eq_getElem _ _ hn, hp], hrest⟩

theorem inserts_inv (h : Holds C f pairs t n) (hrest : pairs.drop n = rest)
    (hs : Storable L f t.keysPerBucket t.bitsPerBucket pairs)
    (hinserts : t.inserts L f indexOffset destOffset rest = .ok t') :
    Holds C f pairs t' (n + rest.length) ∧ Same t t' := by
  induction rest generalizing t n with
  | nil =>
    cases hinserts
    exact ⟨h, rfl, rfl, rfl⟩
  | cons p rest ih =>
    obtain ⟨hn, rfl, hdrop⟩ := drop_eq_cons hrest
    rw [inserts] at hinserts
    obtain ⟨t₁, hinsert, hinserts⟩ := bind_eq_ok.mp hinserts
    obtain ⟨h₁, hsame⟩ := insert_inv h hn hs hinsert
    obtain ⟨h₂, hsame'⟩ := ih h₁ hdrop (by rw [hsame.keysPerBucket, hsame.bitsPerBucket]; exact hs) hinserts
    rw [List.length_cons, Nat.add_comm rest.length, ← Nat.add_assoc]
    exact ⟨h₂, hsame'.size.trans hsame.size, hsame'.keysPerBucket.trans hsame.keysPerBucket,
      hsame'.bitsPerBucket.trans hsame.bitsPerBucket⟩

theorem inserts_ok (h : Holds C f pairs t n) (hrest : pairs.drop n = rest) (hsize : pairs.length ≤ t.size)
    (hs : Storable L f t.keysPerBucket t.bitsPerBucket pairs)
    (hread : ∀ n t', Same t t' → n ≤ pairs.length → ReadsBack C f indexOffset destOffset pairs t' n) :
    ∃ t', t.inserts L f indexOffset destOffset rest = .ok t' := by
  induction rest generalizing t n with
  | nil => exact ⟨t, rfl⟩
  | cons p rest ih =>
    obtain ⟨hn, rfl, hdrop⟩ := drop_eq_cons hrest
    obtain ⟨t₁, hinsert⟩ := insert_ok h hn (Nat.lt_of_lt_of_le hn hsize) hs fun t' hsame => hread _ t' hsame hn
    obtain ⟨h₁, hsame⟩ := insert_inv h hn hs hinsert
    obtain ⟨t₂, hinserts⟩ := ih h₁ hdrop (by rw [hsame.size]; exact hsize)
      (by rw [hsame.keysPerBucket, hsame.bitsPerBucket]; exact hs) fun n t' hsame' =>
        hread n t' ⟨hsame'.size.trans hsame.size, hsame'.keysPerBucket.trans hsame.keysPerBucket,
          hsame'.bitsPerBucket.trans hsame.bitsPerBucket⟩
    exact ⟨t₂, by rw [inserts, hinsert, ok_bind, hinserts]⟩

/-- `load_delta` gives the difference that was stored for its id. -/
theorem View.loadDelta {k : Nat} (h : View C f pairs t n) (hk : k < n) (hgroup : k / 2 % L.groupSize ≠ 0) :
    t.loadDelta (L.mask (k / 2)) (L.cell f t.keysPerBucket t.bitsPerBucket pairs k) k =
      .ok (L.delta f t.keysPerBucket t.bitsPerBucket pairs k) := by
  rw [Reloff.loadDelta, cell, if_neg hgroup]
  by_cases hover : Overflows (L.mask (k / 2)) (L.delta f t.keysPerBucket t.bitsPerBucket pairs k)
  · rw [if_pos (code_eq_mask_iff.mpr hover), h.found k hk ⟨hgroup, hover⟩]
  · rw [if_neg (fun heq => hover (code_eq_mask_iff.mp heq)), code_sub_bias hover]

end Runs

end Reloff

end FawnKV.Cindex
