import FawnKV.Cindex.SemiDirectReloff

/-! `semi_direct_16_absoff_bucketing`: the differences themselves stand in the fields, and one that does not fit
fails an assertion. -/
namespace FawnKV.Cindex

open Checked

structure SemiDirectAbsoff where
  size : Nat
  bucketInfo : List Nat
  currentI : Nat
  lastIndexOffsets : List (BitVec 64)
  lastDestOffsets : List (BitVec 64)

namespace SemiDirectAbsoff

open SemiDirectReloff (place load store layout contract width)

def resize (size : Nat) : SemiDirectAbsoff :=
  let size := if size % 16 ≠ 0 then (size + 15) / 16 * 16 else size
  { size
    bucketInfo := List.replicate (2 * (size / 16 * 5)) 0
    currentI := 0
    lastIndexOffsets := List.replicate 16 0
    lastDestOffsets := List.replicate 16 0 }

section Functions

variable (t : SemiDirectAbsoff)

/-- `index_offset` for type 0 and `dest_offset` for type 1. -/
def offset (type i : Nat) : Except Fault (BitVec 64) := do
  let _ ← require (i < t.size)
  if i % 16 = 0 then
    let v ← load t.bucketInfo (place i) type
    .ok (BitVec.ofNat 64 v)
  else if i % 4 = 0 then
    let v ← load t.bucketInfo (place i) type
    let base ← offset type (i - 4)
    .ok (BitVec.ofNat 64 v + base)
  else
    let v ← load t.bucketInfo (place i) type
    let base ← offset type (i - 1)
    .ok (BitVec.ofNat 64 v + base)
termination_by i
decreasing_by all_goals omega

/-- What `insert` stores for an offset, from the last offsets of its kind. -/
def toStore (last : List (BitVec 64)) (i : Nat) (offset : BitVec 64) : Except Fault (BitVec 64) :=
  if i % 16 = 0 then .ok offset
  else if i % 4 = 0 then do
    let base ← get last ((i - 4) % 16)
    .ok (offset - base)
  else do
    let base ← get last ((i - 1) % 16)
    .ok (offset - base)

def insert (index dest : BitVec 64) : Except Fault SemiDirectAbsoff := do
  let i := t.currentI
  let _ ← require (i < t.size)
  let indexDelta ← toStore t.lastIndexOffsets i index
  let destDelta ← toStore t.lastDestOffsets i dest
  let bucketInfo ← store t.bucketInfo (place i) 0 indexDelta.toNat
  let bucketInfo ← store bucketInfo (place i) 1 destDelta.toNat
  let t := { t with bucketInfo }
  let storedIndex ← t.offset 0 i
  let _ ← require (storedIndex = index)
  let storedDest ← t.offset 1 i
  let _ ← require (storedDest = dest)
  let lastIndexOffsets ← set t.lastIndexOffsets (i % 16) index
  let lastDestOffsets ← set t.lastDestOffsets (i % 16) dest
  .ok { t with lastIndexOffsets, lastDestOffsets, currentI := i + 1 }

def inserts (t : SemiDirectAbsoff) : List (BitVec 64 × BitVec 64) → Except Fault SemiDirectAbsoff
  | [] => .ok t
  | p :: pairs => do
    let t ← t.insert p.1 p.2
    inserts t pairs

end Functions

/-- Number `k` of those that are stored, two for each bucket. -/
def number (pairs : List (BitVec 64 × BitVec 64)) (k : Nat) : BitVec 64 :=
  if k / 2 % 16 = 0 then Layout.offset pairs k
  else Layout.offset pairs k - Layout.offset pairs (k - 2 * layout.back (k / 2))

/-- Every number fits in its field. -/
def Fits (pairs : List (BitVec 64 × BitVec 64)) : Prop :=
  ∀ k < 2 * pairs.length, (number pairs k).toNat < 2 ^ width (k / 2)

/-- The first `k` numbers are stored, and the fields of the others are empty. -/
structure View (pairs : List (BitVec 64 × BitVec 64)) (t : SemiDirectAbsoff) (k : Nat) : Prop where
  fits : contract.Fits t.size t.bucketInfo
  read : ∀ j < k, load t.bucketInfo (place (j / 2)) (j % 2) = .ok (number pairs j).toNat
  free : ∀ j, k ≤ j → j / 2 < t.size → load t.bucketInfo (place (j / 2)) (j % 2) = .ok 0

section Storage

variable {pairs : List (BitVec 64 × BitVec 64)} {t : SemiDirectAbsoff} {k i n v type : Nat}

theorem mask_iff : (if i % 16 = 0 then v < 2 ^ 32 else v ≤ (place i).mask) ↔ v < 2 ^ width i := by
  rw [SemiDirectReloff.mask_eq]
  by_cases hi : i % 16 = 0
  · rw [if_pos hi, width, if_pos hi]
  · have hpos := Nat.two_pow_pos (width i)
    rw [if_neg hi]
    omega

theorem store_ok (h : View pairs t k) (hk : k / 2 < t.size)
    (hfits : (number pairs k).toNat < 2 ^ width (k / 2)) :
    ∃ m, store t.bucketInfo (place (k / 2)) (k % 2) (number pairs k).toNat = .ok m ∧
      View pairs { t with bucketInfo := m } (k + 1) := by
  obtain ⟨m, hm, hfits, hread, hother⟩ := contract.write h.fits hk (h.free k le_rfl hk) (mask_iff.mpr hfits)
  refine ⟨m, hm, hfits, fun j hj => ?_, fun j hj hsize => ?_⟩
  · rcases Nat.lt_succ_iff_lt_or_eq.mp hj with hlt | rfl
    · exact (hother j (by omega) (by omega)).1.trans (h.read j hlt)
    · exact hread
  · have hsame := (hother j hsize (by omega)).1
    exact hsame.trans (h.free j (by omega) hsize)

/-- The assertion in `store`. -/
theorem store_error (hv : ¬v < 2 ^ width i) (m : List Nat) (type : Nat) :
    store m (place i) type v = .error .assertion := by
  have hmask : v &&& (place i).mask ≠ v := by
    rw [SemiDirectReloff.mask_eq, Nat.and_two_pow_sub_one_eq_mod]
    intro heq
    exact hv (heq ▸ Nat.mod_lt v (Nat.two_pow_pos _))
  rw [store, require, if_neg hmask, error_bind]

theorem back_le (hi : i % 16 ≠ 0) : 0 < layout.back i ∧ layout.back i ≤ i % 16 := contract.back i hi

/-- Reading a bucket adds up the differences from the first bucket of its group on. -/
theorem offset_ok (h : View pairs t n) (htype : type < 2) (hi : 2 * i + type < n) (hsize : i < t.size) :
    t.offset type i = .ok (Layout.offset pairs (2 * i + type)) := by
  induction i using Nat.strong_induction_on with
  | _ i ih =>
    have hdiv : (2 * i + type) / 2 = i := by omega
    have hmod : (2 * i + type) % 2 = type := by omega
    have hread := h.read (2 * i + type) hi
    rw [hdiv, hmod] at hread
    rw [offset, require_ok hsize, ok_bind]
    by_cases hgroup : i % 16 = 0
    · rw [if_pos hgroup, hread, ok_bind, number, hdiv, if_pos hgroup, BitVec.ofNat_toNat, BitVec.setWidth_eq]
    · have hnumber : number pairs (2 * i + type) =
          Layout.offset pairs (2 * i + type) - Layout.offset pairs (2 * (i - layout.back i) + type) := by
        have hle := (back_le hgroup).2
        have hback : 2 * i + type - 2 * layout.back i = 2 * (i - layout.back i) + type := by omega
        rw [number, hdiv, if_neg hgroup, hback]
      rw [if_neg hgroup]
      by_cases hfour : i % 4 = 0
      · rw [SemiDirectReloff.back_four hfour] at hnumber
        rw [if_pos hfour, hread, ok_bind, ih (i - 4) (by omega) (by omega) (by omega), ok_bind, hnumber,
          BitVec.ofNat_toNat, BitVec.setWidth_eq, BitVec.sub_add_cancel]
      · rw [SemiDirectReloff.back_one hfour] at hnumber
        rw [if_neg hfour, hread, ok_bind, ih (i - 1) (by omega) (by omega) (by omega), ok_bind, hnumber,
          BitVec.ofNat_toNat, BitVec.setWidth_eq, BitVec.sub_add_cancel]

/-- The table after `n` inserts. -/
structure Holds (pairs : List (BitVec 64 × BitVec 64)) (t : SemiDirectAbsoff) (n : Nat) : Prop where
  view : View pairs t (2 * n)
  currentI : t.currentI = n
  length_index : t.lastIndexOffsets.length = 16
  length_dest : t.lastDestOffsets.length = 16
  last : ∀ j < n, n ≤ j + 16 → t.lastIndexOffsets[j % 16]? = some (Layout.offset pairs (2 * j + 0)) ∧
    t.lastDestOffsets[j % 16]? = some (Layout.offset pairs (2 * j + 1))

theorem toStore_ok {last : List (BitVec 64)} (htype : type < 2)
    (hlast : ∀ j < n, n ≤ j + 16 → last[j % 16]? = some (Layout.offset pairs (2 * j + type))) :
    toStore last n (Layout.offset pairs (2 * n + type)) = .ok (number pairs (2 * n + type)) := by
  have hdiv : (2 * n + type) / 2 = n := by omega
  rw [toStore, number, hdiv]
  by_cases hgroup : n % 16 = 0
  · rw [if_pos hgroup, if_pos hgroup]
  · rw [if_neg hgroup, if_neg hgroup]
    by_cases hfour : n % 4 = 0
    · have hback : 2 * n + type - 2 * 4 = 2 * (n - 4) + type := by omega
      rw [if_pos hfour, get_ok (hlast (n - 4) (by omega) (by omega)), ok_bind,
        SemiDirectReloff.back_four hfour, hback]
    · have hback : 2 * n + type - 2 * 1 = 2 * (n - 1) + type := by omega
      rw [if_neg hfour, get_ok (hlast (n - 1) (by omega) (by omega)), ok_bind,
        SemiDirectReloff.back_one hfour, hback]

theorem insert_ok (h : Holds pairs t n) (hsize : n < t.size)
    (hindex : (number pairs (2 * n + 0)).toNat < 2 ^ width n)
    (hdest : (number pairs (2 * n + 1)).toNat < 2 ^ width n) :
    ∃ t', t.insert (Layout.offset pairs (2 * n + 0)) (Layout.offset pairs (2 * n + 1)) = .ok t' ∧
      t'.size = t.size ∧ Holds pairs t' (n + 1) := by
  have hdiv : (2 * n + 0) / 2 = n := by omega
  have hdiv' : (2 * n + 1) / 2 = n := by omega
  have hmod : (2 * n + 0) % 2 = 0 := by omega
  have hmod' : (2 * n + 1) % 2 = 1 := by omega
  obtain ⟨m, hm, hview⟩ := store_ok (k := 2 * n + 0) h.view (by omega) (by rw [hdiv]; exact hindex)
  obtain ⟨m', hm', hview'⟩ := store_ok (k := 2 * n + 1) hview (by rw [hdiv']; exact hsize)
    (by rw [hdiv']; exact hdest)
  rw [hdiv, hmod] at hm
  rw [hdiv', hmod'] at hm'
  have hview' : View pairs { t with bucketInfo := m' } (2 * n + 2) := hview'
  have hread := offset_ok hview' (show 0 < 2 by decide) (i := n) (by omega) hsize
  have hread' := offset_ok hview' (show 1 < 2 by decide) (i := n) (by omega) hsize
  have hlast := Nat.mod_lt n (show 0 < 16 by decide)
  have hcurrent := h.currentI
  subst hcurrent
  rw [insert]
  dsimp only
  rw [require_ok hsize, ok_bind, toStore_ok (by decide) fun j hj hle => (h.last j hj hle).1, ok_bind,
    toStore_ok (by decide) fun j hj hle => (h.last j hj hle).2, ok_bind, hm, ok_bind, hm', ok_bind, hread,
    ok_bind, require_ok rfl, ok_bind, hread', ok_bind, require_ok rfl, ok_bind,
    set_ok (h.length_index ▸ hlast), ok_bind, set_ok (h.length_dest ▸ hlast), ok_bind]
  refine ⟨_, rfl, rfl, ⟨hview'.fits, hview'.read, hview'.free⟩, rfl, ?_, ?_, fun j hj hle => ?_⟩
  · exact List.length_set.trans h.length_index
  · exact List.length_set.trans h.length_dest
  · exact ⟨Reloff.last_set (x := fun j => Layout.offset pairs (2 * j + 0)) h.length_index (by decide)
        (fun j hj hle => (h.last j hj hle).1) hj hle,
      Reloff.last_set (x := fun j => Layout.offset pairs (2 * j + 1)) h.length_dest (by decide)
        (fun j hj hle => (h.last j hj hle).2) hj hle⟩

theorem insert_error (h : Holds pairs t n)
    (hnot : ¬(n < t.size ∧ (number pairs (2 * n + 0)).toNat < 2 ^ width n ∧
      (number pairs (2 * n + 1)).toNat < 2 ^ width n)) :
    t.insert (Layout.offset pairs (2 * n + 0)) (Layout.offset pairs (2 * n + 1)) = .error .assertion := by
  rw [insert, h.currentI]
  dsimp only
  by_cases hsize : n < t.size
  · rw [require_ok hsize, ok_bind, toStore_ok (by decide) fun j hj hle => (h.last j hj hle).1, ok_bind,
      toStore_ok (by decide) fun j hj hle => (h.last j hj hle).2, ok_bind]
    by_cases hindex : (number pairs (2 * n + 0)).toNat < 2 ^ width n
    · have hdiv : (2 * n + 0) / 2 = n := by omega
      have hmod : (2 * n + 0) % 2 = 0 := by omega
      obtain ⟨m, hm, -⟩ := store_ok (k := 2 * n + 0) h.view (by omega) (by rw [hdiv]; exact hindex)
      rw [hdiv, hmod] at hm
      rw [hm, ok_bind, store_error (fun hdest => hnot ⟨hsize, hindex, hdest⟩), error_bind]
    · rw [store_error hindex, error_bind]
  · rw [require, if_neg hsize, error_bind]

theorem offset_pair (pairs : List (BitVec 64 × BitVec 64)) (i : Nat) :
    Layout.offset pairs (2 * i + 0) = (Layout.pairAt pairs i).1 ∧
      Layout.offset pairs (2 * i + 1) = (Layout.pairAt pairs i).2 := by
  have hdiv : (2 * i + 0) / 2 = i := by omega
  have hdiv' : (2 * i + 1) / 2 = i := by omega
  rw [Layout.offset, Layout.offset, if_pos (by omega), if_neg (by omega), hdiv, hdiv']
  exact ⟨rfl, rfl⟩

/-- The pairs from the `n`th on can be inserted. -/
def Storable (pairs : List (BitVec 64 × BitVec 64)) (size n : Nat) : Prop :=
  ∀ i, n ≤ i → i < pairs.length → i < size ∧ (number pairs (2 * i + 0)).toNat < 2 ^ width i ∧
    (number pairs (2 * i + 1)).toNat < 2 ^ width i

/-- All of the pairs are inserted, or an assertion fails. -/
theorem inserts_spec {rest : List (BitVec 64 × BitVec 64)} (h : Holds pairs t n)
    (hrest : pairs.drop n = rest) :
    (Storable pairs t.size n → ∃ t', t.inserts rest = .ok t' ∧ t'.size = t.size ∧
        Holds pairs t' (n + rest.length)) ∧
      (¬Storable pairs t.size n → t.inserts rest = .error .assertion) := by
  induction rest generalizing t n with
  | nil =>
    refine ⟨fun _ => ⟨t, rfl, rfl, h⟩, fun hnot => absurd (fun i hn hi => ?_) hnot⟩
    have hlen := List.drop_eq_nil_iff.mp hrest
    omega
  | cons p rest ih =>
    obtain ⟨hlt, rfl, hdrop⟩ := Reloff.drop_eq_cons hrest
    obtain ⟨hindex, hdest⟩ := offset_pair pairs n
    rw [inserts, ← hindex, ← hdest]
    by_cases hfirst : n < t.size ∧ (number pairs (2 * n + 0)).toNat < 2 ^ width n ∧
        (number pairs (2 * n + 1)).toNat < 2 ^ width n
    · obtain ⟨t', hinsert, hsize, h'⟩ := insert_ok h hfirst.1 hfirst.2.1 hfirst.2.2
      have hnext : Storable pairs t.size n ↔ Storable pairs t'.size (n + 1) := by
        rw [hsize]
        constructor
        · exact fun hs i hn hi => hs i (by omega) hi
        · intro hs i hn hi
          rcases Nat.eq_or_lt_of_le hn with rfl | hlater
          · exact hfirst
          · exact hs i hlater hi
      have hrun := ih h' hdrop
      rw [hinsert, ok_bind, hnext, ← hsize, List.length_cons, Nat.add_comm rest.length, ← Nat.add_assoc]
      exact hrun
    · rw [insert_error h hfirst, error_bind]
      exact ⟨fun hs => absurd (hs n le_rfl hlt) hfirst, fun _ => rfl⟩

theorem resize_holds (size : Nat) (pairs : List (BitVec 64 × BitVec 64)) : Holds pairs (resize size) 0 where
  view :=
    { fits := ⟨SemiDirectReloff.resize_size size 0 0, List.length_replicate⟩
      read := fun _ hj => absurd hj (Nat.not_lt_zero _)
      free := fun _ _ hk => SemiDirectReloff.resize_free size 0 0 hk }
  currentI := rfl
  length_index := List.length_replicate
  length_dest := List.length_replicate
  last := fun _ hj => absurd hj (Nat.not_lt_zero _)

theorem storable_iff : Storable pairs (resize n).size 0 ↔ pairs.length ≤ (n + 15) / 16 * 16 ∧ Fits pairs := by
  have hsize : (resize n).size = (n + 15) / 16 * 16 := by
    rw [resize]
    dsimp only
    split
    · rfl
    · omega
  rw [hsize]
  constructor
  · intro h
    refine ⟨?_, fun k hk => ?_⟩
    · by_contra hlong
      exact absurd (h ((n + 15) / 16 * 16) (Nat.zero_le _) (by omega)).1 (lt_irrefl _)
    · obtain ⟨-, hindex, hdest⟩ := h (k / 2) (Nat.zero_le _) (by omega)
      rcases Nat.mod_two_eq_zero_or_one k with heven | hodd
      · rwa [show 2 * (k / 2) + 0 = k by omega] at hindex
      · rwa [show 2 * (k / 2) + 1 = k by omega] at hdest
  · rintro ⟨hlen, hfits⟩ i - hi
    have hindex := hfits (2 * i + 0) (by omega)
    have hdest := hfits (2 * i + 1) (by omega)
    rw [show (2 * i + 0) / 2 = i by omega] at hindex
    rw [show (2 * i + 1) / 2 = i by omega] at hdest
    exact ⟨by omega, hindex, hdest⟩

end Storage

/-- What is inserted is read back, or one of the assertions ends the run: there is no place for a pair, or a
difference does not fit in its field. -/
theorem semi_direct_offsets (size : Nat) (pairs : List (BitVec 64 × BitVec 64)) :
    (pairs.length ≤ (size + 15) / 16 * 16 ∧ Fits pairs → ∃ t, (resize size).inserts pairs = .ok t ∧
        ∀ i p, pairs[i]? = some p → t.offset 0 i = .ok p.1 ∧ t.offset 1 i = .ok p.2) ∧
      (¬(pairs.length ≤ (size + 15) / 16 * 16 ∧ Fits pairs) →
        (resize size).inserts pairs = .error .assertion) := by
  obtain ⟨hok, herror⟩ := inserts_spec (resize_holds size pairs) (List.drop_zero (l := pairs))
  rw [storable_iff] at hok herror
  refine ⟨fun hfits => ?_, herror⟩
  obtain ⟨t, hrun, hsize, hholds⟩ := hok hfits
  refine ⟨t, hrun, fun i p hp => ?_⟩
  obtain ⟨hlt, hget⟩ := List.getElem?_eq_some_iff.mp hp
  have hpair : Layout.pairAt pairs i = p := by rw [Layout.pairAt, List.getD_eq_getElem _ _ hlt, hget]
  have hi : i < t.size := by
    have hstored := (storable_iff.mpr hfits) i (Nat.zero_le i) hlt
    rw [hsize]
    exact hstored.1
  obtain ⟨hindex, hdest⟩ := offset_pair pairs i
  have hread := offset_ok hholds.view (show 0 < 2 by decide) (i := i) (by omega) hi
  have hread' := offset_ok hholds.view (show 1 < 2 by decide) (i := i) (by omega) hi
  rw [hindex, hpair] at hread
  rw [hdest, hpair] at hread'
  exact ⟨hread, hread'⟩

end SemiDirectAbsoff

end FawnKV.Cindex
