import Mathlib.Data.List.GetD
import Mathlib.Tactic.IntervalCases
import FawnKV.Silt.StandardStoreInvariant

/-! `HashTableDefault`: an open-addressing table of key fragments and record ids. -/
namespace FawnKV.Silt

open ByteFile

namespace HashTableDefault

def hashCount : Nat := 3
def probesBeforeRehash : Nat := 8
def keyfragMask : UInt16 := 0x7fff
def validBitMask : UInt16 := 0x8000

/-- `struct HashEntry`: valid bit, 15 key bits; the id. -/
structure HashEntry where
  presentKey : UInt16 := 0
  id : UInt32 := 0
deriving DecidableEq, Repr

abbrev Hashes := Fin hashCount → Value → UInt32

end HashTableDefault

open HashTableDefault

/-- The table without its cache. With `quadratic` the coefficients `c_1_` and `c_2_` are a half, else
one and zero. -/
structure HashTableDefault where
  quadratic : Bool
  entries : List HashEntry
  currentEntries : UInt64
deriving DecidableEq

namespace HashTableDefault

def create (quadratic : Bool) (hashTableSize : Nat) : HashTableDefault :=
  { quadratic, entries := List.replicate hashTableSize {}, currentEntries := 0 }

def size (t : HashTableDefault) : Nat := t.entries.length

def entry (t : HashTableDefault) (index : Nat) : HashEntry := t.entries.getD index {}

def valid (t : HashTableDefault) (index : Nat) : Bool := (t.entry index).presentKey &&& validBitMask != 0

def verifykey (t : HashTableDefault) (index : Nat) : UInt16 := (t.entry index).presentKey &&& keyfragMask

/-- A `char` is signed: it is sign-extended before it is added. -/
def signExtend (c : UInt8) : UInt16 := c.toInt8.toInt16.toUInt16

def keyfragmentFromKey (key : Value) : UInt16 :=
  if key.length < 2 then signExtend (key.getD 0 0) &&& keyfragMask
  else
    (signExtend (key.getD (key.length - 2) 0) <<< 8 + signExtend (key.getD (key.length - 1) 0)) &&&
      keyfragMask

/-- The place of the `count`-th probe. The numbers of the code are halves at most. The first eight probes
of a hash function are below the precision of a `double`; those of an `Enumerate` with quadratic probing
are only up to some 2 ^ 26 places, and beyond that this is the exact index. -/
def probeIndex (t : HashTableDefault) (hash : UInt32) (count : Nat) : Nat :=
  ((hash.toNat &&& (t.size - 1)) + if t.quadratic then (count + count * count) / 2 else count) &&&
    (t.size - 1)

/-- The places that an iterator of `Find` goes through until `END`. -/
def probePath (hashes : Hashes) (t : HashTableDefault) (key : Value) : List Nat :=
  (List.finRange hashCount).flatMap fun fn =>
    (List.range probesBeforeRehash).map fun count => t.probeIndex (hashes fn key) (count + 1)

/-- Where the iterator stands in its rounds, and the unused place that ends it, if one does. -/
def walk (t : HashTableDefault) (key : Value) : List Nat → List Nat × Option Nat
  | [] => ([], none)
  | index :: path =>
    if !t.valid index then ([], some index)
    else if key = [] ∨ t.verifykey index = keyfragmentFromKey key then
      (index :: (walk t key path).1, (walk t key path).2)
    else walk t key path

def find (hashes : Hashes) (t : HashTableDefault) (key : Value) : List Nat × Option Nat :=
  t.walk key (probePath hashes t key)

def setEntry (t : HashTableDefault) (index : Nat) (e : HashEntry) : HashTableDefault :=
  { t with entries := t.entries.set index e }

/-- The part of `Put` that writes the entry. -/
def fill (t : HashTableDefault) (key : Value) (newId unusedIndex : Nat) : HashTableDefault :=
  { t.setEntry unusedIndex ⟨keyfragmentFromKey key ||| validBitMask, UInt32.ofNat newId⟩ with
    currentEntries := t.currentEntries + 1 }

/-- `Put` at the place that ends the search. -/
def put (hashes : Hashes) (t : HashTableDefault) (key data : Value) : FawnDSReturn × HashTableDefault :=
  let newId := asNumber32 data (2 ^ 32 - 1)
  if newId = 2 ^ 32 - 1 then (.invalidData, t)
  else
    match (t.find hashes key).2 with
    | none => (.insufficientSpace, t)
    | some unusedIndex => (.ok, t.fill key newId unusedIndex)

def replace (t : HashTableDefault) (index : Nat) (data : Value) : FawnDSReturn × HashTableDefault :=
  let newId := asNumber32 data (2 ^ 32 - 1)
  if newId = 2 ^ 32 - 1 then (.invalidData, t)
  else (.ok, t.setEntry index { t.entry index with id := UInt32.ofNat newId })

section Cache

/-- The table with the place that the last search ended at, and the key it was for. -/
structure Cached where
  table : HashTableDefault
  lookupKey : Value
  unusedIndex : Option Nat

/-- What `Find` leaves when it is followed until `END`. -/
def Cached.find (hashes : Hashes) (c : Cached) (key : Value) : Cached :=
  match (c.table.find hashes key).2 with
  | none => c
  | some index => { c with lookupKey := key, unusedIndex := some index }

/-- `Put`, as it is written: from the cache if that is for the key, else with a search of its own. -/
def Cached.put (hashes : Hashes) (c : Cached) (key data : Value) : FawnDSReturn × Cached :=
  let newId := asNumber32 data (2 ^ 32 - 1)
  if newId = 2 ^ 32 - 1 then (.invalidData, c)
  else
    match c.unusedIndex with
    | some index =>
      if c.lookupKey = key then
        (.ok, { table := c.table.fill key newId index, lookupKey := [], unusedIndex := none })
      else
        match (c.table.find hashes key).2 with
        | none => (.insufficientSpace, c.find hashes key)
        | some index => (.ok, { c.find hashes key with table := c.table.fill key newId index })
    | none =>
      match (c.table.find hashes key).2 with
      | none => (.insufficientSpace, c.find hashes key)
      | some index => (.ok, { c.find hashes key with table := c.table.fill key newId index })

/-- The cache is what a search for its key ends at. -/
def Cached.Current (hashes : Hashes) (c : Cached) : Prop :=
  ∀ index, c.unusedIndex = some index → (c.table.find hashes c.lookupKey).2 = some index

variable {hashes : Hashes} {c : Cached} {key : Value}

theorem Cached.Current.find (h : c.Current hashes) (key : Value) : (c.find hashes key).Current hashes := by
  unfold Cached.find
  split
  · exact h
  · rename_i index hfind
    intro index' hindex
    cases hindex
    exact hfind

/-- After a search that went to its end, `Put` is that of the table alone, and the cache is in order
again. This is how `InsertEntry` calls it. -/
theorem Cached.put_find (h : c.Current hashes) (data : Value) :
    (((c.find hashes key).put hashes key data).1, ((c.find hashes key).put hashes key data).2.table) =
      c.table.put hashes key data ∧ ((c.find hashes key).put hashes key data).2.Current hashes := by
  have hcurrent := h.find key
  by_cases hid : asNumber32 data (2 ^ 32 - 1) = 2 ^ 32 - 1
  · have htable : (c.find hashes key).table = c.table := by
      unfold Cached.find
      split <;> rfl
    simp only [Cached.put, HashTableDefault.put, if_pos hid, htable]
    exact ⟨trivial, hcurrent⟩
  cases hfind : (c.table.find hashes key).2 with
  | some index =>
    have hfound : c.find hashes key = { c with lookupKey := key, unusedIndex := some index } := by
      rw [Cached.find, hfind]
    simp only [hfound, Cached.put, HashTableDefault.put, if_neg hid, if_true, hfind]
    exact ⟨trivial, fun index' hindex => absurd hindex (by simp)⟩
  | none =>
    -- the cache cannot be for this key, whose search has no unused place
    have hfound : c.find hashes key = c := by
      rw [Cached.find, hfind]
    have hput : c.put hashes key data = (.insufficientSpace, c) := by
      rw [Cached.put, if_neg hid]
      split
      · rename_i index hindex
        rw [if_neg, hfind]
        · simp only [hfound]
        · intro hkey
          have hfind' := h index hindex
          rw [hkey, hfind] at hfind'
          cases hfind'
      · rw [hfind]
        simp only [hfound]
    rw [hfound, hput]
    simp only [HashTableDefault.put, if_neg hid, hfind]
    exact ⟨trivial, h⟩

theorem entry_setEntry {t : HashTableDefault} {index i : Nat} {e : HashEntry}
    (he : e.presentKey = (t.entry index).presentKey) :
    ((t.setEntry index e).entry i).presentKey = (t.entry i).presentKey := by
  rw [entry, setEntry, List.getD_eq_getElem?_getD, List.getElem?_set]
  by_cases hi : index = i
  · subst hi
    rw [if_pos rfl]
    by_cases hlt : index < t.entries.length
    · rw [if_pos hlt]
      exact he
    · rw [if_neg hlt, entry, List.getD_eq_getElem?_getD, List.getElem?_eq_none (by omega)]
  · rw [if_neg hi]
    rfl

/-- A search does not look at the ids. -/
theorem walk_congr {t t' : HashTableDefault} (h : ∀ i, (t'.entry i).presentKey = (t.entry i).presentKey)
    (key : Value) (path : List Nat) : t'.walk key path = t.walk key path := by
  induction path with
  | nil => rfl
  | cons index path ih =>
    have hvalid : t'.valid index = t.valid index := by rw [valid, valid, h]
    have hkey : t'.verifykey index = t.verifykey index := by rw [verifykey, verifykey, h]
    rw [walk, walk, hvalid, hkey, ih]

theorem find_setEntry {t : HashTableDefault} {index : Nat} {e : HashEntry}
    (he : e.presentKey = (t.entry index).presentKey) :
    ((t.setEntry index e).find hashes key).2 = (t.find hashes key).2 := by
  have hsize : (t.setEntry index e).size = t.size := List.length_set
  have hpath : probePath hashes (t.setEntry index e) key = probePath hashes t key := by
    simp only [probePath, probeIndex, hsize]
    rfl
  rw [HashTableDefault.find, hpath, walk_congr fun i => entry_setEntry he]
  rfl

/-- The cache is in order after `Replace`, too. -/
theorem Cached.Current.replace (h : c.Current hashes) (index : Nat) (data : Value) :
    Current hashes { c with table := (c.table.replace index data).2 } := by
  intro i hi
  rw [← h i hi]
  simp only [HashTableDefault.replace]
  split
  · rfl
  · exact find_setEntry rfl

end Cache

theorem put_shape (hashes : Hashes) (t : HashTableDefault) (key data : Value) :
    (t.put hashes key data).2.quadratic = t.quadratic ∧ (t.put hashes key data).2.size = t.size := by
  rw [put]
  split
  · exact ⟨rfl, rfl⟩
  · split
    · exact ⟨rfl, rfl⟩
    · exact ⟨rfl, List.length_set⟩

theorem replace_shape (t : HashTableDefault) (index : Nat) (data : Value) :
    (t.replace index data).2.quadratic = t.quadratic ∧ (t.replace index data).2.size = t.size := by
  rw [replace]
  split
  · exact ⟨rfl, rfl⟩
  · exact ⟨rfl, List.length_set⟩

variable {hashes : Hashes} {t t' : HashTableDefault} {key data : Value}

theorem or_validBitMask_valid (f : UInt16) : (f ||| validBitMask) &&& validBitMask = validBitMask := by
  apply UInt16.toBitVec_inj.mp
  ext i hi
  simp [validBitMask]
  grind

theorem or_validBitMask_verify (f : UInt16) :
    ((f &&& keyfragMask) ||| validBitMask) &&& keyfragMask = f &&& keyfragMask := by
  apply UInt16.toBitVec_inj.mp
  ext i hi
  simp [keyfragMask, validBitMask]
  interval_cases i <;> simp

theorem keyfragmentFromKey_masked (key : Value) : ∃ f, keyfragmentFromKey key = f &&& keyfragMask := by
  rw [keyfragmentFromKey]
  split
  · exact ⟨_, rfl⟩
  · exact ⟨_, rfl⟩

/-- Where valid entries keep their key, a search yields what it yielded. -/
theorem walk_subset (h : ∀ i, t.valid i = true → (t'.entry i).presentKey = (t.entry i).presentKey)
    (key : Value) (path : List Nat) {index : Nat} (hmem : index ∈ (t.walk key path).1) :
    index ∈ (t'.walk key path).1 := by
  induction path with
  | nil => exact absurd hmem List.not_mem_nil
  | cons i path ih =>
    rw [walk] at hmem ⊢
    by_cases hvalid : t.valid i = true
    · have hvalid' : t'.valid i = true := by
        rw [valid, h i hvalid]
        exact hvalid
      have hkey : t'.verifykey i = t.verifykey i := by rw [verifykey, verifykey, h i hvalid]
      simp only [hvalid, hvalid', hkey, Bool.not_true, Bool.false_eq_true, if_false] at hmem ⊢
      split at hmem
      · rename_i hfrag
        rw [if_pos hfrag]
        rcases List.mem_cons.mp hmem with rfl | hmem
        · exact List.mem_cons_self
        · exact List.mem_cons_of_mem i (ih hmem)
      · rename_i hfrag
        rw [if_neg hfrag]
        exact ih hmem
    · simp only [Bool.not_eq_true] at hvalid
      simp only [hvalid, Bool.not_false, if_true] at hmem
      exact absurd hmem List.not_mem_nil

/-- A search that ended at an unused place goes through that place once it is filled. -/
theorem walk_filled {path : List Nat} {index : Nat} (hunused : (t.walk key path).2 = some index)
    (hother : ∀ i, i ≠ index → t'.entry i = t.entry i) (hvalid : t'.valid index = true)
    (hkey : t'.verifykey index = keyfragmentFromKey key) : index ∈ (t'.walk key path).1 := by
  induction path with
  | nil => cases hunused
  | cons i path ih =>
    rw [walk] at hunused ⊢
    by_cases hi : i = index
    · subst hi
      simp only [hvalid, hkey, or_true, Bool.not_true, Bool.false_eq_true, if_false, if_true]
      exact List.mem_cons_self
    · have hv : t'.valid i = t.valid i := by rw [valid, valid, hother i hi]
      have hk : t'.verifykey i = t.verifykey i := by rw [verifykey, verifykey, hother i hi]
      rw [hv, hk]
      split at hunused
      · cases hunused
        exact absurd rfl hi
      · rename_i hused
        rw [if_neg hused]
        split at hunused
        · rename_i hfrag
          rw [if_pos hfrag]
          exact List.mem_cons_of_mem i (ih hunused)
        · rename_i hfrag
          rw [if_neg hfrag]
          exact ih hunused

theorem walk_unused {path : List Nat} {index : Nat} (h : (t.walk key path).2 = some index) :
    t.valid index = false ∧ index ∈ path := by
  induction path with
  | nil => cases h
  | cons i path ih =>
    rw [walk] at h
    split at h
    · rename_i hunused
      cases h
      exact ⟨by simpa using hunused, List.mem_cons_self⟩
    · split at h <;> exact ⟨(ih h).1, List.mem_cons_of_mem i (ih h).2⟩

theorem walk_valid {path : List Nat} {index : Nat} (h : index ∈ (t.walk key path).1) :
    t.valid index = true := by
  induction path with
  | nil => exact absurd h List.not_mem_nil
  | cons i path ih =>
    rw [walk] at h
    split at h
    · exact absurd h List.not_mem_nil
    · rename_i hvalid
      split at h
      · rcases List.mem_cons.mp h with rfl | h
        · simpa using hvalid
        · exact ih h
      · exact ih h

/-- A valid place is one of the table. -/
theorem lt_size_of_valid {index : Nat} (h : t.valid index = true) : index < t.size := by
  by_contra hge
  rw [valid, entry, List.getD_eq_default _ _ (by rw [size] at hge; omega)] at h
  exact absurd h (by decide)

theorem probeIndex_lt (hsize : t.size ≠ 0) (hash : UInt32) (count : Nat) :
    t.probeIndex hash count < t.size := by
  rw [probeIndex]
  have hle := Nat.and_le_right (n := (hash.toNat &&& (t.size - 1)) +
    if t.quadratic then (count + count * count) / 2 else count) (m := t.size - 1)
  omega

theorem probePath_congr (hquad : t'.quadratic = t.quadratic) (hsize : t'.size = t.size) (key : Value) :
    probePath hashes t' key = probePath hashes t key := by
  simp only [probePath, probeIndex, hquad, hsize]

theorem entry_set_ne {index i : Nat} {e : HashEntry} (hne : i ≠ index) :
    (t.setEntry index e).entry i = t.entry i := by
  rw [entry, setEntry, List.getD_eq_getElem?_getD, List.getElem?_set_ne (Ne.symm hne), entry,
    List.getD_eq_getElem?_getD]

theorem entry_set_self {index : Nat} {e : HashEntry} (hlt : index < t.size) :
    (t.setEntry index e).entry index = e := by
  rw [entry, setEntry, List.getD_eq_getElem?_getD, List.getElem?_set_self hlt, Option.getD_some]

/-- `Find` yields an entry of the id. -/
def Finds (hashes : Hashes) (t : HashTableDefault) (key : Value) (n : Nat) : Prop :=
  ∃ index ∈ (t.find hashes key).1, (t.entry index).id.toNat = n

theorem put_finds {n : Nat} (hsize : t.size ≠ 0) (hput : t.put hashes key data = (.ok, t'))
    (hdata : asNumber32 data (2 ^ 32 - 1) = n) (hn : n < 2 ^ 32) : Finds hashes t' key n := by
  have hshape := put_shape hashes t key data
  rw [hput] at hshape
  rw [put] at hput
  split at hput
  · cases hput
  split at hput
  · cases hput
  · rename_i index hfind
    obtain ⟨-, rfl⟩ := Prod.mk.inj hput
    have hlt : index < t.size := by
      obtain ⟨fn, -, hmem⟩ := List.mem_flatMap.mp (walk_unused hfind).2
      obtain ⟨count, -, rfl⟩ := List.mem_map.mp hmem
      exact probeIndex_lt hsize _ _
    have hentry : (t.fill key (asNumber32 data (2 ^ 32 - 1)) index).entry index =
        ⟨keyfragmentFromKey key ||| validBitMask, UInt32.ofNat (asNumber32 data (2 ^ 32 - 1))⟩ :=
      entry_set_self hlt
    obtain ⟨f, hf⟩ := keyfragmentFromKey_masked key
    refine ⟨index, ?_, ?_⟩
    · rw [find, probePath_congr hshape.1 hshape.2]
      refine walk_filled hfind (fun i hi => entry_set_ne hi) ?_ ?_
      · rw [valid, hentry, or_validBitMask_valid]
        decide
      · rw [verifykey, hentry, hf, or_validBitMask_verify]
    · rw [hentry, hdata, UInt32.toNat_ofNat_of_lt' hn]

theorem put_keeps {key' : Value} {n : Nat} {ret : FawnDSReturn} (h : Finds hashes t key n)
    (hput : t.put hashes key' data = (ret, t')) : Finds hashes t' key n := by
  have hshape := put_shape hashes t key' data
  rw [hput] at hshape
  rw [put] at hput
  split at hput
  · cases hput
    exact h
  split at hput
  · cases hput
    exact h
  · rename_i unused hfind
    obtain ⟨-, rfl⟩ := Prod.mk.inj hput
    obtain ⟨index, hindex, hid⟩ := h
    have hother : ∀ i, t.valid i = true →
        (t.fill key' (asNumber32 data (2 ^ 32 - 1)) unused).entry i = t.entry i := by
      intro i hi
      refine entry_set_ne fun heq => ?_
      rw [heq, (walk_unused hfind).1] at hi
      cases hi
    refine ⟨index, ?_, ?_⟩
    · rw [find, probePath_congr hshape.1 hshape.2]
      exact walk_subset (fun i hi => by rw [hother i hi]) _ _ hindex
    · rw [hother index (walk_valid hindex)]
      exact hid

theorem find_replace (hashes : Hashes) (t : HashTableDefault) (index : Nat) (data key : Value) :
    (t.replace index data).2.find hashes key = t.find hashes key := by
  obtain ⟨hquad, hsize⟩ := replace_shape t index data
  rw [find, probePath_congr hquad hsize, find]
  refine walk_congr (fun i => ?_) _ _
  rw [replace]
  split
  · rfl
  · exact entry_setEntry rfl

theorem replace_finds {index n : Nat} (hindex : index ∈ (t.find hashes key).1)
    (hreplace : t.replace index data = (.ok, t')) (hdata : asNumber32 data (2 ^ 32 - 1) = n)
    (hn : n < 2 ^ 32) : Finds hashes t' key n := by
  have hfind := find_replace hashes t index data key
  rw [hreplace] at hfind
  rw [replace] at hreplace
  split at hreplace
  · cases hreplace
  · obtain ⟨-, rfl⟩ := Prod.mk.inj hreplace
    refine ⟨index, by rw [hfind]; exact hindex, ?_⟩
    rw [entry_set_self (lt_size_of_valid (walk_valid hindex)), hdata]
    exact UInt32.toNat_ofNat_of_lt' hn

theorem replace_keeps {index n : Nat} {ret : FawnDSReturn} (h : Finds hashes t key n)
    (hne : (t.entry index).id.toNat ≠ n) (hreplace : t.replace index data = (ret, t')) :
    Finds hashes t' key n := by
  have hfind := find_replace hashes t index data key
  rw [hreplace] at hfind
  obtain ⟨i, hi, hid⟩ := h
  refine ⟨i, by rw [hfind]; exact hi, ?_⟩
  rw [replace] at hreplace
  split at hreplace
  · cases hreplace
    exact hid
  · obtain ⟨-, rfl⟩ := Prod.mk.inj hreplace
    rw [entry_set_ne, hid]
    rintro rfl
    exact hne hid

/-- The hash table of a `FawnDS_SF`, which calls `Put` only after a search that went to its end. A
table of no entries is read beyond its end. -/
def hashTable (hashes : Hashes) : HashTable HashTableDefault Nat where
  find t key :=
    if t.size = 0 then none
    else some ((t.find hashes key).1.map fun index => (index, leBytes 4 (t.entry index).id.toNat))
  put t key data := if t.size = 0 then none else some (t.put hashes key data)
  replace t index data := some (t.replace index data)

section Contract

variable {L : Set (Value × Nat)} {id : Nat} {v : Value}

/-- The table holds the pairs that its calls have put into it: a search comes by each, no other id stands at
a valid place, and no id stands at two. -/
structure Holds (hashes : Hashes) (t : HashTableDefault) (L : Set (Value × Nat)) : Prop where
  size : t.size ≠ 0
  found : ∀ e ∈ L, Finds hashes t e.1 e.2
  owned : ∀ index, t.valid index = true → ∃ e ∈ L, e.2 = (t.entry index).id.toNat
  unique : ∀ e ∈ L, ∀ e' ∈ L, e.2 = e'.2 → e = e'
  places : ∀ i j, t.valid i = true → t.valid j = true →
    (t.entry i).id.toNat = (t.entry j).id.toNat → i = j

theorem asNumber32_of_denotes (hv : Denotes v id) (hid : id < 2 ^ 32 - 1) :
    asNumber32 v (2 ^ 32 - 1) = id := by
  rw [asNumber32, hv.1]
  exact Nat.mod_eq_of_lt (Nat.lt_of_lt_pred hid)

theorem find_holds (h : Holds hashes t L) (key : Value) :
    ∃ l, (hashTable hashes).find t key = some l ∧ (∀ id, (key, id) ∈ L → ∃ e ∈ l, Denotes e.2 id) ∧
      ∀ e ∈ l, ∃ key' id, (key', id) ∈ L ∧ Denotes e.2 id := by
  have hdenotes : ∀ index, Denotes (leBytes 4 (t.entry index).id.toNat) (t.entry index).id.toNat :=
    fun index => denotes_leBytes (.inl rfl) (t.entry index).id.toNat_lt
  refine ⟨_, if_neg h.size, ?_, ?_⟩
  · intro id hmem
    obtain ⟨index, hindex, hid⟩ := h.found _ hmem
    exact ⟨_, List.mem_map_of_mem hindex, hid ▸ hdenotes index⟩
  · intro e he
    obtain ⟨index, hindex, rfl⟩ := List.mem_map.mp he
    obtain ⟨⟨key', id⟩, hmem, hid⟩ := h.owned index (walk_valid hindex)
    exact ⟨key', id, hmem, hid ▸ hdenotes index⟩

/-- One place gets a new pair, which the others do not have; the pairs in `K` stay. -/
theorem Holds.write {K : Set (Value × Nat)} {key : Value} {index : Nat} (h : Holds hashes t L) (hK : K ⊆ L)
    (hsize : t'.size = t.size) (hself : (t'.entry index).id.toNat = id)
    (hother : ∀ i, i ≠ index → t'.entry i = t.entry i)
    (hfound : ∀ e ∈ insert (key, id) K, Finds hashes t' e.1 e.2)
    (howned : ∀ i, i ≠ index → t.valid i = true → ∃ e ∈ K, e.2 = (t.entry i).id.toNat)
    (hfresh : ∀ e ∈ L, e.2 ≠ id) : Holds hashes t' (insert (key, id) K) := by
  have hvalid : ∀ i, i ≠ index → t'.valid i = true → t.valid i = true := by
    intro i hi hvalid
    rwa [valid, hother i hi] at hvalid
  have hnew : ∀ i, i ≠ index → t'.valid i = true → (t'.entry i).id.toNat ≠ id := by
    intro i hi hat
    obtain ⟨e, he, heq⟩ := howned i hi (hvalid i hi hat)
    rw [hother i hi, ← heq]
    exact hfresh e (hK he)
  refine ⟨hsize ▸ h.size, hfound, ?_, ?_, ?_⟩
  · intro i hat
    by_cases hi : i = index
    · exact ⟨_, Set.mem_insert _ _, by rw [hi, hself]⟩
    · obtain ⟨e, he, hid⟩ := howned i hi (hvalid i hi hat)
      exact ⟨e, Set.mem_insert_of_mem _ he, by rw [hother i hi, hid]⟩
  · rintro e (rfl | he) e' (rfl | he') heq
    · rfl
    · exact absurd heq.symm (hfresh e' (hK he'))
    · exact absurd heq (hfresh e (hK he))
    · exact h.unique e (hK he) e' (hK he') heq
  · intro i j hati hatj heq
    by_cases hi : i = index
    · by_cases hj : j = index
      · rw [hi, hj]
      · rw [hi, hself] at heq
        exact absurd heq.symm (hnew j hj hatj)
    · by_cases hj : j = index
      · rw [hj, hself] at heq
        exact absurd heq (hnew i hi hati)
      · rw [hother i hi, hother j hj] at heq
        exact h.places i j (hvalid i hi hati) (hvalid j hj hatj) heq

theorem put_holds (h : Holds hashes t L) (key : Value) (hv : Denotes v id) (hid : id < 2 ^ 32 - 1)
    (hfresh : ∀ e ∈ L, e.2 ≠ id) :
    ∃ ret t', (hashTable hashes).put t key v = some (ret, t') ∧
      (ret = .ok ∧ Holds hashes t' (insert (key, id) L) ∨
        ret ≠ .ok ∧ ret ≠ .keyNotFound ∧ Holds hashes t' L) := by
  have htable : (hashTable hashes).put t key v = some (t.put hashes key v) := if_neg h.size
  have hnumber := asNumber32_of_denotes hv hid
  cases hfind : (t.find hashes key).2 with
  | none =>
    have hput : t.put hashes key v = (.insufficientSpace, t) := by
      simp only [put, hfind, hnumber, if_neg (Nat.ne_of_lt hid)]
    exact ⟨_, t, by rw [htable, hput], .inr ⟨by decide, by decide, h⟩⟩
  | some unused =>
    have hput : t.put hashes key v = (.ok, t.fill key id unused) := by
      simp only [put, hfind, hnumber, if_neg (Nat.ne_of_lt hid)]
    obtain ⟨hunused, hpath⟩ := walk_unused hfind
    have hindex : unused < t.size := by
      obtain ⟨fn, -, hmem⟩ := List.mem_flatMap.mp hpath
      obtain ⟨count, -, rfl⟩ := List.mem_map.mp hmem
      exact probeIndex_lt h.size _ _
    refine ⟨_, _, by rw [htable, hput], .inl ⟨rfl, ?_⟩⟩
    refine h.write subset_rfl List.length_set ?_ (fun i hi => entry_set_ne hi) ?_ ?_ hfresh
    · have hself : (t.fill key id unused).entry unused =
          ⟨keyfragmentFromKey key ||| validBitMask, UInt32.ofNat id⟩ := entry_set_self hindex
      rw [hself]
      exact UInt32.toNat_ofNat_of_lt' (Nat.lt_of_lt_pred hid)
    · rintro e (rfl | he)
      · exact put_finds h.size hput hnumber (Nat.lt_of_lt_pred hid)
      · exact put_keeps (h.found e he) hput
    · exact fun i _ hat => h.owned i hat

theorem replace_holds {key : Value} {l : List (Nat × Value)} {e : Nat × Value} {old : Nat}
    (h : Holds hashes t L) (hfind : (hashTable hashes).find t key = some l) (he : e ∈ l)
    (hold : Denotes e.2 old) (hmem : (key, old) ∈ L) (hv : Denotes v id) (hid : id < 2 ^ 32 - 1)
    (hfresh : ∀ e ∈ L, e.2 ≠ id) :
    ∃ t', (hashTable hashes).replace t e.1 v = some (.ok, t') ∧
      Holds hashes t' (insert (key, id) (L \ {(key, old)})) := by
  have hnumber := asNumber32_of_denotes hv hid
  obtain rfl := Option.some.inj ((if_neg h.size).symm.trans hfind)
  obtain ⟨index, hindex, rfl⟩ := List.mem_map.mp he
  have hat : t.valid index = true := walk_valid hindex
  obtain rfl : (t.entry index).id.toNat = old :=
    (denotes_leBytes (.inl rfl) (t.entry index).id.toNat_lt).unique hold
  have hreplace : t.replace index v =
      (.ok, t.setEntry index { t.entry index with id := UInt32.ofNat id }) := by
    simp only [replace, hnumber, if_neg (Nat.ne_of_lt hid)]
  refine ⟨_, congrArg some hreplace, ?_⟩
  refine h.write Set.sdiff_subset List.length_set ?_ (fun i hi => entry_set_ne hi) ?_ ?_ hfresh
  · rw [entry_set_self (lt_size_of_valid hat)]
    exact UInt32.toNat_ofNat_of_lt' (Nat.lt_of_lt_pred hid)
  · rintro e (rfl | ⟨he, hne⟩)
    · exact replace_finds hindex hreplace hnumber (Nat.lt_of_lt_pred hid)
    · refine replace_keeps (h.found e he) (fun heq => hne ?_) hreplace
      exact h.unique e he _ hmem heq.symm
  · intro i hi hati
    obtain ⟨e, he, hid⟩ := h.owned i hati
    refine ⟨e, ⟨he, fun heq => hi ?_⟩, hid⟩
    obtain rfl := Set.mem_singleton_iff.mp heq
    exact (h.places index i hat hati hid).symm

/-- The open-addressing table is a hash table that `FawnDS_SF` can use, for every key. -/
def contract (hashes : Hashes) : (hashTable hashes).Contract where
  admits _ := True
  Holds := Holds hashes
  find h _ := find_holds h _
  put h _ hv hid hfresh := put_holds h _ hv (Nat.lt_trans hid (by decide)) hfresh
  replace h hfind he hold hmem hv hid hfresh := by
    obtain ⟨t', hreplace, hholds⟩ :=
      replace_holds h hfind he hold hmem hv (Nat.lt_trans hid (by decide)) hfresh
    exact ⟨.ok, t', hreplace, .inl ⟨rfl, hholds⟩⟩

/-- A new table holds no pair. -/
theorem create_holds {quadratic : Bool} {size : Nat} (hsize : size ≠ 0) :
    Holds hashes (create quadratic size) ∅ := by
  have hvalid : ∀ i, ¬(create quadratic size).valid i = true := by
    intro i
    rw [valid, entry, create, List.getD_eq_getElem?_getD, List.getElem?_replicate]
    split <;> decide
  exact ⟨by rwa [HashTableDefault.size, create, List.length_replicate],
    fun e he => absurd he (Set.notMem_empty e), fun i hi => absurd hi (hvalid i),
    fun e he => absurd he (Set.notMem_empty e), fun i _ hi => absurd hi (hvalid i)⟩

end Contract

end HashTableDefault

end FawnKV.Silt
