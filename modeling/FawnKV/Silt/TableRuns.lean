import FawnKV.Lib.Transition
import FawnKV.Silt.TableIterator
import Mathlib.Data.List.TakeWhile
import Mathlib.Data.UInt

/-! `HashTableDefault` over all calls, with its cache of the place that a search ended at. -/
namespace FawnKV.Silt

open Transition

namespace HashTableDefault

/-- An entry as it was added for a key, with the id that it was given last. -/
structure Added where
  key : Value
  index : Nat
  id : UInt32

/-- The table with its cache and the iterators that callers have; `added` is the history of `Put`. -/
structure System where
  table : HashTableDefault
  lookupKey : Value
  unusedIndex : Option Nat
  iterators : List IteratorElem
  added : List Added

inductive Call where
  | put (key data : Value)
  | find (key : Value)
  | next (n : Nat)
  | contains (key : Value)
  | get (key : Value)
  | replace (n : Nat) (data : Value)

namespace System

def start (quadratic : Bool) (hashTableSize : Nat) : System :=
  { table := create quadratic hashTableSize, lookupKey := [], unusedIndex := none,
    iterators := [], added := [] }

/-- What `Next` puts into the cache. -/
def remember (s : System) (key : Value) : Option Nat → System
  | none => s
  | some index => { s with lookupKey := key, unusedIndex := some index }

def next (s : System) (e : IteratorElem) : Option (System × IteratorElem) :=
  (e.next s.table).map fun r => (s.remember e.key r.2, r.1)

/-- `++` until the end; `none` also where the fuel is used up. -/
def toEnd : Nat → System → IteratorElem → Option (System × IteratorElem)
  | 0, _, _ => none
  | fuel + 1, s, e => if e.atEnd then some (s, e) else (s.next e).bind fun r => toEnd fuel r.1 r.2

/-- The end of `Put`. -/
def fillAt (s : System) (key : Value) (newId index : Nat) : System :=
  { s with
    table := s.table.fill key newId index
    added := s.added ++ [⟨key, index, UInt32.ofNat newId⟩] }

/-- `Replace` of an iterator at the place. -/
def replaceAt (s : System) (index : Nat) (data : Value) : FawnDSReturn × System :=
  let newId := asNumber32 data (2 ^ 32 - 1)
  if newId = 2 ^ 32 - 1 then (.invalidData, s)
  else
    (.ok,
      { s with
        table := (s.table.replace index data).2
        added := s.added.map fun a => if a.index = index then { a with id := UInt32.ofNat newId } else a })

variable (hashes : Hashes)

def find (s : System) (key : Value) : Option (System × IteratorElem) := s.next (beforeFind hashes s.table key)

def put (s : System) (key data : Value) : Option (FawnDSReturn × System) :=
  let newId := asNumber32 data (2 ^ 32 - 1)
  if newId = 2 ^ 32 - 1 then some (.invalidData, s)
  else
    match (if s.lookupKey = key then s.unusedIndex else none) with
    | some index => some (.ok, { s with lookupKey := [], unusedIndex := none }.fillAt key newId index)
    | none => do
      let r ← s.find hashes key
      let q ← toEnd ((probePath hashes s.table key).length + 1) r.1 r.2
      if q.1.table.valid q.2.currentIndex then some (.insufficientSpace, q.1)
      else some (.ok, q.1.fillAt key newId q.2.currentIndex)

def contains (s : System) (key : Value) : Option (FawnDSReturn × System) :=
  (s.find hashes key).map fun r => (if r.2.atEnd then .keyNotFound else .ok, r.1)

/-- `Get` of all the data. -/
def get (s : System) (key : Value) : Option (Except FawnDSReturn Value × System) :=
  (s.find hashes key).map fun r =>
    (if r.2.atEnd then .error .keyNotFound else .ok (ByteFile.leBytes 4
      (r.1.table.entry r.2.currentIndex).id.toNat), r.1)

/-- One call. An iterator at its end is not advanced, and nothing is replaced there. -/
def step (s : System) : Call → Option System
  | .put key data => (s.put hashes key data).map (·.2)
  | .find key => (s.find hashes key).map fun r => { r.1 with iterators := r.1.iterators ++ [r.2] }
  | .next n =>
    match s.iterators[n]? with
    | some e =>
      if e.atEnd then some s else (s.next e).map fun r => { r.1 with iterators := r.1.iterators.set n r.2 }
    | none => some s
  | .contains key => (s.contains hashes key).map (·.2)
  | .get key => (s.get hashes key).map (·.2)
  | .replace n data =>
    match s.iterators[n]? with
    | some e => if e.atEnd then some s else some (s.replaceAt e.currentIndex data).2
    | none => some s

end System

/-- The number of valid entries. -/
def validCount (t : HashTableDefault) : Nat := t.entries.countP fun e => e.presentKey &&& validBitMask != 0

/-- The places that `Find` and `++` come to. -/
def findPlaces (hashes : Hashes) (t : HashTableDefault) (key : Value) : Option (List Nat) :=
  (((beforeFind hashes t key).next t).map (·.1)).bind fun e => e.yields t ((probePath hashes t key).length + 1)

/-- Every `Put` that returned OK added one entry, which `Find` yields with its last id, and the entries are
counted. -/
structure Recorded (hashes : Hashes) (t : HashTableDefault) (added : List Added) : Prop where
  counted : t.currentEntries = UInt64.ofNat t.validCount
  length_eq : added.length = t.validCount
  distinct : (added.map (·.index)).Nodup
  found : ∀ a ∈ added, (∃ places, findPlaces hashes t a.key = some places ∧ a.index ∈ places) ∧
    (t.entry a.index).id = a.id

/-- And a `Put` is refused only where no place that it probes is unused. -/
structure LosesNone (hashes : Hashes) (s : System) : Prop where
  recorded : Recorded hashes s.table s.added
  refused : ∀ key data s', s.put hashes key data = some (.insufficientSpace, s') →
    ∀ index ∈ probePath hashes s.table key, s.table.valid index = true

/-- A `Put` does not find its own key in the cache with a place that has been used since. -/
def PutFresh (s : System) : Call → Prop
  | .put key data => asNumber32 data (2 ^ 32 - 1) ≠ 2 ^ 32 - 1 →
      ∀ index ∈ s.unusedIndex, s.lookupKey = key → s.table.valid index = false
  | _ => True

instance (s : System) (c : Call) : Decidable (PutFresh s c) := by
  unfold PutFresh
  split <;> infer_instance

section Search

variable {hashes : Hashes} {t : HashTableDefault} {e : IteratorElem} {s : System}

/-- The first unused place of a path. -/
def firstUnused (t : HashTableDefault) (path : List Nat) : Option Nat := path.find? fun index => !t.valid index

/-- The entries of the key up to the first unused place. -/
def matching (t : HashTableDefault) (key : Value) (vkey : UInt16) (path : List Nat) : List Nat :=
  (path.takeWhile t.valid).filter fun index => decide (key = [] ∨ t.verifykey index = vkey)

/-- Where the probes fit the iterator, it comes to the matching entries and then to its end. -/
theorem probe_find_yields (hskip : e.skipUnused = false) {path : List Nat} (hpath : ∀ i ∈ path, i < 2 ^ 31)
    (current : Nat)
    {fuel : Nat} (hfuel : path.length < fuel) :
    ((e.probe t path current).map (·.1)).bind (·.yields t fuel) = some (matching t e.key e.vkey path) := by
  induction path generalizing e current fuel with
  | nil =>
    obtain ⟨fuel, rfl⟩ : ∃ f, fuel = f + 1 := ⟨fuel - 1, by omega⟩
    simp [IteratorElem.probe, IteratorElem.yields, matching]
  | cons index rest ih =>
    rw [List.length_cons] at hfuel
    obtain ⟨hindex, hrest⟩ := List.forall_mem_cons.mp hpath
    obtain ⟨fuel, rfl⟩ : ∃ f, fuel = f + 1 := ⟨fuel - 1, by omega⟩
    rw [IteratorElem.probe, if_pos hindex, matching]
    by_cases hvalid : t.valid index = true
    · rw [if_pos hvalid, List.takeWhile_cons_of_pos hvalid]
      by_cases hkey : e.key = [] ∨ t.verifykey index = e.vkey
      · have hnext := ih (e := { e with rest, currentIndex := index, atEnd := false }) hskip hrest index
          (Nat.lt_of_succ_lt_succ hfuel)
        rw [if_pos hkey, Option.map_some, Option.bind_some, IteratorElem.yields, if_neg (by simp),
          IteratorElem.next, List.filter_cons_of_pos (by simpa using hkey)]
        obtain ⟨r, hprobe, hyields⟩ := Option.bind_eq_some_iff.mp hnext
        obtain ⟨q, hq, rfl⟩ := Option.map_eq_some_iff.mp hprobe
        simp only [hq, Option.bind_eq_bind, Option.bind_some, hyields]
        rfl
      · rw [if_neg hkey, List.filter_cons_of_neg (by simpa using hkey)]
        exact ih hskip hrest index (by omega)
    · rw [if_neg hvalid, if_neg (by simp [hskip]), List.takeWhile_cons_of_neg hvalid]
      simp [IteratorElem.yields]

theorem probe_toEnd (hskip : e.skipUnused = false) {path : List Nat} (hpath : ∀ i ∈ path, i < 2 ^ 31)
    (current : Nat)
    {fuel : Nat} (hfuel : path.length < fuel) :
    ∃ e', (((e.probe s.table path current).map fun r => (s.remember e.key r.2, r.1)).bind fun r =>
        System.toEnd fuel r.1 r.2) = some (s.remember e.key (firstUnused s.table path), e') ∧
      e'.currentIndex = (firstUnused s.table path).getD (path.getLastD current) := by
  induction path generalizing e current fuel with
  | nil =>
    obtain ⟨fuel, rfl⟩ : ∃ f, fuel = f + 1 := ⟨fuel - 1, by omega⟩
    exact ⟨_, rfl, rfl⟩
  | cons index rest ih =>
    rw [List.length_cons] at hfuel
    obtain ⟨hindex, hrest⟩ := List.forall_mem_cons.mp hpath
    obtain ⟨fuel, rfl⟩ : ∃ f, fuel = f + 1 := ⟨fuel - 1, by omega⟩
    rw [IteratorElem.probe, if_pos hindex, firstUnused, List.getLastD_cons]
    by_cases hvalid : s.table.valid index = true
    · rw [if_pos hvalid, List.find?_cons_of_neg (by simp [hvalid])]
      by_cases hkey : e.key = [] ∨ s.table.verifykey index = e.vkey
      · rw [if_pos hkey, Option.map_some, Option.bind_some, System.toEnd, if_neg (by simp)]
        exact ih (e := { e with rest, currentIndex := index, atEnd := false }) hskip hrest index
          (Nat.lt_of_succ_lt_succ hfuel)
      · rw [if_neg hkey]
        exact ih hskip hrest index (by omega)
    · rw [if_neg hvalid, if_neg (by simp [hskip]), List.find?_cons_of_pos (by simp [hvalid])]
      exact ⟨_, rfl, rfl⟩

/-- Every place that is probed is one of the table. -/
theorem probePath_lt (hsize : 0 < t.size) {key : Value} {index : Nat} (h : index ∈ probePath hashes t key) :
    index < t.size := by
  obtain ⟨fn, -, hmem⟩ := List.mem_flatMap.mp h
  obtain ⟨count, -, rfl⟩ := List.mem_map.mp hmem
  exact probeIndex_lt (Nat.ne_of_gt hsize) _ _

theorem probePath_ne_nil (hashes : Hashes) (t : HashTableDefault) (key : Value) :
    probePath hashes t key ≠ [] := by
  intro hnil
  have hlen := congrArg List.length hnil
  simp [probePath, probesBeforeRehash, hashCount] at hlen

/-- The size that an `int32_t` reaches. -/
def Small (t : HashTableDefault) : Prop := 0 < t.size ∧ t.size ≤ 2 ^ 31

theorem Small.probes (h : t.Small) (key : Value) : ∀ i ∈ probePath hashes t key, i < 2 ^ 31 :=
  fun _ hi => Nat.lt_of_lt_of_le (probePath_lt h.1 hi) h.2

theorem findPlaces_eq (h : t.Small) (key : Value) :
    findPlaces hashes t key = some (matching t key (keyfragmentFromKey key) (probePath hashes t key)) :=
  probe_find_yields (e := beforeFind hashes t key) rfl (h.probes key) 0 (Nat.lt_succ_self _)

end Search

section Seen

variable {hashes : Hashes} {t t' : HashTableDefault} {key : Value} {path : List Nat} {index : Nat}

/-- Of the places that are probed for the key, those before `path` are valid. -/
def Seen (hashes : Hashes) (t : HashTableDefault) (key : Value) (path : List Nat) : Prop :=
  ∃ before, probePath hashes t key = before ++ path ∧ ∀ i ∈ before, t.valid i = true

/-- No entry becomes unused, and none is for another key. -/
structure Grows (t t' : HashTableDefault) : Prop where
  quadratic_eq : t'.quadratic = t.quadratic
  size_eq : t'.size = t.size
  valid : ∀ i, t.valid i = true → t'.valid i = true

theorem Grows.probePath_eq (h : Grows t t') (hashes : Hashes) (key : Value) :
    probePath hashes t' key = probePath hashes t key :=
  probePath_congr h.quadratic_eq h.size_eq key

theorem Grows.small (h : Grows t t') (hsmall : t.Small) : t'.Small := by
  unfold Small
  rw [h.size_eq]
  exact hsmall

theorem Seen.grows (h : Seen hashes t key path) (hgrows : Grows t t') : Seen hashes t' key path := by
  obtain ⟨before, hpath, hvalid⟩ := h
  exact ⟨before, (hgrows.probePath_eq hashes key).trans hpath, fun i hi => hgrows.valid i (hvalid i hi)⟩

theorem Seen.tail (h : Seen hashes t key (index :: path)) (hvalid : t.valid index = true) :
    Seen hashes t key path := by
  obtain ⟨before, hpath, hbefore⟩ := h
  refine ⟨before ++ [index], by simp [hpath], fun i hi => ?_⟩
  rcases List.mem_append.mp hi with hi | hi
  · exact hbefore i hi
  · cases List.mem_singleton.mp hi
    exact hvalid

theorem Seen.mem (h : Seen hashes t key (index :: path)) : index ∈ probePath hashes t key := by
  obtain ⟨before, hpath, -⟩ := h
  simp [hpath]

theorem seen_firstUnused (h : firstUnused t (probePath hashes t key) = some index) :
    t.valid index = false ∧ ∃ path, Seen hashes t key (index :: path) := by
  obtain ⟨hnot, before, path, hpath, hbefore⟩ := List.find?_eq_some_iff_append.mp h
  refine ⟨by simpa using hnot, path, before, hpath, fun i hi => ?_⟩
  simpa using hbefore i hi

theorem mem_takeWhile_iff : index ∈ path.takeWhile t.valid ↔
    t.valid index = true ∧ ∃ before after, path = before ++ index :: after ∧ ∀ i ∈ before,
      t.valid i = true := by
  constructor
  · intro hmem
    refine ⟨List.mem_takeWhile_imp hmem, ?_⟩
    obtain ⟨before, after, hsplit⟩ := List.append_of_mem hmem
    refine ⟨before, after ++ path.dropWhile t.valid, ?_, fun i hi => ?_⟩
    · rw [← List.cons_append, ← List.append_assoc, ← hsplit, List.takeWhile_append_dropWhile]
    · exact List.mem_takeWhile_imp (hsplit ▸ List.mem_append_left _ hi)
  · rintro ⟨hvalid, before, after, rfl, hbefore⟩
    rw [List.takeWhile_append_of_pos hbefore, List.takeWhile_cons_of_pos hvalid]
    exact List.mem_append_right _ List.mem_cons_self

/-- What `Find` yields: the entries of the key that are behind valid places only. -/
theorem mem_findPlaces (h : t.Small) : (∃ places, findPlaces hashes t key = some places ∧ index ∈ places) ↔
    t.valid index = true ∧ (∃ path, Seen hashes t key (index :: path)) ∧
      (key = [] ∨ t.verifykey index = keyfragmentFromKey key) := by
  rw [findPlaces_eq h]
  simp only [Option.some.injEq, exists_eq_left', matching, List.mem_filter, mem_takeWhile_iff,
    decide_eq_true_eq, and_assoc]
  refine and_congr_right fun _ => and_congr_left fun _ => ?_
  constructor
  · rintro ⟨before, after, hpath, hbefore⟩
    exact ⟨after, before, hpath, hbefore⟩
  · rintro ⟨after, before, hpath, hbefore⟩
    exact ⟨before, after, hpath, hbefore⟩

end Seen

section Entries

variable {hashes : Hashes} {t : HashTableDefault} {added : List Added} {key data : Value} {index newId : Nat}

theorem entry_fill (hindex : index < t.size) :
    (t.fill key newId index).entry index = ⟨keyfragmentFromKey key ||| validBitMask, UInt32.ofNat newId⟩ :=
  entry_set_self hindex

theorem entry_fill_ne {i : Nat} (hne : i ≠ index) : (t.fill key newId index).entry i = t.entry i :=
  entry_set_ne hne

theorem valid_fill (hindex : index < t.size) : (t.fill key newId index).valid index = true := by
  rw [valid, entry_fill hindex, or_validBitMask_valid]
  decide

theorem verifykey_fill (hindex : index < t.size) :
    (t.fill key newId index).verifykey index = keyfragmentFromKey key := by
  obtain ⟨f, hf⟩ := keyfragmentFromKey_masked key
  rw [verifykey, entry_fill hindex, hf, or_validBitMask_verify]

theorem grows_fill (hindex : index < t.size) : Grows t (t.fill key newId index) := by
  refine ⟨rfl, List.length_set, fun i hi => ?_⟩
  by_cases heq : i = index
  · rw [heq]
    exact valid_fill hindex
  · rw [valid, entry_fill_ne heq]
    exact hi

theorem validCount_fill (hindex : index < t.size) :
    (t.fill key newId index).validCount = if t.valid index then t.validCount else t.validCount + 1 := by
  have hentry : t.entry index = t.entries[index] := List.getD_eq_getElem _ _ hindex
  have hcount : (t.fill key newId index).validCount =
      t.validCount - (if t.valid index then 1 else 0) + 1 := by
    have hset := List.countP_set (p := fun e : HashEntry => e.presentKey &&& validBitMask != 0)
      (a := ⟨keyfragmentFromKey key ||| validBitMask, UInt32.ofNat newId⟩) hindex
    have hnew : ((keyfragmentFromKey key ||| validBitMask) &&& validBitMask != 0) = true := by
      rw [or_validBitMask_valid]
      decide
    simp only [hnew, if_true] at hset
    rw [valid, hentry]
    exact hset
  rw [hcount]
  split
  · rename_i hvalid
    have hpos : 0 < t.validCount := by
      rw [valid, hentry] at hvalid
      exact List.countP_pos_iff.mpr ⟨t.entries[index], List.getElem_mem hindex, hvalid⟩
    omega
  · omega

theorem Recorded.valid (h : Recorded hashes t added) (hsmall : t.Small) {a : Added} (ha : a ∈ added) :
    t.valid a.index = true :=
  ((mem_findPlaces hsmall).mp (h.found a ha).1).1

/-- An entry in the place that the search for its key ended at is added to the others. -/
theorem Recorded.fill (h : Recorded hashes t added) (hsmall : t.Small) (hunused : t.valid index = false)
    {path : List Nat} (hseen : Seen hashes t key (index :: path)) (newId : Nat) :
    Recorded hashes (t.fill key newId index) (added ++ [⟨key, index, UInt32.ofNat newId⟩]) := by
  have hindex : index < t.size := probePath_lt hsmall.1 hseen.mem
  have hgrows : Grows t (t.fill key newId index) := grows_fill hindex
  have hcount : (t.fill key newId index).validCount = _ := validCount_fill hindex
  rw [if_neg (by simp [hunused])] at hcount
  have hother : ∀ a ∈ added, a.index ≠ index := by
    intro a ha heq
    have hvalid := h.valid hsmall ha
    rw [heq, hunused] at hvalid
    cases hvalid
  refine ⟨?_, ?_, ?_, fun a ha => ?_⟩
  · rw [hcount, UInt64.ofNat_add, ← h.counted]
    rfl
  · rw [hcount, List.length_append, h.length_eq]
    rfl
  · rw [List.map_append, List.nodup_append]
    refine ⟨h.distinct, List.nodup_singleton _, ?_⟩
    intro i hi j hj
    obtain ⟨a, ha, rfl⟩ := List.mem_map.mp hi
    rw [List.mem_singleton.mp hj]
    exact hother a ha
  · rcases List.mem_append.mp ha with ha | ha
    · obtain ⟨hplaces, hid⟩ := h.found a ha
      obtain ⟨hvalid, ⟨rest, hrest⟩, hkey⟩ := (mem_findPlaces hsmall).mp hplaces
      have hentry : (t.fill key newId index).entry a.index = t.entry a.index := entry_fill_ne (hother a ha)
      refine ⟨(mem_findPlaces (hgrows.small hsmall)).mpr ⟨hgrows.valid _ hvalid,
        ⟨rest, hrest.grows hgrows⟩, ?_⟩, ?_⟩
      · rw [verifykey, hentry]
        exact hkey
      · rw [hentry]
        exact hid
    · cases List.mem_singleton.mp ha
      refine ⟨(mem_findPlaces (hgrows.small hsmall)).mpr ⟨valid_fill hindex,
        ⟨path, hseen.grows hgrows⟩, .inr ?_⟩, ?_⟩
      · exact verifykey_fill hindex
      · rw [entry_fill hindex]

/-- An entry in a place that is used takes that of another one. -/
theorem Recorded.not_fill (h : Recorded hashes t added) (hindex : index < t.size)
    (hused : t.valid index = true) (newId : Nat) :
    ¬Recorded hashes (t.fill key newId index) (added ++ [⟨key, index, UInt32.ofNat newId⟩]) := by
  intro hfill
  have hlen := hfill.length_eq
  rw [validCount_fill hindex, if_pos hused, List.length_append, h.length_eq, List.length_singleton] at hlen
  omega

theorem presentKey_setId (t : HashTableDefault) (index i : Nat) (id : UInt32) :
    ((t.setEntry index { t.entry index with id }).entry i).presentKey = (t.entry i).presentKey :=
  entry_setEntry rfl

theorem valid_setId (t : HashTableDefault) (index i : Nat) (id : UInt32) :
    (t.setEntry index { t.entry index with id }).valid i = t.valid i := by
  rw [HashTableDefault.valid, presentKey_setId]
  rfl

theorem validCount_setId (t : HashTableDefault) (index : Nat) (id : UInt32) :
    (t.setEntry index { t.entry index with id }).validCount = t.validCount := by
  by_cases hindex : index < t.size
  · have hentry : t.entry index = t.entries[index] := List.getD_eq_getElem _ _ hindex
    have hset := List.countP_set (p := fun e : HashEntry => e.presentKey &&& validBitMask != 0)
      (a := { t.entry index with id }) hindex
    refine hset.trans ?_
    rw [hentry]
    split
    · rename_i hvalid
      have hpos : 0 < t.validCount :=
          List.countP_pos_iff.mpr ⟨t.entries[index], List.getElem_mem hindex, hvalid⟩
      exact Nat.sub_add_cancel hpos
    · rfl
  · rw [setEntry, List.set_eq_of_length_le (Nat.le_of_not_lt hindex)]

theorem grows_setId (t : HashTableDefault) (index : Nat) (id : UInt32) :
    Grows t (t.setEntry index { t.entry index with id }) :=
  ⟨rfl, List.length_set, fun i hi => (valid_setId t index i id).trans hi⟩

theorem replaceAt_cases (s : System) (index : Nat) (data : Value) :
    (s.replaceAt index data).2 = s ∨ ∃ id, (s.replaceAt index data).2 =
      { s with
        table := s.table.setEntry index { s.table.entry index with id }
        added := s.added.map fun a => if a.index = index then { a with id } else a } := by
  unfold System.replaceAt replace
  simp only
  split
  · exact .inl rfl
  · exact .inr ⟨_, rfl⟩

/-- The entry keeps its place, and the ids of the others stay. -/
theorem Recorded.setId (h : Recorded hashes t added) (hsmall : t.Small) (index : Nat) (id : UInt32) :
    Recorded hashes (t.setEntry index { t.entry index with id })
      (added.map fun a => if a.index = index then { a with id } else a) := by
  have hgrows := grows_setId t index id
  have hcount := validCount_setId t index id
  have hindexes : (added.map fun a => if a.index = index then { a with id } else a).map
      (·.index) = added.map (·.index) := by
    rw [List.map_map]
    refine List.map_congr_left fun a _ => ?_
    simp only [Function.comp]
    split <;> rfl
  refine ⟨?_, ?_, ?_, fun a ha => ?_⟩
  · rw [hcount]
    exact h.counted
  · rw [hcount, List.length_map]
    exact h.length_eq
  · rw [hindexes]
    exact h.distinct
  · obtain ⟨a₀, ha₀, rfl⟩ := List.mem_map.mp ha
    obtain ⟨hplaces, hid⟩ := h.found a₀ ha₀
    obtain ⟨hvalid, ⟨rest, hrest⟩, hkey⟩ := (mem_findPlaces hsmall).mp hplaces
    have hfound : ∃ places,
        findPlaces hashes (t.setEntry index { t.entry index with id }) a₀.key = some places ∧
        a₀.index ∈ places := by
      refine (mem_findPlaces (hgrows.small hsmall)).mpr ⟨hgrows.valid _ hvalid, ⟨rest, hrest.grows hgrows⟩, ?_⟩
      rw [verifykey, presentKey_setId]
      exact hkey
    by_cases heq : a₀.index = index
    · rw [if_pos heq]
      refine ⟨hfound, ?_⟩
      simp only [heq]
      rw [entry_set_self (heq ▸ lt_size_of_valid hvalid)]
    · rw [if_neg heq]
      refine ⟨hfound, ?_⟩
      rw [entry_set_ne heq]
      exact hid

end Entries

section Calls

variable {hashes : Hashes} {s s' : System} {key data : Value} {ret : FawnDSReturn}

/-- What `Put` does where the place is not in the cache. -/
theorem put_uncached (h : s.table.Small) (hid : asNumber32 data (2 ^ 32 - 1) ≠ 2 ^ 32 - 1)
    (hcache : (if s.lookupKey = key then s.unusedIndex else none) = none) :
    s.put hashes key data =
      match firstUnused s.table (probePath hashes s.table key) with
      | some index => some (.ok, (s.remember key (some index)).fillAt key (asNumber32 data (2 ^ 32 - 1)) index)
      | none => some (.insufficientSpace, s) := by
  obtain ⟨e', hend, hindex⟩ := probe_toEnd (s := s) (e := beforeFind hashes s.table key) rfl (h.probes key) 0
    (Nat.lt_succ_self _)
  have hsearch : ((s.find hashes key).bind fun r =>
      System.toEnd ((probePath hashes s.table key).length + 1) r.1 r.2) =
        some (s.remember key (firstUnused s.table (probePath hashes s.table key)), e') := hend
  obtain ⟨r, hfind, hloop⟩ := Option.bind_eq_some_iff.mp hsearch
  unfold System.put
  simp only [if_neg hid, hcache, hfind, hloop, Option.bind_eq_bind, Option.bind_some, hindex]
  cases hunused : firstUnused s.table (probePath hashes s.table key) with
  | some index =>
    have hnot : s.table.valid index = false := by simpa using List.find?_some hunused
    simp [System.remember, hnot]
  | none =>
    -- the last place of the path is valid, as all are
    have hvalid : s.table.valid ((probePath hashes s.table key).getLast?.getD 0) = true := by
      have hne := probePath_ne_nil hashes s.table key
      have hlast := List.find?_eq_none.mp hunused _ (List.getLast_mem hne)
      rw [List.getLast?_eq_some_getLast hne, Option.getD_some]
      simpa using hlast
    simp [System.remember, hvalid]

theorem put_cached (hid : asNumber32 data (2 ^ 32 - 1) ≠ 2 ^ 32 - 1) {index : Nat}
    (hindex : s.unusedIndex = some index)
    (hkey : s.lookupKey = key) :
    s.put hashes key data =
      some (.ok, { s with lookupKey := [], unusedIndex := none }.fillAt key
        (asNumber32 data (2 ^ 32 - 1)) index) := by
  unfold System.put
  simp only [if_neg hid, if_pos hkey, hindex]

theorem put_invalid (hid : asNumber32 data (2 ^ 32 - 1) = 2 ^ 32 - 1) :
    s.put hashes key data = some (.invalidData, s) := by
  unfold System.put
  simp only [if_pos hid]

/-- The iterator has only seen valid places, if it is not at its end. -/
def Ready (hashes : Hashes) (t : HashTableDefault) (e : IteratorElem) : Prop :=
  e.atEnd = false → e.skipUnused = false ∧ Seen hashes t e.key e.rest

/-- The place in the cache is what a search for its key came to, whatever has become of it since. -/
structure Inv (hashes : Hashes) (s : System) : Prop where
  small : s.table.Small
  cache : ∀ index, s.unusedIndex = some index → ∃ path, Seen hashes s.table s.lookupKey (index :: path)
  iterators : ∀ e ∈ s.iterators, Ready hashes s.table e

theorem probe_spec {t : HashTableDefault} {e : IteratorElem} (hsmall : t.Small) (hskip : e.skipUnused = false)
    {path : List Nat} (hseen : Seen hashes t e.key path) (current : Nat) :
    ∃ e' place, e.probe t path current = some (e', place) ∧ Ready hashes t e' ∧
      ∀ index, place = some index → ∃ rest, Seen hashes t e.key (index :: rest) := by
  induction path generalizing current with
  | nil => exact ⟨_, _, rfl, fun hend => (by cases hend), fun index hindex => (by cases hindex)⟩
  | cons index rest ih =>
    rw [IteratorElem.probe, if_pos (hsmall.probes e.key index hseen.mem)]
    by_cases hvalid : t.valid index = true
    · have hrest := hseen.tail hvalid
      rw [if_pos hvalid]
      by_cases hkey : e.key = [] ∨ t.verifykey index = e.vkey
      · rw [if_pos hkey]
        exact ⟨_, _, rfl, fun _ => ⟨hskip, hrest⟩, fun index hindex => (by cases hindex)⟩
      · rw [if_neg hkey]
        exact ih hrest index
    · rw [if_neg hvalid, if_neg (by simp [hskip])]
      refine ⟨_, _, rfl, fun hend => (by cases hend), fun index' hindex => ?_⟩
      cases hindex
      exact ⟨rest, hseen⟩

/-- A step of an iterator changes the cache only. -/
theorem next_spec {e : IteratorElem} (h : Inv hashes s) (hskip : e.skipUnused = false)
    (hseen : Seen hashes s.table e.key e.rest) :
    ∃ s' e', s.next e = some (s', e') ∧ Inv hashes s' ∧ s'.table = s.table ∧ s'.added = s.added ∧
      s'.iterators = s.iterators ∧ Ready hashes s.table e' := by
  obtain ⟨e', place, hprobe, hready, hplace⟩ := probe_spec h.small hskip hseen e.currentIndex
  have hnext : s.next e = some (s.remember e.key place, e') := by
    rw [System.next, IteratorElem.next, hprobe]
    rfl
  cases place with
  | none => exact ⟨s, e', hnext, h, rfl, rfl, rfl, hready⟩
  | some index =>
    refine ⟨s.remember e.key (some index), e', hnext, ⟨h.small, fun i hi => ?_, h.iterators⟩, rfl,
      rfl, rfl, hready⟩
    cases hi
    exact hplace index rfl

theorem find_spec (h : Inv hashes s) (key : Value) :
    ∃ s' e', s.find hashes key = some (s', e') ∧ Inv hashes s' ∧ s'.table = s.table ∧ s'.added = s.added ∧
      s'.iterators = s.iterators ∧ Ready hashes s.table e' :=
  next_spec h rfl ⟨[], rfl, fun _ hi => absurd hi List.not_mem_nil⟩

/-- What a caller had stays in order where the table grows. -/
theorem Inv.grows (h : Inv hashes s) {t : HashTableDefault} (hgrows : Grows s.table t) (added : List Added) :
    Inv hashes { s with table := t, added } := by
  refine ⟨hgrows.small h.small, fun index hindex => ?_, fun e he hend => ?_⟩
  · obtain ⟨path, hseen⟩ := h.cache index hindex
    exact ⟨path, hseen.grows hgrows⟩
  · obtain ⟨hskip, hseen⟩ := h.iterators e he hend
    exact ⟨hskip, hseen.grows hgrows⟩

/-- `Put`: it takes a place that was seen for the key and, unless the place in the cache is stale, is unused. -/
theorem put_spec (h : Inv hashes s) (key data : Value) :
    ∃ ret s', s.put hashes key data = some (ret, s') ∧ Inv hashes s' ∧
      (ret = .insufficientSpace → ∀ index ∈ probePath hashes s.table key, s.table.valid index = true) ∧
      (Recorded hashes s.table s.added →
        (Recorded hashes s'.table s'.added ↔ PutFresh s (.put key data))) := by
  by_cases hid : asNumber32 data (2 ^ 32 - 1) = 2 ^ 32 - 1
  · exact ⟨_, _, put_invalid hid, h, fun hret => (nomatch hret),
      fun hrecorded => iff_of_true hrecorded fun hne => absurd hid hne⟩
  cases hcache : (if s.lookupKey = key then s.unusedIndex else none) with
  | some index =>
    obtain ⟨hkey, hindex⟩ : s.lookupKey = key ∧ s.unusedIndex = some index := by
      split at hcache
      · exact ⟨by assumption, hcache⟩
      · cases hcache
    obtain ⟨path, hseen⟩ := h.cache index hindex
    rw [hkey] at hseen
    have hlt : index < s.table.size := probePath_lt h.small.1 hseen.mem
    have hcleared : Inv hashes { s with lookupKey := [], unusedIndex := none } :=
      ⟨h.small, fun _ hi => (nomatch hi), h.iterators⟩
    refine ⟨_, _, put_cached hid hindex hkey, hcleared.grows (grows_fill hlt) _, fun hret => (nomatch hret),
      fun hrecorded => ?_⟩
    have hfresh : PutFresh s (.put key data) ↔ s.table.valid index = false := by
      constructor
      · exact fun hfresh => hfresh hid index hindex hkey
      · intro hunused _ i hi _
        rw [hindex] at hi
        cases hi
        exact hunused
    rw [hfresh]
    by_cases hused : s.table.valid index = true
    · exact iff_of_false (hrecorded.not_fill hlt hused _) (by simp [hused])
    · have hunused := Bool.eq_false_iff.mpr hused
      exact iff_of_true (hrecorded.fill h.small hunused hseen _) hunused
  | none =>
    have hput : s.put hashes key data = _ := put_uncached h.small hid hcache
    have hfresh : PutFresh s (.put key data) := by
      intro _ i hi hkey
      rw [if_pos hkey, hi] at hcache
      cases hcache
    cases hunused : firstUnused s.table (probePath hashes s.table key) with
    | some index =>
      rw [hunused] at hput
      obtain ⟨hnot, path, hseen⟩ := seen_firstUnused hunused
      have hremembered : Inv hashes (s.remember key (some index)) := by
        refine ⟨h.small, fun i hi => ?_, h.iterators⟩
        cases hi
        exact ⟨path, hseen⟩
      refine ⟨_, _, hput, hremembered.grows (grows_fill (probePath_lt h.small.1 hseen.mem)) _,
        fun hret => (nomatch hret), fun hrecorded => iff_of_true ?_ hfresh⟩
      exact hrecorded.fill h.small hnot hseen _
    | none =>
      rw [hunused] at hput
      refine ⟨_, _, hput, h, fun _ index hindex => ?_, fun hrecorded => iff_of_true hrecorded hfresh⟩
      simpa using List.find?_eq_none.mp hunused index hindex

/-- The steps that do not put keep what is recorded. -/
theorem step_find (h : Inv hashes s) (key : Value) :
    ∃ s' e', s.find hashes key = some (s', e') ∧ Inv hashes s' ∧
      Inv hashes { s' with iterators := s'.iterators ++ [e'] } ∧
      (Recorded hashes s.table s.added → Recorded hashes s'.table s'.added) := by
  obtain ⟨s', e', hfind, hinv, htable, hadded, -, hready⟩ := find_spec h key
  refine ⟨s', e', hfind, hinv, ⟨hinv.small, hinv.cache, fun e he => ?_⟩, fun hrecorded => ?_⟩
  · rcases List.mem_append.mp he with he | he
    · exact hinv.iterators e he
    · rw [List.mem_singleton.mp he]
      simp only [htable]
      exact hready
  · rw [htable, hadded]
    exact hrecorded

theorem step_spec (h : Inv hashes s) (c : Call) :
    ∃ s', s.step hashes c = some s' ∧ Inv hashes s' ∧
      (Recorded hashes s.table s.added → (Recorded hashes s'.table s'.added ↔ PutFresh s c)) := by
  cases c with
  | put key data =>
    obtain ⟨ret, s', hput, hinv, -, hrecorded⟩ := put_spec h key data
    refine ⟨s', ?_, hinv, hrecorded⟩
    rw [System.step, hput]
    rfl
  | find key =>
    obtain ⟨s', e', hfind, -, hinv, hrecorded⟩ := step_find h key
    refine ⟨_, ?_, hinv, fun hr => iff_of_true (hrecorded hr) trivial⟩
    rw [System.step, hfind]
    rfl
  | contains key =>
    obtain ⟨s', e', hfind, hinv, -, hrecorded⟩ := step_find h key
    refine ⟨s', ?_, hinv, fun hr => iff_of_true (hrecorded hr) trivial⟩
    rw [System.step, System.contains, hfind]
    rfl
  | get key =>
    obtain ⟨s', e', hfind, hinv, -, hrecorded⟩ := step_find h key
    refine ⟨s', ?_, hinv, fun hr => iff_of_true (hrecorded hr) trivial⟩
    rw [System.step, System.get, hfind]
    rfl
  | next n =>
    cases he : s.iterators[n]? with
    | none => exact ⟨s, by simp only [System.step, he], h, fun hr => iff_of_true hr trivial⟩
    | some e =>
      by_cases hend : e.atEnd = true
      · exact ⟨s, by simp only [System.step, he, if_pos hend], h, fun hr => iff_of_true hr trivial⟩
      · obtain ⟨hskip, hseen⟩ := h.iterators e (List.mem_of_getElem? he) (Bool.eq_false_iff.mpr hend)
        obtain ⟨s', e', hnext, hinv, htable, hadded, -, hready⟩ := next_spec h hskip hseen
        refine ⟨{ s' with iterators := s'.iterators.set n e' }, ?_, ⟨hinv.small, hinv.cache, fun i hi => ?_⟩,
          fun hr => iff_of_true ?_ trivial⟩
        · simp only [System.step, he, if_neg hend, hnext]
          rfl
        · rcases List.mem_or_eq_of_mem_set hi with hi | rfl
          · exact hinv.iterators i hi
          · simp only [htable]
            exact hready
        · simp only [htable, hadded]
          exact hr
  | replace n data =>
    cases he : s.iterators[n]? with
    | none => exact ⟨s, by simp only [System.step, he], h, fun hr => iff_of_true hr trivial⟩
    | some e =>
      by_cases hend : e.atEnd = true
      · exact ⟨s, by simp only [System.step, he, if_pos hend], h, fun hr => iff_of_true hr trivial⟩
      · refine ⟨(s.replaceAt e.currentIndex data).2, by simp only [System.step, he, if_neg hend], ?_⟩
        rcases replaceAt_cases s e.currentIndex data with hsame | ⟨id, hreplaced⟩
        · rw [hsame]
          exact ⟨h, fun hr => iff_of_true hr trivial⟩
        · rw [hreplaced]
          exact ⟨h.grows (grows_setId _ _ _) _, fun hr => iff_of_true (hr.setId h.small _ _) trivial⟩

theorem losesNone_iff (h : Inv hashes s) : LosesNone hashes s ↔ Recorded hashes s.table s.added := by
  refine ⟨LosesNone.recorded, fun hrecorded => ⟨hrecorded, fun key data s' hput => ?_⟩⟩
  obtain ⟨ret, t, hput', -, hrefused, -⟩ := put_spec h key data
  rw [hput] at hput'
  cases hput'
  exact hrefused rfl

end Calls

section Runs

variable {hashes : Hashes} {s : System} {calls : List Call}

theorem create_size (quadratic : Bool) (n : Nat) : (create quadratic n).size = n := List.length_replicate

theorem inv_start (hashes : Hashes) (quadratic : Bool) {k : Nat} (hk : k ≤ 31) :
    Inv hashes (System.start quadratic (2 ^ k)) := by
  refine ⟨?_, fun index hindex => (nomatch hindex), fun e he => (nomatch he)⟩
  have hsize : (System.start quadratic (2 ^ k)).table.size = 2 ^ k := create_size quadratic (2 ^ k)
  unfold Small
  rw [hsize]
  exact ⟨Nat.two_pow_pos k, Nat.pow_le_pow_right (by decide) hk⟩

/-- In a larger table a search may come to a place that does not fit an `int32_t`. -/
theorem probeIndex_large (quadratic : Bool) {k : Nat} (hk : 31 < k) :
    (create quadratic (2 ^ k)).probeIndex (2 ^ 31 - 1) 1 = 2 ^ 31 := by
  have hpow : 2 ^ 31 < 2 ^ k := Nat.pow_lt_pow_right (by decide) hk
  have hquadratic : (create quadratic (2 ^ k)).quadratic = quadratic := rfl
  have hcount : (if quadratic then (1 + 1 * 1) / 2 else 1) = 1 := by cases quadratic <;> rfl
  have hhash : (2 ^ 31 - 1 : UInt32).toNat = 2 ^ 31 - 1 := by decide
  have hinner : (2 ^ 31 - 1) % 2 ^ k = 2 ^ 31 - 1 := Nat.mod_eq_of_lt (by omega)
  rw [probeIndex, create_size, hquadratic, hcount, hhash, Nat.and_two_pow_sub_one_eq_mod,
    Nat.and_two_pow_sub_one_eq_mod, hinner]
  exact Nat.mod_eq_of_lt hpow

theorem find_large (quadratic : Bool) {k : Nat} (hk : 31 < k) (key : Value) :
    System.step (fun _ _ => 2 ^ 31 - 1) (System.start quadratic (2 ^ k)) (.find key) = none := by
  obtain ⟨rest, hpath⟩ : ∃ rest, probePath (fun _ _ => 2 ^ 31 - 1) (create quadratic (2 ^ k)) key =
      (create quadratic (2 ^ k)).probeIndex (2 ^ 31 - 1) 1 :: rest := ⟨_, rfl⟩
  rw [probeIndex_large quadratic hk] at hpath
  have hnext : (beforeFind (fun _ _ => 2 ^ 31 - 1) (create quadratic (2 ^ k)) key).next
      (create quadratic (2 ^ k)) = none := by
    rw [IteratorElem.next, beforeFind]
    simp only [hpath]
    rw [IteratorElem.probe, if_neg (Nat.lt_irrefl _)]
  simp only [System.step, System.find, System.next, System.start, hnext]
  rfl

theorem recorded_create (hashes : Hashes) (quadratic : Bool) (n : Nat) :
    Recorded hashes (create quadratic n) [] := by
  have hcount : (create quadratic n).validCount = 0 := by
    rw [validCount, create, List.countP_replicate]
    simp
  refine ⟨?_, ?_, List.nodup_nil, fun a ha => absurd ha List.not_mem_nil⟩
  · rw [hcount]
    rfl
  · rw [hcount]
    rfl

theorem losesNone_iff_of_le (hashes : Hashes) (quadratic : Bool) {k : Nat} (hk : k ≤ 31)
    (calls : List Call) :
    ∃ s, run (System.step hashes) (System.start quadratic (2 ^ k)) calls = some s ∧
      (Always (System.step hashes) (LosesNone hashes) (System.start quadratic (2 ^ k)) calls ↔
        Meets (System.step hashes) PutFresh (System.start quadratic (2 ^ k)) calls) := by
  have hstart := inv_start hashes quadratic hk
  obtain ⟨s, hrun, -⟩ := exists_run_of_meets (I := Inv hashes) (C := fun _ _ => True)
    (fun s c _ h => (step_spec h c).imp fun t ht => ⟨ht.1, ht.2.1⟩)
      (meets_of_forall (fun _ _ => trivial) _ calls) hstart
  refine ⟨s, hrun, ?_⟩
  apply always_iff_meets_of_invariant (I := Inv hashes) ?_ ?_ hrun hstart
  · exact (losesNone_iff hstart).mpr (recorded_create hashes quadratic (2 ^ k))
  · intro s c t hstep h
    obtain ⟨t', hstep', hinv, -⟩ := step_spec h c
    rw [hstep] at hstep'
    cases hstep'
    exact hinv
  · intro s c t hstep h hlosesNone
    obtain ⟨t', hstep', hinv, hrecorded⟩ := step_spec h c
    rw [hstep] at hstep'
    cases hstep'
    rw [losesNone_iff hinv]
    exact hrecorded ((losesNone_iff h).mp hlosesNone)

/-- Over all calls, from an empty table of `2 ^ k` places: the table loses no entry exactly as long as no
`Put` finds its own key in the cache with a place that has been used since. This is so of the sizes that an
`int32_t` reaches; in every larger table there are hash functions and calls that leave the memory. -/
theorem losesNone_iff_putFresh (quadratic : Bool) (k : Nat) :
    (∀ (hashes : Hashes) (calls : List Call),
      ∃ s, run (System.step hashes) (System.start quadratic (2 ^ k)) calls = some s ∧
        (Always (System.step hashes) (LosesNone hashes) (System.start quadratic (2 ^ k)) calls ↔
          Meets (System.step hashes) PutFresh (System.start quadratic (2 ^ k)) calls)) ↔ k ≤ 31 := by
  constructor
  · intro hruns
    by_contra hk
    obtain ⟨s, hrun, -⟩ := hruns (fun _ _ => 2 ^ 31 - 1) [.find []]
    rw [run, find_large quadratic (Nat.lt_of_not_le hk)] at hrun
    cases hrun
  · intro hk hashes calls
    exact losesNone_iff_of_le hashes quadratic hk calls

/-- Two entries of one key, with a search between them. -/
theorem losesNone_iff_putFresh_searched : Always (System.step fun _ _ => 0) (LosesNone fun _ _ => 0)
    (System.start false (2 ^ 2)) [.put [1, 2] [7], .find [1, 2], .next 0, .put [1, 2] [9], .replace 0 [8]] := by
  obtain ⟨s, -, hkeeps⟩ := (losesNone_iff_putFresh false 2).mpr (by decide) (fun _ _ => 0)
    [.put [1, 2] [7], .find [1, 2], .next 0, .put [1, 2] [9], .replace 0 [8]]
  exact hkeeps.mpr (by decide +kernel)

/-- Without the search, both calls return OK, and the second entry is written over the first one. -/
theorem put_put_overwrites :
    (run (System.step fun _ _ => 0) (System.start false (2 ^ 2)) [.put [1, 2] [7], .put [1, 2] [9]]).map
        (fun s => (s.added.length, s.table.validCount, s.table.currentEntries)) = some (2, 1, 2) ∧
      ¬Always (System.step fun _ _ => 0) (LosesNone fun _ _ => 0) (System.start false (2 ^ 2))
        [.put [1, 2] [7], .put [1, 2] [9]] := by
  have hend : (run (System.step fun _ _ => 0) (System.start false (2 ^ 2))
      [.put [1, 2] [7], .put [1, 2] [9]]).map
      (fun s => (s.added.length, s.table.validCount, s.table.currentEntries)) = some (2, 1, 2) := by
    decide +kernel
  refine ⟨hend, fun halways => ?_⟩
  obtain ⟨s, hrun, hs⟩ := Option.map_eq_some_iff.mp hend
  obtain ⟨hkept, -⟩ :=
      run_invariant_of_always (I := fun _ => True) (fun _ _ _ _ _ _ _ => trivial) hrun halways trivial
  have hlen := hkept.recorded.length_eq
  rw [Prod.mk.injEq, Prod.mk.injEq] at hs
  rw [hs.1, hs.2.1] at hlen
  cases hlen

end Runs

end HashTableDefault

end FawnKV.Silt
