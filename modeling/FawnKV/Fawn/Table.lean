import FawnKV.Fawn.Store
import FawnKV.Lib.OpenAddressing
import Mathlib.Tactic.IntervalCases

/-! The hash table of a FAWN-DS store as open addressing: every live slot shows a key, the offset of
its record and the value of that record. -/
namespace FawnKV.Fawn

open ByteFile OpenAddressing

section Bits

theorem insertedKey_valid (f : UInt16) : (f ||| validBitMask) &&& validBitMask = validBitMask := by
  apply UInt16.toBitVec_inj.mp
  ext i hi
  simp [validBitMask]
  grind

theorem insertedKey_deleted (f : UInt16) :
    ((f &&& keyfragMask) ||| validBitMask) &&& deletedBitMask = 0 := by
  apply UInt16.toBitVec_inj.mp
  ext i hi
  simp [keyfragMask, validBitMask, deletedBitMask]
  interval_cases i <;> simp

theorem insertedKey_verify (f : UInt16) :
    ((f &&& keyfragMask) ||| validBitMask) &&& keyfragMask = f &&& keyfragMask := by
  apply UInt16.toBitVec_inj.mp
  ext i hi
  simp [keyfragMask, validBitMask]
  interval_cases i <;> simp

theorem markedKey_deleted (f : UInt16) :
    (f ||| deletedBitMask) &&& deletedBitMask = deletedBitMask := by
  apply UInt16.toBitVec_inj.mp
  ext i hi
  simp [deletedBitMask]
  grind

theorem markedKey_valid (f : UInt16) :
    (f ||| deletedBitMask) &&& validBitMask = f &&& validBitMask := by
  apply UInt16.toBitVec_inj.mp
  ext i hi
  simp [deletedBitMask, validBitMask]
  interval_cases i <;> simp

theorem keyfragmentFromKey_masked (key : Bytes) :
    ∃ f, keyfragmentFromKey key = f &&& keyfragMask := by
  unfold keyfragmentFromKey
  split
  · exact ⟨_, rfl⟩
  · exact ⟨_, rfl⟩

/-- A probe window of a power-of-two table lies inside the table. -/
theorem hashIndexStart_add_le {n : Nat} (hn : 3 ≤ n) {size : UInt64} (hsize : size.toNat = 2 ^ n)
    (x : UInt32) : (hashIndexStart size x).toNat + 8 ≤ 2 ^ n := by
  unfold hashIndexStart
  generalize ha : (x.toUInt64 &&& (size - 1)).toUInt32 = a
  have hle : (a &&& ~~~7).toNat ≤ a.toNat := by
    rw [UInt32.toNat_and]
    exact Nat.and_le_left
  have hmod : (a &&& ~~~7).toNat % 8 = 0 := by
    have h7 : (a &&& ~~~7) &&& 7 = 0 := by
      rw [UInt32.and_assoc, show (~~~7 &&& 7 : UInt32) = 0 by decide, UInt32.and_zero]
    have h8 := congrArg UInt32.toNat h7
    rw [UInt32.toNat_and] at h8
    exact (Nat.and_two_pow_sub_one_eq_mod _ 3).symm.trans h8
  have hpred : (size - 1).toNat = 2 ^ n - 1 := by
    have h1 : (1 : UInt64) ≤ size := by
      rw [UInt64.le_iff_toNat_le, hsize]
      exact Nat.one_le_two_pow
    rw [UInt64.toNat_sub_of_le _ _ h1, hsize]
    rfl
  have hlt : a.toNat < 2 ^ n := by
    have hand : (x.toUInt64 &&& (size - 1)).toNat = x.toNat % 2 ^ n := by
      rw [UInt64.toNat_and, hpred, Nat.and_two_pow_sub_one_eq_mod]
      simp
    rw [← ha, UInt64.toNat_toUInt32, hand]
    exact lt_of_le_of_lt (Nat.mod_le _ _) (Nat.mod_lt _ (Nat.two_pow_pos n))
  have hdvd : 2 ^ n % 8 = 0 := by
    obtain ⟨m, rfl⟩ := Nat.exists_eq_add_of_le hn
    rw [Nat.pow_add]
    exact Nat.mul_mod_right 8 _
  omega

theorem probePath_lt {n : Nat} (hn : 3 ≤ n) {size : UInt64} (hsize : size.toNat = 2 ^ n)
    {hashes : Hashes} {key : Bytes} {i : Nat} (hi : i ∈ probePath hashes size key) :
    i < size.toNat := by
  simp only [probePath, List.mem_flatMap, List.mem_map, List.mem_range, probesBeforeRehash] at hi
  obtain ⟨fn, _, j, hj, rfl⟩ := hi
  have := hashIndexStart_add_le hn hsize (hashes fn key)
  omega

end Bits

namespace FawnDS

/-- What a hash entry shows: a key with the offset and the value of its record. -/
def TableSlot (ds : FawnDS) (i : Nat) : Slot Bytes (Nat × Bytes) → Prop
  | .empty => ds.valid i = false
  | .tombstone => ds.valid i = true ∧ ds.deleted i = true
  | .live k (offset, v) => ds.valid i = true ∧ ds.deleted i = false ∧
      ds.verifykey i = keyfragmentFromKey k ∧ (ds.entry i).offset.toNat = offset ∧
      HasRecord ds.datastore offset ⟨k, v, false⟩

/-- The store shows the table `t`, for keys of any length. -/
structure Table (hashes : Hashes) (ds : FawnDS) (t : Nat → Slot Bytes (Nat × Bytes)) : Prop where
  slots : ∀ i, TableSlot ds i (t i)
  reach : Reachable (ds.path hashes) t
  logEnd : ds.datastore.length = ds.header.dataInsertionPoint
  size : ∃ n, 3 ≤ n ∧ ds.header.hashtableSize.toNat = 2 ^ n

/-- What `Get` reports for a map value: its flag, and the string it was given empty. -/
def found : Option Bytes → Bool × Bytes
  | some v => (true, v)
  | none => (false, [])

theorem found_none : found none = (false, []) := rfl

theorem found_some (v : Bytes) : found (some v) = (true, v) := rfl

theorem found_eq_false {o : Option Bytes} : found o = (false, []) ↔ o = none := by
  cases o <;> simp [found]

variable {hashes : Hashes} {ds : FawnDS} {t : Nat → Slot Bytes (Nat × Bytes)}
  {key k v : Bytes} {p : Nat × Bytes} {i j : Nat} {e : HashEntry} {is : List Nat} {writeLog : Bool}

theorem entry_setEntry (hi : i < ds.header.hashtableSize.toNat) (j : Nat) :
    (ds.setEntry i e).entry j = if j = i then e else ds.entry j := by
  have hlt : i < ds.hashTable.size := by rw [ds.sizeEq]; exact hi
  by_cases hj : j = i
  · subst j
    simp [entry, setEntry, hlt]
  · simp [entry, setEntry, hj, Array.getElem?_setIfInBounds_ne (Ne.symm hj)]

theorem Table.path_lt (h : Table hashes ds t) {k : Bytes} (hi : i ∈ ds.path hashes k) :
    i < ds.header.hashtableSize.toNat := by
  obtain ⟨n, hn, hsize⟩ := h.size
  exact probePath_lt hn hsize hi

theorem path_eq {ds' : FawnDS} (h : ds'.header.hashtableSize = ds.header.hashtableSize)
    (hashes : Hashes) : ds'.path hashes = ds.path hashes := by
  funext key
  rw [path, h, path]

section Search

theorem recordHasKey_live (h : TableSlot ds i (.live k p)) (key : Bytes) :
    ds.recordHasKey i key = decide (k = key) := by
  obtain ⟨-, -, -, hoffset, hrecord⟩ := h
  rw [recordHasKey, hoffset, hrecord.readIntoHeader_insert]
  by_cases hk : k = key <;> simp [hk]

theorem matches_live (h : TableSlot ds i (.live k p)) (key : Bytes) :
    (ds.verifykey i == keyfragmentFromKey key && ds.recordHasKey i key) = decide (k = key) := by
  rw [recordHasKey_live h, h.2.2.1]
  by_cases hk : k = key <;> simp [hk]

theorem findHashIndexIn_eq (hslots : ∀ i, TableSlot ds i (t i)) (key : Bytes) (is : List Nat) :
    ds.findHashIndexIn key is = find t key is := by
  induction is with
  | nil => rfl
  | cons i is ih =>
    have hi := hslots i
    cases hs : t i with
    | empty =>
      rw [hs] at hi
      have hv : ds.valid i = false := hi
      simp [findHashIndexIn, find, hs, hv]
    | tombstone =>
      rw [hs] at hi
      simp [findHashIndexIn, find, hs, hi.1, hi.2, ih]
    | live k p =>
      rw [hs] at hi
      simp [findHashIndexIn, find, hs, hi.1, hi.2.1, matches_live hi, ih]

/-- An insert takes the slot that open addressing chooses, and counts a new object when it is free. -/
theorem findHashIndexInsertIn_eq_map (hslots : ∀ i, TableSlot ds i (t i)) (key : Bytes) (is : List Nat) :
    ds.findHashIndexInsertIn key is = (findInsert t key is).map fun i => (i, (t i).isFree) := by
  induction is with
  | nil => rfl
  | cons i is ih =>
    have hi := hslots i
    cases hs : t i with
    | empty =>
      rw [hs] at hi
      have hv : ds.valid i = false := hi
      simp [findHashIndexInsertIn, findInsert, existsAt, hs, hv]
    | tombstone =>
      rw [hs] at hi
      simp [findHashIndexInsertIn, findInsert, existsAt, hs, hi.1, hi.2]
    | live k p =>
      rw [hs] at hi
      by_cases hk : k = key
      · simp [findHashIndexInsertIn, findInsert, existsAt, hs, hi.1, hi.2.1, matches_live hi, hk]
      · simp [findHashIndexInsertIn, findInsert, existsAt, hs, hi.1, hi.2.1, matches_live hi, hk, ih]

theorem findHashIndexInsertIn_eq (hslots : ∀ i, TableSlot ds i (t i)) (key : Bytes)
    (is : List Nat) : (ds.findHashIndexInsertIn key is).map Prod.fst = findInsert t key is := by
  rw [findHashIndexInsertIn_eq_map hslots, Option.map_map]
  exact Option.map_id'

/-- An old object is one that is found. -/
theorem live_of_oldObj (hslots : ∀ i, TableSlot ds i (t i))
    (h : ds.findHashIndexInsertIn k is = some (i, false)) : ∃ p, t i = .live k p := by
  rw [findHashIndexInsertIn_eq_map hslots, Option.map_eq_some_iff] at h
  obtain ⟨j, hfind, hj⟩ := h
  obtain ⟨rfl, hfree⟩ := Prod.mk.inj hj
  obtain ⟨-, -, -, -, hkey⟩ := findInsert_split hfind
  cases hs : t j with
  | live k' p => exact ⟨p, by rw [hkey k' p hs]⟩
  | _ => simp [hs] at hfree

/-- `Get` finds the first entry of the key when all stored keys have its length. -/
theorem getIn_eq (hslots : ∀ i, TableSlot ds i (t i))
    (hlen : ∀ i k p, t i = .live k p → k.length = key.length) (is : List Nat) :
    ds.getIn key [] is = found ((find t key is).bind fun i => (t i).value?.map Prod.snd) := by
  induction is with
  | nil => rfl
  | cons i is ih =>
    have hi := hslots i
    cases hs : t i with
    | empty =>
      rw [hs] at hi
      have hv : ds.valid i = false := hi
      simp [getIn, find, hs, hv, found]
    | tombstone =>
      rw [hs] at hi
      simp [getIn, find, hs, hi.1, hi.2, ih]
    | live k p =>
      rw [hs] at hi
      obtain ⟨hvalid, hdeleted, hverify, hoffset, hrecord⟩ := hi
      have hread := hrecord.read key (hlen i k p hs).symm
      by_cases hk : k = key
      · simp [getIn, find, hs, hvalid, hdeleted, hverify, hoffset, hread, hk, found]
      · by_cases hv : keyfragmentFromKey k = keyfragmentFromKey key <;>
          simp [getIn, find, hs, hvalid, hdeleted, hverify, hoffset, hread, hk, hv, ih]

theorem Table.findHashIndex_eq (h : Table hashes ds t) (key : Bytes) :
    ds.findHashIndex hashes key = find t key (ds.path hashes key) :=
  findHashIndexIn_eq h.slots key _

theorem Table.findHashIndexInsert_eq (h : Table hashes ds t) (key : Bytes) :
    (ds.findHashIndexInsert hashes key).map Prod.fst = findInsert t key (ds.path hashes key) :=
  findHashIndexInsertIn_eq h.slots key _

/-- `Get` returns the value of the first entry of the key on its path. -/
theorem Table.get_eq (h : Table hashes ds t) (hlen : ∀ i k p, t i = .live k p → k.length = key.length) :
    ds.get hashes key [] = found ((lookup (ds.path hashes) t key).map Prod.snd) := by
  rw [h.reach.lookup_eq, Option.map_bind]
  exact getIn_eq h.slots hlen _

end Search

section Update

theorem entry_create (headerSize : Nat) (size : UInt64) (i : Nat) : (create headerSize size).entry i = {} := by
  simp [entry, create, Array.getElem?_replicate]
  split <;> rfl

/-- A fresh table has no entries. -/
theorem existsAt_create (headerSize : Nat) (size : UInt64) (i : Nat) :
    (create headerSize size).existsAt i = false := by
  simp [existsAt, valid, entry_create]

theorem table_create (headerSize : Nat) {size : UInt64} {n : Nat} (hn : 3 ≤ n)
    (hsize : size.toNat = 2 ^ n) : Table hashes (create headerSize size) fun _ => .empty where
  slots i := by simp [TableSlot, valid, entry_create]
  reach := by
    intro i k v h
    simp at h
  logEnd := by simp [create]
  size := ⟨n, hn, hsize⟩

/-- Slots that an update does not touch keep their meaning while the log only grows. -/
theorem TableSlot.frame {ds' : FawnDS} {s : Slot Bytes (Nat × Bytes)} (h : TableSlot ds i s)
    (he : ds'.entry i = ds.entry i) (hlog : ∃ g, ds'.datastore = ds.datastore ++ g) :
    TableSlot ds' i s := by
  obtain ⟨g, hg⟩ := hlog
  cases s with
  | empty => simpa [TableSlot, valid, he] using h
  | tombstone => simpa [TableSlot, valid, deleted, he] using h
  | live k p =>
    obtain ⟨h1, h2, h3, h4, h5⟩ := h
    refine ⟨?_, ?_, ?_, ?_, ?_⟩
    · simpa [valid, he] using h1
    · simpa [deleted, he] using h2
    · simpa [verifykey, he] using h3
    · rw [he, h4]
    · rw [hg]
      exact h5.append g

/-- One entry is rewritten, the log grows by `g`, and the header keeps its size. -/
theorem Table.update {ds' : FawnDS} {s : Slot Bytes (Nat × Bytes)} (h : Table hashes ds t)
    (hentry : ∀ j, j ≠ i → ds'.entry j = ds.entry j)
    (hlog : ∃ g, ds'.datastore = ds.datastore ++ g)
    (hsize : ds'.header.hashtableSize = ds.header.hashtableSize)
    (hend : ds'.datastore.length = ds'.header.dataInsertionPoint)
    (hslot : TableSlot ds' i s)
    (hreach : Reachable (ds.path hashes) (Function.update t i s)) :
    Table hashes ds' (Function.update t i s) where
  slots j := by
    by_cases hj : j = i
    · subst j
      simpa using hslot
    · simpa [hj] using (h.slots j).frame (hentry j hj) hlog
  reach := by
    rw [path_eq hsize]
    exact hreach
  logEnd := hend
  size := by
    rw [hsize]
    exact h.size

theorem insertAt_datastore (hend : ds.datastore.length = ds.header.dataInsertionPoint)
    (newObj : Bool) : (ds.insertAt i newObj k v).datastore =
      ds.datastore ++ ((DataHeader.mk v.length k.length false).toBytes ++ k ++ v) := by
  simp only [insertAt, FawnDSFlash.write]
  rw [← hend, pwrite_length]

theorem tableSlot_insertAt (hi : i < ds.header.hashtableSize.toNat)
    (hend : ds.datastore.length = ds.header.dataInsertionPoint) (newObj : Bool)
    (hpoint : ds.header.dataInsertionPoint < 2 ^ 32) (hk : k.length < 2 ^ 32) (hv : v.length < 2 ^ 32) :
    TableSlot (ds.insertAt i newObj k v) i (.live k (ds.header.dataInsertionPoint, v)) := by
  have he : (ds.insertAt i newObj k v).entry i =
      ⟨keyfragmentFromKey k ||| validBitMask, UInt32.ofNat ds.header.dataInsertionPoint⟩ :=
    (entry_setEntry hi i).trans (if_pos rfl)
  have hoff : (UInt32.ofNat ds.header.dataInsertionPoint).toNat = ds.header.dataInsertionPoint :=
    UInt32.toNat_ofNat_of_lt' hpoint
  obtain ⟨f, hf⟩ := keyfragmentFromKey_masked k
  refine ⟨?_, ?_, ?_, ?_, ?_⟩
  · rw [valid, he, insertedKey_valid]
    decide
  · rw [deleted, he, hf, insertedKey_deleted]
    decide
  · rw [verifykey, he, hf, insertedKey_verify]
  · rw [he]
    exact hoff
  · have hrec := HasRecord.write_length (k := k) (v := v) ds.datastore hk hv
    rw [FawnDSFlash.write, pwrite_length, ← insertAt_datastore hend newObj, hend] at hrec
    exact hrec

/-- A record written below `2 ^ 32` is the live entry of the slot that open addressing chooses. -/
theorem Table.insertAt (h : Table hashes ds t) (hi : findInsert t k (ds.path hashes k) = some i)
    (newObj : Bool) (hpoint : ds.header.dataInsertionPoint < 2 ^ 32) (hk : k.length < 2 ^ 32)
    (hv : v.length < 2 ^ 32) : Table hashes (ds.insertAt i newObj k v)
      (Function.update t i (.live k (ds.header.dataInsertionPoint, v))) := by
  obtain ⟨pre, post, hpath, _, _⟩ := findInsert_split hi
  have hlt : i < ds.header.hashtableSize.toNat := h.path_lt (k := k) (by simp [hpath])
  refine h.update ?_ ⟨_, insertAt_datastore h.logEnd newObj⟩ rfl ?_
    (tableSlot_insertAt hlt h.logEnd newObj hpoint hk hv) (reachable_insert h.reach hi)
  · intro j hj
    exact (entry_setEntry hlt j).trans (if_neg hj)
  · change (ds.insertAt i newObj k v).datastore.length =
      ds.header.dataInsertionPoint + dataHeaderSize + k.length + v.length
    rw [insertAt_datastore h.logEnd, ← h.logEnd]
    simp only [List.length_append, DataHeader.length_toBytes]
    omega

/-- A successful insert rewrites the slot that open addressing chooses. -/
theorem Table.insert_true (h : Table hashes ds t) (hok : (ds.insert hashes k v).1 = true)
    (hbound : (ds.insert hashes k v).2.header.dataInsertionPoint < 2 ^ 32) :
    ∃ i newObj, findInsert t k (ds.path hashes k) = some i ∧
      ds.findHashIndexInsert hashes k = some (i, newObj) ∧
      (ds.insert hashes k v).2 = ds.insertAt i newObj k v ∧
      Table hashes (ds.insert hashes k v).2
        (Function.update t i (.live k (ds.header.dataInsertionPoint, v))) := by
  have hfind := h.findHashIndexInsert_eq k
  unfold insert at hok hbound ⊢
  by_cases hfull : (ds.header.numberElements == ds.header.hashtableSize) = true
  · simp [hfull] at hok
  · simp only [hfull] at hok hbound ⊢
    cases hidx : ds.findHashIndexInsert hashes k with
    | none => simp [hidx] at hok
    | some r =>
      obtain ⟨i, newObj⟩ := r
      simp only [hidx, Option.map_some] at hfind hbound ⊢
      have hi : findInsert t k (ds.path hashes k) = some i := hfind.symm
      have hpoint : ds.header.dataInsertionPoint + dataHeaderSize + k.length + v.length < 2 ^ 32 :=
        hbound
      exact ⟨i, newObj, hi, rfl, rfl, h.insertAt hi newObj (by omega) (by omega) (by omega)⟩

theorem insert_false (hok : (ds.insert hashes k v).1 = false) : (ds.insert hashes k v).2 = ds := by
  unfold insert at hok ⊢
  split
  · rfl
  · split
    · rfl
    · simp_all

theorem insert_insertionPoint (hok : (ds.insert hashes k v).1 = true) :
    (ds.insert hashes k v).2.header.dataInsertionPoint =
      ds.header.dataInsertionPoint + dataHeaderSize + k.length + v.length := by
  unfold insert at hok ⊢
  split
  · simp_all
  · split
    · simp_all
    · rfl

theorem logDelete_datastore (hend : ds.datastore.length = ds.header.dataInsertionPoint) :
    (ds.logDelete k).datastore =
      ds.datastore ++ ((DataHeader.mk 0 k.length true).toBytes ++ k) := by
  have hlen : ds.datastore.length + dataHeaderSize =
      (ds.datastore ++ (DataHeader.mk 0 k.length true).toBytes).length := by simp
  simp only [logDelete, FawnDSFlash.delete]
  rw [← hend, pwrite_length, hlen, pwrite_length, List.append_assoc]

theorem Table.logDelete (h : Table hashes ds t) (k : Bytes) : Table hashes (ds.logDelete k) t where
  slots i := (h.slots i).frame rfl ⟨_, logDelete_datastore h.logEnd⟩
  reach := h.reach
  logEnd := by
    rw [logDelete_datastore h.logEnd]
    change _ = ds.header.dataInsertionPoint + dataHeaderSize + k.length
    rw [← h.logEnd]
    simp only [List.length_append, DataHeader.length_toBytes]
    omega
  size := h.size

theorem Table.countDelete (h : Table hashes ds t) : Table hashes ds.countDelete t where
  slots i := (h.slots i).frame rfl ⟨[], (List.append_nil _).symm⟩
  reach := h.reach
  logEnd := h.logEnd
  size := h.size

/-- Marking the entry that the search found leaves a tombstone. -/
theorem Table.markDeleted (h : Table hashes ds t) (hi : find t k (ds.path hashes k) = some i) :
    Table hashes (ds.markDeleted i) (Function.update t i .tombstone) := by
  have hlt := h.path_lt (find_mem hi)
  obtain ⟨v, hv⟩ := find_holds hi
  have hslot := h.slots i
  rw [hv] at hslot
  have he : (ds.markDeleted i).entry i = { ds.entry i with
      presentKey := (ds.entry i).presentKey ||| deletedBitMask } :=
    (entry_setEntry hlt i).trans (if_pos rfl)
  refine h.update ?_ ⟨[], by simp [FawnDS.markDeleted, setEntry]⟩ rfl h.logEnd ?_
    (reachable_tombstone h.reach)
  · intro j hj
    exact (entry_setEntry hlt j).trans (if_neg hj)
  · constructor
    · rw [valid, he, markedKey_valid]
      exact hslot.1
    · rw [deleted, he, markedKey_deleted]
      decide

/-- Only entries of the key have become tombstones. -/
def Erased (k : Bytes) (t t' : Nat → Slot Bytes (Nat × Bytes)) : Prop :=
  ∀ i, t' i = t i ∨ t' i = .tombstone ∧ ∃ p, t i = .live k p

theorem Erased.of_tombstone {t' : Nat → Slot Bytes (Nat × Bytes)} (hp : t i = .live k p)
    (h : Erased k (Function.update t i .tombstone) t') : Erased k t t' ∧ t' i = .tombstone := by
  have hi : t' i = .tombstone := by
    rcases h i with he | he
    · simpa using he
    · exact he.1
  refine ⟨fun j => ?_, hi⟩
  by_cases hj : j = i
  · subst j
    exact Or.inr ⟨hi, p, hp⟩
  · simpa [Function.update_of_ne hj] using h j

/-- The loop of `Delete` ends with no entry of the key left, and touches no other key. -/
theorem Table.eliminateStale (h : Table hashes ds t) (k : Bytes) (fuel : Nat)
    (hfuel : copies t k (ds.path hashes k) ≤ fuel) :
    ∃ t', Table hashes (FawnDS.eliminateStale hashes k fuel ds) t' ∧ Erased k t t' ∧
      (FawnDS.eliminateStale hashes k fuel ds).header = ds.header ∧
      (FawnDS.eliminateStale hashes k fuel ds).datastore = ds.datastore ∧
      find t' k (ds.path hashes k) = none ∧
      ∀ k', k' ≠ k → lookup (ds.path hashes) t' k' = lookup (ds.path hashes) t k' := by
  induction fuel generalizing ds t with
  | zero =>
    exact ⟨t, h, fun i => Or.inl rfl, rfl, rfl, find_eq_none_of_copies_eq_zero (by omega), fun _ _ => rfl⟩
  | succ fuel ih =>
    simp only [FawnDS.eliminateStale]
    rw [h.findHashIndex_eq]
    cases hi : find t k (ds.path hashes k) with
    | none => exact ⟨t, h, fun i => Or.inl rfl, rfl, rfl, hi, fun _ _ => rfl⟩
    | some i =>
      have hlt := copies_tombstone_lt hi
      obtain ⟨t', htable, herased, hheader, hstore, hnone, hother⟩ := ih (h.markDeleted hi)
        (show copies _ k (ds.path hashes k) ≤ fuel by omega)
      obtain ⟨p, hp⟩ := find_holds hi
      exact ⟨t', htable, (herased.of_tombstone hp).1, hheader, hstore, hnone,
        fun k' hk => (hother k' hk).trans (lookup_tombstone_ne hi hk)⟩

/-- `Delete` finds the key exactly when it has a value, and then removes it. -/
theorem Table.deleteWith (h : Table hashes ds t) (writeLog : Bool) (k : Bytes) :
    ((ds.deleteWith hashes writeLog k).1 = true ↔ (lookup (ds.path hashes) t k).isSome) ∧
    ((ds.deleteWith hashes writeLog k).1 = false → (ds.deleteWith hashes writeLog k).2 = ds) ∧
    ((ds.deleteWith hashes writeLog k).1 = true → ∃ t', Table hashes (ds.deleteWith hashes writeLog k).2 t' ∧
      Erased k t t' ∧
      (ds.deleteWith hashes writeLog k).2.header =
        (if writeLog then ds.logDelete k else ds.countDelete).header ∧
      (ds.deleteWith hashes writeLog k).2.datastore =
        (if writeLog then ds.logDelete k else ds.countDelete).datastore ∧
      (∃ i, find t k (ds.path hashes k) = some i ∧ t' i = .tombstone) ∧
      ∀ k', lookup (ds.path hashes) t' k' =
        if k' = k then none else lookup (ds.path hashes) t k') := by
  rw [lookup_isSome h.reach]
  unfold FawnDS.deleteWith
  rw [h.findHashIndex_eq]
  cases hi : find t k (ds.path hashes k) with
  | none => simp
  | some i =>
    obtain ⟨p, hp⟩ := find_holds hi
    have hvalid : ds.valid i = true := by
      have hslot := h.slots i
      rw [hp] at hslot
      exact hslot.1
    simp only [hvalid, Bool.not_true, Bool.and_false, Bool.false_eq_true, if_false]
    refine ⟨by simp, by simp, fun _ => ?_⟩
    -- the record and the count, before the entry is marked
    generalize hlogged : (if writeLog then ds.logDelete k else ds.countDelete) = logged
    have htable : Table hashes logged t := by
      rw [← hlogged]
      cases writeLog with
      | true => exact h.logDelete k
      | false => exact h.countDelete
    have hsize : logged.header.hashtableSize = ds.header.hashtableSize := by
      rw [← hlogged]
      cases writeLog <;> rfl
    have hpath := path_eq hsize hashes
    rw [← hpath] at hi ⊢
    have hmark := htable.markDeleted hi
    have hfuel : copies (Function.update t i .tombstone) k ((logged.markDeleted i).path hashes k) ≤
        (logged.path hashes k).length := List.countP_le_length
    obtain ⟨t', htable', herased, hheader, hstore, hnone, hother⟩ := hmark.eliminateStale k _ hfuel
    obtain ⟨herased, hgone⟩ := herased.of_tombstone hp
    refine ⟨t', htable', herased, hheader, hstore, ⟨i, rfl, hgone⟩, fun k' => ?_⟩
    by_cases hk : k' = k
    · subst k'
      rw [if_pos rfl]
      have hreach := htable'.reach
      have hsame : (FawnDS.eliminateStale hashes k (logged.path hashes k).length
          (logged.markDeleted i)).header.hashtableSize = logged.header.hashtableSize := by
        rw [hheader]
        rfl
      rw [path_eq hsame] at hreach
      exact lookup_of_find_none hreach hnone
    · rw [if_neg hk]
      exact (hother k' hk).trans (lookup_tombstone_ne hi hk)

end Update

end FawnDS

end FawnKV.Fawn
