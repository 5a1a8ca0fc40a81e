import FawnKV.Fawn.Resize
import Mathlib.Order.Bounds.Basic
import Mathlib.Data.UInt

/-! The size of a new table (`Create_FawnDS_From_Fd`), and the places in it that a search comes to. -/
namespace FawnKV.Fawn

open ByteFile

/-- `Create_FawnDS_From_Fd` on an open file, with memory for the table. -/
def createFromFd (headerSize : Nat) (hashTableSize numEntries deletedEntries : UInt64) : FawnDS :=
  FawnDS.create headerSize (maxEntries ⟨hashTableSize, numEntries, deletedEntries, 0⟩)

/-- The number of objects that the table is made for. -/
def requested (hashTableSize numEntries deletedEntries : UInt64) : Nat :=
  max hashTableSize.toNat (2 * (numEntries.toNat - deletedEntries.toNat))

namespace FawnDS

/-- The places that a loop over `path` reads, up to the one that it returns at. -/
def readsUntil (returns : Nat → Bool) : List Nat → List Nat
  | [] => []
  | hashIndex :: path => hashIndex :: if returns hashIndex then [] else readsUntil returns path

section Searches

variable (ds : FawnDS) (key : Bytes)

/-- The live entry is the one of the key. -/
def showsKey (hashIndex : Nat) : Bool :=
  ds.verifykey hashIndex == keyfragmentFromKey key && ds.recordHasKey hashIndex key

def insertReturns (hashIndex : Nat) : Bool := !ds.existsAt hashIndex || ds.showsKey key hashIndex

def findReturns (hashIndex : Nat) : Bool :=
  !ds.valid hashIndex || (!ds.deleted hashIndex && ds.showsKey key hashIndex)

def getReturns (data : Bytes) (hashIndex : Nat) : Bool :=
  !ds.valid hashIndex || (!ds.deleted hashIndex && (ds.verifykey hashIndex == keyfragmentFromKey key &&
    (FawnDSFlash.read ds.datastore key (ds.entry hashIndex).offset.toNat data).1))

variable (hashes : Hashes)

/-- What `FindHashIndexInsert`, `FindHashIndex` and `Get` read of the table for a key. -/
def insertReads : List Nat := readsUntil (ds.insertReturns key) (ds.path hashes key)

def findReads : List Nat := readsUntil (ds.findReturns key) (ds.path hashes key)

def getReads (data : Bytes) : List Nat := readsUntil (ds.getReturns key data) (ds.path hashes key)

end Searches

/-- No search reads beyond the table. -/
def SearchesInside (hashes : Hashes) (ds : FawnDS) : Prop :=
  ∀ key data, ∀ hashIndex ∈ ds.insertReads key hashes ++ ds.findReads key hashes ++ ds.getReads key hashes data,
    hashIndex < ds.header.hashtableSize.toNat

section Reads

variable {ds : FawnDS} {key data : Bytes} {returns : Nat → Bool} {path : List Nat} {hashIndex : Nat}
  {hashes : Hashes}

theorem mem_of_mem_readsUntil (h : hashIndex ∈ readsUntil returns path) : hashIndex ∈ path := by
  induction path with
  | nil => exact h
  | cons first path ih =>
    rcases List.mem_cons.mp h with rfl | hrest
    · exact List.mem_cons_self
    · split at hrest
      · cases hrest
      · exact List.mem_cons_of_mem _ (ih hrest)

/-- What a loop returns depends on no more than what it reads. -/
theorem findHashIndexInsertIn_reads (ds : FawnDS) (key : Bytes) (path : List Nat) :
    ds.findHashIndexInsertIn key (readsUntil (ds.insertReturns key) path) =
      ds.findHashIndexInsertIn key path := by
  induction path with
  | nil => rfl
  | cons hashIndex path ih =>
    rw [readsUntil, insertReturns, findHashIndexInsertIn, findHashIndexInsertIn, ← showsKey]
    by_cases hexists : ds.existsAt hashIndex = true
    · by_cases hshows : ds.showsKey key hashIndex = true
      · simp [hexists, hshows]
      · simp [hexists, hshows, ih]
    · simp [hexists]

theorem findHashIndexIn_reads (ds : FawnDS) (key : Bytes) (path : List Nat) :
    ds.findHashIndexIn key (readsUntil (ds.findReturns key) path) = ds.findHashIndexIn key path := by
  induction path with
  | nil => rfl
  | cons hashIndex path ih =>
    rw [readsUntil, findReturns, findHashIndexIn, findHashIndexIn, ← showsKey]
    by_cases hvalid : ds.valid hashIndex = true
    · by_cases hdeleted : ds.deleted hashIndex = true
      · simp [hvalid, hdeleted, ih]
      · by_cases hshows : ds.showsKey key hashIndex = true
        · simp [hvalid, hdeleted, hshows]
        · simp [hvalid, hdeleted, hshows, ih]
    · simp [hvalid]

theorem read_false {f : Bytes} {offset : Nat} (h : (FawnDSFlash.read f key offset data).1 = false) :
    FawnDSFlash.read f key offset data = (false, data) := by
  unfold FawnDSFlash.read at h ⊢
  cases hheader : FawnDSFlash.readIntoHeader f offset with
  | none => rfl
  | some r =>
    simp only [hheader] at h ⊢
    split_ifs at h ⊢ <;> simp_all

theorem getIn_reads (ds : FawnDS) (key data : Bytes) (path : List Nat) :
    ds.getIn key data (readsUntil (ds.getReturns key data) path) = ds.getIn key data path := by
  induction path with
  | nil => rfl
  | cons hashIndex path ih =>
    rw [readsUntil, getReturns, getIn, getIn]
    by_cases hvalid : ds.valid hashIndex = true
    · by_cases hdeleted : ds.deleted hashIndex = true
      · simp [hvalid, hdeleted, ih]
      · by_cases hfrag : (ds.verifykey hashIndex == keyfragmentFromKey key) = true
        · cases hread : (FawnDSFlash.read ds.datastore key (ds.entry hashIndex).offset.toNat data).1 with
          | false => simp [hvalid, hdeleted, hfrag, read_false hread, ih]
          | true =>
            obtain ⟨data', hdata⟩ : ∃ data', FawnDSFlash.read ds.datastore key
                (ds.entry hashIndex).offset.toNat data = (true, data') := ⟨_, Prod.ext hread rfl⟩
            simp [hvalid, hdeleted, hfrag, hdata]
        · simp [hvalid, hdeleted, hfrag, ih]
    · simp [hvalid]

/-- In a table of at least one window all windows lie inside. -/
theorem searchesInside {n : Nat} (hn : 3 ≤ n) (hsize : ds.header.hashtableSize.toNat = 2 ^ n) :
    SearchesInside hashes ds := by
  intro key data hashIndex hmem
  have hpath : hashIndex ∈ probePath hashes ds.header.hashtableSize key → _ := probePath_lt hn hsize
  apply hpath
  rcases List.mem_append.mp hmem with hmem | hget
  · rcases List.mem_append.mp hmem with hinsert | hfind
    · exact mem_of_mem_readsUntil hinsert
    · exact mem_of_mem_readsUntil hfind
  · exact mem_of_mem_readsUntil hget

/-- As many keys as there are places. -/
def filling (size : Nat) : List Op := (List.range size).map fun i => .insert [0, UInt8.ofNat i] []

/-- In a full table of less than a window another key is searched behind the table. -/
theorem not_searchesInside {size : UInt64} {n : Nat} (hn : n < 3) (hsize : size.toNat = 2 ^ n) :
    ¬SearchesInside (fun _ _ => 0) (run (fun _ _ => 0) (create 4096 size) (filling size.toNat)).2 := by
  intro hinside
  have hreads := hinside [0, 9] [] size.toNat
  rw [run_hashtableSize] at hreads
  refine Nat.lt_irrefl _ (hreads (List.mem_append_right _ ?_))
  obtain rfl | rfl | rfl : n = 0 ∨ n = 1 ∨ n = 2 := by omega
  · obtain rfl : size = 1 := UInt64.toNat_inj.mp hsize
    decide +kernel
  · obtain rfl : size = 2 := UInt64.toNat_inj.mp hsize
    decide +kernel
  · obtain rfl : size = 4 := UInt64.toNat_inj.mp hsize
    decide +kernel

end Reads

end FawnDS

section Sizing

variable {hashTableSize numEntries deletedEntries : UInt64} {number : Nat}

/-- The least power of two that is not below the number. -/
def LeastPower (number size : Nat) : Prop := IsLeast {size | (∃ k, size = 2 ^ k) ∧ number ≤ size} size

/-- The size and the searches of a new table are as they should be. -/
structure WellMade (hashTableSize numEntries deletedEntries : UInt64) : Prop where
  size : ∀ headerSize, LeastPower (requested hashTableSize numEntries deletedEntries)
    (createFromFd headerSize hashTableSize numEntries deletedEntries).header.hashtableSize.toNat
  inside : ∀ headerSize hashes ops, FawnDS.SearchesInside hashes
    (FawnDS.run hashes (createFromFd headerSize hashTableSize numEntries deletedEntries) ops).2

theorem leastPower_two_pow (hpos : 0 < number) : LeastPower number (2 ^ (number - 1).size) := by
  refine ⟨⟨⟨_, rfl⟩, ?_⟩, ?_⟩
  · have hlt := Nat.lt_size_self (number - 1)
    omega
  · rintro size ⟨⟨k, rfl⟩, hle⟩
    exact Nat.pow_le_pow_right (by decide) (Nat.size_le.mpr (by omega))

theorem requested_eq (hashTableSize : UInt64) (hle : deletedEntries ≤ numEntries)
    (hbound : requested hashTableSize numEntries deletedEntries < 2 ^ 64) :
    (max hashTableSize ((numEntries - deletedEntries) * 2)).toNat =
      requested hashTableSize numEntries deletedEntries := by
  have hsub : (numEntries - deletedEntries).toNat = numEntries.toNat - deletedEntries.toNat :=
    UInt64.toNat_sub_of_le _ _ hle
  have hmul : ((numEntries - deletedEntries) * 2).toNat = 2 * (numEntries.toNat - deletedEntries.toNat) := by
    rw [UInt64.toNat_mul, hsub, Nat.mul_comm]
    refine Nat.mod_eq_of_lt (Nat.lt_of_le_of_lt ?_ hbound)
    exact Nat.le_max_right _ _
  rw [requested, ← hmul]
  change (ite _ _ _ : UInt64).toNat = _
  split
  · rename_i hmax
    rw [UInt64.le_iff_toNat_le] at hmax
    omega
  · rename_i hmax
    rw [UInt64.le_iff_toNat_le] at hmax
    omega

/-- Up to `2 ^ 31` objects the size is the one asked for. -/
theorem maxEntries_requested (hashTableSize : UInt64) (hle : deletedEntries ≤ numEntries) (insertionPoint : Nat)
    (hpos : 0 < requested hashTableSize numEntries deletedEntries)
    (hbound : requested hashTableSize numEntries deletedEntries ≤ 2 ^ 31) :
    (maxEntries ⟨hashTableSize, numEntries, deletedEntries, insertionPoint⟩).toNat =
      2 ^ (requested hashTableSize numEntries deletedEntries - 1).size := by
  have hobjects := requested_eq hashTableSize hle (by omega)
  have h32 : (max hashTableSize ((numEntries - deletedEntries) * 2)).toUInt32.toNat =
      requested hashTableSize numEntries deletedEntries := by
    rw [UInt64.toNat_toUInt32, hobjects]
    omega
  unfold maxEntries
  simp only [UInt32.toNat_toUInt64]
  rw [findNextHashSize_toNat (by omega) (by omega), h32]

/-- No more than 32 bits come out of `FindNextHashSize`, and nothing when it is given nothing. -/
theorem not_leastPower (hle : deletedEntries ≤ numEntries) (insertionPoint : Nat)
    (h : requested hashTableSize numEntries deletedEntries = 0 ∨
      2 ^ 31 < requested hashTableSize numEntries deletedEntries) :
    ¬LeastPower (requested hashTableSize numEntries deletedEntries)
      (maxEntries ⟨hashTableSize, numEntries, deletedEntries, insertionPoint⟩).toNat := by
  rintro ⟨⟨⟨k, hk⟩, hsize⟩, hleast⟩
  rcases h with hzero | hlarge
  · have hobjects := requested_eq hashTableSize hle (by omega)
    rw [hzero] at hobjects
    have hnone : max hashTableSize ((numEntries - deletedEntries) * 2) = 0 := UInt64.toNat_inj.mp hobjects
    rw [maxEntries, hnone] at hk
    exact Nat.ne_of_lt (Nat.two_pow_pos k) hk
  · have hlt := (findNextHashSize (max hashTableSize ((numEntries - deletedEntries) * 2)).toUInt32).toNat_lt
    rw [maxEntries, UInt32.toNat_toUInt64] at hk hsize
    rw [hk] at hsize hlt
    have hlow := (Nat.pow_lt_pow_iff_right (by decide : 1 < 2)).mp (Nat.lt_of_lt_of_le hlarge hsize)
    have hhigh := (Nat.pow_lt_pow_iff_right (by decide : 1 < 2)).mp hlt
    omega

/-- The table is made as it should be for 5 to `2 ^ 31` objects, and for no other number of them. -/
theorem createFromFd_wellMade_iff (hashTableSize numEntries deletedEntries : UInt64)
    (hle : deletedEntries ≤ numEntries) :
    WellMade hashTableSize numEntries deletedEntries ↔
      5 ≤ requested hashTableSize numEntries deletedEntries ∧
        requested hashTableSize numEntries deletedEntries ≤ 2 ^ 31 := by
  constructor
  · rintro ⟨hsize, hinside⟩
    by_contra hnot
    by_cases hfits : requested hashTableSize numEntries deletedEntries = 0 ∨
        2 ^ 31 < requested hashTableSize numEntries deletedEntries
    · exact not_leastPower hle _ hfits (hsize 0)
    · -- less than a window
      have hmax := maxEntries_requested hashTableSize hle 0 (by omega) (by omega)
      refine FawnDS.not_searchesInside ?_ hmax (hinside 4096 _ _)
      rw [Nat.lt_succ_iff, Nat.size_le]
      omega
  · rintro ⟨hlow, hhigh⟩
    have hmax := maxEntries_requested hashTableSize hle 0 (by omega) hhigh
    refine ⟨fun headerSize => ?_, fun headerSize hashes ops => ?_⟩
    · change LeastPower _ (maxEntries _).toNat
      rw [hmax]
      exact leastPower_two_pow (by omega)
    · refine FawnDS.searchesInside (n := (requested hashTableSize numEntries deletedEntries - 1).size)
        (Nat.lt_size.mpr (by omega)) ?_
      rw [FawnDS.run_hashtableSize]
      exact hmax

/-- A table for six objects that are left of nine. -/
theorem createFromFd_wellMade_iff_nine : WellMade 5 9 3 :=
  (createFromFd_wellMade_iff 5 9 3 (by decide)).mpr (by decide)

/-- The number of objects is cut to 32 bits, and a table of four places is less than a window. -/
theorem createFromFd_cut :
    (createFromFd 4096 (2 ^ 32 + 8) 0 0).header.hashtableSize = 8 ∧ ¬WellMade (2 ^ 32 + 8) 0 0 ∧
      (createFromFd 4096 3 0 0).header.hashtableSize = 4 ∧ ¬WellMade 3 0 0 := by
  refine ⟨by decide, fun h => ?_, by decide, fun h => ?_⟩
  · exact not_leastPower (by decide) _ (.inr (by decide)) (h.size 4096)
  · exact @FawnDS.not_searchesInside 4 2 (by decide) rfl (h.inside 4096 _ _)

end Sizing

end FawnKV.Fawn
