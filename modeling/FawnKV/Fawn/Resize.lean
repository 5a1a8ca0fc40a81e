import Mathlib.Data.Finset.Card
import FawnKV.Fawn.Log
import FawnKV.Lib.BitSmear

/-! The size of the table that a store is copied to (`Create_FawnDS_From_Fd`), and the counters it is
computed from. -/
namespace FawnKV.Fawn

open ByteFile OpenAddressing BitSmear

/-- `FindNextHashSize`: the next power of two, in 32 bits. -/
def findNextHashSize (number : UInt32) : UInt32 :=
  let number := number - 1
  let number := number >>> 1 ||| number
  let number := number >>> 2 ||| number
  let number := number >>> 4 ||| number
  let number := number >>> 8 ||| number
  let number := number >>> 16 ||| number
  number + 1

/-- The table size for a store with these counters: its own size is a lower bound. -/
def maxEntries (header : DbHeader) : UInt64 :=
  let numObjects := max header.hashtableSize ((header.numberElements - header.deletedElements) * 2)
  (findNextHashSize numObjects.toUInt32).toUInt64

section HashSize

theorem smeared_step {x n : Nat} {w s : UInt32} (h : Smeared x n w.toNat) (hs : s.toNat % 32 = n) :
    Smeared x (n + n) (w >>> s ||| w).toNat := by
  rw [UInt32.toNat_or, UInt32.toNat_shiftRight, hs]
  exact h.double

theorem findNextHashSize_toNat {number : UInt32} (hpos : 0 < number.toNat) (hle : number.toNat ≤ 2 ^ 31) :
    (findNextHashSize number).toNat = 2 ^ (number.toNat - 1).size := by
  have hpred : (number - 1).toNat = number.toNat - 1 := by
    rw [UInt32.toNat_sub_of_le _ _ (by rw [UInt32.le_iff_toNat_le]; exact hpos)]
    rfl
  have hlt : number.toNat - 1 < 2 ^ 31 := by omega
  have hsize : 2 ^ (number.toNat - 1).size ≤ 2 ^ 31 :=
    Nat.pow_le_pow_right (by omega) (Nat.size_le.mpr hlt)
  have hpos' : 0 < 2 ^ (number.toNat - 1).size := Nat.two_pow_pos _
  have h1 := smeared_one (number - 1).toNat
  have h2 := smeared_step (s := 1) h1 rfl
  have h4 := smeared_step (s := 2) h2 rfl
  have h8 := smeared_step (s := 4) h4 rfl
  have h16 := smeared_step (s := 8) h8 rfl
  have h32 := smeared_step (s := 16) h16 rfl
  have hall := h32.eq (by omega)
  rw [hpred] at hall
  unfold findNextHashSize
  simp only
  rw [UInt32.toNat_add, hall, UInt32.toNat_one]
  omega

/-- The new table is a power of two, at least as large as the old one. -/
theorem maxEntries_toNat {header : DbHeader} {n : Nat} (hn : 3 ≤ n)
    (hsize : header.hashtableSize.toNat = 2 ^ n) (hbound : header.hashtableSize.toNat ≤ 2 ^ 30)
    (hnumber : header.numberElements.toNat ≤ header.hashtableSize.toNat)
    (hdeleted : header.deletedElements.toNat ≤ header.numberElements.toNat) :
    ∃ m, 3 ≤ m ∧ (maxEntries header).toNat = 2 ^ m := by
  have hpow : 2 ^ 3 ≤ 2 ^ n := Nat.pow_le_pow_right (by omega) hn
  have hsub : (header.numberElements - header.deletedElements).toNat =
      header.numberElements.toNat - header.deletedElements.toNat :=
    UInt64.toNat_sub_of_le _ _ (by rw [UInt64.le_iff_toNat_le]; exact hdeleted)
  have hmul : ((header.numberElements - header.deletedElements) * 2).toNat =
      (header.numberElements.toNat - header.deletedElements.toNat) * 2 := by
    rw [UInt64.toNat_mul, hsub]
    apply Nat.mod_eq_of_lt
    change _ * 2 < 2 ^ 64
    omega
  generalize hobjects : max header.hashtableSize
    ((header.numberElements - header.deletedElements) * 2) = objects
  have hrange : header.hashtableSize.toNat ≤ objects.toNat ∧ objects.toNat ≤ 2 ^ 31 := by
    rw [← hobjects]
    change _ ≤ (ite _ _ _ : UInt64).toNat ∧ (ite _ _ _ : UInt64).toNat ≤ _
    split
    · rename_i hle
      rw [UInt64.le_iff_toNat_le] at hle
      omega
    · omega
  have h32 : objects.toUInt32.toNat = objects.toNat := by
    rw [UInt64.toNat_toUInt32]
    omega
  refine ⟨(objects.toNat - 1).size, ?_, ?_⟩
  · apply Nat.lt_size.mpr
    omega
  · unfold maxEntries
    simp only [hobjects, UInt32.toNat_toUInt64]
    rw [findNextHashSize_toNat (by omega) (by omega), h32]

end HashSize

namespace FawnDS

/-- The counters of a store that shows the map `m`: every present key was counted once more than it
was deleted. -/
structure Counted (ds : FawnDS) (m : Bytes → Option (Nat × Bytes)) : Prop where
  number : ds.header.numberElements.toNat ≤ ds.header.hashtableSize.toNat
  present : ∃ keys : Finset Bytes, (∀ k, k ∈ keys ↔ (m k).isSome) ∧
    ds.header.deletedElements.toNat + keys.card ≤ ds.header.numberElements.toNat

section Counted

variable {hashes : Hashes} {ds : FawnDS} {m : Bytes → Option (Nat × Bytes)} {k v : Bytes} {start i : Nat}
  {log : List LogRecord}

theorem counted_create (headerSize : Nat) (size : UInt64) : Counted (create headerSize size) fun _ => none :=
  ⟨Nat.zero_le _, ∅, by simp, by simp [create]⟩

theorem Counted.insert (h : Counted ds m) (hmaps : Maps hashes ds m) (hok : (ds.insert hashes k v).1 = true)
    (hbound : (ds.insert hashes k v).2.header.dataInsertionPoint < 2 ^ 32) (p : Nat × Bytes) :
    Counted (ds.insert hashes k v).2 (Function.update m k (some p)) := by
  obtain ⟨t, htable, hm⟩ := hmaps
  obtain ⟨i, newObj, -, hi, heq, -⟩ := htable.insert_true hok hbound
  obtain ⟨hnumber, keys, hkeys, hcard⟩ := h
  have hfull : ds.header.numberElements.toNat ≠ ds.header.hashtableSize.toNat := by
    intro hsame
    have hbeq : (ds.header.numberElements == ds.header.hashtableSize) = true :=
      beq_iff_eq.mpr (UInt64.toNat_inj.mp hsame)
    simp [FawnDS.insert, hbeq] at hok
  have hlt := ds.header.hashtableSize.toNat_lt
  have hmem : ∀ k', k' ∈ Insert.insert k keys ↔ (Function.update m k (some p) k').isSome := by
    intro k'
    by_cases hk : k' = k
    · simp [hk]
    · simp [hk, hkeys]
  rw [heq]
  cases newObj with
  | true =>
    have hadd : (ds.header.numberElements + 1).toNat = ds.header.numberElements.toNat + 1 := by
      rw [UInt64.toNat_add, UInt64.toNat_one]
      omega
    refine ⟨?_, Insert.insert k keys, hmem, ?_⟩
    · change (ds.header.numberElements + 1).toNat ≤ ds.header.hashtableSize.toNat
      omega
    · have hcard' := Finset.card_insert_le k keys
      change ds.header.deletedElements.toNat + (Insert.insert k keys).card ≤
          (ds.header.numberElements + 1).toNat
      omega
  | false =>
    -- the key was present before
    obtain ⟨q, hq⟩ := live_of_oldObj htable.slots hi
    have hpresent : k ∈ keys := by
      rw [hkeys, ← hm]
      exact lookup_isSome_of_live htable.reach hq
    exact ⟨hnumber, Insert.insert k keys, hmem, by rw [Finset.insert_eq_of_mem hpresent]; exact hcard⟩

theorem Counted.delete (h : Counted ds m) (hmaps : Maps hashes ds m) (hok : (ds.delete hashes k).1 = true) :
    Counted (ds.delete hashes k).2 (Function.update m k none) := by
  rw [← deleteWith_true] at hok ⊢
  obtain ⟨-, hheader, -⟩ := hmaps.deleteWith hok
  obtain ⟨hnumber, keys, hkeys, hcard⟩ := h
  have hpresent : k ∈ keys := by
    rw [hkeys]
    exact (hmaps.deleteWith_iff true k).mp hok
  have herase := Finset.card_erase_add_one hpresent
  have hlt := ds.header.numberElements.toNat_lt
  have hadd : (ds.header.deletedElements + 1).toNat = ds.header.deletedElements.toNat + 1 := by
    rw [UInt64.toNat_add, UInt64.toNat_one]
    omega
  refine ⟨?_, keys.erase k, fun k' => ?_, ?_⟩
  · rw [hheader]
    exact hnumber
  · by_cases hk : k' = k
    · simp [hk]
    · simp [hk, hkeys]
  · rw [hheader]
    change (ds.header.deletedElements + 1).toNat + _ ≤ ds.header.numberElements.toNat
    omega

theorem Counted.step (h : Counted ds (located start log)) (hlogged : Logged hashes start ds log) (op : Op)
    (hbound : (ds.step hashes op).2.header.dataInsertionPoint < 2 ^ 32) :
    Counted (ds.step hashes op).2 (located start (log ++ (recordOf (op, (ds.step hashes op).1)).toList)) := by
  cases hok : (ds.step hashes op).1 with
  | true =>
    cases op with
    | insert k v =>
      change Counted _ (located start (log ++ [⟨k, v, false⟩]))
      rw [located_concat]
      exact h.insert hlogged.maps hok hbound _
    | delete k =>
      change Counted _ (located start (log ++ [⟨k, [], true⟩]))
      rw [located_concat]
      exact h.delete hlogged.maps hok
    | get k => simpa [recordOf, FawnDS.step] using h
  | false =>
    rw [hlogged.step_false hok]
    have hnone : recordOf (op, false) = none := by cases op <;> rfl
    rw [hnone]
    simpa using h

/-- The counters after a run of calls. -/
theorem Counted.run (h : Counted ds (located start log)) (hlogged : Logged hashes start ds log) (ops : List Op)
    (hbound : (run hashes ds ops).2.header.dataInsertionPoint < 2 ^ 32) :
    Counted (run hashes ds ops).2 (located start (log ++ records (run hashes ds ops).1)) := by
  induction ops generalizing ds log with
  | nil => simpa [records, FawnDS.run] using h
  | cons op ops ih =>
    have hfirst : (ds.step hashes op).2.header.dataInsertionPoint < 2 ^ 32 :=
      Nat.lt_of_le_of_lt (run_insertionPoint ops _) hbound
    have hrest := ih (h.step hlogged op hfirst) (hlogged.step op hfirst) hbound
    rw [List.append_assoc] at hrest
    rw [records_cons]
    exact hrest

end Counted

end FawnDS

end FawnKV.Fawn
