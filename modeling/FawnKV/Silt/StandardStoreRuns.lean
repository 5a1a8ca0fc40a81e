import FawnKV.Silt.AnyLengthStore
import FawnKV.Silt.CuckooTable
import FawnKV.Silt.DefaultTable

/-! `FawnDS_SF` is a map with tombstones, in every run with keys whose length fits the header. -/
namespace FawnKV.Silt.FawnDSSF

open ByteFile Transition

section LongKeys

variable {H C D : Type} {T : HashTable H C} {S : DataStore D} {d : D} {key : Value}

/-- In variable-length mode no header has the length of a key that does not fit it. -/
theorem search_long (hkey : 2 ^ 16 ≤ key.length) (l : List (C × Value)) : search S 0 d key l = none := by
  induction l with
  | nil => rfl
  | cons e l ih =>
    have hround : readMatch S 0 d key e.2 = none := by
      rw [readMatch]
      cases S.get d e.2 0 dhSize with
      | error => rfl
      | ok hdr =>
        refine if_pos ⟨rfl, ?_⟩
        have hlt := readLe_lt ((hdr.drop 2).take 2)
        have hle : ((hdr.drop 2).take 2).length ≤ 2 := List.length_take_le ..
        have hpow : 256 ^ ((hdr.drop 2).take 2).length ≤ 256 ^ 2 := Nat.pow_le_pow_right (by decide) hle
        rw [headerKeyLen]
        omega
    rw [search, hround]
    exact ih

theorem get_long {s : FawnDSSF H D} (hs : s.keyLen = 0) (hkey : 2 ^ 16 ≤ key.length)
    {l : List (C × Value)} (hfind : T.find s.hashTable key = some l) :
    get T S s key 0 maxLen = some (.error .keyNotFound) := by
  have hne : key ≠ [] := by
    rintro rfl
    exact absurd hkey (by decide)
  have hvalid : ¬s.invalidKey key = true := by
    simp [invalidKey_of_wellFormed (s := s) ⟨hne, fun hfix => absurd hs hfix⟩]
  rw [get, if_neg hvalid, hfind, Option.bind_some, hs, search_long hkey]

/-- A `Put` of a key that the search does not find, and for which the table has room. -/
theorem put_new {s : FawnDSSF H D} (padding : Nat) (data : Value) {v : Value} {l : List (C × Value)} {h : H}
    (hkey : WellFormed s.keyLen key) (hdata : s.dataLen ≠ 0 → data.length = s.dataLen)
    (hfind : T.find s.hashTable key = some l) (hsearch : search S s.keyLen s.dataStore key l = none)
    (happend : S.append s.dataStore (entry s.keyLen padding key data false) = (.ok, v, d))
    (hid : (number? v).getD maxLen ≠ maxLen) (hput : T.put s.hashTable key v = some (.ok, h)) :
    put T S s padding key data = some (.ok,
      { s with
        hashTable := h
        dataStore := d
        numElements := s.numElements + 1
        numActiveElements := s.numActiveElements + 1 }) := by
  have hvalid : ¬s.invalidKey key = true := by simp [invalidKey_of_wellFormed hkey]
  have hlen : ¬(s.dataLen ≠ 0 ∧ s.dataLen ≠ data.length) := fun ⟨hne, hdiff⟩ => hdiff (hdata hne).symm
  have hwrite : writeEntry S s padding key data false true = (.ok, v, d) := happend
  have htable : updateTable T s none key v = some (.ok, h) := hput
  rw [put, if_neg hvalid, if_neg hlen, insertEntry, hfind]
  simp [hsearch, hwrite, hid, htable]

end LongKeys

section Map

variable {H C D : Type}

/-- Over every hash table and data store that keep their contracts, with record ids below `2 ^ 31` and
keys whose length fits the header: no assertion fails, and in every state of the run every `Get`
answers as the map does. The map is what the codes of `Put` and `Delete` say, key by key. -/
theorem standardStore_refines_map (T : HashTable H C) (S : DataStore D) (hT : T.Contract)
    (hS : S.Contract) (keyLen dataLen : Nat) (h : H) (d : D) (hh : hT.Holds h ∅) (hd : hS.Good d)
    (calls : List Call)
    (hkeys : ∀ c ∈ calls, WellFormed keyLen c.op.key ∧ hT.admits c.op.key)
    (hids : Meets (step T S) (NextIdBelow S) (start keyLen dataLen h d) calls)
    (hshort : ∀ c ∈ calls, Short keyLen c.op.key) :
    (∃ o, run (step T S) (start keyLen dataLen h d) calls = some o) ∧
      Always (step T S) (Refines T S hT) (start keyLen dataLen h d) calls := by
  have hstart := inv_start hT hS keyLen dataLen hh hd
  have hfits : Meets (step T S) (Fits (S := S) hT keyLen) (start keyLen dataLen h d) calls := by
    have hall := (meets_of_forall_mem hkeys (start keyLen dataLen h d)).and
      ((meets_of_forall_mem hshort _).and hids)
    exact hall.imp fun o c ⟨⟨hkey, hadmits⟩, hshort, hnext⟩ => ⟨hkey, hadmits, hshort, hnext⟩
  constructor
  · obtain ⟨o, hrun, -⟩ := exists_run_of_meets (fun o c hc hi => inv_step hi hc) hfits hstart
    exact ⟨o, hrun⟩
  · refine always_of_meets (I := Inv hT hS keyLen) ?_ (fun o => refines_of_inv) hfits hstart
    intro o c o' hstep hc hi
    obtain ⟨t, ht, hinv⟩ := inv_step hi hc
    rw [hstep] at ht
    cases ht
    exact hinv

/-- Two keys with the same hashes and the same bits in the table: both are put, one again and the other
deleted. -/
def collidingCalls : List Call :=
  [⟨.put [1, 0, 0, 0] [7], 0⟩, ⟨.put [2, 0, 0, 0] [8], 0⟩, ⟨.get [2, 0, 0, 0], 0⟩,
    ⟨.put [1, 0, 0, 0] [9, 9], 0⟩, ⟨.delete [2, 0, 0, 0], 0⟩]

theorem standardStore_refines_map_file :
    ∃ o, run (step (HashTableDefault.hashTable fun _ _ => 0) (FileStore.shortStore fun _ => 0))
        (start 4 0 (HashTableDefault.create false 8) (FileStore.create 0)) collidingCalls = some o ∧
      get (HashTableDefault.hashTable fun _ _ => 0) (FileStore.shortStore fun _ => 0) o.store
        [1, 0, 0, 0] 0 maxLen = some (.ok [9, 9]) ∧
      get (HashTableDefault.hashTable fun _ _ => 0) (FileStore.shortStore fun _ => 0) o.store
        [2, 0, 0, 0] 0 maxLen = some (.error .keyDeleted) := by
  have hobserved : ((run (step (HashTableDefault.hashTable fun _ _ => 0) (FileStore.shortStore fun _ => 0))
      (start 4 0 (HashTableDefault.create false 8) (FileStore.create 0)) collidingCalls).map
      fun o => (o.store.keyLen, o.map [1, 0, 0, 0], o.map [2, 0, 0, 0])) =
      some (4, some (some [9, 9]), some none) := by
    decide +kernel
  have hbelow : Meets (step (HashTableDefault.hashTable fun _ _ => 0) (FileStore.shortStore fun _ => 0))
      (fun o _ => o.store.dataStore.nextAppendId < 2 ^ 31)
      (start 4 0 (HashTableDefault.create false 8) (FileStore.create 0)) collidingCalls := by
    decide +kernel
  obtain ⟨o, ho, hval⟩ := Option.map_eq_some_iff.mp hobserved
  simp only [Prod.mk.injEq] at hval
  obtain ⟨hlen, hfirst, hsecond⟩ := hval
  have hids : Meets (step (HashTableDefault.hashTable fun _ _ => 0) (FileStore.shortStore fun _ => 0))
      (NextIdBelow (FileStore.shortStore fun _ => 0))
      (start 4 0 (HashTableDefault.create false 8) (FileStore.create 0)) collidingCalls := by
    refine hbelow.imp fun o c hlt => ?_
    rw [NextIdBelow]
    split
    · exact idBelow_shortStore hlt _ _ _ _
    · exact idBelow_shortStore hlt _ _ _ _
    · trivial
  have hrun := standardStore_refines_map (HashTableDefault.hashTable fun _ _ => 0)
    (FileStore.shortStore fun _ => 0) (HashTableDefault.contract _) (FileStore.anyLengthContract fun _ => 0)
    4 0 (HashTableDefault.create false 8) (FileStore.create 0) (HashTableDefault.create_holds (by decide))
    ⟨rfl, by decide, [], FileStore.Records.create (by decide)⟩ collidingCalls
    (by simp [collidingCalls, WellFormed, Op.key, HashTableDefault.contract]) hids
    (by simp [collidingCalls, Short])
  have hrefines := always_last ho hrun.2
  have hget := fun key hkey => hrefines key (hlen ▸ hkey) trivial
  refine ⟨o, ho, ?_, ?_⟩
  · rw [hget [1, 0, 0, 0] ⟨by decide, fun _ => rfl⟩, hfirst]
    rfl
  · rw [hget [2, 0, 0, 0] ⟨by decide, fun _ => rfl⟩, hsecond]
    rfl

/-- In variable-length mode a key of `2 ^ 16` bytes or more is acknowledged and not found again: sixteen
bits of the header hold its length. -/
theorem put_long_key {key : Value} (hlen : 2 ^ 16 ≤ key.length) :
    ∃ t₀ s, HashTableCuckoo.create 8 = .ok t₀ ∧ WellFormed 0 key ∧
    put HashTableCuckoo.hashTable (FileStore.dataStore fun _ => 0)
      (start 0 0 ⟨t₀, fun _ _ => 0⟩ (FileStore.create 0)).store 0 key [7] = some (.ok, s) ∧
    get HashTableCuckoo.hashTable (FileStore.dataStore fun _ => 0) s key 0 maxLen =
      some (.error .keyNotFound) ∧
    ¬Always (step HashTableCuckoo.hashTable (FileStore.dataStore fun _ => 0))
      (Refines HashTableCuckoo.hashTable (FileStore.dataStore fun _ => 0) HashTableCuckoo.contract)
      (start 0 0 ⟨t₀, fun _ _ => 0⟩ (FileStore.create 0)) [⟨.put key [7], 0⟩] := by
  obtain ⟨t₀, hcreate, hinv⟩ := HashTableCuckoo.inv_create (show (4 : Int) ≤ 8 by decide)
  have hempty : HashTableCuckoo.Inv ⟨(⟨t₀, fun _ _ => 0⟩ : HashTableCuckoo.Seeded).table, []⟩ := hinv
  have hwf : WellFormed 0 key := by
    refine ⟨?_, fun hne => absurd rfl hne⟩
    rintro rfl
    exact absurd hlen (by decide)
  have hfour : 4 ≤ key.length := Nat.le_trans (by decide) hlen
  obtain ⟨h₁, hput⟩ := HashTableCuckoo.put_of_empty hempty hfour (leBytes 8 0)
  have hfind := HashTableCuckoo.find_of_empty hempty hfour
  have hid : (number? (leBytes 8 0)).getD maxLen ≠ maxLen := by decide
  have hstore := put_new (T := HashTableCuckoo.hashTable) (S := FileStore.dataStore fun _ => 0)
    (s := (start 0 0 _ (FileStore.create 0)).store) 0 [7]
    hwf (fun hne => absurd rfl hne) hfind rfl rfl hid hput
  -- the table after the `Put` is one that `Find` works on
  have hv : Denotes (leBytes 8 0) 0 := denotes_leBytes (.inr rfl) (by decide)
  obtain ⟨ret, h₂, hput', hholds⟩ := HashTableCuckoo.put_holds (s := ⟨t₀, fun _ _ => 0⟩)
    ⟨[], hinv, rfl, by simp⟩ hfour hv (by decide) (by simp)
  obtain ⟨rfl, rfl⟩ : ret = .ok ∧ h₂ = h₁ := by simpa using hput'.symm.trans hput
  obtain ⟨-, hholds⟩ | ⟨hne, -⟩ := hholds
  · obtain ⟨l, hfind', -⟩ := HashTableCuckoo.find_holds hholds hfour
    have hget : ∀ s : FawnDSSF HashTableCuckoo.Seeded FileStore, s.keyLen = 0 → s.hashTable = h₂ →
        get HashTableCuckoo.hashTable (FileStore.dataStore fun _ => 0) s key 0 maxLen =
          some (.error .keyNotFound) :=
      fun s hs hh => get_long hs hlen (hh ▸ hfind')
    refine ⟨t₀, _, hcreate, hwf, hstore, hget _ rfl rfl, fun halways => ?_⟩
    have hrefines := halways.2 _ (step_put hstore) key hwf hfour
    rw [hget _ rfl rfl] at hrefines
    simp [Op.apply, answer] at hrefines
  · exact absurd rfl hne

theorem standardStore_loses_long_key :
    ∃ t₀ s, HashTableCuckoo.create 8 = .ok t₀ ∧ WellFormed 0 (List.replicate (2 ^ 16) 0) ∧
    put HashTableCuckoo.hashTable (FileStore.dataStore fun _ => 0)
      (start 0 0 ⟨t₀, fun _ _ => 0⟩ (FileStore.create 0)).store 0 (List.replicate (2 ^ 16) 0)
        [7] = some (.ok, s) ∧
    get HashTableCuckoo.hashTable (FileStore.dataStore fun _ => 0) s (List.replicate (2 ^ 16) 0) 0 maxLen =
      some (.error .keyNotFound) ∧
    ¬Always (step HashTableCuckoo.hashTable (FileStore.dataStore fun _ => 0))
      (Refines HashTableCuckoo.hashTable (FileStore.dataStore fun _ => 0) HashTableCuckoo.contract)
      (start 0 0 ⟨t₀, fun _ _ => 0⟩ (FileStore.create 0)) [⟨.put (List.replicate (2 ^ 16) 0) [7], 0⟩] :=
  put_long_key List.length_replicate.ge

end Map

end FawnKV.Silt.FawnDSSF
