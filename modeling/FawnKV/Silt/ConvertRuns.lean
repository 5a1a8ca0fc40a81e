import FawnKV.Silt.Convert
import FawnKV.Silt.StandardStoreRuns

/-! `ConvertTo` keeps what a store of fixed-length records holds, in every run of at most `2 ^ 31`
appended records. -/
namespace FawnKV.Silt.FawnDSSF

open ByteFile Cuckoo HashTableCuckoo
open FileStore (Fixed Log)

section Get

variable {uninit : Nat → UInt8} {s : FawnDSSF Seeded FileStore} {n : FawnDSSF TagTable FileStore}

theorem length_convert_record (h : Converted s n) (hs : Convertible s) {p : Nat}
    (hp : p ∈ validSlots s.hashTable.table) (hid : s.hashTable.table.slotId p < 2 ^ 31) :
    (FileStore.dataStore uninit).length n.dataStore (leBytes 4 p) =
      (FileStore.dataStore uninit).length s.dataStore (leBytes 4 (s.hashTable.table.slotId p)) := by
  have hsmall := hs.slot_lt hp
  have hlt := (h.record p hp).1
  have hlt' := hs.id_lt p hp
  rw [FileStore.dataStore_length, FileStore.length, FileStore.length,
    FileStore.asOffset_of_denotes (denotes_leBytes (.inl rfl) (by omega)) hsmall,
    FileStore.asOffset_of_denotes (denotes_leBytes (.inl rfl) (by omega)) hid,
    FileStore.lengthAt_fixed h.fixed hlt, FileStore.lengthAt_fixed hs.fixed hlt', h.dataLen]

theorem get_of_find_none {H H' C D : Type} {T : HashTable H C} {T' : HashTable H' C} {S : DataStore D}
    {s : FawnDSSF H D} {s' : FawnDSSF H' D} {key : Value} (hkeyLen : s.keyLen = s'.keyLen)
    (hfind : T.find s.hashTable key = none) (hfind' : T'.find s'.hashTable key = none) (offset len : Nat) :
    get T S s key offset len = get T' S s' key offset len := by
  have hkeys : s.invalidKey key = s'.invalidKey key := by rw [invalidKey, invalidKey, hkeyLen]
  rw [get, get, hkeys, hfind, hfind', Option.bind_none, Option.bind_none]

/-- `Get` of the converted store is `Get` of the old one. -/
theorem get_convert (h : Converted s n) (hs : Convertible s)
    (hids : ∀ p ∈ validSlots s.hashTable.table, s.hashTable.table.slotId p < 2 ^ 31)
    (key : Value) (offset len : Nat) :
    get TagTable.hashTable (FileStore.dataStore uninit) n key offset len =
      get HashTableCuckoo.hashTable (FileStore.dataStore uninit) s key offset len := by
  by_cases hempty : key.length = 0
  · have hbad : n.invalidKey key = true ∧ s.invalidKey key = true := by simp [invalidKey, hempty]
    rw [get, get, if_pos hbad.1, if_pos hbad.2]
  by_cases hfind : key.length < 4 ∨ s.hashTable.table.maxIndex = 0
  · exact get_of_find_none h.keyLen (TagTable.find_none (by rw [h.maxIndex]; exact hfind))
      (HashTableCuckoo.find_none hfind) offset len
  · have hpos : 0 < s.hashTable.table.maxIndex := by omega
    obtain ⟨hc, hc'⟩ := candidates_convert h hs hempty hpos
    refine get_congr h.keyLen ((TagTable.find_some (by rw [h.maxIndex]; exact hfind)).trans (congrArg some hc'))
      ((HashTableCuckoo.find_some hfind).trans (congrArg some hc)) ?_ ?_ offset len
    · intro it hit
      obtain ⟨hmem, -⟩ := position_mem hempty hpos hit
      exact length_convert_record h hs hmem (hids _ hmem)
    · intro it hit
      obtain ⟨hmem, -⟩ := position_mem hempty hpos hit
      exact get_convert_record h hs hmem (hids _ hmem)

end Get

section Enumerate

variable {uninit : Nat → UInt8} {s : FawnDSSF Seeded FileStore} {n : FawnDSSF TagTable FileStore}
  {m : TombMap} {keyLen : Nat}

/-- What `Increment` makes of a record of a fixed-length store. -/
def parse (keyLen : Nat) (r : Value) : FawnDSReturn × Value × Value :=
  (.ok, (r.drop dhSize).take keyLen, r.drop (dhSize + keyLen))

theorem increment_used (hkeyLen : keyLen ≠ 0) {rs : List Value}
    (h : ∀ r ∈ rs, headerType r = 0 ∨ headerType r = 1) :
    increment keyLen rs = some ((rs.filter fun r => headerType r = 1).map (parse keyLen)) := by
  induction rs with
  | nil => rfl
  | cons r rs ih =>
    have hrest := ih fun r' hr' => h r' (List.mem_cons_of_mem r hr')
    rw [increment, hrest]
    rcases h r List.mem_cons_self with hunused | hused
    · rw [if_pos hunused, List.filter_cons_of_neg (by simp [hunused])]
    · rw [if_neg (by simp [hused]), if_pos (.inl hused), List.filter_cons_of_pos (by simp [hused])]
      simp only [hused, if_neg hkeyLen]
      rfl

theorem headerType_hole {len : Nat} : headerType (List.replicate len 0) = 0 := by
  rw [headerType, List.take_replicate, readLe_replicate_zero, Nat.zero_mod]

theorem headerType_entry {padding : Nat} {key data : Value} {isDelete : Bool} :
    headerType (entry keyLen padding key data isDelete) = if isDelete then 2 else 1 := by
  rw [← headerType_header keyLen padding key isDelete, ← entry_take keyLen padding key data isDelete,
    headerType, headerType, List.take_take]
  rfl

theorem parse_entry {padding : Nat} {key data : Value} {isDelete : Bool} (hkey : key.length = keyLen) :
    parse keyLen (entry keyLen padding key data isDelete) = (.ok, key, data) := by
  subst hkey
  rw [parse, entry_key, entry_data]

/-- What a run leaves: the slots in use have the records of different keys, each the current record
of its key, and no other key has a value. -/
structure Current (uninit : Nat → UInt8) (s : FawnDSSF Seeded FileStore) (m : TombMap) : Prop where
  convertible : Convertible s
  id_small : ∀ p ∈ validSlots s.hashTable.table, s.hashTable.table.slotId p < 2 ^ 31
  count : s.hashTable.table.currentEntries = (validSlots s.hashTable.table).length
  slot : ∀ p ∈ validSlots s.hashTable.table, ∃ padding key data, key.length = s.keyLen ∧
    s.dataStore.record (s.hashTable.table.slotId p) = entry s.keyLen padding key data false ∧
    m key = some (some data) ∧
    ∀ q ∈ validSlots s.hashTable.table, ∀ padding' data',
      s.dataStore.record (s.hashTable.table.slotId q) = entry s.keyLen padding' key data' false → q = p
  stored : ∀ key data, m key = some (some data) → ∃ p ∈ validSlots s.hashTable.table, ∃ padding,
    key.length = s.keyLen ∧
    s.dataStore.record (s.hashTable.table.slotId p) = entry s.keyLen padding key data false
  get : ∀ key data, get HashTableCuckoo.hashTable (FileStore.dataStore uninit) s key 0 maxLen =
    some (.ok data) ↔ m key = some (some data)

/-- The converted store enumerates the current record of every key, once. -/
theorem increment_convert (h : Converted s n) (hs : Current uninit s m) (hkeyLen : s.keyLen ≠ 0) :
    ∃ l, increment n.keyLen ((n.dataStore.enumerate uninit).map Prod.snd) = some l ∧
      (l.map fun e => e.2.1).Nodup ∧ l.length = s.hashTable.table.currentEntries ∧
      ∀ ret key data, (ret, key, data) ∈ l ↔ ret = .ok ∧
        FawnDSSF.get HashTableCuckoo.hashTable (FileStore.dataStore uninit) s key 0 maxLen =
          some (.ok data) := by
  have hused : ∀ p < n.dataStore.endId, headerType (n.dataStore.record p) = 1 ∧
      p ∈ validSlots s.hashTable.table ∨ headerType (n.dataStore.record p) = 0 ∧
      p ∉ validSlots s.hashTable.table := by
    intro p hp
    by_cases hmem : p ∈ validSlots s.hashTable.table
    · obtain ⟨padding, key, data, -, hrec, -⟩ := hs.slot p hmem
      refine .inl ⟨?_, hmem⟩
      rw [(h.record p hmem).2, hrec, headerType_entry]
      rfl
    · refine .inr ⟨?_, hmem⟩
      rw [h.hole p hp hmem, headerType_hole]
  have hrecords : (n.dataStore.enumerate uninit).map Prod.snd =
      (List.range n.dataStore.endId).map n.dataStore.record := by
    rw [FileStore.enumerate_fixed h.fixed, List.map_map]
    rfl
  have hincrement : increment n.keyLen ((n.dataStore.enumerate uninit).map Prod.snd) =
      some ((((List.range n.dataStore.endId).map n.dataStore.record).filter fun r => headerType r = 1).map
        (parse n.keyLen)) := by
    rw [hrecords]
    refine increment_used (h.keyLen ▸ hkeyLen) fun r hr => ?_
    obtain ⟨p, hp, rfl⟩ := List.mem_map.mp hr
    rcases hused p (List.mem_range.mp hp) with ⟨hone, -⟩ | ⟨hzero, -⟩
    · exact .inr hone
    · exact .inl hzero
  -- the slots in use, in the order of the file
  have hslots : ((List.range n.dataStore.endId).filter fun p => headerType (n.dataStore.record p) = 1).Perm
      (validSlots s.hashTable.table) := by
    refine (List.perm_ext_iff_of_nodup (List.nodup_range.filter _) (validSlots_nodup _)).mpr fun p => ?_
    rw [List.mem_filter, List.mem_range, decide_eq_true_eq]
    constructor
    · rintro ⟨hp, hone⟩
      rcases hused p hp with ⟨-, hmem⟩ | ⟨hzero, -⟩
      · exact hmem
      · rw [hzero] at hone
        cases hone
    · intro hmem
      have hp := (h.record p hmem).1
      rcases hused p hp with ⟨hone, -⟩ | ⟨-, hnot⟩
      · exact ⟨hp, hone⟩
      · exact absurd hmem hnot
  have hperm : (((List.range n.dataStore.endId).map n.dataStore.record).filter fun r =>
      headerType r = 1).Perm ((validSlots s.hashTable.table).map n.dataStore.record) := by
    rw [List.filter_map]
    exact hslots.map _
  have hparse : ∀ p ∈ validSlots s.hashTable.table, ∃ key data, m key = some (some data) ∧
      parse n.keyLen (n.dataStore.record p) = (.ok, key, data) ∧
      ∀ q ∈ validSlots s.hashTable.table, (parse n.keyLen (n.dataStore.record q)).2.1 = key → q = p := by
    intro p hp
    obtain ⟨padding, key, data, hlen, hrec, hm, honly⟩ := hs.slot p hp
    refine ⟨key, data, hm, ?_, ?_⟩
    · rw [(h.record p hp).2, hrec, h.keyLen, parse_entry hlen]
    · intro q hq hkey
      obtain ⟨padding', key', data', hlen', hrec', -⟩ := hs.slot q hq
      rw [(h.record q hq).2, hrec', h.keyLen, parse_entry hlen'] at hkey
      obtain rfl : key' = key := hkey
      exact honly q hq padding' data' hrec'
  refine ⟨_, hincrement, ?_, ?_, ?_⟩
  · refine ((hperm.map (parse n.keyLen)).map _).nodup_iff.mpr ?_
    rw [List.map_map, List.map_map]
    refine List.Nodup.map_on (fun p hp q hq heq => ?_) (validSlots_nodup _)
    obtain ⟨key, data, -, hq', honly⟩ := hparse q hq
    refine honly p hp ?_
    have hkey : (parse n.keyLen (n.dataStore.record p)).2.1 = (parse n.keyLen (n.dataStore.record q)).2.1 := heq
    rw [hkey, hq']
  · rw [List.length_map, hperm.length_eq, List.length_map, hs.count]
  · intro ret key data
    rw [((hperm.map (parse n.keyLen))).mem_iff, List.map_map, List.mem_map, hs.get]
    constructor
    · rintro ⟨p, hp, heq⟩
      obtain ⟨key', data', hm, hpar, -⟩ := hparse p hp
      rw [Function.comp_apply, hpar, Prod.mk.injEq, Prod.mk.injEq] at heq
      obtain ⟨rfl, rfl, rfl⟩ := heq
      exact ⟨rfl, hm⟩
    · rintro ⟨rfl, hm⟩
      obtain ⟨p, hp, padding, hlen, hrec⟩ := hs.stored key data hm
      refine ⟨p, hp, ?_⟩
      rw [Function.comp_apply, (h.record p hp).2, hrec, h.keyLen, parse_entry hlen]

end Enumerate

section Runs

open Transition

variable {uninit : Nat → UInt8} {s : FawnDSSF Seeded FileStore} {m : TombMap} {L : Set (Value × Nat)}

theorem mem_validSlots {t : HashTableCuckoo} {p : Nat} (h : p ∈ validSlots t) :
    p / associativity < t.maxIndex ∧ p % associativity < associativity ∧
      t.valid (p / associativity) (p % associativity) = true := by
  refine ⟨Nat.div_lt_of_lt_mul ?_, Nat.mod_lt _ (by decide), (List.mem_filter.mp h).2⟩
  rw [Nat.mul_comm]
  exact validSlots_lt h

theorem slot_mem {t : HashTableCuckoo} {e : Value × Nat} {index way : Nat} (h : SlotOf t e index way) :
    ∃ p ∈ validSlots t, t.slotId p = e.2 := by
  have hdiv : (index * associativity + way) / associativity = index := div_position h.way_lt
  have hmod : (index * associativity + way) % associativity = way := by
    rw [Nat.mul_add_mod', Nat.mod_eq_of_lt h.way_lt]
  refine ⟨index * associativity + way, List.mem_filter.mpr
    ⟨List.mem_range.mpr (position_lt h.index_lt h.way_lt), ?_⟩, ?_⟩
  · rw [hdiv, hmod]
    exact h.valid
  · rw [slotId, hdiv, hmod]
    exact h.val

theorem slotIds_nodup {live : List (Value × Nat)} {t : HashTableCuckoo} (h : HashTableCuckoo.Inv ⟨t, live⟩) :
    ((validSlots t).map t.slotId).Nodup ∧ t.currentEntries = (validSlots t).length := by
  have hids : (validSlots t).map t.slotId = t.entries.map Prod.snd := by
    rw [← enumerate_ids]
    exact IteratorElem.enumerate_data t
  have hnodup := entries_snd_nodup h
  constructor
  · rw [hids]
    exact hnodup
  · have hlength := congrArg List.length hids
    rw [List.length_map, List.length_map, h.entries.length_eq, List.length_map] at hlength
    rw [hlength]
    exact h.currentEntries

/-- A key that is not well-formed, or too short for the table, has no value. -/
theorem get_ne_ok {key data : Value} (h : ¬(WellFormed s.keyLen key ∧ 4 ≤ key.length)) :
    get HashTableCuckoo.hashTable (FileStore.dataStore uninit) s key 0 maxLen ≠ some (.ok data) := by
  rw [get]
  by_cases hbad : s.invalidKey key = true
  · rw [if_pos hbad]
    simp
  · have hwf : WellFormed s.keyLen key := by
      simp only [invalidKey, Bool.or_eq_true, beq_iff_eq, Bool.and_eq_true, bne_iff_ne, not_or, not_and,
        not_not] at hbad
      exact ⟨fun hnil => hbad.1 (by rw [hnil]; rfl), fun hfix => (hbad.2 hfix).symm⟩
    have hfind : HashTableCuckoo.hashTable.find s.hashTable key = none :=
      find_none (.inl (Nat.lt_of_not_le fun hle => h ⟨hwf, hle⟩))
    rw [if_neg hbad, hfind, Option.bind_none]
    simp

/-- The store of a run over the cuckoo table and the file, without tombstones. -/
theorem current_of_represents
    (h : Represents HashTableCuckoo.contract (FileStore.contract uninit) s m L) (hkeyLen : s.keyLen ≠ 0)
    (hm : ∀ key, m key ≠ some none) : Current uninit s m := by
  obtain ⟨live, hinv, hL, hlt⟩ : HashTableCuckoo.Holds s.hashTable L := h.table
  obtain ⟨hlog, hend⟩ : Log s.dataStore ∧ s.dataStore.endId ≤ 2 ^ 31 := h.good
  obtain ⟨hnodup, hcount⟩ := slotIds_nodup hinv
  have hrecord : ∀ key id, (key, id) ∈ L → id < 2 ^ 31 ∧ key.length = s.keyLen ∧ id < s.dataStore.endId ∧
      ∃ padding data, s.dataStore.record id = entry s.keyLen padding key data false ∧
        m key = some (some data) := by
    intro key id hmem
    obtain ⟨hid, hwf, -, padding, data, isDelete, hrec, hmap⟩ := h.record key id hmem
    obtain ⟨-, hin, hrec⟩ : Fixed s.dataStore ∧ id < s.dataStore.endId ∧ s.dataStore.record id = _ := hrec
    refine ⟨hid, hwf.2 hkeyLen, hin, padding, data, ?_⟩
    cases isDelete with
    | true => exact absurd hmap (hm key)
    | false => exact ⟨hrec, hmap⟩
  have hslot : ∀ p ∈ validSlots s.hashTable.table, ∃ key, (key, s.hashTable.table.slotId p) ∈ L := by
    intro p hp
    obtain ⟨hindex, hway, hvalid⟩ := mem_validSlots hp
    obtain ⟨e, he, -, hval⟩ := live_of_valid hinv hindex hway hvalid
    refine ⟨e.1, ?_⟩
    rw [hL, show s.hashTable.table.slotId p = e.2 from hval.symm]
    exact he
  have hinj : ∀ p ∈ validSlots s.hashTable.table, ∀ q ∈ validSlots s.hashTable.table,
      s.hashTable.table.slotId p = s.hashTable.table.slotId q → p = q :=
    fun p hp q hq heq => List.inj_on_of_nodup_map hnodup hp hq heq
  have hstored : ∀ key, m key ≠ none → ∃ p ∈ validSlots s.hashTable.table,
      (key, s.hashTable.table.slotId p) ∈ L := by
    intro key hne
    obtain ⟨id, hmem⟩ := h.stored key hne
    have hlive : (key, id) ∈ live := by
      rw [hL] at hmem
      exact hmem
    obtain ⟨index, way, hslotOf⟩ := exists_slotOf hinv hlive
    obtain ⟨p, hp, hid⟩ := slot_mem hslotOf
    exact ⟨p, hp, by rw [hid]; exact hmem⟩
  refine ⟨⟨hlog.toFixed, by omega, hinv.wellformed.length, hinv.wellformed.maxIndex_le, ?_, hinj⟩, ?_, hcount,
    ?_, ?_, ?_⟩
  · intro p hp
    obtain ⟨key, hmem⟩ := hslot p hp
    exact (hrecord key _ hmem).2.2.1
  · intro p hp
    obtain ⟨key, hmem⟩ := hslot p hp
    exact (hrecord key _ hmem).1
  · intro p hp
    obtain ⟨key, hmem⟩ := hslot p hp
    obtain ⟨-, hlen, -, padding, data, hrec, hmap⟩ := hrecord key _ hmem
    refine ⟨padding, key, data, hlen, hrec, hmap, fun q hq padding' data' hrec' => ?_⟩
    obtain ⟨key', hmem'⟩ := hslot q hq
    obtain ⟨-, hlen', -, padding'', data'', hrec'', -⟩ := hrecord key' _ hmem'
    have hkeys : key' = key := by
      have hparse := congrArg (parse s.keyLen) (hrec''.symm.trans hrec')
      rw [parse_entry hlen', parse_entry hlen] at hparse
      exact (Prod.mk.inj (Prod.mk.inj hparse).2).1
    subst hkeys
    exact hinj q hq p hp (h.unique key' _ _ hmem' hmem)
  · intro key data hmap
    obtain ⟨p, hp, hmem⟩ := hstored key (by simp [hmap])
    obtain ⟨-, hlen, -, padding, data', hrec, hmap'⟩ := hrecord key _ hmem
    obtain rfl : data' = data := by simpa using hmap'.symm.trans hmap
    exact ⟨p, hp, padding, hlen, hrec⟩
  · intro key data
    by_cases hkey : WellFormed s.keyLen key ∧ 4 ≤ key.length
    · rw [get_of_represents h hkey.1 hkey.2]
      cases hmap : m key with
      | none => simp [answer]
      | some entry =>
        cases entry with
        | none => exact absurd hmap (hm key)
        | some data' => simp [answer]
    · refine ⟨fun hget => absurd hget (get_ne_ok hkey), fun hmap => absurd ?_ hkey⟩
      obtain ⟨id, hmem⟩ := h.stored key (by simp [hmap])
      have hlive : (key, id) ∈ live := by
        rw [hL] at hmem
        exact hmem
      exact ⟨(h.record key id hmem).2.1, hinv.keys _ hlive⟩

/-- Lengths of a store of fixed-length records, as `atoi` can return them. -/
structure FixedLengths where
  keyLen : Nat
  dataLen : Nat
  keyLen_ne : keyLen ≠ 0
  dataLen_ne : dataLen ≠ 0
  keyLen_lt : keyLen < 2 ^ 31
  dataLen_lt : dataLen < 2 ^ 31

/-- The length that `Create` configures for the data store. -/
def FixedLengths.recordLen (c : FixedLengths) : Nat := dhSize + c.keyLen + c.dataLen

def FixedLengths.create (c : FixedLengths) (t : HashTableCuckoo) (draws : Nat → Nat → Nat) :
    Observed Seeded FileStore :=
  start c.keyLen c.dataLen ⟨t, draws⟩ (FileStore.create c.recordLen)

def FixedLengths.createTags (c : FixedLengths) (t : TagTable) : FawnDSSF TagTable FileStore :=
  { keyLen := c.keyLen
    dataLen := c.dataLen
    numElements := 0
    numActiveElements := 0
    hashTable := t
    dataStore := FileStore.create c.recordLen }

variable {c : FixedLengths} {t₀ : HashTableCuckoo} {draws : Nat → Nat → Nat}
  {o o' : Observed Seeded FileStore} {call : Call} {key data : Value} {padding : Nat} {isDelete : Bool}

/-- What holds in every state of a run with ids below `2 ^ 31`. Over a table without buckets no call
comes to insert anything. -/
structure FixedInv (uninit : Nat → UInt8) (c : FixedLengths) (t₀ : HashTableCuckoo)
    (draws : Nat → Nat → Nat) (o : Observed Seeded FileStore) : Prop where
  keyLen : o.store.keyLen = c.keyLen
  dataLen : o.store.dataLen = c.dataLen
  recordLen : o.store.dataStore.dataLen = c.recordLen
  log : Log o.store.dataStore
  maxIndex : o.store.hashTable.table.maxIndex = t₀.maxIndex
  noTombstone : ∀ key, o.map key ≠ some none
  represents : t₀.maxIndex = 0 ∧ o = c.create t₀ draws ∨
    ∃ L, Represents HashTableCuckoo.contract (FileStore.contract uninit) o.store o.map L

theorem fixedInv_create {size : Int} (h : HashTableCuckoo.create size = .ok t₀) :
    FixedInv uninit c t₀ draws (c.create t₀ draws) := by
  have hkey := c.keyLen_lt
  have hdata := c.dataLen_lt
  have hlog : Log (FileStore.create c.recordLen) :=
    FileStore.create_log (by simp [FixedLengths.recordLen, dhSize])
      (by simp only [FixedLengths.recordLen, dhSize]; omega)
  refine ⟨rfl, rfl, rfl, hlog, rfl, fun key => by simp [FixedLengths.create, start], ?_⟩
  by_cases hsize : 4 ≤ size
  · obtain ⟨t, ht, hinv⟩ := inv_create hsize
    obtain rfl : t₀ = t := Except.ok.inj (h.symm.trans ht)
    obtain ⟨-, L, hrep⟩ := inv_start HashTableCuckoo.contract (FileStore.contract uninit)
      c.keyLen c.dataLen (h := ⟨t₀, draws⟩) ⟨[], hinv, by simp, by simp⟩ ⟨hlog, Nat.zero_le _⟩
    exact .inr ⟨L, hrep⟩
  · refine .inl ⟨?_, rfl⟩
    rw [HashTableCuckoo.create] at h
    split at h
    · cases h
    · obtain rfl := Except.ok.inj h
      have hlt : size.toNat < 2 ^ keyfragBits * associativity := by
        simp only [keyfragBits, associativity]
        omega
      show (if size.toNat < _ then size.toNat / associativity else _) = 0
      rw [if_pos hlt]
      simp only [associativity]
      omega

/-- A call that comes to `InsertEntry` finds a table with buckets, and a key that the table can hash. -/
theorem insertEntry_admits {ret : FawnDSReturn} {s' : FawnDSSF Seeded FileStore}
    (h : insertEntry HashTableCuckoo.hashTable (FileStore.dataStore uninit) s padding key data isDelete =
      some (ret, s')) : 4 ≤ key.length ∧ s.hashTable.table.maxIndex ≠ 0 := by
  rw [insertEntry, Option.bind_eq_some_iff] at h
  obtain ⟨l, hfind, -⟩ := h
  by_contra hnot
  rw [find_none (by omega)] at hfind
  cases hfind

theorem replace_maxIndex (t : HashTableCuckoo) (index way : Nat) (data : Value) :
    (replace t index way data).2.maxIndex = t.maxIndex := by
  by_cases hid : asNumber32 data (2 ^ 32 - 1) = 2 ^ 32 - 1
  · simp only [replace, if_pos hid]
  · simp only [replace, if_neg hid]

theorem updateTable_maxIndex (hashIt : Option (Nat × Nat)) {live : List (Value × Nat)}
    (hinv : HashTableCuckoo.Inv ⟨s.hashTable.table, live⟩) (hkey : 4 ≤ key.length) {v : Value}
      {r : FawnDSReturn} {h : Seeded}
    (hupdate : updateTable HashTableCuckoo.hashTable s hashIt key v = some (r, h)) :
    h.table.maxIndex = s.hashTable.table.maxIndex := by
  cases hashIt with
  | none =>
    obtain ⟨r', t', hput, hcases⟩ := put_adds (s.hashTable.draws 0) hinv.wellformed hkey v
    change (if s.hashTable.table.maxIndex = 0 then none else _) = _ at hupdate
    simp only at hput
    rw [if_neg hinv.wellformed.maxIndex_pos.ne', hput, Option.map_some] at hupdate
    obtain ⟨-, rfl⟩ := Prod.mk.inj (Option.some.inj hupdate)
    rcases hcases with ⟨-, hadds⟩ | ⟨-, rfl⟩
    · exact hadds.maxIndex
    · rfl
  | some place =>
    change some ((replace s.hashTable.table place.1 place.2 v).1,
      ({ s.hashTable with table := (replace s.hashTable.table place.1 place.2 v).2 } : Seeded)) = _ at hupdate
    obtain ⟨-, rfl⟩ := Prod.mk.inj (Option.some.inj hupdate)
    exact replace_maxIndex _ _ _ _

/-- A `Delete` has no data, and the data store of a fixed-length store takes no such record. -/
theorem delete_fixed (h : FixedInv uninit c t₀ draws o) {ret : FawnDSReturn} {s' : FawnDSSF Seeded FileStore}
    (hdelete : delete HashTableCuckoo.hashTable (FileStore.dataStore uninit) o.store padding key =
      some (ret, s')) : s' = o.store ∧ ret ≠ .ok ∧ ret ≠ .keyNotFound := by
  rw [delete] at hdelete
  by_cases hbad : o.store.invalidKey key = true
  · rw [if_pos hbad] at hdelete
    cases hdelete
    exact ⟨rfl, by decide, by decide⟩
  · rw [if_neg hbad] at hdelete
    have hlen : key.length = c.keyLen := by
      simp only [invalidKey, Bool.or_eq_true, beq_iff_eq, Bool.and_eq_true, bne_iff_ne, not_or, not_and,
        not_not, h.keyLen] at hbad
      exact (hbad.2 c.keyLen_ne).symm
    have hreject : ∀ newObj, writeEntry (FileStore.dataStore uninit) o.store padding key [] true newObj =
        (.invalidData, [], o.store.dataStore) := by
      intro newObj
      rw [FileStore.writeEntry_eq]
      refine FileStore.append_invalid h.log ?_
      have hdata := c.dataLen_ne
      rw [length_entry, h.recordLen, FixedLengths.recordLen, List.length_nil]
      omega
    rw [insertEntry, Option.bind_eq_some_iff] at hdelete
    obtain ⟨l, -, hdelete⟩ := hdelete
    simp only [hreject] at hdelete
    rw [if_pos (by decide)] at hdelete
    cases hdelete
    exact ⟨rfl, by decide, by decide⟩

/-- A `Put` that comes to `InsertEntry`, while the ids stay below `2 ^ 31`. -/
theorem insertEntry_fixed (h : FixedInv uninit c t₀ draws o) (hkey : key.length = c.keyLen)
    (hdata : data.length = c.dataLen) {ret : FawnDSReturn} {s' : FawnDSSF Seeded FileStore}
    (hinsert : insertEntry HashTableCuckoo.hashTable (FileStore.dataStore uninit) o.store padding key data
      false = some (ret, s')) (hnext : s'.dataStore.nextAppendId ≤ 2 ^ 31) :
    FixedInv uninit c t₀ draws ⟨s', (Op.put key data).apply o.map ret⟩ := by
  obtain ⟨hfour, hmax⟩ := insertEntry_admits hinsert
  obtain ⟨hkeyLen, hdataLen, ⟨newObj, hwritten⟩, htable⟩ := insertEntry_frame hinsert
  obtain ⟨hzero, -⟩ | ⟨L, hrep⟩ := h.represents
  · exact absurd (h.maxIndex.trans hzero) hmax
  have hlen : (entry o.store.keyLen padding key data false).length = o.store.dataStore.dataLen := by
    rw [length_entry, h.recordLen, hkey, hdata]
    rfl
  obtain ⟨d, happend, hlog, hend, hlenD, -⟩ := FileStore.append_log h.log hlen
  have hwrite : ∀ newObj, writeEntry (FileStore.dataStore uninit) o.store padding key data false newObj =
      (.ok, leBytes 8 o.store.dataStore.endId, d) := by
    intro newObj
    rw [FileStore.writeEntry_eq, happend]
  have hstore : s'.dataStore = d := by rw [hwritten, hwrite]
  have hbelow : IdBelow (FileStore.dataStore uninit) o.store padding key data false := by
    refine FileStore.idBelow_of_lt ?_ _ _ _ _
    have hcount := hlog.nextAppendId
    have hcount' := h.log.nextAppendId
    rw [hstore] at hnext
    omega
  have hwf : WellFormed o.store.keyLen key := by
    refine ⟨?_, fun _ => hkey.trans h.keyLen.symm⟩
    rintro rfl
    exact absurd hfour (by decide)
  have hshort : Short o.store.keyLen key := fun hzero => absurd (h.keyLen.symm.trans hzero) c.keyLen_ne
  obtain ⟨ret', s'', hspec, -, hinserted⟩ := insertEntry_spec hrep hwf hshort
    (show 4 ≤ key.length from hfour) hbelow
  obtain ⟨rfl, rfl⟩ : ret' = ret ∧ s'' = s' := by simpa using hspec.symm.trans hinsert
  obtain ⟨live, hinv, -, -⟩ : HashTableCuckoo.Holds o.store.hashTable L := hrep.table
  have hmaxIndex : s''.hashTable.table.maxIndex = t₀.maxIndex := by
    rcases htable with hsame | ⟨hashIt, v, r, hupdate⟩
    · rw [hsame, h.maxIndex]
    · rw [updateTable_maxIndex _ hinv hfour hupdate, h.maxIndex]
  refine ⟨hkeyLen.trans h.keyLen, hdataLen.trans h.dataLen, ?_, ?_, hmaxIndex, ?_, .inr ?_⟩
  · rw [hstore]
    exact hlenD.trans h.recordLen
  · rw [hstore]
    exact hlog
  · intro key'
    simp only [Op.apply]
    split
    · by_cases hkk : key' = key
      · rw [hkk, Function.update_self]
        simp
      · rw [Function.update_of_ne hkk]
        exact h.noTombstone key'
    · exact h.noTombstone key'
  · cases hinserted with
    | set L' hcode hrep' =>
      obtain rfl : ret' = .ok := by simpa using hcode
      exact ⟨L', hrep'⟩
    | failed L' hnot _ hrep' =>
      refine ⟨L', ?_⟩
      simpa [Op.apply, hnot] using hrep'

/-- Every call keeps the invariant, while the ids stay below `2 ^ 31`. -/
theorem fixedInv_step (h : FixedInv uninit c t₀ draws o)
    (hstep : step HashTableCuckoo.hashTable (FileStore.dataStore uninit) o call = some o')
    (hnext : o'.store.dataStore.nextAppendId ≤ 2 ^ 31) : FixedInv uninit c t₀ draws o' := by
  rcases call with ⟨op, padding⟩
  cases op with
  | put key data =>
    obtain ⟨⟨ret, s'⟩, hput, rfl⟩ := Option.map_eq_some_iff.mp hstep
    change put HashTableCuckoo.hashTable (FileStore.dataStore uninit) o.store padding key data = _ at hput
    rw [put] at hput
    by_cases hbad : o.store.invalidKey key = true
    · rw [if_pos hbad] at hput
      cases hput
      exact h
    rw [if_neg hbad] at hput
    by_cases hdata : o.store.dataLen ≠ 0 ∧ o.store.dataLen ≠ data.length
    · rw [if_pos hdata] at hput
      cases hput
      exact h
    rw [if_neg hdata] at hput
    simp only [invalidKey, Bool.or_eq_true, beq_iff_eq, Bool.and_eq_true, bne_iff_ne, not_or, not_and,
      not_not, h.keyLen] at hbad
    simp only [not_and, not_not, h.dataLen] at hdata
    exact insertEntry_fixed h (hbad.2 c.keyLen_ne).symm (hdata c.dataLen_ne).symm hput hnext
  | delete key =>
    obtain ⟨⟨ret, s'⟩, hdelete, rfl⟩ := Option.map_eq_some_iff.mp hstep
    obtain ⟨rfl, hnot, hnot'⟩ := delete_fixed h hdelete
    have hmap : (Op.delete key).apply o.map ret = o.map := by simp [Op.apply, hnot, hnot']
    simpa [hmap] using h
  | get key =>
    obtain ⟨_, -, rfl⟩ := Option.map_eq_some_iff.mp hstep
    exact h

theorem fixedInv_run {size : Int} (ht : HashTableCuckoo.create size = .ok t₀) {calls : List Call}
    (hrun : run (step HashTableCuckoo.hashTable (FileStore.dataStore uninit)) (c.create t₀ draws) calls =
      some o) (hids : o.store.dataStore.nextAppendId ≤ 2 ^ 31) : FixedInv uninit c t₀ draws o := by
  have hbelow := meets_of_le (f := fun o : Observed Seeded FileStore => o.store.dataStore.nextAppendId)
    (n := 2 ^ 31 + 1) (fun _ _ _ => FileStore.step_nextAppendId) hrun (Nat.lt_succ_of_le hids)
  refine run_invariant_of_meets ?_ hrun hbelow (fixedInv_create ht)
  intro o l o' hstep hlt hinv
  exact fixedInv_step hinv hstep (Nat.le_of_lt_succ (hlt o' hstep))

theorem current_of_fixedInv {size : Int} (ht : HashTableCuckoo.create size = .ok t₀)
    (h : FixedInv uninit c t₀ draws o) : Current uninit o.store o.map := by
  have hkeyLen : o.store.keyLen ≠ 0 := h.keyLen ▸ c.keyLen_ne
  obtain ⟨hzero, rfl⟩ | ⟨L, hrep⟩ := h.represents
  · have hslots : validSlots t₀ = [] := by simp [validSlots, hzero]
    have hlength : t₀.slots.length = t₀.maxIndex * associativity ∧ t₀.currentEntries = 0 := by
      rw [HashTableCuckoo.create] at ht
      split at ht
      · cases ht
      · obtain rfl := Except.ok.inj ht
        exact ⟨List.length_replicate, rfl⟩
    have hnone : ∀ p, p ∉ validSlots (c.create t₀ draws).store.hashTable.table := by
      intro p hp
      rw [show validSlots (c.create t₀ draws).store.hashTable.table = [] from hslots] at hp
      exact absurd hp List.not_mem_nil
    refine ⟨⟨h.log.toFixed, Nat.zero_le _, hlength.1, ?_, ?_, ?_⟩, ?_, ?_, ?_, ?_, ?_⟩
    · show t₀.maxIndex ≤ 2 ^ 15
      omega
    · exact fun p hp => absurd hp (hnone p)
    · exact fun p hp => absurd hp (hnone p)
    · exact fun p hp => absurd hp (hnone p)
    · rw [show validSlots (c.create t₀ draws).store.hashTable.table = [] from hslots]
      exact hlength.2
    · exact fun p hp => absurd hp (hnone p)
    · intro key data hm
      cases hm
    · intro key data
      refine ⟨fun hget => ?_, fun hm => by cases hm⟩
      by_cases hkey : WellFormed (c.create t₀ draws).store.keyLen key ∧ 4 ≤ key.length
      · have hfind : HashTableCuckoo.hashTable.find (c.create t₀ draws).store.hashTable key = none :=
          find_none (.inr hzero)
        rw [FawnDSSF.get, invalidKey_of_wellFormed hkey.1, hfind, Option.bind_none] at hget
        cases hget
      · exact absurd hget (get_ne_ok hkey)
  · exact current_of_represents hrep hkeyLen h.noTombstone

section Repeated

/-- A store that has had one key put `n + 1` times: one pair in the table, all records the same. -/
structure Single (c : FixedLengths) (t₀ : HashTableCuckoo) (key data : Value) (n : Nat)
    (s : FawnDSSF Seeded FileStore) : Prop where
  maxIndex : s.hashTable.table.maxIndex = t₀.maxIndex
  keyLen : s.keyLen = c.keyLen
  dataLen : s.dataLen = c.dataLen
  recordLen : s.dataStore.dataLen = c.recordLen
  log : Log s.dataStore
  endId : s.dataStore.endId = n + 1
  table : HashTableCuckoo.Holds s.hashTable {(key, n)}
  record : ∀ id ≤ n, s.dataStore.record id = entry c.keyLen 0 key data false

variable {n : Nat}

/-- A search over candidates that are all records of the key stops at the first. -/
theorem search_first {H C D : Type} {S : DataStore D} (hS : S.Contract) {s : FawnDSSF H D}
    (hkey : WellFormed s.keyLen key) (hshort : Short s.keyLen key) {e : C × Value} {l : List (C × Value)}
    {id : Nat} (hv : Denotes e.2 id) (hid : id < 2 ^ 31)
    (hrec : hS.Holds s.dataStore id (entry s.keyLen padding key data isDelete)) :
    search S s.keyLen s.dataStore key (e :: l) = some (e.1, e.2, header s.keyLen padding key isDelete) := by
  rw [search, readMatch_entry hrec hv hid hkey hkey hshort, if_pos rfl]

theorem search_eq_none {C D : Type} {S : DataStore D} {keyLen : Nat} {d : D} {l : List (C × Value)}
    (h : ∀ e ∈ l, readMatch S keyLen d key e.2 = none) : search S keyLen d key l = none := by
  induction l with
  | nil => rfl
  | cons e l ih =>
    rw [search, h e List.mem_cons_self]
    exact ih fun e' he' => h e' (List.mem_cons_of_mem e he')

theorem Single.wellFormed (h : Single c t₀ key data n s) (hkey : key.length = c.keyLen) :
    WellFormed s.keyLen key ∧ Short s.keyLen key := by
  refine ⟨⟨?_, fun _ => hkey.trans h.keyLen.symm⟩, fun hzero => absurd (h.keyLen.symm.trans hzero) c.keyLen_ne⟩
  rintro rfl
  exact c.keyLen_ne hkey.symm

theorem Single.find (h : Single c t₀ key data n s) (hfour : 4 ≤ key.length) :
    ∃ e l, HashTableCuckoo.hashTable.find s.hashTable key = some (e :: l) ∧ ∀ e' ∈ e :: l, Denotes e'.2 n := by
  obtain ⟨l, hfind, hall, honly⟩ := find_holds h.table hfour
  have hdenotes : ∀ e ∈ l, Denotes e.2 n := by
    intro e he
    obtain ⟨key', id, hmem, hv⟩ := honly e he
    rw [(Prod.mk.inj (Set.mem_singleton_iff.mp hmem)).2] at hv
    exact hv
  obtain ⟨e, he, -⟩ := hall n (Set.mem_singleton _)
  cases l with
  | nil => exact absurd he List.not_mem_nil
  | cons e l => exact ⟨e, l, hfind, hdenotes⟩

/-- One more `Put` of the key replaces its id, as long as the record under the old id is found. -/
theorem Single.put (uninit : Nat → UInt8) (h : Single c t₀ key data n s) (hkey : key.length = c.keyLen)
    (hfour : 4 ≤ key.length)
    (hdata : data.length = c.dataLen) (hn : n < 2 ^ 31) :
    ∃ s', FawnDSSF.put HashTableCuckoo.hashTable (FileStore.dataStore uninit) s 0 key data = some (.ok, s') ∧
      Single c t₀ key data (n + 1) s' := by
  obtain ⟨hwf, hshort⟩ := h.wellFormed hkey
  obtain ⟨e, l, hfind, hdenotes⟩ := h.find hfour
  have hold := hdenotes e List.mem_cons_self
  have hrec : (FileStore.contract uninit).Holds s.dataStore n (entry s.keyLen 0 key data false) :=
    ⟨h.log.toFixed, by rw [h.endId]; omega, by rw [h.keyLen]; exact h.record n (Nat.le_refl n)⟩
  have hsearch := search_first (FileStore.contract uninit) (l := l) hwf hshort hold hn hrec
  have hlen : (entry s.keyLen 0 key data false).length = s.dataStore.dataLen := by
    rw [length_entry, h.recordLen, hkey, hdata]
    rfl
  obtain ⟨d, happend, hlog, hend, hlenD, hself, hother⟩ := FileStore.append_log h.log hlen
  rw [h.endId] at happend hself hother hend
  have hv : Denotes (leBytes 8 (n + 1)) (n + 1) := denotes_leBytes (.inr rfl) (by omega)
  obtain ⟨h', hreplace, hholds⟩ := replace_holds h.table hfind List.mem_cons_self hold (Set.mem_singleton _) hv
    (by omega) (by simp)
  have hwrite : writeEntry (FileStore.dataStore uninit) s 0 key data false false =
      (.ok, leBytes 8 (n + 1), d) := by
    rw [FileStore.writeEntry_eq, happend]
  have hnumber : (number? (leBytes 8 (n + 1))).getD maxLen ≠ maxLen := by
    rw [hv.1, maxLen]
    simp only [Option.getD_some]
    omega
  have hupdate : updateTable HashTableCuckoo.hashTable s (some e.1) key (leBytes 8 (n + 1)) = some (.ok, h') :=
    hreplace
  have hlen' : ¬(s.dataLen ≠ 0 ∧ s.dataLen ≠ data.length) := by
    rw [h.dataLen, hdata]
    simp
  refine ⟨{ s with hashTable := h', dataStore := d, numElements := s.numElements + 1 }, ?_, ?_⟩
  · have hvalid : ¬s.invalidKey key = true := by simp [invalidKey_of_wellFormed hwf]
    rw [FawnDSSF.put, if_neg hvalid, if_neg hlen', insertEntry, hfind]
    simp [hsearch, hwrite, hnumber, hupdate]
  · obtain ⟨live, hinv, -, -⟩ := h.table
    refine ⟨(updateTable_maxIndex _ hinv hfour hupdate).trans h.maxIndex, h.keyLen, h.dataLen,
      hlenD.trans h.recordLen, hlog, hend, ?_, ?_⟩
    · rw [Set.sdiff_self, insert_empty_eq] at hholds
      exact hholds
    · intro id hid
      rcases Nat.lt_or_ge id (n + 1) with hlt | hge
      · rw [hother id hlt]
        exact h.record id (by omega)
      · obtain rfl : id = n + 1 := by omega
        rw [hself, h.keyLen]

theorem Single.first (uninit : Nat → UInt8) (draws : Nat → Nat → Nat) (hinv : HashTableCuckoo.Inv ⟨t₀, []⟩)
    (hkey : key.length = c.keyLen)
    (hfour : 4 ≤ key.length) (hdata : data.length = c.dataLen) :
    ∃ s', FawnDSSF.put HashTableCuckoo.hashTable (FileStore.dataStore uninit) (c.create t₀ draws).store 0 key
      data = some (.ok, s') ∧ Single c t₀ key data 0 s' := by
  have hkeyLen := c.keyLen_lt
  have hdataLen := c.dataLen_lt
  have hempty : HashTableCuckoo.Inv ⟨(⟨t₀, draws⟩ : Seeded).table, []⟩ := hinv
  have hlog : Log (FileStore.create c.recordLen) :=
    FileStore.create_log (by simp [FixedLengths.recordLen, dhSize])
      (by simp only [FixedLengths.recordLen, dhSize]; omega)
  have hlen : (entry c.keyLen 0 key data false).length = (FileStore.create c.recordLen).dataLen := by
    rw [length_entry, hkey, hdata]
    rfl
  obtain ⟨d, happend, hlog', hend, hlenD, hself, -⟩ := FileStore.append_log hlog hlen
  obtain ⟨h₁, hput⟩ := put_of_empty hempty hfour (leBytes 8 0)
  have hv : Denotes (leBytes 8 0) 0 := denotes_leBytes (.inr rfl) (by decide)
  obtain ⟨ret, h₂, hput', hholds⟩ := put_holds (s := ⟨t₀, draws⟩) (L := ∅) ⟨[], hinv, by simp, by simp⟩ hfour hv
    (by decide) (by simp)
  obtain ⟨rfl, rfl⟩ : ret = .ok ∧ h₂ = h₁ := by simpa using hput'.symm.trans hput
  obtain ⟨-, hholds⟩ | ⟨hne, -⟩ := hholds
  · have hwf : WellFormed c.keyLen key := by
      refine ⟨?_, fun _ => hkey⟩
      rintro rfl
      exact c.keyLen_ne hkey.symm
    have hnumber : (number? (leBytes 8 0)).getD maxLen ≠ maxLen := by decide
    have hmax : h₂.table.maxIndex = t₀.maxIndex :=
      updateTable_maxIndex (s := (c.create t₀ draws).store) none hinv hfour hput
    refine ⟨_, put_new (s := (c.create t₀ draws).store) 0 data hwf (fun _ => hdata)
      (find_of_empty hempty hfour) rfl
      happend hnumber hput, hmax, rfl, rfl, hlenD, hlog', hend, ?_, ?_⟩
    · rw [insert_empty_eq] at hholds
      exact hholds
    · intro id hid
      obtain rfl : id = 0 := by omega
      exact hself
  · exact absurd rfl hne

theorem run_repeated (uninit : Nat → UInt8) (h : Single c t₀ key data n o.store)
    (hkey : key.length = c.keyLen) (hfour : 4 ≤ key.length)
    (hdata : data.length = c.dataLen) (k : Nat) (hk : n + k ≤ 2 ^ 31) :
    ∃ o', run (step HashTableCuckoo.hashTable (FileStore.dataStore uninit)) o
      (List.replicate k ⟨.put key data, 0⟩) = some o' ∧ Single c t₀ key data (n + k) o'.store := by
  induction k generalizing n o with
  | zero => exact ⟨o, rfl, h⟩
  | succ k ih =>
    obtain ⟨s', hput, hs'⟩ := h.put uninit hkey hfour hdata (by omega)
    obtain ⟨o', hrun, ho'⟩ := ih (o := ⟨s', _⟩) hs' (by omega)
    refine ⟨o', run_cons_eq_some.mpr ⟨_, step_put hput, hrun⟩, ?_⟩
    rw [show n + (k + 1) = n + 1 + k by omega]
    exact ho'

theorem run_create_repeated (uninit : Nat → UInt8) (draws : Nat → Nat → Nat) (c : FixedLengths)
    (key data : Value) (hinv : HashTableCuckoo.Inv ⟨t₀, []⟩) (hkey : key.length = c.keyLen)
    (hfour : 4 ≤ key.length) (hdata : data.length = c.dataLen) (k : Nat) (hk : k ≤ 2 ^ 31) :
    ∃ o, run (step HashTableCuckoo.hashTable (FileStore.dataStore uninit)) (c.create t₀ draws)
      (List.replicate (k + 1) ⟨.put key data, 0⟩) = some o ∧ Single c t₀ key data k o.store := by
  obtain ⟨s', hput, hs'⟩ := Single.first uninit draws hinv hkey hfour hdata
  obtain ⟨o, hrun, ho⟩ := run_repeated uninit
    (o := ⟨s', (Op.put key data).apply (c.create t₀ draws).map .ok⟩) hs' hkey hfour hdata k (by omega)
  refine ⟨o, run_cons_eq_some.mpr ⟨_, step_put hput, hrun⟩, ?_⟩
  rw [Nat.zero_add] at ho
  exact ho

/-- Four bytes of `2 ^ 31` are read as a negative number, and the position of no record. -/
theorem get_negative (hlen : s.dataStore.dataLen = 9) (len : Nat) :
    (FileStore.dataStore uninit).get s.dataStore (leBytes 4 (2 ^ 31)) 0 len = .error .error := by
  have hoffset : asOffset (leBytes 4 (2 ^ 31)) = -2 ^ 31 := by decide
  have hread : FileStore.intPread uninit s.dataStore.file (9 - 0) (-2 ^ 31 * (9 : Nat) + (0 : Nat)) = none := by
    rw [FileStore.intPread, if_neg (by decide)]
    exact if_neg (by decide)
  have hlength : s.dataStore.lengthAt uninit (-2 ^ 31) = .ok 9 := by
    rw [FileStore.lengthAt, if_neg (by omega), if_neg (by omega), hlen]
  rw [FileStore.dataStore_get, FileStore.get, hoffset, FileStore.getAt, if_neg (by omega), hlength]
  simp only [hlen, hread]
  rfl

/-- After `2 ^ 31 + 1` of the calls the key is lost to the old store, but not to the converted one. -/
theorem Single.convert (uninit : Nat → UInt8) (h : Single c t₀ key data (2 ^ 31) s) (hlen : c.recordLen = 9)
    (hkey : key.length = c.keyLen) (hfour : 4 ≤ key.length) {sf : FawnDSSF TagTable FileStore}
    (hfresh : Fresh s sf) :
    get HashTableCuckoo.hashTable (FileStore.dataStore uninit) s key 0 maxLen = some (.error .keyNotFound) ∧
    ∃ n, convertTo uninit s sf = some (.ok, n) ∧
      get TagTable.hashTable (FileStore.dataStore uninit) n key 0 maxLen = some (.ok data) := by
  obtain ⟨live, hinv, hL, -⟩ := h.table
  obtain ⟨hnodup, -⟩ := slotIds_nodup hinv
  obtain ⟨hwf, hshort⟩ := h.wellFormed hkey
  have hne : key.length ≠ 0 := by omega
  have hpos : 0 < s.hashTable.table.maxIndex := hinv.wellformed.maxIndex_pos
  have hid : ∀ p ∈ validSlots s.hashTable.table, s.hashTable.table.slotId p = 2 ^ 31 := by
    intro p hp
    obtain ⟨hindex, hway, hvalid⟩ := mem_validSlots hp
    obtain ⟨e, he, -, hval⟩ := live_of_valid hinv hindex hway hvalid
    have hmem : e ∈ ({(key, 2 ^ 31)} : Set (Value × Nat)) := by
      rw [hL]
      exact he
    rw [Set.mem_singleton_iff.mp hmem] at hval
    exact hval.symm
  have hs : Convertible s := by
    refine ⟨h.log.toFixed, ?_, hinv.wellformed.length, hinv.wellformed.maxIndex_le, ?_, ?_⟩
    · rw [h.endId]
      decide
    · intro p hp
      rw [hid p hp, h.endId]
      decide
    · exact fun p hp q hq heq => List.inj_on_of_nodup_map hnodup hp hq heq
  obtain ⟨n, hconvert, hn⟩ := convertTo_spec uninit hs hfresh
  obtain ⟨hc, hc'⟩ := candidates_convert hn hs hne hpos
  have hfind : HashTableCuckoo.hashTable.find s.hashTable key = some (candidates s.hashTable.table key) :=
    find_some (by omega)
  have hfind' : TagTable.hashTable.find n.hashTable key = some (candidates n.hashTable.view key) :=
    TagTable.find_some (by rw [hn.maxIndex]; omega)
  refine ⟨?_, n, hconvert, ?_⟩
  · have hsearch : search (FileStore.dataStore uninit) s.keyLen s.dataStore key
        (candidates s.hashTable.table key) = none := by
      refine search_eq_none fun e he => ?_
      rw [hc] at he
      obtain ⟨it, hit, rfl⟩ := List.mem_map.mp he
      rw [readMatch, hid _ (position_mem hne hpos hit).1, get_negative (h.recordLen.trans hlen)]
    rw [get, invalidKey_of_wellFormed hwf, hfind, Option.bind_some, hsearch]
    rfl
  · have hwf' : WellFormed n.keyLen key ∧ Short n.keyLen key := by
      rw [hn.keyLen]
      exact ⟨hwf, hshort⟩
    obtain ⟨e, l, hcons, -⟩ := h.find hfour
    rw [hfind, hc] at hcons
    obtain ⟨it, its, hits, -, -⟩ := List.map_eq_cons_iff.mp (Option.some.inj hcons)
    have hit : it ∈ (HashTableCuckoo.find key).yields s.hashTable.table := by
      rw [hits]
      exact List.mem_cons_self
    obtain ⟨hmem, -⟩ := position_mem hne hpos hit
    have hsmall := hs.slot_lt hmem
    obtain ⟨hlt, hrec⟩ := hn.record _ hmem
    rw [hid _ hmem, h.record _ (Nat.le_refl _), ← h.keyLen, ← hn.keyLen] at hrec
    have hholds : (FileStore.contract uninit).Holds n.dataStore (position s.hashTable.table it)
        (entry n.keyLen 0 key data false) := ⟨hn.fixed, hlt, hrec⟩
    have hv : Denotes (leBytes 4 (position s.hashTable.table it)) (position s.hashTable.table it) :=
      denotes_leBytes (.inl rfl) (by omega)
    have hsearch := search_first (FileStore.contract uninit) (s := n)
      (e := ((it.currentIndex s.hashTable.table, it.way), leBytes 4 (position s.hashTable.table it)))
      (l := its.map fun it => ((it.currentIndex s.hashTable.table, it.way),
        leBytes 4 (position s.hashTable.table it))) hwf'.1 hwf'.2 hv hsmall hholds
    have hvalid : ¬n.invalidKey key = true := by simp [invalidKey_of_wellFormed hwf'.1]
    rw [get, if_neg hvalid, hfind', hc', hits, List.map_cons, Option.bind_some, hsearch]
    exact readData_entry hholds hv hsmall hwf.1

end Repeated

/-- In every state reached with at most `2 ^ 31` appended records, the conversion to a table without
offsets returns `OK` with no assertion failed; every `Get` of the new store is that of the old one, and
its `Enumerate` yields the current record of every key in the table, once. -/
theorem convertTo_preserves (uninit : Nat → UInt8) (c : FixedLengths) (size : Int)
    (draws : Nat → Nat → Nat) {t₀ : HashTableCuckoo} {n₀ : TagTable}
    (ht : HashTableCuckoo.create size = .ok t₀) (hn : TagTable.create size = .ok n₀) (calls : List Call)
    {o : Observed Seeded FileStore}
    (hrun : run (step HashTableCuckoo.hashTable (FileStore.dataStore uninit)) (c.create t₀ draws) calls =
      some o) (hids : o.store.dataStore.nextAppendId ≤ 2 ^ 31) :
    ∃ n, convertTo uninit o.store (c.createTags n₀) = some (.ok, n) ∧
      (∀ key offset len, get TagTable.hashTable (FileStore.dataStore uninit) n key offset len =
        get HashTableCuckoo.hashTable (FileStore.dataStore uninit) o.store key offset len) ∧
      ∃ l, increment n.keyLen ((n.dataStore.enumerate uninit).map Prod.snd) = some l ∧
        (l.map fun e => e.2.1).Nodup ∧ l.length = o.store.hashTable.table.currentEntries ∧
        ∀ ret key data, (ret, key, data) ∈ l ↔ ret = .ok ∧
          get HashTableCuckoo.hashTable (FileStore.dataStore uninit) o.store key 0 maxLen =
            some (.ok data) := by
  have hinv := fixedInv_run ht hrun hids
  have hcurrent := current_of_fixedInv ht hinv
  have hmax : n₀.maxIndex = t₀.maxIndex := by
    rw [TagTable.create, ht] at hn
    obtain rfl := Except.ok.inj hn
    rfl
  have hfresh : Fresh o.store (c.createTags n₀) := by
    refine ⟨hinv.keyLen.symm, hinv.dataLen.symm, hmax.trans hinv.maxIndex.symm, ?_⟩
    rw [hinv.recordLen]
    rfl
  obtain ⟨n, hconvert, hconverted⟩ := convertTo_spec uninit hcurrent.convertible hfresh
  exact ⟨n, hconvert, get_convert hconverted hcurrent.convertible hcurrent.id_small,
    increment_convert hconverted hcurrent (hinv.keyLen ▸ c.keyLen_ne)⟩

/-- A table without offsets has the size of the other. -/
theorem create_tags {size : Int} {t₀ : HashTableCuckoo} (hcreate : HashTableCuckoo.create size = .ok t₀) :
    TagTable.create size = .ok ⟨t₀.maxIndex, List.replicate (t₀.maxIndex * associativity) 0,
      t₀.currentEntries⟩ := by
  rw [TagTable.create, hcreate]
  rfl

/-- One `Put`, and the store converted. -/
theorem convertTo_preserves_put : ∃ t₀ n₀ o n, HashTableCuckoo.create 8 = .ok t₀ ∧
    TagTable.create 8 = .ok n₀ ∧
    run (step HashTableCuckoo.hashTable (FileStore.dataStore fun _ => 0))
      (FixedLengths.create ⟨4, 1, by decide, by decide, by decide, by decide⟩ t₀ fun _ _ => 0)
      [⟨.put [1, 0, 0, 0] [7], 0⟩] = some o ∧
    convertTo (fun _ => 0) o.store
      (FixedLengths.createTags ⟨4, 1, by decide, by decide, by decide, by decide⟩ n₀) = some (.ok, n) ∧
    get TagTable.hashTable (FileStore.dataStore fun _ => 0) n [1, 0, 0, 0] 0 maxLen = some (.ok [7]) := by
  obtain ⟨t₀, hcreate, hinv⟩ := inv_create (show (4 : Int) ≤ 8 by decide)
  have htags := create_tags hcreate
  have hkey : ([1, 0, 0, 0] : Value).length = 4 := rfl
  have hdata : ([7] : Value).length = 1 := rfl
  obtain ⟨s', hput, hsingle⟩ := Single.first (fun _ => 0) (fun _ _ => 0)
    (c := ⟨4, 1, by decide, by decide, by decide, by decide⟩) hinv hkey hkey.ge hdata
  have hrun := run_cons_eq_some.mpr ⟨_, step_put hput, run_nil⟩
  have hids : s'.dataStore.nextAppendId ≤ 2 ^ 31 := by
    rw [hsingle.log.nextAppendId, hsingle.endId]
    decide
  obtain ⟨n, hconvert, hget, -⟩ := convertTo_preserves (fun _ => 0) _ 8 (fun _ _ => 0) hcreate htags _ hrun hids
  have hcurrent := current_of_fixedInv hcreate (fixedInv_run hcreate hrun hids)
  refine ⟨t₀, _, _, n, hcreate, htags, hrun, hconvert, ?_⟩
  rw [hget]
  exact (hcurrent.get [1, 0, 0, 0] [7]).mpr rfl

/-- The record with id `2 ^ 31` is found in the converted store only. -/
theorem convertTo_finds_lost_key : ∃ t₀ n₀ o n, HashTableCuckoo.create 8 = .ok t₀ ∧
    TagTable.create 8 = .ok n₀ ∧
    run (step HashTableCuckoo.hashTable (FileStore.dataStore fun _ => 0))
      (FixedLengths.create ⟨4, 1, by decide, by decide, by decide, by decide⟩ t₀ fun _ _ => 0)
      (List.replicate (2 ^ 31 + 1) ⟨.put [1, 0, 0, 0] [7], 0⟩) = some o ∧
    convertTo (fun _ => 0) o.store
      (FixedLengths.createTags ⟨4, 1, by decide, by decide, by decide, by decide⟩ n₀) = some (.ok, n) ∧
    get HashTableCuckoo.hashTable (FileStore.dataStore fun _ => 0) o.store [1, 0, 0, 0] 0 maxLen =
      some (.error .keyNotFound) ∧
    get TagTable.hashTable (FileStore.dataStore fun _ => 0) n [1, 0, 0, 0] 0 maxLen = some (.ok [7]) := by
  obtain ⟨t₀, hcreate, hinv⟩ := inv_create (show (4 : Int) ≤ 8 by decide)
  have htags := create_tags hcreate
  obtain ⟨o, hrun, ho⟩ := run_create_repeated (fun _ => 0) (fun _ _ => 0)
    ⟨4, 1, by decide, by decide, by decide, by decide⟩ [1, 0, 0, 0] [7] hinv rfl
    (by decide) rfl (2 ^ 31) (Nat.le_refl _)
  have hfresh : Fresh o.store (FixedLengths.createTags ⟨4, 1, by decide, by decide, by decide, by decide⟩
      ⟨t₀.maxIndex, List.replicate (t₀.maxIndex * associativity) 0, t₀.currentEntries⟩) := by
    refine ⟨ho.keyLen.symm, ho.dataLen.symm, ho.maxIndex.symm, ?_⟩
    rw [ho.recordLen]
    rfl
  obtain ⟨hlost, n, hconvert, hfound⟩ := ho.convert (fun _ => 0) rfl rfl (by decide) hfresh
  exact ⟨t₀, _, o, n, hcreate, htags, hrun, hconvert, hlost, hfound⟩

end Runs

end FawnKV.Silt.FawnDSSF
