import FawnKV.Silt.CuckooTable
import FawnKV.Silt.FileStore

/-! `ConvertTo`: from a table with offsets to one without, where a record has the number of its slot. -/
namespace FawnKV.Silt

open Cuckoo ByteFile

/-- The table without offsets, `fpf_table_`: the bits of the tag vectors alone. -/
structure TagTable where
  maxIndex : Nat
  tags : List Nat
  currentEntries : Nat
deriving DecidableEq

namespace TagTable

def create (htsInt : Int) : Except FawnDSReturn TagTable :=
  (HashTableCuckoo.create htsInt).map fun t =>
    { maxIndex := t.maxIndex
      tags := List.replicate (t.maxIndex * associativity) 0
      currentEntries := t.currentEntries }

/-- The table as its iterators read it: `val` is the number of the slot. -/
def view (t : TagTable) : HashTableCuckoo :=
  { maxIndex := t.maxIndex
    slots := t.tags.mapIdx fun p keypresent => ⟨keypresent, p⟩
    currentEntries := t.currentEntries }

/-- Every `Put` comes to `store`, which asserts that there are offsets, and `Replace` writes one. -/
def hashTable : HashTable TagTable (Nat × Nat) where
  find t key := if key.length < 4 ∨ t.maxIndex = 0 then none else some (t.view.candidates key)
  put _ _ _ := none
  replace _ _ _ := none

theorem find_none {t : TagTable} {key : Value} (h : key.length < 4 ∨ t.maxIndex = 0) :
    hashTable.find t key = none := if_pos h

theorem find_some {t : TagTable} {key : Value} (h : ¬(key.length < 4 ∨ t.maxIndex = 0)) :
    hashTable.find t key = some (t.view.candidates key) := if_neg h

end TagTable

/-- `HashTableCuckoo::ConvertTo`, to a table without offsets. -/
def HashTableCuckoo.convertTo (t : HashTableCuckoo) (newCuckoo : TagTable) : FawnDSReturn × TagTable :=
  if t.maxIndex ≠ newCuckoo.maxIndex then (.error, newCuckoo)
  else
    (.ok, { newCuckoo with
      tags := t.slots.map CuckooSlot.keypresent
      currentEntries := t.currentEntries })

namespace FawnDSSF

/-- The loop over both hash tables; `none` is the assertion that they have as many entries. -/
def sideBySide : List Nat → List Nat → Option (List (Nat × Nat))
  | [], [] => some []
  | fromId :: l, toId :: r => (sideBySide l r).map fun mapping => (fromId, toId) :: mapping
  | _, _ => none

/-- The order of pairs that `std::sort` uses. -/
def pairLe (a b : Nat × Nat) : Bool := a.1 < b.1 || a.1 == b.1 && a.2 ≤ b.2

/-- The loop over the sorted mapping; `it` is what the iterator over the log has still to yield. -/
def reorganize (sf : FawnDSSF TagTable FileStore) : List (Nat × Nat) → List (Nat × Value) →
    Option (FawnDSReturn × FawnDSSF TagTable FileStore)
  | [], _ => some (.ok, sf)
  | (fromId, toId) :: mapping, it =>
    match it.dropWhile fun r => r.1 % 2 ^ 32 < fromId with
    | [] => none
    | (key, data) :: rest =>
      if key % 2 ^ 32 ≠ fromId then none
      else
        match sf.dataStore.put (leBytes 4 toId) data with
        | none => none
        | some (ret, d) =>
          if ret ≠ .ok then some (.error, { sf with dataStore := d })
          else
            reorganize
              { sf with
                dataStore := d
                numElements := if sf.numElements < toId + 1 then toId + 1 else sf.numElements
                numActiveElements := sf.numActiveElements + 1 }
              mapping ((key, data) :: rest)

/-- `FawnDS_SF::ConvertTo` without `keep-datastore-on-conversion`. -/
def convertTo (uninit : Nat → UInt8) (s : FawnDSSF HashTableCuckoo.Seeded FileStore)
    (sf : FawnDSSF TagTable FileStore) : Option (FawnDSReturn × FawnDSSF TagTable FileStore) :=
  if s.keyLen ≠ sf.keyLen then some (.error, sf)
  else if s.dataLen ≠ sf.dataLen then some (.error, sf)
  else
    let (ret, h) := s.hashTable.table.convertTo sf.hashTable
    if ret ≠ .ok then some (.error, { sf with hashTable := h })
    else
      let ids (t : HashTableCuckoo) := (HashTableCuckoo.enumerate.yields t).map (·.data t)
      (sideBySide (ids s.hashTable.table) (ids h.view)).bind fun mapping =>
        reorganize { sf with hashTable := h, numElements := 0, numActiveElements := 0 }
          (mapping.mergeSort pairLe) (s.dataStore.enumerate uninit)

end FawnDSSF

namespace HashTableCuckoo

section View

variable {t : HashTableCuckoo} {newCuckoo : TagTable} {key : Value} {p : Nat}

/-- The id in a slot. -/
def slotId (t : HashTableCuckoo) (p : Nat) : Nat := t.val (p / associativity) (p % associativity)

theorem enumerate_ids (t : HashTableCuckoo) :
    (enumerate.yields t).map (·.data t) = (validSlots t).map (slotId t) := by
  rw [IteratorElem.enumerate_yields, List.map_map]
  refine List.map_congr_left fun p _ => ?_
  exact IteratorElem.data_ofCursor t p

/-- The tags of the one are the tags of the other, and their slots have numbers as their ids. -/
structure SameTags (t u : HashTableCuckoo) : Prop where
  maxIndex : u.maxIndex = t.maxIndex
  slots : ∀ p, (u.slots.getD p ⟨0, 0⟩).keypresent = (t.slots.getD p ⟨0, 0⟩).keypresent
  val : ∀ p < t.slots.length, (u.slots.getD p ⟨0, 0⟩).val = p

theorem convertTo_sameTags (t : HashTableCuckoo) {newCuckoo : TagTable}
    (hmax : t.maxIndex = newCuckoo.maxIndex) :
    ∃ h, t.convertTo newCuckoo = (.ok, h) ∧ h.maxIndex = t.maxIndex ∧ SameTags t h.view := by
  have hconvert : t.convertTo newCuckoo = (.ok, { newCuckoo with
      tags := t.slots.map CuckooSlot.keypresent
      currentEntries := t.currentEntries }) := if_neg (by simp [hmax])
  refine ⟨_, hconvert, hmax.symm, hmax.symm, ?_, ?_⟩
  · intro p
    simp only [TagTable.view, List.getD_eq_getElem?_getD, List.getElem?_mapIdx, List.getElem?_map]
    cases t.slots[p]? <;> rfl
  · intro p hp
    simp only [TagTable.view, List.getD_eq_getElem?_getD, List.getElem?_mapIdx, List.getElem?_map,
      List.getElem?_eq_getElem hp]
    rfl

variable {u : HashTableCuckoo}

theorem SameTags.valid (h : SameTags t u) (index way : Nat) : u.valid index way = t.valid index way := by
  rw [HashTableCuckoo.valid, HashTableCuckoo.valid, slot, slot, h.slots]

theorem SameTags.tag (h : SameTags t u) (index way : Nat) : u.tag index way = t.tag index way := by
  rw [HashTableCuckoo.tag, HashTableCuckoo.tag, slot, slot, h.slots]

theorem SameTags.validSlots (h : SameTags t u) : validSlots u = validSlots t := by
  simp only [HashTableCuckoo.validSlots, h.maxIndex, h.valid]

theorem SameTags.slotId (h : SameTags t u) (hp : p < t.slots.length) : u.slotId p = p := by
  rw [HashTableCuckoo.slotId, HashTableCuckoo.val, slot, Nat.div_add_mod']
  exact h.val p hp

/-- The iterators of `Find` over the two tables stand on the same slots. -/
theorem SameTags.find_yields (h : SameTags t u) (hkey : key.length ≠ 0) :
    (find key).yields u = (find key).yields t := by
  have hlimit : ∀ t : HashTableCuckoo, (IteratorElem.ofCursor key 3).limit t = numHash :=
    fun t => if_pos hkey
  have hyields := fun t : HashTableCuckoo => IteratorElem.yields_ofCursor t key (numHash * associativity) 3
    (by rw [hlimit]; rfl)
  rw [IteratorElem.find_eq, hyields, hyields]
  refine List.filter_congr fun it _ => ?_
  simp only [IteratorElem.isMatch, IteratorElem.currentIndex, h.maxIndex, h.valid, h.tag]

end View

end HashTableCuckoo

namespace FawnDSSF

section Mapping

variable {α : Type} {mapping : List (Nat × Nat)}

theorem sideBySide_map (l : List α) (f g : α → Nat) :
    sideBySide (l.map f) (l.map g) = some (l.map fun x => (f x, g x)) := by
  induction l with
  | nil => rfl
  | cons x l ih =>
    rw [List.map_cons, List.map_cons, sideBySide, ih]
    rfl

/-- The pairs come in the order of their first numbers, if no two are the same. -/
theorem sorted_mapping (hnodup : (mapping.map Prod.fst).Nodup) :
    (mapping.mergeSort pairLe).Pairwise fun a b => a.1 < b.1 := by
  have hperm := List.mergeSort_perm mapping pairLe
  have hne : (mapping.mergeSort pairLe).Pairwise fun a b => a.1 ≠ b.1 :=
    List.pairwise_map.mp ((hperm.map Prod.fst).nodup_iff.mpr hnodup)
  have hle : (mapping.mergeSort pairLe).Pairwise fun a b => pairLe a b = true := by
    refine List.pairwise_mergeSort ?_ ?_ mapping
    · intro a b c hab hbc
      simp only [pairLe, Bool.or_eq_true, Bool.and_eq_true, decide_eq_true_eq, beq_iff_eq] at *
      omega
    · intro a b
      simp only [pairLe, Bool.or_eq_true, Bool.and_eq_true, decide_eq_true_eq, beq_iff_eq]
      omega
  refine (hle.and hne).imp ?_
  intro a b ⟨hab, hdiff⟩
  simp only [pairLe, Bool.or_eq_true, Bool.and_eq_true, decide_eq_true_eq, beq_iff_eq] at hab
  omega

end Mapping

section Pass

open FileStore

variable {uninit : Nat → UInt8} {old d : FileStore} {done mapping : List (Nat × Nat)}
  {sf : FawnDSSF TagTable FileStore}

/-- The pass skips the records before the one it needs: superseded ones, and those of no key. -/
theorem dropWhile_enumerateFrom (h : Fixed old) (hend : old.endId ≤ 2 ^ 32) {a fromId : Nat}
    (hle : a ≤ fromId) (hlt : fromId < old.endId) :
    ((old.enumerateFrom uninit a).dropWhile fun r => r.1 % 2 ^ 32 < fromId) =
      old.enumerateFrom uninit fromId := by
  induction hk : fromId - a generalizing a with
  | zero =>
    obtain rfl : a = fromId := by omega
    rw [enumerateFrom_lt h hlt, List.dropWhile_cons_of_neg]
    simp only [decide_eq_true_eq]
    omega
  | succ k ih =>
    rw [enumerateFrom_lt h (by omega), List.dropWhile_cons_of_pos, ih (by omega) (by omega)]
    simp only [decide_eq_true_eq]
    omega

/-- The new file has the records that were copied, and zero bytes between them. -/
structure Copied (old d : FileStore) (done : List (Nat × Nat)) : Prop where
  fixed : Fixed d
  dataLen : d.dataLen = old.dataLen
  written : ∀ e ∈ done, e.2 < d.endId ∧ d.record e.2 = old.record e.1
  hole : ∀ id < d.endId, (∀ e ∈ done, e.2 ≠ id) → d.record id = List.replicate d.dataLen 0

theorem Copied.writeAt (h : Copied old d done) (hold : Fixed old) {fromId toId : Nat}
    (hfrom : fromId < old.endId) (hto : ∀ e ∈ done, e.2 ≠ toId) :
    Copied old (d.writeAt toId (old.record fromId)) ((fromId, toId) :: done) := by
  have hlen : (old.record fromId).length = d.dataLen := (length_record hold hfrom).trans h.dataLen.symm
  obtain ⟨hfixed, hend, hdata⟩ := writeAt_fixed h.fixed hlen toId
  refine ⟨hfixed, hdata.trans h.dataLen, ?_, ?_⟩
  · intro e he
    rcases List.mem_cons.mp he with rfl | he
    · exact ⟨by omega, record_writeAt_self h.fixed hlen toId⟩
    · obtain ⟨hlt, hrec⟩ := h.written e he
      refine ⟨by omega, ?_⟩
      rw [record_writeAt_of_ne h.fixed hlen (hto e he) hlt, hrec]
  · intro id hid hnot
    have hne : id ≠ toId := Ne.symm (hnot _ List.mem_cons_self)
    rw [hdata]
    by_cases hin : id < d.endId
    · rw [record_writeAt_of_ne h.fixed hlen hne hin]
      exact h.hole id hin fun e he => hnot e (List.mem_cons_of_mem _ he)
    · exact record_writeAt_hole h.fixed (by omega) (by omega)

/-- One forward pass over the log copies every record of the mapping. -/
theorem reorganize_spec (uninit : Nat → UInt8) (sf : FawnDSSF TagTable FileStore) (hold : Fixed old)
    (hend : old.endId ≤ 2 ^ 32) (hcopied : Copied old sf.dataStore done) {a : Nat}
    (hsorted : mapping.Pairwise fun e e' => e.1 < e'.1) (hfrom : ∀ e ∈ mapping, a ≤ e.1 ∧ e.1 < old.endId)
    (hto : ∀ e ∈ mapping, e.2 < 2 ^ 31) (hnodup : (mapping.map Prod.snd).Nodup)
    (hfresh : ∀ e ∈ mapping, ∀ e' ∈ done, e'.2 ≠ e.2) :
    ∃ sf' done', reorganize sf mapping (old.enumerateFrom uninit a) = some (.ok, sf') ∧
      sf'.keyLen = sf.keyLen ∧ sf'.dataLen = sf.dataLen ∧ sf'.hashTable = sf.hashTable ∧
      Copied old sf'.dataStore done' ∧ ∀ e, e ∈ done' ↔ e ∈ done ∨ e ∈ mapping := by
  induction mapping generalizing sf done a with
  | nil => exact ⟨sf, done, rfl, rfl, rfl, rfl, hcopied, by simp⟩
  | cons e mapping ih =>
    obtain ⟨fromId, toId⟩ := e
    obtain ⟨hle, hlt⟩ := hfrom _ List.mem_cons_self
    obtain ⟨hbefore, hsorted⟩ := List.pairwise_cons.mp hsorted
    obtain ⟨hnotin, hnodup⟩ := List.nodup_cons.mp hnodup
    have hsmall : toId < 2 ^ 31 := hto _ List.mem_cons_self
    have hoffset : asOffset (leBytes 4 toId) = toId :=
      asOffset_of_denotes (denotes_leBytes (.inl rfl) (by omega)) hsmall
    have hput : sf.dataStore.put (leBytes 4 toId) (old.record fromId) =
        some (.ok, sf.dataStore.writeAt toId (old.record fromId)) := by
      rw [FileStore.put, hoffset]
    rw [reorganize, dropWhile_enumerateFrom hold hend hle hlt, enumerateFrom_lt hold hlt]
    simp only [hput]
    rw [if_neg (by simp only at hlt; omega), if_neg (by simp), ← enumerateFrom_lt hold hlt]
    obtain ⟨sf', done', hrun, hkey, hdata, htable, hcopied', hmem⟩ :=
      ih { sf with
          dataStore := sf.dataStore.writeAt toId (old.record fromId)
          numElements := if sf.numElements < toId + 1 then toId + 1 else sf.numElements
          numActiveElements := sf.numActiveElements + 1 }
        (hcopied.writeAt hold hlt (hfresh _ List.mem_cons_self)) hsorted
        (fun e he => ⟨(hbefore e he).le, (hfrom e (List.mem_cons_of_mem _ he)).2⟩)
        (fun e he => hto e (List.mem_cons_of_mem _ he)) hnodup
        (by
          intro e he e' he'
          rcases List.mem_cons.mp he' with rfl | he'
          · intro heq
            exact hnotin (heq ▸ List.mem_map_of_mem he)
          · exact hfresh e (List.mem_cons_of_mem _ he) e' he')
    refine ⟨sf', done', hrun, hkey, hdata, htable, hcopied', fun e => ?_⟩
    rw [hmem, List.mem_cons, List.mem_cons, or_assoc, or_left_comm]

end Pass

section Convert

open HashTableCuckoo FileStore

variable {uninit : Nat → UInt8} {s : FawnDSSF Seeded FileStore} {sf n : FawnDSSF TagTable FileStore}

/-- The slots in use have different ids, each the id of a record of the log. -/
structure Convertible (s : FawnDSSF Seeded FileStore) : Prop where
  fixed : Fixed s.dataStore
  endId_le : s.dataStore.endId ≤ 2 ^ 32
  length : s.hashTable.table.slots.length = s.hashTable.table.maxIndex * associativity
  maxIndex_le : s.hashTable.table.maxIndex ≤ 2 ^ 15
  id_lt : ∀ p ∈ validSlots s.hashTable.table, s.hashTable.table.slotId p < s.dataStore.endId
  id_inj : ∀ p ∈ validSlots s.hashTable.table, ∀ q ∈ validSlots s.hashTable.table,
    s.hashTable.table.slotId p = s.hashTable.table.slotId q → p = q

/-- A store just created, of the same lengths and the same table size. -/
structure Fresh (s : FawnDSSF Seeded FileStore) (sf : FawnDSSF TagTable FileStore) : Prop where
  keyLen : sf.keyLen = s.keyLen
  dataLen : sf.dataLen = s.dataLen
  maxIndex : sf.hashTable.maxIndex = s.hashTable.table.maxIndex
  dataStore : sf.dataStore = FileStore.create s.dataStore.dataLen

/-- The converted store: the same tags, and in the slots in use the record of the old id. -/
structure Converted (s : FawnDSSF Seeded FileStore) (n : FawnDSSF TagTable FileStore) : Prop where
  keyLen : n.keyLen = s.keyLen
  maxIndex : n.hashTable.maxIndex = s.hashTable.table.maxIndex
  tags : SameTags s.hashTable.table n.hashTable.view
  fixed : Fixed n.dataStore
  dataLen : n.dataStore.dataLen = s.dataStore.dataLen
  record : ∀ p ∈ validSlots s.hashTable.table, p < n.dataStore.endId ∧
    n.dataStore.record p = s.dataStore.record (s.hashTable.table.slotId p)
  hole : ∀ p < n.dataStore.endId, p ∉ validSlots s.hashTable.table →
    n.dataStore.record p = List.replicate n.dataStore.dataLen 0

theorem validSlots_lt {t : HashTableCuckoo} {p : Nat} (h : p ∈ validSlots t) :
    p < t.maxIndex * associativity :=
  List.mem_range.mp (List.mem_filter.mp h).1

/-- Positions in the table are not read as negative ids. -/
theorem Convertible.slot_lt (h : Convertible s) {p : Nat} (hp : p ∈ validSlots s.hashTable.table) :
    p < 2 ^ 31 := by
  have hpos := validSlots_lt hp
  have hle := h.maxIndex_le
  simp only [associativity] at hpos
  omega

theorem validSlots_nodup (t : HashTableCuckoo) : (validSlots t).Nodup := List.nodup_range.filter _

theorem convertTo_spec (uninit : Nat → UInt8) (h : Convertible s) (hsf : Fresh s sf) :
    ∃ n, convertTo uninit s sf = some (.ok, n) ∧ Converted s n := by
  obtain ⟨t', hconvert, hmax, htags⟩ := convertTo_sameTags s.hashTable.table hsf.maxIndex.symm
  have hids : (HashTableCuckoo.enumerate.yields t'.view).map (·.data t'.view) =
      (validSlots s.hashTable.table).map id := by
    rw [enumerate_ids, htags.validSlots]
    refine List.map_congr_left fun p hp => ?_
    exact htags.slotId (h.length ▸ validSlots_lt hp)
  have hcreate : Copied s.dataStore (FileStore.create s.dataStore.dataLen) [] :=
    ⟨(create_log h.fixed.dataLen_ne h.fixed.dataLen_lt).toFixed, rfl, by simp, by simp [FileStore.create]⟩
  generalize hmapping : ((validSlots s.hashTable.table).map fun p =>
    (s.hashTable.table.slotId p, id p)) = mapping
  have hperm := List.mergeSort_perm mapping pairLe
  have hmem : ∀ e, e ∈ mapping.mergeSort pairLe ↔
      ∃ p ∈ validSlots s.hashTable.table, (s.hashTable.table.slotId p, p) = e := by
    intro e
    rw [hperm.mem_iff, ← hmapping, List.mem_map]
    rfl
  have hfst : (mapping.map Prod.fst).Nodup := by
    rw [← hmapping, List.map_map]
    refine List.Nodup.map_on ?_ (validSlots_nodup _)
    exact fun p hp q hq => h.id_inj p hp q hq
  have hsnd : ((mapping.mergeSort pairLe).map Prod.snd).Nodup := by
    refine (hperm.map Prod.snd).nodup_iff.mpr ?_
    rw [← hmapping, List.map_map]
    exact (validSlots_nodup _).map fun p q hpq => hpq
  obtain ⟨n, done, hrun, hkey, -, htable, hcopied, hdone⟩ := reorganize_spec uninit
    { sf with hashTable := t', numElements := 0, numActiveElements := 0 } (a := 0) h.fixed h.endId_le
      (by rw [hsf.dataStore]; exact hcreate) (sorted_mapping hfst)
    (by
      intro e he
      obtain ⟨p, hp, rfl⟩ := (hmem e).mp he
      exact ⟨Nat.zero_le _, h.id_lt p hp⟩)
    (by
      intro e he
      obtain ⟨p, hp, rfl⟩ := (hmem e).mp he
      exact h.slot_lt hp)
    hsnd (by simp)
  refine ⟨n, ?_, ?_⟩
  · rw [convertTo, if_neg (by simp [hsf.keyLen]), if_neg (by simp [hsf.dataLen]), hconvert]
    simp only [enumerate_ids s.hashTable.table, hids, sideBySide_map, hmapping, Option.bind_some]
    exact hrun
  · refine ⟨hkey.trans hsf.keyLen, htable ▸ hmax, htable ▸ htags, hcopied.fixed, hcopied.dataLen, ?_, ?_⟩
    · intro p hp
      exact hcopied.written (s.hashTable.table.slotId p, p) ((hdone _).mpr (.inr ((hmem _).mpr ⟨p, hp, rfl⟩)))
    · intro p hp hnot
      refine hcopied.hole p hp fun e he => ?_
      rcases (hdone e).mp he with hnil | he
      · exact absurd hnil List.not_mem_nil
      · obtain ⟨q, hq, rfl⟩ := (hmem e).mp he
        rintro rfl
        exact hnot hq

end Convert

section Get

open HashTableCuckoo FileStore

variable {uninit : Nat → UInt8} {s : FawnDSSF Seeded FileStore} {n : FawnDSSF TagTable FileStore}
  {key : Value} {p : Nat}

/-- Two searches whose candidates read the same stop at the same place. -/
theorem search_map {ι C D : Type} {S : DataStore D} (keyLen : Nat) (key : Value) {d d' : D}
    {its : List ι} (c : ι → C) {v v' : ι → Value}
    (h : ∀ it ∈ its, ∀ offset len, S.get d (v it) offset len = S.get d' (v' it) offset len) :
    (search S keyLen d key (its.map fun it => (c it, v it)) = none ∧
      search S keyLen d' key (its.map fun it => (c it, v' it)) = none) ∨
    ∃ it ∈ its, ∃ hdr, search S keyLen d key (its.map fun it => (c it, v it)) = some (c it, v it, hdr) ∧
      search S keyLen d' key (its.map fun it => (c it, v' it)) = some (c it, v' it, hdr) := by
  induction its with
  | nil => exact .inl ⟨rfl, rfl⟩
  | cons it its ih =>
    have hround : readMatch S keyLen d key (v it) = readMatch S keyLen d' key (v' it) := by
      simp only [readMatch, h it List.mem_cons_self]
    simp only [List.map_cons, search, ← hround]
    cases hread : readMatch S keyLen d key (v it) with
    | some hdr => exact .inr ⟨it, List.mem_cons_self, hdr, rfl, rfl⟩
    | none =>
      refine (ih fun it' hit' => h it' (List.mem_cons_of_mem it hit')).imp_right ?_
      rintro ⟨it', hit', hrest⟩
      exact ⟨it', List.mem_cons_of_mem it hit', hrest⟩

theorem readData_congr {H H' D : Type} {S : DataStore D} {s : FawnDSSF H D} {s' : FawnDSSF H' D}
    {v v' hdr : Value} (hlength : S.length s.dataStore v = S.length s'.dataStore v')
    (hget : ∀ offset len, S.get s.dataStore v offset len = S.get s'.dataStore v' offset len)
    (offset len : Nat) : readData S s key v hdr offset len = readData S s' key v' hdr offset len := by
  simp only [readData, hlength, hget]

/-- Two stores whose candidates read the same answer the same. -/
theorem get_congr {ι H H' C D : Type} {T : HashTable H C} {T' : HashTable H' C} {S : DataStore D}
    {s : FawnDSSF H D} {s' : FawnDSSF H' D} (hkeyLen : s.keyLen = s'.keyLen) {its : List ι} {c : ι → C}
    {v v' : ι → Value} (hfind : T.find s.hashTable key = some (its.map fun it => (c it, v it)))
    (hfind' : T'.find s'.hashTable key = some (its.map fun it => (c it, v' it)))
    (hlength : ∀ it ∈ its, S.length s.dataStore (v it) = S.length s'.dataStore (v' it))
    (hget : ∀ it ∈ its, ∀ offset len,
      S.get s.dataStore (v it) offset len = S.get s'.dataStore (v' it) offset len)
    (offset len : Nat) : get T S s key offset len = get T' S s' key offset len := by
  have hkeys : s.invalidKey key = s'.invalidKey key := by rw [invalidKey, invalidKey, hkeyLen]
  rw [get, get, hkeys]
  by_cases hbad : s'.invalidKey key = true
  · rw [if_pos hbad, if_pos hbad]
  · rw [if_neg hbad, if_neg hbad, hfind, hfind', Option.bind_some, Option.bind_some, hkeyLen]
    rcases search_map s'.keyLen key c hget with
      ⟨hnone, hnone'⟩ | ⟨it, hit, hdr, hsome, hsome'⟩
    · rw [hnone, hnone']
    · rw [hsome, hsome']
      exact readData_congr (hlength it hit) (hget it hit) offset len

/-- Where an iterator of `Find` stands, as the number of the slot. -/
def position (t : HashTableCuckoo) (it : IteratorElem) : Nat := it.currentIndex t * associativity + it.way

theorem position_mem {t : HashTableCuckoo} {it : IteratorElem} (hkey : key.length ≠ 0)
    (hpos : 0 < t.maxIndex) (hit : it ∈ (find key).yields t) :
    position t it ∈ validSlots t ∧ t.slotId (position t it) = it.data t := by
  obtain ⟨-, hway, hvalid⟩ := mem_find_yields hkey hit
  have hindex := currentIndex_lt hkey hpos hit
  have hdiv : position t it / associativity = it.currentIndex t := div_position hway
  have hmod : position t it % associativity = it.way := by
    rw [position, Nat.mul_add_mod', Nat.mod_eq_of_lt hway]
  refine ⟨List.mem_filter.mpr ⟨List.mem_range.mpr (position_lt hindex hway), ?_⟩, ?_⟩
  · rw [hdiv, hmod]
    exact hvalid
  · rw [slotId, hdiv, hmod]
    rfl

/-- The candidates in the two tables: the same slots, once with their ids and once with their numbers. -/
theorem candidates_convert (h : Converted s n) (hlen : Convertible s) (hkey : key.length ≠ 0)
    (hpos : 0 < s.hashTable.table.maxIndex) :
    candidates s.hashTable.table key = ((find key).yields s.hashTable.table).map (fun it =>
      ((it.currentIndex s.hashTable.table, it.way),
        leBytes 4 (s.hashTable.table.slotId (position s.hashTable.table it)))) ∧
    candidates n.hashTable.view key = ((find key).yields s.hashTable.table).map fun it =>
      ((it.currentIndex s.hashTable.table, it.way), leBytes 4 (position s.hashTable.table it)) := by
  have hindex : ∀ it : IteratorElem, it.currentIndex n.hashTable.view = it.currentIndex s.hashTable.table := by
    intro it
    simp only [IteratorElem.currentIndex, h.tags.maxIndex]
  constructor
  · refine List.map_congr_left fun it hit => ?_
    rw [(position_mem hkey hpos hit).2]
  · rw [candidates, h.tags.find_yields hkey]
    refine List.map_congr_left fun it hit => ?_
    have hlt := validSlots_lt (position_mem hkey hpos hit).1
    rw [hindex, IteratorElem.data, hindex]
    congr 2
    exact h.tags.val _ (hlen.length ▸ hlt)

/-- The record of a slot reads the same in both stores, as long as its id is not read as negative. -/
theorem get_convert_record (h : Converted s n) (hs : Convertible s)
    (hp : p ∈ validSlots s.hashTable.table) (hid : s.hashTable.table.slotId p < 2 ^ 31) (offset len : Nat) :
    (FileStore.dataStore uninit).get n.dataStore (leBytes 4 p) offset len =
      (FileStore.dataStore uninit).get s.dataStore (leBytes 4 (s.hashTable.table.slotId p)) offset len := by
  obtain ⟨hlt, hrec⟩ := h.record p hp
  have hsmall := hs.slot_lt hp
  rw [dataStore_get, FileStore.get, FileStore.get, asOffset_of_denotes
    (denotes_leBytes (.inl rfl) (by omega)) hsmall,
    asOffset_of_denotes (denotes_leBytes (.inl rfl) (by omega)) hid]
  exact getAt_congr h.fixed hs.fixed h.dataLen hlt (hs.id_lt p hp) hrec offset len

end Get

end FawnDSSF

end FawnKV.Silt
