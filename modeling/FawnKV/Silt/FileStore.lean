import FawnKV.Silt.StandardStoreInvariant

/-! `FileStore`: records one after the other in a file, by number or by position. -/
namespace FawnKV.Silt

open ByteFile

/-- `as_number<off_t>(-1)`: the bytes are a signed number of their width. -/
def asOffset (data : Value) : Int :=
  match number? data with
  | some n => if n < 2 ^ (8 * data.length - 1) then n else (n : Int) - 2 ^ (8 * data.length)
  | none => -1

/-- With `dataLen` not zero, the record with id `n` is the `n`-th one of the file; else an id is a
position, where four bytes of length come before the record. -/
structure FileStore where
  dataLen : Nat
  file : Bytes
  nextAppendId : Nat
  endId : Nat
deriving DecidableEq

namespace FileStore

def pageSize : Nat := 512
def cacheSize : Nat := 128

def create (dataLen : Nat) : FileStore := { dataLen, file := [], nextAppendId := 0, endId := 0 }

section Functions

-- what the buffer of a read holds before the read
variable (uninit : Nat → UInt8)

/-- `none` is an error of `pread`, which a negative position gives. A region that ends at zero has no
pages in the comparison of its unsigned bounds, and then counts as read from the cache. -/
def intPread (f : Bytes) (count : Nat) (offset : Int) : Option Bytes :=
  if 0 ≤ offset then some (pread f count offset.toNat)
  else
    let toDiscard := (offset % pageSize).toNat
    let reqOffset := offset - toDiscard
    let reqCount := (toDiscard + count + (pageSize - 1)) / pageSize * pageSize
    if reqCount ≤ pageSize * cacheSize ∧ ¬reqOffset % 2 ^ 64 < (reqOffset + reqCount) % 2 ^ 64 then
      some ((List.range count).map uninit)
    else none

/-- `Put` for an id that is not negative. -/
def writeAt (s : FileStore) (id : Nat) (data : Value) : FileStore :=
  if s.dataLen = 0 then
    let totalLen := data.length % 2 ^ 32 + 4
    { s with
      file := pwrite s.file (leBytes 4 data.length ++ data) id
      endId := if s.endId < id + totalLen then id + totalLen else s.endId }
  else
    { s with
      file := pwrite s.file data (id * s.dataLen)
      endId := if s.endId < id + 1 then id + 1 else s.endId }

/-- `none` is a write at a negative position, about which nothing is said here. -/
def put (s : FileStore) (key data : Value) : Option (FawnDSReturn × FileStore) :=
  match asOffset key with
  | .ofNat id => some (.ok, s.writeAt id data)
  | .negSucc 0 => some (.invalidKey, s)
  | .negSucc _ => none

/-- The number of a new record is never negative, so that its `Put` is a write. -/
def append (s : FileStore) (data : Value) : FawnDSReturn × Value × FileStore :=
  if s.dataLen ≠ 0 ∧ s.dataLen ≠ data.length then (.invalidData, [], s)
  else
    let keyVal := s.nextAppendId
    let nextAppendId := keyVal + if s.dataLen = 0 then 4 + data.length else 1
    (.ok, leBytes 8 keyVal, { s with nextAppendId }.writeAt keyVal data)

/-- `FawnDS::Delete`, which `FileStore` does not override. -/
def delete (s : FileStore) (_key : Value) : FawnDSReturn × FileStore := (.unsupported, s)

def lengthAt (s : FileStore) (id : Int) : Except FawnDSReturn Nat :=
  if s.endId ≤ id then .error .keyNotFound
  else if s.dataLen = 0 then
    match intPread uninit s.file 4 id with
    | none => .error .error
    | some buf => if buf.length ≠ 4 then .error .error else .ok (readLe buf)
  else .ok s.dataLen

def getAt (s : FileStore) (id : Int) (offset len : Nat) : Except FawnDSReturn Value :=
  if s.endId ≤ id then .error .end
  else
    match s.lengthAt uninit id with
    | .error ret => .error ret
    | .ok dataLen =>
      if dataLen < offset then .error .end
      else
        let len := if dataLen < (offset + len) % 2 ^ 64 then dataLen - offset else len
        if s.dataLen = 0 then
          match intPread uninit s.file len (id + 4 + offset) with
          | none => .error .error
          | some data => .ok data
        else
          -- the whole rest of the entry is read
          match intPread uninit s.file (s.dataLen - offset) (id * s.dataLen + offset) with
          | none => .error .error
          | some data => .ok (data.take len)

def length (s : FileStore) (key : Value) : Except FawnDSReturn Nat := s.lengthAt uninit (asOffset key)

def get (s : FileStore) (key : Value) (offset len : Nat) : Except FawnDSReturn Value :=
  s.getAt uninit (asOffset key) offset len

theorem lt_of_getAt {s : FileStore} {id : Int} {offset len : Nat} {data : Value}
    (h : s.getAt uninit id offset len = .ok data) : id < s.endId := by
  by_contra hend
  rw [getAt, if_pos (by omega)] at h
  cases h

/-- What an iterator yields from the id `nextId` on, with the ids as its keys. -/
def enumerateFrom (s : FileStore) (nextId : Nat) : List (Nat × Value) :=
  match _h : s.getAt uninit nextId 0 FawnDSSF.maxLen with
  | .ok data =>
    (nextId, data) :: enumerateFrom s (nextId + if s.dataLen = 0 then 4 + data.length else 1)
  | .error _ => []
termination_by s.endId - nextId
decreasing_by
  have := lt_of_getAt uninit (by assumption)
  split <;> omega

def enumerate (s : FileStore) : List (Nat × Value) := s.enumerateFrom uninit 0

/-- The data store of `FawnDS_SF`. -/
def dataStore : DataStore FileStore where
  append := append
  delete := delete
  length := length uninit
  get := get uninit

theorem dataStore_get : (dataStore uninit).get = get uninit := rfl

theorem dataStore_length : (dataStore uninit).length = length uninit := rfl

end Functions

section Fixed

variable {uninit : Nat → UInt8} {s : FileStore} {id id' : Nat} {data : Value}

/-- The file of a store of fixed-length records: as many bytes as the ids need. -/
structure Fixed (s : FileStore) : Prop where
  dataLen_ne : s.dataLen ≠ 0
  dataLen_lt : s.dataLen < 2 ^ 64
  length : s.file.length = s.endId * s.dataLen

def record (s : FileStore) (id : Nat) : Value := pread s.file s.dataLen (id * s.dataLen)

theorem region_le {a b : Nat} (h : a < b) (n : Nat) : a * n + n ≤ b * n :=
  Nat.succ_mul a n ▸ Nat.mul_le_mul_right n h

theorem length_record (h : Fixed s) (hid : id < s.endId) : (s.record id).length = s.dataLen := by
  have hend := region_le hid s.dataLen
  have hlen := h.length
  rw [record, pread, List.length_take, List.length_drop]
  omega

theorem pread_record (offset : Nat) :
    pread s.file (s.dataLen - offset) (id * s.dataLen + offset) = (s.record id).drop offset := by
  rw [record, pread, pread, List.drop_take, List.drop_drop]

theorem lengthAt_fixed (h : Fixed s) (hid : id < s.endId) : s.lengthAt uninit id = .ok s.dataLen := by
  rw [lengthAt, if_neg (by omega), if_neg h.dataLen_ne]

theorem getAt_fixed (h : Fixed s) (hid : id < s.endId) {offset len : Nat} (hoff : offset ≤ s.dataLen) :
    s.getAt uninit id offset len = .ok (((s.record id).drop offset).take
      (if s.dataLen < (offset + len) % 2 ^ 64 then s.dataLen - offset else len)) := by
  have hread : intPread uninit s.file (s.dataLen - offset) ((id : Int) * s.dataLen + offset) =
      some ((s.record id).drop offset) := by
    have hcast : (id : Int) * s.dataLen + offset = ((id * s.dataLen + offset : Nat) : Int) := by
      push_cast
      rfl
    rw [hcast, intPread, if_pos (Int.natCast_nonneg _), Int.toNat_natCast, pread_record]
  rw [getAt, if_neg (by omega), lengthAt_fixed h hid]
  simp only [if_neg (Nat.not_lt.mpr hoff), if_neg h.dataLen_ne, hread]

/-- A part of a record. -/
theorem getAt_part (h : Fixed s) (hid : id < s.endId) {offset len : Nat}
    (hpart : offset + len ≤ s.dataLen) :
    s.getAt uninit id offset len = .ok (((s.record id).drop offset).take len) := by
  have hlt := h.dataLen_lt
  rw [getAt_fixed h hid (by omega), if_neg]
  rw [Nat.mod_eq_of_lt (by omega)]
  omega

/-- A whole record, as an iterator reads it. -/
theorem getAt_whole (uninit : Nat → UInt8) (h : Fixed s) (hid : id < s.endId) :
    s.getAt uninit id 0 FawnDSSF.maxLen = .ok (s.record id) := by
  have hlen := length_record h hid
  have hlt := h.dataLen_lt
  rw [getAt_fixed h hid (Nat.zero_le _), List.drop_zero, List.take_of_length_le]
  by_cases hbig : s.dataLen < (0 + FawnDSSF.maxLen) % 2 ^ 64
  · rw [if_pos hbig]
    omega
  · rw [if_neg hbig, FawnDSSF.maxLen]
    omega

theorem writeAt_fixed (h : Fixed s) (hdata : data.length = s.dataLen) (id : Nat) :
    Fixed (s.writeAt id data) ∧ (s.writeAt id data).endId = max s.endId (id + 1) ∧
      (s.writeAt id data).dataLen = s.dataLen := by
  have hend : (s.writeAt id data).endId = max s.endId (id + 1) := by
    rw [writeAt, if_neg h.dataLen_ne]
    show (if s.endId < id + 1 then id + 1 else s.endId) = _
    split <;> omega
  have hlen : (s.writeAt id data).dataLen = s.dataLen := by
    rw [writeAt, if_neg h.dataLen_ne]
  refine ⟨⟨hlen ▸ h.dataLen_ne, hlen ▸ h.dataLen_lt, ?_⟩, hend, hlen⟩
  rw [hend, hlen]
  have hfile : (s.writeAt id data).file = pwrite s.file data (id * s.dataLen) := by
    rw [writeAt, if_neg h.dataLen_ne]
  rw [hfile, length_pwrite, h.length, hdata, ← Nat.succ_mul]
  exact Nat.mul_max_mul_right ..

theorem record_writeAt (h : Fixed s) (id id' : Nat) :
    (s.writeAt id data).record id' = pread (pwrite s.file data (id * s.dataLen)) s.dataLen
      (id' * s.dataLen) := by
  rw [record, writeAt, if_neg h.dataLen_ne]

theorem record_writeAt_self (h : Fixed s) (hdata : data.length = s.dataLen) (id : Nat) :
    (s.writeAt id data).record id = data := by
  rw [record_writeAt h, ← hdata]
  exact pread_pwrite_self

theorem record_writeAt_of_ne (h : Fixed s) (hdata : data.length = s.dataLen) (hne : id' ≠ id)
    (hid : id' < s.endId) : (s.writeAt id data).record id' = s.record id' := by
  rw [record_writeAt h]
  refine pread_pwrite_of_disjoint ?_ ?_
  · rw [h.length]
    exact region_le hid s.dataLen
  · rcases Nat.lt_or_gt_of_ne hne with hlt | hgt
    · exact .inl (region_le hlt s.dataLen)
    · rw [hdata]
      exact .inr (region_le hgt s.dataLen)

/-- A write past the end leaves records of zero bytes before it. -/
theorem record_writeAt_hole (h : Fixed s) (hid : s.endId ≤ id') (hlt : id' < id) :
    (s.writeAt id data).record id' = List.replicate s.dataLen 0 := by
  rw [record_writeAt h]
  refine List.ext_getElem? fun i => ?_
  have hbefore := region_le hlt s.dataLen
  have hafter := Nat.mul_le_mul_right s.dataLen hid
  have hlen := h.length
  rw [getElem?_pread, getElem?_pwrite, List.getElem?_replicate]
  by_cases hi : i < s.dataLen
  · rw [if_pos hi, if_pos hi, if_pos (by omega), if_neg (by omega)]
  · rw [if_neg hi, if_neg hi]

/-- Reads depend on the record alone. -/
theorem getAt_congr {s' : FileStore} (h : Fixed s) (h' : Fixed s') (hlen : s.dataLen = s'.dataLen)
    (hid : id < s.endId) (hid' : id' < s'.endId) (hrec : s.record id = s'.record id') (offset len : Nat) :
    s.getAt uninit id offset len = s'.getAt uninit id' offset len := by
  by_cases hoff : offset ≤ s.dataLen
  · rw [getAt_fixed h hid hoff, getAt_fixed h' hid' (hlen ▸ hoff), hrec, hlen]
  · have hend : ∀ {t : FileStore} {i : Nat}, Fixed t → i < t.endId → t.dataLen < offset →
        t.getAt uninit i offset len = .error .end := by
      intro t i ht hi hlt
      rw [getAt, if_neg (by omega), lengthAt_fixed ht hi]
      exact if_pos hlt
    rw [hend h hid (by omega), hend h' hid' (by omega)]

theorem enumerateFrom_lt (h : Fixed s) (hid : id < s.endId) :
    s.enumerateFrom uninit id = (id, s.record id) :: s.enumerateFrom uninit (id + 1) := by
  have hread := getAt_whole uninit h hid
  rw [enumerateFrom]
  split
  · rename_i data hdata
    rw [hread] at hdata
    cases hdata
    rw [if_neg h.dataLen_ne]
  · rename_i herror
    rw [hread] at herror
    cases herror

theorem enumerateFrom_end (hid : s.endId ≤ id) : s.enumerateFrom uninit id = [] := by
  rw [enumerateFrom]
  split
  · rename_i data hdata
    have := lt_of_getAt uninit hdata
    omega
  · rfl

/-- `Enumerate` yields the records in the order of their ids. -/
theorem enumerate_fixed (h : Fixed s) :
    s.enumerate uninit = (List.range s.endId).map fun id => (id, s.record id) := by
  have hfrom : ∀ count id, id + count = s.endId → s.enumerateFrom uninit id =
      (List.range' id count).map fun id => (id, s.record id) := by
    intro count
    induction count with
    | zero =>
      intro id hid
      exact enumerateFrom_end (by omega)
    | succ count ih =>
      intro id hid
      rw [enumerateFrom_lt h (by omega), ih (id + 1) (by omega), List.range'_succ, List.map_cons]
  rw [enumerate, hfrom s.endId 0 (Nat.zero_add _), List.range_eq_range']

end Fixed

section Contract

variable {uninit : Nat → UInt8} {s : FileStore} {id : Nat} {v data : Value}

theorem asOffset_of_denotes (hv : Denotes v id) (hid : id < 2 ^ 31) : asOffset v = id := by
  rw [asOffset, hv.1]
  show (if id < _ then (id : Int) else _) = _
  rw [if_pos]
  rcases hv.2 with hlen | hlen <;> rw [hlen] <;> omega

/-- The log that `Append` alone has written. -/
structure Log (s : FileStore) : Prop extends Fixed s where
  nextAppendId : s.nextAppendId = s.endId

theorem append_log (h : Log s) (hdata : data.length = s.dataLen) :
    ∃ s', s.append data = (.ok, leBytes 8 s.endId, s') ∧ Log s' ∧ s'.endId = s.endId + 1 ∧
      s'.dataLen = s.dataLen ∧ s'.record s.endId = data ∧
      ∀ id < s.endId, s'.record id = s.record id := by
  have hfixed : Fixed { s with nextAppendId := s.nextAppendId + 1 } :=
    ⟨h.dataLen_ne, h.dataLen_lt, h.length⟩
  obtain ⟨hfixed', hend, hlen⟩ := writeAt_fixed hfixed hdata s.nextAppendId
  have hself := record_writeAt_self hfixed hdata s.nextAppendId
  have hother := fun id (hid : id < s.endId) =>
    record_writeAt_of_ne hfixed hdata (show id ≠ s.nextAppendId by rw [h.nextAppendId]; omega) hid
  have hnext : (writeAt { s with nextAppendId := s.nextAppendId + 1 } s.nextAppendId data).nextAppendId =
      s.nextAppendId + 1 := by
    rw [writeAt, if_neg h.dataLen_ne]
  rw [h.nextAppendId] at hfixed' hend hlen hself hother hnext
  have hend' : (writeAt { s with nextAppendId := s.endId + 1 } s.endId data).endId = s.endId + 1 := by
    rw [hend]
    exact max_eq_right (Nat.le_succ _)
  refine ⟨_, ?_, ⟨hfixed', hnext.trans hend'.symm⟩, hend', hlen, hself, hother⟩
  rw [append, if_neg (by simp [hdata]), if_neg h.dataLen_ne, h.nextAppendId]

theorem nextAppendId_append (s : FileStore) (data : Value) :
    s.nextAppendId ≤ (s.append data).2.2.nextAppendId := by
  have hwrite : ∀ (s : FileStore) id, (s.writeAt id data).nextAppendId = s.nextAppendId := by
    intro s id
    rw [writeAt]
    split <;> rfl
  rw [append]
  split
  · exact Nat.le_refl _
  · rw [hwrite]
    exact Nat.le_add_right _ _

theorem append_invalid (h : Log s) (hdata : data.length ≠ s.dataLen) :
    s.append data = (.invalidData, [], s) := by
  rw [append, if_pos ⟨h.dataLen_ne, hdata.symm⟩]

/-- A file store of fixed-length records is a data store that `FawnDS_SF` can use. -/
def contract (uninit : Nat → UInt8) : (dataStore uninit).Contract where
  Good s := Log s ∧ s.endId ≤ 2 ^ 31
  Holds s id r := Fixed s ∧ id < s.endId ∧ s.record id = r
  unique h h' := h.2.2.symm.trans h'.2.2
  length_lt h := by
    rw [← h.2.2, length_record h.1 h.2.1]
    exact h.1.dataLen_lt
  append := by
    rintro s buf ret v s' ⟨hlog, hle⟩ happend hnext
    by_cases hdata : buf.length = s.dataLen
    · obtain ⟨t, hok, hlog', hend, -, hself, hother⟩ := append_log hlog hdata
      obtain ⟨rfl, rfl, rfl⟩ : ret = .ok ∧ v = leBytes 8 s.endId ∧ s' = t := by
        simpa using happend.symm.trans hok
      have hv : Denotes (leBytes 8 s.endId) s.endId := denotes_leBytes (.inr rfl) (by omega)
      have hid := hnext rfl _ hv
      refine ⟨⟨hlog', by omega⟩, ?_, by decide, fun _ => ⟨s.endId, hv, ?_, hlog'.toFixed, by omega, hself⟩⟩
      · rintro id r ⟨-, hlt, hr⟩
        exact ⟨hlog'.toFixed, by omega, (hother id hlt).trans hr⟩
      · rintro r ⟨-, hlt, -⟩
        exact absurd hlt (Nat.lt_irrefl _)
    · obtain ⟨rfl, rfl, rfl⟩ : ret = .invalidData ∧ v = [] ∧ s' = s := by
        simpa using happend.symm.trans (append_invalid hlog hdata)
      exact ⟨⟨hlog, hle⟩, fun _ _ h => h, by decide, by simp⟩
  delete h _ := ⟨h, fun _ _ => Iff.rfl⟩
  length := by
    rintro s id r v ⟨hfixed, hlt, rfl⟩ hv hid
    show s.lengthAt uninit (asOffset v) = _
    rw [asOffset_of_denotes hv hid, lengthAt_fixed hfixed hlt, length_record hfixed hlt]
  get := by
    rintro s id r v offset len ⟨hfixed, hlt, rfl⟩ hv hid hpart
    show s.getAt uninit (asOffset v) offset len = _
    rw [length_record hfixed hlt] at hpart
    rw [asOffset_of_denotes hv hid, getAt_part hfixed hlt hpart]

/-- The id of a record that a `FawnDS_SF` writes is the one `Append` counts. -/
theorem writeEntry_eq {H : Type} (sf : FawnDSSF H FileStore) (padding : Nat) (key data : Value)
    (isDelete newObj : Bool) :
    FawnDSSF.writeEntry (dataStore uninit) sf padding key data isDelete newObj =
      sf.dataStore.append (FawnDSSF.entry sf.keyLen padding key data isDelete) := by
  cases newObj <;> rfl

/-- What a call of a `FawnDS_SF` does to its lengths and its log: nothing, and at most one `Append`. -/
theorem step_store {H C : Type} {T : HashTable H C} {o o' : FawnDSSF.Observed H FileStore}
    {call : FawnDSSF.Call} (hstep : FawnDSSF.step T (dataStore uninit) o call = some o') :
    o'.store.keyLen = o.store.keyLen ∧ o'.store.dataLen = o.store.dataLen ∧
      (o'.store.dataStore = o.store.dataStore ∨
        ∃ data, o'.store.dataStore = (o.store.dataStore.append data).2.2) := by
  have hinsert : ∀ {s s' : FawnDSSF H FileStore} {padding key data isDelete ret},
      FawnDSSF.insertEntry T (dataStore uninit) s padding key data isDelete = some (ret, s') →
      s'.keyLen = s.keyLen ∧ s'.dataLen = s.dataLen ∧ (s'.dataStore = s.dataStore ∨
        ∃ data, s'.dataStore = (s.dataStore.append data).2.2) := by
    intro s s' padding key data isDelete ret h
    obtain ⟨hkeyLen, hdataLen, ⟨newObj, hstore⟩, -⟩ := FawnDSSF.insertEntry_frame h
    rw [writeEntry_eq] at hstore
    exact ⟨hkeyLen, hdataLen, .inr ⟨_, hstore⟩⟩
  rcases call with ⟨op, padding⟩
  cases op with
  | put key data =>
    obtain ⟨⟨ret, s'⟩, hput, rfl⟩ := Option.map_eq_some_iff.mp hstep
    simp only [FawnDSSF.put] at hput
    split at hput
    · cases hput
      exact ⟨rfl, rfl, .inl rfl⟩
    · split at hput
      · cases hput
        exact ⟨rfl, rfl, .inl rfl⟩
      · exact hinsert hput
  | delete key =>
    obtain ⟨⟨ret, s'⟩, hdelete, rfl⟩ := Option.map_eq_some_iff.mp hstep
    simp only [FawnDSSF.delete] at hdelete
    split at hdelete
    · cases hdelete
      exact ⟨rfl, rfl, .inl rfl⟩
    · exact hinsert hdelete
  | get key =>
    obtain ⟨_, -, rfl⟩ := Option.map_eq_some_iff.mp hstep
    exact ⟨rfl, rfl, .inl rfl⟩

/-- No call takes an id back. -/
theorem step_nextAppendId {H C : Type} {T : HashTable H C} {o o' : FawnDSSF.Observed H FileStore}
    {call : FawnDSSF.Call} (hstep : FawnDSSF.step T (dataStore uninit) o call = some o') :
    o.store.dataStore.nextAppendId ≤ o'.store.dataStore.nextAppendId := by
  obtain ⟨-, -, hsame | ⟨data, happend⟩⟩ := step_store hstep
  · rw [hsame]
  · rw [happend]
    exact nextAppendId_append _ _

theorem idBelow_of_lt {H : Type} {sf : FawnDSSF H FileStore} (h : sf.dataStore.nextAppendId < 2 ^ 31)
    (padding : Nat) (key data : Value) (isDelete : Bool) :
    FawnDSSF.IdBelow (dataStore uninit) sf padding key data isDelete := by
  intro newObj v d id hwrite hv
  rw [writeEntry_eq, append] at hwrite
  by_cases hdata : sf.dataStore.dataLen ≠ 0 ∧
      sf.dataStore.dataLen ≠ (FawnDSSF.entry sf.keyLen padding key data isDelete).length
  · rw [if_pos hdata] at hwrite
    cases hwrite
  · rw [if_neg hdata] at hwrite
    obtain ⟨-, rfl, -⟩ := Prod.mk.injEq .. ▸ hwrite
    have hnext := denotes_leBytes (.inr rfl) (show sf.dataStore.nextAppendId < 256 ^ 8 by omega)
    rw [hv.unique hnext]
    exact h

theorem create_log {dataLen : Nat} (hne : dataLen ≠ 0) (hlt : dataLen < 2 ^ 64) : Log (create dataLen) :=
  ⟨⟨hne, hlt, by simp [create]⟩, rfl⟩

end Contract

end FileStore

end FawnKV.Silt
