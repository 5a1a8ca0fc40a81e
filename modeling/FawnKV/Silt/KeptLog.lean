import FawnKV.Silt.CombiRefinement
import FawnKV.Silt.Deletes

/-! The log of a `FawnDS_SF`, which is what a conversion that keeps the data store lists. -/
namespace FawnKV.Silt

open ByteFile Transition

/-- `FileStore::ConvertTo`: the file of the destination is a link to the file. -/
def FileStore.convertTo (s fileStore : FileStore) : FawnDSReturn × FileStore :=
  if s.dataLen ≠ fileStore.dataLen then (.error, fileStore)
  else (.ok, { fileStore with file := s.file, nextAppendId := s.nextAppendId, endId := s.endId })

/-- `HashTableCuckoo::ConvertTo`, to a table with offsets. -/
def HashTableCuckoo.copyTo (t newCuckoo : HashTableCuckoo) : FawnDSReturn × HashTableCuckoo :=
  if t.maxIndex ≠ newCuckoo.maxIndex then (.error, newCuckoo)
  else (.ok, { newCuckoo with slots := t.slots, currentEntries := t.currentEntries })

namespace FileStore

variable {uninit : Nat → UInt8} {s : FileStore}

/-- An iterator that stands at the end of some records yields the others. -/
theorem Records.enumerateFrom (uninit : Nat → UInt8) {pre post : List Value} (h : Records s (pre ++ post)) :
    (s.enumerateFrom uninit (idAfter s.dataLen pre)).map Prod.snd = post := by
  induction post generalizing pre with
  | nil =>
    rw [enumerateFrom_end, List.map_nil]
    rw [h.endId, List.append_nil]
  | cons r post ih =>
    have hread : s.getAt uninit (idAfter s.dataLen pre) 0 FawnDSSF.maxLen = .ok r := h.getAt_whole
    have hnext := idAfter_append pre h.fits_mem
    have hrest : (s.enumerateFrom uninit (idAfter s.dataLen (pre ++ [r]))).map Prod.snd = post :=
      ih (by rw [List.append_assoc]; exact h)
    rw [FileStore.enumerateFrom]
    split
    · rename_i data hdata
      rw [hread] at hdata
      cases hdata
      rw [hnext] at hrest
      rw [List.map_cons, hrest]
    · rename_i herror
      rw [hread] at herror
      cases herror

theorem Records.enumerate (uninit : Nat → UInt8) {recs : List Value} (h : Records s recs) :
    (s.enumerate uninit).map Prod.snd = recs := by
  have hzero : idAfter s.dataLen [] = 0 := by
    rw [idAfter]
    split <;> rfl
  have hall := Records.enumerateFrom uninit (show Records s ([] ++ recs) from h)
  rw [hzero] at hall
  exact hall

end FileStore

namespace FawnDSSF

open HashTableCuckoo (Seeded)
open FawnDSCombi (recordsEntry)

/-- `FawnDS_SF::ConvertTo` with `keep-datastore-on-conversion`, to a table with offsets. -/
def convertKeep (s sf : FawnDSSF Seeded FileStore) : FawnDSReturn × FawnDSSF Seeded FileStore :=
  if s.keyLen ≠ sf.keyLen then (.error, sf)
  else if s.dataLen ≠ sf.dataLen then (.error, sf)
  else
    let (retTable, table) := s.hashTable.table.copyTo sf.hashTable.table
    let sf := { sf with hashTable := { sf.hashTable with table } }
    if retTable ≠ .ok then (.error, sf)
    else
      let (retStore, dataStore) := s.dataStore.convertTo sf.dataStore
      let sf := { sf with dataStore }
      if retStore ≠ .ok then (.error, sf)
      else (.ok, { sf with numElements := s.numElements, numActiveElements := s.numActiveElements })

section Log

variable {H C : Type} {T : HashTable H C} {uninit : Nat → UInt8} {s s' : FawnDSSF H FileStore} {m : TombMap}
  {c : Lengths} {key data : Value} {padding : Nat} {isDelete : Bool} {ret : FawnDSReturn}

/-- What an iterator of `Enumerate` yields, as a merge reads it. -/
def records (uninit : Nat → UInt8) (s : FawnDSSF H FileStore) : Option (List Record) :=
  (increment s.keyLen ((s.dataStore.enumerate uninit).map Prod.snd)).map fun l =>
    l.map fun e => ⟨e.2.1, e.1 = .keyDeleted, e.2.2⟩

/-- The bytes of a record, and what the stack held when they were made. -/
def logEntry (keyLen : Nat) (e : Nat × Record) : Value := entry keyLen e.1 e.2.key e.2.data e.2.deleted

theorem increment_logEntry {keyLen : Nat} (hkeyLen : keyLen ≠ 0) {log : List (Nat × Record)}
    (hkeys : ∀ e ∈ log, e.2.key.length = keyLen) :
    increment keyLen (log.map (logEntry keyLen)) =
      some (log.map fun e => (if e.2.deleted then .keyDeleted else .ok, e.2.key, e.2.data)) := by
  induction log with
  | nil => rfl
  | cons e log ih =>
    have hkey := hkeys e List.mem_cons_self
    have htype : headerType (logEntry keyLen e) = if e.2.deleted then 2 else 1 := headerType_entry
    have hparse : ((logEntry keyLen e).drop dhSize).take keyLen = e.2.key := by
      rw [← hkey]
      exact entry_key
    have hdata : (logEntry keyLen e).drop (dhSize + keyLen) = e.2.data := by
      rw [← hkey]
      exact entry_data
    rw [List.map_cons, increment, ih fun e' he' => hkeys e' (List.mem_cons_of_mem e he'), htype]
    cases hdeleted : e.2.deleted with
    | true => simp [hdeleted, hkeyLen, hparse, hdata]
    | false => simp [hdeleted, hkeyLen, hparse, hdata]

/-- What is in the log of a store with this map: well-formed records, of which the last one of a key
with an entry is that entry. -/
structure Logged (c : Lengths) (s : FawnDSSF H FileStore) (m : TombMap) (log : List (Nat × Record)) : Prop where
  records : FileStore.Records s.dataStore (log.map (logEntry c.keyLen))
  wellFormed : ∀ e ∈ log, MergeTask.WellFormed c e.2
  found : ∀ k, m k ≠ none → recordsEntry (log.map Prod.snd) k = m k

theorem Logged.records_eq (uninit : Nat → UInt8) {log : List (Nat × Record)} (h : Logged c s m log)
    (hlen : s.keyLen = c.keyLen)
    (hkeyLen : c.keyLen ≠ 0) : FawnDSSF.records uninit s = some (log.map Prod.snd) := by
  have hkeys : ∀ e ∈ log, e.2.key.length = c.keyLen := fun e he => (h.wellFormed e he).key
  rw [FawnDSSF.records, h.records.enumerate uninit, hlen, increment_logEntry hkeyLen hkeys, Option.map_some,
    List.map_map]
  refine congrArg some (List.map_congr_left fun e _ => ?_)
  cases hdeleted : e.2.deleted with
  | true => simp [← hdeleted]
  | false => simp [← hdeleted]

/-- What `InsertEntry` does to the log. The record of a new key stays in it when the table does not
take its id. -/
inductive InsertOutcome (T : HashTable H C) (uninit : Nat → UInt8) (s : FawnDSSF H FileStore) (padding : Nat)
    (key data : Value) (isDelete : Bool) (ret : FawnDSReturn) (s' : FawnDSSF H FileStore) : Prop where
  | refused (hs : s' = s) (hret : ret = .invalidData)
  | inserted (hlog : s.dataStore.dataLen = 0 ∨ dhSize + key.length + data.length = s.dataStore.dataLen)
      (hstore : s'.dataStore = (s.dataStore.append (entry s.keyLen padding key data isDelete)).2.2)
      (hret : ret = .ok ∨ isDelete = true ∧ ret = .keyNotFound)
  | orphaned (hlog : s.dataStore.dataLen = 0 ∨ dhSize + key.length + data.length = s.dataStore.dataLen)
      (hstore : s'.dataStore = (s.dataStore.append (entry s.keyLen padding key data isDelete)).2.2)
      (hret : ret = .insufficientSpace)
      (hnew : get T (FileStore.dataStore uninit) s key 0 maxLen = some (.error .keyNotFound))

/-- The table takes every id, but not always for a new key. -/
theorem updateTable_code {s : FawnDSSF Seeded FileStore} {L : Set (Value × Nat)}
    (hL : HashTableCuckoo.Holds s.hashTable L) (hkey : 4 ≤ key.length) {hashIt : Option (Nat × Nat)} {id : Nat}
    (hid : id < 2 ^ 31) {h : Seeded}
    (hupdate : updateTable HashTableCuckoo.hashTable s hashIt key (leBytes 8 id) = some (ret, h)) :
    ret = .ok ∨ ret = .insufficientSpace ∧ hashIt = none := by
  obtain ⟨live, hinv, -, -⟩ := hL
  cases hashIt with
  | none =>
    obtain ⟨r, t, hput, hcode⟩ :=
        HashTableCuckoo.put_adds (s.hashTable.draws 0) hinv.wellformed hkey (leBytes 8 id)
    simp only [updateTable, HashTableCuckoo.hashTable] at hupdate
    split at hupdate
    · cases hupdate
    · simp only [hput, Option.map_some, Option.some.injEq, Prod.mk.injEq] at hupdate
      obtain ⟨rfl, -⟩ := hupdate
      rcases hcode with ⟨hok, -⟩ | ⟨hfull, -⟩
      · exact .inl hok
      · exact .inr ⟨hfull, rfl⟩
  | some cand =>
    have hv : Denotes (leBytes 8 id) id := denotes_leBytes (.inr rfl) (by omega)
    have hnumber := (HashTableCuckoo.asNumber32_eq (Nat.lt_trans hid (by decide)) hv.1 (2 ^ 32 - 1)).1
    simp only [updateTable, HashTableCuckoo.hashTable, HashTableCuckoo.replace, hnumber] at hupdate
    rw [if_neg (by omega)] at hupdate
    cases hupdate
    exact .inl rfl

theorem insertEntry_outcome {s s' : FawnDSSF Seeded FileStore} {L : Set (Value × Nat)}
    (hL : HashTableCuckoo.Holds s.hashTable L) (hkey : 4 ≤ key.length) (hid : s.dataStore.nextAppendId < 2 ^ 31)
    (hvalid : s.invalidKey key = false)
    (h : insertEntry HashTableCuckoo.hashTable (FileStore.dataStore uninit) s padding key data isDelete =
      some (ret, s')) :
    InsertOutcome HashTableCuckoo.hashTable uninit s padding key data isDelete ret s' := by
  have hbind := h
  rw [insertEntry, Option.bind_eq_some_iff] at hbind
  obtain ⟨l, hfind, hrest⟩ := hbind
  by_cases hlog : s.dataStore.dataLen = 0 ∨ dhSize + key.length + data.length = s.dataStore.dataLen
  · simp only [FileStore.writeEntry_eq] at hrest
    rw [FileStore.append_ok (by rw [length_entry]; exact hlog)] at hrest
    simp only [ne_eq, not_true_eq_false, if_false] at hrest
    split at hrest
    · cases hrest
    obtain ⟨⟨r, t⟩, hupdate, hr⟩ := Option.map_eq_some_iff.mp hrest
    simp only at hr
    split at hr
    · rename_i hne
      cases hr
      obtain ⟨hfull, hnone⟩ := (updateTable_code hL hkey hid hupdate).resolve_left hne
      refine .orphaned hlog rfl hfull ?_
      rw [get, hvalid, if_neg Bool.false_ne_true, hfind, Option.bind_some, Option.map_eq_none_iff.mp hnone]
    · obtain ⟨rfl, rfl⟩ := Prod.mk.inj hr
      refine .inserted hlog rfl ?_
      cases isDelete <;> cases (search (FileStore.dataStore uninit) s.keyLen s.dataStore key l).isNone <;> simp
  · rw [insertEntry_invalidData hlog hfind] at h
    cases h
    exact .refused rfl rfl

theorem recordsEntry_concat (recs : List Record) (r : Record) (k : Value) :
    recordsEntry (recs ++ [r]) k =
      if k = r.key then some (if r.deleted then none else some r.data) else recordsEntry recs k := by
  rw [FawnDSCombi.recordsEntry_append]
  by_cases hk : k = r.key
  · simp [recordsEntry, MergeTask.lastRecord, hk]
  · simp [recordsEntry, MergeTask.lastRecord, hk, Ne.symm hk]

/-- The log grows by the record. -/
theorem logged_insertEntry {log : List (Nat × Record)} (h : Logged c s m log) (hlen : s.keyLen = c.keyLen)
    (hwf : MergeTask.WellFormed c ⟨key, isDelete, data⟩)
    (hshort : s.dataStore.dataLen = 0 → dhSize + key.length + data.length < 2 ^ 32)
    (houtcome : InsertOutcome T uninit s padding key data isDelete ret s')
    (hget : get T (FileStore.dataStore uninit) s key 0 maxLen = some (answer (m key)))
    {m' : TombMap} (hm : ret = .ok ∨ isDelete = true ∧ ret = .keyNotFound →
      m' = Function.update m key (some (if isDelete then none else some data)))
    (hfail : ret = .invalidData ∨ ret = .insufficientSpace → m' = m) : ∃ log', Logged c s' m' log' := by
  have hrecord : (s.dataStore.dataLen = 0 ∨ dhSize + key.length + data.length = s.dataStore.dataLen) →
      FileStore.Records (s.dataStore.append (entry s.keyLen padding key data isDelete)).2.2
        ((log ++ [(padding, Record.mk key isDelete data)]).map (logEntry c.keyLen)) := by
    intro hlog
    have hfits : FileStore.Fits s.dataStore.dataLen (entry s.keyLen padding key data isDelete) := by
      rw [FileStore.Fits, length_entry]
      split
      · exact hshort ‹_›
      · exact hlog.resolve_left ‹_›
    have happend := (h.records.append hfits).1
    rw [List.map_append]
    rw [hlen] at happend ⊢
    exact happend
  have hwf' : ∀ e ∈ log ++ [(padding, Record.mk key isDelete data)], MergeTask.WellFormed c e.2 := by
    intro e he
    rcases List.mem_append.mp he with he | he
    · exact h.wellFormed e he
    · rw [List.mem_singleton.mp he]
      exact hwf
  have hlast : ∀ k, recordsEntry ((log ++ [(padding, Record.mk key isDelete data)]).map Prod.snd) k =
      if k = key then some (if isDelete then none else some data) else recordsEntry (log.map Prod.snd) k := by
    intro k
    rw [List.map_append, List.map_singleton, recordsEntry_concat]
  cases houtcome with
  | refused hs hret =>
    rw [hs, hfail (.inl hret)]
    exact ⟨log, h⟩
  | inserted hlog hstore hret =>
    refine ⟨_, hstore ▸ hrecord hlog, hwf', fun k hk => ?_⟩
    rw [hm hret, Function.update_apply] at hk ⊢
    rw [hlast]
    split
    · rfl
    · rename_i hne
      rw [if_neg hne] at hk
      exact h.found k hk
  | orphaned hlog hstore hret hnew =>
    rw [hfail (.inr hret)]
    refine ⟨_, hstore ▸ hrecord hlog, hwf', fun k hk => ?_⟩
    -- the key of the record has no entry
    have hnone : m key = none := by
      rw [hget] at hnew
      cases hentry : m key with
      | none => rfl
      | some e => cases e <;> simp [hentry, answer] at hnew
    have hne : k ≠ key := by
      rintro rfl
      exact hk hnone
    rw [hlast, if_neg hne]
    exact h.found k hk

theorem logged_start (c : Lengths) {h : H} {d : FileStore} (hd : FileStore.Records d []) :
    Logged c (start c.keyLen c.dataLen h d).store (start c.keyLen c.dataLen h d).map [] :=
  ⟨hd, by simp, fun _ hne => absurd rfl hne⟩

end Log

section Front

variable {uninit : Nat → UInt8} {c : Lengths} {t₀ : HashTableCuckoo} {f f' : FawnDSSF Seeded FileStore}
  {m : TombMap} {key data : Value} {padding : Nat} {isDelete : Bool} {ret : FawnDSReturn}

/-- What holds of a front store that client calls have written. -/
structure FrontInv (uninit : Nat → UInt8) (c : Lengths) (t₀ : HashTableCuckoo) (f : FawnDSSF Seeded FileStore)
    (m : TombMap) : Prop where
  reached : Reached HashTableCuckoo.contract uninit c.keyLen c.dataLen ⟨f, m⟩
  dataLen : f.dataLen = c.dataLen
  maxIndex : f.hashTable.table.maxIndex = t₀.maxIndex
  noTombstone : c.dataLen ≠ 0 → ∀ key, m key ≠ some none
  logged : ∃ log, Logged c f m log

theorem FrontInv.keyLen (h : FrontInv uninit c t₀ f m) : f.keyLen = c.keyLen := h.reached.keyLen_eq

theorem FrontInv.holds (h : FrontInv uninit c t₀ f m) : ∃ L, HashTableCuckoo.Holds f.hashTable L := by
  by_cases hzero : storeLen c.keyLen c.dataLen = 0
  · obtain ⟨-, L, hrep⟩ := h.reached.anyLength hzero
    exact ⟨L, hrep.table⟩
  · obtain ⟨-, L, hrep⟩ := h.reached.fixed hzero
    exact ⟨L, hrep.table⟩

/-- Records of any length have no data here. -/
theorem dataLen_of_storeLen (hkeyLen : c.keyLen ≠ 0) (hzero : storeLen c.keyLen c.dataLen = 0) :
    c.dataLen = 0 :=
  (storeLen_eq_zero.mp hzero).resolve_left hkeyLen

theorem frontInv_create (uninit : Nat → UInt8) (c : Lengths) (draws : Nat → Nat → Nat)
    (hinv : HashTableCuckoo.Inv ⟨t₀, []⟩) :
    FrontInv uninit c t₀ (create c.keyLen c.dataLen (⟨t₀, draws⟩ : Seeded)).store fun _ => none := by
  have hdataLen := c.dataLen_lt
  have hkeyLen := c.keyLen_lt
  have hempty : HashTableCuckoo.contract.Holds ⟨t₀, draws⟩ ∅ := ⟨[], hinv, by simp, by simp⟩
  have hlt : storeLen c.keyLen c.dataLen < 2 ^ 64 := by
    rw [storeLen, dhSize]
    split <;> omega
  exact ⟨reached_create uninit c.keyLen_lt (by omega) hempty, rfl, rfl, fun _ _ hkey => (by cases hkey),
    [], logged_start c (FileStore.Records.create hlt)⟩

theorem insertEntry_maxIndex {L : Set (Value × Nat)} (h : HashTableCuckoo.Holds f.hashTable L)
    (hinsert : insertEntry HashTableCuckoo.hashTable (FileStore.dataStore uninit) f padding key data isDelete =
      some (ret, f')) : f'.hashTable.table.maxIndex = f.hashTable.table.maxIndex := by
  obtain ⟨live, hinv, -, -⟩ := h
  obtain ⟨hfour, -⟩ := insertEntry_admits hinsert
  obtain ⟨-, -, -, hsame | ⟨hashIt, v, r, hupdate⟩⟩ := insertEntry_frame hinsert
  · rw [hsame]
  · exact updateTable_maxIndex hashIt hinv hfour hupdate

theorem wellFormed_of_length (hfour : 4 ≤ c.keyLen) (hkey : key.length = c.keyLen) :
    WellFormed c.keyLen key := by
  refine ⟨?_, fun _ => hkey⟩
  rintro rfl
  rw [← hkey] at hfour
  exact absurd hfour (by decide)

theorem FrontInv.valid (h : FrontInv uninit c t₀ f m) (hfour : 4 ≤ c.keyLen) (hkey : key.length = c.keyLen) :
    f.invalidKey key = false :=
  invalidKey_of_wellFormed (h.keyLen ▸ wellFormed_of_length hfour hkey)

/-- `Get` answers with the entry of the map. -/
theorem FrontInv.get (h : FrontInv uninit c t₀ f m) (hfour : 4 ≤ c.keyLen) (hkey : key.length = c.keyLen) :
    FawnDSSF.get HashTableCuckoo.hashTable (FileStore.dataStore uninit) f key 0 maxLen = some
      (answer (m key)) := by
  have hadmits : HashTableCuckoo.contract.admits key := hfour.trans hkey.ge
  have hwf : WellFormed f.keyLen key := h.keyLen ▸ wellFormed_of_length hfour hkey
  by_cases hzero : storeLen c.keyLen c.dataLen = 0
  · obtain ⟨-, L, hrep⟩ := h.reached.anyLength hzero
    rw [← get_shortStore, get_of_represents hrep hwf hadmits]
  · obtain ⟨-, L, hrep⟩ := h.reached.fixed hzero
    exact get_of_represents hrep hwf hadmits

section Calls

variable (h : FrontInv uninit c t₀ f m) (hfour : 4 ≤ c.keyLen) (hid : f.dataStore.nextAppendId < 2 ^ 31)
include h hfour hid

theorem FrontInv.returns (hkey : key.length = c.keyLen) (padding : Nat) (data : Value) (isDelete : Bool) :
    ∃ ret f', insertEntry HashTableCuckoo.hashTable (FileStore.dataStore uninit) f padding key data isDelete =
      some (ret, f') := by
  have hadmits : HashTableCuckoo.contract.admits key := hfour.trans hkey.ge
  obtain ⟨⟨ret, f'⟩, hr⟩ :=
      h.reached.insertEntry_returns (wellFormed_of_length hfour hkey)
      (fun hzero => by omega) hadmits hid padding data isDelete
  exact ⟨ret, f', hr⟩

theorem FrontInv.outcome (hkey : key.length = c.keyLen)
    (hinsert : insertEntry HashTableCuckoo.hashTable (FileStore.dataStore uninit) f padding key data isDelete =
      some (ret, f')) :
    InsertOutcome HashTableCuckoo.hashTable uninit f padding key data isDelete ret f' := by
  obtain ⟨L, hL⟩ := h.holds
  exact insertEntry_outcome hL (hfour.trans hkey.ge) hid (h.valid hfour hkey) hinsert

theorem FrontInv.put (hkey : key.length = c.keyLen) (hdata : data.length = c.dataLen) (padding : Nat) :
    ∃ ret f', FawnDSSF.put HashTableCuckoo.hashTable (FileStore.dataStore uninit) f padding key data =
      some (ret, f') ∧ FrontInv uninit c t₀ f' ((Op.put key data).apply m ret) := by
  obtain ⟨ret, f', hinsert⟩ := h.returns hfour hid hkey padding data false
  have hvalid := h.valid hfour hkey
  have hcheck : ¬(f.dataLen ≠ 0 ∧ f.dataLen ≠ data.length) := by
    rw [h.dataLen, hdata]
    exact fun hne => hne.2 rfl
  have hput : FawnDSSF.put HashTableCuckoo.hashTable (FileStore.dataStore uninit) f padding key data =
      some (ret, f') := by
    rw [FawnDSSF.put, hvalid, if_neg Bool.false_ne_true, if_neg hcheck, hinsert]
  have hstep : step HashTableCuckoo.hashTable (FileStore.dataStore uninit) ⟨f, m⟩ ⟨.put key data, padding⟩ =
      some ⟨f', (Op.put key data).apply m ret⟩ := step_put hput
  have hrecord : storeLen c.keyLen c.dataLen = 0 → dhSize + key.length + data.length < 2 ^ 32 := by
    intro hzero
    have hempty := dataLen_of_storeLen (by omega) hzero
    have hlt := c.keyLen_lt
    rw [hkey, hdata, dhSize]
    omega
  obtain ⟨log, hlogged⟩ := h.logged
  obtain ⟨L, hL⟩ := h.holds
  refine ⟨ret, f', hput, ?_, ?_, ?_, ?_, ?_⟩
  · refine reached_step h.reached (fun _ => ⟨?_, fun hzero => by omega⟩) hstep hid fun hzero => ?_
    · exact hfour.trans hkey.ge
    · refine step_put ?_
      rw [FawnDSSF.put, hvalid, if_neg Bool.false_ne_true, if_neg hcheck, insertEntry_shortStore, hinsert]
      rw [length_entry]
      exact hrecord hzero
  · exact (FileStore.step_store hstep).2.1.trans h.dataLen
  · exact (insertEntry_maxIndex hL hinsert).trans h.maxIndex
  · intro hne key'
    have hold := h.noTombstone hne key'
    rw [Op.apply]
    split
    · rw [Function.update_apply]
      split
      · intro heq
        cases heq
      · exact hold
    · exact hold
  · refine logged_insertEntry hlogged h.keyLen ⟨hkey, hdata.le, fun _ => hdata⟩
      (fun hzero => hrecord (h.reached.storeLen.symm.trans hzero)) (h.outcome hfour hid hkey hinsert)
      (h.get hfour hkey) ?_ ?_
    · rintro (rfl | ⟨hfalse, -⟩)
      · rfl
      · cases hfalse
    · rintro (rfl | rfl) <;> rfl

theorem FrontInv.delete (hkey : key.length = c.keyLen) (padding : Nat) :
    ∃ ret f', FawnDSSF.delete HashTableCuckoo.hashTable (FileStore.dataStore uninit) f padding key =
      some (ret, f') ∧ FrontInv uninit c t₀ f' ((Op.delete key).apply m ret) := by
  obtain ⟨ret, f', hinsert⟩ := h.returns hfour hid hkey padding [] true
  have hvalid := h.valid hfour hkey
  have hdelete : FawnDSSF.delete HashTableCuckoo.hashTable (FileStore.dataStore uninit) f padding key =
      some (ret, f') := by
    rw [FawnDSSF.delete, hvalid, if_neg Bool.false_ne_true, hinsert]
  have hstep : step HashTableCuckoo.hashTable (FileStore.dataStore uninit) ⟨f, m⟩ ⟨.delete key, padding⟩ =
      some ⟨f', (Op.delete key).apply m ret⟩ := by
    simp only [step, hdelete, Option.map_some]
  have hrecord : dhSize + key.length + ([] : Value).length < 2 ^ 32 := by
    have hlt := c.keyLen_lt
    rw [hkey, dhSize, List.length_nil]
    omega
  have hadmits : HashTableCuckoo.contract.admits key := hfour.trans hkey.ge
  obtain ⟨log, hlogged⟩ := h.logged
  obtain ⟨L, hL⟩ := h.holds
  refine ⟨ret, f', hdelete, ?_, ?_, ?_, ?_, ?_⟩
  · refine reached_step h.reached (fun _ => ⟨?_, fun hzero => by omega⟩) hstep hid fun _ => ?_
    · exact hadmits
    · have hsame : FawnDSSF.delete HashTableCuckoo.hashTable (FileStore.shortStore uninit) f padding key =
          some (ret, f') := by
        rw [FawnDSSF.delete, hvalid, if_neg Bool.false_ne_true, insertEntry_shortStore, hinsert]
        rw [length_entry]
        exact hrecord
      simp only [step, hsame, Option.map_some]
  · exact (FileStore.step_store hstep).2.1.trans h.dataLen
  · exact (insertEntry_maxIndex hL hinsert).trans h.maxIndex
  · -- over records of a fixed length a tombstone is refused
    intro hne key'
    have hfixed : storeLen c.keyLen c.dataLen ≠ 0 := fun hzero => hne (dataLen_of_storeLen (by omega) hzero)
    have hrefused := h.reached.delete_fixed hfixed (wellFormed_of_length hfour hkey) hadmits padding
    rw [hinsert] at hrefused
    obtain ⟨rfl, -⟩ := Prod.mk.inj (Option.some.inj hrefused)
    exact h.noTombstone hne key'
  · have htomb : MergeTask.WellFormed c ⟨key, true, []⟩ := ⟨hkey, Nat.zero_le _, fun hfalse => by cases hfalse⟩
    refine logged_insertEntry hlogged h.keyLen htomb (fun _ => hrecord) (h.outcome hfour hid hkey hinsert)
      (h.get hfour hkey) ?_ ?_
    · intro hret
      rw [Op.apply, if_pos (hret.imp_right And.right)]
      rfl
    · rintro (rfl | rfl) <;> rfl

end Calls

/-- A kept conversion: the same table and the same file. -/
theorem FrontInv.convertKeep (h : FrontInv uninit c t₀ f m) (draws : Nat → Nat → Nat) :
    ∃ n, FawnDSSF.convertKeep f (create c.keyLen c.dataLen (⟨t₀, draws⟩ : Seeded)).store = (.ok, n) ∧
      n.keyLen = c.keyLen ∧ n.hashTable.table = f.hashTable.table ∧
      n.dataStore = f.dataStore := by
  have hcopy : f.hashTable.table.copyTo t₀ = (.ok, f.hashTable.table) := by
    rw [HashTableCuckoo.copyTo, if_neg (by simp [h.maxIndex]), ← h.maxIndex]
  have hlink : f.dataStore.convertTo (FileStore.create (storeLen c.keyLen c.dataLen)) = (.ok, f.dataStore) := by
    have hlen : f.dataStore.dataLen = storeLen c.keyLen c.dataLen := h.reached.storeLen
    rw [FileStore.convertTo, ← hlen]
    exact if_neg (not_not.mpr rfl)
  rw [FawnDSSF.convertKeep, create, start, if_neg (by simp [h.keyLen]), if_neg (by simp [h.dataLen])]
  simp only [hcopy, hlink]
  exact ⟨_, rfl, rfl, rfl, rfl⟩

theorem get_of_table_eq {n : FawnDSSF Seeded FileStore} (hkeyLen : n.keyLen = f.keyLen)
    (htable : n.hashTable.table = f.hashTable.table) (hstore : n.dataStore = f.dataStore) (key : Value)
    (offset len : Nat) :
    FawnDSSF.get HashTableCuckoo.hashTable (FileStore.dataStore uninit) n key offset len =
      FawnDSSF.get HashTableCuckoo.hashTable (FileStore.dataStore uninit) f key offset len := by
  have hfind : HashTableCuckoo.hashTable.find n.hashTable key =
      HashTableCuckoo.hashTable.find f.hashTable key := by
    simp only [HashTableCuckoo.hashTable, htable]
  rw [FawnDSSF.get, FawnDSSF.get, invalidKey, invalidKey, hkeyLen, hfind, hstore]
  simp only [readData, hstore]

/-- Well-formed records whose last one for a key is the key's entry. -/
structure Lists (c : Lengths) (recs : List Record) (m : TombMap) : Prop where
  wellFormed : ∀ r ∈ recs, MergeTask.WellFormed c r
  entry : ∀ k, recordsEntry recs k = m k

theorem recordsEntry_eq_none {recs : List Record} {k : Value} (h : ∀ r ∈ recs, r.key ≠ k) :
    recordsEntry recs k = none := by
  rw [recordsEntry, MergeTask.lastRecord, List.filter_eq_nil_iff.mpr]
  · rfl
  · intro r hr heq
    exact h r hr (by simpa using heq)

theorem recordsEntry_of_nodup {recs : List Record} (hnodup : (recs.map Record.key).Nodup) {r : Record}
    (hr : r ∈ recs) : recordsEntry recs r.key = some (if r.deleted then none else some r.data) := by
  induction recs with
  | nil => cases hr
  | cons r' recs ih =>
    obtain ⟨hnot, hnodup⟩ := List.nodup_cons.mp hnodup
    have hcons := FawnDSCombi.recordsEntry_append [r'] recs r.key
    rw [List.singleton_append] at hcons
    rw [hcons]
    rcases List.mem_cons.mp hr with rfl | hr
    · have hnone : recordsEntry recs r.key = none :=
        recordsEntry_eq_none fun r' hr' heq => hnot (List.mem_map.mpr ⟨r', hr', heq⟩)
      rw [hnone, ← List.nil_append [r], recordsEntry_concat, if_pos rfl]
      rfl
    · rw [ih hnodup hr]
      rfl

/-- A kept conversion lists the whole log. -/
theorem FrontInv.kept_lists (h : FrontInv uninit c t₀ f m) (hkeyLen : c.keyLen ≠ 0)
    {n : FawnDSSF Seeded FileStore} (hlen : n.keyLen = c.keyLen) (hstore : n.dataStore = f.dataStore) :
    ∃ recs, records uninit f = some recs ∧ records uninit n = some recs ∧
      (∀ r ∈ recs, MergeTask.WellFormed c r) ∧ ∀ k, m k ≠ none → recordsEntry recs k = m k := by
  obtain ⟨log, hlog⟩ := h.logged
  have hrecs := hlog.records_eq uninit h.keyLen hkeyLen
  refine ⟨log.map Prod.snd, hrecs, ?_, ?_, hlog.found⟩
  · rw [← hrecs, records, records, hlen, h.keyLen, hstore]
  · intro r hr
    obtain ⟨e, he, rfl⟩ := List.mem_map.mp hr
    exact hlog.wellFormed e he

/-- A conversion that reorganises fixed-length records keeps every `Get`, and lists the entries. -/
theorem FrontInv.reorganized (h : FrontInv uninit c t₀ f m) (hkeyLen : c.keyLen ≠ 0) (hdataLen : c.dataLen ≠ 0)
    {n₀ : TagTable} (hn : n₀.maxIndex = t₀.maxIndex) :
    ∃ n, convertTo uninit f (create c.keyLen c.dataLen n₀).store = some (.ok, n) ∧
      (∀ key offset len, FawnDSSF.get TagTable.hashTable (FileStore.dataStore uninit) n key offset len =
        FawnDSSF.get HashTableCuckoo.hashTable (FileStore.dataStore uninit) f key offset len) ∧
      ∃ recs, records uninit n = some recs ∧ Lists c recs m := by
  have hfixed : storeLen c.keyLen c.dataLen ≠ 0 := fun hzero => hdataLen (dataLen_of_storeLen hkeyLen hzero)
  have hlen : f.keyLen = c.keyLen := h.keyLen
  have hstoreLen : f.dataStore.dataLen = storeLen c.keyLen c.dataLen := h.reached.storeLen
  obtain ⟨-, L, hrep⟩ := h.reached.fixed hfixed
  have hcurrent : Current uninit f m := current_of_represents hrep (hlen ▸ hkeyLen) (h.noTombstone hdataLen)
  have hfresh : Fresh f (create c.keyLen c.dataLen n₀).store :=
    ⟨hlen.symm, h.dataLen.symm, hn.trans h.maxIndex.symm, by rw [hstoreLen]; rfl⟩
  obtain ⟨n, hconvert, hconverted⟩ := convertTo_spec uninit hcurrent.convertible hfresh
  obtain ⟨l, hl, hnodup, -, hmem⟩ := increment_convert hconverted hcurrent (hlen ▸ hkeyLen)
  refine ⟨n, hconvert, get_convert hconverted hcurrent.convertible hcurrent.id_small,
    l.map (fun e => ⟨e.2.1, e.1 = .keyDeleted, e.2.2⟩), ?_, ?_, ?_⟩
  · rw [records, hl, Option.map_some]
  · intro r hr
    obtain ⟨⟨ret, key, data⟩, he, rfl⟩ := List.mem_map.mp hr
    obtain ⟨rfl, hget⟩ := (hmem ret key data).mp he
    obtain ⟨p, hp, padding, hkey, hrec⟩ := hcurrent.stored key data ((hcurrent.get key data).mp hget)
    have hlength := FileStore.length_record hcurrent.convertible.fixed (hcurrent.convertible.id_lt p hp)
    rw [hrec, length_entry, hstoreLen, storeLen, if_neg (not_or.mpr ⟨hkeyLen, hdataLen⟩), hkey, hlen] at hlength
    have hdata : data.length = c.dataLen := by omega
    exact ⟨hkey.trans hlen, hdata.le, fun _ => hdata⟩
  · intro k
    have hkeys : ((l.map fun e => Record.mk e.2.1 (e.1 = .keyDeleted) e.2.2).map Record.key).Nodup := by
      rw [List.map_map]
      exact hnodup
    cases hm : m k with
    | none =>
      refine recordsEntry_eq_none fun r hr hk => ?_
      obtain ⟨⟨ret, key, data⟩, he, rfl⟩ := List.mem_map.mp hr
      obtain ⟨-, hget⟩ := (hmem ret key data).mp he
      obtain rfl : key = k := hk
      rw [(hcurrent.get key data).mp hget] at hm
      cases hm
    | some e =>
      cases e with
      | none => exact absurd hm (h.noTombstone hdataLen k)
      | some v =>
        have he := (hmem .ok k v).mpr ⟨rfl, (hcurrent.get k v).mpr hm⟩
        exact recordsEntry_of_nodup hkeys (List.mem_map_of_mem he)

end Front

end FawnDSSF

end FawnKV.Silt
