import FawnKV.Silt.AnyLengthStore
import FawnKV.Silt.Combi
import FawnKV.Silt.ConvertRuns
import FawnKV.Silt.OrderedTrie

/-! Parts of values: what `Get` returns for an offset and a length, in each of the stores. -/
namespace FawnKV.Silt

open ByteFile

/-- The bytes of the value from `offset` to `offset + len`, or to its end. -/
def slice (v : Value) (offset len : Nat) : Value := (v.drop offset).take len

section Slice

variable {v : Value} {offset len : Nat}

/-- A length past the end is as good as the rest. -/
theorem slice_clamp (h : v.length - offset ≤ len) :
    slice v offset (v.length - offset) = slice v offset len := by
  rw [slice, slice, List.take_of_length_le (by rw [List.length_drop]),
    List.take_of_length_le (by rw [List.length_drop]; exact h)]

end Slice

namespace FileStore

/-- The store has the record under the id. -/
inductive HoldsAt (s : FileStore) (id : Nat) (r : Value) : Prop where
  | fixed (h : Fixed s) (hid : id < s.endId) (hrecord : s.record id = r)
  | anyLength (pre post : List Value) (hvar : s.dataLen = 0) (h : Records s (pre ++ r :: post))
      (hid : idAfter s.dataLen pre = id)

/-- `Get`, with the exception of a buffer for which there is no memory. -/
def getOrThrow (uninit : Nat → UInt8) (s : FileStore) (key : Value) (offset len : Nat) :
    Option (Except FawnDSReturn Value) :=
  match s.length uninit key with
  | .error _ => some (s.get uninit key offset len)
  | .ok dataLen =>
    if offset ≤ dataLen ∧ 2 ^ 63 ≤ PagedFile.bufferSize s dataLen offset len then none
    else some (s.get uninit key offset len)

/-- Where nothing is thrown, it is `Get`. -/
theorem get_of_getOrThrow {uninit : Nat → UInt8} {s : FileStore} {key : Value} {offset len : Nat}
    {r : Except FawnDSReturn Value} (h : s.getOrThrow uninit key offset len = some r) :
    s.get uninit key offset len = r := by
  rw [getOrThrow] at h
  split at h
  · exact Option.some.inj h
  · split at h
    · cases h
    · exact Option.some.inj h

section Holds

variable {uninit : Nat → UInt8} {s : FileStore} {id offset len : Nat} {r key : Value}

theorem HoldsAt.lengthAt (h : HoldsAt s id r) : s.lengthAt uninit id = .ok r.length := by
  cases h with
  | fixed h hid hrecord => rw [lengthAt_fixed h hid, ← hrecord, length_record h hid]
  | anyLength pre post hvar h hid => rw [← hid, h.lengthAt]

theorem HoldsAt.length_le (h : HoldsAt s id r) : r.length ≤ s.file.length := by
  cases h with
  | fixed h hid hrecord =>
    have hend := region_le hid s.dataLen
    have hlen := h.length
    rw [← hrecord, length_record h hid]
    omega
  | anyLength pre post hvar h hid =>
    have hframe := length_frame h.fits_mem
    rw [if_pos hvar] at hframe
    rw [h.file, List.flatMap_append, List.flatMap_cons, List.length_append, List.length_append, hframe]
    omega

/-- What is read of the record, when nothing throws. -/
theorem HoldsAt.getAt (h : HoldsAt s id r) (hoff : offset ≤ r.length)
    (hexact : s.dataLen ≠ 0 ∨ offset + len < 2 ^ 64) :
    s.getAt uninit id offset len = .ok (slice r offset len) := by
  cases h with
  | fixed h hid hrecord =>
    have hlen := length_record h hid
    rw [hrecord] at hlen
    rw [getAt_fixed h hid (hlen ▸ hoff), hrecord, ← hlen]
    by_cases hclamp : r.length < (offset + len) % 2 ^ 64
    · have hmod := Nat.mod_le (offset + len) (2 ^ 64)
      rw [if_pos hclamp]
      exact congrArg Except.ok (slice_clamp (by omega))
    · rw [if_neg hclamp]
      rfl
  | anyLength pre post hvar h hid =>
    rw [← hid]
    exact h.getAt_variable hvar hoff (hexact.resolve_left (not_not.mpr hvar))

end Holds

end FileStore

namespace FawnDSSF

section Stored

variable {H C : Type} (T : HashTable H C) (uninit : Nat → UInt8)

/-- `Get` over a file store, with the exceptions of its last read. The reads of the search are no
longer than a header or a key. -/
def getOrThrow (s : FawnDSSF H FileStore) (key : Value) (offset len : Nat) :
    Option (Except FawnDSReturn Value) :=
  if s.invalidKey key then some (.error .invalidKey)
  else
    (T.find s.hashTable key).bind fun hashIt =>
      match search (FileStore.dataStore uninit) s.keyLen s.dataStore key hashIt with
      | none => some (.error .keyNotFound)
      | some (_, dataStoreKey, readHdr) =>
        match s.dataStore.length uninit dataStoreKey with
        | .error retLen => some (.error retLen)
        | .ok totalLen =>
          if headerType readHdr = 0 then none
          else if headerType readHdr = 2 then some (.error .keyDeleted)
          else
            let dataLen := (totalLen + 2 * 2 ^ 64 - dhSize - key.length) % 2 ^ 64
            if dataLen < offset then some (.ok [])
            else
              let len := if dataLen < (offset + len) % 2 ^ 64 then dataLen - offset else len
              s.dataStore.getOrThrow uninit dataStoreKey (dhSize + key.length + offset) len

variable {T uninit} in
/-- Where nothing is thrown, it is `Get`. -/
theorem get_of_getOrThrow {s : FawnDSSF H FileStore} {key : Value} {offset len : Nat}
    {r : Except FawnDSReturn Value} (h : getOrThrow T uninit s key offset len = some r) :
    get T (FileStore.dataStore uninit) s key offset len = some r := by
  rw [getOrThrow] at h
  rw [get]
  split at h
  · rename_i hbad
    rw [if_pos hbad, h]
  rename_i hvalid
  rw [if_neg hvalid]
  obtain ⟨hashIt, hfind, h⟩ := Option.bind_eq_some_iff.mp h
  rw [hfind, Option.bind_some]
  cases hsearch : search (FileStore.dataStore uninit) s.keyLen s.dataStore key hashIt with
  | none =>
    rw [hsearch] at h
    exact h
  | some p =>
    obtain ⟨c, dataStoreKey, readHdr⟩ := p
    rw [hsearch] at h
    show readData (FileStore.dataStore uninit) s key dataStoreKey readHdr offset len = some r
    rw [readData, show (FileStore.dataStore uninit).length = FileStore.length uninit from rfl]
    cases hlength : s.dataStore.length uninit dataStoreKey with
    | error ret =>
      simp only [hlength] at h
      exact h
    | ok totalLen =>
      simp only [hlength] at h ⊢
      split_ifs at h ⊢
      all_goals first | exact h | exact congrArg some (FileStore.get_of_getOrThrow h)

/-- The search of `Get` ends at the record with this value. A file is no longer than an `off_t`. -/
structure Stored (s : FawnDSSF H FileStore) (key v : Value) : Prop where
  valid : s.invalidKey key = false
  size : s.dataStore.file.length < 2 ^ 63
  found : ∃ l c dataStoreKey id padding, T.find s.hashTable key = some l ∧
    search (FileStore.dataStore uninit) s.keyLen s.dataStore key l =
      some (c, dataStoreKey, header s.keyLen padding key false) ∧
    asOffset dataStoreKey = (id : Nat) ∧
    FileStore.HoldsAt s.dataStore id (entry s.keyLen padding key v false)

variable {T uninit} {s : FawnDSSF H FileStore} {key v : Value} {offset len : Nat}

end Stored

end FawnDSSF

namespace FawnDSSF

section Represented

variable {H C : Type} {T : HashTable H C} {hT : T.Contract} {uninit : Nat → UInt8} {s : FawnDSSF H FileStore}
  {m : TombMap} {L : Set (Value × Nat)} {key v : Value}

/-- Over a contract whose records are those of the file, the values of the map are stored. -/
theorem stored_of_holds {S : DataStore FileStore} {hS : S.Contract} (hget : S.get = FileStore.get uninit)
    (hholds : ∀ d id r, hS.Holds d id r → FileStore.HoldsAt d id r) (h : Represents hT hS s m L)
    (hsize : s.dataStore.file.length < 2 ^ 63) (hkey : WellFormed s.keyLen key) (hadmits : hT.admits key)
    (hv : m key = some (some v)) : Stored T uninit s key v := by
  refine ⟨invalidKey_of_wellFormed hkey, hsize, ?_⟩
  obtain ⟨l, hfind, hcases⟩ := find_cases h hkey hadmits
  rcases hcases with ⟨-, hno⟩ | ⟨e, -, id, padding, data, isDelete, hsearch, hdenotes, hmem, hrec, hm⟩
  · obtain ⟨id, hmem⟩ := h.stored key (by rw [hv]; simp)
    exact absurd hmem (hno id)
  · rw [hm] at hv
    cases isDelete with
    | true => cases hv
    | false =>
      cases hv
      have hsame : search S s.keyLen s.dataStore key l =
          search (FileStore.dataStore uninit) s.keyLen s.dataStore key l := search_congr hget _ _ _ _
      rw [hsame] at hsearch
      exact ⟨l, e.1, e.2, id, padding, hfind, hsearch,
        FileStore.asOffset_of_denotes hdenotes (h.record key id hmem).1, hholds _ _ _ hrec⟩

theorem stored_of_fixed (h : Represents hT (FileStore.contract uninit) s m L)
    (hsize : s.dataStore.file.length < 2 ^ 63) (hkey : WellFormed s.keyLen key) (hadmits : hT.admits key)
    (hv : m key = some (some v)) : Stored T uninit s key v := by
  have hholds : ∀ d id r, (FileStore.contract uninit).Holds d id r → FileStore.HoldsAt d id r := by
    rintro d id r ⟨hfixed, hlt, hrec⟩
    exact .fixed hfixed hlt hrec
  exact stored_of_holds rfl hholds h hsize hkey hadmits hv

theorem stored_of_anyLength (h : Represents hT (FileStore.anyLengthContract uninit) s m L)
    (hkey : WellFormed s.keyLen key) (hadmits : hT.admits key) (hv : m key = some (some v)) :
    Stored T uninit s key v := by
  obtain ⟨hvar, hbound, recs, hrec⟩ := h.good
  have hsize : s.dataStore.file.length < 2 ^ 63 := by
    rw [hrec.file, FileStore.length_frames hrec.fits, if_pos hvar, ← hrec.endId]
    exact hbound
  have hholds : ∀ d id r, (FileStore.anyLengthContract uninit).Holds d id r → FileStore.HoldsAt d id r := by
    rintro d id r ⟨hvar, pre, post, hrec, hid⟩
    exact .anyLength pre post hvar hrec hid
  exact stored_of_holds rfl hholds h hsize hkey hadmits hv

end Represented

end FawnDSSF

namespace FawnDSSFOrderedTrie

variable {config : TrieConfig} {t : FawnDSSFOrderedTrie} {acc : List (Value × Value)} {key v : Value}
  {offset : Nat}

end FawnDSSFOrderedTrie

namespace FawnDSCombi

/-- A store of one of the three stages. -/
inductive StageStore where
  | front (s : FawnDSSF HashTableCuckoo.Seeded FileStore)
  | middle (s : FawnDSSF TagTable FileStore)
  | back (t : FawnDSSFOrderedTrie)

/-- The return code of the ordered trie, with the data if it is `OK`. -/
def returned : FawnDSReturn × Option Value → Except FawnDSReturn Value
  | (.ok, data) => .ok (data.getD [])
  | (ret, _) => .error ret

namespace StageStore

variable (uninit : Nat → UInt8)

def get (key : Value) (offset len : Nat) : StageStore → Option (Except FawnDSReturn Value)
  | front s => FawnDSSF.getOrThrow HashTableCuckoo.hashTable uninit s key offset len
  | middle s => FawnDSSF.getOrThrow TagTable.hashTable uninit s key offset len
  | back t => (t.get key offset).map returned

/-- The store has the value under the key. -/
def Holds (key v : Value) : StageStore → Prop
  | front s => FawnDSSF.Stored HashTableCuckoo.hashTable uninit s key v
  | middle s => FawnDSSF.Stored TagTable.hashTable uninit s key v
  | back t => ∃ config acc, FawnDSSFOrderedTrie.Represents config t acc ∧ config.Valid ∧
    t.index.finalized = true ∧ (key, v) ∈ acc

end StageStore

/-- `all_stores_`, in the order of a search. -/
structure Stages where
  stage0 : List (FawnDSSF HashTableCuckoo.Seeded FileStore)
  stage1 : List (FawnDSSF TagTable FileStore)
  stage2 : List FawnDSSFOrderedTrie

def Stages.all (s : Stages) : List StageStore :=
  s.stage0.map .front ++ s.stage1.map .middle ++ s.stage2.map .back

section Parts

variable {uninit : Nat → UInt8} {newer older : List StageStore} {store : StageStore} {key v : Value}
  {offset len : Nat}

end Parts

end FawnDSCombi

end FawnKV.Silt
