import Mathlib.Data.Set.Insert
import FawnKV.Lib.Transition
import FawnKV.Silt.StandardStore

/-! The contracts of the hash table and the data store, and what `FawnDS_SF` keeps over them. -/
namespace FawnKV.Silt

open ByteFile

/-- The value is the id as a `uint32_t` or an `off_t`. -/
def Denotes (v : Value) (id : Nat) : Prop :=
  number? v = some id ∧ (v.length = 4 ∨ v.length = 8)

theorem Denotes.unique {v : Value} {id id' : Nat} (h : Denotes v id) (h' : Denotes v id') : id = id' :=
  Option.some.inj (h.1.symm.trans h'.1)

theorem denotes_leBytes {w id : Nat} (hw : w = 4 ∨ w = 8) (hid : id < 256 ^ w) :
    Denotes (leBytes w id) id := by
  rw [Denotes, length_leBytes, number?, length_leBytes, readLe_leBytes hid, if_pos (by omega)]
  exact ⟨rfl, hw⟩

/-- `Holds h L`: the table `h` stores the pairs of keys and ids in `L`. `Find` comes by the ids of the
key, and by no id that is not stored. `admits` are the keys that the table can hash. -/
structure HashTable.Contract {H C : Type} (T : HashTable H C) where
  admits : Value → Prop
  Holds : H → Set (Value × Nat) → Prop
  find : ∀ {h L key}, Holds h L → admits key → ∃ l, T.find h key = some l ∧
    (∀ id, (key, id) ∈ L → ∃ e ∈ l, Denotes e.2 id) ∧
    ∀ e ∈ l, ∃ key' id, (key', id) ∈ L ∧ Denotes e.2 id
  put : ∀ {h L key v id}, Holds h L → admits key → Denotes v id → id < 2 ^ 31 →
    (∀ e ∈ L, e.2 ≠ id) → ∃ ret h', T.put h key v = some (ret, h') ∧
      (ret = .ok ∧ Holds h' (insert (key, id) L) ∨
        ret ≠ .ok ∧ ret ≠ .keyNotFound ∧ Holds h' L)
  replace : ∀ {h L key l e old v id}, Holds h L → T.find h key = some l → e ∈ l → Denotes e.2 old →
    (key, old) ∈ L → Denotes v id → id < 2 ^ 31 → (∀ e ∈ L, e.2 ≠ id) →
    ∃ ret h', T.replace h e.1 v = some (ret, h') ∧
      (ret = .ok ∧ Holds h' (insert (key, id) (L \ {(key, old)})) ∨
        ret ≠ .ok ∧ ret ≠ .keyNotFound ∧ Holds h' L)

/-- `Holds d id r`: the store `d` has the record `r` under the id. An appended record is read back, as
long as the ids fit a signed number of four bytes. -/
structure DataStore.Contract {D : Type} (S : DataStore D) where
  Good : D → Prop
  Holds : D → Nat → Value → Prop
  unique : ∀ {d id r r'}, Holds d id r → Holds d id r' → r = r'
  length_lt : ∀ {d id r}, Holds d id r → r.length < 2 ^ 64
  append : ∀ {d buf ret v d'}, Good d → S.append d buf = (ret, v, d') →
    (ret = .ok → ∀ id, Denotes v id → id < 2 ^ 31) →
    Good d' ∧ (∀ id r, Holds d id r → Holds d' id r) ∧ ret ≠ .keyNotFound ∧
      (ret = .ok → ∃ id, Denotes v id ∧ (∀ r, ¬Holds d id r) ∧ Holds d' id buf)
  delete : ∀ {d}, Good d → ∀ key, Good (S.delete d key).2 ∧
    ∀ id r, Holds d id r ↔ Holds (S.delete d key).2 id r
  length : ∀ {d id r v}, Holds d id r → Denotes v id → id < 2 ^ 31 → S.length d v = .ok r.length
  get : ∀ {d id r v offset len}, Holds d id r → Denotes v id → id < 2 ^ 31 →
    offset + len ≤ r.length → S.get d v offset len = .ok ((r.drop offset).take len)

namespace FawnDSSF

section Entries

variable {keyLen padding : Nat} {key data : Value} {isDelete : Bool}

@[simp] theorem length_header : (header keyLen padding key isDelete).length = dhSize := by
  simp [header, dhSize]

theorem entry_take (keyLen padding : Nat) (key data : Value) (isDelete : Bool) :
    (entry keyLen padding key data isDelete).take dhSize =
    header keyLen padding key isDelete := by
  rw [entry, List.append_assoc, List.take_left' length_header]

theorem entry_drop : (entry keyLen padding key data isDelete).drop dhSize = key ++ data := by
  rw [entry, List.append_assoc, List.drop_left' length_header]

theorem length_entry : (entry keyLen padding key data isDelete).length =
    dhSize + key.length + data.length := by
  rw [entry, List.length_append, List.length_append, length_header]

theorem entry_key : ((entry keyLen padding key data isDelete).drop dhSize).take key.length = key := by
  rw [entry_drop, List.take_left' rfl]

theorem entry_data : (entry keyLen padding key data isDelete).drop (dhSize + key.length) = data := by
  rw [← List.drop_drop, entry_drop, List.drop_left' rfl]

theorem headerType_header (keyLen padding : Nat) (key : Value) (isDelete : Bool) :
    headerType (header keyLen padding key isDelete) =
    if isDelete then 2 else 1 := by
  rw [headerType, header, List.take_left' (by simp)]
  cases isDelete <;> rfl

/-- In variable-length mode the header has the length of the key, if sixteen bits hold it. -/
theorem headerKeyLen_header (hkey : key.length < 2 ^ 16) :
    headerKeyLen (header 0 padding key isDelete) = key.length := by
  rw [headerKeyLen, header, List.drop_left' (by simp), List.take_of_length_le (by simp)]
  exact readLe_leBytes (by simpa using hkey)

end Entries

section Calls

variable {H C D : Type} (T : HashTable H C) (S : DataStore D)

/-- The keys that the functions take. -/
def WellFormed (keyLen : Nat) (key : Value) : Prop :=
  key ≠ [] ∧ (keyLen ≠ 0 → key.length = keyLen)

/-- The length of the key fits the header. -/
def Short (keyLen : Nat) (key : Value) : Prop := keyLen = 0 → key.length < 2 ^ 16

inductive Op where
  | put (key data : Value)
  | delete (key : Value)
  | get (key : Value)
deriving DecidableEq

def Op.key : Op → Value
  | .put key _ => key
  | .delete key => key
  | .get key => key

/-- A call, and what the stack holds where the header is made. -/
structure Call where
  op : Op
  padding : Nat
deriving DecidableEq

/-- A map with tombstones: no entry, a deleted entry, or a value. -/
abbrev TombMap := Value → Option (Option Value)

def answer : Option (Option Value) → Except FawnDSReturn Value
  | none => .error .keyNotFound
  | some none => .error .keyDeleted
  | some (some data) => .ok data

/-- What a call that returned `ret` makes of the map. -/
def Op.apply (m : TombMap) (ret : FawnDSReturn) : Op → TombMap
  | .put key data => if ret = .ok then Function.update m key (some (some data)) else m
  | .delete key =>
    if ret = .ok ∨ ret = .keyNotFound then Function.update m key (some none) else m
  | .get _ => m

/-- The store, and the map that the codes it returned describe. -/
structure Observed (H D : Type) where
  store : FawnDSSF H D
  map : TombMap

def step (o : Observed H D) (c : Call) : Option (Observed H D) :=
  match c.op with
  | .put key data => (put T S o.store c.padding key data).map fun r => ⟨r.2, c.op.apply o.map r.1⟩
  | .delete key => (delete T S o.store c.padding key).map fun r => ⟨r.2, c.op.apply o.map r.1⟩
  | .get key => (get T S o.store key 0 maxLen).map fun _ => o

variable {T S} in
theorem step_put {o : Observed H D} {padding : Nat} {key data : Value} {ret : FawnDSReturn}
    {s : FawnDSSF H D} (h : put T S o.store padding key data = some (ret, s)) :
    step T S o ⟨.put key data, padding⟩ = some ⟨s, (Op.put key data).apply o.map ret⟩ := by
  simp only [step, h, Option.map_some]

/-- The store just created: no entry yet. -/
def start (keyLen dataLen : Nat) (h : H) (d : D) : Observed H D :=
  { store := { keyLen, dataLen, numElements := 0, numActiveElements := 0, hashTable := h, dataStore := d }
    map := fun _ => none }

/-- The record gets an id below `2 ^ 31`, if it is written. -/
def IdBelow (s : FawnDSSF H D) (padding : Nat) (key data : Value) (isDelete : Bool) : Prop :=
  ∀ newObj v d id,
    writeEntry S s padding key data isDelete newObj = (.ok, v, d) → Denotes v id → id < 2 ^ 31

/-- The same of the record of a call. -/
def NextIdBelow (o : Observed H D) (c : Call) : Prop :=
  match c.op with
  | .put key data => IdBelow S o.store c.padding key data false
  | .delete key => IdBelow S o.store c.padding key [] true
  | .get _ => True

end Calls

section Search

variable {H C D : Type} {T : HashTable H C} {S : DataStore D} {hT : T.Contract} {hS : S.Contract}
  {s : FawnDSSF H D} {m : TombMap} {L : Set (Value × Nat)} {key key' data v : Value} {id : Nat}
  {keyLen padding : Nat} {isDelete : Bool}

/-- The pairs `L` of the hash table and the records they point to are the entries of the map `m`. -/
structure Represents (hT : T.Contract) (hS : S.Contract) (s : FawnDSSF H D) (m : TombMap)
    (L : Set (Value × Nat)) : Prop where
  table : hT.Holds s.hashTable L
  good : hS.Good s.dataStore
  record : ∀ key id, (key, id) ∈ L → id < 2 ^ 31 ∧ WellFormed s.keyLen key ∧ Short s.keyLen key ∧
    ∃ padding data isDelete, hS.Holds s.dataStore id (entry s.keyLen padding key data isDelete) ∧
      m key = some (if isDelete then none else some data)
  unique : ∀ key id id', (key, id) ∈ L → (key, id') ∈ L → id = id'
  stored : ∀ key, m key ≠ none → ∃ id, (key, id) ∈ L

/-- A round of the search reads the header and the key that were written. -/
theorem readMatch_entry {d : D} (hrec : hS.Holds d id (entry keyLen padding key' data isDelete))
    (hv : Denotes v id) (hid : id < 2 ^ 31) (hkey : WellFormed keyLen key)
    (hkey' : WellFormed keyLen key') (hshort : Short keyLen key') :
    readMatch S keyLen d key v =
      if key = key' then some (header keyLen padding key' isDelete) else none := by
  have hlen : (entry keyLen padding key' data isDelete).length = dhSize + key'.length + data.length :=
    length_entry
  have hhdr : S.get d v 0 dhSize = .ok (header keyLen padding key' isDelete) := by
    rw [hS.get hrec hv hid (by omega), List.drop_zero, entry_take]
  rw [readMatch, hhdr]
  by_cases hdiff : key.length = key'.length
  · have hread : S.get d v dhSize key.length = .ok key' := by
      rw [hS.get hrec hv hid (by omega), hdiff, entry_key]
    have hpass : ¬(keyLen = 0 ∧ headerKeyLen (header keyLen padding key' isDelete) ≠ key.length) := by
      rintro ⟨rfl, hne⟩
      exact hne ((headerKeyLen_header (hshort rfl)).trans hdiff.symm)
    simp only [if_neg hpass, hread, equals_eq, decide_eq_true_eq]
  · -- keys of different lengths only meet in variable-length mode
    have hvar : keyLen = 0 := by
      by_contra hfix
      exact hdiff ((hkey.2 hfix).trans (hkey'.2 hfix).symm)
    subst hvar
    have hstop : (0 : Nat) = 0 ∧ headerKeyLen (header 0 padding key' isDelete) ≠ key.length := by
      refine ⟨rfl, ?_⟩
      rw [headerKeyLen_header (hshort rfl)]
      exact Ne.symm hdiff
    have hne : key ≠ key' := by
      rintro rfl
      exact hdiff rfl
    rw [if_neg hne]
    exact if_pos hstop

/-- The search ends at the record of the key, or the key has none among the candidates. -/
theorem search_cases (h : Represents hT hS s m L) (hkey : WellFormed s.keyLen key)
    {l : List (C × Value)} (hl : ∀ e ∈ l, ∃ key' id, (key', id) ∈ L ∧ Denotes e.2 id) :
    (search S s.keyLen s.dataStore key l = none ∧ ∀ e ∈ l, ∀ id, Denotes e.2 id → (key, id) ∉ L) ∨
    ∃ e ∈ l, ∃ id padding data isDelete,
      search S s.keyLen s.dataStore key l =
        some (e.1, e.2, header s.keyLen padding key isDelete) ∧
      Denotes e.2 id ∧ (key, id) ∈ L ∧
      hS.Holds s.dataStore id (entry s.keyLen padding key data isDelete) ∧
      m key = some (if isDelete then none else some data) := by
  induction l with
  | nil => exact .inl ⟨rfl, by simp⟩
  | cons e l ih =>
    obtain ⟨key', id, hmem, hv⟩ := hl e List.mem_cons_self
    obtain ⟨hid, hwf, hshort, padding, data, isDelete, hrec, hm⟩ := h.record key' id hmem
    have hround := readMatch_entry hrec hv hid hkey hwf hshort
    by_cases hkk : key = key'
    · subst hkk
      refine .inr ⟨e, List.mem_cons_self, id, padding, data, isDelete, ?_, hv, hmem, hrec, hm⟩
      rw [search, hround, if_pos rfl]
    · rw [if_neg hkk] at hround
      have hskip : search S s.keyLen s.dataStore key (e :: l) =
          search S s.keyLen s.dataStore key l := by
        rw [search, hround]
      rw [hskip]
      rcases ih (fun e' he' => hl e' (List.mem_cons_of_mem e he')) with ⟨hnone, hall⟩ | hfound
      · refine .inl ⟨hnone, fun e' he' => ?_⟩
        rcases List.mem_cons.mp he' with rfl | he'
        · -- the record under the id of this candidate is the one of another key
          intro id' hv' hin
          obtain rfl := hv.unique hv'
          obtain ⟨-, -, -, padding', data', isDelete', hrec', -⟩ := h.record key id hin
          have hround' := readMatch_entry hrec' hv hid hkey hkey (h.record key id hin).2.2.1
          rw [if_pos rfl, hround] at hround'
          cases hround'
        · exact hall e' he'
      · obtain ⟨e', he', hrest⟩ := hfound
        exact .inr ⟨e', List.mem_cons_of_mem e he', hrest⟩

end Search

section Operations

variable {H C D : Type} {T : HashTable H C} {S : DataStore D} {hT : T.Contract} {hS : S.Contract}
  {s : FawnDSSF H D} {m : TombMap} {L : Set (Value × Nat)} {key data : Value} {padding : Nat}
  {isDelete : Bool}

theorem invalidKey_of_wellFormed (hkey : WellFormed s.keyLen key) : s.invalidKey key = false := by
  by_cases hfix : s.keyLen = 0
  · simp [invalidKey, hfix, hkey.1]
  · simp [invalidKey, hfix, hkey.2 hfix]

/-- The search over what `Find` returns: the record of the key, or the key has no pair. -/
theorem find_cases (h : Represents hT hS s m L) (hkey : WellFormed s.keyLen key)
    (hadmits : hT.admits key) :
    ∃ l, T.find s.hashTable key = some l ∧
    ((search S s.keyLen s.dataStore key l = none ∧ ∀ id, (key, id) ∉ L) ∨
    ∃ e ∈ l, ∃ id padding data isDelete,
      search S s.keyLen s.dataStore key l =
        some (e.1, e.2, header s.keyLen padding key isDelete) ∧
      Denotes e.2 id ∧ (key, id) ∈ L ∧
      hS.Holds s.dataStore id (entry s.keyLen padding key data isDelete) ∧
      m key = some (if isDelete then none else some data)) := by
  obtain ⟨l, hfind, hall, honly⟩ := hT.find h.table hadmits
  refine ⟨l, hfind, ?_⟩
  rcases search_cases h hkey honly with ⟨hnone, hno⟩ | hfound
  · refine .inl ⟨hnone, fun id hmem => ?_⟩
    obtain ⟨e, he, hv⟩ := hall id hmem
    exact hno e he id hv hmem
  · exact .inr hfound

/-- After the search, `Get` returns the data of the record or its tombstone. -/
theorem readData_entry {v : Value} {id : Nat}
    (hrec : hS.Holds s.dataStore id (entry s.keyLen padding key data isDelete)) (hv : Denotes v id)
    (hid : id < 2 ^ 31) (hkey : key ≠ []) :
    readData S s key v (header s.keyLen padding key isDelete) 0 maxLen =
      some (answer (some (if isDelete then none else some data))) := by
  have hlen : (entry s.keyLen padding key data isDelete).length = dhSize + key.length + data.length :=
    length_entry
  have hlt := hS.length_lt hrec
  have hpos : 0 < key.length := List.length_pos_iff.mpr hkey
  rw [readData, hS.length hrec hv hid]
  simp only [headerType_header]
  cases isDelete with
  | true => rfl
  | false =>
    have hdata : ((entry s.keyLen padding key data false).length + 2 * 2 ^ 64 - dhSize - key.length) %
        2 ^ 64 = data.length := by
      rw [hlen] at hlt ⊢
      simp only [dhSize] at hlt ⊢
      omega
    have hmax : data.length < (0 + maxLen) % 2 ^ 64 := by
      rw [hlen] at hlt
      simp only [dhSize] at hlt
      simp only [maxLen]
      omega
    have hread : S.get s.dataStore v (dhSize + key.length + 0) (data.length - 0) = .ok data := by
      rw [hS.get hrec hv hid (by omega), Nat.add_zero, entry_data, Nat.sub_zero, List.take_length]
    rw [if_neg (by decide), if_neg (by decide)]
    simp only [hdata, if_neg (Nat.not_lt_zero _), if_pos hmax, hread]
    rfl

/-- `Get` answers with the entry of the map. -/
theorem get_of_represents (h : Represents hT hS s m L) (hkey : WellFormed s.keyLen key)
    (hadmits : hT.admits key) : get T S s key 0 maxLen = some (answer (m key)) := by
  obtain ⟨l, hfind, hcases⟩ := find_cases h hkey hadmits
  rw [get, invalidKey_of_wellFormed hkey, hfind]
  rcases hcases with ⟨hnone, hno⟩ | ⟨e, -, id, padding, data, isDelete, hsome, hv, hmem, hrec, hm⟩
  · have hm : m key = none := by
      by_contra hne
      obtain ⟨id, hmem⟩ := h.stored key hne
      exact hno id hmem
    rw [hm]
    simp [hnone, answer]
  · rw [hm, ← readData_entry hrec hv (h.record key id hmem).1 hkey.1]
    simp [hsome]

/-- Records are only added to the data store: the pairs keep their entries. -/
theorem Represents.frame (h : Represents hT hS s m L) {d : D} (hgood : hS.Good d)
    (hkeep : ∀ id r, hS.Holds s.dataStore id r → hS.Holds d id r) :
    Represents hT hS { s with dataStore := d } m L := by
  refine ⟨h.table, hgood, fun key id hmem => ?_, h.unique, h.stored⟩
  obtain ⟨hid, hwf, hshort, padding, data, isDelete, hrec, hm⟩ := h.record key id hmem
  exact ⟨hid, hwf, hshort, padding, data, isDelete, hkeep id _ hrec, hm⟩

/-- What `InsertEntry` writes: the old records are kept, and a new one has an id of its own. -/
theorem writeEntry_spec (h : Represents hT hS s m L) (newObj : Bool) {ret : FawnDSReturn} {v : Value}
    {d : D} (hwrite : writeEntry S s padding key data isDelete newObj = (ret, v, d))
    (hnext : ret = .ok → ∀ id, Denotes v id → id < 2 ^ 31) :
    hS.Good d ∧ (∀ id r, hS.Holds s.dataStore id r → hS.Holds d id r) ∧ ret ≠ .keyNotFound ∧
      (ret = .ok → ∃ id, Denotes v id ∧ (∀ e ∈ L, e.2 ≠ id) ∧
        hS.Holds d id (entry s.keyLen padding key data isDelete)) := by
  have hbefore : ∀ d₀, hS.Good d₀ → (∀ id r, hS.Holds s.dataStore id r ↔ hS.Holds d₀ id r) →
      S.append d₀ (entry s.keyLen padding key data isDelete) = (ret, v, d) →
      hS.Good d ∧ (∀ id r, hS.Holds s.dataStore id r → hS.Holds d id r) ∧ ret ≠ .keyNotFound ∧
      (ret = .ok → ∃ id, Denotes v id ∧ (∀ e ∈ L, e.2 ≠ id) ∧
        hS.Holds d id (entry s.keyLen padding key data isDelete)) := by
    intro d₀ hgood₀ hsame happend
    obtain ⟨hgood, hkeep, hcode, hok⟩ := hS.append hgood₀ happend hnext
    refine ⟨hgood, fun id r hr => hkeep id r ((hsame id r).mp hr), hcode, fun hret => ?_⟩
    obtain ⟨id, hv, hfresh, hrec⟩ := hok hret
    refine ⟨id, hv, ?_, hrec⟩
    rintro ⟨key', id'⟩ hmem rfl
    obtain ⟨-, -, -, padding', data', isDelete', hold, -⟩ := h.record key' id' hmem
    exact hfresh _ ((hsame _ _).mp hold)
  cases newObj with
  | true => exact hbefore s.dataStore h.good (fun _ _ => Iff.rfl) hwrite
  | false =>
    obtain ⟨hgood, hsame⟩ := hS.delete h.good key
    exact hbefore _ hgood hsame hwrite

/-- The pair of the new record stands for the key, in place of the old one if there was one. -/
theorem Represents.insert (h : Represents hT hS s m L) (hkey : WellFormed s.keyLen key)
    (hshort : Short s.keyLen key) {L' : Set (Value × Nat)} {h' : H} {d : D} {id ne na : Nat}
    (htable : hT.Holds h' (insert (key, id) L')) (hgood : hS.Good d) (hid : id < 2 ^ 31)
    (hkeep : ∀ id r, hS.Holds s.dataStore id r → hS.Holds d id r)
    (hrec : hS.Holds d id (entry s.keyLen padding key data isDelete))
    (hsub : ∀ e ∈ L', e ∈ L ∧ e.1 ≠ key) (hsup : ∀ e ∈ L, e.1 ≠ key → e ∈ L') :
    Represents hT hS { s with hashTable := h', dataStore := d, numElements := ne, numActiveElements := na }
      (Function.update m key (some (if isDelete then none else some data)))
      (insert (key, id) L') := by
  refine ⟨htable, hgood, ?_, ?_, ?_⟩
  · intro key' id' hmem
    rcases Set.mem_insert_iff.mp hmem with heq | hold
    · obtain ⟨rfl, rfl⟩ := Prod.mk.inj heq
      exact ⟨hid, hkey, hshort, padding, data, isDelete, hrec, Function.update_self ..⟩
    · obtain ⟨hin, hne⟩ := hsub _ hold
      obtain ⟨hid', hwf, hshort', padding', data', isDelete', hrec', hm⟩ := h.record key' id' hin
      refine ⟨hid', hwf, hshort', padding', data', isDelete', hkeep id' _ hrec', ?_⟩
      rw [Function.update_of_ne hne]
      exact hm
  · intro key' id₁ id₂ h₁ h₂
    rcases Set.mem_insert_iff.mp h₁ with heq₁ | hold₁ <;>
      rcases Set.mem_insert_iff.mp h₂ with heq₂ | hold₂
    · exact (Prod.mk.inj heq₁).2.trans (Prod.mk.inj heq₂).2.symm
    · exact absurd (Prod.mk.inj heq₁).1 (hsub _ hold₂).2
    · exact absurd (Prod.mk.inj heq₂).1 (hsub _ hold₁).2
    · exact h.unique key' id₁ id₂ (hsub _ hold₁).1 (hsub _ hold₂).1
  · intro key' hne
    by_cases hkk : key' = key
    · exact ⟨id, by rw [hkk]; exact Set.mem_insert _ _⟩
    · rw [Function.update_of_ne hkk] at hne
      obtain ⟨id', hmem⟩ := h.stored key' hne
      exact ⟨id', Set.mem_insert_of_mem _ (hsup _ hmem hkk)⟩

/-- What of the store `InsertEntry` can change: the data store has the record, and the hash table is
updated or left. -/
theorem insertEntry_frame {ret : FawnDSReturn} {s' : FawnDSSF H D}
    (h : insertEntry T S s padding key data isDelete = some (ret, s')) :
    s'.keyLen = s.keyLen ∧ s'.dataLen = s.dataLen ∧
      (∃ newObj, s'.dataStore = (writeEntry S s padding key data isDelete newObj).2.2) ∧
      (s'.hashTable = s.hashTable ∨
        ∃ hashIt v r, updateTable T s hashIt key v = some (r, s'.hashTable)) := by
  rw [insertEntry, Option.bind_eq_some_iff] at h
  obtain ⟨l, -, h⟩ := h
  simp only at h
  split at h
  · cases h
    exact ⟨rfl, rfl, ⟨_, rfl⟩, .inl rfl⟩
  · split at h
    · cases h
    · obtain ⟨⟨r, h'⟩, hupdate, hr⟩ := Option.map_eq_some_iff.mp h
      split at hr
      · cases hr
        exact ⟨rfl, rfl, ⟨_, rfl⟩, .inr ⟨_, _, r, hupdate⟩⟩
      · cases hr
        exact ⟨rfl, rfl, ⟨_, rfl⟩, .inr ⟨_, _, r, hupdate⟩⟩

/-- What `InsertEntry` can do: the entry is set, or nothing changes. -/
inductive Inserted (hT : T.Contract) (hS : S.Contract) (m : TombMap) (key data : Value)
    (isDelete : Bool) (ret : FawnDSReturn) (s : FawnDSSF H D) : Prop where
  | set (L : Set (Value × Nat)) (code : ret = .ok ∨ isDelete = true ∧ ret = .keyNotFound)
      (represents : Represents hT hS s
        (Function.update m key (some (if isDelete then none else some data))) L)
  | failed (L : Set (Value × Nat)) (not_ok : ret ≠ .ok) (not_keyNotFound : ret ≠ .keyNotFound)
      (represents : Represents hT hS s m L)

theorem number?_of_denotes {v : Value} {id : Nat} (hv : Denotes v id) (hid : id < 2 ^ 31) :
    (number? v).getD maxLen ≠ maxLen := by
  rw [hv.1, maxLen]
  simp only [Option.getD_some]
  omega

/-- The table after the update: the pair of the key is the new one, or nothing changed. -/
theorem updateTable_spec (h : Represents hT hS s m L) (hadmits : hT.admits key)
    {l : List (C × Value)} (hfind : T.find s.hashTable key = some l) {hashIt : Option C}
    (hcases : hashIt = none ∧ (∀ id, (key, id) ∉ L) ∨
      ∃ e ∈ l, hashIt = some e.1 ∧ ∃ old, Denotes e.2 old ∧ (key, old) ∈ L)
    {v : Value} {id : Nat} (hv : Denotes v id) (hid : id < 2 ^ 31) (hfresh : ∀ e ∈ L, e.2 ≠ id) :
    ∃ ret h', updateTable T s hashIt key v = some (ret, h') ∧
      (ret = .ok ∧ (∃ L', hT.Holds h' (insert (key, id) L') ∧ (∀ e ∈ L', e ∈ L ∧ e.1 ≠ key) ∧
        ∀ e ∈ L, e.1 ≠ key → e ∈ L') ∨
      ret ≠ .ok ∧ ret ≠ .keyNotFound ∧ hT.Holds h' L) := by
  rcases hcases with ⟨rfl, hno⟩ | ⟨e, he, rfl, old, hold, hmem⟩
  · obtain ⟨ret, h', hput, hres⟩ := hT.put h.table hadmits hv hid hfresh
    refine ⟨ret, h', hput,
      hres.imp (fun ⟨hok, hholds⟩ => ⟨hok, L, hholds, ?_, fun e he _ => he⟩) fun hno => hno⟩
    rintro ⟨key', id'⟩ hin
    refine ⟨hin, ?_⟩
    rintro rfl
    exact hno id' hin
  · obtain ⟨ret, h', hreplace, hres⟩ := hT.replace h.table hfind he hold hmem hv hid hfresh
    refine ⟨ret, h', hreplace, hres.imp (fun ⟨hok, hholds⟩ => ⟨hok, _, hholds, ?_, ?_⟩) fun hno => hno⟩
    · rintro ⟨key', id'⟩ ⟨hin, hne⟩
      refine ⟨hin, ?_⟩
      rintro rfl
      exact hne (Prod.ext rfl (h.unique _ _ _ hin hmem))
    · rintro ⟨key', id'⟩ hin hne
      refine ⟨hin, fun heq => hne ?_⟩
      exact (Prod.mk.inj heq).1

theorem insertEntry_spec (h : Represents hT hS s m L) (hkey : WellFormed s.keyLen key)
    (hshort : Short s.keyLen key) (hadmits : hT.admits key) (hnext : IdBelow S s padding key data isDelete) :
    ∃ ret s', insertEntry T S s padding key data isDelete = some (ret, s') ∧ s'.keyLen = s.keyLen ∧
      Inserted hT hS m key data isDelete ret s' := by
  obtain ⟨l, hfind, hcases⟩ := find_cases h hkey hadmits
  obtain ⟨⟨ret, v, d⟩, hwrite⟩ : ∃ w, writeEntry S s padding key data isDelete
    (search S s.keyLen s.dataStore key l).isNone = w := ⟨_, rfl⟩
  have hbelow : ret = .ok → ∀ id, Denotes v id → id < 2 ^ 31 := by
    rintro rfl id hv
    exact hnext _ _ _ _ hwrite hv
  obtain ⟨hgood, hkeep, hcode, hok⟩ := writeEntry_spec h _ hwrite hbelow
  rw [insertEntry, hfind, Option.bind_some]
  simp only [hwrite]
  by_cases hret : ret = .ok
  · subst hret
    obtain ⟨id, hv, hfresh, hrec⟩ := hok rfl
    have hid := hbelow rfl id hv
    have hplace : (search S s.keyLen s.dataStore key l).map Prod.fst = none ∧ (∀ id, (key, id) ∉ L) ∨
        ∃ e ∈ l, (search S s.keyLen s.dataStore key l).map Prod.fst = some e.1 ∧
          ∃ old, Denotes e.2 old ∧ (key, old) ∈ L := by
      rcases hcases with ⟨hnone, hno⟩ | ⟨e, he, old, _, _, _, hsome, hold, hmem, -⟩
      · exact .inl ⟨by rw [hnone]; rfl, hno⟩
      · exact .inr ⟨e, he, by rw [hsome]; rfl, old, hold, hmem⟩
    obtain ⟨ret', h', hupdate, hres⟩ := updateTable_spec h hadmits hfind hplace hv hid hfresh
    rw [if_neg (by simp), if_neg (number?_of_denotes hv hid), hupdate, Option.map_some]
    rcases hres with ⟨rfl, L', htable, hsub, hsup⟩ | ⟨hnot, hcode', htable⟩
    · refine ⟨_, _, rfl, rfl, .set _ ?_ (h.insert hkey hshort htable hgood hid hkeep hrec hsub hsup)⟩
      cases isDelete <;> cases (search S s.keyLen s.dataStore key l).isNone <;> simp
    · simp only [if_pos hnot]
      have hframe := h.frame hgood hkeep
      exact ⟨ret', _, rfl, rfl, .failed L hnot hcode'
        ⟨htable, hframe.good, hframe.record, hframe.unique, hframe.stored⟩⟩
  · rw [if_pos hret]
    exact ⟨ret, _, rfl, rfl, .failed L hret hcode (h.frame hgood hkeep)⟩

theorem put_spec (h : Represents hT hS s m L) (hkey : WellFormed s.keyLen key)
    (hshort : Short s.keyLen key) (hadmits : hT.admits key) (hnext : IdBelow S s padding key data false) :
    ∃ ret s', put T S s padding key data = some (ret, s') ∧ s'.keyLen = s.keyLen ∧
      Inserted hT hS m key data false ret s' := by
  have hvalid : ¬s.invalidKey key = true := by simp [invalidKey_of_wellFormed hkey]
  rw [put, if_neg hvalid]
  by_cases hdata : s.dataLen ≠ 0 ∧ s.dataLen ≠ data.length
  · rw [if_pos hdata]
    exact ⟨_, s, rfl, rfl, .failed L (by decide) (by decide) h⟩
  · rw [if_neg hdata]
    exact insertEntry_spec h hkey hshort hadmits hnext

theorem delete_spec (h : Represents hT hS s m L) (hkey : WellFormed s.keyLen key)
    (hshort : Short s.keyLen key) (hadmits : hT.admits key) (hnext : IdBelow S s padding key [] true) :
    ∃ ret s', delete T S s padding key = some (ret, s') ∧ s'.keyLen = s.keyLen ∧
      Inserted hT hS m key [] true ret s' := by
  have hvalid : ¬s.invalidKey key = true := by simp [invalidKey_of_wellFormed hkey]
  rw [delete, if_neg hvalid]
  exact insertEntry_spec h hkey hshort hadmits hnext

end Operations

section Runs

variable {H C D : Type} {T : HashTable H C} {S : DataStore D} {hT : T.Contract} {hS : S.Contract}
  {o : Observed H D} {c : Call}

/-- What holds of the store and its map in every state of a run. -/
def Inv (hT : T.Contract) (hS : S.Contract) (keyLen : Nat) (o : Observed H D) : Prop :=
  o.store.keyLen = keyLen ∧ ∃ L, Represents hT hS o.store o.map L

/-- A call of the runs that are considered. -/
structure Fits (hT : T.Contract) (keyLen : Nat) (o : Observed H D) (c : Call) : Prop where
  wellFormed : WellFormed keyLen c.op.key
  admits : hT.admits c.op.key
  short : Short keyLen c.op.key
  nextId : NextIdBelow S o c

theorem inv_start (hT : T.Contract) (hS : S.Contract) (keyLen dataLen : Nat) {h : H} {d : D}
    (hh : hT.Holds h ∅) (hd : hS.Good d) :
    Inv hT hS keyLen (start keyLen dataLen h d) := by
  refine ⟨rfl, ∅, hh, hd, ?_, ?_, ?_⟩
  · intro key id hmem
    exact absurd hmem (Set.notMem_empty _)
  · intro key id id' hmem
    exact absurd hmem (Set.notMem_empty _)
  · intro key hne
    exact absurd rfl hne

theorem inv_step {keyLen : Nat} (h : Inv hT hS keyLen o) (hc : Fits (S := S) hT keyLen o c) :
    ∃ o', step T S o c = some o' ∧ Inv hT hS keyLen o' := by
  obtain ⟨rfl, L, hrep⟩ := h
  obtain ⟨hkey, hadmits, hshort, hnext⟩ := hc
  rcases c with ⟨op, padding⟩
  cases op with
  | put key data =>
    change WellFormed _ key at hkey
    obtain ⟨ret, s', hput, hlen, hres⟩ :=
      put_spec hrep hkey hshort hadmits hnext
    refine ⟨_, step_put hput, hlen, ?_⟩
    cases hres with
    | set L' hcode hrep' =>
      obtain rfl : ret = .ok := by simpa using hcode
      exact ⟨L', hrep'⟩
    | failed L' hnot _ hrep' =>
      refine ⟨L', ?_⟩
      simpa [Op.apply, hnot] using hrep'
  | delete key =>
    change WellFormed _ key at hkey
    obtain ⟨ret, s', hdelete, hlen, hres⟩ :=
      delete_spec hrep hkey hshort hadmits hnext
    refine ⟨⟨s', (Op.delete key).apply o.map ret⟩, by simp only [step, hdelete, Option.map_some], hlen, ?_⟩
    cases hres with
    | set L' hcode hrep' =>
      refine ⟨L', ?_⟩
      have hcode' : ret = .ok ∨ ret = .keyNotFound := hcode.imp_right And.right
      simpa [Op.apply, hcode'] using hrep'
    | failed L' hnot hnot' hrep' =>
      refine ⟨L', ?_⟩
      simpa [Op.apply, hnot, hnot'] using hrep'
  | get key =>
    have hget : get T S o.store key 0 maxLen = _ := get_of_represents hrep hkey hadmits
    exact ⟨o, by simp only [step, hget, Option.map_some], rfl, L, hrep⟩

/-- Every `Get` of a well-formed key answers with the entry of the map. -/
def Refines (T : HashTable H C) (S : DataStore D) (hT : T.Contract) (o : Observed H D) : Prop :=
  ∀ key, WellFormed o.store.keyLen key → hT.admits key →
    get T S o.store key 0 maxLen = some (answer (o.map key))

theorem refines_of_inv {keyLen : Nat} (h : Inv hT hS keyLen o) : Refines T S hT o := by
  obtain ⟨-, L, hrep⟩ := h
  exact fun key hkey hadmits => get_of_represents hrep hkey hadmits

end Runs

end FawnDSSF

end FawnKV.Silt
