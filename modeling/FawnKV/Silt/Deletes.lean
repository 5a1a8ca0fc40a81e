import FawnKV.Silt.CombiRefinement
import FawnKV.Silt.Slices

/-! Which deletes are accepted: a tombstone has no data, and the data store may want records of one length. -/
namespace FawnKV.Silt

open ByteFile Transition

namespace FileStore

variable {s : FileStore} {data : Value}

theorem dataLen_append (s : FileStore) (data : Value) : (s.append data).2.2.dataLen = s.dataLen := by
  rw [append]
  split
  · rfl
  · simp only [writeAt]
    split <;> rfl

/-- The id of a record that is taken. -/
theorem append_ok (h : s.dataLen = 0 ∨ data.length = s.dataLen) :
    s.append data = (.ok, leBytes 8 s.nextAppendId, (s.append data).2.2) := by
  rw [append, if_neg]
  rintro ⟨hne, hlen⟩
  exact hlen (h.resolve_left hne).symm

theorem append_not_ok (h : ¬(s.dataLen = 0 ∨ data.length = s.dataLen)) :
    s.append data = (.invalidData, [], s) := by
  rw [not_or] at h
  rw [append, if_pos ⟨h.1, Ne.symm h.2⟩]

end FileStore

namespace FawnDSSF

section Create

variable {H : Type}

/-- The length that `Create` configures for the records of the data store; none is 0. -/
def storeLen (keyLen dataLen : Nat) : Nat :=
  if keyLen = 0 ∨ dataLen = 0 then 0 else dhSize + keyLen + dataLen

/-- `Create`, with a hash table that was created. -/
def create (keyLen dataLen : Nat) (h : H) : Observed H FileStore :=
  start keyLen dataLen h (FileStore.create (storeLen keyLen dataLen))

theorem storeLen_eq_zero {keyLen dataLen : Nat} : storeLen keyLen dataLen = 0 ↔ keyLen = 0 ∨ dataLen = 0 := by
  rw [storeLen, dhSize]
  split <;> omega

end Create

section Insert

variable {H C : Type} (T : HashTable H C) (uninit : Nat → UInt8)

/-- The hash table takes the id of the next record for the key: in the place of the key's record, or in
a new one. -/
def Takes (s : FawnDSSF H FileStore) (key : Value) : Prop :=
  ∃ l h, T.find s.hashTable key = some l ∧
    updateTable T s ((search (FileStore.dataStore uninit) s.keyLen s.dataStore key l).map Prod.fst) key
      (leBytes 8 s.dataStore.nextAppendId) = some (.ok, h)

variable {T uninit} {s s' : FawnDSSF H FileStore} {key data : Value} {padding : Nat} {isDelete : Bool}
  {ret : FawnDSReturn} {l : List (C × Value)} {h : H}

/-- The code of `InsertEntry` for a record that the log takes. -/
theorem insertEntry_code (padding : Nat) (data : Value) (isDelete : Bool)
    (hlog : s.dataStore.dataLen = 0 ∨ dhSize + key.length + data.length = s.dataStore.dataLen)
    (hid : s.dataStore.nextAppendId < 2 ^ 31) (hfind : T.find s.hashTable key = some l)
    (hupdate : updateTable T s
      ((search (FileStore.dataStore uninit) s.keyLen s.dataStore key l).map Prod.fst) key
      (leBytes 8 s.dataStore.nextAppendId) = some (ret, h)) :
    ∃ s', insertEntry T (FileStore.dataStore uninit) s padding key data isDelete =
      some (if ret ≠ .ok then ret
        else if isDelete && (search (FileStore.dataStore uninit) s.keyLen s.dataStore key l).isNone then
          .keyNotFound
        else .ok, s') := by
  have hok : (number? (leBytes 8 s.dataStore.nextAppendId)).getD maxLen ≠ maxLen :=
    number?_of_denotes (denotes_leBytes (.inr rfl) (by omega)) hid
  rw [insertEntry, hfind, Option.bind_some]
  simp only [FileStore.writeEntry_eq]
  rw [FileStore.append_ok (by rw [length_entry]; exact hlog)]
  simp only [ne_eq, not_true_eq_false, if_false, if_neg hok, hupdate, Option.map_some]
  by_cases hret : ret = .ok
  · simp only [hret, not_true_eq_false, if_false]
    exact ⟨_, rfl⟩
  · simp only [hret, not_false_eq_true, if_true]
    exact ⟨_, rfl⟩

/-- A record that the log does not take. -/
theorem insertEntry_invalidData
    (hlog : ¬(s.dataStore.dataLen = 0 ∨ dhSize + key.length + data.length = s.dataStore.dataLen))
    (hfind : T.find s.hashTable key = some l) :
    insertEntry T (FileStore.dataStore uninit) s padding key data isDelete = some (.invalidData, s) := by
  rw [insertEntry, hfind, Option.bind_some]
  simp only [FileStore.writeEntry_eq]
  rw [FileStore.append_not_ok (by rw [length_entry]; exact hlog)]
  rfl

/-- Where a `Put` is acknowledged, the table took the id. -/
theorem takes_of_put (hput : put T (FileStore.dataStore uninit) s padding key data = some (.ok, s')) :
    Takes T uninit s key := by
  rw [put] at hput
  split at hput
  · cases hput
  split at hput
  · cases hput
  rw [insertEntry, Option.bind_eq_some_iff] at hput
  obtain ⟨l, hfind, hput⟩ := hput
  simp only [FileStore.writeEntry_eq] at hput
  by_cases hlog : s.dataStore.dataLen = 0 ∨
      (entry s.keyLen padding key data false).length = s.dataStore.dataLen
  · rw [FileStore.append_ok hlog] at hput
    simp only [ne_eq, not_true_eq_false, if_false] at hput
    split at hput
    · cases hput
    obtain ⟨⟨ret, h⟩, hupdate, hcode⟩ := Option.map_eq_some_iff.mp hput
    refine ⟨l, h, hfind, ?_⟩
    by_cases hret : ret = .ok
    · rw [hupdate, hret]
    · simp only [if_pos hret] at hcode
      exact absurd (Prod.mk.inj hcode).1 hret
  · rw [FileStore.append_not_ok hlog] at hput
    cases hput

end Insert

section Reached

variable {H C : Type} {T : HashTable H C} {hT : T.Contract} {uninit : Nat → UInt8} {keyLen dataLen : Nat}
  {o o' : Observed H FileStore} {call : Call} {key : Value}

/-- What holds after any calls on a store that was created with these lengths. -/
structure Reached (hT : T.Contract) (uninit : Nat → UInt8) (keyLen dataLen : Nat)
    (o : Observed H FileStore) : Prop where
  storeLen : o.store.dataStore.dataLen = storeLen keyLen dataLen
  fixed : FawnDSSF.storeLen keyLen dataLen ≠ 0 → Inv hT (FileStore.contract uninit) keyLen o
  anyLength : FawnDSSF.storeLen keyLen dataLen = 0 → Inv hT (FileStore.anyLengthContract uninit) keyLen o

theorem Reached.keyLen_eq (h : Reached hT uninit keyLen dataLen o) : o.store.keyLen = keyLen := by
  by_cases hzero : FawnDSSF.storeLen keyLen dataLen = 0
  · exact (h.anyLength hzero).1
  · exact (h.fixed hzero).1

theorem reached_create (uninit : Nat → UInt8) (hkeyLen : keyLen < 2 ^ 31) (hdataLen : dataLen < 2 ^ 31) {t : H}
    (ht : hT.Holds t ∅) : Reached hT uninit keyLen dataLen (create keyLen dataLen t) := by
  refine ⟨rfl, fun hne => ?_, fun hzero => ?_⟩
  · have hlt : FawnDSSF.storeLen keyLen dataLen < 2 ^ 64 := by
      rw [FawnDSSF.storeLen, dhSize]
      split <;> omega
    exact inv_start hT _ keyLen dataLen ht ⟨FileStore.create_log hne hlt, Nat.zero_le _⟩
  · exact inv_start hT _ keyLen dataLen ht
      ⟨hzero, Nat.two_pow_pos 63, [], FileStore.Records.create (by rw [hzero]; decide)⟩

theorem invalidKey_of_not_wellFormed {s : FawnDSSF H FileStore} (hkey : ¬WellFormed s.keyLen key) :
    s.invalidKey key = true := by
  by_contra hvalid
  refine hkey ⟨?_, fun hne => ?_⟩
  · rintro rfl
    exact hvalid (by simp [invalidKey])
  · by_contra hlen
    exact hvalid (by simp [invalidKey, hne, Ne.symm hlen])

theorem step_malformed (hkey : ¬WellFormed o.store.keyLen call.op.key)
    (hstep : step T (FileStore.dataStore uninit) o call = some o') : o' = o := by
  have hbad := invalidKey_of_not_wellFormed hkey
  rcases call with ⟨op, padding⟩
  cases op with
  | put key data =>
    simp only [step, put, show o.store.invalidKey key = true from hbad, if_true, Option.map_some] at hstep
    cases hstep
    rfl
  | delete key =>
    simp only [step, delete, show o.store.invalidKey key = true from hbad, if_true, Option.map_some] at hstep
    cases hstep
    rfl
  | get key =>
    obtain ⟨_, -, rfl⟩ := Option.map_eq_some_iff.mp hstep
    rfl

theorem reached_step (h : Reached hT uninit keyLen dataLen o)
    (hcall : WellFormed keyLen call.op.key → hT.admits call.op.key ∧ Short keyLen call.op.key)
    (hstep : step T (FileStore.dataStore uninit) o call = some o')
    (hnext : o.store.dataStore.nextAppendId < 2 ^ 31)
    (hrecord : FawnDSSF.storeLen keyLen dataLen = 0 → step T (FileStore.shortStore uninit) o call = some o') :
    Reached hT uninit keyLen dataLen o' := by
  by_cases hkey : WellFormed keyLen call.op.key
  · obtain ⟨hadmits, hshort⟩ := hcall hkey
    refine ⟨?_, fun hne => ?_, fun hzero => ?_⟩
    · obtain ⟨-, -, hsame | ⟨data, happend⟩⟩ := FileStore.step_store hstep
      · rw [hsame, h.storeLen]
      · rw [happend, FileStore.dataLen_append, h.storeLen]
    · have hbelow : NextIdBelow (FileStore.dataStore uninit) o call := by
        rcases call with ⟨op, padding⟩
        cases op with
        | put key data => exact FileStore.idBelow_of_lt hnext padding key data false
        | delete key => exact FileStore.idBelow_of_lt hnext padding key [] true
        | get key => exact trivial
      obtain ⟨u, hu, hinv⟩ := inv_step (h.fixed hne) ⟨hkey, hadmits, hshort, hbelow⟩
      rw [hstep] at hu
      cases hu
      exact hinv
    · have hbelow : NextIdBelow (FileStore.shortStore uninit) o call := by
        rcases call with ⟨op, padding⟩
        cases op with
        | put key data => exact idBelow_shortStore hnext padding key data false
        | delete key => exact idBelow_shortStore hnext padding key [] true
        | get key => exact trivial
      obtain ⟨u, hu, hinv⟩ := inv_step (h.anyLength hzero) ⟨hkey, hadmits, hshort, hbelow⟩
      rw [hrecord hzero] at hu
      cases hu
      exact hinv
  · rw [step_malformed (h.keyLen_eq ▸ hkey) hstep]
    exact h

/-- The same, when the log stays shorter than `2 ^ 31`. -/
theorem reached_step_of_lt (h : Reached hT uninit keyLen dataLen o)
    (hcall : WellFormed keyLen call.op.key → hT.admits call.op.key ∧ Short keyLen call.op.key)
    (hstep : step T (FileStore.dataStore uninit) o call = some o')
    (hid : o'.store.dataStore.nextAppendId < 2 ^ 31) : Reached hT uninit keyLen dataLen o' :=
  reached_step h hcall hstep (Nat.lt_of_le_of_lt (FileStore.step_nextAppendId hstep) hid) fun hzero =>
    step_shortStore (h.storeLen.trans hzero) hstep hid

theorem reached_run {calls : List Call} (hs : Reached hT uninit keyLen dataLen o)
    (hcalls : ∀ c ∈ calls, WellFormed keyLen c.op.key → hT.admits c.op.key ∧ Short keyLen c.op.key)
    (hrun : run (step T (FileStore.dataStore uninit)) o calls = some o')
    (hid : o'.store.dataStore.nextAppendId < 2 ^ 31) : Reached hT uninit keyLen dataLen o' := by
  have hbelow := meets_of_le (f := fun o : Observed H FileStore => o.store.dataStore.nextAppendId)
    (fun _ _ _ => FileStore.step_nextAppendId) hrun hid
  refine run_invariant_of_meets ?_ hrun ((meets_of_forall_mem hcalls o).and hbelow) hs
  rintro o c o' hstep ⟨hcall, hlt⟩ hinv
  exact reached_step_of_lt hinv hcall hstep (hlt o' hstep)

end Reached

section Accepted

variable {H C : Type} (T : HashTable H C) (uninit : Nat → UInt8)

/-- `Delete` returns `OK`, or `KEY_NOT_FOUND` for an absent key, and then `Get` does not return `OK`. -/
def DeleteAccepted (s : FawnDSSF H FileStore) (padding : Nat) (key : Value) : Prop :=
  ∃ ret s', delete T (FileStore.dataStore uninit) s padding key = some (ret, s') ∧
    (ret = .ok ∨
      ret = .keyNotFound ∧ get T (FileStore.dataStore uninit) s key 0 maxLen = some (.error .keyNotFound)) ∧
    ∀ data, get T (FileStore.dataStore uninit) s' key 0 maxLen ≠ some (.ok data)

variable {T uninit} {hT : T.Contract} {keyLen dataLen : Nat} {o : Observed H FileStore} {key : Value}
  {padding : Nat}

/-- What the table makes of the id of the next record. -/
theorem update_cases {s : FawnDSSF H FileStore} {m : TombMap} {L : Set (Value × Nat)}
    (h : Represents hT (FileStore.anyLengthContract uninit) s m L) (hkey : WellFormed s.keyLen key)
    (hadmits : hT.admits key) (hid : s.dataStore.nextAppendId < 2 ^ 31) :
    ∃ l ret t, T.find s.hashTable key = some l ∧ updateTable T s
        ((search (FileStore.dataStore uninit) s.keyLen s.dataStore key l).map Prod.fst) key
        (leBytes 8 s.dataStore.nextAppendId) = some (ret, t) ∧ ret ≠ .keyNotFound ∧
      (search (FileStore.dataStore uninit) s.keyLen s.dataStore key l = none → m key = none) := by
  obtain ⟨l, hfind, hcases⟩ := find_cases h hkey hadmits
  rw [search_shortStore] at hcases
  have hv : Denotes (leBytes 8 s.dataStore.nextAppendId) s.dataStore.nextAppendId :=
    denotes_leBytes (.inr rfl) (by omega)
  obtain ⟨hvar, -, recs, hrec⟩ := h.good
  have hfresh : ∀ e ∈ L, e.2 ≠ s.dataStore.nextAppendId := by
    rintro ⟨key', id⟩ hmem rfl
    obtain ⟨-, -, -, padding', data, isDelete, ⟨-, pre, post, hold, hpre⟩, -⟩ := h.record key' _ hmem
    have hlt := hold.lt_endId
    have hend := hrec.nextAppendId.trans hrec.endId.symm
    omega
  have hplace : (search (FileStore.dataStore uninit) s.keyLen s.dataStore key l).map Prod.fst = none ∧
      (∀ id, (key, id) ∉ L) ∨
      ∃ e ∈ l, (search (FileStore.dataStore uninit) s.keyLen s.dataStore key l).map Prod.fst = some e.1 ∧
        ∃ old, Denotes e.2 old ∧ (key, old) ∈ L := by
    rcases hcases with ⟨hnone, hno⟩ | ⟨e, he, old, _, _, _, hsome, hold, hmem, -⟩
    · exact .inl ⟨by rw [hnone]; rfl, hno⟩
    · exact .inr ⟨e, he, by rw [hsome]; rfl, old, hold, hmem⟩
  obtain ⟨ret, t, hupdate, hres⟩ := updateTable_spec h hadmits hfind hplace hv hid hfresh
  refine ⟨l, ret, t, hfind, hupdate, ?_, fun hnone => ?_⟩
  · rcases hres with ⟨rfl, -⟩ | ⟨-, hnot, -⟩
    · decide
    · exact hnot
  · rcases hcases with ⟨-, hno⟩ | ⟨e, -, id, _, _, _, hsome, -⟩
    · by_contra hne
      obtain ⟨id, hmem⟩ := h.stored key hne
      exact hno id hmem
    · rw [hnone] at hsome
      cases hsome

/-- Every call for a key that the table admits comes back. -/
theorem Reached.insertEntry_returns (h : Reached hT uninit keyLen dataLen o) (hkey : WellFormed keyLen key)
    (hshort : Short keyLen key) (hadmits : hT.admits key) (hid : o.store.dataStore.nextAppendId < 2 ^ 31)
    (padding : Nat) (data : Value) (isDelete : Bool) :
    ∃ r, insertEntry T (FileStore.dataStore uninit) o.store padding key data isDelete = some r := by
  rw [← h.keyLen_eq] at hkey hshort
  by_cases hzero : FawnDSSF.storeLen keyLen dataLen = 0
  · obtain ⟨-, L, hrep⟩ := h.anyLength hzero
    obtain ⟨l, ret, t, hfind, hupdate, -⟩ := update_cases hrep hkey hadmits hid
    obtain ⟨s', hinsert⟩ :=
        insertEntry_code padding data isDelete (.inl (h.storeLen.trans hzero)) hid hfind hupdate
    exact ⟨_, hinsert⟩
  · obtain ⟨-, L, hrep⟩ := h.fixed hzero
    obtain ⟨ret, s', hinsert, -⟩ := insertEntry_spec hrep hkey hshort hadmits
      (FileStore.idBelow_of_lt hid padding key data isDelete)
    exact ⟨_, hinsert⟩

/-- The tombstone that was written is what `Get` finds. -/
theorem Reached.get_deleted (h : Reached hT uninit keyLen dataLen o)
    (hzero : FawnDSSF.storeLen keyLen dataLen = 0)
    (hkeyLen : keyLen < 2 ^ 31) (hkey : WellFormed keyLen key) (hshort : Short keyLen key)
    (hadmits : hT.admits key) (hid : o.store.dataStore.nextAppendId < 2 ^ 31) {ret : FawnDSReturn}
    {s' : FawnDSSF H FileStore}
    (hinsert : insertEntry T (FileStore.dataStore uninit) o.store padding key [] true = some (ret, s'))
    (hret : ret = .ok ∨ ret = .keyNotFound) :
    get T (FileStore.dataStore uninit) s' key 0 maxLen = some (.error .keyDeleted) := by
  have hentry : (entry o.store.keyLen padding key [] true).length < 2 ^ 32 := by
    rw [length_entry, List.length_nil, dhSize]
    by_cases hfree : keyLen = 0
    · have := hshort hfree
      omega
    · rw [hkey.2 hfree]
      omega
  rw [← h.keyLen_eq] at hkey hshort
  obtain ⟨-, L, hrep⟩ := h.anyLength hzero
  obtain ⟨ret', s'', hspec, hlen, hres⟩ := insertEntry_spec hrep hkey hshort hadmits
    (idBelow_shortStore hid padding key [] true)
  rw [insertEntry_shortStore hentry, hinsert] at hspec
  obtain ⟨rfl, rfl⟩ := Prod.mk.inj (Option.some.inj hspec)
  cases hres with
  | set L' _ hrep' =>
    rw [← get_shortStore, get_of_represents hrep' (hlen ▸ hkey) hadmits, Function.update_self]
    rfl
  | failed L' hnot hnot' _ =>
    rcases hret with hret | hret
    · exact absurd hret hnot
    · exact absurd hret hnot'

/-- A `Delete` over a log of records of any length comes down to the update of the table. -/
theorem Reached.delete_variable (h : Reached hT uninit keyLen dataLen o)
    (hzero : FawnDSSF.storeLen keyLen dataLen = 0) (hkey : WellFormed keyLen key) (hadmits : hT.admits key)
    (hid : o.store.dataStore.nextAppendId < 2 ^ 31) (padding : Nat) :
    ∃ ret s', insertEntry T (FileStore.dataStore uninit) o.store padding key [] true = some (ret, s') ∧
      (Takes T uninit o.store key ∧ (ret = .ok ∨ ret = .keyNotFound ∧
        get T (FileStore.dataStore uninit) o.store key 0 maxLen = some (.error .keyNotFound)) ∨
      ¬Takes T uninit o.store key ∧ ret ≠ .ok ∧ ret ≠ .keyNotFound) := by
  rw [← h.keyLen_eq] at hkey
  obtain ⟨-, L, hrep⟩ := h.anyLength hzero
  obtain ⟨l, ret, t, hfind, hupdate, hne, habsent⟩ := update_cases hrep hkey hadmits hid
  obtain ⟨s', hinsert⟩ := insertEntry_code padding [] true (.inl (h.storeLen.trans hzero)) hid hfind hupdate
  refine ⟨_, s', hinsert, ?_⟩
  by_cases hret : ret = .ok
  · subst hret
    refine .inl ⟨⟨l, t, hfind, hupdate⟩, ?_⟩
    cases hsearch : search (FileStore.dataStore uninit) o.store.keyLen o.store.dataStore key l with
    | none =>
      refine .inr ⟨rfl, ?_⟩
      rw [← get_shortStore, get_of_represents hrep hkey hadmits, habsent hsearch]
      rfl
    | some found => exact .inl rfl
  · rw [if_pos hret]
    refine .inr ⟨?_, hret, hne⟩
    rintro ⟨l', t', hfind', hupdate'⟩
    rw [hfind] at hfind'
    cases hfind'
    rw [hupdate] at hupdate'
    exact hret (Prod.mk.inj (Option.some.inj hupdate')).1

/-- The record of a tombstone is shorter than those that a log of fixed-length records takes. -/
theorem Reached.delete_fixed (h : Reached hT uninit keyLen dataLen o)
    (hne : FawnDSSF.storeLen keyLen dataLen ≠ 0)
    (hkey : WellFormed keyLen key) (hadmits : hT.admits key) (padding : Nat) :
    insertEntry T (FileStore.dataStore uninit) o.store padding key [] true = some (.invalidData, o.store) := by
  have hboth := mt storeLen_eq_zero.mpr hne
  obtain ⟨hlen, L, hrep⟩ := h.fixed hne
  obtain ⟨l, hfind, -⟩ := find_cases hrep (hlen ▸ hkey) hadmits
  refine insertEntry_invalidData ?_ hfind
  rw [h.storeLen, FawnDSSF.storeLen, if_neg hboth, List.length_nil, dhSize]
  rw [not_or] at hboth
  rw [hkey.2 hboth.1]
  omega

/-- What a `Delete` does: it is accepted, or its code is an error. -/
theorem Reached.delete_cases (h : Reached hT uninit keyLen dataLen o) (hkeyLen : keyLen < 2 ^ 31)
    (hkey : WellFormed keyLen key) (hshort : Short keyLen key) (hadmits : hT.admits key)
    (hid : o.store.dataStore.nextAppendId < 2 ^ 31) (padding : Nat) :
    ∃ ret s', delete T (FileStore.dataStore uninit) o.store padding key = some (ret, s') ∧
      (((keyLen = 0 ∨ dataLen = 0) ∧ Takes T uninit o.store key) ∧
        (ret = .ok ∨ ret = .keyNotFound ∧
          get T (FileStore.dataStore uninit) o.store key 0 maxLen = some (.error .keyNotFound)) ∧
        get T (FileStore.dataStore uninit) s' key 0 maxLen = some (.error .keyDeleted) ∨
      ¬((keyLen = 0 ∨ dataLen = 0) ∧ Takes T uninit o.store key) ∧ ret ≠ .ok ∧ ret ≠ .keyNotFound) := by
  have hdelete : delete T (FileStore.dataStore uninit) o.store padding key =
      insertEntry T (FileStore.dataStore uninit) o.store padding key [] true := by
    rw [delete, invalidKey_of_wellFormed (h.keyLen_eq ▸ hkey)]
    rfl
  rw [hdelete, ← storeLen_eq_zero]
  by_cases hzero : FawnDSSF.storeLen keyLen dataLen = 0
  · obtain ⟨ret, s', hinsert, ⟨htakes, hok⟩ | ⟨htakes, hnot⟩⟩ :=
        h.delete_variable hzero hkey hadmits hid padding
    · exact ⟨ret, s', hinsert, .inl ⟨⟨hzero, htakes⟩, hok,
        h.get_deleted hzero hkeyLen hkey hshort hadmits hid hinsert (hok.imp_right And.left)⟩⟩
    · exact ⟨ret, s', hinsert, .inr ⟨fun hboth => htakes hboth.2, hnot⟩⟩
  · exact ⟨.invalidData, o.store, h.delete_fixed hzero hkey hadmits padding,
      .inr ⟨fun hboth => hzero hboth.1, by decide, by decide⟩⟩

/-- Where a `Put` is acknowledged, a `Delete` is accepted exactly if the log takes records of any length. -/
theorem Reached.deleteAccepted_iff (h : Reached hT uninit keyLen dataLen o) (hkeyLen : keyLen < 2 ^ 31)
    (hkey : WellFormed keyLen key) (hshort : Short keyLen key) (hadmits : hT.admits key)
    (hid : o.store.dataStore.nextAppendId < 2 ^ 31) (htakes : Takes T uninit o.store key) (padding : Nat) :
    DeleteAccepted T uninit o.store padding key ↔ keyLen = 0 ∨ dataLen = 0 := by
  obtain ⟨ret, s', hdelete, ⟨hboth, hok, hget⟩ | ⟨hnot, hne, hne'⟩⟩ :=
    h.delete_cases hkeyLen hkey hshort hadmits hid padding
  · refine iff_of_true ⟨ret, s', hdelete, hok, fun data => ?_⟩ hboth.1
    rw [hget]
    exact nofun
  · refine iff_of_false ?_ fun hlens => hnot ⟨hlens, htakes⟩
    rintro ⟨ret', s'', hdelete', hok, -⟩
    rw [hdelete] at hdelete'
    obtain ⟨rfl, rfl⟩ := Prod.mk.inj (Option.some.inj hdelete')
    rcases hok with hok | ⟨hok, -⟩
    · exact hne hok
    · exact hne' hok

end Accepted

end FawnDSSF

namespace FawnDSCombi

section Fronts

variable {F M B : Type} {c : Config} {ch : Children F M B} {uninit : Nat → UInt8}
  {s t : State F M B} {l : Label}

/-- The front stores, newest first. -/
def State.fronts (s : State F M B) : List F := s.stage0.map Prod.snd

/-- Where the front stores of the next state come from. -/
inductive FromFront (c : Config) (ch : Children F M B) (s : State F M B) (f : F) : Prop where
  | kept (h : f ∈ s.fronts)
  | created (h : f = ch.createFront)
  | put (g : F) (call : Call) (h : g ∈ s.fronts) (hcall : call ∈ s.calls)
      (hf : f = (ch.putFront g call.key call.data).2)
  | deleted (g : F) (key : Value) (h : g ∈ s.fronts) (hkey : key.length = c.keyLen)
      (hf : f = (ch.deleteFront g key).2)

/-- Only the client calls and the swap of a conversion touch the front stores. -/
theorem fromFront_step (hstep : step c ch uninit s l = some t) : ∀ f ∈ t.fronts, FromFront c ch s f := by
  intro f hf
  rw [State.fronts] at hf
  have hkept : t.stage0 = s.stage0 → FromFront c ch s f :=
      fun h0 => .kept (by rw [State.fronts, ← h0]; exact hf)
  have hrest : ∀ {a g rest}, s.stage0 = (a, g) :: rest → f ∈ rest.map Prod.snd → FromFront c ch s f := by
    intro a g rest hs hf
    refine .kept ?_
    rw [State.fronts, hs]
    exact List.mem_cons_of_mem g hf
  have hhead : ∀ {a g rest}, s.stage0 = (a, g) :: rest → g ∈ s.fronts := by
    intro a g rest hs
    rw [State.fronts, hs]
    exact List.mem_cons_self
  cases stageStep_of_step hstep with
  | kept hkeeps => exact hkept hkeeps.stage0
  | put a g rest call hcall hs h0 _ _ =>
    rw [h0] at hf
    rcases List.mem_cons.mp hf with hf | hf
    · exact .put g call (hhead hs) hcall hf
    · exact hrest hs hf
  | deleted a g rest key hkey hs h0 _ _ _ =>
    rw [h0] at hf
    rcases List.mem_cons.mp hf with hf | hf
    · exact .deleted g key (hhead hs) hkey hf
    · exact hrest hs hf
  | created a _ h0 _ _ =>
    rw [h0] at hf
    rcases List.mem_cons.mp hf with hf | hf
    · exact .created hf
    · exact .kept hf
  | converted _ _ _ _ _ _ _ h0 _ _ => exact hkept h0
  | swapped _ _ h0 _ _ =>
    rw [h0] at hf
    exact .kept (List.map_subset _ (List.dropLast_subset _) hf)
  | merged _ h0 _ _ => exact hkept h0

end Fronts

section Deletes

variable {H C M B : Type} {c : Config} {T : HashTable H C} {uninit : Nat → UInt8} {h₀ : H}
  {ch : Children (FawnDSSF H FileStore) M B} {s t : State (FawnDSSF H FileStore) M B} {l : Label} {key : Value}

/-- The code of a `Get`, with the data if it is `OK`. -/
def codeAndData : Except FawnDSReturn Value → FawnDSReturn × Value
  | .ok data => (.ok, data)
  | .error ret => (ret, [])

/-- The front stores are `FawnDS_SF` stores over a file, of the lengths of the configuration. Of a call
that fails an assertion nothing is said. -/
structure FrontStores (c : Config) (T : HashTable H C) (uninit : Nat → UInt8) (h₀ : H)
    (ch : Children (FawnDSSF H FileStore) M B) : Prop where
  createFront : ch.createFront = (FawnDSSF.create c.keyLen c.dataLen h₀).store
  putFront : ∀ s key data, ∃ padding, ∀ r,
    FawnDSSF.put T (FileStore.dataStore uninit) s padding key data = some r → ch.putFront s key data = r
  deleteFront : ∀ s key, ∃ padding, ∀ r,
    FawnDSSF.delete T (FileStore.dataStore uninit) s padding key = some r → ch.deleteFront s key = r
  getFront : ∀ s key r, FawnDSSF.get T (FileStore.dataStore uninit) s key 0 FawnDSSF.maxLen = some r →
    ch.getFront s key = codeAndData r

/-- The log of every front store is shorter than `2 ^ 31`. -/
def FrontIdsBelow (s : State (FawnDSSF H FileStore) M B) : Prop :=
  ∀ f ∈ s.fronts, f.dataStore.nextAppendId < 2 ^ 31

instance (s : State (FawnDSSF H FileStore) M B) : Decidable (FrontIdsBelow s) :=
  inferInstanceAs (Decidable (∀ f ∈ s.fronts, f.dataStore.nextAppendId < 2 ^ 31))

/-- A `Put` of the key with some value, alone and to its end, returns `OK`. -/
def PutAccepted (c : Config) (ch : Children (FawnDSSF H FileStore) M B) (uninit : Nat → UInt8)
    (s : State (FawnDSSF H FileStore) M B) (key : Value) : Prop :=
  ∃ data ls t, (∀ l ∈ ls, l = .putTry s.calls.length ∨ ∃ addr, l = .putUpgrade s.calls.length addr) ∧
    run (step c ch uninit) s (.put key data :: ls) = some t ∧ t.log = s.log ++ [(.put key data, .ok)]

/-- `Delete` returns `OK`, and then `Get` does not. -/
def DeleteAccepted (c : Config) (ch : Children (FawnDSSF H FileStore) M B) (uninit : Nat → UInt8)
    (s : State (FawnDSSF H FileStore) M B) (key : Value) : Prop :=
  ∃ t, step c ch uninit s (.delete key) = some t ∧ t.log = s.log ++ [(.delete key, .ok)] ∧
    (get c ch t key).1 ≠ .ok

/-- The newest front store is one whose table takes the id of the next record. -/
def FrontTakes (T : HashTable H C) (uninit : Nat → UInt8) (s : State (FawnDSSF H FileStore) M B)
    (key : Value) : Prop :=
  ∃ a f rest, s.stage0 = (a, f) :: rest ∧ FawnDSSF.Takes T uninit f key

variable {hT : T.Contract}

/-- A front store in which every call came back. -/
def FrontReached (hT : T.Contract) (uninit : Nat → UInt8) (c : Config) (f : FawnDSSF H FileStore) : Prop :=
  ∃ m, FawnDSSF.Reached hT uninit c.keyLen c.dataLen ⟨f, m⟩

theorem PutAccepted.not_aborted (h : PutAccepted c ch uninit s key) : s.aborted = false := by
  obtain ⟨data, ls, t, -, hrun, -⟩ := h
  obtain ⟨u, hstep, -⟩ := run_cons_eq_some.mp hrun
  by_contra habort
  rw [step, if_pos (by simpa using habort)] at hstep
  cases hstep

section Steps

variable (hch : FrontStores c T uninit h₀ ch) (hadmits : ∀ key, key.length = c.keyLen → hT.admits key)
  (hkeyLen : c.keyLen ≠ 0)
include hch hadmits hkeyLen

theorem frontReached_put {f : FawnDSSF H FileStore} (hf : FrontReached hT uninit c f)
    (hid : f.dataStore.nextAppendId < 2 ^ 31) (key data : Value)
    (hid' : (ch.putFront f key data).2.dataStore.nextAppendId < 2 ^ 31) :
    FrontReached hT uninit c (ch.putFront f key data).2 := by
  obtain ⟨m, hreached⟩ := hf
  obtain ⟨padding, hput⟩ := hch.putFront f key data
  have hreturns : ∃ r, FawnDSSF.put T (FileStore.dataStore uninit) f padding key data = some r := by
    by_cases hkey : FawnDSSF.WellFormed c.keyLen key
    · have hvalid := FawnDSSF.invalidKey_of_wellFormed (hreached.keyLen_eq ▸ hkey)
      rw [FawnDSSF.put, if_neg (by simpa using hvalid)]
      split
      · exact ⟨_, rfl⟩
      · exact hreached.insertEntry_returns hkey (fun hzero => absurd hzero hkeyLen)
          (hadmits key (hkey.2 hkeyLen)) hid padding data false
    · have hbad := FawnDSSF.invalidKey_of_not_wellFormed (hreached.keyLen_eq ▸ hkey)
      exact ⟨_, by rw [FawnDSSF.put, if_pos hbad]⟩
  obtain ⟨⟨ret, f'⟩, hr⟩ := hreturns
  rw [hput _ hr] at hid' ⊢
  have hstep : FawnDSSF.step T (FileStore.dataStore uninit) ⟨f, m⟩ ⟨.put key data, padding⟩ =
      some ⟨f', (FawnDSSF.Op.put key data).apply m ret⟩ := FawnDSSF.step_put hr
  refine ⟨_, FawnDSSF.reached_step_of_lt hreached ?_ hstep hid'⟩
  exact fun hkey => ⟨hadmits key (hkey.2 hkeyLen), fun hzero => absurd hzero hkeyLen⟩

theorem frontReached_delete {f : FawnDSSF H FileStore} (hf : FrontReached hT uninit c f)
    (hid : f.dataStore.nextAppendId < 2 ^ 31) (key : Value)
    (hid' : (ch.deleteFront f key).2.dataStore.nextAppendId < 2 ^ 31) :
    FrontReached hT uninit c (ch.deleteFront f key).2 := by
  obtain ⟨m, hreached⟩ := hf
  obtain ⟨padding, hdelete⟩ := hch.deleteFront f key
  have hreturns : ∃ r, FawnDSSF.delete T (FileStore.dataStore uninit) f padding key = some r := by
    by_cases hkey : FawnDSSF.WellFormed c.keyLen key
    · have hvalid := FawnDSSF.invalidKey_of_wellFormed (hreached.keyLen_eq ▸ hkey)
      rw [FawnDSSF.delete, if_neg (by simpa using hvalid)]
      exact hreached.insertEntry_returns hkey (fun hzero => absurd hzero hkeyLen)
        (hadmits key (hkey.2 hkeyLen)) hid padding [] true
    · have hbad := FawnDSSF.invalidKey_of_not_wellFormed (hreached.keyLen_eq ▸ hkey)
      exact ⟨_, by rw [FawnDSSF.delete, if_pos hbad]⟩
  obtain ⟨⟨ret, f'⟩, hr⟩ := hreturns
  rw [hdelete _ hr] at hid' ⊢
  have hstep : FawnDSSF.step T (FileStore.dataStore uninit) ⟨f, m⟩ ⟨.delete key, padding⟩ =
      some ⟨f', (FawnDSSF.Op.delete key).apply m ret⟩ := by
    simp only [FawnDSSF.step, hr, Option.map_some]
  refine ⟨_, FawnDSSF.reached_step_of_lt hreached ?_ hstep hid'⟩
  exact fun hkey => ⟨hadmits key (hkey.2 hkeyLen), fun hzero => absurd hzero hkeyLen⟩

theorem frontReached_run (hh : hT.Holds h₀ ∅) {labels : List Label}
    (hrun : run (step c ch uninit) (create ch) labels = some s)
    (hids : Always (step c ch uninit) FrontIdsBelow (create ch) labels) :
    FrontIdsBelow s ∧ ∀ f ∈ s.fronts, FrontReached hT uninit c f := by
  have hcreate : FrontReached hT uninit c ch.createFront := by
    rw [hch.createFront]
    have hdataLen := c.dataLen_lt
    exact ⟨_, FawnDSSF.reached_create uninit c.keyLen_lt (by omega) hh⟩
  refine run_invariant_of_always (I := fun s => ∀ f ∈ s.fronts, FrontReached hT uninit c f) ?_ hrun hids ?_
  · intro s l t hstep hs ht hinv f hf
    cases fromFront_step hstep f hf with
    | kept h => exact hinv f h
    | created h => exact h ▸ hcreate
    | put g call h _ heq =>
      subst heq
      exact frontReached_put hch hadmits hkeyLen (hinv g h) (hs g h) call.key call.data (ht _ hf)
    | deleted g key h _ heq =>
      subst heq
      exact frontReached_delete hch hadmits hkeyLen (hinv g h) (hs g h) key (ht _ hf)
  · intro f hf
    obtain rfl : f = ch.createFront := by simpa [State.fronts, create] using hf
    exact hcreate

/-- Over a reached front store, a `Delete` is accepted exactly if that store accepts it. -/
theorem deleteAccepted_iff {a : Nat} {f : FawnDSSF H FileStore} {rest : List (Nat × FawnDSSF H FileStore)}
    (habort : s.aborted = false) (h0 : s.stage0 = (a, f) :: rest) (hf : FrontReached hT uninit c f)
    (hid : f.dataStore.nextAppendId < 2 ^ 31) (hkey : key.length = c.keyLen) :
    DeleteAccepted c ch uninit s key ↔ c.dataLen = 0 ∧ FawnDSSF.Takes T uninit f key := by
  obtain ⟨m, hreached⟩ := hf
  obtain ⟨padding, hlaw⟩ := hch.deleteFront f key
  have hne : key ≠ [] := by
    rintro rfl
    exact hkeyLen hkey.symm
  obtain ⟨ret, f', hdelete, hcases⟩ := hreached.delete_cases c.keyLen_lt ⟨hne, fun _ => hkey⟩
    (fun hzero => absurd hzero hkeyLen) (hadmits key hkey) hid padding
  rw [or_iff_right hkeyLen] at hcases
  have hstep : step c ch uninit s (.delete key) = some (State.return { s with stage0 := (a, f') :: rest }
      (.delete key) (if ret = .ok ∨ ret = .keyNotFound then .ok else ret)) := by
    rw [step, if_neg (by simp [habort])]
    simp only [delete, hkey, ne_eq, not_true_eq_false, if_false, h0, hlaw _ hdelete]
  rcases hcases with ⟨hboth, hok, hget⟩ | ⟨hnot, hne', hne''⟩
  · refine iff_of_true ⟨_, hstep, ?_, ?_⟩ hboth
    · rw [if_pos (hok.imp_right And.left)]
      rfl
    · have hfront : ch.getFront f' key = (.keyDeleted, []) := hch.getFront f' key _ hget
      rw [get, if_neg (by simp [hkey])]
      simp only [State.return, List.map_cons, List.cons_append, getLoop]
      rw [hfront, if_pos (by decide)]
      decide
  · refine iff_of_false ?_ hnot
    rintro ⟨t, ht, hlog, -⟩
    rw [hstep, if_neg (by rintro (hok | hok) <;> contradiction)] at ht
    cases ht
    have hlast := List.append_cancel_left hlog
    simp only [List.cons.injEq, Prod.mk.injEq, true_and, and_true] at hlast
    exact hne' hlast

end Steps

/-- Where a `Put` would be acknowledged, a `Delete` is accepted exactly if records need no fixed length,
that is if the length of keys or that of data is not fixed. A store of three stages needs a length of
keys, and its `Delete` makes no new front store: there the newest front store must take the record. -/
theorem deletes_accepted (T : HashTable H C) (hT : T.Contract) (uninit : Nat → UInt8) (h₀ : H)
    (hh : hT.Holds h₀ ∅) :
    (∀ (keyLen dataLen : Nat) (calls : List FawnDSSF.Call) (o : FawnDSSF.Observed H FileStore) (key : Value),
      keyLen < 2 ^ 31 → dataLen < 2 ^ 31 →
      run (FawnDSSF.step T (FileStore.dataStore uninit)) (FawnDSSF.create keyLen dataLen h₀) calls = some o →
      (∀ call ∈ calls, FawnDSSF.WellFormed keyLen call.op.key →
        hT.admits call.op.key ∧ FawnDSSF.Short keyLen call.op.key) →
      o.store.dataStore.nextAppendId < 2 ^ 31 →
      FawnDSSF.WellFormed keyLen key → hT.admits key → FawnDSSF.Short keyLen key →
      (∃ padding data s, FawnDSSF.put T (FileStore.dataStore uninit) o.store padding key data = some (.ok, s)) →
      ∀ padding, (FawnDSSF.DeleteAccepted T uninit o.store padding key ↔ keyLen = 0 ∨ dataLen = 0)) ∧
    ∀ (c : Config) (ch : Children (FawnDSSF H FileStore) M B) (labels : List Label)
      (s : State (FawnDSSF H FileStore) M B) (key : Value),
      FrontStores c T uninit h₀ ch → (∀ key, key.length = c.keyLen → hT.admits key) →
      run (step c ch uninit) (create ch) labels = some s →
      Always (step c ch uninit) FrontIdsBelow (create ch) labels →
      key ≠ [] → key.length = c.keyLen → PutAccepted c ch uninit s key →
      (DeleteAccepted c ch uninit s key ↔ c.dataLen = 0 ∧ FrontTakes T uninit s key) := by
  constructor
  · intro keyLen dataLen calls o key hkeyLen hdataLen hrun hcalls hid hkey hadmits hshort hput padding
    have hreached := FawnDSSF.reached_run (FawnDSSF.reached_create uninit hkeyLen hdataLen hh) hcalls hrun hid
    obtain ⟨padding', data, s, hput⟩ := hput
    exact hreached.deleteAccepted_iff hkeyLen hkey hshort hadmits hid (FawnDSSF.takes_of_put hput) padding
  · intro c ch labels s key hch hadmits hrun hids hne hkey hput
    have hkeyLen : c.keyLen ≠ 0 := by
      rw [← hkey]
      exact fun hzero => hne (List.length_eq_zero_iff.mp hzero)
    obtain ⟨hbelow, hfronts⟩ := frontReached_run hch hadmits hkeyLen hh hrun hids
    cases h0 : s.stage0 with
    | nil =>
      refine iff_of_false ?_ ?_
      · rintro ⟨t, hstep, -⟩
        rw [step, hput.not_aborted] at hstep
        simp only [Bool.false_eq_true, if_false, delete, hkey, ne_eq, not_true_eq_false, h0] at hstep
        cases hstep
      · rintro ⟨-, a, f, rest, hfront, -⟩
        rw [h0] at hfront
        cases hfront
    | cons p rest =>
      obtain ⟨a, f⟩ := p
      have hmem : f ∈ s.fronts := by
        rw [State.fronts, h0]
        exact List.mem_cons_self
      have htakes : FrontTakes T uninit s key ↔ FawnDSSF.Takes T uninit f key := by
        constructor
        · rintro ⟨a', f', rest', hfront, htakes⟩
          rw [h0] at hfront
          cases hfront
          exact htakes
        · exact fun htakes => ⟨a, f, rest, h0, htakes⟩
      rw [htakes]
      exact deleteAccepted_iff hch hadmits hkeyLen hput.not_aborted h0 (hfronts f hmem) (hbelow f hmem) hkey

/-- Front stores that answer as the calls return, and other stores that hold nothing. -/
def frontChildren (c : Config) (T : HashTable H C) (uninit : Nat → UInt8) (h₀ : H) :
    Children (FawnDSSF H FileStore) Unit Unit where
  createFront := (FawnDSSF.create c.keyLen c.dataLen h₀).store
  putFront s key data := (FawnDSSF.put T (FileStore.dataStore uninit) s 0 key data).getD (.error, s)
  deleteFront s key := (FawnDSSF.delete T (FileStore.dataStore uninit) s 0 key).getD (.error, s)
  getFront s key := codeAndData
    ((FawnDSSF.get T (FileStore.dataStore uninit) s key 0 FawnDSSF.maxLen).getD (.error .error))
  convertTo _ := (.ok, ())
  getMiddle _ _ := (.keyNotFound, [])
  enumerateMiddle _ := []
  createBack _ := ()
  putBack _ _ _ := (.ok, ())
  flushBack _ := ()
  getBack _ _ := (.keyNotFound, [])
  enumerateBack _ := []

theorem frontChildren_frontStores (c : Config) (T : HashTable H C) (uninit : Nat → UInt8) (h₀ : H) :
    FrontStores c T uninit h₀ (frontChildren c T uninit h₀) where
  createFront := rfl
  putFront s key data := ⟨0, fun r hr => by simp only [frontChildren, hr, Option.getD_some]⟩
  deleteFront s key := ⟨0, fun r hr => by simp only [frontChildren, hr, Option.getD_some]⟩
  getFront s key r hr := by simp only [frontChildren, hr, Option.getD_some]

/-- A table in which all keys collide. -/
def collidingTable : HashTable HashTableDefault Nat := HashTableDefault.hashTable fun _ _ => 0

def collidingChildren : Children (FawnDSSF HashTableDefault FileStore) Unit Unit :=
  frontChildren keysOnly collidingTable (fun _ => 0) (HashTableDefault.create false 8)

/-- A key that was put is deleted, and so is a key of a store with three stages. -/
theorem deletes_accepted_empty_value :
    (∃ o, run (FawnDSSF.step collidingTable (FileStore.dataStore fun _ => 0))
        (FawnDSSF.create 4 0 (HashTableDefault.create false 8))
        [⟨.put [1, 0, 0, 0] [7], 0⟩, ⟨.put [2, 0, 0, 0] [8], 0⟩] = some o ∧
      FawnDSSF.DeleteAccepted collidingTable (fun _ => 0) o.store 0 [2, 0, 0, 0]) ∧
    ∃ s, run (step keysOnly collidingChildren fun _ => 0) (create collidingChildren)
        [.put [1, 0, 0, 0] [], .putTry 0, .put [2, 0, 0, 0] [], .putTry 0] = some s ∧
      DeleteAccepted keysOnly collidingChildren (fun _ => 0) s [2, 0, 0, 0] := by
  have hboth := deletes_accepted (M := Unit) (B := Unit) collidingTable (HashTableDefault.contract _)
    (fun _ => 0) (HashTableDefault.create false 8) (HashTableDefault.create_holds (by decide))
  constructor
  · have hobserved : (run (FawnDSSF.step collidingTable (FileStore.dataStore fun _ => 0))
        (FawnDSSF.create 4 0 (HashTableDefault.create false 8))
        [⟨.put [1, 0, 0, 0] [7], 0⟩, ⟨.put [2, 0, 0, 0] [8], 0⟩]).map
        (fun o => (decide (o.store.dataStore.nextAppendId < 2 ^ 31),
          (FawnDSSF.put collidingTable (FileStore.dataStore fun _ => 0) o.store 0 [2, 0, 0, 0] [9]).map
            Prod.fst)) = some (true, some .ok) := by
      decide +kernel
    obtain ⟨o, ho, hval⟩ := Option.map_eq_some_iff.mp hobserved
    obtain ⟨hid, hput⟩ := Prod.mk.inj hval
    obtain ⟨⟨ret, s⟩, hput, rfl⟩ := Option.map_eq_some_iff.mp hput
    refine ⟨o, ho, (hboth.1 4 0 _ o [2, 0, 0, 0] (by decide) (by decide) ho ?_ (of_decide_eq_true hid)
      ⟨by decide, fun _ => rfl⟩ trivial (fun hzero => absurd hzero (by decide)) ⟨0, [9], s, hput⟩ 0).mpr
      (.inr rfl)⟩
    exact fun call _ _ => ⟨trivial, fun hzero => absurd hzero (by decide)⟩
  · have hids : Always (step keysOnly collidingChildren fun _ => 0) FrontIdsBelow (create collidingChildren)
        [.put [1, 0, 0, 0] [], .putTry 0, .put [2, 0, 0, 0] [], .putTry 0] := by
      decide +kernel
    -- one more `Put` of the key is acknowledged, by the newest front store
    have hobserved : (run (step keysOnly collidingChildren fun _ => 0) (create collidingChildren)
        [.put [1, 0, 0, 0] [], .putTry 0, .put [2, 0, 0, 0] [], .putTry 0]).map (fun s =>
          (s.calls.length, (run (step keysOnly collidingChildren fun _ => 0) s
            [.put [2, 0, 0, 0] [], .putTry 0]).map fun t =>
              decide (t.log = s.log ++ [(Op.put [2, 0, 0, 0] [], FawnDSReturn.ok)]),
          s.stage0.head?.bind fun p => (FawnDSSF.put collidingTable (FileStore.dataStore fun _ => 0) p.2 0
            [2, 0, 0, 0] []).map Prod.fst)) = some (0, some true, some .ok) := by
      decide +kernel
    obtain ⟨s, hs, hval⟩ := Option.map_eq_some_iff.mp hobserved
    simp only [Prod.mk.injEq] at hval
    obtain ⟨hcalls, hagain, hfront⟩ := hval
    obtain ⟨t, ht, hlog⟩ := Option.map_eq_some_iff.mp hagain
    obtain ⟨⟨addr, f⟩, hhead, hput⟩ := Option.bind_eq_some_iff.mp hfront
    obtain ⟨⟨ret, f'⟩, hput, rfl⟩ := Option.map_eq_some_iff.mp hput
    obtain ⟨rest, hstage⟩ : ∃ rest, s.stage0 = (addr, f) :: rest := List.head?_eq_some_iff.mp hhead
    refine ⟨s, hs, (hboth.2 keysOnly collidingChildren _ s [2, 0, 0, 0]
      (frontChildren_frontStores keysOnly collidingTable _ _) (fun _ _ => trivial) hs hids (by decide) rfl
      ⟨[], [.putTry 0], t, ?_, ht, of_decide_eq_true hlog⟩).mpr
      ⟨rfl, addr, f, rest, hstage, FawnDSSF.takes_of_put hput⟩⟩
    exact fun l hl => .inl (hcalls ▸ List.mem_singleton.mp hl)

open HashTableCuckoo in
/-- The first `Put` in a store with keys of four bytes. -/
theorem put_created {t₀ : HashTableCuckoo} (hinv : HashTableCuckoo.Inv ⟨t₀, []⟩) {dataLen : Nat} (data : Value)
    (hdata : data.length = dataLen) (padding : Nat) :
    ∃ s, FawnDSSF.put hashTable (FileStore.dataStore fun _ => 0)
      (FawnDSSF.create 4 dataLen ⟨t₀, fun _ _ => 0⟩).store padding [1, 0, 0, 0] data = some (.ok, s) := by
  have hempty : HashTableCuckoo.Inv ⟨(⟨t₀, fun _ _ => 0⟩ : Seeded).table, []⟩ := hinv
  have hfour : 4 ≤ ([1, 0, 0, 0] : Value).length := by decide
  obtain ⟨h₁, hput⟩ := put_of_empty hempty hfour (leBytes 8 0)
  have hfind := find_of_empty hempty hfour
  have hid : (number? (leBytes 8 0)).getD FawnDSSF.maxLen ≠ FawnDSSF.maxLen := by decide
  have hlog : (FileStore.create (FawnDSSF.storeLen 4 dataLen)).dataLen = 0 ∨
      (FawnDSSF.entry 4 padding [1, 0, 0, 0] data false).length =
        (FileStore.create (FawnDSSF.storeLen 4 dataLen)).dataLen := by
    rw [FawnDSSF.length_entry, hdata]
    show FawnDSSF.storeLen 4 dataLen = 0 ∨ _ = FawnDSSF.storeLen 4 dataLen
    rw [FawnDSSF.storeLen]
    split
    · exact .inl rfl
    · exact .inr rfl
  exact ⟨_, FawnDSSF.put_new padding data ⟨by decide, fun _ => rfl⟩ (fun _ => hdata) hfind rfl
    (FileStore.append_ok hlog) hid hput⟩

/-- With keys of four bytes and values of one, the `Put` that is acknowledged in the new store is of a
key that cannot be deleted there: the log wants nine bytes, and the tombstone has eight. -/
theorem delete_refused : ∃ t₀, HashTableCuckoo.create 8 = .ok t₀ ∧
    (∃ s, FawnDSSF.put HashTableCuckoo.hashTable (FileStore.dataStore fun _ => 0)
      (FawnDSSF.create 4 1 ⟨t₀, fun _ _ => 0⟩).store 0 [1, 0, 0, 0] [7] = some (.ok, s)) ∧
    FawnDSSF.delete HashTableCuckoo.hashTable (FileStore.dataStore fun _ => 0)
      (FawnDSSF.create 4 1 ⟨t₀, fun _ _ => 0⟩).store 0 [1, 0, 0, 0] =
        some (.invalidData, (FawnDSSF.create 4 1 ⟨t₀, fun _ _ => 0⟩).store) := by
  obtain ⟨t₀, hcreate, hinv⟩ := HashTableCuckoo.inv_create (show (4 : Int) ≤ 8 by decide)
  have hempty : HashTableCuckoo.contract.Holds ⟨t₀, fun _ _ => 0⟩ ∅ := ⟨[], hinv, by simp, by simp⟩
  have hreached : FawnDSSF.Reached HashTableCuckoo.contract (fun _ => 0) 4 1
      (FawnDSSF.create 4 1 ⟨t₀, fun _ _ => 0⟩) :=
    FawnDSSF.reached_create _ (by decide) (by decide) hempty
  refine ⟨t₀, hcreate, put_created hinv [7] rfl 0, ?_⟩
  have hfour : HashTableCuckoo.contract.admits [1, 0, 0, 0] := show 4 ≤ 4 by decide
  exact hreached.delete_fixed (by decide) ⟨by decide, fun _ => rfl⟩ hfour 0

end Deletes

end FawnDSCombi

end FawnKV.Silt
