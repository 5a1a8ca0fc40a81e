import FawnKV.Silt.FileLog

/-! The file store of records of any length as the data store of a `FawnDS_SF`. -/
namespace FawnKV.Silt

open ByteFile

namespace FileStore

section AnyLength

variable {uninit : Nat → UInt8} {s : FileStore} {recs : List Value}

/-- The data store, for records that are shorter than `2 ^ 32` bytes. -/
def shortStore (uninit : Nat → UInt8) : DataStore FileStore :=
  { dataStore uninit with
    append := fun s data => if data.length < 2 ^ 32 then s.append data else (.error, [], s) }

theorem append_key (hvar : s.dataLen = 0) (data : Value) :
    s.append data = (.ok, leBytes 8 s.nextAppendId, (s.append data).2.2) := by
  rw [append, if_neg (by simp [hvar])]

theorem nextAppendId_append_variable (hvar : s.dataLen = 0) (data : Value) :
    (s.append data).2.2.nextAppendId = s.nextAppendId + (4 + data.length) := by
  rw [append, if_neg (by simp [hvar]), if_pos hvar]
  simp only [writeAt, if_pos hvar]

/-- The record that begins at an id. -/
theorem record_unique {id : Nat} {r r' : Value}
    (h : s.dataLen = 0 ∧ ∃ pre post, Records s (pre ++ r :: post) ∧ idAfter s.dataLen pre = id)
    (h' : s.dataLen = 0 ∧ ∃ pre post, Records s (pre ++ r' :: post) ∧ idAfter s.dataLen pre = id) : r = r' := by
  obtain ⟨-, pre, post, hrec, hid⟩ := h
  obtain ⟨-, pre', post', hrec', hid'⟩ := h'
  have hread : s.getAt (fun _ => 0) id 0 FawnDSSF.maxLen = .ok r := by rw [← hid, hrec.getAt_whole]
  rw [← hid', hrec'.getAt_whole] at hread
  cases hread
  rfl

theorem record_length_lt {id : Nat} {r : Value}
    (h : s.dataLen = 0 ∧ ∃ pre post, Records s (pre ++ r :: post) ∧ idAfter s.dataLen pre = id) :
    r.length < 2 ^ 64 := by
  obtain ⟨hvar, pre, post, hrec, -⟩ := h
  have hfits := hrec.fits_mem
  rw [Fits, if_pos hvar] at hfits
  omega

theorem append_record {uninit : Nat → UInt8} {buf v : Value} {ret : FawnDSReturn} {s' : FileStore}
    (h : s.dataLen = 0 ∧ s.endId < 2 ^ 63 ∧ ∃ recs, Records s recs)
    (happend : (shortStore uninit).append s buf = (ret, v, s'))
    (hnext : ret = .ok → ∀ id, Denotes v id → id < 2 ^ 31) :
    (s'.dataLen = 0 ∧ s'.endId < 2 ^ 63 ∧ ∃ recs, Records s' recs) ∧
      (∀ id r, (s.dataLen = 0 ∧ ∃ pre post, Records s (pre ++ r :: post) ∧ idAfter s.dataLen pre = id) →
        s'.dataLen = 0 ∧ ∃ pre post, Records s' (pre ++ r :: post) ∧ idAfter s'.dataLen pre = id) ∧
      ret ≠ .keyNotFound ∧
      (ret = .ok → ∃ id, Denotes v id ∧
        (∀ r, ¬(s.dataLen = 0 ∧ ∃ pre post, Records s (pre ++ r :: post) ∧ idAfter s.dataLen pre = id)) ∧
        s'.dataLen = 0 ∧ ∃ pre post, Records s' (pre ++ buf :: post) ∧ idAfter s'.dataLen pre = id) := by
  obtain ⟨hvar, hbound, recs, hrec⟩ := h
  have hend : s.nextAppendId = s.endId := hrec.nextAppendId.trans hrec.endId.symm
  by_cases hshort : buf.length < 2 ^ 32
  · have hfits : Fits s.dataLen buf := by
      rw [Fits, if_pos hvar]
      exact hshort
    obtain ⟨hrec', hlen⟩ := hrec.append hfits
    have hcall : (shortStore uninit).append s buf = s.append buf := if_pos hshort
    rw [hcall, append_key hvar] at happend
    obtain ⟨rfl, hv⟩ := Prod.mk.inj happend
    obtain ⟨rfl, rfl⟩ := Prod.mk.inj hv
    have hv : Denotes (leBytes 8 s.nextAppendId) s.nextAppendId := denotes_leBytes (.inr rfl) (by omega)
    have hid := hnext rfl _ hv
    have hend' := hrec'.endId
    rw [hlen, idAfter_append recs hfits, if_pos hvar, ← hrec.endId] at hend'
    refine ⟨⟨hlen.trans hvar, by omega, _, hrec'⟩, ?_, by decide, fun _ => ⟨s.nextAppendId, hv, ?_, ?_⟩⟩
    · rintro id r ⟨-, pre, post, hold, hpre⟩
      have hold' := (hold.append hfits).1
      rw [List.append_assoc, List.cons_append] at hold'
      exact ⟨hlen.trans hvar, pre, _, hold', hlen ▸ hpre⟩
    · rintro r ⟨-, pre, post, hold, hpre⟩
      have hlt := hold.lt_endId
      omega
    · refine ⟨hlen.trans hvar, recs, [], hrec', ?_⟩
      rw [hlen, hrec.nextAppendId]
  · have hcall : (shortStore uninit).append s buf = (.error, [], s) := if_neg hshort
    rw [hcall] at happend
    obtain ⟨rfl, hv⟩ := Prod.mk.inj happend
    obtain ⟨rfl, rfl⟩ := Prod.mk.inj hv
    exact ⟨⟨hvar, hbound, recs, hrec⟩, fun _ _ h => h, by decide, by simp⟩

theorem get_record {uninit : Nat → UInt8} {id offset len : Nat} {r v : Value}
    (h : s.dataLen = 0 ∧ ∃ pre post, Records s (pre ++ r :: post) ∧ idAfter s.dataLen pre = id)
    (hv : Denotes v id) (hid : id < 2 ^ 31) (hpart : offset + len ≤ r.length) :
    (shortStore uninit).get s v offset len = .ok ((r.drop offset).take len) := by
  obtain ⟨hvar, pre, post, hrec, rfl⟩ := h
  have hfits := hrec.fits_mem
  rw [Fits, if_pos hvar] at hfits
  show s.getAt uninit (asOffset v) offset len = _
  rw [asOffset_of_denotes hv hid, hrec.getAt_variable hvar (by omega) (by omega)]

/-- A file store of records of any length is a data store that `FawnDS_SF` can use. -/
def anyLengthContract (uninit : Nat → UInt8) : (shortStore uninit).Contract where
  Good s := s.dataLen = 0 ∧ s.endId < 2 ^ 63 ∧ ∃ recs, Records s recs
  Holds s id r := s.dataLen = 0 ∧ ∃ pre post, Records s (pre ++ r :: post) ∧ idAfter s.dataLen pre = id
  unique := record_unique
  length_lt := record_length_lt
  append := append_record
  delete h _ := ⟨h, fun _ _ => Iff.rfl⟩
  length := by
    rintro s id r v ⟨hvar, pre, post, hrec, rfl⟩ hv hid
    show s.lengthAt uninit (asOffset v) = _
    rw [asOffset_of_denotes hv hid, hrec.lengthAt]
  get := get_record

end AnyLength

end FileStore

namespace FawnDSSF

section Short

variable {H C : Type} {T : HashTable H C} {uninit : Nat → UInt8} {s : FawnDSSF H FileStore}
  {key data : Value} {padding : Nat} {isDelete : Bool} {o o' : Observed H FileStore} {call : Call}

theorem search_congr {D : Type} {S S' : DataStore D} (h : S.get = S'.get) (keyLen : Nat) (d : D) (key : Value)
    (l : List (C × Value)) : search S keyLen d key l = search S' keyLen d key l := by
  have hround : ∀ w, readMatch S keyLen d key w = readMatch S' keyLen d key w := by
    intro w
    rw [readMatch, readMatch, h]
  induction l with
  | nil => rfl
  | cons e l ih =>
    rw [search, search, hround, ih]

theorem search_shortStore (keyLen : Nat) (d : FileStore) (key : Value) (l : List (C × Value)) :
    search (FileStore.shortStore uninit) keyLen d key l = search
      (FileStore.dataStore uninit) keyLen d key l := by
  have hget : (FileStore.shortStore uninit).get = (FileStore.dataStore uninit).get := rfl
  exact search_congr hget keyLen d key l

theorem writeEntry_shortStore (hshort : (entry s.keyLen padding key data isDelete).length < 2 ^ 32)
    (newObj : Bool) :
    writeEntry (FileStore.shortStore uninit) s padding key data isDelete newObj =
      writeEntry (FileStore.dataStore uninit) s padding key data isDelete newObj := by
  rw [FileStore.writeEntry_eq]
  cases newObj <;> exact if_pos hshort

/-- As long as records are short, it is the data store whose contract is known. -/
theorem insertEntry_shortStore (hshort : (entry s.keyLen padding key data isDelete).length < 2 ^ 32) :
    insertEntry T (FileStore.shortStore uninit) s padding key data isDelete =
      insertEntry T (FileStore.dataStore uninit) s padding key data isDelete := by
  rw [insertEntry, insertEntry]
  simp only [search_shortStore, writeEntry_shortStore hshort]

theorem get_shortStore (s : FawnDSSF H FileStore) (key : Value) (offset len : Nat) :
    get T (FileStore.shortStore uninit) s key offset len = get T
      (FileStore.dataStore uninit) s key offset len := by
  rw [get, get]
  simp only [search_shortStore]
  rfl

/-- In a log of less than `2 ^ 31` bytes the records are short. -/
theorem step_shortStore (hvar : o.store.dataStore.dataLen = 0)
    (hstep : step T (FileStore.dataStore uninit) o call = some o')
    (hid : o'.store.dataStore.nextAppendId < 2 ^ 31) :
    step T (FileStore.shortStore uninit) o call = some o' := by
  have hinsert : ∀ {padding key data isDelete ret s'},
      insertEntry T (FileStore.dataStore uninit) o.store padding key data isDelete = some (ret, s') →
      s'.dataStore.nextAppendId < 2 ^ 31 →
      insertEntry T (FileStore.shortStore uninit) o.store padding key data isDelete = some (ret, s') := by
    intro padding key data isDelete ret s' hinsert hlt
    obtain ⟨-, -, ⟨newObj, hstore⟩, -⟩ := insertEntry_frame hinsert
    rw [FileStore.writeEntry_eq] at hstore
    rw [hstore, FileStore.nextAppendId_append_variable hvar] at hlt
    rw [insertEntry_shortStore (by omega), hinsert]
  rcases call with ⟨op, padding⟩
  cases op with
  | put key data =>
    obtain ⟨⟨ret, s'⟩, hput, rfl⟩ := Option.map_eq_some_iff.mp hstep
    refine Option.map_eq_some_iff.mpr ⟨(ret, s'), ?_, rfl⟩
    simp only [put] at hput ⊢
    split at hput
    · rename_i hbad
      rw [if_pos hbad, hput]
    · rename_i hbad
      rw [if_neg hbad]
      split at hput
      · rename_i hdata
        rw [if_pos hdata, hput]
      · rename_i hdata
        rw [if_neg hdata]
        exact hinsert hput hid
  | delete key =>
    obtain ⟨⟨ret, s'⟩, hdelete, rfl⟩ := Option.map_eq_some_iff.mp hstep
    refine Option.map_eq_some_iff.mpr ⟨(ret, s'), ?_, rfl⟩
    simp only [delete] at hdelete ⊢
    split at hdelete
    · rename_i hbad
      rw [if_pos hbad, hdelete]
    · rename_i hbad
      rw [if_neg hbad]
      exact hinsert hdelete hid
  | get key =>
    simp only [step] at hstep ⊢
    rw [get_shortStore, hstep]

theorem idBelow_shortStore (hid : s.dataStore.nextAppendId < 2 ^ 31) (padding : Nat) (key data : Value)
    (isDelete : Bool) : IdBelow (FileStore.shortStore uninit) s padding key data isDelete := by
  intro newObj v d id hwrite hv
  by_cases hshort : (entry s.keyLen padding key data isDelete).length < 2 ^ 32
  · rw [writeEntry_shortStore hshort] at hwrite
    exact FileStore.idBelow_of_lt hid padding key data isDelete newObj v d id hwrite hv
  · have hfail : writeEntry (FileStore.shortStore uninit) s padding key data isDelete newObj =
        (.error, [], s.dataStore) := by
      cases newObj <;> exact if_neg hshort
    rw [hfail] at hwrite
    cases hwrite

end Short

end FawnDSSF

end FawnKV.Silt
