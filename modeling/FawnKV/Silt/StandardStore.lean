import FawnKV.Silt.Cuckoo

/-! `FawnDS_SF`: records in a log, found through a hash table of their ids. -/
namespace FawnKV.Silt

open ByteFile

/-- What `FawnDS_SF` calls of its hash table, a cursor `C` being where an iterator of `Find` stands;
`none` is an assertion that fails. -/
structure HashTable (H C : Type) where
  find : H → Value → Option (List (C × Value))
  put : H → Value → Value → Option (FawnDSReturn × H)
  replace : H → C → Value → Option (FawnDSReturn × H)

/-- What it calls of its data store. `get` takes an offset and a length. -/
structure DataStore (D : Type) where
  append : D → Value → FawnDSReturn × Value × D
  delete : D → Value → FawnDSReturn × D
  length : D → Value → Except FawnDSReturn Nat
  get : D → Value → Nat → Nat → Except FawnDSReturn Value

structure FawnDSSF (H D : Type) where
  keyLen : Nat
  dataLen : Nat
  numElements : Nat
  numActiveElements : Nat
  hashTable : H
  dataStore : D

namespace FawnDSSF

/-- The default of the argument `len`. -/
def maxLen : Nat := 2 ^ 64 - 1

section Headers

/-- The size of `DataHeaderFull` and of `DataHeaderSimple`. -/
def dhSize : Nat := 4

/-- The bytes of a header; the second half of `DataHeaderSimple` is never set, and holds what the
stack held. -/
def header (keyLen padding : Nat) (key : Value) (isDelete : Bool) : Value :=
  leBytes 2 (if isDelete then 2 else 1) ++ leBytes 2 (if keyLen = 0 then key.length else padding)

/-- The buffer `InsertEntry` appends. -/
def entry (keyLen padding : Nat) (key data : Value) (isDelete : Bool) : Value :=
  header keyLen padding key isDelete ++ key ++ data

/-- The field `type`, read into a `uint8_t`. -/
def headerType (hdr : Value) : Nat := readLe (hdr.take 2) % 2 ^ 8

def headerKeyLen (hdr : Value) : Nat := readLe ((hdr.drop 2).take 2)

end Headers

variable {H C D : Type} (T : HashTable H C) (S : DataStore D)

/-- One round of the search: the header of the record when the record is the key's. -/
def readMatch (keyLen : Nat) (d : D) (key dataStoreKey : Value) : Option Value :=
  match S.get d dataStoreKey 0 dhSize with
  | .error _ => none
  | .ok readHdr =>
    if keyLen = 0 ∧ headerKeyLen readHdr ≠ key.length then none
    else
      match S.get d dataStoreKey dhSize key.length with
      | .error _ => none
      | .ok readKey => if equals key readKey then some readHdr else none

/-- The first candidate that is the key's, with the header of its record. -/
def search (keyLen : Nat) (d : D) (key : Value) : List (C × Value) → Option (C × Value × Value)
  | [] => none
  | (c, v) :: l =>
    match readMatch S keyLen d key v with
    | some readHdr => some (c, v, readHdr)
    | none => search keyLen d key l

/-- The part of `InsertEntry` that writes the record. -/
def writeEntry (s : FawnDSSF H D) (padding : Nat) (key data : Value) (isDelete newObj : Bool) :
    FawnDSReturn × Value × D :=
  -- the code of the attempt to delete is not looked at
  let d := if newObj then s.dataStore else (S.delete s.dataStore key).2
  S.append d (entry s.keyLen padding key data isDelete)

/-- The part of `InsertEntry` that updates the hash table. -/
def updateTable (s : FawnDSSF H D) (hashIt : Option C) (key entryId : Value) :
    Option (FawnDSReturn × H) :=
  match hashIt with
  | none => T.put s.hashTable key entryId
  | some c => T.replace s.hashTable c entryId

def insertEntry (s : FawnDSSF H D) (padding : Nat) (key data : Value) (isDelete : Bool) :
    Option (FawnDSReturn × FawnDSSF H D) :=
  (T.find s.hashTable key).bind fun hashIt =>
    let found := search S s.keyLen s.dataStore key hashIt
    let (retAppend, entryId, d) := writeEntry S s padding key data isDelete found.isNone
    if retAppend ≠ .ok then some (retAppend, { s with dataStore := d })
    else if (number? entryId).getD maxLen = maxLen then none
    else
      (updateTable T s (found.map Prod.fst) key entryId).map fun (ret, h) =>
        if ret ≠ .ok then (ret, { s with hashTable := h, dataStore := d })
        else
          (if isDelete && found.isNone then .keyNotFound else .ok,
            { s with
              hashTable := h
              dataStore := d
              numElements := s.numElements + 1
              numActiveElements := s.numActiveElements +
                if !isDelete && found.isNone then 1 else 0 })

/-- The check of the key that starts every function. -/
def invalidKey (s : FawnDSSF H D) (key : Value) : Bool :=
  key.length == 0 || (s.keyLen != 0 && s.keyLen != key.length)

def put (s : FawnDSSF H D) (padding : Nat) (key data : Value) :
    Option (FawnDSReturn × FawnDSSF H D) :=
  if s.invalidKey key then some (.invalidKey, s)
  else if s.dataLen ≠ 0 ∧ s.dataLen ≠ data.length then some (.invalidData, s)
  else insertEntry T S s padding key data false

def delete (s : FawnDSSF H D) (padding : Nat) (key : Value) : Option (FawnDSReturn × FawnDSSF H D) :=
  if s.invalidKey key then some (.invalidKey, s)
  else insertEntry T S s padding key [] true

/-- The part of `Get` after the search. The sums and differences are of `size_t`. -/
def readData (s : FawnDSSF H D) (key dataStoreKey readHdr : Value) (offset len : Nat) :
    Option (Except FawnDSReturn Value) :=
  match S.length s.dataStore dataStoreKey with
  | .error retLen => some (.error retLen)
  | .ok totalLen =>
    if headerType readHdr = 0 then none
    else if headerType readHdr = 2 then some (.error .keyDeleted)
    else
      let dataLen := (totalLen + 2 * 2 ^ 64 - dhSize - key.length) % 2 ^ 64
      if dataLen < offset then some (.ok [])
      else
        let len := if dataLen < (offset + len) % 2 ^ 64 then dataLen - offset else len
        some (S.get s.dataStore dataStoreKey (dhSize + key.length + offset) len)

def get (s : FawnDSSF H D) (key : Value) (offset len : Nat) : Option (Except FawnDSReturn Value) :=
  if s.invalidKey key then some (.error .invalidKey)
  else
    (T.find s.hashTable key).bind fun hashIt =>
      match search S s.keyLen s.dataStore key hashIt with
      | none => some (.error .keyNotFound)
      | some (_, dataStoreKey, readHdr) => readData S s key dataStoreKey readHdr offset len

/-- What an iterator yields from the records of the data store: `Increment` passes over unused space,
and asserts that the type is a known one. -/
def increment (keyLen : Nat) : List Value → Option (List (FawnDSReturn × Value × Value))
  | [] => some []
  | r :: rs =>
    if headerType r = 0 then increment keyLen rs
    else if headerType r = 1 ∨ headerType r = 2 then
      let keyLen' := if keyLen = 0 then headerKeyLen r else keyLen
      (increment keyLen rs).map fun l =>
        (if headerType r = 1 then .ok else .keyDeleted, (r.drop dhSize).take keyLen',
          r.drop (dhSize + keyLen')) :: l
    else none

end FawnDSSF

end FawnKV.Silt
