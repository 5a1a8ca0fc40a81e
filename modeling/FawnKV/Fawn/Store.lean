import FawnKV.Fawn.Flash

/-! The FAWN-DS hash table and its three operations (`fawnds.h`, `fawnds.cc`). -/
namespace FawnKV.Fawn

open ByteFile

/-- `PROBES_BEFORE_REHASH`. -/
def probesBeforeRehash : Nat := 8

/-- `HASH_COUNT`. -/
def hashCount : Nat := 3

def keyfragMask : UInt16 := 0x3fff
def validBitMask : UInt16 := 0x4000
def deletedBitMask : UInt16 := 0x8000

/-- `struct HashEntry`: deleted bit, valid bit, 14 key bits; 32 offset bits. -/
structure HashEntry where
  presentKey : UInt16 := 0
  offset : UInt32 := 0
  deriving DecidableEq, Repr

/-- The fields of `struct DbHeader` that the operations read or write. -/
structure DbHeader where
  hashtableSize : UInt64
  numberElements : UInt64
  deletedElements : UInt64
  dataInsertionPoint : Nat
  deriving DecidableEq, Repr

/-- `HASH_COUNT` hash functions on key bytes. -/
abbrev Hashes := Fin hashCount → Bytes → UInt32

structure FawnDS where
  header : DbHeader
  hashTable : Array HashEntry
  datastore : Bytes
  sizeEq : hashTable.size = header.hashtableSize.toNat

/-- A `char` is signed: it is sign-extended before it is added. -/
def signExtend (c : UInt8) : UInt16 := c.toInt8.toInt16.toUInt16

/-- `keyfragment_from_key`: the low-order 14 bits of the last two bytes. -/
def keyfragmentFromKey (key : Bytes) : UInt16 :=
  if key.length < 2 then signExtend (key.getD 0 0) &&& keyfragMask
  else
    (signExtend (key.getD (key.length - 2) 0) <<< 8 + signExtend (key.getD (key.length - 1) 0)) &&&
      keyfragMask

/-- First slot of the probe window of one hash function. -/
def hashIndexStart (hashtableSize : UInt64) (indexkey : UInt32) : UInt32 :=
  (indexkey.toUInt64 &&& (hashtableSize - 1)).toUInt32 &&& ~~~7

/-- The slots visited by the two nested probing loops, in order. -/
def probePath (hashes : Hashes) (hashtableSize : UInt64) (key : Bytes) : List Nat :=
  (List.finRange hashCount).flatMap fun fn =>
    (List.range probesBeforeRehash).map
      fun j => (hashIndexStart hashtableSize (hashes fn key)).toNat + j

namespace FawnDS

/-- A fresh store: zeroed table, and a log that starts at `db_size`, behind the
header pages and the space of the table, all zero-filled. -/
def create (headerSize : Nat) (hashtableSize : UInt64) : FawnDS :=
  let dbSize := headerSize + 6 * hashtableSize.toNat
  { header := ⟨hashtableSize, 0, 0, dbSize⟩
    hashTable := Array.replicate hashtableSize.toNat {}
    datastore := List.replicate dbSize 0
    sizeEq := by simp }

variable (ds : FawnDS)

/-- `hash_table_[index]`. -/
def entry (index : Nat) : HashEntry := ds.hashTable.getD index {}

def setEntry (index : Nat) (e : HashEntry) : FawnDS :=
  { ds with
    hashTable := ds.hashTable.setIfInBounds index e
    sizeEq := by simp [ds.sizeEq] }

def deleted (index : Nat) : Bool := (ds.entry index).presentKey &&& deletedBitMask != 0

def valid (index : Nat) : Bool := (ds.entry index).presentKey &&& validBitMask != 0

/-- `exists`: neither deleted nor empty. -/
def existsAt (index : Nat) : Bool := ds.valid index && !ds.deleted index

def verifykey (index : Nat) : UInt16 := (ds.entry index).presentKey &&& keyfragMask

/-- The record of an entry carries exactly this key. -/
def recordHasKey (index : Nat) (key : Bytes) : Bool :=
  match FawnDSFlash.readIntoHeader ds.datastore (ds.entry index).offset.toNat with
  | some (_, ckey) => ckey == key
  | none => false

/-- The body of `FindHashIndexInsert` along a list of slots; the flag is `newObj`. -/
def findHashIndexInsertIn (key : Bytes) : List Nat → Option (Nat × Bool)
  | [] => none
  | hashIndex :: rest =>
    if !ds.existsAt hashIndex then some (hashIndex, true)
    else if ds.verifykey hashIndex == keyfragmentFromKey key && ds.recordHasKey hashIndex key then
      some (hashIndex, false)
    else findHashIndexInsertIn key rest

/-- The body of `FindHashIndex` along a list of slots; `none` is `-1`. -/
def findHashIndexIn (key : Bytes) : List Nat → Option Nat
  | [] => none
  | hashIndex :: rest =>
    if !ds.valid hashIndex then none
    else if ds.deleted hashIndex then findHashIndexIn key rest
    else if ds.verifykey hashIndex == keyfragmentFromKey key && ds.recordHasKey hashIndex key then
      some hashIndex
    else findHashIndexIn key rest

/-- The body of `Get` along a list of slots, with its in-out string `data`. -/
def getIn (key : Bytes) (data : Bytes) : List Nat → Bool × Bytes
  | [] => (false, data)
  | hashIndex :: rest =>
    if !ds.valid hashIndex then (false, data)
    else if ds.deleted hashIndex then getIn key data rest
    else if ds.verifykey hashIndex == keyfragmentFromKey key then
      match FawnDSFlash.read ds.datastore key (ds.entry hashIndex).offset.toNat data with
      | (true, data) => (true, data)
      | (false, data) => getIn key data rest
    else getIn key data rest

variable (hashes : Hashes)

def path (key : Bytes) : List Nat := probePath hashes ds.header.hashtableSize key

def findHashIndexInsert (key : Bytes) : Option (Nat × Bool) :=
  ds.findHashIndexInsertIn key (ds.path hashes key)

def findHashIndex (key : Bytes) : Option Nat := ds.findHashIndexIn key (ds.path hashes key)

def get (key : Bytes) (data : Bytes) : Bool × Bytes := ds.getIn key data (ds.path hashes key)

/-- The write of `Insert` once a slot is chosen: log record, table entry, header. -/
def insertAt (hashIndex : Nat) (newObj : Bool) (key data : Bytes) : FawnDS :=
  let point := ds.header.dataInsertionPoint
  let keyInHashtable := keyfragmentFromKey key ||| validBitMask
  let updated := ds.setEntry hashIndex ⟨keyInHashtable, UInt32.ofNat point⟩
  { updated with
    header :=
      { ds.header with
        dataInsertionPoint := point + dataHeaderSize + key.length + data.length
        numberElements := if newObj then ds.header.numberElements + 1
          else ds.header.numberElements }
    datastore := FawnDSFlash.write ds.datastore key data point
    sizeEq := updated.sizeEq }

/-- `FawnDS::Insert`: a full table and a key without a slot are refused. -/
def insert (key data : Bytes) : Bool × FawnDS :=
  if ds.header.numberElements == ds.header.hashtableSize then (false, ds)
  else
    match ds.findHashIndexInsert hashes key with
    | none => (false, ds)
    | some (hashIndex, newObj) => (true, ds.insertAt hashIndex newObj key data)

/-- `present_key |= DELETEDBITMASK`. -/
def markDeleted (index : Nat) : FawnDS :=
  ds.setEntry index
    { ds.entry index with presentKey := (ds.entry index).presentKey ||| deletedBitMask }

/-- The log record of `Delete`, with the header fields it moves. -/
def logDelete (key : Bytes) : FawnDS :=
  { ds with
    header :=
      { ds.header with
        dataInsertionPoint := ds.header.dataInsertionPoint + dataHeaderSize + key.length
        deletedElements := ds.header.deletedElements + 1 }
    datastore := FawnDSFlash.delete ds.datastore key ds.header.dataInsertionPoint }

/-- The `while` loop of `Delete` that marks stale entries of the key. -/
def eliminateStale (key : Bytes) : Nat → FawnDS → FawnDS
  | 0, ds => ds
  | fuel + 1, ds =>
    match ds.findHashIndex hashes key with
    | none => ds
    | some hashIndex => eliminateStale key fuel (ds.markDeleted hashIndex)

/-- The count of a delete that leaves no record. -/
def countDelete : FawnDS :=
  { ds with header := { ds.header with deletedElements := ds.header.deletedElements + 1 } }

/-- `FawnDS::Delete` with any `writeLog`. The loop is given one round for every slot of the path, which
always reaches its exit (`Rep.eliminateStale`). -/
def deleteWith (writeLog : Bool) (key : Bytes) : Bool × FawnDS :=
  match ds.findHashIndex hashes key with
  | none => (false, ds)
  | some hashIndex =>
    if writeLog && !ds.valid hashIndex then (false, ds)
    else
      (true, eliminateStale hashes key (ds.path hashes key).length
        ((if writeLog then ds.logDelete key else ds.countDelete).markDeleted hashIndex))

/-- `FawnDS::Delete` without `writeLog`. -/
def delete (key : Bytes) : Bool × FawnDS := ds.deleteWith hashes true key

theorem deleteWith_true (key : Bytes) : ds.deleteWith hashes true key = ds.delete hashes key := rfl

end FawnDS

end FawnKV.Fawn
