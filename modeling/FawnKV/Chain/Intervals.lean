import FawnKV.Fawn.Dbid
import FawnKV.Chain.Node

/-! The interval databases of a node and the split of one of them. -/
namespace FawnKV.Chain

open Fawn IntervalDb RingInterval

/-- Keys and values as they come over the wire. -/
abbrev Data := List UInt8

/-- An `interval_db` with the range of its `h`. -/
structure Interval where
  startID : Dbid
  endID : Dbid
  valid : Bool
  vid : Data
  db : IntervalDb Data Data

namespace Interval

/-- The test of `findIntervalDb`. -/
def owns (key : Data) (i : Interval) : Bool := between i.startID i.endID (.init key) && i.valid

/-- The puts that wait for an acknowledgement. -/
def queued (i : Interval) : List (Nat × Data × Data) := i.db.seqMsgQueue ++ i.db.seqMsgQueueTmp

end Interval

/-- The first interval database of the list that is valid and covers the key. -/
def findIntervalDb (dbs : List Interval) (key : Data) : Option Interval := dbs.find? (·.owns key)

/-- `init_interval_db` with a start of the range: both stores are created empty. -/
def initIntervalDb (endid myVid : Data) (startID : Dbid) (lastPut : Nat) : Interval :=
  { startID
    endID := .init endid
    valid := true
    vid := if myVid = [] then endid else myVid
    db := .init lastPut }

/-- `handle_split`; `success` is what `Split` returns for the two `h` stores, and `lastPut` what the
memory of the new interval database holds. -/
def handleSplit (dbs : List Interval) (key : Data) (lastPut : Nat) (success : Bool) : List Interval :=
  match dbs.findIdx? (·.owns key) with
  | none => dbs
  | some n =>
    match dbs[n]? with
    | none => dbs
    | some i =>
      let new := initIntervalDb key i.vid i.startID lastPut
      if success then
        let r := i.db.handleSplit new.db
        dbs.set n { i with startID := .init key, db := r.1 } ++ [{ new with db := r.2 }]
      else dbs ++ [new]

/-- What `get_handler` reads for a key, if an interval covers it. -/
def readKey (dbs : List Interval) (key : Data) : Option (Option Data) :=
  (findIntervalDb dbs key).map fun i => i.db.get key

section Split

variable {dbs left right : List Interval} {i j : Interval} {key k : Data} {lastPut : Nat}

end Split

end FawnKV.Chain
