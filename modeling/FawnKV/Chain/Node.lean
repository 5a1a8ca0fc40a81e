import Mathlib.Data.List.Basic
import Mathlib.Algebra.Group.Nat.Defs
import Mathlib.Algebra.Group.Int.Defs

/-! One node of a replication chain: `interval_db` and the handlers that work on it. -/
namespace FawnKV.Chain

/-- A client's put, or its remove, in which case the value is empty. -/
structure Operation (K V : Type) where
  key : K
  value : V
  remove : Bool
deriving DecidableEq, Repr

/-- `put(key, value, hops, ackhops, continuation, seq, flush, remove, ip)`; `flush` is not used. -/
structure PutMessage (K V : Type) where
  op : Operation K V
  hops : Int
  ackhops : Int
  continuation : Nat
  seq : Nat
deriving DecidableEq, Repr

/-- `put_ack(key, seq, hops, ip)`. -/
structure AckMessage (K : Type) where
  key : K
  seq : Int
  hops : Int
deriving DecidableEq, Repr

/-- `siltds` is the sequence of the calls of `Put` and `Delete`, which all succeed; an empty
`splitPoint` is `none`. -/
structure IntervalDb (K V : Type) where
  siltds : List (Operation K V)
  seqMsgQueue : List (Nat × K × V)
  seqContQueue : List (Nat × Nat)
  seqMsgQueueTmp : List (Nat × K × V)
  seqContQueueTmp : List (Nat × Nat)
  splitPoint : Option K
  lastAck : Nat
  lastPut : Nat
  sequence : Nat
deriving DecidableEq, Repr

/-- `repairInfo`, two signed numbers of 32 bits. -/
structure RepairInfo where
  lastPut : Int
  lastAck : Int
deriving DecidableEq, Repr

/-- The conversion to `uint32_t`. -/
def toUInt32 (x : Int) : Nat := (x % 2 ^ 32).toNat

namespace IntervalDb

variable {K V : Type}

/-- `init_interval_db`; it sets no `last_put`, so that field is what the memory holds. -/
def init (lastPut : Nat) : IntervalDb K V :=
  { siltds := []
    seqMsgQueue := []
    seqContQueue := []
    seqMsgQueueTmp := []
    seqContQueueTmp := []
    splitPoint := none
    lastAck := 0
    lastPut := lastPut % 2 ^ 32
    sequence := 1 }

/-- The value the store returns for a key. -/
def get [DecidableEq K] (db : IntervalDb K V) (key : K) : Option V :=
  match db.siltds.reverse.find? fun op => op.key = key with
  | some op => if op.remove then none else some op.value
  | none => none

/-- The queue a put is buffered in. -/
def buffer (db : IntervalDb K V) (m : PutMessage K V) : IntervalDb K V :=
  let p := (m.seq % 2 ^ 32, m.op.key, m.op.value)
  let q := (m.seq % 2 ^ 32, m.continuation)
  if db.splitPoint.isNone then
    { db with seqMsgQueue := db.seqMsgQueue ++ [p], seqContQueue := db.seqContQueue ++ [q] }
  else
    { db with seqMsgQueueTmp := db.seqMsgQueueTmp ++ [p], seqContQueueTmp := db.seqContQueueTmp ++ [q] }

/-- What `put_helper` does while it holds `dbLock`. -/
def applyPut (db : IntervalDb K V) (m : PutMessage K V) : IntervalDb K V :=
  let db := { db with siltds := db.siltds ++ [m.op], lastPut := m.seq % 2 ^ 32 }
  if m.hops - 1 = 0 then { db with lastAck := m.seq % 2 ^ 32 } else db.buffer m

/-- The number a put is forwarded with: its own, or the next of this node. -/
def assignSequence (db : IntervalDb K V) (seq : Nat) : Nat × IntervalDb K V :=
  if seq % 2 ^ 32 = 0 then
    (db.sequence, { db with sequence := (db.sequence + 1) % 2 ^ 32 })
  else (seq % 2 ^ 32, db)

/-- The put as it is sent to the successor. -/
def forward (m : PutMessage K V) (sequence : Nat) : PutMessage K V :=
  { m with hops := m.hops - 1, seq := sequence }

/-- The acknowledgement the tail sends to its predecessor. -/
def tailAck (m : PutMessage K V) : Option (AckMessage K) :=
  if 0 < m.ackhops - 1 then some { key := m.op.key, seq := m.seq, hops := m.ackhops - 2 } else none

/-- `put_helper` from its start to its end, with the messages it sends on. -/
def putHelper (db : IntervalDb K V) (m : PutMessage K V) :
    IntervalDb K V × Option (PutMessage K V) × Option (AckMessage K) :=
  let db := db.applyPut m
  if m.hops - 1 = 0 then (db, none, tailAck m)
  else
    let r := db.assignSequence m.seq
    (r.2, some (forward m r.1), none)

theorem applyPut_siltds (db : IntervalDb K V) (m : PutMessage K V) :
    (db.applyPut m).siltds = db.siltds ++ [m.op] := by
  unfold applyPut buffer
  simp only
  split
  · rfl
  · split <;> rfl

theorem applyPut_sequence (db : IntervalDb K V) (m : PutMessage K V) :
    (db.applyPut m).sequence = db.sequence := by
  unfold applyPut buffer
  simp only
  split
  · rfl
  · split <;> rfl

theorem putHelper_siltds (db : IntervalDb K V) (m : PutMessage K V) :
    (db.putHelper m).1.siltds = db.siltds ++ [m.op] := by
  rw [← applyPut_siltds, putHelper]
  simp only [assignSequence]
  split
  · rfl
  · split <;> rfl

/-- The loop that pops the acknowledged entries of a queue. -/
def popAcked {α : Type} (queue : List (Nat × α)) (seq : Int) : List (Nat × α) :=
  queue.dropWhile fun e => (e.1 : Int) ≤ seq

/-- The number of the last entry popped, if there is one. -/
def lastPopped {α : Type} (queue : List (Nat × α)) (seq : Int) : Option Nat :=
  (queue.takeWhile fun e => (e.1 : Int) ≤ seq).getLast?.map Prod.fst

/-- Whether the acknowledgement is for the entries buffered during a split. -/
def inTempQueue (db : IntervalDb K V) (seq : Int) : Bool :=
  db.splitPoint.isSome && (lastPopped db.seqMsgQueueTmp seq).isSome

def putAck (db : IntervalDb K V) (seq : Int) : IntervalDb K V :=
  if db.inTempQueue seq then
    { db with lastAck := toUInt32 seq, seqMsgQueueTmp := popAcked db.seqMsgQueueTmp seq }
  else
    { db with
      lastAck := (lastPopped db.seqMsgQueue seq).getD (toUInt32 seq)
      seqMsgQueue := popAcked db.seqMsgQueue seq }

/-- The acknowledgement as it is sent to the predecessor. -/
def forwardAck (a : AckMessage K) : Option (AckMessage K) :=
  if 0 < a.hops then some { a with hops := a.hops - 1 } else none

/-- `handle_split` on the interval and on the new one, when the store splits. -/
def handleSplit (db new : IntervalDb K V) : IntervalDb K V × IntervalDb K V :=
  ({ db with splitPoint := none, seqMsgQueueTmp := [] },
    { new with seqMsgQueue := new.seqMsgQueue ++ db.seqMsgQueueTmp })

def chainRepairMidSucc (db : IntervalDb K V) : RepairInfo :=
  { lastPut := (db.lastPut : Int).bmod (2 ^ 32), lastAck := (db.lastAck : Int).bmod (2 ^ 32) }

theorem toUInt32_bmod {x : Nat} (h : x < 2 ^ 32) : toUInt32 ((x : Int).bmod (2 ^ 32)) = x := by
  rw [toUInt32, Int.bmod]
  split <;> omega

theorem bmod_le (x : Nat) : (x : Int).bmod (2 ^ 32) ≤ x := by
  rw [Int.bmod]
  split <;> omega

/-- The signed numbers give the `last_put` back. -/
theorem toUInt32_lastPut {db : IntervalDb K V} (h : db.lastPut < 2 ^ 32) :
    toUInt32 db.chainRepairMidSucc.lastPut = db.lastPut := by
  delta chainRepairMidSucc
  dsimp only
  exact toUInt32_bmod h

theorem chainRepairMidSucc_lastAck_le (db : IntervalDb K V) :
    db.chainRepairMidSucc.lastAck ≤ db.lastAck := by
  delta chainRepairMidSucc
  dsimp only
  exact bmod_le db.lastAck

/-- The paired loop over the two queues; past the end of the second the continuation is `0`. The
resent message is always a put. -/
def resend (lastPut : Nat) (hops ackHops : Int) :
    List (Nat × K × V) → List (Nat × Nat) → List (PutMessage K V)
  | [], _ => []
  | (seq, key, value) :: pending, conts =>
    let rest := resend lastPut hops ackHops pending conts.tail
    if lastPut < seq then
      { op := { key, value, remove := false }
        hops
        ackhops := ackHops + hops
        continuation := (conts.headD (0, 0)).2
        seq } :: rest
    else rest

/-- `chain_repair_mid` with the answer of the successor: the node, the acknowledgement it passes on
and the puts it sends to the new successor. -/
def chainRepairMid (db : IntervalDb K V) (info : RepairInfo) (key : K) (hops ackHops : Int) :
    IntervalDb K V × Option (AckMessage K) × List (PutMessage K V) :=
  let r := if db.lastAck ≠ toUInt32 info.lastAck then
      (db.putAck info.lastAck, forwardAck { key, seq := info.lastAck, hops := ackHops })
    else (db, none)
  (r.1, r.2, resend (toUInt32 info.lastPut) hops ackHops r.1.seqMsgQueue r.1.seqContQueue)

end IntervalDb

end FawnKV.Chain
