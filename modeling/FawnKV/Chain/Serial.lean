import Mathlib.Logic.Function.Basic
import FawnKV.Lib.Transition
import FawnKV.Chain.Node

/-! A chain whose nodes process their messages one at a time, and the repair of an interior node. -/
namespace FawnKV.Chain

open IntervalDb

/-- A node with its history: the puts it forwarded, each with the number it was forwarded with, and
the numbers of the acknowledgements it processed. The tail acknowledges a put when it applies it. -/
structure Replica (K V : Type) where
  db : IntervalDb K V
  forwarded : List (Nat × K × V)
  acked : List Int

/-- `links j` and `acks j` are on their way to node `j`, from its predecessor and from its successor;
`down` is the node that stopped. -/
structure SerialState (K V : Type) where
  replicas : Nat → Replica K V
  links : Nat → List (PutMessage K V)
  acks : Nat → List (AckMessage K)
  down : Option Nat
  repaired : Bool

/-- A request comes with the length of the chain as the frontend knows it. -/
inductive SerialStep (K V : Type) where
  | request (op : Operation K V) (continuation : Nat) (hops : Int)
  | receive (j : Nat)
  | receiveAck (j : Nat)
  | fail (f : Nat)
  | repair (key : K) (hops ackHops : Int)

variable {K V : Type}

namespace SerialState

def initial (memory : Nat → Nat) : SerialState K V :=
  { replicas := fun j => { db := .init (memory j), forwarded := [], acked := [] }
    links := fun _ => []
    acks := fun _ => []
    down := none
    repaired := false }

/-- Where the puts of a node go; those for a node that is down are lost. -/
def succOf (s : SerialState K V) (j : Nat) : Option Nat :=
  match s.down with
  | none => some (j + 1)
  | some f => if j + 1 = f then (if s.repaired then some (f + 1) else none) else some (j + 1)

/-- Where the acknowledgements of a node go. -/
def predOf (s : SerialState K V) (j : Nat) : Option Nat :=
  if j = 0 then none
  else
    match s.down with
    | none => some (j - 1)
    | some f => if j = f + 1 then (if s.repaired then some (f - 1) else none) else some (j - 1)

def sendPut (s : SerialState K V) (j : Nat) (m : Option (PutMessage K V)) : Nat → List (PutMessage K V) :=
  match m, s.succOf j with
  | some m, some k => Function.update s.links k (s.links k ++ [m])
  | _, _ => s.links

def sendAck (s : SerialState K V) (j : Nat) (a : Option (AckMessage K)) : Nat → List (AckMessage K) :=
  match a, s.predOf j with
  | some a, some k => Function.update s.acks k (s.acks k ++ [a])
  | _, _ => s.acks

end SerialState

namespace Replica

/-- `put_helper` at a node, with its history. -/
def put (r : Replica K V) (m : PutMessage K V) : Replica K V :=
  match (r.db.putHelper m).2.1 with
  | some m' =>
    { r with
      db := (r.db.putHelper m).1
      forwarded := r.forwarded ++ [(m'.seq, m'.op.key, m'.op.value)] }
  | none => { r with db := (r.db.putHelper m).1, acked := r.acked ++ [(m.seq : Int)] }

def putAck (r : Replica K V) (seq : Int) : Replica K V :=
  { r with db := r.db.putAck seq, acked := r.acked ++ [seq] }

/-- The puts that were applied and forwarded and whose acknowledgement has not been processed. -/
def outstanding (r : Replica K V) : List (Nat × K × V) :=
  r.forwarded.filter fun e => (e.1 : Int) ∉ r.acked

end Replica

namespace SerialState

def handlePut (s : SerialState K V) (j : Nat) (m : PutMessage K V) : SerialState K V :=
  { s with
    replicas := Function.update s.replicas j ((s.replicas j).put m)
    links := s.sendPut j ((s.replicas j).db.putHelper m).2.1
    acks := s.sendAck j ((s.replicas j).db.putHelper m).2.2 }

def handleAck (s : SerialState K V) (j : Nat) (a : AckMessage K) : SerialState K V :=
  { s with
    replicas := Function.update s.replicas j ((s.replicas j).putAck a.seq)
    acks := s.sendAck j (forwardAck a) }

/-- `chain_repair_mid` at the node before the one that is down, with the call of
`chain_repair_mid_succ` at the node after it. -/
def handleRepair (s : SerialState K V) (f : Nat) (key : K) (hops ackHops : Int) : SerialState K V :=
  let info := (s.replicas (f + 1)).db.chainRepairMidSucc
  let pred := s.replicas (f - 1)
  let r := pred.db.chainRepairMid info key hops ackHops
  { s with
    replicas := Function.update s.replicas (f - 1)
      { pred with
        db := r.1
        acked := if pred.db.lastAck ≠ toUInt32 info.lastAck then pred.acked ++ [info.lastAck]
          else pred.acked }
    links := Function.update s.links (f + 1) (s.links (f + 1) ++ r.2.2)
    acks := s.sendAck (f - 1) r.2.1
    repaired := true }

/-- A step in a chain of `n` nodes. The messages to and from a node that stops are lost. After a
repair frontends may know that the chain is shorter. What the tail sends on stays in `links n`. -/
def step (n : Nat) (s : SerialState K V) : SerialStep K V → Option (SerialState K V)
  | .request op continuation hops =>
    if hops = n ∨ s.repaired ∧ hops = (n : Int) - 1 then
      some (s.handlePut 0 { op, hops, ackhops := hops, continuation, seq := 0 })
    else none
  | .receive j =>
    if 0 < j ∧ j < n ∧ s.down ≠ some j then
      match s.links j with
      | m :: rest => some ({ s with links := Function.update s.links j rest }.handlePut j m)
      | [] => none
    else none
  | .receiveAck j =>
    if j < n ∧ s.down ≠ some j then
      match s.acks j with
      | a :: rest => some ({ s with acks := Function.update s.acks j rest }.handleAck j a)
      | [] => none
    else none
  | .fail f =>
    if s.down = none ∧ 0 < f ∧ f + 1 < n then
      some
        { s with
          links := Function.update (Function.update s.links f []) (f + 1) []
          acks := Function.update (Function.update s.acks f []) (f - 1) []
          down := some f }
    else none
  | .repair key hops ackHops =>
    match s.down with
    | some f => if s.repaired then none else some (s.handleRepair f key hops ackHops)
    | none => none

section Inversion

variable {n j f : Nat} {s t : SerialState K V} {op : Operation K V} {continuation : Nat} {key : K}
  {hops ackHops : Int}

theorem step_request_eq_some : s.step n (.request op continuation hops) = some t ↔
    (hops = n ∨ s.repaired ∧ hops = (n : Int) - 1) ∧
    s.handlePut 0 { op, hops, ackhops := hops, continuation, seq := 0 } = t := by
  unfold step
  simp only
  rw [Option.ite_none_right_eq_some, Option.some.injEq]

theorem step_receive_eq_some : s.step n (.receive j) = some t ↔
    (0 < j ∧ j < n ∧ s.down ≠ some j) ∧ ∃ m rest, s.links j = m :: rest ∧
    { s with links := Function.update s.links j rest }.handlePut j m = t := by
  unfold step
  simp only
  rw [Option.ite_none_right_eq_some]
  cases s.links j <;> simp

theorem step_receiveAck_eq_some : s.step n (.receiveAck j) = some t ↔
    (j < n ∧ s.down ≠ some j) ∧ ∃ a rest, s.acks j = a :: rest ∧
    { s with acks := Function.update s.acks j rest }.handleAck j a = t := by
  unfold step
  simp only
  rw [Option.ite_none_right_eq_some]
  cases s.acks j <;> simp

theorem step_fail_eq_some : s.step n (.fail f) = some t ↔
    (s.down = none ∧ 0 < f ∧ f + 1 < n) ∧ { s with
      links := Function.update (Function.update s.links f []) (f + 1) []
      acks := Function.update (Function.update s.acks f []) (f - 1) []
      down := some f } = t := by
  unfold step
  simp only
  rw [Option.ite_none_right_eq_some, Option.some.injEq]

theorem step_repair_eq_some : s.step n (.repair key hops ackHops) = some t ↔
    s.repaired = false ∧ ∃ f, s.down = some f ∧ s.handleRepair f key hops ackHops = t := by
  unfold step
  cases s.down <;> simp

end Inversion

end SerialState

end FawnKV.Chain
