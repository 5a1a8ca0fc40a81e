import FawnKV.Lib.ByteFile
import FawnKV.Lib.Transition
import FawnKV.Silt.Value

/-! `HashTableCuckoo`: a table of tags and record ids with two places for every key. -/
namespace FawnKV.Silt

open ByteFile

namespace Cuckoo

def numHash : Nat := 2
def associativity : Nat := 4
def maxCuckooCount : Nat := 128
def keyfragBits : Nat := 15
def keyfragMask : Nat := 2 ^ keyfragBits - 1
def validBitMask : Nat := keyfragMask + 1

end Cuckoo

open Cuckoo

/-- The value of a number of one, two, four or eight bytes. -/
def number? (data : Value) : Option Nat :=
  if data.length = 1 ∨ data.length = 2 ∨ data.length = 4 ∨ data.length = 8 then some (readLe data)
  else none

/-- `as_number<uint32_t>`: wider numbers lose their high bytes. -/
def asNumber32 (data : Value) (default : Nat) : Nat :=
  match number? data with
  | some v => v % 2 ^ 32
  | none => default

/-- The 16 bits of the tag vector and the value of one way of a bucket. -/
structure CuckooSlot where
  keypresent : Nat
  val : Nat
deriving DecidableEq

/-- The buckets of the table with offsets stand one after the other, each with its ways. -/
structure HashTableCuckoo where
  maxIndex : Nat
  slots : List CuckooSlot
  currentEntries : Nat
deriving DecidableEq

namespace HashTableCuckoo

def create (htsInt : Int) : Except FawnDSReturn HashTableCuckoo :=
  if htsInt ≤ 0 then .error .error
  else
    let maxIndex := if htsInt.toNat < 2 ^ keyfragBits * associativity then
      htsInt.toNat / associativity else 2 ^ keyfragBits
    .ok { maxIndex, slots := List.replicate (maxIndex * associativity) ⟨0, 0⟩, currentEntries := 0 }

def slot (t : HashTableCuckoo) (index way : Nat) : CuckooSlot :=
  t.slots.getD (index * associativity + way) ⟨0, 0⟩

def valid (t : HashTableCuckoo) (index way : Nat) : Bool :=
  (t.slot index way).keypresent &&& validBitMask != 0

def tag (t : HashTableCuckoo) (index way : Nat) : Nat := (t.slot index way).keypresent &&& keyfragMask

def val (t : HashTableCuckoo) (index way : Nat) : Nat := (t.slot index way).val

def store (t : HashTableCuckoo) (index way keypresent id : Nat) : HashTableCuckoo :=
  { t with slots := t.slots.set (index * associativity + way) ⟨keypresent % 2 ^ 16, id⟩ }

/-- Fifteen bits of the last four bytes of the key. -/
def keyfrag (key : Value) (keyfragId : Nat) : Nat :=
  (readLe (key.drop (key.length - 4)) >>> (keyfragId * keyfragBits)) &&& keyfragMask

def freeslot (t : HashTableCuckoo) (index : Nat) : Nat :=
  ((List.range associativity).find? fun way => !t.valid index way).getD associativity

/-- `current_index`, `current_tag` and `current_val` of `Put`: the entry without a slot. -/
structure Current where
  index : Nat
  tag : Nat
  val : Nat
deriving DecidableEq

def initial (t : HashTableCuckoo) (key : Value) (fn val : Nat) : Current :=
  { index := keyfrag key fn % t.maxIndex
    tag := keyfrag key ((fn + 1) % numHash) % t.maxIndex
    val }

def occupy (t : HashTableCuckoo) (c : Current) (way : Nat) : HashTableCuckoo :=
  let t := t.store c.index way (c.tag ||| validBitMask) c.val
  { t with currentEntries := t.currentEntries + 1 }

/-- Take the slot of the victim, which is the next entry to place. -/
def displace (t : HashTableCuckoo) (c : Current) (way : Nat) : HashTableCuckoo × Current :=
  (t.store c.index way (c.tag ||| validBitMask) c.val,
    { index := t.tag c.index way % t.maxIndex
      tag := c.index % t.maxIndex
      val := t.val c.index way })

/-- Give the victims their slots back, the last one first; the value left over is the new one. -/
def undoCuckooing (t : HashTableCuckoo) (tag val : Nat) :
    List (Nat × Nat) → HashTableCuckoo × Nat
  | [] => (t, val)
  | (index, way) :: undo =>
    undoCuckooing (t.store index way (tag ||| validBitMask) val) (index % t.maxIndex)
      (t.val index way) undo

/-- The loop of `Put` with `rest` rounds to go; `n` counts the calls of `rand`. -/
def cuckooLoop (rand : Nat → Nat) (dataVal : Nat) (t : HashTableCuckoo) (c : Current)
    (undo : List (Nat × Nat)) (n : Nat) : Nat → Option (FawnDSReturn × HashTableCuckoo)
  | 0 =>
    let r := undoCuckooing t (c.index % t.maxIndex) c.val undo
    if r.2 = dataVal then some (.insufficientSpace, r.1) else none
  | rest + 1 =>
    if t.freeslot c.index < associativity then
      some (.ok, t.occupy c (t.freeslot c.index))
    else
      let way := rand n % associativity
      let r := t.displace c way
      cuckooLoop rand dataVal r.1 r.2 ((c.index, way) :: undo) (n + 1) rest

/-- `none` is an assertion: the key is too short, or the undo loop ends with another value. -/
def put (rand : Nat → Nat) (t : HashTableCuckoo) (key data : Value) :
    Option (FawnDSReturn × HashTableCuckoo) :=
  if key.length < 4 then none
  else
    let fn := rand 0 % numHash
    let c := t.initial key fn (asNumber32 data 0)
    if t.freeslot c.index < associativity then some (.ok, t.occupy c (t.freeslot c.index))
    else
      cuckooLoop rand (asNumber32 data 0) t (t.initial key ((fn + 1) % numHash) (asNumber32 data 0))
        [] 1 maxCuckooCount

/-- An iterator of `Find`, or of `Enumerate` when the key is empty. `rows` is one more than
`current_keyfrag_id` or `current_index`, which start from minus one. -/
structure IteratorElem where
  key : Value
  rows : Nat
  way : Nat
deriving DecidableEq

namespace IteratorElem

/-- The number of buckets the iterator goes through. -/
def limit (t : HashTableCuckoo) (it : IteratorElem) : Nat :=
  if it.key.length ≠ 0 then numHash else t.maxIndex

def currentIndex (t : HashTableCuckoo) (it : IteratorElem) : Nat :=
  if it.key.length ≠ 0 then keyfrag it.key (it.rows - 1) % t.maxIndex else it.rows - 1

def isMatch (t : HashTableCuckoo) (it : IteratorElem) : Bool :=
  t.valid (it.currentIndex t) it.way &&
    (it.key.length == 0 ||
      t.tag (it.currentIndex t) it.way ==
        keyfrag it.key ((it.rows - 1 + 1) % numHash) % t.maxIndex)

/-- The step of the iterator to the next way. -/
def advance (it : IteratorElem) : IteratorElem :=
  if associativity ≤ it.way + 1 then { it with way := 0, rows := it.rows + 1 }
  else { it with way := it.way + 1 }

theorem limit_advance (t : HashTableCuckoo) (it : IteratorElem) :
    it.advance.limit t = it.limit t := by
  unfold advance limit
  split <;> rfl

/-- The buckets and the ways still to come. -/
def remaining (t : HashTableCuckoo) (it : IteratorElem) : Nat × Nat :=
  (it.limit t + 1 - it.rows, associativity - it.way)

theorem remaining_advance {t : HashTableCuckoo} {it : IteratorElem}
    (h : ¬it.limit t < it.advance.rows) :
    Prod.Lex (· < ·) (· < ·) (it.advance.remaining t) (it.remaining t) := by
  rw [remaining, remaining, limit_advance]
  unfold advance at h ⊢
  split
  · rename_i hway
    rw [if_pos hway] at h
    exact Prod.Lex.left _ _ (by simp only at h ⊢; omega)
  · exact Prod.Lex.right _ (by simp only; omega)

/-- `none` is the state `END`. -/
def next (t : HashTableCuckoo) (it : IteratorElem) : Option IteratorElem :=
  if it.limit t < it.advance.rows then none
  else if it.advance.isMatch t then some it.advance
  else next t it.advance
termination_by it.remaining t
decreasing_by exact remaining_advance (by assumption)

theorem remaining_next {t : HashTableCuckoo} {it it' : IteratorElem} (h : next t it = some it') :
    Prod.Lex (· < ·) (· < ·) (it'.remaining t) (it.remaining t) := by
  induction it using next.induct t with
  | case1 it hend =>
    rw [next, if_pos hend] at h
    cases h
  | case2 it hend hmatch =>
    rw [next, if_neg hend, if_pos hmatch] at h
    cases h
    exact remaining_advance hend
  | case3 it hend hmatch ih =>
    rw [next, if_neg hend, if_neg hmatch] at h
    exact Prod.Lex.trans (ih h) (remaining_advance hend)

/-- Where the iterator stands in the rounds of a loop that goes on until `END`. -/
def yields (t : HashTableCuckoo) (it : IteratorElem) : List IteratorElem :=
  match _h : next t it with
  | none => []
  | some it' => it' :: yields t it'
termination_by it.remaining t
decreasing_by exact remaining_next (by assumption)

def data (t : HashTableCuckoo) (it : IteratorElem) : Nat := t.val (it.currentIndex t) it.way

end IteratorElem

def find (key : Value) : IteratorElem := { key, rows := 0, way := associativity - 1 }

def enumerate : IteratorElem := { key := [], rows := 0, way := associativity - 1 }

/-- `Replace` writes the id where the iterator stands. -/
def replace (t : HashTableCuckoo) (index way : Nat) (data : Value) : FawnDSReturn × HashTableCuckoo :=
  let newId := asNumber32 data (2 ^ 32 - 1)
  if newId = 2 ^ 32 - 1 then (.invalidData, t)
  else
    (.ok, { t with
      slots := t.slots.set (index * associativity + way) { t.slot index way with val := newId } })

end HashTableCuckoo

end FawnKV.Silt
