import FawnKV.Lib.RingInterval
import FawnKV.Silt.Value

/-! Identifiers on the ring (`utils/dbid`) and the ranges between them. -/
namespace FawnKV.Fawn

open Silt

/-- `DBID_LENGTH`. -/
def dbidLength : Nat := 20

/-- The `value` of a `DBID`; its `actual_size` is not used in comparisons. -/
structure Dbid where
  value : List UInt8
  length_eq : value.length = dbidLength
deriving DecidableEq, Repr

namespace Dbid

/-- `DBID::Init`: longer keys are cut off, shorter ones are filled with zeros. -/
def init (key : List UInt8) : Dbid :=
  { value := key.take dbidLength ++ List.replicate (dbidLength - key.length) 0
    length_eq := by
      rw [List.length_append, List.length_take, List.length_replicate]
      omega }

/-- The loop of `DBID::operator<`. -/
def lessThan : List UInt8 → List UInt8 → Bool
  | a :: l, b :: r => if b < a then false else if a < b then true else lessThan l r
  | _, _ => false

theorem lessThan_iff {l r : List UInt8} (h : l.length = r.length) : lessThan l r ↔ l < r := by
  induction l generalizing r with
  | nil =>
    cases r with
    | nil => simp [lessThan]
    | cons b r => simp at h
  | cons a l ih =>
    cases r with
    | nil => simp at h
    | cons b r =>
      have ih := ih (Nat.succ.inj h)
      rw [lessThan, List.cons_lt_cons_iff]
      rcases lt_trichotomy a b with hlt | rfl | hgt
      · simp [hlt, not_lt_of_gt hlt]
      · simp [ih]
      · simp [hgt, not_lt_of_gt hgt, ne_of_gt hgt]

/-- `(unsigned int)value[i]`: where a `char` is signed, the sign is extended. -/
def toUnsigned (signed : Bool) (c : UInt8) : Nat :=
  if signed = true ∧ 128 ≤ c.toNat then c.toNat + (2 ^ 32 - 2 ^ 8) else c.toNat

theorem toUnsigned_lt {signed : Bool} {a b : UInt8} : toUnsigned signed a < toUnsigned signed b ↔ a < b := by
  have ha := a.toNat_lt
  have hb := b.toNat_lt
  rw [UInt8.lt_iff_toNat_lt]
  cases signed with
  | false => simp [toUnsigned]
  | true =>
    simp only [toUnsigned, true_and]
    split_ifs <;> omega

/-- `DBID::operator<` with its casts. -/
def operatorLess (signed : Bool) : List UInt8 → List UInt8 → Bool
  | a :: l, b :: r =>
    if toUnsigned signed b < toUnsigned signed a then false
    else if toUnsigned signed a < toUnsigned signed b then true
    else operatorLess signed l r
  | _, _ => false

/-- `DBID::operator==`, by `memcmp`. -/
def operatorEq (l r : List UInt8) : Bool := l == r

/-- The casts do not change the order. -/
theorem operatorLess_eq (signed : Bool) (l r : List UInt8) : operatorLess signed l r = lessThan l r := by
  induction l generalizing r with
  | nil => rfl
  | cons a l ih =>
    cases r with
    | nil => rfl
    | cons b r =>
      rw [operatorLess, lessThan, ih r]
      simp only [toUnsigned_lt]

instance : LinearOrder Dbid := LinearOrder.lift' Dbid.value (fun a b h => by
  cases a
  cases b
  cases h
  rfl)

theorem lessThan_value (a b : Dbid) : lessThan a.value b.value ↔ a < b :=
  lessThan_iff (a.length_eq.trans b.length_eq.symm)

theorem value_inj {a b : Dbid} : a.value = b.value ↔ a = b := by
  constructor
  · intro h
    cases a
    cases b
    cases h
    rfl
  · exact congrArg Dbid.value

end Dbid

/-- A string of the whole length is taken as it is. -/
theorem init_value_of_length {data : List UInt8} (hlen : data.length = dbidLength) :
    (Dbid.init data).value = data := by
  simp only [Dbid.init, hlen, Nat.sub_self, List.replicate_zero, List.append_nil]
  exact List.take_of_length_le (Nat.le_of_eq hlen)

/-- Every id is that of a key. -/
theorem Dbid.init_value (x : Dbid) : Dbid.init x.value = x :=
  value_inj.mp (init_value_of_length x.length_eq)

/-- A `DBID` with its `actual_size`. -/
structure SizedDbid extends Dbid where
  actualSize : Nat
  actualSize_le : actualSize ≤ dbidLength

namespace SizedDbid

/-- `DBID::Init`, with the size of what it keeps of the key. -/
def init (key : List UInt8) : SizedDbid :=
  { toDbid := .init key
    actualSize := min key.length dbidLength
    actualSize_le := Nat.min_le_right _ _ }

def actualDataStr (id : SizedDbid) : List UInt8 := id.value.take id.actualSize

end SizedDbid

/-- `between`: whether the identifier lies after the first one and up to the second. -/
def between (startID endID thisID : Dbid) : Bool :=
  if startID.value = endID.value then true
  else if Dbid.lessThan endID.value startID.value then
    Dbid.lessThan startID.value thisID.value || !Dbid.lessThan endID.value thisID.value
  else Dbid.lessThan startID.value thisID.value && !Dbid.lessThan endID.value thisID.value

theorem between_iff {startID endID thisID : Dbid} :
    between startID endID thisID ↔ RingInterval.Mem startID endID thisID := by
  unfold between RingInterval.Mem
  simp only [Dbid.value_inj, Dbid.lessThan_value]
  split_ifs with heq hlt
  · trivial
  · simp [← not_lt, ← Dbid.lessThan_value]
  · simp [← not_lt, ← Dbid.lessThan_value]

/-- Whether the identifier of a key lies in a range. -/
def inRange (startKey endKey : Dbid) (key : List UInt8) : Bool := between startKey endKey (.init key)

end FawnKV.Fawn
