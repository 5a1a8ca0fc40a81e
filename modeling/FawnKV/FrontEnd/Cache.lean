import FawnKV.Membership.RingState

/-! The cache of the front end: two tables of which the older one is dropped as a whole. -/
namespace FawnKV.FrontEnd

open Fawn FawnKV.Membership

/-- `Cache`, without the counters of lookups and hits, which are only printed. -/
structure Cache where
  old : StringMap Data
  cur : StringMap Data
  sizeOld : Nat
  sizeCur : Nat
  sizeMax : Nat

namespace Cache

def new (m : Nat) : Cache := { old := ∅, cur := ∅, sizeOld := 0, sizeCur := 0, sizeMax := m }

def lookup (c : Cache) (dkey : SizedDbid) : Option Data :=
  match c.cur[dkey.actualDataStr]? with
  | some value => some value
  | none => c.old[dkey.actualDataStr]?

/-- The start of `insert`: a full table becomes the old one. -/
def turn (c : Cache) : Cache :=
  if c.sizeMax / 2 ≤ c.sizeCur then { c with old := c.cur, cur := ∅, sizeOld := c.sizeCur, sizeCur := 0 } else c

def insert (c : Cache) (dkey : SizedDbid) (value : Data) : Cache :=
  { c.turn with cur := c.turn.cur.insert dkey.actualDataStr value, sizeCur := c.turn.sizeCur + 1 }

variable {c : Cache} {dkey other : SizedDbid} {value v : Data}

theorem lookup_new (m : Nat) (dkey : SizedDbid) : (new m).lookup dkey = none := by
  simp only [lookup, new, Std.TreeMap.getElem?_emptyc]

theorem lookup_congr (h : other.actualDataStr = dkey.actualDataStr) : c.lookup other = c.lookup dkey := by
  rw [lookup, lookup, h]

theorem lookup_of_turn (h : c.turn.lookup dkey = some v) : c.lookup dkey = some v := by
  unfold turn at h
  split at h
  · simp only [lookup, Std.TreeMap.getElem?_emptyc] at h
    rw [lookup, h]
  · exact h

theorem lookup_insert_self (c : Cache) (dkey : SizedDbid) (value : Data) :
    (c.insert dkey value).lookup dkey = some value := by
  simp only [lookup, insert, Std.TreeMap.getElem?_insert_self]

/-- Of the other keys some are dropped, and none comes back with an older value. -/
theorem lookup_of_insert (hne : dkey.actualDataStr ≠ other.actualDataStr)
    (h : (c.insert dkey value).lookup other = some v) : c.lookup other = some v := by
  apply lookup_of_turn
  simpa only [lookup, insert, Std.TreeMap.getElem?_insert, Std.compare_eq_iff_eq, if_neg hne] using h

end Cache

end FawnKV.FrontEnd
