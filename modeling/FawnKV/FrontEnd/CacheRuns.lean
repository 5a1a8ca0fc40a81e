import FawnKV.FrontEnd.Cache
import Mathlib.Data.List.Induction

/-! Sequences of calls of the cache: its two tables are a window of the latest inserts. -/
namespace FawnKV.FrontEnd.Cache

open Fawn FawnKV.Membership

inductive Call where
  | insert (dkey : SizedDbid) (value : Data)
  | lookup (dkey : SizedDbid)

/-- What a call leaves; a lookup leaves all as it is. -/
def call (c : Cache) : Call → Cache
  | .insert dkey value => c.insert dkey value
  | .lookup _ => c

def calls (m : Nat) (cs : List Call) : Cache := cs.foldl call (new m)

def Call.inserted : Call → Option (Data × Data)
  | .insert dkey value => some (dkey.actualDataStr, value)
  | .lookup _ => none

/-- What the calls have inserted, the latest first. -/
def inserts (cs : List Call) : List (Data × Data) := (cs.filterMap Call.inserted).reverse

variable {c : Cache} {cs : List Call} {dkey : SizedDbid} {value : Data} {m : Nat}
  {entries : List (Data × Data)} {table : StringMap Data}

theorem inserts_insert (cs : List Call) (dkey : SizedDbid) (value : Data) :
    inserts (cs ++ [.insert dkey value]) = (dkey.actualDataStr, value) :: inserts cs := by
  rw [inserts, List.filterMap_append, List.reverse_append]
  rfl

theorem inserts_lookup (cs : List Call) (dkey : SizedDbid) :
    inserts (cs ++ [.lookup dkey]) = inserts cs := by
  rw [inserts, List.filterMap_append, List.reverse_append]
  rfl

theorem inserts_append (cs later : List Call) : inserts (cs ++ later) = inserts later ++ inserts cs := by
  rw [inserts, List.filterMap_append, List.reverse_append]
  rfl

/-- The table has the first of the entries of each key, and room is counted for every entry. -/
structure Holds (table : StringMap Data) (entries : List (Data × Data)) : Prop where
  get : ∀ key : Data, table[key]? = entries.lookup key
  size : table.size ≤ entries.length

theorem Holds.empty : Holds ∅ [] :=
  ⟨fun _ => Std.TreeMap.getElem?_emptyc, Nat.le_of_eq Std.TreeMap.size_emptyc⟩

theorem Holds.insert (h : Holds table entries) (key value : Data) :
    Holds (table.insert key value) ((key, value) :: entries) := by
  constructor
  · intro other
    rw [Std.TreeMap.getElem?_insert, List.lookup_cons, h.get]
    by_cases heq : key = other
    · subst heq
      simp
    · have hne : (other == key) = false := beq_eq_false_iff_ne.mpr (Ne.symm heq)
      simp [heq, hne]
  · exact Nat.le_trans Std.TreeMap.size_insert_le (Nat.succ_le_succ h.size)

/-- The current table has the latest inserts and the old one those before them. Once there is an old table, the
inserts that it had room for are all in it. -/
structure Window (c : Cache) (entries : List (Data × Data)) : Prop where
  room : c.sizeCur ≤ c.sizeMax / 2 ∧ c.sizeOld ≤ c.sizeMax / 2
  cur : Holds c.cur (entries.take c.sizeCur)
  old : Holds c.old ((entries.drop c.sizeCur).take c.sizeOld)
  full : c.sizeCur = entries.length ∧ c.sizeOld = 0 ∨ 0 < c.sizeCur ∧ c.sizeOld = c.sizeMax / 2

theorem lookup_take_eq_or (n : Nat) (key : Data) (entries : List (Data × Data)) :
    (entries.take n).lookup key = none ∨ (entries.take n).lookup key = entries.lookup key := by
  cases h : (entries.take n).lookup key with
  | none => exact .inl rfl
  | some value =>
    refine .inr ?_
    rw [← List.take_append_drop n entries, List.lookup_append, h]
    rfl

theorem window_new (m : Nat) : Window (new m) [] :=
  ⟨⟨Nat.zero_le _, Nat.zero_le _⟩, .empty, .empty, .inl ⟨rfl, rfl⟩⟩

theorem Window.lookup (h : Window c entries) (dkey : SizedDbid) :
    c.lookup dkey = (entries.take (c.sizeCur + c.sizeOld)).lookup dkey.actualDataStr := by
  rw [List.take_add, List.lookup_append, ← h.cur.get, ← h.old.get, Cache.lookup]
  cases c.cur[dkey.actualDataStr]? <;> rfl

theorem Window.size_le (h : Window c entries) : c.cur.size + c.old.size ≤ c.sizeMax := by
  have hcur := Nat.le_trans h.cur.size (List.length_take_le _ _)
  have hold := Nat.le_trans h.old.size (List.length_take_le _ _)
  have hroom := h.room
  omega

/-- The insert that makes the current table the old one starts the next current table. -/
theorem Window.insert (h : Window c entries) (hmax : 2 ≤ c.sizeMax) (dkey : SizedDbid) (value : Data) :
    Window (c.insert dkey value) ((dkey.actualDataStr, value) :: entries) := by
  have hroom := h.room
  by_cases hfull : c.sizeMax / 2 ≤ c.sizeCur
  · have hturn : c.turn = { c with old := c.cur, cur := ∅, sizeOld := c.sizeCur, sizeCur := 0 } := if_pos hfull
    rw [Cache.insert, hturn]
    have hone : 0 + 1 ≤ c.sizeMax / 2 := by omega
    exact ⟨⟨hone, hroom.1⟩, Holds.empty.insert _ value, h.cur, .inr ⟨Nat.one_pos, by dsimp only; omega⟩⟩
  · have hturn : c.turn = c := if_neg hfull
    rw [Cache.insert, hturn]
    have hcur : c.sizeCur + 1 ≤ c.sizeMax / 2 := by omega
    refine ⟨⟨hcur, hroom.2⟩, h.cur.insert _ value, h.old, ?_⟩
    obtain ⟨hlength, hold⟩ | ⟨-, hold⟩ := h.full
    · exact .inl ⟨congrArg (· + 1) hlength, hold⟩
    · exact .inr ⟨Nat.succ_pos _, hold⟩

theorem sizeMax_insert (c : Cache) (dkey : SizedDbid) (value : Data) :
    (c.insert dkey value).sizeMax = c.sizeMax := by
  rw [insert, turn]
  split <;> rfl

theorem window_calls (hm : 2 ≤ m) (cs : List Call) :
    Window (calls m cs) (inserts cs) ∧ (calls m cs).sizeMax = m := by
  induction cs using List.reverseRecOn with
  | nil => exact ⟨window_new m, rfl⟩
  | append_singleton cs op ih =>
    obtain ⟨hwindow, hmax⟩ := ih
    rw [calls, List.foldl_concat, ← calls]
    cases op with
    | insert dkey value =>
      rw [inserts_insert]
      exact ⟨hwindow.insert (by omega) dkey value, (sizeMax_insert _ dkey value).trans hmax⟩
    | lookup dkey =>
      rw [inserts_lookup]
      exact ⟨hwindow, hmax⟩

/-- The window is longer than one table, unless it is all there is. -/
theorem Window.reach (h : Window c entries) :
    entries.length ≤ c.sizeCur + c.sizeOld ∨ c.sizeMax / 2 + 1 ≤ c.sizeCur + c.sizeOld := by
  have hfull := h.full
  omega

/-- In every state a lookup misses or gives what the latest insert of the key gave, and it does not miss
while at most half of `sizeMax` inserts have followed that one; the tables never have more than `sizeMax`
entries. -/
theorem cache_spec (hm : 2 ≤ m) (cs : List Call) :
    (∀ dkey, (calls m cs).lookup dkey = none ∨
      (calls m cs).lookup dkey = (inserts cs).lookup dkey.actualDataStr) ∧
    (∀ before dkey value later, cs = before ++ .insert dkey value :: later →
      (inserts later).lookup dkey.actualDataStr = none → (inserts later).length ≤ m / 2 →
      (calls m cs).lookup dkey = some value) ∧
    (calls m cs).cur.size + (calls m cs).old.size ≤ m := by
  obtain ⟨hwindow, hmax⟩ := window_calls hm cs
  refine ⟨fun dkey => ?_, fun before dkey value later hcs hlatest hlength => ?_, ?_⟩
  · rw [hwindow.lookup]
    exact lookup_take_eq_or _ _ _
  · have hinserts : inserts cs = inserts later ++ (dkey.actualDataStr, value) :: inserts before := by
      rw [hcs, ← List.singleton_append, ← List.append_assoc, inserts_append, inserts_insert]
    have hreach := hwindow.reach
    rw [hinserts, List.length_append, List.length_cons, hmax] at hreach
    obtain ⟨n, hn⟩ : ∃ n, (calls m cs).sizeCur + (calls m cs).sizeOld = (inserts later).length + (n + 1) :=
      ⟨(calls m cs).sizeCur + (calls m cs).sizeOld - ((inserts later).length + 1), by omega⟩
    rw [hwindow.lookup, hinserts, hn, List.take_length_add_append, List.take_succ_cons, List.lookup_append,
      hlatest, List.lookup_cons_self]
    rfl
  · have hsize := hwindow.size_le
    rwa [hmax] at hsize

theorem cache_spec_two : 2 ≤ 2 ∧
    (calls 2 [.insert (.init [1]) [7], .insert (.init [2]) [8], .lookup (.init [1])]).lookup (.init [1]) =
      some [7] :=
  ⟨by decide, (cache_spec (by decide) _).2.1 [] (.init [1]) [7] _ rfl (by decide) (by decide)⟩

end FawnKV.FrontEnd.Cache
