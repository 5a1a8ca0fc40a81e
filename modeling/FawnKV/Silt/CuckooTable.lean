import FawnKV.Silt.CuckooRuns
import FawnKV.Silt.StandardStoreInvariant

/-! The cuckoo table as the hash table of a `FawnDS_SF`. -/
namespace FawnKV.Silt.HashTableCuckoo

open Cuckoo ByteFile

/-- A table, and what `rand` returns in each of the calls of `Put` to come. -/
structure Seeded where
  table : HashTableCuckoo
  draws : Nat → Nat → Nat

/-- What an iterator of `Find` yields: where it stands, and the id there as four bytes. -/
def candidates (t : HashTableCuckoo) (key : Value) : List ((Nat × Nat) × Value) :=
  ((find key).yields t).map fun it => ((it.currentIndex t, it.way), leBytes 4 (it.data t))

/-- A key of fewer than four bytes is an assertion, and a table without buckets a division by zero. -/
def hashTable : HashTable Seeded (Nat × Nat) where
  find s key :=
    if key.length < 4 ∨ s.table.maxIndex = 0 then none else some (candidates s.table key)
  put s key data :=
    if s.table.maxIndex = 0 then none
    else (put (s.draws 0) s.table key data).map fun (ret, t) =>
      (ret, { table := t, draws := fun n => s.draws (n + 1) })
  replace s c data :=
    let (ret, t) := replace s.table c.1 c.2 data
    some (ret, { s with table := t })

theorem find_none {s : Seeded} {key : Value} (h : key.length < 4 ∨ s.table.maxIndex = 0) :
    hashTable.find s key = none := if_pos h

theorem find_some {s : Seeded} {key : Value} (h : ¬(key.length < 4 ∨ s.table.maxIndex = 0)) :
    hashTable.find s key = some (candidates s.table key) := if_neg h

section Candidates

variable {t : HashTableCuckoo} {key : Value} {it : IteratorElem}

/-- The iterator stands on valid slots of the key's two buckets. -/
theorem mem_find_yields (hkey : key.length ≠ 0) (h : it ∈ (find key).yields t) :
    it.key = key ∧ it.way < associativity ∧ t.valid (it.currentIndex t) it.way = true := by
  have hlimit : (IteratorElem.ofCursor key 3).limit t = numHash := if_pos hkey
  rw [IteratorElem.find_eq, IteratorElem.yields_ofCursor t key (numHash * associativity) 3
    (by rw [hlimit]; rfl), List.mem_filter] at h
  obtain ⟨hmem, hmatch⟩ := h
  obtain ⟨c, -, rfl⟩ := List.mem_map.mp hmem
  refine ⟨rfl, Nat.mod_lt _ (by decide), ?_⟩
  rw [IteratorElem.isMatch, Bool.and_eq_true] at hmatch
  exact hmatch.1

theorem currentIndex_lt (hkey : key.length ≠ 0) (hpos : 0 < t.maxIndex)
    (h : it ∈ (find key).yields t) : it.currentIndex t < t.maxIndex := by
  obtain ⟨rfl, -⟩ := mem_find_yields hkey h
  rw [IteratorElem.currentIndex, if_pos hkey]
  exact Nat.mod_lt _ hpos

end Candidates

section Contract

variable {live : List (Value × Nat)} {t : HashTableCuckoo} {key : Value} {id : Nat}

/-- The pairs after an id has been exchanged. -/
theorem mem_rename {old new : Nat} (hnodup : (live.map Prod.snd).Nodup) (hmem : (key, old) ∈ live) :
    {e | e ∈ rename old new live} = insert (key, new) ({e | e ∈ live} \ {(key, old)}) := by
  have hperm := rename_perm new (List.perm_cons_erase hmem) hnodup
  ext e
  rw [Set.mem_ofPred_eq, hperm.mem_iff, List.mem_cons, (List.Nodup.of_map _ hnodup).mem_erase_iff,
    Set.mem_insert_iff, Set.mem_sdiff, Set.mem_ofPred_eq, Set.mem_singleton_iff, and_comm (a := e ≠ _)]

/-- The table holds the pairs that its calls have put into it. -/
def Holds (s : Seeded) (L : Set (Value × Nat)) : Prop :=
  ∃ live, Inv ⟨s.table, live⟩ ∧ L = {e | e ∈ live} ∧ ∀ e ∈ live, e.2 < 2 ^ 32

theorem val_lt (h : Inv ⟨t, live⟩) (hlt : ∀ e ∈ live, e.2 < 2 ^ 32) {index way : Nat}
    (hindex : index < t.maxIndex) (hway : way < associativity) (hvalid : t.valid index way = true) :
    t.val index way < 2 ^ 32 := by
  obtain ⟨e, he, -, hval⟩ := live_of_valid h hindex hway hvalid
  exact hval ▸ hlt e he

theorem find_holds {s : Seeded} {L : Set (Value × Nat)} (h : Holds s L) (hkey : 4 ≤ key.length) :
    ∃ l, hashTable.find s key = some l ∧ (∀ id, (key, id) ∈ L → ∃ e ∈ l, Denotes e.2 id) ∧
      ∀ e ∈ l, ∃ key' id, (key', id) ∈ L ∧ Denotes e.2 id := by
  obtain ⟨live, hinv, rfl, hlt⟩ := h
  have hpos := hinv.wellformed.maxIndex_pos
  have hne : key.length ≠ 0 := by omega
  refine ⟨candidates s.table key, if_neg (by simp only at hpos; omega), ?_, ?_⟩
  · intro id hmem
    obtain ⟨index, way, hslot⟩ := exists_slotOf hinv hmem
    obtain ⟨it, hit, rfl, rfl⟩ := find_slotOf (e := (key, id)) hkey hslot
    refine ⟨_, List.mem_map_of_mem hit, ?_⟩
    show Denotes (leBytes 4 (s.table.val _ _)) id
    rw [hslot.val]
    exact denotes_leBytes (.inl rfl) (hlt _ hmem)
  · intro e he
    obtain ⟨it, hit, rfl⟩ := List.mem_map.mp he
    obtain ⟨-, hway, hvalid⟩ := mem_find_yields hne hit
    obtain ⟨e', he', -, hval⟩ := live_of_valid hinv (currentIndex_lt hne hpos hit) hway hvalid
    refine ⟨e'.1, e'.2, he', ?_⟩
    show Denotes (leBytes 4 (s.table.val _ _)) e'.2
    rw [← hval]
    exact denotes_leBytes (.inl rfl) (hlt _ he')

theorem put_holds {s : Seeded} {L : Set (Value × Nat)} {v : Value} (h : Holds s L)
    (hkey : 4 ≤ key.length) (hv : Denotes v id) (hid : id < 2 ^ 32 - 1) (hfresh : ∀ e ∈ L, e.2 ≠ id) :
    ∃ ret s', hashTable.put s key v = some (ret, s') ∧
      (ret = .ok ∧ Holds s' (insert (key, id) L) ∨
        ret ≠ .ok ∧ ret ≠ .keyNotFound ∧ Holds s' L) := by
  obtain ⟨live, hinv, rfl, hlt⟩ := h
  have hpos := hinv.wellformed.maxIndex_pos
  have hidOf := (asNumber32_eq (by omega) hv.1 0).2
  have hfits : (Op.put key v (s.draws 0)).Fits := ⟨hkey, id, by omega, hv.1⟩
  have hnew : idOf v ∉ live.map Prod.snd := by
    rw [hidOf]
    intro hmem
    obtain ⟨e, he, heq⟩ := List.mem_map.mp hmem
    exact hfresh e he heq
  obtain ⟨ret, t', hput, hcases⟩ := put_adds (s.draws 0) hinv.wellformed hkey v
  have htable : hashTable.put s key v = some (ret, ⟨t', fun n => s.draws (n + 1)⟩) := by
    show (if s.table.maxIndex = 0 then none else _) = _
    rw [if_neg (by simp only at hpos; omega)]
    simp only at hput
    rw [hput]
    rfl
  have hstep : step ⟨s.table, live⟩ (.put key v (s.draws 0)) =
      some ⟨t', if ret = .ok then live ++ [(key, idOf v)] else live⟩ := by
    simp only at hput
    simp only [step, hput, Option.map_some]
  have hinv' := (inv_put hinv hfits hnew hstep).1
  refine ⟨ret, _, htable, ?_⟩
  rcases hcases with ⟨rfl, -⟩ | ⟨rfl, -⟩
  · refine .inl ⟨rfl, live ++ [(key, id)], hidOf ▸ hinv', ?_, ?_⟩
    · ext e
      simp only [Set.mem_insert_iff, Set.mem_ofPred_eq, List.mem_append, List.mem_singleton]
      exact or_comm
    · intro e he
      rcases List.mem_append.mp he with hold | hnew
      · exact hlt e hold
      · rw [List.mem_singleton.mp hnew]
        exact Nat.lt_of_lt_pred hid
  · exact .inr ⟨by decide, by decide, live, hinv', rfl, hlt⟩

theorem replace_holds {s : Seeded} {L : Set (Value × Nat)} {l : List ((Nat × Nat) × Value)}
    {e : (Nat × Nat) × Value} {old : Nat} {v : Value} (h : Holds s L)
    (hfind : hashTable.find s key = some l) (he : e ∈ l) (hold : Denotes e.2 old)
    (hmem : (key, old) ∈ L) (hv : Denotes v id) (hid : id < 2 ^ 32 - 1) (hfresh : ∀ e ∈ L, e.2 ≠ id) :
    ∃ s', hashTable.replace s e.1 v = some (.ok, s') ∧
      Holds s' (insert (key, id) (L \ {(key, old)})) := by
  obtain ⟨live, hinv, rfl, hlt⟩ := h
  have hpos := hinv.wellformed.maxIndex_pos
  have hkey := hinv.keys _ hmem
  have hne : key.length ≠ 0 := by
    simp only at hkey
    omega
  obtain rfl : candidates s.table key = l := by
    change (if _ then none else _) = _ at hfind
    rw [if_neg (by simp only at hpos hkey; omega)] at hfind
    exact Option.some.inj hfind
  obtain ⟨it, hit, rfl⟩ := List.mem_map.mp he
  obtain ⟨-, hway, hvalid⟩ := mem_find_yields hne hit
  have hindex := currentIndex_lt hne hpos hit
  have hval : s.table.val (it.currentIndex s.table) it.way = old :=
    (denotes_leBytes (.inl rfl) (val_lt hinv hlt hindex hway hvalid)).unique hold
  obtain ⟨hnum, hidOf⟩ := asNumber32_eq (by omega) hv.1 (2 ^ 32 - 1)
  have hdata : asNumber32 v (2 ^ 32 - 1) ≠ 2 ^ 32 - 1 := by omega
  obtain ⟨t', hreplace, -⟩ := replace_entries hinv.wellformed hindex hway hvalid hdata
  have hstep : step ⟨s.table, live⟩ (.replace (it.currentIndex s.table) it.way v) =
      some ⟨t', rename old id live⟩ := by
    simp only at hreplace
    simp only [step, hreplace, hval, hidOf]
    rw [if_pos ⟨hindex, hway, hvalid⟩, if_pos trivial]
  have hnew : idOf v ∉ live.map Prod.snd := by
    rw [hidOf]
    intro hin
    obtain ⟨e, he, heq⟩ := List.mem_map.mp hin
    exact hfresh e he heq
  have hinv' := (inv_replace hinv ⟨id, by omega, hv.1⟩ hnew hstep).1
  refine ⟨{ s with table := t' }, ?_, rename old id live, hinv', ?_, ?_⟩
  · simp only at hreplace
    simp only [hashTable, hreplace]
  · exact (mem_rename hinv.nodup hmem).symm
  · intro e he
    obtain ⟨e', he', rfl⟩ := List.mem_map.mp he
    split
    · exact Nat.lt_of_lt_pred hid
    · exact hlt e' he'

section Empty

variable {s : Seeded} (h : Inv ⟨s.table, []⟩)
include h

theorem not_valid_of_empty {index way : Nat} (hindex : index < s.table.maxIndex)
    (hway : way < associativity) : s.table.valid index way ≠ true := by
  intro hvalid
  obtain ⟨e, he, -⟩ := live_of_valid h hindex hway hvalid
  exact absurd he List.not_mem_nil

theorem find_of_empty (hkey : 4 ≤ key.length) : hashTable.find s key = some [] := by
  have hpos : 0 < s.table.maxIndex := h.wellformed.maxIndex_pos
  have hne : key.length ≠ 0 := by omega
  have hnone : candidates s.table key = [] := by
    refine List.map_eq_nil_iff.mpr (List.eq_nil_iff_forall_not_mem.mpr fun it hit => ?_)
    obtain ⟨-, hway, hvalid⟩ := mem_find_yields hne hit
    exact not_valid_of_empty h (currentIndex_lt hne hpos hit) hway hvalid
  rw [← hnone]
  exact if_neg (by omega)

/-- The first `Put` finds a free slot. -/
theorem put_of_empty (hkey : 4 ≤ key.length) (data : Value) :
    ∃ s', hashTable.put s key data = some (.ok, s') := by
  have hpos : 0 < s.table.maxIndex := h.wellformed.maxIndex_pos
  have hfree : ∀ index < s.table.maxIndex, s.table.freeslot index < associativity := by
    intro index hindex
    by_contra hfull
    have hway : 0 < associativity := by decide
    exact not_valid_of_empty h hindex hway (freeslot_full hfull hway)
  have hput : ∃ t', put (s.draws 0) s.table key data = some (.ok, t') := by
    rw [put, if_neg (by omega)]
    exact ⟨_, if_pos (hfree _ (initial_places h.wellformed key _ _).index_lt)⟩
  obtain ⟨t', hput⟩ := hput
  refine ⟨⟨t', fun n => s.draws (n + 1)⟩, ?_⟩
  show (if s.table.maxIndex = 0 then none else _) = _
  rw [if_neg (by omega), hput]
  rfl

end Empty

/-- The cuckoo table with offsets is a hash table that `FawnDS_SF` can use. -/
def contract : hashTable.Contract where
  admits key := 4 ≤ key.length
  Holds := Holds
  find := find_holds
  put h hkey hv hid hfresh := put_holds h hkey hv (Nat.lt_trans hid (by decide)) hfresh
  replace h hfind he hold hmem hv hid hfresh := by
    obtain ⟨s', hreplace, hholds⟩ :=
      replace_holds h hfind he hold hmem hv (Nat.lt_trans hid (by decide)) hfresh
    exact ⟨.ok, s', hreplace, .inl ⟨rfl, hholds⟩⟩

end Contract

end FawnKV.Silt.HashTableCuckoo
