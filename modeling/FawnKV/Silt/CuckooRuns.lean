import FawnKV.Silt.CuckooInvariant
import Mathlib.Tactic.IntervalCases

/-! What the iterators yield, and the invariant of the cuckoo table over whole runs. -/
namespace FawnKV.Silt.HashTableCuckoo

open Cuckoo SlotArray ByteFile

namespace IteratorElem

variable {t : HashTableCuckoo} {it it' : IteratorElem} {key : Value}

/-- The iterator after `c - 3` ways. -/
def ofCursor (key : Value) (c : Nat) : IteratorElem :=
  { key, rows := c / associativity, way := c % associativity }

theorem advance_ofCursor (key : Value) (c : Nat) :
    (ofCursor key c).advance = ofCursor key (c + 1) := by
  by_cases hlast : associativity ≤ c % associativity + 1
  · rw [advance, ofCursor, if_pos hlast, ofCursor, mk.injEq]
    refine ⟨rfl, ?_, ?_⟩ <;> simp only [associativity] at * <;> omega
  · rw [advance, ofCursor, if_neg hlast, ofCursor, mk.injEq]
    refine ⟨rfl, ?_, ?_⟩ <;> simp only [associativity] at * <;> omega

theorem yields_eq (t : HashTableCuckoo) (it : IteratorElem) :
    it.yields t = if it.limit t < it.advance.rows then []
      else (if it.advance.isMatch t then [it.advance] else []) ++ it.advance.yields t := by
  have hnone : ∀ it : IteratorElem, next t it = none → it.yields t = [] := by
    intro it h
    rw [yields]
    split
    · rfl
    · simp_all
  have hsome : ∀ it it' : IteratorElem, next t it = some it' → it.yields t = it' :: it'.yields t := by
    intro it it' h
    rw [yields]
    split <;> simp_all
  by_cases hend : it.limit t < it.advance.rows
  · rw [if_pos hend, hnone it (by rw [next, if_pos hend])]
  · rw [if_neg hend]
    by_cases hmatch : it.advance.isMatch t = true
    · rw [if_pos hmatch, hsome it _ (by rw [next, if_neg hend, if_pos hmatch])]
      rfl
    · have hskip : next t it = next t it.advance := by rw [next, if_neg hend, if_neg hmatch]
      rw [if_neg hmatch, List.nil_append]
      cases hnext : next t it.advance with
      | none => rw [hnone it (hskip.trans hnext), hnone _ hnext]
      | some it' => rw [hsome it it' (hskip.trans hnext), hsome _ it' hnext]

/-- A loop over an iterator visits the slots that match, in order and each once. -/
theorem yields_ofCursor (t : HashTableCuckoo) (key : Value) (count c : Nat)
    (hcount : c + 1 + count = ((ofCursor key c).limit t + 1) * associativity) :
    (ofCursor key c).yields t =
      ((List.range' (c + 1) count).map (ofCursor key)).filter (isMatch t) := by
  induction count generalizing c with
  | zero =>
    rw [yields_eq, if_pos]
    · rfl
    · rw [advance_ofCursor]
      simp only [ofCursor, associativity] at hcount ⊢
      omega
  | succ count ih =>
    have hlimit : (ofCursor key (c + 1)).limit t = (ofCursor key c).limit t := rfl
    rw [yields_eq, if_neg, advance_ofCursor, ih (c + 1) (by rw [hlimit]; omega), List.range'_succ,
      List.map_cons, List.filter_cons]
    · split <;> rfl
    · rw [advance_ofCursor]
      simp only [ofCursor, associativity] at hcount ⊢
      omega

theorem find_eq (key : Value) : find key = ofCursor key 3 := rfl

theorem enumerate_eq : enumerate = ofCursor [] 3 := rfl

theorem enumerate_yields (t : HashTableCuckoo) :
    enumerate.yields t = ((List.range (t.maxIndex * associativity)).filter fun p =>
      t.valid (p / associativity) (p % associativity)).map fun p => ofCursor [] (4 + p) := by
  have hcount : 3 + 1 + t.maxIndex * associativity = (t.maxIndex + 1) * associativity := by
    simp only [associativity]
    omega
  rw [enumerate_eq, yields_ofCursor t [] (t.maxIndex * associativity) 3 hcount,
    List.range'_eq_map_range, List.map_map, List.filter_map]
  have hfilter : (isMatch t ∘ ofCursor [] ∘ fun p => 3 + 1 + p) = fun p =>
      t.valid (p / associativity) (p % associativity) := by
    funext p
    have hrow : (3 + 1 + p) / 4 - 1 = p / 4 := by omega
    have hway : (3 + 1 + p) % 4 = p % 4 := by omega
    simp only [Function.comp_apply, isMatch, currentIndex, ofCursor, associativity, hrow, hway]
    simp
  rw [hfilter]
  rfl

theorem data_ofCursor (t : HashTableCuckoo) (p : Nat) :
    (ofCursor [] (4 + p)).data t = t.val (p / associativity) (p % associativity) := by
  have hrow : (4 + p) / 4 - 1 = p / 4 := by omega
  have hway : (4 + p) % 4 = p % 4 := by omega
  simp only [data, currentIndex, ofCursor, associativity, hrow, hway]
  simp

/-- `Enumerate` returns the ids of the entries, slot by slot. -/
theorem enumerate_data (t : HashTableCuckoo) :
    (enumerate.yields t).map (data t) = t.entries.map Prod.snd := by
  rw [enumerate_yields, List.map_map, entries, contents]
  induction List.range (t.maxIndex * associativity) with
  | nil => rfl
  | cons p ps ih =>
    have hp : p / associativity * associativity + p % associativity = p := Nat.div_add_mod' p _
    have hway : p % associativity < associativity := Nat.mod_lt _ (by decide)
    by_cases hvalid : t.valid (p / associativity) (p % associativity) = true
    · have hentry := entryAt_valid hway hvalid
      rw [hp] at hentry
      rw [List.filter_cons, if_pos hvalid, List.filterMap_cons_some hentry, List.map_cons, List.map_cons,
        ih, Function.comp_apply, data_ofCursor]
    · have hentry := entryAt_free (Bool.not_eq_true _ ▸ hvalid)
      rw [hp] at hentry
      rw [List.filter_cons, if_neg hvalid, List.filterMap_cons_none hentry, ih]

theorem enumerate_nodup (t : HashTableCuckoo) : (enumerate.yields t).Nodup := by
  rw [enumerate_yields]
  refine List.Nodup.map ?_ (List.nodup_range.filter _)
  intro p q hpq
  simp only [ofCursor, mk.injEq, associativity] at hpq
  omega

/-- `Find` visits every slot of the key's two buckets that has the other fragment as its tag. -/
theorem find_yields (hkey : key.length ≠ 0) {fn index way : Nat} (hfn : fn < numHash)
    (hway : way < associativity) (hindex : index = keyfrag key fn % t.maxIndex)
    (hvalid : t.valid index way = true)
    (htag : t.tag index way = keyfrag key ((fn + 1) % numHash) % t.maxIndex) :
    ∃ it ∈ (find key).yields t, it.currentIndex t = index ∧ it.way = way := by
  have hlimit : (ofCursor key 3).limit t = numHash := if_pos hkey
  have hrows : (4 + (4 * fn + way)) / 4 - 1 = fn := by
    simp only [associativity] at hway
    omega
  have hways : (4 + (4 * fn + way)) % 4 = way := by
    simp only [associativity] at hway
    omega
  have hcur : (ofCursor key (4 + (4 * fn + way))).currentIndex t = index := by
    simp only [currentIndex, ofCursor, associativity, hrows]
    rw [if_pos hkey, hindex]
  refine ⟨ofCursor key (4 + (4 * fn + way)), ?_, hcur, hways⟩
  rw [find_eq, yields_ofCursor t key (numHash * associativity) 3 (by rw [hlimit]; rfl), List.mem_filter]
  constructor
  · refine List.mem_map_of_mem (List.mem_range'_1.mpr ?_)
    simp only [numHash, associativity] at *
    omega
  · simp only [isMatch, hcur]
    simp only [ofCursor, associativity, hrows, hways, hvalid, htag, Bool.true_and, Bool.or_eq_true,
      beq_iff_eq]
    exact .inr trivial

end IteratorElem

/-- A call of `Put` with the numbers `rand` returns in it, or of `Replace` where an iterator stands. -/
inductive Op where
  | put (key data : Value) (rand : Nat → Nat)
  | replace (index way : Nat) (data : Value)

def idOf (data : Value) : Nat := (number? data).getD 0

def Op.id : Op → Nat
  | .put _ data _ => idOf data
  | .replace _ _ data => idOf data

/-- The data is the number of a record that fits the four bytes of the offset field, and the key
has the four bytes that are read. -/
def Op.Fits : Op → Prop
  | .put key data _ => 4 ≤ key.length ∧ ∃ id < 2 ^ 32, number? data = some id
  | .replace _ _ data => ∃ id < 2 ^ 32, number? data = some id

/-- The table with the pairs of key and id that its calls have put into it. -/
structure History where
  table : HashTableCuckoo
  live : List (Value × Nat)
deriving DecidableEq

def rename (old new : Nat) (live : List (Value × Nat)) : List (Value × Nat) :=
  live.map fun e => if e.2 = old then (e.1, new) else e

/-- An iterator that is not at the end stands on a valid slot, and slots stay valid. -/
def step (s : History) : Op → Option History
  | .put key data rand =>
    (put rand s.table key data).map fun r =>
      { table := r.2, live := if r.1 = .ok then s.live ++ [(key, idOf data)] else s.live }
  | .replace index way data =>
    if index < s.table.maxIndex ∧ way < associativity ∧ s.table.valid index way then
      some
        { table := (replace s.table index way data).2
          live := if (replace s.table index way data).1 = .ok then
            rename (s.table.val index way) (idOf data) s.live else s.live }
    else none

section Runs

variable {s s' : History} {op : Op} {ops : List Op} {index way : Nat} {key data : Value}

/-- The table holds exactly the live pairs. -/
structure Inv (s : History) : Prop where
  wellformed : Wellformed s.table
  entries : s.table.entries.Perm (s.live.map fun e => (places s.table.maxIndex e.1, e.2))
  currentEntries : s.table.currentEntries = s.live.length
  nodup : (s.live.map Prod.snd).Nodup
  keys : ∀ e ∈ s.live, 4 ≤ e.1.length

theorem asNumber32_eq {id : Nat} (hid : id < 2 ^ 32) (h : number? data = some id) (default : Nat) :
    asNumber32 data default = id ∧ idOf data = id := by
  rw [asNumber32, idOf, h]
  exact ⟨Nat.mod_eq_of_lt hid, rfl⟩

theorem inv_create {size : Int} (hsize : 4 ≤ size) :
    ∃ t, create size = .ok t ∧ Inv ⟨t, []⟩ := by
  refine ⟨_, by rw [create, if_neg (by omega)], ?_⟩
  generalize hmax : (if size.toNat < 2 ^ keyfragBits * associativity then
    size.toNat / associativity else 2 ^ keyfragBits) = maxIndex
  have hpos : 0 < maxIndex := by
    subst hmax
    split <;> simp only [keyfragBits, associativity] at * <;> omega
  have hle : maxIndex ≤ 2 ^ 15 := by
    subst hmax
    split <;> simp only [keyfragBits, associativity] at * <;> omega
  have hslot : ∀ p, (List.replicate (maxIndex * associativity) (⟨0, 0⟩ : CuckooSlot)).getD p ⟨0, 0⟩ =
      ⟨0, 0⟩ := by
    intro p
    rw [List.getD_eq_getElem?_getD, List.getElem?_replicate]
    split <;> rfl
  refine ⟨⟨hpos, hle, List.length_replicate, ?_, ?_⟩, ?_, rfl, List.nodup_nil, by simp⟩
  · intro x hx
    rw [List.eq_of_mem_replicate hx]
    decide
  · intro index _ way _ hvalid
    simp only [valid, slot, hslot] at hvalid
    exact absurd hvalid (by decide)
  · refine List.Perm.of_eq (List.filterMap_eq_nil_iff.mpr fun p _ => ?_)
    simp only [entryAt, hslot]
    rfl

theorem inv_put (h : Inv s) {rand : Nat → Nat} (hop : (Op.put key data rand).Fits)
    (hfresh : idOf data ∉ s.live.map Prod.snd) (hstep : step s (.put key data rand) = some s') :
    Inv s' ∧ ∀ id ∈ s'.live.map Prod.snd, id ∈ s.live.map Prod.snd ∨ id = idOf data := by
  obtain ⟨hkey, id, hid, hnum⟩ := hop
  obtain ⟨r, t', hput, hcases⟩ := put_adds rand h.wellformed hkey data
  rw [step, hput] at hstep
  obtain rfl := Option.some.inj hstep
  obtain ⟨hval, hidOf⟩ := asNumber32_eq hid hnum 0
  rcases hcases with ⟨rfl, hadds⟩ | ⟨rfl, rfl⟩
  · simp only [if_true]
    rw [hval] at hadds
    refine ⟨⟨hadds.wellformed, ?_, ?_, ?_, ?_⟩, ?_⟩
    · simp only [hadds.maxIndex, List.map_append, List.map_singleton, hidOf]
      exact (hadds.entries.trans (h.entries.cons _)).trans (List.perm_append_singleton _ _).symm
    · have hcount := h.currentEntries
      rw [hadds.currentEntries, List.length_append, List.length_singleton]
      omega
    · rw [List.map_append, List.nodup_append]
      refine ⟨h.nodup, List.nodup_singleton _, fun a ha b hb => ?_⟩
      rintro rfl
      obtain rfl : a = idOf data := by simpa using hb
      exact hfresh ha
    · intro e he
      rcases List.mem_append.mp he with hold | hnew
      · exact h.keys e hold
      · rw [List.mem_singleton.mp hnew]
        exact hkey
    · intro id' hid'
      simpa using hid'
  · refine ⟨h, fun id' hid' => .inl hid'⟩

theorem rename_perm {live rest : List (Value × Nat)} {e : Value × Nat} (new : Nat)
    (hperm : live.Perm (e :: rest)) (hnodup : (live.map Prod.snd).Nodup) :
    (rename e.2 new live).Perm ((e.1, new) :: rest) := by
  have hnodup' : ((e :: rest).map Prod.snd).Nodup := (hperm.map Prod.snd).nodup_iff.mp hnodup
  have hrest : rename e.2 new rest = rest := by
    refine (List.map_congr_left fun e' he' => ?_).trans (List.map_id _)
    have hne : e'.2 ≠ e.2 := by
      intro heq
      exact (List.nodup_cons.mp hnodup').1 (heq ▸ List.mem_map_of_mem he')
    rw [if_neg hne]
    rfl
  refine (hperm.map _).trans ?_
  rw [List.map_cons, if_pos rfl]
  exact List.Perm.cons _ (.of_eq hrest)

/-- The live pair whose id a slot holds. -/
theorem live_of_valid (h : Inv s) (hindex : index < s.table.maxIndex) (hway : way < associativity)
    (hvalid : s.table.valid index way = true) :
    ∃ e ∈ s.live, places s.table.maxIndex e.1 = s(index, s.table.tag index way) ∧
      e.2 = s.table.val index way := by
  have hmem : (s(index, s.table.tag index way), s.table.val index way) ∈ s.table.entries :=
    mem_contents.mpr ⟨_, position_lt hindex hway, entryAt_valid hway hvalid⟩
  obtain ⟨e, he, heq⟩ := List.mem_map.mp (h.entries.mem_iff.mp hmem)
  rw [Prod.mk.injEq] at heq
  exact ⟨e, he, heq⟩

theorem inv_replace (h : Inv s) (hop : (Op.replace index way data).Fits)
    (hfresh : idOf data ∉ s.live.map Prod.snd) (hstep : step s (.replace index way data) = some s') :
    Inv s' ∧ ∀ id ∈ s'.live.map Prod.snd, id ∈ s.live.map Prod.snd ∨ id = idOf data := by
  obtain ⟨id, hid, hnum⟩ := hop
  obtain ⟨hval, hidOf⟩ := asNumber32_eq hid hnum (2 ^ 32 - 1)
  unfold step at hstep
  simp only [Option.ite_none_right_eq_some, Option.some.injEq] at hstep
  obtain ⟨⟨hindex, hway, hvalid⟩, rfl⟩ := hstep
  by_cases hdata : asNumber32 data (2 ^ 32 - 1) = 2 ^ 32 - 1
  · have hsame : replace s.table index way data = (.invalidData, s.table) := by
      rw [replace]
      simp only [if_pos hdata]
    simp only [hsame]
    exact ⟨h, fun id' hid' => .inl hid'⟩
  · obtain ⟨t', hreplace, hwf, hmax, hcount, hperm⟩ :=
      replace_entries h.wellformed hindex hway hvalid hdata
    obtain ⟨e, he, hplaces, hold⟩ := live_of_valid h hindex hway hvalid
    simp only [hreplace, if_true]
    have hsplit := List.perm_cons_erase he
    have hrename := rename_perm (idOf data) hsplit h.nodup
    rw [hold] at hrename
    have hids : ∀ id' ∈ (rename (s.table.val index way) (idOf data) s.live).map Prod.snd,
        id' ∈ s.live.map Prod.snd ∨ id' = idOf data := by
      intro id' hid'
      rcases List.mem_cons.mp ((hrename.map Prod.snd).mem_iff.mp hid') with hnew | hrest
      · exact .inr hnew
      · obtain ⟨e', he', rfl⟩ := List.mem_map.mp hrest
        exact .inl (List.mem_map_of_mem (List.mem_of_mem_erase he'))
    refine ⟨⟨hwf, ?_, ?_, ?_, ?_⟩, hids⟩
    · -- cancel the entry that stood in the slot
      have hlive := h.entries.trans (hsplit.map _)
      rw [List.map_cons, hplaces, hold] at hlive
      have hcancel := (hperm.trans (hlive.cons _)).trans (List.Perm.swap _ _ _)
      rw [List.perm_cons] at hcancel
      refine hcancel.trans ?_
      rw [hmax]
      refine .trans ?_ (hrename.map _).symm
      rw [List.map_cons, hplaces, hval, hidOf]
    · rw [hcount, h.currentEntries]
      exact (List.length_map _).symm
    · refine (hrename.map Prod.snd).nodup_iff.mpr ?_
      have hnodup : ((e :: s.live.erase e).map Prod.snd).Nodup :=
        (hsplit.map Prod.snd).nodup_iff.mp h.nodup
      refine List.nodup_cons.mpr ⟨fun hmem => hfresh ?_, (List.nodup_cons.mp hnodup).2⟩
      obtain ⟨e', he', heq⟩ := List.mem_map.mp hmem
      have hsame : e'.2 = idOf data := heq
      exact hsame ▸ List.mem_map_of_mem (List.mem_of_mem_erase he')
    · intro e' he'
      rcases List.mem_cons.mp (hrename.mem_iff.mp he') with rfl | hrest
      · exact h.keys e he
      · exact h.keys e' (List.mem_of_mem_erase hrest)

theorem inv_step (h : Inv s) (hop : op.Fits) (hfresh : op.id ∉ s.live.map Prod.snd)
    (hstep : step s op = some s') :
    Inv s' ∧ ∀ id ∈ s'.live.map Prod.snd, id ∈ s.live.map Prod.snd ∨ id = op.id := by
  cases op with
  | put key data rand => exact inv_put h hop hfresh hstep
  | replace index way data => exact inv_replace h hop hfresh hstep

theorem inv_run (h : Inv s) (hops : ∀ op ∈ ops, op.Fits) (hdistinct : (ops.map Op.id).Nodup)
    (hfresh : ∀ op ∈ ops, op.id ∉ s.live.map Prod.snd)
    (hrun : Transition.run step s ops = some s') : Inv s' := by
  induction ops generalizing s with
  | nil =>
    cases hrun
    exact h
  | cons op ops ih =>
    obtain ⟨r, hstep, hrun⟩ := Transition.run_cons_eq_some.mp hrun
    obtain ⟨hnotin, hdistinct⟩ := List.nodup_cons.mp hdistinct
    obtain ⟨hr, hids⟩ := inv_step h (hops op List.mem_cons_self) (hfresh op List.mem_cons_self) hstep
    refine ih hr (fun o ho => hops o (List.mem_cons_of_mem op ho)) hdistinct (fun o ho hmem => ?_) hrun
    rcases hids _ hmem with hold | hnew
    · exact hfresh o (List.mem_cons_of_mem op ho) hold
    · exact hnotin (hnew ▸ List.mem_map_of_mem ho)

/-- The slot of a live pair: its bucket and tag are the two fragments of the key. -/
structure SlotOf (t : HashTableCuckoo) (e : Value × Nat) (index way : Nat) : Prop where
  index_lt : index < t.maxIndex
  way_lt : way < associativity
  valid : t.valid index way = true
  val : t.val index way = e.2
  fragments : index = keyfrag e.1 0 % t.maxIndex ∧ t.tag index way = keyfrag e.1 1 % t.maxIndex ∨
    index = keyfrag e.1 1 % t.maxIndex ∧ t.tag index way = keyfrag e.1 0 % t.maxIndex

theorem exists_slotOf (h : Inv s) {e : Value × Nat} (he : e ∈ s.live) :
    ∃ index way, SlotOf s.table e index way := by
  have hmem : (places s.table.maxIndex e.1, e.2) ∈ s.table.entries :=
    h.entries.mem_iff.mpr (List.mem_map_of_mem he)
  obtain ⟨p, hp, hentry⟩ := mem_contents.mp hmem
  obtain ⟨hvalid, heq⟩ := entryAt_eq_some hentry
  rw [Prod.mk.injEq] at heq
  have hindex : p / associativity < s.table.maxIndex :=
    Nat.div_lt_of_lt_mul (by rw [Nat.mul_comm]; exact hp)
  refine ⟨p / associativity, p % associativity, hindex, Nat.mod_lt _ (by decide), hvalid, heq.2.symm, ?_⟩
  rcases Sym2.eq_iff.mp heq.1 with ⟨h0, h1⟩ | ⟨h0, h1⟩
  · exact .inl ⟨h0.symm, h1.symm⟩
  · exact .inr ⟨h1.symm, h0.symm⟩

theorem entries_snd_nodup (h : Inv s) : (s.table.entries.map Prod.snd).Nodup := by
  refine (h.entries.map Prod.snd).nodup_iff.mpr ?_
  rw [List.map_map]
  exact h.nodup

theorem slot_eq_of_val_eq (h : Inv s) {index' way' : Nat} (hindex : index < s.table.maxIndex)
    (hway : way < associativity) (hvalid : s.table.valid index way = true)
    (hindex' : index' < s.table.maxIndex) (hway' : way' < associativity)
    (hvalid' : s.table.valid index' way' = true)
    (hval : s.table.val index' way' = s.table.val index way) : index' = index ∧ way' = way :=
  position_inj hway hway' (slot_unique (entries_snd_nodup h) (position_lt hindex' hway')
    (position_lt hindex hway) (entryAt_valid hway' hvalid') (entryAt_valid hway hvalid) hval)

theorem find_slotOf {t : HashTableCuckoo} {e : Value × Nat} (hkey : 4 ≤ e.1.length)
    (h : SlotOf t e index way) :
    ∃ it ∈ (find e.1).yields t, it.currentIndex t = index ∧ it.way = way := by
  have hne : e.1.length ≠ 0 := by omega
  rcases h.fragments with ⟨hindex, htag⟩ | ⟨hindex, htag⟩
  · exact IteratorElem.find_yields hne (by decide) h.way_lt hindex h.valid htag
  · exact IteratorElem.find_yields hne (by decide) h.way_lt hindex h.valid htag

/-- The slots that are in use. -/
def validSlots (t : HashTableCuckoo) : List Nat :=
  (List.range (t.maxIndex * associativity)).filter fun p =>
    t.valid (p / associativity) (p % associativity)

/-- In every run, for all numbers `rand` returns: a live id is in one slot, in a place of its key
where `Find` comes by; the slots in use hold the live pairs, and the counter counts them. -/
theorem cuckoo_run_invariant (size : Int) (hsize : 4 ≤ size) (ops : List Op)
    (hops : ∀ op ∈ ops, op.Fits) (hdistinct : (ops.map Op.id).Nodup) :
    ∃ t₀, create size = .ok t₀ ∧ ∀ s, Transition.run step ⟨t₀, []⟩ ops = some s →
      (∀ e ∈ s.live, ∃ index way, SlotOf s.table e index way ∧
        (∀ index' < s.table.maxIndex, ∀ way' < associativity, s.table.valid index' way' = true →
          s.table.val index' way' = e.2 → index' = index ∧ way' = way) ∧
        ∃ it ∈ (find e.1).yields s.table, it.currentIndex s.table = index ∧ it.way = way) ∧
      (∀ index < s.table.maxIndex, ∀ way < associativity, s.table.valid index way = true →
        ∃ e ∈ s.live, SlotOf s.table e index way) ∧
      (∀ rand key data, 4 ≤ key.length → ∃ r t', put rand s.table key data = some (r, t') ∧
        (r = .ok ∨ r = .insufficientSpace ∧ t' = s.table)) ∧
      s.table.currentEntries = (validSlots s.table).length ∧
      s.table.currentEntries = (enumerate.yields s.table).length ∧
      (enumerate.yields s.table).Nodup ∧
      ((enumerate.yields s.table).map (IteratorElem.data s.table)).Perm (s.live.map Prod.snd) := by
  obtain ⟨t₀, hcreate, h₀⟩ := inv_create hsize
  refine ⟨t₀, hcreate, fun s hrun => ?_⟩
  have h := inv_run h₀ hops hdistinct (by simp) hrun
  have hperm : ((enumerate.yields s.table).map (IteratorElem.data s.table)).Perm
      (s.live.map Prod.snd) := by
    rw [IteratorElem.enumerate_data]
    refine (h.entries.map Prod.snd).trans (.of_eq ?_)
    rw [List.map_map]
    rfl
  have hcount : s.table.currentEntries = (enumerate.yields s.table).length := by
    have := hperm.length_eq
    rw [List.length_map, List.length_map] at this
    rw [h.currentEntries, this]
  refine ⟨?_, ?_, ?_, ?_, hcount, IteratorElem.enumerate_nodup _, hperm⟩
  · intro e he
    obtain ⟨index, way, hslot⟩ := exists_slotOf h he
    refine ⟨index, way, hslot, ?_, find_slotOf (h.keys e he) hslot⟩
    intro index' hindex' way' hway' hvalid' hval'
    exact slot_eq_of_val_eq h hslot.index_lt hslot.way_lt hslot.valid hindex' hway' hvalid'
      (hval'.trans hslot.val.symm)
  · intro index hindex way hway hvalid
    obtain ⟨e, he, -, hval⟩ := live_of_valid h hindex hway hvalid
    obtain ⟨index', way', hslot⟩ := exists_slotOf h he
    obtain ⟨rfl, rfl⟩ := slot_eq_of_val_eq h hindex hway hvalid hslot.index_lt hslot.way_lt hslot.valid
      (hslot.val.trans hval)
    exact ⟨e, he, hslot⟩
  · intro rand key data hkey
    obtain ⟨r, t', hput, hcases⟩ := put_adds rand h.wellformed hkey data
    refine ⟨r, t', hput, ?_⟩
    rcases hcases with ⟨hok, -⟩ | hfail
    · exact .inl hok
    · exact .inr hfail
  · rw [hcount, IteratorElem.enumerate_yields, List.length_map]
    rfl

theorem cuckoo_run_invariant_replaced : ∃ t₀ s, create 8 = .ok t₀ ∧
    Transition.run step ⟨t₀, []⟩
      [.put [1, 0, 0, 0] (leBytes 8 7) (fun _ => 0), .replace 1 0 (leBytes 8 9)] = some s ∧
    s.live = [([1, 0, 0, 0], 9)] ∧ ∃ index way, SlotOf s.table ([1, 0, 0, 0], 9) index way := by
  obtain ⟨t₀, hcreate, hall⟩ := cuckoo_run_invariant 8 (by decide)
    [.put [1, 0, 0, 0] (leBytes 8 7) (fun _ => 0), .replace 1 0 (leBytes 8 9)]
    (by
      intro op hop
      rcases List.mem_cons.mp hop with rfl | hop
      · exact ⟨by decide, 7, by decide, by decide⟩
      · rw [List.mem_singleton.mp hop]
        exact ⟨9, by decide, by decide⟩)
    (by decide)
  obtain rfl : _ = t₀ := Except.ok.inj hcreate
  have hrun := hall _ rfl
  refine ⟨_, _, hcreate, rfl, by decide, ?_⟩
  obtain ⟨index, way, hslot, -⟩ := hrun.1 ([1, 0, 0, 0], 9) (by decide)
  exact ⟨index, way, hslot⟩

/-- A record id past the four bytes of the offset field is acknowledged but not stored. -/
theorem cuckoo_wide_id_lost : ∃ t₀ s, create 8 = .ok t₀ ∧
    Transition.run step ⟨t₀, []⟩ [.put [1, 0, 0, 0] (leBytes 8 (2 ^ 32)) (fun _ => 0)] = some s ∧
    s.live = [([1, 0, 0, 0], 2 ^ 32)] ∧ ∀ index way, s.table.val index way ≠ 2 ^ 32 := by
  refine ⟨_, _, rfl, rfl, by decide, ?_⟩
  intro index way
  rw [val, slot, List.getD_eq_getElem?_getD]
  generalize index * associativity + way = p
  by_cases hp : p < 8
  · interval_cases p <;> decide
  · obtain ⟨q, rfl⟩ := Nat.exists_eq_add_of_le' (Nat.le_of_not_lt hp)
    exact (by decide : 0 ≠ 2 ^ 32)

end Runs

end FawnKV.Silt.HashTableCuckoo
