import Mathlib.Data.List.GetD
import Mathlib.Data.Nat.Bitwise
import Mathlib.Data.Sym.Sym2
import FawnKV.Lib.SlotArray
import FawnKV.Silt.Cuckoo

/-! Every entry of the cuckoo table stands in one slot, in one of the two places of its key. -/
namespace FawnKV.Silt.HashTableCuckoo

open Cuckoo SlotArray

section Slots

variable {t : HashTableCuckoo} {index way tag id p : Nat}

theorem tag_or_valid (h : tag < 2 ^ 15) : (tag ||| validBitMask) % 2 ^ 16 = 2 ^ 15 + tag := by
  have hor : 2 ^ 15 * 1 + tag = 2 ^ 15 * 1 ||| tag := Nat.two_pow_add_eq_or_of_lt h 1
  have hmask : validBitMask = 2 ^ 15 * 1 := rfl
  rw [hmask, Nat.or_comm, ← hor]
  omega

theorem and_keyfragMask (n : Nat) : n &&& keyfragMask = n % 2 ^ 15 :=
  Nat.and_two_pow_sub_one_eq_mod n 15

theorem and_validBitMask (h : tag < 2 ^ 15) : ((2 ^ 15 + tag) &&& validBitMask) ≠ 0 := by
  have hbit : (2 ^ 15 + tag).testBit 15 = true := by
    rw [Nat.testBit_two_pow_add_eq, Nat.testBit_lt_two_pow h]
    rfl
  have hand : (2 ^ 15 + tag) &&& 2 ^ 15 = 2 ^ 15 := by
    rw [Nat.and_two_pow, hbit]
    rfl
  show (2 ^ 15 + tag) &&& 2 ^ 15 ≠ 0
  rw [hand]
  decide

/-- The entry in a slot: the bucket and the tag without their order, and the value. -/
def entryOf (p : Nat) (s : CuckooSlot) : Option (Sym2 Nat × Nat) :=
  if s.keypresent &&& validBitMask != 0 then
    some (s(p / associativity, s.keypresent &&& keyfragMask), s.val)
  else none

def entryAt (t : HashTableCuckoo) (p : Nat) : Option (Sym2 Nat × Nat) :=
  entryOf p (t.slots.getD p ⟨0, 0⟩)

def entries (t : HashTableCuckoo) : List (Sym2 Nat × Nat) :=
  contents t.entryAt (t.maxIndex * associativity)

theorem div_position (hway : way < associativity) :
    (index * associativity + way) / associativity = index := by
  simp only [associativity] at *
  omega

theorem position_lt (hindex : index < t.maxIndex) (hway : way < associativity) :
    index * associativity + way < t.maxIndex * associativity := by
  simp only [associativity] at *
  omega

theorem entryAt_valid (hway : way < associativity) (h : t.valid index way = true) :
    t.entryAt (index * associativity + way) = some (s(index, t.tag index way), t.val index way) := by
  rw [entryAt, entryOf, div_position hway]
  exact if_pos h

theorem entryAt_free (h : t.valid index way = false) :
    t.entryAt (index * associativity + way) = none := by
  rw [entryAt, entryOf]
  exact if_neg (by rw [← Bool.not_eq_true] at h; exact h)

theorem entryAt_eq_some {e : Sym2 Nat × Nat} (h : t.entryAt p = some e) :
    t.valid (p / associativity) (p % associativity) = true ∧
      e = (s(p / associativity, t.tag (p / associativity) (p % associativity)),
        t.val (p / associativity) (p % associativity)) := by
  have hp : p / associativity * associativity + p % associativity = p := Nat.div_add_mod' p _
  have hvalid : t.valid (p / associativity) (p % associativity) = true := by
    by_contra hnot
    rw [Bool.not_eq_true] at hnot
    have := entryAt_free hnot
    rw [hp, h] at this
    cases this
  have hway : p % associativity < associativity := Nat.mod_lt _ (by decide)
  have := entryAt_valid hway hvalid
  rw [hp, h] at this
  exact ⟨hvalid, Option.some.inj this⟩

end Slots

section Displacement

variable {t t' : HashTableCuckoo} {c : Current} {index way tag id p : Nat}

structure Wellformed (t : HashTableCuckoo) : Prop where
  maxIndex_pos : 0 < t.maxIndex
  maxIndex_le : t.maxIndex ≤ 2 ^ 15
  length : t.slots.length = t.maxIndex * associativity
  keypresent_lt : ∀ s ∈ t.slots, s.keypresent < 2 ^ 16
  tag_lt : ∀ index < t.maxIndex, ∀ way < associativity, t.valid index way = true →
    t.tag index way < t.maxIndex

/-- What holds of the entry that is being placed. -/
structure Places (t : HashTableCuckoo) (c : Current) : Prop where
  index_lt : c.index < t.maxIndex
  tag_lt : c.tag < t.maxIndex

def Current.entry (c : Current) : Sym2 Nat × Nat := (s(c.index, c.tag), c.val)

theorem slot_store_self (id : Nat) (hlen : index * associativity + way < t.slots.length) (kp : Nat) :
    (t.store index way kp id).slot index way = ⟨kp % 2 ^ 16, id⟩ := by
  rw [slot, store, List.getD_eq_getElem _ _ (by simpa using hlen)]
  simp

theorem getD_store_ne (kp : Nat) (hne : p ≠ index * associativity + way) :
    (t.store index way kp id).slots.getD p ⟨0, 0⟩ = t.slots.getD p ⟨0, 0⟩ := by
  rw [store, List.getD_eq_getElem?_getD, List.getD_eq_getElem?_getD, List.getElem?_set_ne hne.symm]

/-- What `store` leaves in a slot. -/
theorem store_spec (id : Nat) (h : Wellformed t) (hindex : index < t.maxIndex) (hway : way < associativity)
    (htag : tag < t.maxIndex) :
    (t.store index way (tag ||| validBitMask) id).valid index way = true ∧
    (t.store index way (tag ||| validBitMask) id).tag index way = tag ∧
    (t.store index way (tag ||| validBitMask) id).val index way = id := by
  have hmax := h.maxIndex_le
  have hslot := slot_store_self id (h.length ▸ position_lt hindex hway) (tag ||| validBitMask)
  rw [tag_or_valid (by omega)] at hslot
  refine ⟨?_, ?_, ?_⟩
  · rw [valid, hslot, bne_iff_ne]
    exact and_validBitMask (by omega)
  · rw [HashTableCuckoo.tag, hslot, and_keyfragMask]
    show (2 ^ 15 + tag) % 2 ^ 15 = tag
    omega
  · rw [val, hslot]

theorem slot_store_ne (kp : Nat) {index' way' : Nat}
    (hne : index' * associativity + way' ≠ index * associativity + way) :
    (t.store index way kp id).slot index' way' = t.slot index' way' :=
  getD_store_ne kp hne

theorem position_inj {index' way' : Nat} (hway : way < associativity) (hway' : way' < associativity)
    (h : index' * associativity + way' = index * associativity + way) : index' = index ∧ way' = way := by
  simp only [associativity] at *
  omega

theorem store_wellformed (id : Nat) (h : Wellformed t) (hindex : index < t.maxIndex)
    (hway : way < associativity) (htag : tag < t.maxIndex) : Wellformed
      (t.store index way (tag ||| validBitMask) id) := by
  refine ⟨h.maxIndex_pos, h.maxIndex_le, by simpa [store] using h.length, ?_, ?_⟩
  · intro s hs
    rcases List.mem_or_eq_of_mem_set hs with hold | rfl
    · exact h.keypresent_lt s hold
    · exact Nat.mod_lt _ (by decide)
  intro index' hindex' way' hway' hvalid
  by_cases heq : index' * associativity + way' = index * associativity + way
  · obtain ⟨rfl, rfl⟩ := position_inj hway hway' heq
    rw [(store_spec id h hindex hway htag).2.1]
    exact htag
  · rw [valid, slot_store_ne _ heq] at hvalid
    rw [HashTableCuckoo.tag, slot_store_ne _ heq]
    exact h.tag_lt index' hindex' way' hway' hvalid

theorem entryAt_store_ne (kp : Nat) (hne : p ≠ index * associativity + way) :
    (t.store index way kp id).entryAt p = t.entryAt p := by
  rw [entryAt, entryAt, getD_store_ne kp hne]

theorem entries_store_free (h : Wellformed t) (hindex : index < t.maxIndex)
    (hway : way < associativity) (htag : tag < t.maxIndex) (hfree : t.valid index way = false) :
    (t.store index way (tag ||| validBitMask) id).entries.Perm ((s(index, tag), id) :: t.entries) := by
  obtain ⟨hvalid, htag', hval⟩ := store_spec id h hindex hway htag
  refine contents_fill (position_lt hindex hway) (fun q hq => entryAt_store_ne _ hq)
    (entryAt_free hfree) ?_
  rw [entryAt_valid hway hvalid, htag', hval]

theorem entries_store_valid (h : Wellformed t) (hindex : index < t.maxIndex)
    (hway : way < associativity) (htag : tag < t.maxIndex) (hvalid : t.valid index way = true) :
    ((s(index, t.tag index way), t.val index way) ::
      (t.store index way (tag ||| validBitMask) id).entries).Perm ((s(index, tag), id) :: t.entries) := by
  obtain ⟨hvalid', htag', hval⟩ := store_spec id h hindex hway htag
  refine contents_replace (position_lt hindex hway) (fun q hq => entryAt_store_ne _ hq)
    (entryAt_valid hway hvalid) ?_
  rw [entryAt_valid hway hvalid', htag', hval]

theorem displace_wellformed (h : Wellformed t) (hc : Places t c) (hway : way < associativity) :
    Wellformed (t.displace c way).1 :=
  store_wellformed c.val h hc.index_lt hway hc.tag_lt

theorem displace_places (h : Wellformed t) (c : Current) (way : Nat) :
    Places (t.displace c way).1 (t.displace c way).2 :=
  ⟨Nat.mod_lt _ h.maxIndex_pos, Nat.mod_lt _ h.maxIndex_pos⟩

/-- A displacement hands the entry of the victim on: bucket and tag change their roles. -/
theorem displace_entries (h : Wellformed t) (hc : Places t c) (hway : way < associativity)
    (hfull : t.valid c.index way = true) :
    ((t.displace c way).2.entry :: (t.displace c way).1.entries).Perm (c.entry :: t.entries) := by
  have hindex := hc.index_lt
  have htag := h.tag_lt c.index hindex way hway hfull
  have hcur : (t.displace c way).2.entry = (s(c.index, t.tag c.index way), t.val c.index way) := by
    simp only [Current.entry, displace, Nat.mod_eq_of_lt htag, Nat.mod_eq_of_lt hindex]
    rw [Sym2.eq_swap]
  rw [hcur]
  exact entries_store_valid h hindex hway hc.tag_lt hfull

theorem slot_of_valid (h : Wellformed t) (hindex : index < t.maxIndex) (hway : way < associativity)
    (hvalid : t.valid index way = true) :
    t.slot index way = ⟨(t.tag index way ||| validBitMask) % 2 ^ 16, t.val index way⟩ := by
  have hpos : index * associativity + way < t.slots.length := h.length ▸ position_lt hindex hway
  have hlt : (t.slot index way).keypresent < 2 ^ 16 := by
    rw [slot, List.getD_eq_getElem _ _ hpos]
    exact h.keypresent_lt _ (List.getElem_mem hpos)
  have htag := h.tag_lt index hindex way hway hvalid
  have hmax := h.maxIndex_le
  rw [tag_or_valid (by omega)]
  have hbit : (t.slot index way).keypresent &&& 2 ^ 15 ≠ 0 := by
    rw [valid, bne_iff_ne] at hvalid
    exact hvalid
  have hlarge : 2 ^ 15 ≤ (t.slot index way).keypresent := by
    by_contra hsmall
    rw [Nat.and_two_pow, Nat.testBit_lt_two_pow (Nat.lt_of_not_le hsmall)] at hbit
    exact hbit rfl
  have hkp : (t.slot index way).keypresent = 2 ^ 15 + t.tag index way := by
    rw [tag, and_keyfragMask]
    omega
  rw [← hkp]
  rfl

/-- Giving the victim its slot back restores the table and the entry that took the slot. -/
theorem undo_displace (h : Wellformed t) (hc : Places t c) (hway : way < associativity)
    (hfull : t.valid c.index way = true) (undo : List (Nat × Nat)) :
    undoCuckooing (t.displace c way).1 ((t.displace c way).2.index % t.maxIndex)
      (t.displace c way).2.val ((c.index, way) :: undo) =
    undoCuckooing t (c.index % t.maxIndex) c.val undo := by
  have htag := h.tag_lt c.index hc.index_lt way hway hfull
  have hpos : c.index * associativity + way < t.slots.length :=
    h.length ▸ position_lt hc.index_lt hway
  have hrestore : (t.displace c way).1.store c.index way (t.tag c.index way ||| validBitMask)
      (t.val c.index way) = t := by
    simp only [displace, store, List.set_set]
    rw [← slot_of_valid h hc.index_lt hway hfull, slot, List.getD_eq_getElem _ _ hpos,
      List.set_getElem_self]
  have hval : (t.displace c way).1.val c.index way = c.val :=
    (store_spec c.val h hc.index_lt hway hc.tag_lt).2.2
  have hindex : (t.displace c way).2.index % t.maxIndex = t.tag c.index way := by
    simp only [displace, Nat.mod_eq_of_lt htag]
  rw [undoCuckooing, hindex, hval]
  show undoCuckooing ((t.displace c way).1.store c.index way (t.tag c.index way ||| validBitMask)
    (t.val c.index way)) (c.index % t.maxIndex) c.val undo = _
  rw [hrestore]

end Displacement

section Put

variable {t t₀ t' : HashTableCuckoo} {c : Current} {e : Sym2 Nat × Nat} {index way dataVal : Nat}
  {key data : Value}

theorem freeslot_free (h : t.freeslot index < associativity) :
    t.valid index (t.freeslot index) = false := by
  unfold freeslot at h ⊢
  cases hfind : (List.range associativity).find? fun way => !t.valid index way with
  | none =>
    rw [hfind] at h
    exact absurd h (Nat.lt_irrefl _)
  | some way =>
    have := List.find?_some hfind
    simpa using this

theorem freeslot_full (h : ¬t.freeslot index < associativity) (hway : way < associativity) :
    t.valid index way = true := by
  unfold freeslot at h
  cases hfind : (List.range associativity).find? fun way => !t.valid index way with
  | none =>
    have := List.find?_eq_none.mp hfind way (List.mem_range.mpr hway)
    simpa using this
  | some way' =>
    rw [hfind] at h
    exact absurd (List.mem_range.mp (List.mem_of_find?_eq_some hfind)) h

/-- The table after one more entry. -/
structure Adds (t₀ : HashTableCuckoo) (e : Sym2 Nat × Nat) (t : HashTableCuckoo) : Prop where
  wellformed : Wellformed t
  maxIndex : t.maxIndex = t₀.maxIndex
  entries : t.entries.Perm (e :: t₀.entries)
  currentEntries : t.currentEntries = t₀.currentEntries + 1

theorem occupy_adds (h : Wellformed t) (hc : Places t c) (hfree : t.freeslot c.index < associativity) :
    Adds t c.entry (t.occupy c (t.freeslot c.index)) := by
  have hstore := store_wellformed c.val h hc.index_lt hfree hc.tag_lt
  exact ⟨⟨hstore.maxIndex_pos, hstore.maxIndex_le, hstore.length, hstore.keypresent_lt, hstore.tag_lt⟩,
    rfl, entries_store_free h hc.index_lt hfree hc.tag_lt (freeslot_free hfree), rfl⟩

/-- The loop keeps the entries together with the one in hand, and the way back to the start. -/
theorem cuckooLoop_spec (rand : Nat → Nat) (undo : List (Nat × Nat)) (n rest : Nat)
    (h : Wellformed t) (hc : Places t c) (hmax : t.maxIndex = t₀.maxIndex)
    (hcount : t.currentEntries = t₀.currentEntries)
    (hentries : (c.entry :: t.entries).Perm (e :: t₀.entries))
    (hundo : undoCuckooing t (c.index % t.maxIndex) c.val undo = (t₀, dataVal)) :
    ∃ r t', cuckooLoop rand dataVal t c undo n rest = some (r, t') ∧
      (r = .ok ∧ Adds t₀ e t' ∨ r = .insufficientSpace ∧ t' = t₀) := by
  induction rest generalizing t c undo n with
  | zero =>
    refine ⟨.insufficientSpace, t₀, ?_, .inr ⟨rfl, rfl⟩⟩
    rw [cuckooLoop, hundo]
    simp
  | succ rest ih =>
    rw [cuckooLoop]
    by_cases hfree : t.freeslot c.index < associativity
    · rw [if_pos hfree]
      obtain ⟨hwf, hmax', hperm, hcount'⟩ := occupy_adds h hc hfree
      exact ⟨.ok, _, rfl, .inl ⟨rfl, hwf, hmax'.trans hmax, hperm.trans hentries, by omega⟩⟩
    · rw [if_neg hfree]
      have hway : rand n % associativity < associativity := Nat.mod_lt _ (by decide)
      have hfull := freeslot_full hfree hway
      refine ih _ _ (displace_wellformed h hc hway) (displace_places h c _) hmax hcount ?_ ?_
      · exact (displace_entries h hc hway hfull).trans hentries
      · exact (undo_displace h hc hway hfull undo).trans hundo

/-- The two buckets of a key, without their order. -/
def places (maxIndex : Nat) (key : Value) : Sym2 Nat :=
  s(keyfrag key 0 % maxIndex, keyfrag key 1 % maxIndex)

theorem initial_places (h : Wellformed t) (key : Value) (fn val : Nat) :
    Places t (t.initial key fn val) :=
  ⟨Nat.mod_lt _ h.maxIndex_pos, Nat.mod_lt _ h.maxIndex_pos⟩

theorem initial_entry (t : HashTableCuckoo) (key : Value) (fn val : Nat) (h : fn < numHash) :
    (t.initial key fn val).entry = (places t.maxIndex key, val) := by
  have hfn : fn = 0 ∨ fn = 1 := by
    simp only [numHash] at h
    omega
  rcases hfn with rfl | rfl
  · rfl
  · show (s(keyfrag key 1 % t.maxIndex, keyfrag key 0 % t.maxIndex), val) = _
    rw [Sym2.eq_swap]
    rfl

/-- `Put` adds its entry or leaves the table as it was, whatever `rand` returns. -/
theorem put_adds (rand : Nat → Nat) (h : Wellformed t) (hkey : 4 ≤ key.length) (data : Value) :
    ∃ r t', put rand t key data = some (r, t') ∧
      (r = .ok ∧ Adds t (places t.maxIndex key, asNumber32 data 0) t' ∨
        r = .insufficientSpace ∧ t' = t) := by
  have hmod : ∀ x, x % numHash < numHash := fun x => Nat.mod_lt x (by decide)
  rw [put, if_neg (by omega)]
  simp only
  split
  · rename_i hfree
    have hadds := occupy_adds h (initial_places h key _ _) hfree
    rw [initial_entry _ _ _ _ (hmod _)] at hadds
    exact ⟨.ok, _, rfl, .inl ⟨rfl, hadds⟩⟩
  · refine cuckooLoop_spec rand [] 1 maxCuckooCount h (initial_places h key _ _) rfl rfl ?_ rfl
    rw [initial_entry _ _ _ _ (hmod _)]

/-- What a `Put` has done that came to its end: its key has the bytes that are hashed. -/
theorem put_some {rand : Nat → Nat} {data : Value} {ret : FawnDSReturn} {t' : HashTableCuckoo}
    (h : Wellformed t)
    (hput : put rand t key data = some (ret, t')) : 4 ≤ key.length ∧
      (ret = .ok ∧ Adds t (places t.maxIndex key, asNumber32 data 0) t' ∨
        ret = .insufficientSpace ∧ t' = t) := by
  have hkey : 4 ≤ key.length := by
    by_contra hshort
    rw [put, if_pos (by omega)] at hput
    cases hput
  obtain ⟨r, u, hspec, hres⟩ := put_adds rand h hkey data
  cases hspec.symm.trans hput
  exact ⟨hkey, hres⟩

/-- The asserts of `Put` hold, and a `Put` without space leaves all slots and the number of entries. -/
theorem put_insufficientSpace (rand : Nat → Nat) (h : Wellformed t) (hkey : 4 ≤ key.length) (data : Value) :
    put rand t key data ≠ none ∧ ∀ t', put rand t key data = some (.insufficientSpace, t') → t' = t := by
  obtain ⟨r, t₁, hput, hcases⟩ := put_adds rand h hkey data
  rw [hput]
  refine ⟨Option.some_ne_none _, fun t' heq => ?_⟩
  cases heq
  rcases hcases with ⟨hok, -⟩ | ⟨-, hsame⟩
  · cases hok
  · exact hsame

/-- One bucket, with all its ways in use. -/
def oneFullBucket : HashTableCuckoo :=
  { maxIndex := 1, slots := [⟨2 ^ 15, 7⟩, ⟨2 ^ 15, 8⟩, ⟨2 ^ 15, 9⟩, ⟨2 ^ 15, 7⟩], currentEntries := 4 }

theorem oneFullBucket_wellformed : Wellformed oneFullBucket := by
  refine ⟨by decide, by decide, rfl, by decide, ?_⟩
  intro index hindex way hway _
  have hzero : index = 0 := Nat.lt_one_iff.mp hindex
  subst hzero
  revert way
  decide

/-- After 128 displacements in the one bucket every value is back in its way. -/
theorem put_insufficientSpace_full :
    put id oneFullBucket [1, 2, 3, 4] [5, 0, 0, 0] = some (.insufficientSpace, oneFullBucket) := by
  have hfull : (put id oneFullBucket [1, 2, 3, 4] [5, 0, 0, 0]).map Prod.fst = some .insufficientSpace := by
    decide +kernel
  obtain ⟨⟨r, t'⟩, hput, rfl⟩ := Option.map_eq_some_iff.mp hfull
  have hsame := (put_insufficientSpace id oneFullBucket_wellformed (by decide) [5, 0, 0, 0]).2 t' hput
  rw [hput, hsame]

end Put

section Replace

variable {t : HashTableCuckoo} {index way : Nat} {data : Value}

theorem replace_entries (h : Wellformed t) (hindex : index < t.maxIndex) (hway : way < associativity)
    (hvalid : t.valid index way = true) (hdata : asNumber32 data (2 ^ 32 - 1) ≠ 2 ^ 32 - 1) :
    ∃ t', replace t index way data = (.ok, t') ∧ Wellformed t' ∧ t'.maxIndex = t.maxIndex ∧
      t'.currentEntries = t.currentEntries ∧
      ((s(index, t.tag index way), t.val index way) :: t'.entries).Perm
        ((s(index, t.tag index way), asNumber32 data (2 ^ 32 - 1)) :: t.entries) := by
  have htag := h.tag_lt index hindex way hway hvalid
  -- the tag bits are written as they are, so `Replace` is a `store` of the same tag
  have hstore : replace t index way data = (.ok, t.store index way (t.tag index way ||| validBitMask)
      (asNumber32 data (2 ^ 32 - 1))) := by
    rw [replace]
    simp only [if_neg hdata]
    rw [slot_of_valid h hindex hway hvalid]
    rfl
  exact ⟨_, hstore, store_wellformed _ h hindex hway htag, rfl, rfl,
    entries_store_valid h hindex hway htag hvalid⟩

end Replace

end FawnKV.Silt.HashTableCuckoo
