import FawnKV.Lib.Checked
import FawnKV.Silt.CuckooRuns

/-! The index arithmetic of `HashTableCuckoo` with its faults, with and without `SPLIT_HASHTABLE`. -/
namespace FawnKV.Silt.HashTableCuckoo

open Cuckoo Checked Transition

section Functions

/-- `SPLIT_HASHTABLE` gives each hash function buckets of its own. -/
def buckets (split : Bool) : Nat := if split then 2 ^ keyfragBits * numHash else 2 ^ keyfragBits

/-- What is added to the fragment of a hash function. -/
def half (split : Bool) (fn : Nat) : Nat := if split then fn * 2 ^ keyfragBits else 0

def createSplit (split : Bool) (htsInt : Int) : Except FawnDSReturn HashTableCuckoo :=
  if htsInt ≤ 0 then .error .error
  else
    let maxIndex := if htsInt.toNat < buckets split * associativity then
      htsInt.toNat / associativity else buckets split
    .ok { maxIndex, slots := List.replicate (maxIndex * associativity) ⟨0, 0⟩, currentEntries := 0 }

/-- `Status` of `CAPACITY`, which is `max_entries_`. -/
def capacity (t : HashTableCuckoo) : Nat := associativity * t.maxIndex

variable (split : Bool) (t : HashTableCuckoo)

/-- The slot of a bucket of the table and a way of the bucket. -/
def slotChecked (index way : Nat) : Except Fault CuckooSlot :=
  if index < t.maxIndex ∧ way < associativity then .ok (t.slot index way) else .error .outOfBounds

def validChecked (index way : Nat) : Except Fault Bool :=
  (t.slotChecked index way).map fun s => s.keypresent &&& validBitMask != 0

def tagChecked (index way : Nat) : Except Fault Nat :=
  (t.slotChecked index way).map fun s => s.keypresent &&& keyfragMask

def valChecked (index way : Nat) : Except Fault Nat := (t.slotChecked index way).map CuckooSlot.val

def storeChecked (index way keypresent id : Nat) : Except Fault HashTableCuckoo :=
  (t.slotChecked index way).map fun _ => t.store index way keypresent id

/-- The loop of `freeslot` from `way` on. -/
def freeslotLoop (index : Nat) : Nat → Nat → Except Fault Nat
  | 0, way => .ok way
  | rest + 1, way => do
    let used ← t.validChecked index way
    if used then freeslotLoop index rest (way + 1) else .ok way

def freeslotChecked (index : Nat) : Except Fault Nat := t.freeslotLoop index associativity 0

def initialChecked (key : Value) (fn val : Nat) : Except Fault Current := do
  let index ← modulo (keyfrag key fn + half split fn) t.maxIndex
  let tag ← modulo (keyfrag key ((fn + 1) % numHash)) t.maxIndex
  .ok { index, tag, val }

def displaceChecked (c : Current) (way : Nat) : Except Fault (HashTableCuckoo × Current) := do
  let victimTag ← t.tagChecked c.index way
  let victimVal ← t.valChecked c.index way
  let t' ← t.storeChecked c.index way (c.tag ||| validBitMask) c.val
  let index ← modulo (victimTag + half split 1) t.maxIndex
  let tag ← modulo c.index t.maxIndex
  .ok (t', { index, tag, val := victimVal })

def undoChecked (t : HashTableCuckoo) (tag val : Nat) :
    List (Nat × Nat) → Except Fault (HashTableCuckoo × Nat)
  | [] => .ok (t, val)
  | (index, way) :: undo => do
    let victimVal ← t.valChecked index way
    let t' ← t.storeChecked index way (tag ||| validBitMask) val
    let tag ← modulo (index + half split 1) t.maxIndex
    undoChecked t' tag victimVal undo

def loopChecked (rand : Nat → Nat) (dataVal : Nat) (t : HashTableCuckoo) (c : Current)
    (undo : List (Nat × Nat)) (n : Nat) : Nat → Except Fault (FawnDSReturn × HashTableCuckoo)
  | 0 => do
    let tag ← modulo (c.index + half split 1) t.maxIndex
    let r ← undoChecked split t tag c.val undo
    let _ ← require (r.2 = dataVal)
    .ok (.insufficientSpace, r.1)
  | rest + 1 => do
    let way ← t.freeslotChecked c.index
    if way < associativity then
      let t' ← t.storeChecked c.index way (c.tag ||| validBitMask) c.val
      .ok (.ok, { t' with currentEntries := t'.currentEntries + 1 })
    else
      let way := rand n % associativity
      let r ← t.displaceChecked split c way
      loopChecked rand dataVal r.1 r.2 ((c.index, way) :: undo) (n + 1) rest

def putChecked (rand : Nat → Nat) (key data : Value) : Except Fault (FawnDSReturn × HashTableCuckoo) := do
  let _ ← require (4 ≤ key.length)
  let fn := rand 0 % numHash
  let c ← t.initialChecked split key fn (asNumber32 data 0)
  let way ← t.freeslotChecked c.index
  if way < associativity then
    let t' ← t.storeChecked c.index way (c.tag ||| validBitMask) c.val
    .ok (.ok, { t' with currentEntries := t'.currentEntries + 1 })
  else
    let c ← t.initialChecked split key ((fn + 1) % numHash) (asNumber32 data 0)
    loopChecked split rand (asNumber32 data 0) t c [] 1 maxCuckooCount

/-- `current_index` of an iterator, with the assertion on it. -/
def indexChecked (it : IteratorElem) : Except Fault Nat := do
  let index ← if it.key.length ≠ 0 then
      modulo (keyfrag it.key (it.rows - 1) + half split (it.rows - 1)) t.maxIndex
    else .ok (it.rows - 1)
  let _ ← require (index < t.maxIndex)
  .ok index

/-- One look at the slot, which the iterator stops at. -/
def isMatchChecked (it : IteratorElem) (index : Nat) : Except Fault Bool := do
  let used ← t.validChecked index it.way
  if used then
    if it.key.length ≠ 0 then
      let tag ← t.tagChecked index it.way
      let fragment ← modulo (keyfrag it.key ((it.rows - 1 + 1) % numHash)) t.maxIndex
      .ok (tag == fragment)
    else .ok true
  else .ok false

/-- `Next` in at most `fuel` rounds: where it stops, and the value there. `none` is the state `END`. -/
def nextChecked : Nat → IteratorElem → Except Fault (Option (IteratorElem × Nat))
  | 0, _ => .error .running
  | fuel + 1, it =>
    if it.limit t < it.advance.rows then .ok none
    else do
      let index ← t.indexChecked split it.advance
      let found ← t.isMatchChecked it.advance index
      if found then
        let v ← t.valChecked index it.advance.way
        .ok (some (it.advance, v))
      else nextChecked fuel it.advance

/-- The values of an iterator until `END`, in at most `rounds` calls of `Next`. -/
def valuesChecked (fuel : Nat) : Nat → IteratorElem → Except Fault (List Nat)
  | 0, _ => .error .running
  | rounds + 1, it => do
    match ← t.nextChecked split fuel it with
    | none => .ok []
    | some (it, v) => do
      let vs ← valuesChecked fuel rounds it
      .ok (v :: vs)

def findChecked (fuel : Nat) (key : Value) : Except Fault (List Nat) := do
  let _ ← require (4 ≤ key.length)
  let _ ← modulo (keyfrag key 0) t.maxIndex
  let _ ← modulo (keyfrag key 1) t.maxIndex
  t.valuesChecked split fuel fuel (find key)

def enumerateChecked (fuel : Nat) : Except Fault (List Nat) := t.valuesChecked split fuel fuel enumerate

/-- A call of `Put`, or of `Replace` where an iterator stands. -/
def stepChecked : Op → Option HashTableCuckoo
  | .put key data rand =>
    match t.putChecked split rand key data with
    | .ok r => some r.2
    | .error _ => none
  | .replace index way data =>
    if index < t.maxIndex ∧ way < associativity ∧ t.valid index way then
      some (replace t index way data).2
    else none

end Functions

/-- The calls come to their end without a fault, and the tags are numbers of buckets. -/
structure Total (split : Bool) (t : HashTableCuckoo) : Prop where
  put : ∀ rand key data, 4 ≤ key.length → ∃ r, t.putChecked split rand key data = .ok r
  find : ∀ key, 4 ≤ key.length → ∃ fuel vs, t.findChecked split fuel key = .ok vs
  enumerate : ∃ fuel vs, t.enumerateChecked split fuel = .ok vs
  tag : ∀ index < t.maxIndex, ∀ way < associativity, t.tag index way < 2 ^ keyfragBits ∧
    t.tag index way < t.maxIndex

section Access

variable {split : Bool} {t t' : HashTableCuckoo} {c : Current} {index way tag : Nat} {key : Value}
  {undo : List (Nat × Nat)}

theorem slotChecked_ok (hindex : index < t.maxIndex) (hway : way < associativity) :
    t.slotChecked index way = .ok (t.slot index way) := if_pos ⟨hindex, hway⟩

theorem validChecked_ok (hindex : index < t.maxIndex) (hway : way < associativity) :
    t.validChecked index way = .ok (t.valid index way) := by
  rw [validChecked, slotChecked_ok hindex hway]
  rfl

theorem tagChecked_ok (hindex : index < t.maxIndex) (hway : way < associativity) :
    t.tagChecked index way = .ok (t.tag index way) := by
  rw [tagChecked, slotChecked_ok hindex hway]
  rfl

theorem valChecked_ok (hindex : index < t.maxIndex) (hway : way < associativity) :
    t.valChecked index way = .ok (t.val index way) := by
  rw [valChecked, slotChecked_ok hindex hway]
  rfl

theorem storeChecked_ok (hindex : index < t.maxIndex) (hway : way < associativity) (keypresent id : Nat) :
    t.storeChecked index way keypresent id = .ok (t.store index way keypresent id) := by
  rw [storeChecked, slotChecked_ok hindex hway]
  rfl

theorem freeslotLoop_ok (hindex : index < t.maxIndex) (rest way : Nat) (hway : way + rest ≤ associativity) :
    t.freeslotLoop index rest way =
      .ok (((List.range' way rest).find? fun way => !t.valid index way).getD (way + rest)) := by
  induction rest generalizing way with
  | zero => rfl
  | succ rest ih =>
    rw [freeslotLoop, validChecked_ok hindex (by omega), ok_bind, List.range'_succ]
    cases hvalid : t.valid index way with
    | true =>
      rw [if_pos rfl, ih (way + 1) (by omega), List.find?_cons_of_neg (by simp [hvalid])]
      congr 2
      omega
    | false =>
      rw [if_neg (by simp), List.find?_cons_of_pos (by simp [hvalid])]
      rfl

theorem freeslotChecked_ok (hindex : index < t.maxIndex) :
    t.freeslotChecked index = .ok (t.freeslot index) := by
  rw [freeslotChecked, freeslotLoop_ok hindex _ _ (by simp), freeslot, List.range_eq_range', Nat.zero_add]

theorem initialChecked_ok (hpos : 0 < t.maxIndex) (key : Value) (fn val : Nat) :
    t.initialChecked split key fn val = .ok { index := (keyfrag key fn + half split fn) % t.maxIndex
                                              tag := keyfrag key ((fn + 1) % numHash) % t.maxIndex
                                              val } := by
  rw [initialChecked, modulo_ok hpos, ok_bind, modulo_ok hpos, ok_bind]

theorem displaceChecked_ok (hpos : 0 < t.maxIndex) (hindex : c.index < t.maxIndex)
    (hway : way < associativity) : t.displaceChecked split c way =
      .ok (t.store c.index way (c.tag ||| validBitMask) c.val,
      { index := (t.tag c.index way + half split 1) % t.maxIndex
        tag := c.index % t.maxIndex
        val := t.val c.index way }) := by
  rw [displaceChecked, tagChecked_ok hindex hway, ok_bind, valChecked_ok hindex hway, ok_bind,
    storeChecked_ok hindex hway, ok_bind, modulo_ok hpos, ok_bind, modulo_ok hpos, ok_bind]

/-- A table with buckets, whose tags are numbers of buckets. -/
structure Indexed (t : HashTableCuckoo) : Prop where
  maxIndex_pos : 0 < t.maxIndex
  length : t.slots.length = t.maxIndex * associativity
  tag_lt : ∀ s ∈ t.slots, s.keypresent &&& keyfragMask < t.maxIndex

theorem and_keyfragMask_store (tag : Nat) : (tag ||| validBitMask) % 2 ^ 16 &&& keyfragMask = tag % 2 ^ 15 := by
  have hmask : validBitMask = 2 ^ 15 := rfl
  rw [and_keyfragMask, Nat.mod_mod_of_dvd _ (by decide), hmask, Nat.or_mod_two_pow, Nat.mod_self, Nat.or_zero]

theorem Indexed.store (h : Indexed t) (index way id : Nat) (htag : tag < t.maxIndex) :
    Indexed (t.store index way (tag ||| validBitMask) id) := by
  refine ⟨h.maxIndex_pos, (List.length_set ..).trans h.length, fun s hs => ?_⟩
  rcases List.mem_or_eq_of_mem_set hs with hold | rfl
  · exact h.tag_lt s hold
  · rw [and_keyfragMask_store]
    exact Nat.lt_of_le_of_lt (Nat.mod_le _ _) htag

theorem Indexed.tag_spec (h : Indexed t) (hindex : index < t.maxIndex) (hway : way < associativity) :
    t.tag index way < 2 ^ keyfragBits ∧ t.tag index way < t.maxIndex := by
  have hpos : index * associativity + way < t.slots.length := h.length ▸ position_lt hindex hway
  refine ⟨Nat.lt_of_le_of_lt Nat.and_le_right (by decide), ?_⟩
  rw [HashTableCuckoo.tag, slot, List.getD_eq_getElem _ _ hpos]
  exact h.tag_lt _ (List.getElem_mem hpos)

/-- The values of the slots, which the tags have no part in. -/
def vals (t : HashTableCuckoo) : List Nat := t.slots.map CuckooSlot.val

/-- The value that is left over when the victims' values are given back. -/
def undoVal (vals : List Nat) (val : Nat) : List (Nat × Nat) → Nat
  | [] => val
  | (index, way) :: undo =>
    undoVal (vals.set (index * associativity + way) val) (vals.getD (index * associativity + way) 0) undo

theorem vals_store (index way kp id : Nat) :
    (t.store index way kp id).vals = t.vals.set (index * associativity + way) id := List.map_set ..

theorem val_eq_vals (index way : Nat) : t.val index way = t.vals.getD (index * associativity + way) 0 := by
  rw [val, slot, vals, List.getD_eq_getElem?_getD, List.getD_eq_getElem?_getD, List.getElem?_map]
  cases t.slots[index * associativity + way]? <;> rfl

/-- Both places of an undo list are in the table. -/
def InTable (t : HashTableCuckoo) (e : Nat × Nat) : Prop := e.1 < t.maxIndex ∧ e.2 < associativity

theorem undoChecked_ok (split : Bool) (val : Nat) (h : Indexed t) (htag : tag < t.maxIndex)
    (hundo : ∀ e ∈ undo, t.InTable e) :
    ∃ t', undoChecked split t tag val undo = .ok (t', undoVal t.vals val undo) ∧ Indexed t' ∧
      t'.maxIndex = t.maxIndex := by
  induction undo generalizing t tag val with
  | nil => exact ⟨t, rfl, h, rfl⟩
  | cons e undo ih =>
    obtain ⟨⟨hindex, hway⟩, hrest⟩ := List.forall_mem_cons.mp hundo
    obtain ⟨t', hrun, ht', hmax⟩ := ih (t.val e.1 e.2) (h.store e.1 e.2 val htag)
      (Nat.mod_lt (e.1 + half split 1) h.maxIndex_pos) hrest
    refine ⟨t', ?_, ht', hmax⟩
    rw [undoChecked, valChecked_ok hindex hway, ok_bind, storeChecked_ok hindex hway, ok_bind,
      modulo_ok h.maxIndex_pos, ok_bind, undoVal, ← val_eq_vals,
      ← vals_store e.1 e.2 (tag ||| validBitMask) val]
    exact hrun

/-- A displacement is undone by what its victim's place says. -/
theorem undoVal_displace (h : Indexed t) (hindex : c.index < t.maxIndex)
    (hway : way < associativity) (kp : Nat) :
    undoVal (t.store c.index way kp c.val).vals (t.val c.index way) ((c.index, way) :: undo) =
      undoVal t.vals c.val undo := by
  have hpos : c.index * associativity + way < t.vals.length := by
    rw [vals, List.length_map, h.length]
    exact position_lt hindex hway
  rw [undoVal, vals_store, List.set_set, List.getD_eq_getElem _ _ (by rwa [List.length_set]),
    List.getElem_set_self, val_eq_vals, List.getD_eq_getElem _ _ hpos, List.set_getElem_self]

/-- What every `Put` comes to: a table with as many buckets. -/
def Keeps (t : HashTableCuckoo) (m : Except Fault (FawnDSReturn × HashTableCuckoo)) : Prop :=
  ∃ r t', m = .ok (r, t') ∧ Indexed t' ∧ t'.maxIndex = t.maxIndex

theorem Indexed.occupied (h : Indexed t) (index way id n : Nat) (htag : tag < t.maxIndex) :
    Indexed { t.store index way (tag ||| validBitMask) id with currentEntries := n } :=
  let ⟨hpos, hlength, htags⟩ := h.store index way id htag
  ⟨hpos, hlength, htags⟩

theorem loopChecked_keeps (split : Bool) (rand : Nat → Nat) (c : Current) {dataVal : Nat} (h : Indexed t)
    (hindex : c.index < t.maxIndex) (htag : c.tag < t.maxIndex) (hundo : ∀ e ∈ undo, t.InTable e)
    (hval : undoVal t.vals c.val undo = dataVal) (n rest : Nat) :
    t.Keeps (loopChecked split rand dataVal t c undo n rest) := by
  induction rest generalizing t c undo n with
  | zero =>
    obtain ⟨t', hrun, ht', hmax⟩ := undoChecked_ok split c.val h
      (Nat.mod_lt (c.index + half split 1) h.maxIndex_pos) hundo
    refine ⟨.insufficientSpace, t', ?_, ht', hmax⟩
    rw [loopChecked, modulo_ok h.maxIndex_pos, ok_bind, hrun, ok_bind, require_ok hval, ok_bind]
  | succ rest ih =>
    rw [loopChecked, freeslotChecked_ok hindex, ok_bind]
    by_cases hfree : t.freeslot c.index < associativity
    · rw [if_pos hfree, storeChecked_ok hindex hfree, ok_bind]
      exact ⟨.ok, _, rfl, h.occupied _ _ _ _ htag, rfl⟩
    · have hway : rand n % associativity < associativity := Nat.mod_lt _ (by decide)
      rw [if_neg hfree]
      simp only
      rw [displaceChecked_ok h.maxIndex_pos hindex hway, ok_bind]
      refine ih _ (h.store _ _ _ htag) (Nat.mod_lt _ h.maxIndex_pos) (Nat.mod_lt _ h.maxIndex_pos) ?_ ?_ _
      · exact List.forall_mem_cons.mpr ⟨⟨hindex, hway⟩, hundo⟩
      · exact (undoVal_displace h hindex hway _).trans hval

/-- `Put` has no fault in a table with buckets. -/
theorem putChecked_keeps (split : Bool) (h : Indexed t) (rand : Nat → Nat) (data : Value)
    (hkey : 4 ≤ key.length) : t.Keeps (t.putChecked split rand key data) := by
  have hmod : ∀ x, x % t.maxIndex < t.maxIndex := fun x => Nat.mod_lt x h.maxIndex_pos
  rw [putChecked, require_ok hkey, ok_bind]
  simp only [initialChecked_ok h.maxIndex_pos, ok_bind]
  rw [freeslotChecked_ok (hmod _), ok_bind]
  by_cases hfree : t.freeslot ((keyfrag key (rand 0 % numHash) + half split (rand 0 % numHash)) % t.maxIndex) <
      associativity
  · rw [if_pos hfree, storeChecked_ok (hmod _) hfree, ok_bind]
    exact ⟨.ok, _, rfl, h.occupied _ _ _ _ (hmod _), rfl⟩
  · rw [if_neg hfree]
    refine loopChecked_keeps split rand _ h ?_ ?_ (List.forall_mem_nil _) ?_ 1 _
    · exact hmod _
    · exact hmod _
    · rfl

theorem undoChecked_false (hpos : 0 < t.maxIndex) (tag val : Nat) (hundo : ∀ e ∈ undo, t.InTable e) :
    undoChecked false t tag val undo = .ok (undoCuckooing t tag val undo) := by
  induction undo generalizing t tag val with
  | nil => rfl
  | cons e undo ih =>
    obtain ⟨⟨hindex, hway⟩, hrest⟩ := List.forall_mem_cons.mp hundo
    have hrun := ih (t := t.store e.1 e.2 (tag ||| validBitMask) val) hpos (e.1 % t.maxIndex)
      (t.val e.1 e.2) hrest
    rw [undoChecked, valChecked_ok hindex hway, ok_bind, storeChecked_ok hindex hway, ok_bind, modulo_ok hpos,
      ok_bind]
    exact hrun

/-- The result of a call in the model without faults. -/
def orAssertion : Option (FawnDSReturn × HashTableCuckoo) → Except Fault (FawnDSReturn × HashTableCuckoo)
  | some r => .ok r
  | none => .error .assertion

theorem loopChecked_false (rand : Nat → Nat) (dataVal : Nat) (hpos : 0 < t.maxIndex)
    (hindex : c.index < t.maxIndex) (hundo : ∀ e ∈ undo, t.InTable e) (n rest : Nat) :
    loopChecked false rand dataVal t c undo n rest = orAssertion (cuckooLoop rand dataVal t c undo n rest) := by
  induction rest generalizing t c undo n with
  | zero =>
    rw [loopChecked, modulo_ok hpos, ok_bind, undoChecked_false hpos _ _ hundo, ok_bind, cuckooLoop]
    show (require ((undoCuckooing t (c.index % t.maxIndex) c.val undo).2 = dataVal) >>= _) = _
    rw [require]
    split <;> rfl
  | succ rest ih =>
    rw [loopChecked, freeslotChecked_ok hindex, ok_bind, cuckooLoop]
    by_cases hfree : t.freeslot c.index < associativity
    · rw [if_pos hfree, if_pos hfree, storeChecked_ok hindex hfree, ok_bind]
      rfl
    · have hway : rand n % associativity < associativity := Nat.mod_lt _ (by decide)
      rw [if_neg hfree, if_neg hfree]
      simp only
      rw [displaceChecked_ok hpos hindex hway, ok_bind]
      refine ih (t := (t.displace c (rand n % associativity)).1) hpos (Nat.mod_lt _ hpos) ?_ _
      exact List.forall_mem_cons.mpr ⟨⟨hindex, hway⟩, hundo⟩

/-- Without `SPLIT_HASHTABLE` the checked `Put` is `put`. -/
theorem putChecked_false (hpos : 0 < t.maxIndex) (rand : Nat → Nat) (key data : Value) :
    t.putChecked false rand key data = orAssertion (put rand t key data) := by
  have hmod : ∀ x, x % t.maxIndex < t.maxIndex := fun x => Nat.mod_lt x hpos
  have hinitial : ∀ fn val, t.initialChecked false key fn val = .ok (t.initial key fn val) :=
    fun fn val => initialChecked_ok hpos key fn val
  rw [putChecked, put]
  by_cases hkey : key.length < 4
  · rw [require, if_neg (by omega), if_pos hkey]
    rfl
  · rw [require_ok (Nat.le_of_not_lt hkey), ok_bind, if_neg hkey]
    have hindex : ∀ fn, (t.initial key fn (asNumber32 data 0)).index < t.maxIndex := fun fn => hmod _
    simp only [hinitial, ok_bind]
    rw [freeslotChecked_ok (hindex _), ok_bind]
    by_cases hfree : t.freeslot (t.initial key (rand 0 % numHash) (asNumber32 data 0)).index < associativity
    · rw [if_pos hfree, if_pos hfree, storeChecked_ok (hindex _) hfree, ok_bind]
      rfl
    · rw [if_neg hfree, if_neg hfree]
      exact loopChecked_false rand _ hpos (hindex _) (List.forall_mem_nil _) 1 _

theorem Indexed.replace (h : Indexed t) (hindex : index < t.maxIndex) (hway : way < associativity)
    (data : Value) : Indexed (replace t index way data).2 := by
  rw [HashTableCuckoo.replace]
  simp only
  split
  · exact h
  · refine ⟨h.maxIndex_pos, (List.length_set ..).trans h.length, fun s hs => ?_⟩
    rcases List.mem_or_eq_of_mem_set hs with hold | rfl
    · exact h.tag_lt s hold
    · exact (h.tag_spec hindex hway).2

theorem replace_maxIndex (index way : Nat) (data : Value) :
    (replace t index way data).2.maxIndex = t.maxIndex := by
  rw [replace]
  simp only
  split <;> rfl

theorem Indexed.step (h : Indexed t) {op : Op} (hstep : stepChecked split t op = some t') :
    Indexed t' ∧ t'.maxIndex = t.maxIndex := by
  cases op with
  | put key data rand =>
    by_cases hkey : 4 ≤ key.length
    · obtain ⟨r, u, hput, hu, hmax⟩ := putChecked_keeps split h rand data hkey
      rw [stepChecked, hput] at hstep
      cases hstep
      exact ⟨hu, hmax⟩
    · rw [stepChecked, putChecked, require, if_neg hkey] at hstep
      cases hstep
  | replace index way data =>
    rw [stepChecked] at hstep
    split at hstep
    · rename_i hat
      cases hstep
      exact ⟨h.replace hat.1 hat.2.1 data, replace_maxIndex _ _ _⟩
    · cases hstep

end Access

section Iterators

variable {t : HashTableCuckoo} {key : Value} {c : Nat}

/-- The places an iterator of `key` goes through, the row before the first included. -/
def cursors (t : HashTableCuckoo) (key : Value) : Nat :=
  ((IteratorElem.ofCursor key 3).limit t + 1) * associativity

theorem indexChecked_ok (split : Bool) (h : Indexed t) (hc : 3 ≤ c) (hlt : c + 1 < t.cursors key) :
    ∃ index < t.maxIndex, t.indexChecked split (IteratorElem.ofCursor key (c + 1)) = .ok index := by
  have hrow : (IteratorElem.ofCursor key (c + 1)).rows = (c + 1) / associativity := rfl
  rw [indexChecked]
  by_cases hkey : (IteratorElem.ofCursor key (c + 1)).key.length ≠ 0
  · have hindex := Nat.mod_lt (keyfrag (IteratorElem.ofCursor key (c + 1)).key
      ((IteratorElem.ofCursor key (c + 1)).rows - 1) +
        half split ((IteratorElem.ofCursor key (c + 1)).rows - 1)) h.maxIndex_pos
    refine ⟨_, hindex, ?_⟩
    rw [if_pos hkey, modulo_ok h.maxIndex_pos, ok_bind]
    exact bind_eq_ok.mpr ⟨(), require_ok hindex, rfl⟩
  · have hlimit : t.cursors key = (t.maxIndex + 1) * associativity := by
      rw [cursors, IteratorElem.limit]
      exact congrArg (fun n => (n + 1) * associativity) (if_neg hkey)
    have hindex : (IteratorElem.ofCursor key (c + 1)).rows - 1 < t.maxIndex := by
      rw [hrow]
      simp only [associativity] at *
      omega
    refine ⟨_, hindex, ?_⟩
    rw [if_neg hkey, ok_bind]
    exact bind_eq_ok.mpr ⟨(), require_ok hindex, rfl⟩

theorem isMatchChecked_ok (h : Indexed t) {it : IteratorElem} {index : Nat} (hindex : index < t.maxIndex)
    (hway : it.way < associativity) : ∃ found, t.isMatchChecked it index = .ok found := by
  rw [isMatchChecked, validChecked_ok hindex hway, ok_bind, tagChecked_ok hindex hway, modulo_ok h.maxIndex_pos]
  split
  · split
    · exact ⟨_, rfl⟩
    · exact ⟨_, rfl⟩
  · exact ⟨_, rfl⟩

/-- `Next` comes to the end, or to a later place with a value. -/
theorem nextChecked_ofCursor (split : Bool) (h : Indexed t) (hc : 3 ≤ c) (hlt : c < t.cursors key) (fuel : Nat)
    (hfuel : t.cursors key ≤ c + fuel) :
    t.nextChecked split fuel (IteratorElem.ofCursor key c) = .ok none ∨ ∃ c' v, c < c' ∧ c' < t.cursors key ∧
      t.nextChecked split fuel (IteratorElem.ofCursor key c) =
        .ok (some (IteratorElem.ofCursor key c', v)) := by
  induction fuel generalizing c with
  | zero => exact absurd hlt (by omega)
  | succ fuel ih =>
    have hend : (IteratorElem.ofCursor key c).limit t < (IteratorElem.ofCursor key (c + 1)).rows ↔
        t.cursors key ≤ c + 1 := by
      have hlimit : (IteratorElem.ofCursor key c).limit t = (IteratorElem.ofCursor key 3).limit t := rfl
      rw [cursors, hlimit]
      simp only [IteratorElem.ofCursor, associativity]
      omega
    rw [nextChecked, IteratorElem.advance_ofCursor]
    by_cases hlast : t.cursors key ≤ c + 1
    · exact .inl (if_pos (hend.mpr hlast))
    · have hway : (IteratorElem.ofCursor key (c + 1)).way < associativity := Nat.mod_lt _ (by decide)
      obtain ⟨index, hindex, hok⟩ := indexChecked_ok split h hc (Nat.lt_of_not_le hlast)
      obtain ⟨found, hfound⟩ := isMatchChecked_ok h hindex hway
      rw [if_neg (hend.not.mpr hlast), hok, ok_bind, hfound, ok_bind]
      cases found with
      | true =>
        refine .inr ⟨c + 1, t.val index ((c + 1) % associativity), Nat.lt_succ_self c,
          Nat.lt_of_not_le hlast, ?_⟩
        rw [if_pos rfl, valChecked_ok hindex hway, ok_bind]
        rfl
      | false =>
        rw [if_neg (by decide)]
        rcases ih (c := c + 1) (by omega) (by omega) (by omega) with hnone | ⟨c', v, hgt, hrest⟩
        · exact .inl hnone
        · exact .inr ⟨c', v, by omega, hrest⟩

theorem valuesChecked_ofCursor (split : Bool) (h : Indexed t) (hc : 3 ≤ c) (hlt : c < t.cursors key)
    (rounds : Nat) (hrounds : t.cursors key ≤ c + rounds) :
    ∃ vs, t.valuesChecked split (t.cursors key) rounds (IteratorElem.ofCursor key c) = .ok vs := by
  induction rounds generalizing c with
  | zero => exact absurd hlt (by omega)
  | succ rounds ih =>
    rw [valuesChecked]
    rcases nextChecked_ofCursor split h hc hlt _ (Nat.le_add_left _ c) with
      hnone | ⟨c', v, hgt, hlt', hsome⟩
    · rw [hnone]
      exact ⟨[], rfl⟩
    · obtain ⟨vs, hvs⟩ := ih (c := c') (by omega) hlt' (by omega)
      rw [hsome, ok_bind]
      exact ⟨v :: vs, bind_eq_ok.mpr ⟨vs, hvs, rfl⟩⟩

theorem cursors_large (t : HashTableCuckoo) (key : Value) (h : 0 < t.maxIndex) : 3 < t.cursors key := by
  have hlimit : 0 < (IteratorElem.ofCursor key 3).limit t := by
    rw [IteratorElem.limit]
    split
    · decide
    · exact h
  rw [cursors]
  simp only [associativity]
  omega

theorem Indexed.total (h : Indexed t) (split : Bool) : Total split t where
  put rand key data hkey :=
    let ⟨r, t', hput, _⟩ := putChecked_keeps split h rand data hkey
    ⟨(r, t'), hput⟩
  find key hkey := by
    obtain ⟨vs, hvs⟩ := valuesChecked_ofCursor split h (Nat.le_refl 3)
      (cursors_large t key h.maxIndex_pos) (t.cursors key) (Nat.le_add_left _ 3)
    refine ⟨t.cursors key, vs, ?_⟩
    rw [findChecked, require_ok hkey, ok_bind, modulo_ok h.maxIndex_pos, ok_bind,
      modulo_ok h.maxIndex_pos, ok_bind]
    exact hvs
  enumerate :=
    ⟨t.cursors [], valuesChecked_ofCursor split h (Nat.le_refl 3) (cursors_large t [] h.maxIndex_pos) _
      (Nat.le_add_left _ 3)⟩
  tag index hindex way hway := h.tag_spec hindex hway

end Iterators

section Create

theorem createSplit_false (htsInt : Int) : createSplit false htsInt = create htsInt := rfl

variable {split : Bool} {htsInt : Int} {t : HashTableCuckoo}

theorem createSplit_maxIndex (h : createSplit split htsInt = .ok t) :
    0 < htsInt ∧ t.maxIndex ≤ htsInt.toNat / associativity ∧
      (0 < t.maxIndex ↔ associativity ≤ htsInt.toNat) := by
  rw [createSplit] at h
  split at h
  · cases h
  · cases h
    have hbuckets : 0 < buckets split := by cases split <;> decide
    refine ⟨by omega, ?_⟩
    by_cases hsmall : htsInt.toNat < buckets split * associativity
    · rw [if_pos hsmall]
      simp only [associativity] at *
      omega
    · rw [if_neg hsmall]
      simp only [associativity] at *
      omega

theorem createSplit_indexed (h : createSplit split htsInt = .ok t) (hpos : 0 < t.maxIndex) : Indexed t := by
  rw [createSplit] at h
  split at h
  · cases h
  · cases h
    refine ⟨hpos, List.length_replicate, fun s hs => ?_⟩
    rw [List.eq_of_mem_replicate hs]
    exact hpos

/-- A table without buckets faults in its first `Find`. -/
theorem not_total (h : t.maxIndex = 0) : ¬Total split t := by
  intro htotal
  obtain ⟨fuel, vs, hfind⟩ := htotal.find [0, 0, 0, 0] (by decide)
  rw [findChecked, h] at hfind
  cases hfind

/-- All indexing is total in every run from a table that `Create` accepts, unless it is smaller than
one bucket. -/
theorem createSplit_total_iff (split : Bool) (htsInt : Int) :
    (∀ t₀, createSplit split htsInt = .ok t₀ → ∀ ops t, run (stepChecked split) t₀ ops = some t →
      Total split t ∧ (t.capacity : Int) ≤ htsInt) ↔ htsInt ≤ 0 ∨ 4 ≤ htsInt := by
  constructor
  · intro h
    by_contra hsmall
    cases hcreate : createSplit split htsInt with
    | error e =>
      rw [createSplit, if_neg (by omega)] at hcreate
      cases hcreate
    | ok t₀ =>
      obtain ⟨-, -, hiff⟩ := createSplit_maxIndex hcreate
      have hzero : t₀.maxIndex = 0 := by
        by_contra hne
        have := hiff.mp (Nat.pos_of_ne_zero hne)
        simp only [associativity] at this
        omega
      exact not_total hzero (h t₀ hcreate [] t₀ rfl).1
  · intro h t₀ hcreate ops t hrun
    obtain ⟨hpos, hle, hiff⟩ := createSplit_maxIndex hcreate
    have hbuckets : 0 < t₀.maxIndex := hiff.mpr (by simp only [associativity]; omega)
    have hinv : ∀ s l s', Indexed s ∧ s.maxIndex = t₀.maxIndex → stepChecked split s l = some s' →
        Indexed s' ∧ s'.maxIndex = t₀.maxIndex := by
      intro s l s' hs hstep
      obtain ⟨hs', hmax⟩ := hs.1.step hstep
      exact ⟨hs', hmax.trans hs.2⟩
    have hlast : Indexed t ∧ t.maxIndex = t₀.maxIndex :=
      @run_invariant _ _ _ _ _ _ (fun s => Indexed s ∧ s.maxIndex = t₀.maxIndex)
        (fun s l s' hstep hs => hinv s l s' hs hstep) hrun ⟨createSplit_indexed hcreate hbuckets, rfl⟩
    obtain ⟨ht, hmax⟩ := hlast
    refine ⟨ht.total split, ?_⟩
    rw [capacity, hmax]
    simp only [associativity] at *
    omega

/-- A table of size three has no bucket, and `Find` divides by its number of buckets. -/
theorem createSplit_three : ∃ t₀, createSplit false 3 = .ok t₀ ∧
    findChecked false t₀ 8 [0, 0, 0, 0] = .error .divisionByZero ∧
    putChecked false t₀ id [0, 0, 0, 0] [1, 0, 0, 0] = .error .divisionByZero :=
  ⟨_, rfl, rfl, rfl⟩

end Create

end FawnKV.Silt.HashTableCuckoo
