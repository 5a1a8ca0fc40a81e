import FawnKV.Silt.Reopen

/-! Record ids on their way through a hash table: from `Append`, by `Put` or `Replace`, and back from
`Find` to the data store. -/
namespace FawnKV.Silt

open ByteFile Transition

section Numbers

variable {id n : Nat}

/-- What `as_number<uint32_t>` makes of an id of eight bytes. -/
theorem asNumber32_leBytes (hid : id < 2 ^ 63) (default : Nat) :
    asNumber32 (leBytes 8 id) default = id % 2 ^ 32 := by
  have hnumber : number? (leBytes 8 id) = some id := by
    rw [number?, if_pos (by simp), readLe_leBytes (Nat.lt_trans hid (by decide))]
  rw [asNumber32, hnumber]

/-- Four bytes are a signed number, and no id from `2 ^ 31` on. -/
theorem asOffset_four {v : Value} (hv : v.length = 4) : asOffset v < 2 ^ 31 := by
  have hlt := readLe_lt v
  rw [hv] at hlt
  rw [asOffset, number?, if_pos (by omega), hv]
  simp only
  split
  · rename_i hsmall
    omega
  · omega

theorem asOffset_leBytes (hn : n < 2 ^ 31) : asOffset (leBytes 4 n) = n :=
  FileStore.asOffset_of_denotes (denotes_leBytes (.inl rfl) (by omega)) hn

end Numbers

namespace HashTableCuckoo

open Cuckoo

variable {t t' : HashTableCuckoo} {key data : Value} {it : IteratorElem} {n : Nat}

/-- The bucket and the tag where the iterator stands are the two fragments of the key. -/
theorem places_of_mem_find (hkey : key.length ≠ 0) (h : it ∈ (find key).yields t) :
    s(it.currentIndex t, t.tag (it.currentIndex t) it.way) = places t.maxIndex key := by
  have hlimit : (IteratorElem.ofCursor key 3).limit t = numHash := if_pos hkey
  rw [IteratorElem.find_eq, IteratorElem.yields_ofCursor t key (numHash * associativity) 3
    (by rw [hlimit]; rfl), List.mem_filter] at h
  obtain ⟨hmem, hmatch⟩ := h
  obtain ⟨c, hc, rfl⟩ := List.mem_map.mp hmem
  rw [List.mem_range'_1] at hc
  have hne : ¬key.length = 0 := hkey
  simp only [IteratorElem.isMatch, IteratorElem.ofCursor, Bool.and_eq_true, Bool.or_eq_true, beq_iff_eq,
    hne, false_or, numHash, associativity] at hmatch hc ⊢
  obtain ⟨-, htag⟩ := hmatch
  rw [htag]
  simp only [IteratorElem.currentIndex, if_pos hkey]
  obtain hrow | hrow : c / 4 = 1 ∨ c / 4 = 2 := by omega
  · rw [hrow]
    rfl
  · rw [hrow]
    exact Sym2.eq_swap

/-- An entry for the key is one that `Find` yields. -/
theorem exists_candidate (hkey : 4 ≤ key.length)
    (hmem : (places t.maxIndex key, n) ∈ t.entries) :
    ∃ c, (c, leBytes 4 n) ∈ candidates t key := by
  obtain ⟨p, hp, hentry⟩ := SlotArray.mem_contents.mp hmem
  obtain ⟨hvalid, heq⟩ := entryAt_eq_some hentry
  rw [Prod.mk.injEq] at heq
  have hindex : p / associativity < t.maxIndex := Nat.div_lt_of_lt_mul (by rw [Nat.mul_comm]; exact hp)
  have hslot : SlotOf t (key, n) (p / associativity) (p % associativity) := by
    refine ⟨hindex, Nat.mod_lt _ (by decide), hvalid, heq.2.symm, ?_⟩
    rcases Sym2.eq_iff.mp heq.1 with ⟨h0, h1⟩ | ⟨h0, h1⟩
    · exact .inl ⟨h0.symm, h1.symm⟩
    · exact .inr ⟨h1.symm, h0.symm⟩
  obtain ⟨it, hit, hcur, hway⟩ := find_slotOf hkey hslot
  refine ⟨(it.currentIndex t, it.way), List.mem_map.mpr ⟨it, hit, ?_⟩⟩
  rw [IteratorElem.data, hcur, hway, hslot.val]

/-- `Replace` at a candidate of the key leaves the new value there, and every entry of another value. -/
theorem replace_mem_entries (hwf : Wellformed t) (hkey : key.length ≠ 0) (h : it ∈ (find key).yields t)
    (hdata : asNumber32 data (2 ^ 32 - 1) ≠ 2 ^ 32 - 1) :
    (places t.maxIndex key, asNumber32 data (2 ^ 32 - 1)) ∈
        (replace t (it.currentIndex t) it.way data).2.entries ∧
      ∀ e ∈ t.entries, e.2 ≠ it.data t → e ∈ (replace t (it.currentIndex t) it.way data).2.entries := by
  obtain ⟨-, hway, hvalid⟩ := mem_find_yields hkey h
  have hindex := currentIndex_lt hkey hwf.maxIndex_pos h
  obtain ⟨u, hreplace, -, -, -, hperm⟩ := replace_entries hwf hindex hway hvalid hdata
  rw [places_of_mem_find hkey h] at hperm
  rw [hreplace]
  constructor
  · rcases List.mem_cons.mp (hperm.mem_iff.mpr List.mem_cons_self) with heq | hmem
    · -- the same value is written again
      rw [heq] at hperm ⊢
      refine hperm.cons_inv.mem_iff.mpr (SlotArray.mem_contents.mpr ⟨_, position_lt hindex hway, ?_⟩)
      rw [← places_of_mem_find hkey h]
      exact entryAt_valid hway hvalid
    · exact hmem
  · intro e he hne
    rcases List.mem_cons.mp (hperm.mem_iff.mpr (List.mem_cons_of_mem _ he)) with rfl | hmem
    · exact absurd rfl hne
    · exact hmem

end HashTableCuckoo

namespace SfTable

open HashTableDefault (Hashes)

/-- The calls that write to a table. `Replace` is one of the `n`-th element that `Find` enumerates. Each call
follows a search that went to its end, as those of `FawnDS_SF` do; a `Put` from a cached place that is no longer
free is not one of them. -/
inductive Op where
  | put (key data : Value)
  | replace (key : Value) (n : Nat) (data : Value)

namespace Op

def key : Op → Value
  | put key _ => key
  | replace key _ _ => key

def data : Op → Value
  | put _ data => data
  | replace _ _ data => data

def call (hashes : Hashes) (h : SfTable) : Op → Option (FawnDSReturn × SfTable)
  | put key data => (hashTable hashes).put h key data
  | replace key n data =>
    ((hashTable hashes).find h key).bind fun l => (l[n]?).bind fun e => (hashTable hashes).replace h e.1 data

def step (hashes : Hashes) (h : SfTable) (op : Op) : Option SfTable := (op.call hashes h).map Prod.snd

/-- The call is a `Replace` where the value `v` stands. -/
def Replaces (hashes : Hashes) (h : SfTable) (v : Value) : Op → Prop
  | put _ _ => False
  | replace key n _ => ∃ l c, (hashTable hashes).find h key = some l ∧ l[n]? = some (c, v)

/-- The calls that do not check that the id has 32 bits. -/
def Unchecked : SfTable → Op → Prop
  | cuckoo _, put _ _ => True
  | _, _ => False

end Op

/-- The entry that a call left for the key is still there. -/
def Kept (hashes : Hashes) (key : Value) (n : Nat) : SfTable → Prop
  | cuckoo s => 4 ≤ key.length ∧ s.table.maxIndex ≠ 0 ∧
    (HashTableCuckoo.places s.table.maxIndex key, n) ∈ s.table.entries
  | default t => t.size ≠ 0 ∧ HashTableDefault.Finds hashes t key n

section Kept

variable {cfg : Config} {h h' : SfTable} {hashes : Hashes} {key data : Value} {op : Op} {ret : FawnDSReturn}
  {n : Nat}

/-- What is kept, `Find` enumerates. -/
theorem Kept.find (hkept : Kept hashes key n h) :
    ∃ l c, (hashTable hashes).find h key = some l ∧ (c, leBytes 4 n) ∈ l := by
  cases h with
  | cuckoo s =>
    obtain ⟨hkey, hmax, hmem⟩ := hkept
    obtain ⟨c, hc⟩ := HashTableCuckoo.exists_candidate hkey hmem
    have hfind : HashTableCuckoo.hashTable.find s key = some (HashTableCuckoo.candidates s.table key) :=
      HashTableCuckoo.find_some (by omega)
    refine ⟨_, .inl c, Option.map_eq_some_iff.mpr ⟨_, hfind, rfl⟩, ?_⟩
    exact List.mem_map.mpr ⟨_, hc, rfl⟩
  | default t =>
    obtain ⟨hsize, index, hindex, hid⟩ := hkept
    refine ⟨_, .inr index, Option.map_eq_some_iff.mpr ⟨_, if_neg hsize, rfl⟩, ?_⟩
    refine List.mem_map.mpr ⟨_, List.mem_map.mpr ⟨index, hindex, rfl⟩, ?_⟩
    rw [hid]

/-- The values that `Find` enumerates have four bytes. -/
theorem length_of_mem_find {l : List (Cursor × Value)} {e : Cursor × Value}
    (hfind : (hashTable hashes).find h key = some l) (he : e ∈ l) : e.2.length = 4 := by
  cases h with
  | cuckoo s =>
    obtain ⟨l', hl', rfl⟩ := Option.map_eq_some_iff.mp hfind
    obtain ⟨c, hc, rfl⟩ := List.mem_map.mp he
    simp only [HashTableCuckoo.hashTable] at hl'
    split at hl'
    · cases hl'
    · obtain rfl := Option.some.inj hl'
      obtain ⟨it, -, rfl⟩ := List.mem_map.mp hc
      exact length_leBytes _ _
  | default t =>
    obtain ⟨l', hl', rfl⟩ := Option.map_eq_some_iff.mp hfind
    obtain ⟨c, hc, rfl⟩ := List.mem_map.mp he
    simp only [HashTableDefault.hashTable] at hl'
    split at hl'
    · cases hl'
    · obtain rfl := Option.some.inj hl'
      obtain ⟨index, -, rfl⟩ := List.mem_map.mp hc
      exact length_leBytes _ _

theorem call_put_cuckoo {s : HashTableCuckoo.Seeded}
    (hcall : (Op.put key data).call hashes (cuckoo s) = some (ret, h')) :
    s.table.maxIndex ≠ 0 ∧ ∃ s', HashTableCuckoo.put (s.draws 0) s.table key data = some (ret, s'.table) ∧
      h' = cuckoo s' := by
  obtain ⟨⟨r, s'⟩, hput, heq⟩ := Option.map_eq_some_iff.mp hcall
  obtain ⟨rfl, rfl⟩ := Prod.mk.inj heq
  simp only [HashTableCuckoo.hashTable] at hput
  split at hput
  · cases hput
  · rename_i hmax
    obtain ⟨⟨r', t'⟩, htable, heq'⟩ := Option.map_eq_some_iff.mp hput
    obtain ⟨rfl, rfl⟩ := Prod.mk.inj heq'
    exact ⟨hmax, _, htable, rfl⟩

theorem call_put_default {t : HashTableDefault}
    (hcall : (Op.put key data).call hashes (default t) = some (ret, h')) :
    t.size ≠ 0 ∧ ∃ t', t.put hashes key data = (ret, t') ∧ h' = default t' := by
  obtain ⟨⟨r, t'⟩, hput, heq⟩ := Option.map_eq_some_iff.mp hcall
  obtain ⟨rfl, rfl⟩ := Prod.mk.inj heq
  simp only [HashTableDefault.hashTable] at hput
  split at hput
  · cases hput
  · rename_i hsize
    exact ⟨hsize, t', Option.some.inj hput, rfl⟩

theorem call_replace_cuckoo {s : HashTableCuckoo.Seeded} {i : Nat}
    (hcall : (Op.replace key i data).call hashes (cuckoo s) = some (ret, h')) :
    4 ≤ key.length ∧ s.table.maxIndex ≠ 0 ∧ ∃ it ∈ (HashTableCuckoo.find key).yields s.table, ∃ l c,
      (hashTable hashes).find (cuckoo s) key = some l ∧ l[i]? = some (c, leBytes 4 (it.data s.table)) ∧
      ∃ s', HashTableCuckoo.replace s.table (it.currentIndex s.table) it.way data = (ret, s'.table) ∧
        h' = cuckoo s' := by
  obtain ⟨l, hl, hcall⟩ := Option.bind_eq_some_iff.mp hcall
  obtain ⟨e, he, hcall⟩ := Option.bind_eq_some_iff.mp hcall
  obtain ⟨l', hl', rfl⟩ := Option.map_eq_some_iff.mp hl
  obtain ⟨c, hc, rfl⟩ := List.mem_map.mp (List.mem_of_getElem? he)
  by_cases hpos : key.length < 4 ∨ s.table.maxIndex = 0
  · rw [HashTableCuckoo.find_none hpos] at hl'
    cases hl'
  rw [HashTableCuckoo.find_some hpos] at hl'
  obtain rfl := Option.some.inj hl'
  obtain ⟨it, hit, rfl⟩ := List.mem_map.mp hc
  simp only [hashTable, Option.map_eq_some_iff] at hcall
  obtain ⟨⟨r, s'⟩, hreplace, heq⟩ := hcall
  obtain ⟨rfl, rfl⟩ := Prod.mk.inj heq
  refine ⟨by omega, by omega, it, hit, _, _, hl, he, s', ?_, rfl⟩
  obtain ⟨rfl, rfl⟩ := Prod.mk.inj (Option.some.inj hreplace)
  rfl

theorem call_replace_default {t : HashTableDefault} {i : Nat}
    (hcall : (Op.replace key i data).call hashes (default t) = some (ret, h')) :
    t.size ≠ 0 ∧ ∃ index ∈ (t.find hashes key).1, ∃ l c,
      (hashTable hashes).find (default t) key = some l ∧
      l[i]? = some (c, leBytes 4 (t.entry index).id.toNat) ∧
      ∃ t', t.replace index data = (ret, t') ∧ h' = default t' := by
  obtain ⟨l, hl, hcall⟩ := Option.bind_eq_some_iff.mp hcall
  obtain ⟨e, he, hcall⟩ := Option.bind_eq_some_iff.mp hcall
  obtain ⟨l', hl', rfl⟩ := Option.map_eq_some_iff.mp hl
  obtain ⟨c, hc, rfl⟩ := List.mem_map.mp (List.mem_of_getElem? he)
  simp only [HashTableDefault.hashTable] at hl'
  split at hl'
  · cases hl'
  rename_i hsize
  obtain rfl := Option.some.inj hl'
  obtain ⟨index, hindex, rfl⟩ := List.mem_map.mp hc
  simp only [hashTable, Option.map_eq_some_iff] at hcall
  obtain ⟨⟨r, t'⟩, hreplace, heq⟩ := hcall
  obtain ⟨rfl, rfl⟩ := Prod.mk.inj heq
  exact ⟨hsize, index, hindex, _, _, hl, he, t', Option.some.inj hreplace, rfl⟩

theorem of_call (hof : Of cfg h) (hcall : op.call hashes h = some (ret, h')) : Of cfg h' := by
  cases op with
  | put key data => exact of_put hof hcall
  | replace key i data =>
    obtain ⟨l, hl, hcall⟩ := Option.bind_eq_some_iff.mp hcall
    obtain ⟨e, he, hcall⟩ := Option.bind_eq_some_iff.mp hcall
    exact of_replace hof hl (List.mem_of_getElem? he) hcall

theorem counted_of {s : HashTableCuckoo.Seeded} (hof : Of cfg (cuckoo s)) (hmax : s.table.maxIndex ≠ 0) :
    s.table.Counted := by
  cases hof with
  | cuckoo created maxIndex counted empty => exact counted (maxIndex ▸ hmax)

/-- A later call that does not replace the entry keeps it. -/
theorem call_keeps (hof : Of cfg h) (hcall : op.call hashes h = some (ret, h')) (hkept : Kept hashes key n h)
    (hnot : ¬op.Replaces hashes h (leBytes 4 n)) : Kept hashes key n h' := by
  cases h with
  | cuckoo s =>
    obtain ⟨hkey, hmax, hmem⟩ := hkept
    have hcounted := counted_of hof hmax
    cases op with
    | put key' data =>
      obtain ⟨-, s', hput, rfl⟩ := call_put_cuckoo hcall
      rcases (HashTableCuckoo.put_some hcounted.wellformed hput).2 with ⟨-, hadds⟩ | ⟨-, heq⟩
      · refine ⟨hkey, hadds.maxIndex ▸ hmax, ?_⟩
        rw [hadds.maxIndex]
        exact hadds.entries.mem_iff.mpr (List.mem_cons_of_mem _ hmem)
      · rw [Kept, heq]
        exact ⟨hkey, hmax, hmem⟩
    | replace key' i data =>
      obtain ⟨hkey', -, it, hit, l, c, hfind, hget, s', hreplace, rfl⟩ := call_replace_cuckoo hcall
      have hne : n ≠ it.data s.table := by
        intro heq
        rw [heq] at hnot
        exact hnot ⟨l, c, hfind, hget⟩
      by_cases hdata : asNumber32 data (2 ^ 32 - 1) = 2 ^ 32 - 1
      · rw [HashTableCuckoo.replace] at hreplace
        simp only [if_pos hdata] at hreplace
        rw [Kept, ← (Prod.mk.inj hreplace).2]
        exact ⟨hkey, hmax, hmem⟩
      · obtain ⟨-, hother⟩ :=
          HashTableCuckoo.replace_mem_entries hcounted.wellformed (by omega) hit hdata
        obtain ⟨-, hway, hvalid⟩ := HashTableCuckoo.mem_find_yields (by omega) hit
        have hindex := HashTableCuckoo.currentIndex_lt (by omega) (by omega) hit
        have hsame := (hcounted.replace hindex hway hvalid data).2
        rw [hreplace] at hother hsame
        refine ⟨hkey, hsame ▸ hmax, ?_⟩
        rw [hsame]
        exact hother _ hmem hne
  | default t =>
    obtain ⟨hsize, hfinds⟩ := hkept
    cases op with
    | put key' data =>
      obtain ⟨-, t', hput, rfl⟩ := call_put_default hcall
      have hshape := HashTableDefault.put_shape hashes t key' data
      rw [hput] at hshape
      exact ⟨hshape.2 ▸ hsize, HashTableDefault.put_keeps hfinds hput⟩
    | replace key' i data =>
      obtain ⟨-, index, hindex, l, c, hfind, hget, t', hreplace, rfl⟩ := call_replace_default hcall
      have hshape := HashTableDefault.replace_shape t index data
      rw [hreplace] at hshape
      refine ⟨hshape.2 ▸ hsize, HashTableDefault.replace_keeps hfinds (fun heq => ?_) hreplace⟩
      rw [← heq] at hnot
      exact hnot ⟨l, c, hfind, hget⟩

theorem run_keeps {ops : List Op} (hof : Of cfg h) (hrun : run (Op.step hashes) h ops = some h')
    (hkept : Kept hashes key n h)
    (hnot : Meets (Op.step hashes) (fun h op => ¬op.Replaces hashes h (leBytes 4 n)) h ops) :
    Kept hashes key n h' := by
  have hstep : ∀ (h : SfTable) op h', Op.step hashes h op = some h' →
      ¬op.Replaces hashes h (leBytes 4 n) → Of cfg h ∧ Kept hashes key n h →
      Of cfg h' ∧ Kept hashes key n h' := by
    rintro h op h' hstep hnot ⟨hof, hkept⟩
    obtain ⟨⟨ret, u⟩, hcall, rfl⟩ := Option.map_eq_some_iff.mp hstep
    exact ⟨of_call hof hcall, call_keeps hof hcall hkept hnot⟩
  exact (run_invariant_of_meets hstep hrun hnot ⟨hof, hkept⟩).2

variable {id : Nat}

/-- A call that stores an id leaves an entry for the key, with the low 32 bits of the id. -/
theorem call_kept (hof : Of cfg h) (hid : id < 2 ^ 63) (hdata : op.data = leBytes 8 id)
    (hcall : op.call hashes h = some (.ok, h')) : Kept hashes op.key (id % 2 ^ 32) h' := by
  have hnumber : ∀ default, asNumber32 op.data default = id % 2 ^ 32 := by
    intro default
    rw [hdata, asNumber32_leBytes hid]
  have hlt : id % 2 ^ 32 < 2 ^ 32 := Nat.mod_lt _ (by decide)
  cases h with
  | cuckoo s =>
    cases op with
    | put key data =>
      obtain ⟨hmax, s', hput, rfl⟩ := call_put_cuckoo hcall
      obtain ⟨hkey, ⟨-, hadds⟩ | ⟨hret, -⟩⟩ := HashTableCuckoo.put_some (counted_of hof hmax).wellformed hput
      · refine ⟨hkey, hadds.maxIndex ▸ hmax, ?_⟩
        rw [hadds.maxIndex, ← hnumber 0]
        exact hadds.entries.mem_iff.mpr List.mem_cons_self
      · cases hret
    | replace key i data =>
      obtain ⟨hkey, hmax, it, hit, -, -, -, -, s', hreplace, rfl⟩ := call_replace_cuckoo hcall
      have hcounted := counted_of hof hmax
      have hvalue : asNumber32 data (2 ^ 32 - 1) ≠ 2 ^ 32 - 1 := by
        intro hvalue
        rw [HashTableCuckoo.replace] at hreplace
        simp only [if_pos hvalue] at hreplace
        cases (Prod.mk.inj hreplace).1
      obtain ⟨hnew, -⟩ := HashTableCuckoo.replace_mem_entries hcounted.wellformed (by omega) hit hvalue
      obtain ⟨-, hway, hvalid⟩ := HashTableCuckoo.mem_find_yields (by omega) hit
      have hindex := HashTableCuckoo.currentIndex_lt (by omega) (by omega) hit
      have hsame := (hcounted.replace hindex hway hvalid data).2
      rw [hreplace] at hnew hsame
      refine ⟨hkey, hsame ▸ hmax, ?_⟩
      rw [hsame, ← hnumber (2 ^ 32 - 1)]
      exact hnew
  | default t =>
    cases op with
    | put key data =>
      obtain ⟨hsize, t', hput, rfl⟩ := call_put_default hcall
      have hshape := HashTableDefault.put_shape hashes t key data
      rw [hput] at hshape
      exact ⟨hshape.2 ▸ hsize, HashTableDefault.put_finds hsize hput (hnumber _) hlt⟩
    | replace key i data =>
      obtain ⟨hsize, index, hindex, -, -, -, -, t', hreplace, rfl⟩ := call_replace_default hcall
      have hshape := HashTableDefault.replace_shape t index data
      rw [hreplace] at hshape
      exact ⟨hshape.2 ▸ hsize, HashTableDefault.replace_finds hindex hreplace (hnumber _) hlt⟩

/-- The id whose low 32 bits are all ones is the one that is refused, where that is checked. -/
theorem call_invalidData_iff (hof : Of cfg h) (hid : id < 2 ^ 63) (hdata : op.data = leBytes 8 id)
    (hcall : op.call hashes h = some (ret, h')) :
    ret = .invalidData ↔ id % 2 ^ 32 = 2 ^ 32 - 1 ∧ ¬Op.Unchecked h op := by
  have hnumber : asNumber32 op.data (2 ^ 32 - 1) = id % 2 ^ 32 := by
    rw [hdata, asNumber32_leBytes hid]
  rw [← hnumber]
  cases h with
  | cuckoo s =>
    cases op with
    | put key data =>
      obtain ⟨hmax, s', hput, rfl⟩ := call_put_cuckoo hcall
      rcases (HashTableCuckoo.put_some (counted_of hof hmax).wellformed hput).2 with ⟨rfl, -⟩ | ⟨rfl, -⟩ <;>
        simp [Op.Unchecked]
    | replace key i data =>
      obtain ⟨-, -, it, -, -, -, -, -, s', hreplace, rfl⟩ := call_replace_cuckoo hcall
      simp only [Op.data, Op.Unchecked, not_false_eq_true, and_true]
      rw [HashTableCuckoo.replace] at hreplace
      by_cases hvalue : asNumber32 data (2 ^ 32 - 1) = 2 ^ 32 - 1
      · simp only [if_pos hvalue] at hreplace
        exact ⟨fun _ => hvalue, fun _ => (Prod.mk.inj hreplace).1.symm⟩
      · simp only [if_neg hvalue] at hreplace
        rw [← (Prod.mk.inj hreplace).1]
        exact ⟨fun h => (by cases h), fun h => absurd h hvalue⟩
  | default t =>
    cases op with
    | put key data =>
      obtain ⟨-, t', hput, rfl⟩ := call_put_default hcall
      simp only [Op.data, Op.Unchecked, not_false_eq_true, and_true]
      rw [HashTableDefault.put] at hput
      by_cases hvalue : asNumber32 data (2 ^ 32 - 1) = 2 ^ 32 - 1
      · simp only [if_pos hvalue] at hput
        exact ⟨fun _ => hvalue, fun _ => (Prod.mk.inj hput).1.symm⟩
      · simp only [if_neg hvalue] at hput
        split at hput <;>
        · rw [← (Prod.mk.inj hput).1]
          exact ⟨fun h => (by cases h), fun h => absurd h hvalue⟩
    | replace key i data =>
      obtain ⟨-, index, -, -, -, -, -, t', hreplace, rfl⟩ := call_replace_default hcall
      simp only [Op.data, Op.Unchecked, not_false_eq_true, and_true]
      rw [HashTableDefault.replace] at hreplace
      by_cases hvalue : asNumber32 data (2 ^ 32 - 1) = 2 ^ 32 - 1
      · simp only [if_pos hvalue] at hreplace
        exact ⟨fun _ => hvalue, fun _ => (Prod.mk.inj hreplace).1.symm⟩
      · simp only [if_neg hvalue] at hreplace
        rw [← (Prod.mk.inj hreplace).1]
        exact ⟨fun h => (by cases h), fun h => absurd h hvalue⟩

end Kept

section Survival

variable {cfg : Config} {h h₁ : SfTable} {hashes : Hashes} {op : Op} {ret : FawnDSReturn} {id : Nat}

/-- `Find` enumerates a value that the data store reads as this id. -/
def ReadsBack (hashes : Hashes) (h : SfTable) (key : Value) (id : Nat) : Prop :=
  ∃ l e, (hashTable hashes).find h key = some l ∧ e ∈ l ∧ asOffset e.2 = id

/-- Until the entry is replaced, `Find` enumerates the id that was stored. -/
def Survives (hashes : Hashes) (h : SfTable) (key : Value) (id : Nat) : Prop :=
  ∀ ops h', run (Op.step hashes) h ops = some h' →
    Meets (Op.step hashes) (fun h op => ¬op.Replaces hashes h (leBytes 4 (id % 2 ^ 32))) h ops →
    ReadsBack hashes h' key id

theorem not_readsBack (hid : 2 ^ 31 ≤ id) (h : SfTable) (key : Value) : ¬ReadsBack hashes h key id := by
  rintro ⟨l, e, hfind, he, hread⟩
  have hlt := asOffset_four (length_of_mem_find hfind he)
  omega

/-- An id that a table took survives there exactly if it is below `2 ^ 31`. What a table refuses is the
id of 32 ones; `Put` of the cuckoo table takes that as well. -/
theorem stored_id_survives_iff (hof : Of cfg h) (hid : id < 2 ^ 63) (hdata : op.data = leBytes 8 id)
    (hcall : op.call hashes h = some (ret, h₁)) :
    (ret = .invalidData ↔ id % 2 ^ 32 = 2 ^ 32 - 1 ∧ ¬Op.Unchecked h op) ∧
      (ret = .ok → (Survives hashes h₁ op.key id ↔ id < 2 ^ 31)) := by
  refine ⟨call_invalidData_iff hof hid hdata hcall, ?_⟩
  rintro rfl
  have hkept := call_kept hof hid hdata hcall
  constructor
  · intro hsurvives
    by_contra hge
    exact not_readsBack (Nat.le_of_not_lt hge) h₁ op.key (hsurvives [] h₁ rfl trivial)
  · intro hsmall ops h' hrun hnot
    have hmod : id % 2 ^ 32 = id := Nat.mod_eq_of_lt (by omega)
    rw [hmod] at hkept hnot
    obtain ⟨l, c, hfind, hc⟩ := (run_keeps (of_call hof hcall) hrun hkept hnot).find
    exact ⟨l, _, hfind, hc, asOffset_leBytes hsmall⟩

/-- The last id that survives. -/
theorem stored_id_survives_last : ∃ h h₁, create (fun _ _ => 0) (.cuckoo 8) = .ok h ∧
    (Op.put [1, 2, 3, 4] (leBytes 8 (2 ^ 31 - 1))).call (fun _ _ => 0) h = some (.ok, h₁) ∧
    Survives (fun _ _ => 0) h₁ [1, 2, 3, 4] (2 ^ 31 - 1) := by
  have hsurvives : ∀ h h₁, create (fun _ _ => 0) (.cuckoo 8) = .ok h →
      (Op.put [1, 2, 3, 4] (leBytes 8 (2 ^ 31 - 1))).call (fun _ _ => 0) h = some (.ok, h₁) →
      Survives (fun _ _ => 0) h₁ [1, 2, 3, 4] (2 ^ 31 - 1) := by
    intro h h₁ hcreate hcall
    exact ((stored_id_survives_iff (of_create hcreate) (by decide) rfl hcall).2 rfl).mpr (by decide)
  exact ⟨_, _, rfl, rfl, hsurvives _ _ rfl rfl⟩

/-- The record at `2 ^ 32` is stored, and the one at the start of the log is found. -/
theorem stored_id_truncated : ∃ h h₁, create (fun _ _ => 0) (.default false 1) = .ok h ∧
    (Op.put [1, 2] (leBytes 8 (2 ^ 32))).call (fun _ _ => 0) h = some (.ok, h₁) ∧
    ((hashTable fun _ _ => 0).find h₁ [1, 2]).map (fun l => (l.map Prod.snd).dedup) = some [leBytes 4 0] ∧
    ¬Survives (fun _ _ => 0) h₁ [1, 2] (2 ^ 32) := by
  refine ⟨_, _, rfl, rfl, by decide +kernel, fun hsurvives => ?_⟩
  exact not_readsBack (by decide) _ _ (hsurvives [] _ rfl trivial)

end Survival

end SfTable

end FawnKV.Silt
