import FawnKV.Silt.CuckooTable
import FawnKV.Silt.DefaultTable
import FawnKV.Silt.FileStore
import FawnKV.Silt.TableFile

/-! `FawnDS_SF` flushed to its files, closed, and opened from them again. -/
namespace FawnKV.Silt

open ByteFile PartialIO Transition

namespace HashTableCuckoo

open Cuckoo

/-- A `TagValStoreEntry`: the tags of the bucket, then its values. -/
def entryBytes (bucket : List CuckooSlot) : Bytes :=
  bucket.flatMap (fun s => leBytes 2 s.keypresent) ++ bucket.flatMap fun s => leBytes 4 s.val

def bucket (t : HashTableCuckoo) (index : Nat) : List CuckooSlot :=
  (t.slots.drop (associativity * index)).take associativity

/-- The memory of the layout with offsets. -/
def memory (t : HashTableCuckoo) : TableMemory :=
  ⟨leBytes 4 t.currentEntries, (List.range t.maxIndex).flatMap fun index => entryBytes (t.bucket index)⟩

/-- The table that a memory of `maxIndex` buckets is. -/
def ofMemory (maxIndex : Nat) (m : TableMemory) : HashTableCuckoo :=
  { maxIndex
    slots := (List.range (associativity * maxIndex)).map fun p =>
      let entry := pread m.table (entrySize true) (entrySize true * (p / associativity))
      { keypresent := readLe (pread entry 2 (2 * (p % associativity)))
        val := readLe (pread entry 4 (2 * associativity + 4 * (p % associativity))) }
    currentEntries := readLe m.head }

section Memory

variable {t : HashTableCuckoo}

/-- The numbers of the table have the widths of their fields. -/
structure Bounded (t : HashTableCuckoo) : Prop where
  length : t.slots.length = t.maxIndex * associativity
  keypresent_lt : ∀ s ∈ t.slots, s.keypresent < 2 ^ 16
  val_lt : ∀ s ∈ t.slots, s.val < 2 ^ 32
  currentEntries_lt : t.currentEntries < 2 ^ 32

theorem Bounded.length_bucket (h : Bounded t) {index : Nat} (hindex : index < t.maxIndex) :
    (t.bucket index).length = associativity := by
  rw [bucket, List.length_take, List.length_drop, h.length]
  simp only [associativity]
  omega

theorem length_entryBytes {b : List CuckooSlot} (hb : b.length = associativity) :
    (entryBytes b).length = entrySize true := by
  rw [entryBytes, List.length_append, length_records fun s _ => length_leBytes 2 s.keypresent,
    length_records fun s _ => length_leBytes 4 s.val, hb]
  rfl

/-- A slot of an entry, read back. -/
theorem read_entryBytes {b : List CuckooSlot} (hb : b.length = associativity)
    (hkey : ∀ s ∈ b, s.keypresent < 2 ^ 16) (hval : ∀ s ∈ b, s.val < 2 ^ 32) {way : Nat}
    (hway : way < b.length) :
    readLe (pread (entryBytes b) 2 (2 * way)) = b[way].keypresent ∧
      readLe (pread (entryBytes b) 4 (2 * associativity + 4 * way)) = b[way].val := by
  have htags : (b.flatMap fun s => leBytes 2 s.keypresent).length = 2 * associativity := by
    rw [length_records fun s _ => length_leBytes 2 s.keypresent, hb]
  constructor
  · have hread := pread_records (fun s _ => length_leBytes 2 s.keypresent) hway
    rw [pread, entryBytes, List.drop_append_of_le_length (by omega),
      List.take_append_of_le_length (by rw [List.length_drop]; omega)]
    rw [pread] at hread
    rw [hread, readLe_leBytes (hkey _ (List.getElem_mem hway))]
  · have hread := pread_records (fun s _ => length_leBytes 4 s.val) hway
    rw [pread, ← List.drop_drop, entryBytes, List.drop_left' htags]
    rw [pread] at hread
    rw [hread, readLe_leBytes (hval _ (List.getElem_mem hway))]

theorem ofMemory_memory (h : Bounded t) : ofMemory t.maxIndex t.memory = t := by
  have hslots : (ofMemory t.maxIndex t.memory).slots = t.slots := by
    refine List.ext_getElem ?_ fun p hp hp' => ?_
    · simp only [ofMemory, List.length_map, List.length_range, h.length, Nat.mul_comm]
    · simp only [ofMemory, List.length_map, List.length_range] at hp
      have hindex : p / associativity < t.maxIndex := Nat.div_lt_of_lt_mul hp
      have hway : p % associativity < (t.bucket (p / associativity)).length := by
        rw [h.length_bucket hindex]
        exact Nat.mod_lt _ (by decide)
      have hmem : ∀ s ∈ t.bucket (p / associativity), s ∈ t.slots :=
        fun s hs => List.mem_of_mem_drop (List.mem_of_mem_take hs)
      have hentry : pread t.memory.table (entrySize true) (entrySize true * (p / associativity)) =
          entryBytes (t.bucket (p / associativity)) := by
        rw [memory, pread_records (fun i hi => length_entryBytes (h.length_bucket (List.mem_range.mp hi)))
          (by rw [List.length_range]; exact hindex), List.getElem_range]
      obtain ⟨hkey, hval⟩ := read_entryBytes (h.length_bucket hindex)
        (fun s hs => h.keypresent_lt s (hmem s hs)) (fun s hs => h.val_lt s (hmem s hs)) hway
      have hslot : (t.bucket (p / associativity))[p % associativity] = t.slots[p] := by
        simp only [bucket, List.getElem_take, List.getElem_drop, Nat.div_add_mod]
      simp only [ofMemory, List.getElem_map, List.getElem_range, hentry, hkey, hval, hslot]
  have hcount : (ofMemory t.maxIndex t.memory).currentEntries = t.currentEntries :=
    readLe_leBytes h.currentEntries_lt
  cases t
  simp only [ofMemory] at hslots hcount ⊢
  rw [hslots, hcount]

end Memory

section Values

variable {t t' : HashTableCuckoo} {c : Current} {index way : Nat} {key data : Value}

/-- Every value of the table has 32 bits. -/
def ValuesFit (t : HashTableCuckoo) : Prop := ∀ s ∈ t.slots, s.val < 2 ^ 32

theorem asNumber32_lt {default : Nat} (h : default < 2 ^ 32) : asNumber32 data default < 2 ^ 32 := by
  rw [asNumber32]
  split
  · exact Nat.mod_lt _ (by decide)
  · exact h

theorem ValuesFit.val_lt (h : ValuesFit t) : t.val index way < 2 ^ 32 := by
  rw [val, slot, List.getD_eq_getElem?_getD]
  cases hget : t.slots[index * associativity + way]? with
  | none => exact Nat.two_pow_pos 32
  | some s => exact h s (List.mem_of_getElem? hget)

theorem ValuesFit.store (h : ValuesFit t) (kp : Nat) {id : Nat} (hid : id < 2 ^ 32) :
    ValuesFit (t.store index way kp id) := by
  intro s hs
  rcases List.mem_or_eq_of_mem_set hs with hs | rfl
  · exact h s hs
  · exact hid

theorem ValuesFit.undo (h : ValuesFit t) {tag val : Nat} (hval : val < 2 ^ 32) (undo : List (Nat × Nat)) :
    ValuesFit (undoCuckooing t tag val undo).1 := by
  induction undo generalizing t tag val with
  | nil => exact h
  | cons place undo ih => exact ih (h.store _ hval) h.val_lt

theorem ValuesFit.cuckooLoop (h : ValuesFit t) (hc : c.val < 2 ^ 32) {rand : Nat → Nat} {dataVal n rest : Nat}
    {undo : List (Nat × Nat)} {ret : FawnDSReturn}
    (hloop : cuckooLoop rand dataVal t c undo n rest = some (ret, t')) : ValuesFit t' := by
  induction rest generalizing t c undo n with
  | zero =>
    rw [HashTableCuckoo.cuckooLoop] at hloop
    split at hloop
    · cases hloop
      exact h.undo hc undo
    · cases hloop
  | succ rest ih =>
    rw [HashTableCuckoo.cuckooLoop] at hloop
    split at hloop
    · cases hloop
      exact h.store _ hc
    · exact ih (h.store _ hc) h.val_lt hloop

theorem ValuesFit.put (h : ValuesFit t) {rand : Nat → Nat} {ret : FawnDSReturn}
    (hput : put rand t key data = some (ret, t')) : ValuesFit t' := by
  have hdata : asNumber32 data 0 < 2 ^ 32 := asNumber32_lt (by decide)
  rw [HashTableCuckoo.put] at hput
  split at hput
  · cases hput
  · simp only at hput
    split at hput
    · cases hput
      exact h.store _ hdata
    · exact h.cuckooLoop hdata hput

/-- A table in use: it counts its entries, of which it has no more than slots. -/
structure Counted (t : HashTableCuckoo) : Prop where
  wellformed : Wellformed t
  currentEntries : t.currentEntries = t.entries.length
  values : ValuesFit t

theorem Counted.bounded (h : Counted t) : Bounded t := by
  refine ⟨h.wellformed.length, h.wellformed.keypresent_lt, h.values, ?_⟩
  have hle : t.entries.length ≤ t.maxIndex * associativity := by
    have hlen := List.length_filterMap_le t.entryAt (List.range (t.maxIndex * associativity))
    rw [List.length_range] at hlen
    exact hlen
  have hmax := h.wellformed.maxIndex_le
  rw [h.currentEntries]
  simp only [associativity] at hle
  omega

theorem Counted.put (h : Counted t) {rand : Nat → Nat} {ret : FawnDSReturn}
    (hput : HashTableCuckoo.put rand t key data = some (ret, t')) :
    Counted t' ∧ t'.maxIndex = t.maxIndex := by
  have hvalues := h.values.put hput
  rcases (put_some h.wellformed hput).2 with ⟨-, hadds⟩ | ⟨-, rfl⟩
  · refine ⟨⟨hadds.wellformed, ?_, hvalues⟩, hadds.maxIndex⟩
    rw [hadds.currentEntries, h.currentEntries, hadds.entries.length_eq, List.length_cons]
  · exact ⟨h, rfl⟩

theorem Counted.replace (h : Counted t) (hindex : index < t.maxIndex) (hway : way < associativity)
    (hvalid : t.valid index way = true) (data : Value) :
    Counted (replace t index way data).2 ∧ (replace t index way data).2.maxIndex = t.maxIndex := by
  by_cases hdata : asNumber32 data (2 ^ 32 - 1) = 2 ^ 32 - 1
  · rw [HashTableCuckoo.replace]
    simp only [if_pos hdata]
    exact ⟨h, trivial⟩
  · obtain ⟨u, hreplace, hwf, hmax, hcount, hperm⟩ := replace_entries h.wellformed hindex hway hvalid hdata
    have hlen := hperm.length_eq
    rw [List.length_cons, List.length_cons] at hlen
    have hvalues : ValuesFit u := by
      have hu : u = (HashTableCuckoo.replace t index way data).2 := by rw [hreplace]
      rw [hu, HashTableCuckoo.replace]
      simp only [if_neg hdata]
      intro s hs
      rcases List.mem_or_eq_of_mem_set hs with hs | rfl
      · exact h.values s hs
      · exact asNumber32_lt (by decide)
    rw [hreplace]
    exact ⟨⟨hwf, by rw [hcount, h.currentEntries]; exact (Nat.succ.inj hlen).symm, hvalues⟩, hmax⟩

theorem counted_create {htsInt : Int} (h : create htsInt = .ok t) (hne : t.maxIndex ≠ 0) : Counted t := by
  have hsize : 4 ≤ htsInt := by
    by_contra hsmall
    rw [create] at h
    split at h
    · cases h
    · cases h
      have hlt : htsInt.toNat < 2 ^ keyfragBits * associativity := by
        simp only [keyfragBits, associativity]
        omega
      simp only [if_pos hlt] at hne
      refine hne (Nat.div_eq_of_lt ?_)
      simp only [associativity]
      omega
  obtain ⟨t', ht', hinv⟩ := inv_create hsize
  obtain rfl : t' = t := Except.ok.inj (ht'.symm.trans h)
  have hentries := hinv.entries.length_eq
  refine ⟨hinv.wellformed, hinv.currentEntries.trans ?_, fun s hs => ?_⟩
  · rw [hentries, List.length_map]
  · rw [create, if_neg (by omega)] at h
    cases h
    rw [List.eq_of_mem_replicate hs]
    decide

theorem bounded_create {htsInt : Int} (h : create htsInt = .ok t) : Bounded t := by
  rw [create] at h
  split at h
  · cases h
  · cases h
    refine ⟨List.length_replicate, fun s hs => ?_, fun s hs => ?_, Nat.two_pow_pos 32⟩ <;>
      rw [List.eq_of_mem_replicate hs] <;> decide

theorem maxIndex_create {htsInt : Int} (h : create htsInt = .ok t) : t.maxIndex ≤ 2 ^ 15 := by
  by_cases hzero : t.maxIndex = 0
  · omega
  · exact (counted_create h hzero).wellformed.maxIndex_le

end Values

end HashTableCuckoo

namespace HashTableDefault

def entryBytes (e : HashEntry) : Bytes := leBytes 2 e.presentKey.toNat ++ leBytes 4 e.id.toNat

def memory (t : HashTableDefault) : TableMemory :=
  ⟨leBytes 8 t.currentEntries.toNat, t.entries.flatMap entryBytes⟩

def ofMemory (quadratic : Bool) (size : Nat) (m : TableMemory) : HashTableDefault :=
  { quadratic
    entries := (List.range size).map fun index =>
      let entry := pread m.table hashEntrySize (hashEntrySize * index)
      { presentKey := UInt16.ofNat (readLe (pread entry 2 0)), id := UInt32.ofNat (readLe (pread entry 4 2)) }
    currentEntries := UInt64.ofNat (readLe m.head) }

theorem length_entryBytes (e : HashEntry) : (entryBytes e).length = hashEntrySize := by
  simp [entryBytes, hashEntrySize]

theorem read_entryBytes (e : HashEntry) : UInt16.ofNat (readLe (pread (entryBytes e) 2 0)) = e.presentKey ∧
    UInt32.ofNat (readLe (pread (entryBytes e) 4 2)) = e.id := by
  constructor
  · rw [pread, List.drop_zero, entryBytes, List.take_left' (length_leBytes _ _),
      readLe_leBytes e.presentKey.toNat_lt, UInt16.ofNat_toNat]
  · rw [pread, entryBytes, List.drop_left' (length_leBytes _ _),
      List.take_of_length_le (length_leBytes _ _).le, readLe_leBytes e.id.toNat_lt, UInt32.ofNat_toNat]

theorem ofMemory_memory (t : HashTableDefault) : ofMemory t.quadratic t.size t.memory = t := by
  have hentries : (ofMemory t.quadratic t.size t.memory).entries = t.entries := by
    refine List.ext_getElem (by simp [ofMemory, size]) fun index hindex hindex' => ?_
    have hentry : pread t.memory.table hashEntrySize (hashEntrySize * index) = entryBytes t.entries[index] :=
      pread_records (fun e _ => length_entryBytes e) hindex'
    obtain ⟨hkey, hid⟩ := read_entryBytes t.entries[index]
    simp only [ofMemory, List.getElem_map, List.getElem_range, hentry, hkey, hid]
  have hcount : (ofMemory t.quadratic t.size t.memory).currentEntries = t.currentEntries := by
    change UInt64.ofNat (readLe (leBytes 8 t.currentEntries.toNat)) = t.currentEntries
    rw [readLe_leBytes t.currentEntries.toNat_lt, UInt64.ofNat_toNat]
  cases t
  simp only [ofMemory] at hentries hcount ⊢
  rw [hentries, hcount]

end HashTableDefault

/-- The hash table of a store, of the type that its configuration names. -/
inductive SfTable where
  | cuckoo (s : HashTableCuckoo.Seeded)
  | default (t : HashTableDefault)

namespace SfTable

/-- Where an iterator of `Find` stands: a bucket and a way, or an index. -/
abbrev Cursor := (Nat × Nat) ⊕ Nat

def hashTable (hashes : HashTableDefault.Hashes) : HashTable SfTable Cursor where
  find
    | cuckoo s, key => (HashTableCuckoo.hashTable.find s key).map (·.map fun e => (.inl e.1, e.2))
    | default t, key => ((HashTableDefault.hashTable hashes).find t key).map (·.map fun e => (.inr e.1, e.2))
  put
    | cuckoo s, key, data => (HashTableCuckoo.hashTable.put s key data).map fun r => (r.1, cuckoo r.2)
    | default t, key, data => ((HashTableDefault.hashTable hashes).put t key data).map fun r =>
      (r.1, default r.2)
  replace
    | cuckoo s, .inl c, data => (HashTableCuckoo.hashTable.replace s c data).map fun r => (r.1, cuckoo r.2)
    | default t, .inr c, data =>
      ((HashTableDefault.hashTable hashes).replace t c data).map fun r => (r.1, default r.2)
    -- an iterator is one of the table it came from
    | _, _, _ => none

/-- What the configuration says of the hash table. -/
inductive Config where
  | cuckoo (htsInt : Int)
  | default (quadratic : Bool) (hashTableSize : UInt64)

/-- `draws` are what `rand` will return. -/
def create (draws : Nat → Nat → Nat) : Config → Except FawnDSReturn SfTable
  | .cuckoo htsInt => (HashTableCuckoo.create htsInt).map fun t => cuckoo ⟨t, draws⟩
  | .default quadratic hashTableSize => .ok (default (HashTableDefault.create quadratic hashTableSize.toNat))

def writeToFile (calls : FileCalls) : SfTable → Bytes → Bool × Bytes
  | cuckoo s, file => HashTableCuckoo.writeToFile calls s.table.memory file
  | default t, file => HashTableDefault.writeToFile calls t.memory file

/-- `Open`: a table is created, and what the file has is read into it. -/
def openTable (draws : Nat → Nat → Nat) (calls : FileCalls) (file : Bytes) : Config → Option SfTable
  | .cuckoo htsInt =>
    match HashTableCuckoo.create htsInt with
    | .error _ => none
    | .ok t =>
      match HashTableCuckoo.readFromFile true t.maxIndex calls file with
      | .ok m => some (cuckoo ⟨HashTableCuckoo.ofMemory t.maxIndex m, draws⟩)
      | _ => none
  | .default quadratic hashTableSize =>
    match HashTableDefault.readFromFile hashTableSize.toNat calls file with
    | .ok m => some (default (HashTableDefault.ofMemory quadratic hashTableSize.toNat m))
    | _ => none

/-- The draws that are left. -/
def draws : SfTable → Nat → Nat → Nat
  | cuckoo s => s.draws
  | default _ => fun _ _ => 0

def memory : SfTable → TableMemory
  | cuckoo s => s.table.memory
  | default t => t.memory

/-- The system calls of a transfer succeed, and one of them moves the whole table. -/
structure Whole (m : TableMemory) (calls : FileCalls) : Prop where
  opened : calls.opened = true
  zeroed : calls.zeroed = true
  closed : calls.closed = true
  head : calls.head = m.head.length
  table : Splits calls.table m.table.length
  once : calls.table.length ≤ 1

theorem memory_loads {k : TableKind} (hk : k ≠ .cuckoo false) {size : UInt64} {m : TableMemory}
    (hm : k.Fits size m) {w r : FileCalls} (hw : Whole m w) (hr : Whole m r) (file : Bytes) :
    (k.write w m file).1 = true ∧ k.read size (fun _ => 0) r (k.write w m file).2 = .ok m := by
  have hmoved : ∀ calls, Whole m calls → k.HeadMoved calls := by
    intro calls h
    exact ⟨h.opened, h.zeroed, h.head.trans (congrArg _ hm.head), h.closed⟩
  exact TableKind.roundTrips_of_single (hmoved w hw) (hmoved r hr) (hm.table ▸ hw.table)
    (hm.table ▸ hr.table) hk hw.once hr.once m file hm

/-- A table that comes from one of this configuration. -/
inductive Of : Config → SfTable → Prop where
  | cuckoo {htsInt : Int} {t₀ : HashTableCuckoo} {s : HashTableCuckoo.Seeded}
      (created : HashTableCuckoo.create htsInt = .ok t₀) (maxIndex : s.table.maxIndex = t₀.maxIndex)
      (counted : t₀.maxIndex ≠ 0 → HashTableCuckoo.Counted s.table)
      (empty : t₀.maxIndex = 0 → s.table = t₀) : Of (.cuckoo htsInt) (.cuckoo s)
  | default {hashTableSize : UInt64} {t : HashTableDefault} (size : t.size = hashTableSize.toNat) :
      Of (.default t.quadratic hashTableSize) (.default t)

variable {cfg : Config} {h h' : SfTable} {hashes : HashTableDefault.Hashes} {key data : Value}
  {ret : FawnDSReturn}

theorem of_create {draws : Nat → Nat → Nat} (hcreate : create draws cfg = .ok h) : Of cfg h := by
  cases cfg with
  | cuckoo htsInt =>
    cases ht : HashTableCuckoo.create htsInt with
    | error e =>
      rw [create, ht] at hcreate
      cases hcreate
    | ok t₀ =>
      rw [create, ht] at hcreate
      cases hcreate
      exact .cuckoo ht rfl (HashTableCuckoo.counted_create ht) fun _ => rfl
  | default quadratic hashTableSize =>
    cases hcreate
    exact .default (t := HashTableDefault.create quadratic hashTableSize.toNat) List.length_replicate

theorem of_put (hof : Of cfg h) (hput : (hashTable hashes).put h key data = some (ret, h')) : Of cfg h' := by
  cases hof with
  | @cuckoo htsInt t₀ s created maxIndex counted empty =>
    obtain ⟨⟨r, s'⟩, hcuckoo, heq⟩ := Option.map_eq_some_iff.mp hput
    obtain ⟨-, rfl⟩ := Prod.mk.inj heq
    simp only [HashTableCuckoo.hashTable] at hcuckoo
    split at hcuckoo
    · cases hcuckoo
    · rename_i hpos
      obtain ⟨⟨r', t'⟩, htable, heq'⟩ := Option.map_eq_some_iff.mp hcuckoo
      obtain ⟨-, rfl⟩ := Prod.mk.inj heq'
      have hne : t₀.maxIndex ≠ 0 := maxIndex ▸ hpos
      obtain ⟨hcounted, hmax⟩ := (counted hne).put htable
      exact .cuckoo created (hmax.trans maxIndex) (fun _ => hcounted) fun hzero => absurd hzero hne
  | @default hashTableSize t size =>
    obtain ⟨⟨r, t'⟩, hdefault, heq⟩ := Option.map_eq_some_iff.mp hput
    obtain ⟨-, rfl⟩ := Prod.mk.inj heq
    simp only [HashTableDefault.hashTable] at hdefault
    split at hdefault
    · cases hdefault
    · obtain ⟨-, rfl⟩ := Prod.mk.inj (Option.some.inj hdefault)
      obtain ⟨hquad, hsize⟩ := HashTableDefault.put_shape hashes t key data
      rw [← hquad]
      exact .default (hsize.trans size)

theorem of_replace (hof : Of cfg h) {l : List (Cursor × Value)} {e : Cursor × Value}
    (hfind : (hashTable hashes).find h key = some l) (he : e ∈ l)
    (hreplace : (hashTable hashes).replace h e.1 data = some (ret, h')) : Of cfg h' := by
  cases hof with
  | @cuckoo htsInt t₀ s created maxIndex counted empty =>
    obtain ⟨l', hl', rfl⟩ := Option.map_eq_some_iff.mp hfind
    obtain ⟨c, hc, rfl⟩ := List.mem_map.mp he
    simp only [hashTable, Option.map_eq_some_iff] at hreplace
    obtain ⟨⟨r, s'⟩, hcuckoo, heq⟩ := hreplace
    obtain ⟨-, rfl⟩ := Prod.mk.inj heq
    have hpos : ¬(key.length < 4 ∨ s.table.maxIndex = 0) := by
      intro hnone
      rw [HashTableCuckoo.find_none hnone] at hl'
      cases hl'
    rw [HashTableCuckoo.find_some hpos] at hl'
    obtain rfl := Option.some.inj hl'
    obtain ⟨it, hit, rfl⟩ := List.mem_map.mp hc
    obtain ⟨-, hway, hvalid⟩ := HashTableCuckoo.mem_find_yields (by omega) hit
    have hindex := HashTableCuckoo.currentIndex_lt (by omega) (by omega) hit
    have hne : t₀.maxIndex ≠ 0 := by omega
    obtain ⟨hcounted, hmax⟩ := (counted hne).replace hindex hway hvalid data
    obtain ⟨-, rfl⟩ := Prod.mk.inj (Option.some.inj hcuckoo)
    exact .cuckoo created (hmax.trans maxIndex) (fun _ => hcounted) fun hzero => absurd hzero hne
  | @default hashTableSize t size =>
    obtain ⟨l', hl', rfl⟩ := Option.map_eq_some_iff.mp hfind
    obtain ⟨c, hc, rfl⟩ := List.mem_map.mp he
    simp only [hashTable, Option.map_eq_some_iff] at hreplace
    obtain ⟨⟨r, t'⟩, hdefault, heq⟩ := hreplace
    obtain ⟨-, rfl⟩ := Prod.mk.inj heq
    obtain ⟨-, rfl⟩ := Prod.mk.inj (Option.some.inj hdefault)
    obtain ⟨hquad, hsize⟩ := HashTableDefault.replace_shape t c.1 data
    rw [← hquad]
    exact .default (hsize.trans size)

/-- A table in use is loaded as it was saved. -/
theorem opens_as_written (hof : Of cfg h) {w r : FileCalls} (hw : Whole h.memory w) (hr : Whole h.memory r)
    (file : Bytes) :
    (h.writeToFile w file).1 = true ∧ openTable h.draws r (h.writeToFile w file).2 cfg = some h := by
  cases hof with
  | @cuckoo htsInt t₀ s created maxIndex counted empty =>
    have hbounded : HashTableCuckoo.Bounded s.table := by
      by_cases hzero : t₀.maxIndex = 0
      · rw [empty hzero]
        exact HashTableCuckoo.bounded_create created
      · exact (counted hzero).bounded
    have hmax : t₀.maxIndex ≤ 2 ^ 15 := HashTableCuckoo.maxIndex_create created
    have hsize : (UInt64.ofNat s.table.maxIndex).toNat = s.table.maxIndex :=
      UInt64.toNat_ofNat_of_lt' (by rw [maxIndex]; exact Nat.lt_of_le_of_lt hmax (by decide))
    have hfits : (TableKind.cuckoo true).Fits (UInt64.ofNat s.table.maxIndex) s.table.memory := by
      refine ⟨length_leBytes _ _, ?_, by simp⟩
      have hrecords := length_records fun i hi =>
        HashTableCuckoo.length_entryBytes (hbounded.length_bucket (List.mem_range.mp hi))
      rw [List.length_range] at hrecords
      rw [hsize]
      exact hrecords
    obtain ⟨hwrite, hread⟩ := memory_loads (by simp) hfits hw hr file
    refine ⟨hwrite, ?_⟩
    rw [TableKind.read, hsize, maxIndex, TableKind.write] at hread
    simp only [openTable, created, draws, writeToFile, hread]
    rw [← maxIndex, HashTableCuckoo.ofMemory_memory hbounded]
  | @default hashTableSize t size =>
    have hfits : TableKind.default.Fits hashTableSize t.memory := by
      refine ⟨length_leBytes _ _, ?_, by simp⟩
      rw [← size]
      exact length_records fun e _ => HashTableDefault.length_entryBytes e
    obtain ⟨hwrite, hread⟩ := memory_loads (by simp) hfits hw hr file
    refine ⟨hwrite, ?_⟩
    rw [TableKind.read, TableKind.write] at hread
    simp only [openTable, writeToFile, hread]
    rw [← size, HashTableDefault.ofMemory_memory]

end SfTable

namespace FileStore

/-- `Open`: the next id and the end are the size of the file, also when the ids are record numbers. -/
def openFile (dataLen : Nat) (file : Bytes) : FileStore :=
  { dataLen, file, nextAppendId := file.length, endId := file.length }

/-- A store of records of any length, whose ids are positions in the file. -/
structure Positions (s : FileStore) : Prop where
  dataLen : s.dataLen = 0
  nextAppendId : s.nextAppendId = s.file.length
  endId : s.endId = s.file.length

theorem Positions.openFile {s : FileStore} (h : Positions s) : openFile 0 s.file = s := by
  obtain ⟨hlen, hnext, hend⟩ := h
  cases s
  simp only at hlen hnext hend
  simp only [FileStore.openFile, hlen, hnext, hend]

/-- A record of less than `2 ^ 32` bytes is put at the end of the file. -/
theorem Positions.append {s : FileStore} (h : Positions s) {data : Value} (hdata : data.length < 2 ^ 32) :
    Positions (append s data).2.2 := by
  obtain ⟨hlen, hnext, hend⟩ := h
  have hmod : data.length % 2 ^ 32 = data.length := Nat.mod_eq_of_lt hdata
  simp only [FileStore.append, writeAt, hlen, hnext, hend, ne_eq, not_true_eq_false, false_and, if_false,
    if_true, pwrite_length, hmod]
  refine ⟨rfl, ?_, ?_⟩
  · simp only [List.length_append, length_leBytes]
  · simp only [List.length_append, length_leBytes]
    split <;> omega

end FileStore

namespace FawnDSSF

/-- What the configuration says: `key-len` and `data-len`, the `data-len` that the node of the data
store has itself, and the hash table. -/
structure Config where
  keyLen : Nat
  dataLen : Nat
  storeDataLen : Nat
  table : SfTable.Config

/-- The files of the header, of the hash table and of the data store. -/
structure Files where
  header : Nat × Nat
  table : Bytes
  data : Bytes

abbrev Store := FawnDSSF SfTable FileStore

def createStore (draws : Nat → Nat → Nat) (cfg : Config) : Except FawnDSReturn Store :=
  match SfTable.create draws cfg.table with
  | .error _ => .error .error
  | .ok hashTable =>
    let storeDataLen :=
      if cfg.keyLen = 0 ∨ cfg.dataLen = 0 then 0 else dhSize + cfg.keyLen + cfg.dataLen
    .ok
      { keyLen := cfg.keyLen, dataLen := cfg.dataLen, numElements := 0, numActiveElements := 0, hashTable
        dataStore := FileStore.create storeDataLen }

def flush (calls : FileCalls) (s : Store) (files : Files) : Bool × Files :=
  let (ret, table) := s.hashTable.writeToFile calls files.table
  (ret, { header := (s.numElements, s.numActiveElements), table, data := s.dataStore.file })

/-- The destructor of the hash table saves it once more. -/
def close (calls : FileCalls) (s : Store) (files : Files) : Files :=
  { files with table := (s.hashTable.writeToFile calls files.table).2 }

/-- `Open`; `none` is an error. The length of a record is given without its header. -/
def openStore (draws : Nat → Nat → Nat) (calls : FileCalls) (cfg : Config) (files : Files) : Option Store :=
  (SfTable.openTable draws calls files.table cfg.table).map fun hashTable =>
    let storeDataLen :=
      if cfg.keyLen ≠ 0 ∧ cfg.dataLen ≠ 0 then cfg.keyLen + cfg.dataLen else cfg.storeDataLen
    { keyLen := cfg.keyLen, dataLen := cfg.dataLen, numElements := files.header.1
      numActiveElements := files.header.2, hashTable, dataStore := FileStore.openFile storeDataLen files.data }

section Reopen

variable {hashes : HashTableDefault.Hashes} {uninit : Nat → UInt8} {cfg : Config} {s s' : Store}
  {o o' : Observed SfTable FileStore} {key data : Value} {ret : FawnDSReturn}

/-- The length of the record of a call fits its 32 bits. -/
def RecordFits (c : Call) : Prop :=
  match c.op with
  | .put key data => dhSize + key.length + data.length < 2 ^ 32
  | .delete key => dhSize + key.length < 2 ^ 32
  | .get _ => True

theorem search_mem {C D : Type} {S : DataStore D} {keyLen : Nat} {d : D} {l : List (C × Value)}
    {r : C × Value × Value} (h : search S keyLen d key l = some r) : ∃ v, (r.1, v) ∈ l := by
  induction l with
  | nil => cases h
  | cons e l ih =>
    rw [search] at h
    split at h
    · cases h
      exact ⟨_, List.mem_cons_self⟩
    · obtain ⟨v, hv⟩ := ih h
      exact ⟨v, List.mem_cons_of_mem _ hv⟩

/-- What the store keeps of its configuration. -/
structure Kept (cfg : Config) (s : Store) : Prop where
  keyLen : s.keyLen = cfg.keyLen
  dataLen : s.dataLen = cfg.dataLen
  table : SfTable.Of cfg.table s.hashTable
  positions : FileStore.Positions s.dataStore

theorem kept_insertEntry {padding : Nat} {isDelete : Bool} (h : Kept cfg s)
    (hlen : dhSize + key.length + data.length < 2 ^ 32)
    (hinsert : insertEntry (SfTable.hashTable hashes) (FileStore.dataStore uninit) s padding key data
      isDelete = some (ret, s')) : Kept cfg s' := by
  have hwrite : ∀ newObj, FileStore.Positions
      (writeEntry (FileStore.dataStore uninit) s padding key data isDelete newObj).2.2 := by
    intro newObj
    have hd : (if newObj then s.dataStore else (FileStore.delete s.dataStore key).2) = s.dataStore := by
      cases newObj <;> rfl
    have happend := h.positions.append (show (entry s.keyLen padding key data isDelete).length < 2 ^ 32 by
      rw [length_entry]; exact hlen)
    rw [← hd] at happend
    exact happend
  rw [insertEntry, Option.bind_eq_some_iff] at hinsert
  obtain ⟨l, hfind, hinsert⟩ := hinsert
  simp only at hinsert
  split at hinsert
  · cases hinsert
    exact ⟨h.keyLen, h.dataLen, h.table, hwrite _⟩
  · split at hinsert
    · cases hinsert
    · obtain ⟨⟨r, hashTable⟩, hupdate, hr⟩ := Option.map_eq_some_iff.mp hinsert
      have htable : SfTable.Of cfg.table hashTable := by
        cases hsearch : search (FileStore.dataStore uninit) s.keyLen s.dataStore key l with
        | none =>
          rw [hsearch] at hupdate
          exact SfTable.of_put h.table hupdate
        | some found =>
          rw [hsearch] at hupdate
          obtain ⟨v, hmem⟩ := search_mem hsearch
          exact SfTable.of_replace h.table hfind hmem hupdate
      split at hr
      · cases hr
        exact ⟨h.keyLen, h.dataLen, htable, hwrite _⟩
      · cases hr
        exact ⟨h.keyLen, h.dataLen, htable, hwrite _⟩

theorem kept_step {c : Call} (h : Kept cfg o.store) (hc : RecordFits c)
    (hstep : step (SfTable.hashTable hashes) (FileStore.dataStore uninit) o c = some o') :
    Kept cfg o'.store := by
  rcases c with ⟨op, padding⟩
  cases op with
  | put key data =>
    obtain ⟨⟨ret, s'⟩, hput, rfl⟩ := Option.map_eq_some_iff.mp hstep
    rw [put] at hput
    split at hput
    · cases hput
      exact h
    · split at hput
      · cases hput
        exact h
      · exact kept_insertEntry h hc hput
  | delete key =>
    obtain ⟨⟨ret, s'⟩, hdelete, rfl⟩ := Option.map_eq_some_iff.mp hstep
    rw [delete] at hdelete
    split at hdelete
    · cases hdelete
      exact h
    · exact kept_insertEntry h (show dhSize + key.length + 0 < 2 ^ 32 from hc) hdelete
  | get key =>
    obtain ⟨ret, -, rfl⟩ := Option.map_eq_some_iff.mp hstep
    exact h

theorem kept_create {draws : Nat → Nat → Nat} (hvariable : cfg.keyLen = 0 ∨ cfg.dataLen = 0)
    (hcreate : createStore draws cfg = .ok s) : Kept cfg s := by
  rw [createStore] at hcreate
  split at hcreate
  · cases hcreate
  · rename_i hashTable htable
    cases hcreate
    refine ⟨rfl, rfl, SfTable.of_create htable, ?_⟩
    rw [if_pos hvariable]
    exact ⟨rfl, rfl, rfl⟩

/-- A store that its files describe is the one opened from them. -/
theorem openStore_close (h : Kept cfg s) (hvariable : cfg.keyLen = 0 ∨ cfg.dataLen = 0)
    (hstore : cfg.storeDataLen = 0) {w w' r : FileCalls} (hw : SfTable.Whole s.hashTable.memory w)
    (hw' : SfTable.Whole s.hashTable.memory w') (hr : SfTable.Whole s.hashTable.memory r) (files : Files) :
    (flush w s files).1 = true ∧
      openStore s.hashTable.draws r cfg (close w' s (flush w s files).2) = some s := by
  obtain ⟨hwrite, -⟩ := SfTable.opens_as_written h.table hw hr files.table
  obtain ⟨-, hopen⟩ := SfTable.opens_as_written h.table hw' hr (flush w s files).2.table
  refine ⟨hwrite, ?_⟩
  have hmode : ¬(cfg.keyLen ≠ 0 ∧ cfg.dataLen ≠ 0) := by tauto
  rw [openStore, close, hopen, Option.map_some]
  simp only [if_neg hmode, hstore]
  rw [← h.keyLen, ← h.dataLen]
  simp only [flush, h.positions.openFile]

/-- A `Put` fails when the length of a record in the data store is not that of the record it makes. -/
theorem put_ne_ok {padding : Nat} (hkeyLen : s.keyLen ≠ 0) (hdataLen : s.dataLen ≠ 0)
    (hrecord : s.dataStore.dataLen = s.keyLen + s.dataLen)
    (hput : put (SfTable.hashTable hashes) (FileStore.dataStore uninit) s padding key data = some (ret, s')) :
    ret ≠ .ok := by
  rw [put] at hput
  split at hput
  · cases hput
    decide
  · rename_i hvalid
    split at hput
    · cases hput
      decide
    · rename_i hlen
      rw [insertEntry, Option.bind_eq_some_iff] at hput
      obtain ⟨l, -, hput⟩ := hput
      simp only [invalidKey, Bool.or_eq_true, beq_iff_eq, Bool.and_eq_true, bne_iff_ne] at hvalid
      push Not at hvalid hlen
      have hentry : s.dataStore.dataLen ≠ (entry s.keyLen padding key data false).length := by
        have hkey := hvalid.2 hkeyLen
        have hdata := hlen hdataLen
        rw [length_entry, dhSize]
        omega
      have hne : s.dataStore.dataLen ≠ 0 := by omega
      have happend : ∀ newObj, (writeEntry (FileStore.dataStore uninit) s padding key data false newObj).1 =
          .invalidData := by
        intro newObj
        have hd : (if newObj then s.dataStore else (FileStore.delete s.dataStore key).2) = s.dataStore := by
          cases newObj <;> rfl
        change (FileStore.append (if newObj then s.dataStore else (FileStore.delete s.dataStore key).2)
          (entry s.keyLen padding key data false)).1 = .invalidData
        rw [hd, FileStore.append, if_pos ⟨hne, hentry⟩]
      simp only [happend] at hput
      cases hput
      decide

end Reopen

/-- With records of any length, a store that was flushed and closed is opened as the very store that was
closed, when every record is shorter than `2 ^ 32` bytes and the hash table is moved by one call each
time. With records of one length every `Put` on the store that is opened fails. -/
theorem reopen_close (hashes : HashTableDefault.Hashes) (uninit : Nat → UInt8) (cfg : Config)
    (draws : Nat → Nat → Nat) :
    (∀ s₀ calls o w w' r files, cfg.keyLen = 0 ∨ cfg.dataLen = 0 → cfg.storeDataLen = 0 →
      createStore draws cfg = .ok s₀ →
      run (step (SfTable.hashTable hashes) (FileStore.dataStore uninit)) ⟨s₀, fun _ => none⟩ calls =
        some o →
      (∀ c ∈ calls, RecordFits c) → SfTable.Whole o.store.hashTable.memory w →
      SfTable.Whole o.store.hashTable.memory w' → SfTable.Whole o.store.hashTable.memory r →
      (flush w o.store files).1 = true ∧
        openStore o.store.hashTable.draws r cfg (close w' o.store (flush w o.store files).2) =
          some o.store) ∧
    (cfg.keyLen ≠ 0 → cfg.dataLen ≠ 0 → ∀ draws r files s padding key data ret s',
      openStore draws r cfg files = some s →
      put (SfTable.hashTable hashes) (FileStore.dataStore uninit) s padding key data = some (ret, s') →
      ret ≠ .ok) := by
  refine ⟨?_, fun hkey hdata draws r files s padding key data ret s' hopen hput => ?_⟩
  swap
  · obtain ⟨hashTable, -, rfl⟩ := Option.map_eq_some_iff.mp hopen
    exact put_ne_ok hkey hdata (if_pos ⟨hkey, hdata⟩) hput
  intro s₀ calls o w w' r files hvariable hstore hcreate hrun hfits hw hw' hr
  have hstep : ∀ o c o', step (SfTable.hashTable hashes) (FileStore.dataStore uninit) o c = some o' →
      RecordFits c → Kept cfg o.store → Kept cfg o'.store :=
    fun o c o' hstep hc h => kept_step h hc hstep
  have hkept := run_invariant_of_meets hstep hrun (meets_of_forall_mem hfits _)
    (kept_create hvariable hcreate)
  exact openStore_close hkept hvariable hstore hw hw' hr files

/-- One `Put` into a store with a table of one place, which is closed and opened. -/
theorem reopen_close_put : ∃ s₀ o, createStore (fun _ _ => 0) ⟨0, 0, 0, .default false 1⟩ = .ok s₀ ∧
    run (step (SfTable.hashTable fun _ _ => 0) (FileStore.dataStore fun _ => 0)) ⟨s₀, fun _ => none⟩
      [⟨.put [1] [7], 0⟩] = some o ∧
    openStore (fun _ _ => 0) { head := 8, table := [6] } ⟨0, 0, 0, .default false 1⟩
      (close { head := 8, table := [6] } o.store
        (flush { head := 8, table := [6] } o.store ⟨(0, 0), [], []⟩).2) = some o.store ∧
    get (SfTable.hashTable fun _ _ => 0) (FileStore.dataStore fun _ => 0) o.store [1] 0 maxLen =
      some (.ok [7]) := by
  refine ⟨_, _, rfl, rfl, ?_, by decide +kernel⟩
  have hwhole : ∀ m : TableMemory, m.head.length = 8 → m.table.length = 6 →
      SfTable.Whole m { head := 8, table := [6] } := by
    intro m hhead htable
    exact ⟨rfl, rfl, rfl, by rw [hhead]; rfl, ⟨by decide, by rw [htable]; rfl⟩, Nat.le_refl 1⟩
  have h := (reopen_close (fun _ _ => 0) (fun _ => 0) ⟨0, 0, 0, .default false 1⟩ fun _ _ => 0).1
  exact (h _ [⟨.put [1] [7], 0⟩] _ { head := 8, table := [6] } { head := 8, table := [6] }
    { head := 8, table := [6] } ⟨(0, 0), [], []⟩ (.inl rfl) rfl rfl rfl (by simp [RecordFits, dhSize])
    (hwhole _ rfl rfl) (hwhole _ rfl rfl) (hwhole _ rfl rfl)).2

/-- With keys and values of one byte the value is found before the store is closed, and not after. -/
theorem reopen_loses_fixed_length : ∃ s₀ o s, createStore (fun _ _ => 0) ⟨1, 1, 0, .default false 1⟩ = .ok s₀ ∧
    run (step (SfTable.hashTable fun _ _ => 0) (FileStore.dataStore fun _ => 0)) ⟨s₀, fun _ => none⟩
      [⟨.put [1] [7], 0⟩] = some o ∧
    openStore (fun _ _ => 0) { head := 8, table := [6] } ⟨1, 1, 0, .default false 1⟩
      (close { head := 8, table := [6] } o.store
        (flush { head := 8, table := [6] } o.store ⟨(0, 0), [], []⟩).2) = some s ∧
    get (SfTable.hashTable fun _ _ => 0) (FileStore.dataStore fun _ => 0) o.store [1] 0 maxLen =
      some (.ok [7]) ∧
    get (SfTable.hashTable fun _ _ => 0) (FileStore.dataStore fun _ => 0) s [1] 0 maxLen =
      some (.error .keyNotFound) :=
  ⟨_, _, _, rfl, rfl, rfl, by decide +kernel, by decide +kernel⟩

end FawnDSSF

end FawnKV.Silt
