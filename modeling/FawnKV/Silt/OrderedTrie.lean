import Mathlib.Data.List.Induction
import FawnKV.Cindex.BucketingIndex

/-! `FawnDS_SF_Ordered_Trie`: a sorted store whose index is a bucketed trie. -/
namespace FawnKV.Silt

open Cindex

/-- The configuration nodes `Create` reads. -/
structure TrieConfig where
  keyLen : Nat
  dataLen : Nat
  keysPerBlock : Nat
  size : Nat
  bucketSize : Nat
  skipBits : Nat
deriving DecidableEq

namespace TrieConfig

def bucketBits (config : TrieConfig) : Nat :=
  BucketingIndex.bucketBitsLoop (config.size / config.bucketSize) 0

structure Valid (config : TrieConfig) : Prop where
  keyLen_pos : 1 ≤ config.keyLen
  dataLen_pos : 1 ≤ config.dataLen
  keysPerBlock_pos : 1 ≤ config.keysPerBlock
  bucketSize_ge : 2 ≤ config.bucketSize
  size_ge : config.bucketSize ≤ config.size
  bits_le : config.skipBits + config.bucketBits ≤ 8 * config.keyLen

end TrieConfig

/-- The datastore is the list of the records appended to it. -/
structure FawnDSSFOrderedTrie where
  config : TrieConfig
  index : BucketingIndex
  dataStore : List Value
  actualSize : Nat
deriving DecidableEq

namespace FawnDSSFOrderedTrie

/-- `Get` of the datastore: the record's bytes from `offset` on, at most `len` of them. -/
def dataStoreGet (records : List Value) (id offset len : Nat) : FawnDSReturn × Value :=
  match records[id]? with
  | none => (.end, [])
  | some record =>
    if record.length < offset then (.end, [])
    else (.ok, (record.drop offset).take len)

def create (config : TrieConfig) : Except FawnDSReturn FawnDSSFOrderedTrie :=
  if config.keyLen = 0 then .error .error
  else if config.dataLen = 0 then .error .error
  else if config.keysPerBlock = 0 then .error .error
  else if config.bucketSize = 0 then .error .error
  else .ok
    { config
      index := .create config.keyLen config.size config.bucketSize 0 config.keysPerBlock
        config.skipBits
      dataStore := []
      actualSize := 0 }

/-- The four bytes at the end align entries of 1020 bytes. -/
def combinedKv (key data : Value) : Value := key ++ data ++ [0, 0, 0, 0]

/-- `Put` after the index has answered. -/
def putRecord (t : FawnDSSFOrderedTrie) (key data : Value) :
    Bool × BucketingIndex → FawnDSReturn × FawnDSSFOrderedTrie
  | (false, index) => (.invalidKey, { t with index })
  | (true, index) => (.ok, { t with
      index
      dataStore := t.dataStore ++ [combinedKv key data]
      actualSize := t.actualSize + 1 })

/-- The return code and the store after the call; `none` is an assertion of the index. -/
def put (t : FawnDSSFOrderedTrie) (key data : Value) : Option (FawnDSReturn × FawnDSSFOrderedTrie) :=
  if t.index.finalized then some (.error, t)
  else if key.length ≠ t.config.keyLen then some (.invalidKey, t)
  else if data.length ≠ t.config.dataLen then some (.invalidData, t)
  else (t.index.insert key).map (putRecord t key data)

def flush (t : FawnDSSFOrderedTrie) : Option (FawnDSReturn × FawnDSSFOrderedTrie) :=
  if t.index.finalized then some (.ok, t)
  else t.index.flush.map fun index => (.ok, { t with index })

/-- The loop of `Get` over the records of a block; the data is `none` where it is not written. -/
def scan (t : FawnDSSFOrderedTrie) (key : Value) (offset : Nat) :
    Nat → Nat → FawnDSReturn × Option Value
  | _, 0 => (.keyNotFound, none)
  | i, count + 1 =>
    match dataStoreGet t.dataStore i 0 t.config.keyLen with
    | (.end, _) => (.keyNotFound, none)
    | (.ok, retKey) =>
      if retKey.length ≠ t.config.keyLen then (.error, none)
      else if !equals key retKey then scan t key offset (i + 1) count
      else if t.config.dataLen < offset then (.end, none)
      else
        -- the whole data is read, whatever the caller's offset and length are
        match dataStoreGet t.dataStore i t.config.keyLen t.config.dataLen with
        | (.ok, data) => (if data.length ≠ t.config.dataLen then .error else .ok, some data)
        | (ret, data) => (ret, some data)
    | (ret, _) => (ret, none)

def get (t : FawnDSSFOrderedTrie) (key : Value) (offset : Nat) :
    Option (FawnDSReturn × Option Value) :=
  if !t.index.finalized then some (.error, none)
  else if key.length = 0 then some (.invalidKey, none)
  else if key.length ≠ t.config.keyLen then some (.invalidKey, none)
  else
    (t.index.locate key).map fun baseIdx =>
      scan t key offset (baseIdx / t.config.keysPerBlock * t.config.keysPerBlock)
        t.config.keysPerBlock

/-- `IteratorElem::Parse` of one record. -/
def parse (t : FawnDSSFOrderedTrie) (record : Value) : Value × Value :=
  (record.take t.config.keyLen, (record.drop t.config.keyLen).take t.config.dataLen)

/-- The pairs the iterator yields. -/
def enumerate (t : FawnDSSFOrderedTrie) : List (Value × Value) :=
  if !t.index.finalized then [] else t.dataStore.map t.parse

/-- A run of `Put` calls, with their return codes. -/
def putAll (t : FawnDSSFOrderedTrie) :
    List (Value × Value) → Option (List FawnDSReturn × FawnDSSFOrderedTrie)
  | [] => some ([], t)
  | p :: puts =>
    (put t p.1 p.2).bind fun r => (putAll r.2 puts).map fun s => (r.1 :: s.1, s.2)

/-! What the store is for: a map whose keys arrive in increasing order. -/
section SortedMap

/-- Whether a pair extends the pairs accepted before it. -/
def Accepts (config : TrieConfig) (acc : List (Value × Value)) (p : Value × Value) : Prop :=
  p.1.length = config.keyLen ∧ p.2.length = config.dataLen ∧ ∀ q ∈ acc, q.1 < p.1

instance (config : TrieConfig) (acc : List (Value × Value)) (p : Value × Value) :
    Decidable (Accepts config acc p) := inferInstanceAs (Decidable (_ ∧ _ ∧ _))

def accept (config : TrieConfig) (acc : List (Value × Value)) (p : Value × Value) :
    List (Value × Value) := if Accepts config acc p then acc ++ [p] else acc

def accepted (config : TrieConfig) (puts : List (Value × Value)) : List (Value × Value) :=
  puts.foldl (accept config) []

/-- The keys of the right length agree on the bits the index skips. -/
def SharePrefix (config : TrieConfig) (puts : List (Value × Value)) : Prop :=
  ∀ p ∈ puts, ∀ q ∈ puts, p.1.length = config.keyLen → q.1.length = config.keyLen →
    ∀ i < config.skipBits, keyBit p.1 i = keyBit q.1 i

variable {config : TrieConfig} {acc puts : List (Value × Value)} {p : Value × Value}

theorem foldl_accept_subset (puts acc : List (Value × Value)) (h : p ∈ puts.foldl (accept config) acc) :
    p ∈ acc ∨ p ∈ puts := by
  induction puts generalizing acc with
  | nil => exact .inl h
  | cons q puts ih =>
    rcases ih (accept config acc q) h with hacc | hputs
    · unfold accept at hacc
      split at hacc
      · rcases List.mem_append.mp hacc with hold | hnew
        · exact .inl hold
        · exact .inr (List.mem_cons.mpr (.inl (List.mem_singleton.mp hnew)))
      · exact .inl hacc
    · exact .inr (List.mem_cons_of_mem q hputs)

theorem mem_of_mem_accepted (h : p ∈ accepted config puts) : p ∈ puts := by
  rcases foldl_accept_subset puts [] h with hnil | hmem
  · cases hnil
  · exact hmem

theorem accepted_append_singleton (config : TrieConfig) (puts : List (Value × Value))
    (p : Value × Value) :
    accepted config (puts ++ [p]) = accept config (accepted config puts) p := by
  rw [accepted, List.foldl_append]
  rfl

end SortedMap

section Refinement

variable {config : TrieConfig} {t t' : FawnDSSFOrderedTrie} {acc : List (Value × Value)}
  {key data : Value} {i g count : Nat}

/-- The store represents `acc`: its index holds the keys and its datastore the records. -/
structure Represents (config : TrieConfig) (t : FawnDSSFOrderedTrie) (acc : List (Value × Value)) :
    Prop where
  config_eq : t.config = config
  sized : ∀ p ∈ acc, p.1.length = config.keyLen ∧ p.2.length = config.dataLen
  holds : t.index.Holds (acc.map Prod.fst)
  records : t.dataStore = acc.map fun p => combinedKv p.1 p.2
  params : t.index.params =
    (config.keyLen, 0, config.keysPerBlock, config.skipBits, config.bucketBits)

/-- The store before `Flush`. -/
structure Building (config : TrieConfig) (t : FawnDSSFOrderedTrie) (acc : List (Value × Value)) :
    Prop extends Represents config t acc where
  reached : t.index.Reached
  open_ : t.index.finalized = false

theorem create_building (h : config.Valid) :
    ∃ t, create config = .ok t ∧ Building config t [] := by
  have h1 := h.keyLen_pos
  have h2 := h.dataLen_pos
  have h3 := h.keysPerBlock_pos
  have h4 := h.bucketSize_ge
  have hbits : config.skipBits + config.bucketBits ≤ config.keyLen * 8 := by
    have := h.bits_le
    omega
  rw [create, if_neg (by omega), if_neg (by omega), if_neg (by omega), if_neg (by omega)]
  refine ⟨_, rfl, ⟨rfl, by simp, BucketingIndex.holds_create hbits, rfl, rfl⟩, .inl rfl, ?_⟩
  show (0 == 2 ^ config.bucketBits) = false
  rw [beq_eq_false_iff_ne]
  exact (Nat.two_pow_pos _).ne

/-- A `Put` that is not accepted leaves the store as it is. -/
theorem put_spec (h : Building config t acc)
    (hshare : ∀ q ∈ acc, key.length = config.keyLen →
      ∀ i < config.skipBits, keyBit q.1 i = keyBit key i)
    (hcount : acc.length + 1 < 2 ^ 63) :
    ∃ r t', put t key data = some (r, t') ∧ Building config t' (accept config acc (key, data)) ∧
      (key.length = config.keyLen → data.length = config.dataLen →
        (r = .ok ↔ ∀ q ∈ acc, q.1 < key) ∧ (r ≠ .ok → r = .invalidKey)) ∧
      (r ≠ .ok → t' = t) := by
  have hc := h.config_eq
  have hp := h.params
  simp only [BucketingIndex.params, Prod.mk.injEq] at hp
  have hopen := h.open_
  by_cases hkey : key.length = config.keyLen
  · by_cases hdata : data.length = config.dataLen
    · have hput : put t key data = (t.index.insert key).map (putRecord t key data) := by
        rw [put, if_neg (by simp [hopen]), if_neg (by rw [hc]; exact not_not.mpr hkey),
          if_neg (by rw [hc]; exact not_not.mpr hdata)]
      obtain ⟨hacc, hrej⟩ := BucketingIndex.insert_spec h.holds h.reached hopen
        (by rw [hp.1]; exact hkey)
        (by
          intro k hk
          obtain ⟨q, hq, rfl⟩ := List.mem_map.mp hk
          rw [hp.2.2.2.1]
          exact hshare q hq hkey)
        (by simpa using hcount)
      by_cases hall : ∀ q ∈ acc, q.1 < key
      · obtain ⟨index, heq, hholds, hreached, hopen', hparams⟩ := hacc (by
          intro k hk
          obtain ⟨q, hq, rfl⟩ := List.mem_map.mp hk
          exact hall q hq)
        refine ⟨.ok, _, by rw [hput, heq]; rfl, ?_, fun _ _ => ⟨by simpa using hall, by simp⟩, by simp⟩
        rw [accept, if_pos ⟨hkey, hdata, hall⟩]
        refine ⟨⟨hc, ?_, by simpa using hholds, by simp [h.records], hparams.trans h.params⟩,
          hreached, hopen'⟩
        intro q hq
        rcases List.mem_append.mp hq with hold | hnew
        · exact h.sized q hold
        · rw [List.mem_singleton.mp hnew]
          exact ⟨hkey, hdata⟩
      · have heq := hrej (by
          intro hk
          exact hall fun q hq => hk q.1 (List.mem_map_of_mem hq))
        refine ⟨.invalidKey, t, by rw [hput, heq]; rfl, ?_, fun _ _ => ⟨by simpa using hall, by simp⟩,
          fun _ => rfl⟩
        rw [accept, if_neg fun ha => hall ha.2.2]
        exact h
    · refine ⟨.invalidData, t, ?_, ?_, fun _ hd => absurd hd hdata, fun _ => rfl⟩
      · rw [put, if_neg (by simp [hopen]), if_neg (by rw [hc]; exact not_not.mpr hkey),
          if_pos (by rw [hc]; exact hdata)]
      · rw [accept, if_neg fun ha => hdata ha.2.1]
        exact h
  · refine ⟨.invalidKey, t, ?_, ?_, fun hk => absurd hk hkey, fun _ => rfl⟩
    · rw [put, if_neg (by simp [hopen]), if_pos (by rw [hc]; exact hkey)]
    · rw [accept, if_neg fun ha => hkey ha.1]
      exact h

theorem flush_represents (h : Building config t acc) :
    ∃ t', flush t = some (.ok, t') ∧ Represents config t' acc ∧ t'.index.finalized = true := by
  obtain ⟨index, heq, hholds, hfin, hparams⟩ := BucketingIndex.flush_spec h.holds h.open_
  refine ⟨{ t with index }, ?_, ⟨h.config_eq, h.sized, hholds, h.records, hparams.trans h.params⟩, hfin⟩
  rw [flush, if_neg (by simp [h.open_]), heq]
  rfl

/-- One round of the scan, in terms of the pair in the record. -/
theorem scan_step (h : Represents config t acc) (key : Value) (i count : Nat) :
    (acc[i]? = none → scan t key 0 i (count + 1) = (.keyNotFound, none)) ∧
    ∀ p, acc[i]? = some p → scan t key 0 i (count + 1) =
      if p.1 = key then (.ok, some p.2) else scan t key 0 (i + 1) count := by
  constructor
  · intro hi
    rw [scan, dataStoreGet, h.records, List.getElem?_map, hi]
    rfl
  · intro p hi
    obtain ⟨hk, hd⟩ := h.sized p (List.mem_of_getElem? hi)
    have hrecord : t.dataStore[i]? = some (combinedKv p.1 p.2) := by
      rw [h.records, List.getElem?_map, hi]
      rfl
    have hkey : dataStoreGet t.dataStore i 0 t.config.keyLen = (.ok, p.1) := by
      rw [dataStoreGet, hrecord]
      simp only [Nat.not_lt_zero, if_false, List.drop_zero, combinedKv, h.config_eq, ← hk]
      rw [List.append_assoc, List.take_left]
    have hdata : dataStoreGet t.dataStore i t.config.keyLen t.config.dataLen = (.ok, p.2) := by
      have hnot : ¬(combinedKv p.1 p.2).length < t.config.keyLen := by
        rw [h.config_eq, ← hk]
        simp [combinedKv]
      rw [dataStoreGet, hrecord]
      simp only [hnot, if_false]
      rw [combinedKv, h.config_eq, ← hk, ← hd, List.append_assoc, List.drop_left, List.take_left]
    rw [scan, hkey, hdata]
    simp only [h.config_eq, hk, hd, ne_eq, not_true_eq_false, if_false, equals_eq,
      Nat.not_lt_zero, eq_comm]
    by_cases heq : p.1 = key <;> simp [heq]

theorem scan_absent (h : Represents config t acc) (habsent : ∀ p ∈ acc, p.1 ≠ key) (i count : Nat) :
    scan t key 0 i count = (.keyNotFound, none) := by
  induction count generalizing i with
  | zero => rfl
  | succ count ih =>
    obtain ⟨hend, hrecord⟩ := scan_step h key i count
    cases hi : acc[i]? with
    | none => exact hend hi
    | some p =>
      rw [hrecord p hi, if_neg (habsent p (List.mem_of_getElem? hi))]
      exact ih (i + 1)

/-- The scan stops at the key it looks for, which no earlier record holds. -/
theorem scan_found (h : Represents config t acc) (hg : acc[g]? = some (key, data)) (hle : i ≤ g)
    (hlt : g < i + count) : scan t key 0 i count = (.ok, some data) := by
  induction count generalizing i with
  | zero => omega
  | succ count ih =>
    obtain ⟨hgl, hge⟩ := List.getElem?_eq_some_iff.mp hg
    have hi : acc[i]? = some acc[i] := List.getElem?_eq_getElem (by omega)
    rw [(scan_step h key i count).2 _ hi]
    rcases Nat.lt_or_eq_of_le hle with hearly | rfl
    · have hne : acc[i].1 < key := by
        have hsorted := List.pairwise_map.mp h.holds.sorted
        have := List.pairwise_iff_getElem.mp hsorted i g (by omega) hgl hearly
        rwa [hge] at this
      rw [if_neg hne.ne]
      exact ih hearly (by omega)
    · rw [if_pos (by rw [hge]), hge]

theorem get_spec (h : Represents config t acc) (hvalid : config.Valid)
    (hfin : t.index.finalized = true) (hkey : key.length = config.keyLen) :
    (∀ data, (key, data) ∈ acc → get t key 0 = some (.ok, some data)) ∧
    ((∀ p ∈ acc, p.1 ≠ key) → get t key 0 = some (.keyNotFound, none)) := by
  obtain ⟨r, hr, hblock⟩ := BucketingIndex.locate_spec h.holds hfin key
  have hp := h.params
  simp only [BucketingIndex.params, Prod.mk.injEq] at hp
  have hpos := hvalid.keyLen_pos
  have hget : get t key 0 = some (scan t key 0 (r / config.keysPerBlock * config.keysPerBlock)
      config.keysPerBlock) := by
    rw [get, if_neg (by simp [hfin]), if_neg (by omega),
      if_neg (by rw [h.config_eq]; exact not_not.mpr hkey), hr, h.config_eq]
    rfl
  rw [hget]
  constructor
  · intro data hmem
    obtain ⟨g, hg⟩ := List.getElem?_of_mem hmem
    obtain ⟨hle, hsame⟩ := hblock g (by rw [List.getElem?_map, hg]; rfl)
    rw [hp.2.2.1] at hsame
    have hbase := Nat.div_mul_le_self r config.keysPerBlock
    have hend := Nat.lt_div_mul_add (a := g) hvalid.keysPerBlock_pos
    rw [scan_found h hg (by omega) (by rw [hsame]; exact hend)]
  · intro habsent
    rw [scan_absent h habsent]

theorem enumerate_spec (h : Represents config t acc) (hfin : t.index.finalized = true) :
    enumerate t = acc := by
  rw [enumerate, if_neg (by simp [hfin]), h.records, List.map_map]
  refine (List.map_congr_left fun p hp => ?_).trans (List.map_id acc)
  obtain ⟨hk, hd⟩ := h.sized p hp
  simp only [Function.comp_apply, parse, combinedKv, h.config_eq, id_eq, ← hk, ← hd]
  rw [List.append_assoc, List.take_left, List.drop_left, List.take_left]

end Refinement

section Runs

variable {config : TrieConfig} {t t₀ : FawnDSSFOrderedTrie} {acc puts : List (Value × Value)}
  {p : Value × Value}

theorem putAll_append_singleton (t : FawnDSSFOrderedTrie) (puts : List (Value × Value))
    (p : Value × Value) : putAll t (puts ++ [p]) = (putAll t puts).bind fun s =>
      (put s.2 p.1 p.2).map fun r => (s.1 ++ [r.1], r.2) := by
  induction puts generalizing t with
  | nil =>
    cases h : put t p.1 p.2 <;> simp [putAll, h]
  | cons q puts ih =>
    simp only [List.cons_append, putAll]
    cases hq : put t q.1 q.2 with
    | none => rfl
    | some r =>
      simp only [Option.bind_some, ih]
      cases putAll r.2 puts with
      | none => rfl
      | some s =>
        simp only [Option.bind_some, Option.map_some]
        cases put s.2 p.1 p.2 <;> rfl

theorem length_accepted_le (config : TrieConfig) (puts : List (Value × Value)) :
    (accepted config puts).length ≤ puts.length := by
  induction puts using List.reverseRecOn with
  | nil => exact Nat.le_refl _
  | append_singleton puts p ih =>
    rw [accepted_append_singleton, accept]
    split
    · simpa using ih
    · simpa using Nat.le_succ_of_le ih

/-- The last `Put` of a run, given the run before it. -/
theorem put_last (h : Building config t (accepted config puts))
    (hshare : SharePrefix config (puts ++ [p])) (hcap : (puts ++ [p]).length < 2 ^ 63) :
    ∃ r t', put t p.1 p.2 = some (r, t') ∧ Building config t' (accepted config (puts ++ [p])) ∧
      (p.1.length = config.keyLen → p.2.length = config.dataLen →
        (r = .ok ↔ ∀ q ∈ accepted config puts, q.1 < p.1) ∧ (r ≠ .ok → r = .invalidKey)) ∧
      (r ≠ .ok → t' = t) := by
  have hlen := length_accepted_le config puts
  rw [List.length_append, List.length_singleton] at hcap
  rw [accepted_append_singleton]
  refine put_spec h (fun q hq hkey => ?_) (by omega)
  have hmem := mem_of_mem_accepted hq
  exact hshare q (List.mem_append_left _ hmem) p (by simp) (h.sized q hq).1 hkey

theorem putAll_building (h₀ : Building config t₀ []) (hshare : SharePrefix config puts)
    (hcap : puts.length < 2 ^ 63) :
    ∃ returns t, putAll t₀ puts = some (returns, t) ∧ Building config t (accepted config puts) := by
  induction puts using List.reverseRecOn with
  | nil => exact ⟨[], t₀, rfl, h₀⟩
  | append_singleton puts p ih =>
    obtain ⟨returns, t, hrun, ht⟩ := ih
      (fun q hq q' hq' => hshare q (List.mem_append_left _ hq) q' (List.mem_append_left _ hq'))
      (by rw [List.length_append] at hcap; omega)
    obtain ⟨r, t', hput, ht', -⟩ := put_last ht hshare hcap
    refine ⟨returns ++ [r], t', ?_, ht'⟩
    rw [putAll_append_singleton, hrun, Option.bind_some, hput]
    rfl

/-- The store is a sorted map: an accepted `Put` is one with a larger key than all before, and
after `Flush` the accepted pairs are what `Get` and `Enumerate` return. The datastore numbers its
records by an `off_t`. -/
theorem ordered_trie_sorted_map (config : TrieConfig) (puts : List (Value × Value))
    (hvalid : config.Valid) (hshare : SharePrefix config puts) (hcap : puts.length < 2 ^ 63) :
    ∃ t₀ returns t t', create config = .ok t₀ ∧ putAll t₀ puts = some (returns, t) ∧
      flush t = some (.ok, t') ∧
      (∀ before p after, puts = before ++ p :: after →
        ∃ rs t₁ r t₂, putAll t₀ before = some (rs, t₁) ∧ put t₁ p.1 p.2 = some (r, t₂) ∧
          (p.1.length = config.keyLen → p.2.length = config.dataLen →
            (r = .ok ↔ ∀ q ∈ accepted config before, q.1 < p.1) ∧ (r ≠ .ok → r = .invalidKey)) ∧
          (r ≠ .ok → t₂ = t₁)) ∧
      (∀ p ∈ accepted config puts, get t' p.1 0 = some (.ok, some p.2)) ∧
      (∀ key, key.length = config.keyLen → (∀ p ∈ accepted config puts, p.1 ≠ key) →
        get t' key 0 = some (.keyNotFound, none)) ∧
      enumerate t' = accepted config puts ∧
      (accepted config puts).Pairwise (fun p q => p.1 < q.1) := by
  obtain ⟨t₀, hcreate, h₀⟩ := create_building hvalid
  obtain ⟨returns, t, hrun, ht⟩ := putAll_building h₀ hshare hcap
  obtain ⟨t', hflush, ht', hfin⟩ := flush_represents ht
  refine ⟨t₀, returns, t, t', hcreate, hrun, hflush, ?_, ?_, ?_, enumerate_spec ht' hfin,
    List.pairwise_map.mp ht'.holds.sorted⟩
  · rintro before p after rfl
    have hsub : ∀ q ∈ before ++ [p], q ∈ before ++ p :: after := by
      intro q hq
      rcases List.mem_append.mp hq with hq | hq
      · exact List.mem_append_left _ hq
      · rw [List.mem_singleton.mp hq]
        simp
    have hshare' : SharePrefix config (before ++ [p]) := fun q hq q' hq' =>
      hshare q (hsub q hq) q' (hsub q' hq')
    have hcap' : (before ++ [p]).length < 2 ^ 63 := by
      simp only [List.length_append, List.length_cons, List.length_nil] at hcap ⊢
      omega
    obtain ⟨rs, t₁, hrun₁, ht₁⟩ := putAll_building h₀
      (fun q hq q' hq' => hshare' q (List.mem_append_left _ hq) q' (List.mem_append_left _ hq'))
      (by rw [List.length_append] at hcap'; omega)
    obtain ⟨r, t₂, hput, -, hret, hsame⟩ := put_last ht₁ hshare' hcap'
    exact ⟨rs, t₁, r, t₂, hrun₁, hput, hret, hsame⟩
  · intro p hp
    exact (get_spec ht' hvalid hfin (ht'.sized p hp).1).1 p.2 hp
  · intro key hkey habsent
    exact (get_spec ht' hvalid hfin hkey).2 habsent

/-- Two buckets of one-byte keys; the third key is out of order. -/
theorem ordered_trie_sorted_map_two_buckets : ∃ t₀ returns t t',
    create ⟨1, 1, 2, 4, 2, 0⟩ = .ok t₀ ∧
    putAll t₀ [([1], [10]), ([3], [11]), ([2], [12]), ([200], [13])] = some (returns, t) ∧
    flush t = some (.ok, t') ∧ get t' [3] 0 = some (.ok, some [11]) ∧
    get t' [2] 0 = some (.keyNotFound, none) ∧
    enumerate t' = [([1], [10]), ([3], [11]), ([200], [13])] := by
  have haccepted : accepted ⟨1, 1, 2, 4, 2, 0⟩ [([1], [10]), ([3], [11]), ([2], [12]), ([200], [13])] =
      [([1], [10]), ([3], [11]), ([200], [13])] := by decide
  have hbits : (⟨1, 1, 2, 4, 2, 0⟩ : TrieConfig).bucketBits = 1 := by decide +kernel
  obtain ⟨t₀, returns, t, t', hcreate, hrun, hflush, -, hget, hmiss, henum, -⟩ :=
    ordered_trie_sorted_map ⟨1, 1, 2, 4, 2, 0⟩ [([1], [10]), ([3], [11]), ([2], [12]), ([200], [13])]
      ⟨by decide, by decide, by decide, by decide, by decide, by rw [hbits]; decide⟩
      (fun _ _ _ _ _ _ i hi => absurd hi (Nat.not_lt_zero i)) (by decide)
  rw [haccepted] at hget hmiss henum
  exact ⟨t₀, returns, t, t', hcreate, hrun, hflush, hget ([3], [11]) (by decide),
    hmiss [2] rfl (by decide), henum⟩

end Runs

end FawnDSSFOrderedTrie

end FawnKV.Silt
