import FawnKV.Cindex.TrieRoundTrip

/-! `bucketing_index`: the keys of a bucket are kept pending and coded as one trie. -/
namespace FawnKV.Cindex

open BitCode Silt

/-- The bucketing is the list of the (index offset, destination offset) pairs inserted into it;
`pending_key_count_` is the number of pending keys. -/
structure BucketingIndex where
  keyLen : Nat
  destBase : Nat
  destKeysPerBlock : Nat
  skipBits : Nat
  bucketBits : Nat
  repr : Bits
  bucketing : List (Nat × Nat)
  lastDestOffset : Nat
  pendingBucket : Nat
  pendingKeys : List Value
deriving DecidableEq

namespace BucketingIndex

/-- The least number of bits, from `bits` on, that give at least `buckets` buckets. -/
def bucketBitsLoop (buckets bits : Nat) : Nat :=
  if 2 ^ bits < buckets then bucketBitsLoop buckets (bits + 1) else bits
termination_by buckets - 2 ^ bits
decreasing_by
  have : 2 ^ bits < 2 ^ (bits + 1) := Nat.pow_lt_pow_right (by omega) (by omega)
  omega

def create (keyLen n bucketSize destBase destKeysPerBlock skipBits : Nat) : BucketingIndex :=
  { keyLen, destBase, destKeysPerBlock, skipBits
    bucketBits := bucketBitsLoop (n / bucketSize) 0
    repr := []
    bucketing := [(0, 0)]
    lastDestOffset := 0
    pendingBucket := 0
    pendingKeys := [] }

def bucketCount (ix : BucketingIndex) : Nat := 2 ^ ix.bucketBits

def finalized (ix : BucketingIndex) : Bool := ix.pendingBucket == ix.bucketCount

/-- The loop of `find_bucket`; `none` is the assertion on too short keys. -/
def findBucketLoop (ix : BucketingIndex) (key : Value) : Nat → Nat → Nat → Option Nat
  | 0, _, index => some index
  | rest + 1, bits, index =>
    if ix.keyLen * 8 < ix.skipBits + bits then none
    else findBucketLoop ix key rest (bits + 1)
      (2 * index + (keyBit key (ix.skipBits + bits)).toNat)

def findBucket (ix : BucketingIndex) (key : Value) : Option Nat :=
  findBucketLoop ix key ix.bucketBits 0 0

def indexPendingKeys (ix : BucketingIndex) : Option BucketingIndex :=
  if ix.pendingBucket < ix.bucketCount then
    (Trie.encode false ix.repr ix.pendingKeys ix.keyLen 0 ix.pendingKeys.length
      (ix.destBase + ix.lastDestOffset) ix.destKeysPerBlock (ix.skipBits + ix.bucketBits)).map
      fun repr => { ix with
        repr
        bucketing := ix.bucketing ++
          [(repr.length, ix.lastDestOffset + ix.pendingKeys.length)]
        lastDestOffset := ix.lastDestOffset + ix.pendingKeys.length
        pendingBucket := ix.pendingBucket + 1
        pendingKeys := [] }
  else none

/-- `count` rounds of a loop around `index_pending_keys`. -/
def indexTimes : Nat → BucketingIndex → Option BucketingIndex
  | 0, ix => some ix
  | count + 1, ix => (indexPendingKeys ix).bind (indexTimes count)

/-- Whether the key is acknowledged, and the index after the call. -/
def insert (ix : BucketingIndex) (key : Value) : Option (Bool × BucketingIndex) :=
  if ix.finalized then none
  else
    (ix.findBucket key).bind fun bucket =>
      if bucket < ix.pendingBucket || (ix.pendingKeys.length != 0 &&
          decide (0 ≤ memcmp ix.keyLen (ix.pendingKeys.getD (ix.pendingKeys.length - 1) []) key)) then
        some (false, ix)
      else
        (indexTimes (bucket - ix.pendingBucket) ix).map fun ix =>
          (true, { ix with pendingKeys := ix.pendingKeys ++ [key] })

def flush (ix : BucketingIndex) : Option BucketingIndex :=
  if ix.finalized then none else indexTimes (ix.bucketCount - ix.pendingBucket) ix

def locate (ix : BucketingIndex) (key : Value) : Option Nat :=
  if !ix.finalized then none
  else
    (ix.findBucket key).bind fun bucket =>
      match ix.bucketing[bucket]?, ix.bucketing[bucket + 1]? with
      | some (iter, off), some (_, next) =>
        (Trie.locate false ix.repr iter key ix.keyLen 0 (next - off) (ix.destBase + off)
          ix.destKeysPerBlock (ix.skipBits + ix.bucketBits)).map fun r => off + r.1
      | _, _ => none

end BucketingIndex

section BucketOf

variable {skip bits : Nat} {a b : Value}

/-- The bits of a key that number its bucket. -/
def bucketKeyBits (skip bits : Nat) (key : Value) : Bits :=
  (List.range bits).map fun i => keyBit key (skip + i)

def bucketOf (skip bits : Nat) (key : Value) : Nat := readBe (bucketKeyBits skip bits key)

theorem length_bucketKeyBits (skip bits : Nat) (key : Value) :
    (bucketKeyBits skip bits key).length = bits := by
  simp [bucketKeyBits]

theorem bucketOf_lt (skip bits : Nat) (key : Value) : bucketOf skip bits key < 2 ^ bits := by
  have := readBe_lt (bucketKeyBits skip bits key)
  rwa [length_bucketKeyBits] at this

/-- Keys of one bucket agree on the bits that number it. -/
theorem keyBit_of_bucketOf_eq (h : bucketOf skip bits a = bucketOf skip bits b) {i : Nat}
    (hlow : skip ≤ i) (hhigh : i < skip + bits) : keyBit a i = keyBit b i := by
  have hlist := readBe_inj (by simp [length_bucketKeyBits]) h
  have hi : i - skip < bits := by omega
  have := congrArg (fun l => l[i - skip]?) hlist
  simp only [bucketKeyBits, List.getElem?_map, List.getElem?_range hi, Option.map_some,
    Option.some.injEq] at this
  rwa [Nat.add_sub_cancel' hlow] at this

/-- Among keys that agree on the skipped bits the bucket number grows with the key. -/
theorem bucketOf_le (bits : Nat) (hskip : ∀ i < skip, keyBit a i = keyBit b i) {len : Nat} (h : BitLt len a b) :
    bucketOf skip bits a ≤ bucketOf skip bits b := by
  obtain ⟨d, -, hagree, hfalse, htrue⟩ := h
  have hle : skip ≤ d := by
    by_contra hlt
    have := hskip d (by omega)
    rw [hfalse, htrue] at this
    cases this
  refine readBe_map_le fun c _ hsame hbit => ?_
  rcases Nat.lt_trichotomy (skip + c) d with hlt | heq | hgt
  · rw [← hagree _ hlt, hbit]
  · rw [heq, hfalse] at hbit
    cases hbit
  · -- the keys differ in a bit before this one
    have hearlier := hsame (d - skip) (by omega)
    rw [Nat.add_sub_cancel' hle, hfalse, htrue] at hearlier
    cases hearlier

end BucketOf

namespace BucketingIndex

section Invariant

variable {ix ix' : BucketingIndex} {keys : List Value} {key : Value} {b : Nat}

/-- The number of a key's bucket in this index. -/
abbrev bucket (ix : BucketingIndex) (key : Value) : Nat := bucketOf ix.skipBits ix.bucketBits key

/-- What the constructor fixes. -/
def params (ix : BucketingIndex) : Nat × Nat × Nat × Nat × Nat :=
  (ix.keyLen, ix.destBase, ix.destKeysPerBlock, ix.skipBits, ix.bucketBits)

/-- Bucket `b` is coded: its code stands in `repr_` at its index offset, and the destination
offsets count the keys of the buckets before it. -/
def Done (ix : BucketingIndex) (keys : List Value) (b : Nat) : Prop :=
  ∃ pre code post x, ix.repr = pre ++ code ++ post ∧
    ix.bucketing[b]? = some (pre.length, (keys.filter fun k => ix.bucket k < b).length) ∧
    ix.bucketing[b + 1]? = some (x, (keys.filter fun k => ix.bucket k < b + 1).length) ∧
    Trie.Coded false ix.keyLen (ix.destBase + (keys.filter fun k => ix.bucket k < b).length)
      ix.destKeysPerBlock (keys.filter fun k => ix.bucket k = b) 0
      (keys.filter fun k => ix.bucket k = b).length (ix.skipBits + ix.bucketBits) code

/-- The index has acknowledged exactly `keys`, in this order. -/
structure Holds (ix : BucketingIndex) (keys : List Value) : Prop where
  length : ∀ k ∈ keys, k.length = ix.keyLen
  sorted : keys.Pairwise (· < ·)
  share : ∀ k ∈ keys, ∀ k' ∈ keys, ∀ i < ix.skipBits, keyBit k i = keyBit k' i
  bits : ix.skipBits + ix.bucketBits ≤ ix.keyLen * 8
  count : keys.length < 2 ^ 63
  base : ix.destBase = 0
  pending_le : ix.pendingBucket ≤ ix.bucketCount
  bucket_le : ∀ k ∈ keys, ix.bucket k ≤ ix.pendingBucket
  pending : ix.pendingKeys = keys.filter fun k => ix.bucket k = ix.pendingBucket
  last : ix.lastDestOffset = (keys.filter fun k => ix.bucket k < ix.pendingBucket).length
  bucketing_length : ix.bucketing.length = ix.pendingBucket + 1
  bucketing_last : ix.bucketing[ix.pendingBucket]? = some (ix.repr.length, ix.lastDestOffset)
  done : ∀ b < ix.pendingBucket, Done ix keys b

theorem holds_create {keyLen n bucketSize destKeysPerBlock skipBits : Nat}
    (hbits : skipBits + bucketBitsLoop (n / bucketSize) 0 ≤ keyLen * 8) :
    Holds (create keyLen n bucketSize 0 destKeysPerBlock skipBits) [] := by
  constructor
  case bits => exact hbits
  case count => exact Nat.two_pow_pos 63
  case done =>
    intro b hb
    exact absurd hb (Nat.not_lt_zero b)
  all_goals simp [create]

theorem findBucketLoop_eq (key : Value) (rest bits index : Nat)
    (h : ix.skipBits + bits + rest ≤ ix.keyLen * 8) :
    findBucketLoop ix key rest bits index =
      some (index * 2 ^ rest + bucketOf (ix.skipBits + bits) rest key) := by
  induction rest generalizing bits index with
  | zero => simp [findBucketLoop, bucketOf, bucketKeyBits, readBe]
  | succ rest ih =>
    have hcons : bucketKeyBits (ix.skipBits + bits) (rest + 1) key =
        keyBit key (ix.skipBits + bits) :: bucketKeyBits (ix.skipBits + (bits + 1)) rest key := by
      simp only [bucketKeyBits, List.range_succ_eq_map, List.map_cons, Nat.add_zero, List.map_map]
      congr 1
      refine List.map_congr_left fun i _ => ?_
      simp only [Function.comp_apply]
      congr 1
      omega
    rw [findBucketLoop, if_neg (by omega), ih _ _ (by omega), bucketOf, bucketOf, hcons,
      readBe_cons, length_bucketKeyBits, Nat.pow_succ]
    congr 1
    ring

theorem findBucket_eq (h : ix.skipBits + ix.bucketBits ≤ ix.keyLen * 8) (key : Value) :
    ix.findBucket key = some (ix.bucket key) := by
  rw [findBucket, findBucketLoop_eq key _ 0 0 (by omega)]
  simp

/-- Keys that agree on the skipped bits and are in different buckets compare as the buckets. -/
theorem lt_of_bucket_lt {a b : Value} (ha : a.length = ix.keyLen) (hb : b.length = ix.keyLen)
    (hshare : ∀ i < ix.skipBits, keyBit a i = keyBit b i) (h : ix.bucket a < ix.bucket b) : a < b := by
  rcases lt_trichotomy a b with hlt | heq | hgt
  · exact hlt
  · subst heq
    omega
  · have := bucketOf_le ix.bucketBits (fun i hi => (hshare i hi).symm)
      (bitLt_of_lt (hb.trans ha.symm) hgt)
    simp only [bucket] at h
    omega

/-- The keys of one bucket agree on all the bits above its trie. -/
theorem agree_bucket (h : Holds ix keys) (b : Nat) :
    ∀ k ∈ keys.filter (fun k => ix.bucket k = b), ∀ k' ∈ keys.filter (fun k => ix.bucket k = b),
      ∀ i < ix.skipBits + ix.bucketBits, keyBit k i = keyBit k' i := by
  intro k hk k' hk' i hi
  obtain ⟨hmem, hb⟩ := List.mem_filter.mp hk
  obtain ⟨hmem', hb'⟩ := List.mem_filter.mp hk'
  simp only [decide_eq_true_eq] at hb hb'
  by_cases hskip : i < ix.skipBits
  · exact h.share k hmem k' hmem' i hskip
  · exact keyBit_of_bucketOf_eq (hb.trans hb'.symm) (by omega) hi

theorem length_filter_lt_succ (ix : BucketingIndex) (keys : List Value) (b : Nat) :
    (keys.filter fun k => ix.bucket k < b + 1).length =
      (keys.filter fun k => ix.bucket k < b).length + (keys.filter fun k => ix.bucket k = b).length := by
  simp only [← List.countP_eq_length_filter]
  induction keys with
  | nil => rfl
  | cons k keys ih =>
    simp only [List.countP_cons, decide_eq_true_eq, ih]
    rcases Nat.lt_trichotomy (ix.bucket k) b with hlt | heq | hgt
    · rw [if_pos (by omega), if_pos hlt, if_neg (by omega)]
      omega
    · rw [if_pos (by omega), if_neg (by omega), if_pos heq]
      omega
    · rw [if_neg (by omega), if_neg (by omega), if_neg (by omega)]
      omega

/-- Coding the pending bucket leaves every earlier one where it is. -/
theorem indexPendingKeys_holds (h : Holds ix keys) (hlt : ix.pendingBucket < ix.bucketCount) :
    ∃ ix', indexPendingKeys ix = some ix' ∧ Holds ix' keys ∧ ix'.params = ix.params ∧
      ix'.pendingBucket = ix.pendingBucket + 1 := by
  have hseg := h.pending
  obtain ⟨code, hcode⟩ : ∃ code, Trie.Coded false ix.keyLen (ix.destBase + ix.lastDestOffset)
      ix.destKeysPerBlock ix.pendingKeys 0 ix.pendingKeys.length (ix.skipBits + ix.bucketBits) code := by
    rw [hseg]
    refine Trie.exists_coded false _ _ (Trie.bitSorted_of_pairwise ?_ ?_) ?_ _ 0 _ _ (Nat.le_refl _)
      ?_ (by omega)
    · exact fun k hk => h.length k (List.mem_filter.mp hk).1
    · exact h.sorted.filter _
    · exact lt_of_le_of_lt (List.length_filter_le _ _) h.count
    · intro i hi j hj d hd
      rw [Nat.zero_add, Nat.zero_add, List.getD_eq_getElem _ _ hi, List.getD_eq_getElem _ _ hj]
      exact agree_bucket h _ _ (List.getElem_mem hi) _ (List.getElem_mem hj) d hd
  refine ⟨{ ix with
    repr := ix.repr ++ code
    bucketing := ix.bucketing ++
      [((ix.repr ++ code).length, ix.lastDestOffset + ix.pendingKeys.length)]
    lastDestOffset := ix.lastDestOffset + ix.pendingKeys.length
    pendingBucket := ix.pendingBucket + 1
    pendingKeys := [] }, ?_, ?_, rfl, rfl⟩
  · rw [indexPendingKeys, if_pos hlt, Trie.encode, hcode.encode]
    rfl
  · have hnext : ix.lastDestOffset + ix.pendingKeys.length =
        (keys.filter fun k => ix.bucket k < ix.pendingBucket + 1).length := by
      rw [length_filter_lt_succ, ← h.last, ← hseg]
    refine { h with
      pending_le := Nat.succ_le_of_lt hlt
      bucket_le := fun k hk => Nat.le_succ_of_le (h.bucket_le k hk)
      pending := ?_
      last := hnext
      bucketing_length := by simp [h.bucketing_length]
      bucketing_last := ?_
      done := ?_ }
    · refine (List.filter_eq_nil_iff.mpr fun k hk => ?_).symm
      have hle := h.bucket_le k hk
      simp only [decide_eq_true_eq]
      show ¬ix.bucket k = ix.pendingBucket + 1
      omega
    · show (ix.bucketing ++ [_])[ix.pendingBucket + 1]? = _
      rw [← h.bucketing_length]
      simp
    · intro b hb
      have hlast := h.bucketing_last
      have hblen := h.bucketing_length
      rcases Nat.lt_succ_iff_lt_or_eq.mp hb with hb | rfl
      · obtain ⟨pre, code', post, x, hrepr, hoff, hnext', hdone⟩ := h.done b hb
        refine ⟨pre, code', post ++ code, x, ?_, ?_, ?_, hdone⟩
        · simp [hrepr]
        · rw [List.getElem?_append_left (by omega)]
          exact hoff
        · rw [List.getElem?_append_left (by omega)]
          exact hnext'
      · refine ⟨ix.repr, code, [], (ix.repr ++ code).length, by simp, ?_, ?_, ?_⟩
        · rw [List.getElem?_append_left (by omega), hlast, h.last]
        · rw [← hblen]
          simp only [List.getElem?_concat_length, Option.some.injEq, Prod.mk.injEq, true_and]
          rw [hblen]
          exact hnext
        · rw [← h.last, ← hseg]
          exact hcode

theorem indexTimes_holds (count : Nat) (h : Holds ix keys)
    (hle : ix.pendingBucket + count ≤ ix.bucketCount) :
    ∃ ix', indexTimes count ix = some ix' ∧ Holds ix' keys ∧ ix'.params = ix.params ∧
      ix'.pendingBucket = ix.pendingBucket + count := by
  induction count generalizing ix with
  | zero => exact ⟨ix, rfl, h, rfl, rfl⟩
  | succ count ih =>
    obtain ⟨ix₁, heq₁, h₁, hparams₁, hpending₁⟩ := indexPendingKeys_holds h (by omega)
    have hcount : ix₁.bucketCount = ix.bucketCount := by
      simp only [params, Prod.mk.injEq] at hparams₁
      rw [bucketCount, bucketCount, hparams₁.2.2.2.2]
    obtain ⟨ix₂, heq₂, h₂, hparams₂, hpending₂⟩ := ih h₁ (by omega)
    refine ⟨ix₂, ?_, h₂, hparams₂.trans hparams₁, by omega⟩
    rw [indexTimes, heq₁, Option.bind_some, heq₂]

theorem memcmp_nonneg_iff {a b : Value} (hlen : a.length = b.length) :
    0 ≤ memcmp a.length a b ↔ ¬a < b := by
  constructor
  · intro h0 hlt
    rcases lt_or_eq_of_le h0 with hpos | hzero
    · have hgt : b < a := lt_of_memcmp_neg (n := a.length) (by rw [memcmp_swap]; omega)
      exact absurd hlt hgt.asymm
    · obtain ⟨c, rfl⟩ := eq_append_of_memcmp_zero hzero.symm hlen.le
      have hc : c = [] := by simpa using hlen
      simp [hc] at hlt
  · intro hnot
    by_contra hneg
    exact hnot (lt_of_memcmp_neg (n := a.length) (by omega))

/-- Between two inserts the pending bucket has a key, except at the start. -/
def Reached (ix : BucketingIndex) : Prop := ix.pendingBucket = 0 ∨ ix.pendingKeys ≠ []

theorem bucket_lt_count (ix : BucketingIndex) (key : Value) : ix.bucket key < ix.bucketCount :=
  bucketOf_lt _ _ key

/-- The check of `insert` on the pending bucket and its last key is a check on all keys. -/
theorem rejects_iff (h : Holds ix keys) (hreach : Reached ix) (hlen : key.length = ix.keyLen)
    (hshare : ∀ k ∈ keys, ∀ i < ix.skipBits, keyBit k i = keyBit key i) :
    (ix.bucket key < ix.pendingBucket || (ix.pendingKeys.length != 0 &&
      decide (0 ≤ memcmp ix.keyLen (ix.pendingKeys.getD (ix.pendingKeys.length - 1) []) key))) = true ↔
      ¬∀ k ∈ keys, k < key := by
  have hkey : ∀ k ∈ ix.pendingKeys, k ∈ keys ∧ ix.bucket k = ix.pendingBucket := by
    intro k hk
    rw [h.pending] at hk
    simpa using hk
  by_cases hne : ix.pendingKeys = []
  · -- nothing pending: all keys are in earlier buckets
    have hzero : ix.pendingBucket = 0 := by
      rcases hreach with hz | hp
      · exact hz
      · exact absurd hne hp
    have hall : ∀ k ∈ keys, k < key := by
      intro k hk
      have hle := h.bucket_le k hk
      have hin : k ∈ ix.pendingKeys := by
        rw [h.pending]
        simp only [List.mem_filter, decide_eq_true_eq]
        exact ⟨hk, by omega⟩
      simp [hne] at hin
    simp only [hne, hzero, Nat.not_lt_zero, decide_false, List.length_nil, bne_self_eq_false,
      Bool.false_and, Bool.or_self, Bool.false_eq_true, false_iff, not_not]
    exact hall
  · have hpos := List.length_pos_iff.mpr hne
    rw [List.getD_eq_getElem _ _ (by omega)]
    generalize hlastdef : ix.pendingKeys[ix.pendingKeys.length - 1] = last
    have hlastmem : last ∈ ix.pendingKeys := hlastdef ▸ List.getElem_mem _
    obtain ⟨hlast, hlastb⟩ := hkey last hlastmem
    have hlastlen := h.length last hlast
    have hcmp : 0 ≤ memcmp ix.keyLen last key ↔ ¬last < key := by
      rw [← hlastlen]
      exact memcmp_nonneg_iff (hlastlen.trans hlen.symm)
    -- the last pending key is the largest of all
    have hmax : ∀ k ∈ keys, k ≤ last := by
      intro k hk
      rcases Nat.lt_or_eq_of_le (h.bucket_le k hk) with hlt | heq
      · exact (lt_of_bucket_lt (h.length k hk) hlastlen (h.share k hk last hlast)
          (by omega)).le
      · have hin : k ∈ ix.pendingKeys := by
          rw [h.pending]
          simp [hk, heq]
        obtain ⟨i, hi, rfl⟩ := List.getElem_of_mem hin
        rw [← hlastdef]
        rcases Nat.lt_or_eq_of_le (show i ≤ ix.pendingKeys.length - 1 by omega) with hlt | rfl
        · have hps : ix.pendingKeys.Pairwise (· < ·) := by
            rw [h.pending]
            exact h.sorted.filter _
          exact (List.pairwise_iff_getElem.mp hps _ _ _ _ hlt).le
        · exact le_refl _
    have hne0 : (ix.pendingKeys.length != 0) = true := by
      simp only [bne_iff_ne]
      omega
    simp only [Bool.or_eq_true, decide_eq_true_eq, hne0, Bool.true_and, hcmp]
    constructor
    · rintro (hb | hnot) hall
      · have := lt_of_bucket_lt hlen hlastlen
          (fun i hi => (hshare last hlast i hi).symm) (by rw [hlastb]; exact hb)
        exact absurd (hall last hlast) this.asymm
      · exact hnot (hall last hlast)
    · intro hnot
      by_cases hb : ix.bucket key < ix.pendingBucket
      · exact .inl hb
      · refine .inr fun hlt => hnot fun k hk => ?_
        exact lt_of_le_of_lt (hmax k hk) hlt

theorem holds_push (h : Holds ix keys) (hb : ix.bucket key = ix.pendingBucket)
    (hlen : key.length = ix.keyLen) (hall : ∀ k ∈ keys, k < key)
    (hshare : ∀ k ∈ keys, ∀ i < ix.skipBits, keyBit k i = keyBit key i)
    (hcount : keys.length + 1 < 2 ^ 63) :
    Holds { ix with pendingKeys := ix.pendingKeys ++ [key] } (keys ++ [key]) := by
  have hkeep : ∀ b ≤ ix.pendingBucket, ((keys ++ [key]).filter fun k => ix.bucket k < b) =
      keys.filter fun k => ix.bucket k < b := by
    intro b hle
    have hnot : ¬ix.bucket key < b := by omega
    simp [hnot]
  have hkeep' : ∀ b < ix.pendingBucket, ((keys ++ [key]).filter fun k => ix.bucket k = b) =
      keys.filter fun k => ix.bucket k = b := by
    intro b hlt
    have hnot : ¬ix.bucket key = b := by omega
    simp [hnot]
  have hcases : ∀ k ∈ keys ++ [key], k ∈ keys ∨ k = key := by
    intro k hk
    simpa using hk
  constructor
  · intro k hk
    rcases hcases k hk with hk | rfl
    · exact h.length k hk
    · exact hlen
  · rw [List.pairwise_append]
    refine ⟨h.sorted, List.pairwise_singleton _ _, fun k hk k' hk' => ?_⟩
    obtain rfl := List.mem_singleton.mp hk'
    exact hall k hk
  · intro k hk k' hk' i hi
    rcases hcases k hk with hold | hnew <;> rcases hcases k' hk' with hold' | hnew'
    · exact h.share k hold k' hold' i hi
    · rw [hnew']
      exact hshare k hold i hi
    · rw [hnew]
      exact (hshare k' hold' i hi).symm
    · rw [hnew, hnew']
  · exact h.bits
  · simpa using hcount
  · exact h.base
  · exact h.pending_le
  · intro k hk
    rcases hcases k hk with hk | rfl
    · exact h.bucket_le k hk
    · exact hb.le
  · show ix.pendingKeys ++ [key] = (keys ++ [key]).filter fun k => ix.bucket k = ix.pendingBucket
    rw [List.filter_append, ← h.pending]
    simp [hb]
  · show ix.lastDestOffset = ((keys ++ [key]).filter fun k => ix.bucket k < ix.pendingBucket).length
    rw [hkeep _ (Nat.le_refl _)]
    exact h.last
  · exact h.bucketing_length
  · exact h.bucketing_last
  · intro b hlt
    obtain ⟨pre, code, post, x, hrepr, hoff, hnext, hdone⟩ := h.done b hlt
    have hlt' : b < ix.pendingBucket := hlt
    refine ⟨pre, code, post, x, hrepr, ?_, ?_, ?_⟩
    · show ix.bucketing[b]? = some (pre.length, ((keys ++ [key]).filter fun k => ix.bucket k < b).length)
      rw [hkeep b hlt'.le]
      exact hoff
    · show ix.bucketing[b + 1]? =
        some (x, ((keys ++ [key]).filter fun k => ix.bucket k < b + 1).length)
      rw [hkeep (b + 1) hlt']
      exact hnext
    · show Trie.Coded false ix.keyLen
        (ix.destBase + ((keys ++ [key]).filter fun k => ix.bucket k < b).length)
        ix.destKeysPerBlock ((keys ++ [key]).filter fun k => ix.bucket k = b) 0
        ((keys ++ [key]).filter fun k => ix.bucket k = b).length (ix.skipBits + ix.bucketBits) code
      rw [hkeep b hlt'.le, hkeep' b hlt']
      exact hdone

/-- `insert` acknowledges a key exactly when it is larger than all before, and otherwise leaves
the index as it is. -/
theorem insert_spec (h : Holds ix keys) (hreach : Reached ix) (hfin : ix.finalized = false)
    (hlen : key.length = ix.keyLen)
    (hshare : ∀ k ∈ keys, ∀ i < ix.skipBits, keyBit k i = keyBit key i)
    (hcount : keys.length + 1 < 2 ^ 63) :
    ((∀ k ∈ keys, k < key) → ∃ ix', insert ix key = some (true, ix') ∧ Holds ix' (keys ++ [key]) ∧
      Reached ix' ∧ ix'.finalized = false ∧ ix'.params = ix.params) ∧
    ((¬∀ k ∈ keys, k < key) → insert ix key = some (false, ix)) := by
  have hrej := rejects_iff h hreach hlen hshare
  constructor
  · intro hall
    have hno : ¬(ix.bucket key < ix.pendingBucket || (ix.pendingKeys.length != 0 &&
        decide (0 ≤ memcmp ix.keyLen (ix.pendingKeys.getD (ix.pendingKeys.length - 1) []) key))) = true :=
      fun hyes => hrej.mp hyes hall
    have hge : ix.pendingBucket ≤ ix.bucket key := by
      by_contra hlt
      refine hno ?_
      rw [Bool.or_eq_true]
      exact .inl (by simpa using hlt)
    have hltc := bucket_lt_count ix key
    obtain ⟨ix', heq, h', hparams, hpending⟩ :=
      indexTimes_holds (ix.bucket key - ix.pendingBucket) h (by omega)
    have hp := hparams
    simp only [params, Prod.mk.injEq] at hp
    have hbucket : ∀ k, ix'.bucket k = ix.bucket k := by
      intro k
      rw [bucket, bucket, hp.2.2.2.1, hp.2.2.2.2]
    refine ⟨{ ix' with pendingKeys := ix'.pendingKeys ++ [key] }, ?_, ?_, .inr (by simp), ?_, hparams⟩
    · rw [insert, if_neg (by simp [hfin]), findBucket_eq h.bits, Option.bind_some, if_neg hno, heq]
      rfl
    · refine holds_push h' (by rw [hbucket]; omega) (by rw [hp.1]; exact hlen) hall ?_ hcount
      rw [hp.2.2.2.1]
      exact hshare
    · have hcnt : ix'.bucketCount = ix.bucketCount := by rw [bucketCount, bucketCount, hp.2.2.2.2]
      show (ix'.pendingBucket == ix'.bucketCount) = false
      rw [beq_eq_false_iff_ne]
      omega
  · intro hnot
    rw [insert, if_neg (by simp [hfin]), findBucket_eq h.bits, Option.bind_some,
      if_pos (hrej.mpr hnot)]

theorem flush_spec (h : Holds ix keys) (hfin : ix.finalized = false) :
    ∃ ix', flush ix = some ix' ∧ Holds ix' keys ∧ ix'.finalized = true ∧ ix'.params = ix.params := by
  have hle := h.pending_le
  obtain ⟨ix', heq, h', hparams, hpending⟩ :=
    indexTimes_holds (ix.bucketCount - ix.pendingBucket) h (by omega)
  refine ⟨ix', by rw [flush, if_neg (by simp [hfin]), heq], h', ?_, hparams⟩
  have hp := hparams
  simp only [params, Prod.mk.injEq] at hp
  have hcnt : ix'.bucketCount = ix.bucketCount := by rw [bucketCount, bucketCount, hp.2.2.2.2]
  rw [finalized, beq_iff_eq]
  omega

/-- In increasing order the keys stand bucket by bucket. -/
theorem filter_buckets (b : Nat) (h : keys.Pairwise fun k k' => ix.bucket k ≤ ix.bucket k') :
    keys = keys.filter (fun k => ix.bucket k < b) ++ (keys.filter (fun k => ix.bucket k = b) ++
      keys.filter fun k => b < ix.bucket k) := by
  induction keys with
  | nil => rfl
  | cons k keys ih =>
    obtain ⟨hhead, htail⟩ := List.pairwise_cons.mp h
    have hrest := ih htail
    rcases Nat.lt_trichotomy (ix.bucket k) b with hlt | heq | hgt
    · have hnot : ¬b < ix.bucket k := by omega
      rw [List.filter_cons_of_pos (by simpa using hlt), List.filter_cons_of_neg (by simpa using hlt.ne),
        List.filter_cons_of_neg (by simpa using hnot), List.cons_append, ← hrest]
    · have hbefore : keys.filter (fun k => ix.bucket k < b) = [] := by
        refine List.filter_eq_nil_iff.mpr fun k' hk' => ?_
        have := hhead k' hk'
        simp only [decide_eq_true_eq]
        omega
      rw [hbefore, List.nil_append] at hrest
      rw [List.filter_cons_of_neg (by simp only [decide_eq_true_eq]; omega), hbefore, List.nil_append,
        List.filter_cons_of_pos (by simpa using heq),
        List.filter_cons_of_neg (by simp only [decide_eq_true_eq]; omega), List.cons_append, ← hrest]
    · have habove : ∀ k' ∈ keys, b < ix.bucket k' := by
        intro k' hk'
        have := hhead k' hk'
        omega
      have hbefore : (k :: keys).filter (fun k => ix.bucket k < b) = [] := by
        refine List.filter_eq_nil_iff.mpr fun k' hk' => ?_
        simp only [decide_eq_true_eq]
        rcases List.mem_cons.mp hk' with rfl | hk'
        · omega
        · have := habove k' hk'
          omega
      have hat : (k :: keys).filter (fun k => ix.bucket k = b) = [] := by
        refine List.filter_eq_nil_iff.mpr fun k' hk' => ?_
        simp only [decide_eq_true_eq]
        rcases List.mem_cons.mp hk' with rfl | hk'
        · omega
        · have := habove k' hk'
          omega
      rw [hbefore, hat, List.nil_append, List.nil_append]
      refine (List.filter_eq_self.mpr fun k' hk' => ?_).symm
      simp only [decide_eq_true_eq]
      rcases List.mem_cons.mp hk' with rfl | hk'
      · exact hgt
      · exact habove k' hk'

theorem pairwise_bucket (h : Holds ix keys) :
    keys.Pairwise fun k k' => ix.bucket k ≤ ix.bucket k' := by
  refine List.Pairwise.imp_of_mem (fun {k k'} hk hk' hlt => ?_) h.sorted
  exact bucketOf_le ix.bucketBits (h.share k hk k' hk')
    (bitLt_of_lt ((h.length k hk).trans (h.length k' hk').symm) hlt)

/-- The place of a key among the keys of its bucket. -/
theorem getElem?_bucket (h : Holds ix keys) {g : Nat} (hg : keys[g]? = some key) :
    ∃ i, (keys.filter fun k => ix.bucket k = ix.bucket key)[i]? = some key ∧
      g = (keys.filter fun k => ix.bucket k < ix.bucket key).length + i := by
  have hsplit := filter_buckets (ix.bucket key) (pairwise_bucket h)
  rw [hsplit] at hg
  by_cases hbefore : g < (keys.filter fun k => ix.bucket k < ix.bucket key).length
  · rw [List.getElem?_append_left hbefore] at hg
    have := (List.mem_filter.mp (List.mem_of_getElem? hg)).2
    simp at this
  · rw [List.getElem?_append_right (by omega)] at hg
    refine ⟨g - (keys.filter fun k => ix.bucket k < ix.bucket key).length, ?_, by omega⟩
    by_cases hat : g - (keys.filter fun k => ix.bucket k < ix.bucket key).length <
        (keys.filter fun k => ix.bucket k = ix.bucket key).length
    · rwa [List.getElem?_append_left hat] at hg
    · rw [List.getElem?_append_right (by omega)] at hg
      have := (List.mem_filter.mp (List.mem_of_getElem? hg)).2
      simp at this

/-- After `flush` every key has a location, and that of an acknowledged key is in its block. -/
theorem locate_spec (h : Holds ix keys) (hfin : ix.finalized = true) (key : Value) :
    ∃ r, locate ix key = some r ∧ ∀ g, keys[g]? = some key →
      r ≤ g ∧ r / ix.destKeysPerBlock = g / ix.destKeysPerBlock := by
  have hb : ix.bucket key < ix.pendingBucket := by
    rw [finalized, beq_iff_eq] at hfin
    rw [hfin]
    exact bucket_lt_count ix key
  obtain ⟨pre, code, post, x, hrepr, hoff, hnext, hcoded⟩ := h.done _ hb
  obtain ⟨r, iter, hr, -⟩ := hcoded.inside key pre post
  have hn := length_filter_lt_succ ix keys (ix.bucket key)
  refine ⟨(keys.filter fun k => ix.bucket k < ix.bucket key).length + r, ?_, ?_⟩
  · rw [locate, if_neg (by simp [hfin]), findBucket_eq h.bits, Option.bind_some]
    simp only [hoff, hnext, hn, Nat.add_sub_cancel_left, hrepr, Trie.locate, hr, Option.map_some]
  · intro g hg
    obtain ⟨i, hi, hgi⟩ := getElem?_bucket h hg
    have hcount := h.count
    have hgl := (List.getElem?_eq_some_iff.mp hg).1
    have hsplit := congrArg List.length (filter_buckets (ix.bucket key) (pairwise_bucket h))
    simp only [List.length_append] at hsplit
    obtain ⟨hil, hie⟩ := List.getElem?_eq_some_iff.mp hi
    obtain ⟨j, iter', hj, hji, -, hblock⟩ := hcoded.found i hil pre post
    rw [Nat.zero_add, List.getD_eq_getElem _ _ hil, hie, hr] at hj
    obtain rfl : r = j := congrArg Prod.fst (Option.some.inj hj)
    replace hblock := hblock (by rw [h.base]; omega)
    rw [h.base] at hblock
    simp only [Nat.zero_add, Nat.add_zero] at hblock
    exact ⟨by omega, by rw [hblock, hgi]⟩

end Invariant

end BucketingIndex

end FawnKV.Cindex
