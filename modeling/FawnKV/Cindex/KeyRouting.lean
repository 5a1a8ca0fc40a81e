import FawnKV.Cindex.BucketingIndex

/-! Keys are routed by some of their bits: `get_partition` to a store, `find_bucket` to a bucket. Behind the key
in memory lies something else. -/
namespace FawnKV.Cindex

open BitCode Silt

/-- A key, and the bits of the memory that it lies in. -/
structure KeyInMemory where
  data : Value
  beyond : Nat → Bool

/-- `bit_access::get` on a key in memory. -/
def KeyInMemory.bit (key : KeyInMemory) (i : Nat) : Bool :=
  if i < 8 * key.data.length then keyBit key.data i else key.beyond i

/-- What a function returns, whether it has broken off at a key that is too short, and the indexes of the bits
that it has read. -/
structure Route where
  index : Nat
  tooShort : Bool
  reads : List Nat
deriving DecidableEq

/-- The loop of both functions, with `rest` rounds to go; the numbers are `size_t`. -/
def routeLoop (tooShort : Nat → Bool) (key : KeyInMemory) (skipBits : Nat) : Nat → Nat → Nat → Route
  | 0, _, index => ⟨index, false, []⟩
  | rest + 1, bits, index =>
    let index := 2 * index % 2 ^ 64
    let i := (skipBits + bits) % 2 ^ 64
    if tooShort i then ⟨index, true, []⟩
    else
      let r := routeLoop tooShort key skipBits rest (bits + 1) (if key.bit i then index ||| 1 else index)
      { r with reads := i :: r.reads }

/-- `FawnDS_Partition`, without the stores of the partitions. -/
structure Partition where
  skipBits : Nat
  partitions : Nat
  partitionBits : Nat
deriving DecidableEq

namespace Partition

/-- The loop for `partition_bits_`; a shift of `1u` by 32 is not defined. -/
def partitionBitsLoop (partitions : Nat) : Nat → Nat → Option Nat
  | 0, _ => none
  | shifts + 1, bits =>
    if 2 ^ bits < partitions then partitionBitsLoop partitions shifts (bits + 1) else some bits

/-- `alloc_stores`, from the numbers that `atoi` makes of the configuration. -/
def allocStores (skipBits partitions : Int) : Option (FawnDSReturn × Partition) :=
  let skipBits := (skipBits % 2 ^ 64).toNat
  let partitions := (partitions % 2 ^ 64).toNat
  (partitionBitsLoop partitions 32 0).map fun partitionBits =>
    if partitions = 0 then (.error, ⟨skipBits, partitions, partitionBits⟩)
    else if 2 ^ partitionBits ≠ partitions then (.error, ⟨skipBits, partitions, partitionBits⟩)
    else (.ok, ⟨skipBits, partitions, partitionBits⟩)

/-- The bytes up to the bit are compared with those of the key. -/
def getPartition (p : Partition) (key : KeyInMemory) : Route :=
  routeLoop (fun i => key.data.length < i / 8) key p.skipBits p.partitionBits 0 0

end Partition

/-- `find_bucket`, with the bits that it reads: the bit is compared with those of the key. -/
def BucketingIndex.findBucketReads (ix : BucketingIndex) (key : KeyInMemory) : Route :=
  routeLoop (fun i => ix.keyLen * 8 % 2 ^ 64 < i) key ix.skipBits ix.bucketBits 0 0

section Loop

variable {tooShort : Nat → Bool} {key : KeyInMemory} {skip rest bits index : Nat}

theorem routeLoop_tooShort : (routeLoop tooShort key skip rest bits index).tooShort = true ↔
    ∃ b, bits ≤ b ∧ b < bits + rest ∧ tooShort ((skip + b) % 2 ^ 64) = true := by
  induction rest generalizing bits index with
  | zero =>
    refine iff_of_false Bool.false_ne_true ?_
    rintro ⟨b, hle, hlt, -⟩
    omega
  | succ rest ih =>
    rw [routeLoop]
    by_cases hshort : tooShort ((skip + bits) % 2 ^ 64) = true
    · rw [if_pos hshort]
      exact iff_of_true rfl ⟨bits, Nat.le_refl _, by omega, hshort⟩
    · rw [if_neg hshort]
      refine ih.trans ⟨?_, ?_⟩
      · rintro ⟨b, hle, hlt, hb⟩
        exact ⟨b, by omega, by omega, hb⟩
      · rintro ⟨b, hle, hlt, hb⟩
        have hne : b ≠ bits := by
          rintro rfl
          exact hshort hb
        exact ⟨b, by omega, by omega, hb⟩

/-- A loop that comes to its end has read all the bits. -/
theorem routeLoop_reads (h : (routeLoop tooShort key skip rest bits index).tooShort = false) :
    (routeLoop tooShort key skip rest bits index).reads =
      (List.range' bits rest).map fun b => (skip + b) % 2 ^ 64 := by
  induction rest generalizing bits index with
  | zero => rfl
  | succ rest ih =>
    rw [routeLoop] at h ⊢
    by_cases hshort : tooShort ((skip + bits) % 2 ^ 64) = true
    · rw [if_pos hshort] at h
      cases h
    · rw [if_neg hshort] at h ⊢
      dsimp only at h ⊢
      rw [ih h, List.range'_succ, List.map_cons]

theorem or_one (n : Nat) (x : Bool) : (if x then 2 * n ||| 1 else 2 * n) = 2 * n + x.toNat := by
  cases x with
  | true => exact (Nat.two_pow_add_eq_or_of_lt (i := 1) (by decide) n).symm
  | false => rfl

/-- The number that the bits are, highest first; it is shifted out of a `size_t` nowhere. -/
theorem routeLoop_index (h : (routeLoop tooShort key skip rest bits index).tooShort = false)
    (hindex : index < 2 ^ bits) (hbits : bits + rest < 64) :
    (routeLoop tooShort key skip rest bits index).index = index * 2 ^ rest +
      readBe ((List.range' bits rest).map fun b => key.bit ((skip + b) % 2 ^ 64)) := by
  induction rest generalizing bits index with
  | zero => simp [routeLoop, readBe]
  | succ rest ih =>
    have hpow : 2 ^ (bits + 1) ≤ 2 ^ 64 := Nat.pow_le_pow_right (by decide) (by omega)
    have hdouble : 2 * index + 1 < 2 ^ (bits + 1) := by
      rw [Nat.pow_succ]
      omega
    rw [routeLoop] at h ⊢
    by_cases hshort : tooShort ((skip + bits) % 2 ^ 64) = true
    · rw [if_pos hshort] at h
      cases h
    · rw [if_neg hshort] at h ⊢
      dsimp only at h ⊢
      rw [Nat.mod_eq_of_lt (show 2 * index < 2 ^ 64 by omega), or_one] at h ⊢
      have hbit := Bool.toNat_le (key.bit ((skip + bits) % 2 ^ 64))
      rw [ih h (by omega) (by omega), List.range'_succ, List.map_cons, readBe_cons, List.length_map,
        List.length_range', Nat.pow_succ]
      ring

end Loop

section Order

variable {a b : Value} {m n i skip : Nat} {key key' : KeyInMemory} {tooShort tooShort' : Nat → Bool}

theorem keyBit_take (h : i < 8 * m) : keyBit (a.take m) i = keyBit a i := by
  rw [keyBit, keyBit, List.getD_eq_getElem?_getD, List.getElem?_take_of_lt (by omega),
    List.getD_eq_getElem?_getD]

theorem take_lt_or_eq (h : a < b) (m : Nat) : a.take m < b.take m ∨ a.take m = b.take m := by
  induction m generalizing a b with
  | zero => exact .inr rfl
  | succ m ih =>
    cases b with
    | nil => exact absurd h (List.not_lt_nil a)
    | cons y b =>
      cases a with
      | nil => exact .inl (List.nil_lt_cons y _)
      | cons x a =>
        rw [List.take_succ_cons, List.take_succ_cons]
        rcases List.cons_lt_cons_iff.mp h with hxy | ⟨rfl, hab⟩
        · exact .inl (List.cons_lt_cons_iff.mpr (.inl hxy))
        · rcases ih hab with hlt | heq
          · exact .inl (List.cons_lt_cons_iff.mpr (.inr ⟨rfl, hlt⟩))
          · exact .inr (by rw [heq])

/-- The order of keys of any lengths, in the bits that both of them have. -/
theorem exists_first_bit (h : a < b) (ha : m ≤ a.length) (hb : m ≤ b.length) :
    ∃ d, (∀ i < d, i < 8 * m → keyBit a i = keyBit b i) ∧
      (d < 8 * m → keyBit a d = false ∧ keyBit b d = true) := by
  rcases take_lt_or_eq h m with hlt | heq
  · have hlength : (a.take m).length = (b.take m).length := by
      rw [List.length_take_of_le ha, List.length_take_of_le hb]
    obtain ⟨d, -, hagree, hfalse, htrue⟩ := bitLt_of_lt hlength hlt
    refine ⟨d, fun i hid him => ?_, fun hd => ?_⟩
    · rw [← keyBit_take him, hagree i hid, keyBit_take him]
    · rw [keyBit_take hd] at hfalse htrue
      exact ⟨hfalse, htrue⟩
  · refine ⟨8 * m, fun i hid _ => ?_, fun hd => absurd hd (Nat.lt_irrefl _)⟩
    rw [← keyBit_take hid, heq, keyBit_take hid]

theorem routeLoop_lt (hn : n < 64) (h : (routeLoop tooShort key skip n 0 0).tooShort = false) :
    (routeLoop tooShort key skip n 0 0).index < 2 ^ n := by
  have hlt := readBe_lt ((List.range' 0 n).map fun b => key.bit ((skip + b) % 2 ^ 64))
  rw [List.length_map, List.length_range'] at hlt
  rw [routeLoop_index h (by decide) (by omega), Nat.zero_mul, Nat.zero_add]
  exact hlt

/-- A loop that stays in the key takes its bits. -/
theorem routeLoop_index_inside (hn : n < 64) (h : (routeLoop tooShort key skip n 0 0).tooShort = false)
    (hinside : ∀ c < n, (skip + c) % 2 ^ 64 < 8 * key.data.length) :
    (routeLoop tooShort key skip n 0 0).index =
      readBe ((List.range n).map fun c => keyBit key.data ((skip + c) % 2 ^ 64)) := by
  rw [routeLoop_index h (by decide) (by omega), Nat.zero_mul, Nat.zero_add, ← List.range_eq_range']
  refine congrArg readBe (List.map_congr_left fun c hc => ?_)
  exact if_pos (hinside c (List.mem_range.mp hc))

theorem routeLoop_le (hn : n < 64) (hskip : skip < 2 ^ 64)
    (h : (routeLoop tooShort key skip n 0 0).tooShort = false)
    (h' : (routeLoop tooShort' key' skip n 0 0).tooShort = false)
    (hinside : ∀ c < n, (skip + c) % 2 ^ 64 < 8 * key.data.length)
    (hinside' : ∀ c < n, (skip + c) % 2 ^ 64 < 8 * key'.data.length)
    (hshare : ∀ i < skip, keyBit key.data i = keyBit key'.data i) (hle : key.data ≤ key'.data) :
    (routeLoop tooShort key skip n 0 0).index ≤ (routeLoop tooShort' key' skip n 0 0).index := by
  rw [routeLoop_index_inside hn h hinside, routeLoop_index_inside hn h' hinside']
  rcases lt_or_eq_of_le hle with hlt | heq
  · obtain ⟨d, hagree, hfirst⟩ := exists_first_bit (m := min key.data.length key'.data.length) hlt
      (Nat.min_le_left _ _) (Nat.min_le_right _ _)
    refine readBe_map_le fun c hc hsame hbit => ?_
    have hin := hinside c hc
    have hin' := hinside' c hc
    rcases Nat.lt_trichotomy ((skip + c) % 2 ^ 64) d with hbefore | hat | hbehind
    · rw [← hagree _ hbefore (by omega), hbit]
    · rw [hat, (hfirst (by omega)).1] at hbit
      cases hbit
    · obtain ⟨hfalse, htrue⟩ := hfirst (by omega)
      -- the first difference is behind the bits that are skipped, and one of those that are read before
      have hge : skip ≤ d := by
        by_contra hskipped
        have hbits := hshare d (by omega)
        rw [hfalse, htrue] at hbits
        cases hbits
      have hearlier := hsame (d - skip) (by omega)
      rw [Nat.add_sub_cancel' hge, Nat.mod_eq_of_lt (by omega), hfalse, htrue] at hearlier
      cases hearlier
  · rw [heq]

end Order

/-- The loop has broken off, or it has read bits of the key only. -/
def Route.Inside (r : Route) (key : KeyInMemory) : Prop :=
  r.tooShort = true ∨ ∀ i ∈ r.reads, i < 8 * key.data.length

/-- What is asked of the routes of two keys to one of `count` places. -/
structure Routed (count skip : Nat) (key key' : KeyInMemory) (r r' : Route) : Prop where
  inside : r.Inside key ∧ r'.Inside key'
  lt : (r.tooShort = false → r.index < count) ∧ (r'.tooShort = false → r'.index < count)
  mono : r.tooShort = false → r'.tooShort = false → (∀ i < skip, keyBit key.data i = keyBit key'.data i) →
    key.data ≤ key'.data → r.index ≤ r'.index

/-- The bits for the partition are bits of the key, or the last of them is more than a byte behind it. -/
def Partition.Fits (p : Partition) (size : Nat) : Prop :=
  p.partitionBits = 0 ∨ p.skipBits + p.partitionBits ≤ 8 * size ∨
    8 * size + 8 < p.skipBits + p.partitionBits ∧ size < 2 ^ 61 - 1 ∨ 2 ^ 61 ≤ size

/-- The bits for the bucket do not end just one bit behind the key. -/
def BucketingIndex.Fits (ix : BucketingIndex) : Prop :=
  ix.bucketBits = 0 ∨ ix.skipBits + ix.bucketBits ≠ 8 * ix.keyLen + 1 ∨ 2 ^ 61 ≤ ix.keyLen

section Routes

variable {tooShort tooShort' : Nat → Bool} {key key' : KeyInMemory} {n skip : Nat} {p : Partition}
  {ix : BucketingIndex}

theorem inside_iff : (routeLoop tooShort key skip n 0 0).Inside key ↔
    (∃ c < n, tooShort ((skip + c) % 2 ^ 64) = true) ∨ ∀ c < n, (skip + c) % 2 ^ 64 < 8 * key.data.length := by
  have hshort : (routeLoop tooShort key skip n 0 0).tooShort = true ↔
      ∃ b, 0 ≤ b ∧ b < 0 + n ∧ tooShort ((skip + b) % 2 ^ 64) = true := routeLoop_tooShort
  simp only [Nat.zero_le, true_and, Nat.zero_add] at hshort
  rw [Route.Inside, hshort]
  refine or_congr_right' fun hnot => ?_
  rw [routeLoop_reads (Bool.eq_false_iff.mpr fun h => hnot (hshort.mp h)), ← List.range_eq_range']
  simp only [List.forall_mem_map, List.mem_range]

/-- Routes that stay in their keys are routes to one of the places, in the order of the keys. -/
theorem routed_iff (hn : n < 64) (hskip : skip < 2 ^ 64) :
    Routed (2 ^ n) skip key key' (routeLoop tooShort key skip n 0 0) (routeLoop tooShort' key' skip n 0 0) ↔
      (routeLoop tooShort key skip n 0 0).Inside key ∧ (routeLoop tooShort' key' skip n 0 0).Inside key' := by
  constructor
  · exact Routed.inside
  · intro hinside
    refine ⟨hinside, ⟨routeLoop_lt hn, routeLoop_lt hn⟩, fun h h' hshare hle => ?_⟩
    have hread : ∀ {tooShort : Nat → Bool} {key : KeyInMemory},
        (routeLoop tooShort key skip n 0 0).tooShort = false →
        (routeLoop tooShort key skip n 0 0).Inside key →
        ∀ c < n, (skip + c) % 2 ^ 64 < 8 * key.data.length := by
      intro tooShort key h hin c hc
      refine (hin.resolve_left (Bool.eq_false_iff.mp h)) _ ?_
      rw [routeLoop_reads h, ← List.range_eq_range']
      exact List.mem_map.mpr ⟨c, List.mem_range.mpr hc, rfl⟩
    exact routeLoop_le hn hskip h h' (hread h hinside.1) (hread h' hinside.2) hshare hle

theorem Partition.inside_iff_fits (hskip : p.skipBits < 2 ^ 64) (key : KeyInMemory) :
    (p.getPartition key).Inside key ↔ p.Fits key.data.length := by
  rw [Partition.getPartition, inside_iff, Partition.Fits]
  simp only [decide_eq_true_iff]
  by_cases h0 : p.partitionBits = 0
  · exact iff_of_true (.inr fun c hc => by omega) (.inl h0)
  by_cases hbig : 2 ^ 61 ≤ key.data.length
  · exact iff_of_true (.inr fun c _ => by omega) (.inr (.inr (.inr hbig)))
  by_cases hin : p.skipBits + p.partitionBits ≤ 8 * key.data.length
  · refine iff_of_true (.inr fun c hc => ?_) (.inr (.inl hin))
    rw [Nat.mod_eq_of_lt (by omega)]
    omega
  by_cases hfar : 8 * key.data.length + 8 < p.skipBits + p.partitionBits ∧ key.data.length < 2 ^ 61 - 1
  · -- the guard holds in the first round, or at the first bit that is a whole byte behind the key
    refine iff_of_true (.inl ⟨8 * key.data.length + 8 - p.skipBits, by omega, ?_⟩) (.inr (.inr (.inl hfar)))
    rcases Nat.le_total p.skipBits (8 * key.data.length + 8) with hle | hle
    · rw [Nat.add_sub_cancel' hle, Nat.mod_eq_of_lt (by omega)]
      omega
    · rw [Nat.sub_eq_zero_of_le hle, Nat.add_zero, Nat.mod_eq_of_lt hskip]
      omega
  · refine iff_of_false ?_ (by omega)
    rintro (⟨c, hc, hshort⟩ | hall)
    · omega
    · -- the first bit behind the key is read
      have hread := hall (8 * key.data.length - p.skipBits) (by omega)
      omega

theorem BucketingIndex.inside_iff_fits (hskip : ix.skipBits < 2 ^ 64) (hkey : key.data.length = ix.keyLen) :
    (ix.findBucketReads key).Inside key ↔ ix.Fits := by
  rw [BucketingIndex.findBucketReads, inside_iff, BucketingIndex.Fits, hkey]
  simp only [decide_eq_true_iff]
  by_cases h0 : ix.bucketBits = 0
  · exact iff_of_true (.inr fun c hc => by omega) (.inl h0)
  by_cases hbig : 2 ^ 61 ≤ ix.keyLen
  · exact iff_of_true (.inr fun c _ => by omega) (.inr (.inr hbig))
  have hlen : ix.keyLen * 8 % 2 ^ 64 = ix.keyLen * 8 := Nat.mod_eq_of_lt (by omega)
  rw [hlen]
  rcases Nat.lt_trichotomy (ix.skipBits + ix.bucketBits) (8 * ix.keyLen + 1) with hin | hat | hfar
  · refine iff_of_true (.inr fun c hc => ?_) (.inr (.inl (by omega)))
    rw [Nat.mod_eq_of_lt (by omega)]
    omega
  · refine iff_of_false ?_ (by omega)
    rintro (⟨c, hc, hshort⟩ | hall)
    · rw [Nat.mod_eq_of_lt (by omega)] at hshort
      omega
    · have hread := hall (ix.bucketBits - 1) (by omega)
      rw [Nat.mod_eq_of_lt (by omega)] at hread
      omega
  · refine iff_of_true (.inl ⟨8 * ix.keyLen + 1 - ix.skipBits, by omega, ?_⟩) (.inr (.inl (by omega)))
    rcases Nat.le_total ix.skipBits (8 * ix.keyLen + 1) with hle | hle
    · rw [Nat.add_sub_cancel' hle, Nat.mod_eq_of_lt (by omega)]
      omega
    · rw [Nat.sub_eq_zero_of_le hle, Nat.add_zero, Nat.mod_eq_of_lt hskip]
      omega

theorem Partition.partitionBitsLoop_lt {partitions shifts bits : Nat}
    (h : partitionBitsLoop partitions shifts bits = some n) : n < bits + shifts := by
  induction shifts generalizing bits with
  | zero => cases h
  | succ shifts ih =>
    rw [partitionBitsLoop] at h
    split at h
    · have := ih h
      omega
    · cases h
      omega

theorem Partition.allocStores_ok {skipBits partitions : Int}
    (h : allocStores skipBits partitions = some (.ok, p)) :
    p.skipBits < 2 ^ 64 ∧ p.partitionBits < 32 ∧ p.partitions = 2 ^ p.partitionBits := by
  simp only [allocStores, Option.map_eq_some_iff] at h
  obtain ⟨bits, hbits, h⟩ := h
  have hlt := partitionBitsLoop_lt hbits
  split at h
  · cases h
  · split at h
    · cases h
    · rename_i hpow
      cases h
      exact ⟨by dsimp only; omega, by simpa only [Nat.zero_add] using hlt, (not_not.mp hpow).symm⟩

/-- Inside the key the bits read are those that the model of the index takes. -/
theorem BucketingIndex.findBucket_eq_reads (hbits : ix.bucketBits < 64) (hlen : ix.keyLen < 2 ^ 61)
    (hkey : key.data.length = ix.keyLen)
    (h : ix.skipBits + ix.bucketBits ≤ ix.keyLen * 8) :
    (ix.findBucketReads key).tooShort = false ∧
      ix.findBucket key.data = some (ix.findBucketReads key).index := by
  have hpos : ∀ c < ix.bucketBits, (ix.skipBits + c) % 2 ^ 64 = ix.skipBits + c :=
    fun c hc => Nat.mod_eq_of_lt (by omega)
  have hshort : (ix.findBucketReads key).tooShort = false := by
    rw [Bool.eq_false_iff, findBucketReads]
    intro htrue
    obtain ⟨c, -, hc, hguard⟩ := routeLoop_tooShort.mp htrue
    rw [hpos c (by omega), decide_eq_true_iff] at hguard
    omega
  refine ⟨hshort, ?_⟩
  have hinside : ∀ c < ix.bucketBits, (ix.skipBits + c) % 2 ^ 64 < 8 * key.data.length := by
    intro c hc
    rw [hpos c hc]
    omega
  rw [findBucket_eq h, findBucketReads, routeLoop_index_inside hbits hshort hinside]
  refine congrArg (fun l => some (readBe l)) (List.map_congr_left fun c hc => ?_)
  rw [hpos c (List.mem_range.mp hc)]

/-- For every configuration that is accepted and every two keys; of an index, the numbers of bits are `size_t`
and the number of buckets is one. -/
theorem keyRouting_iff {skipBits partitions : Int}
    (hp : Partition.allocStores skipBits partitions = some (.ok, p)) (key key' : KeyInMemory)
    (ix : BucketingIndex) (hskip : ix.skipBits < 2 ^ 64) (hbits : ix.bucketBits < 64)
    (bucketKey bucketKey' : KeyInMemory) (hkey : bucketKey.data.length = ix.keyLen)
    (hkey' : bucketKey'.data.length = ix.keyLen) :
    (Routed p.partitions p.skipBits key key' (p.getPartition key) (p.getPartition key') ↔
      p.Fits key.data.length ∧ p.Fits key'.data.length) ∧
    (Routed ix.bucketCount ix.skipBits bucketKey bucketKey' (ix.findBucketReads bucketKey)
      (ix.findBucketReads bucketKey') ↔ ix.Fits) := by
  obtain ⟨hskipBits, hpartitionBits, hcount⟩ := Partition.allocStores_ok hp
  constructor
  · rw [hcount, Partition.getPartition, Partition.getPartition, routed_iff (by omega) hskipBits]
    exact and_congr (Partition.inside_iff_fits hskipBits key) (Partition.inside_iff_fits hskipBits key')
  · have hboth : (ix.findBucketReads bucketKey).Inside bucketKey ∧
        (ix.findBucketReads bucketKey').Inside bucketKey' ↔ ix.Fits := by
      rw [BucketingIndex.inside_iff_fits hskip hkey, BucketingIndex.inside_iff_fits hskip hkey', and_self_iff]
    exact (routed_iff hbits hskip).trans hboth

theorem keyRouting_iff_byte : Partition.allocStores 0 4 = some (.ok, ⟨0, 4, 2⟩) ∧
    (Routed 4 0 ⟨[0x40], fun _ => true⟩ ⟨[0xC0], fun _ => true⟩
      (Partition.getPartition ⟨0, 4, 2⟩ ⟨[0x40], fun _ => true⟩)
      (Partition.getPartition ⟨0, 4, 2⟩ ⟨[0xC0], fun _ => true⟩) ↔
      Partition.Fits ⟨0, 4, 2⟩ 1 ∧ Partition.Fits ⟨0, 4, 2⟩ 1) := by
  have hp : Partition.allocStores 0 4 = some (.ok, ⟨0, 4, 2⟩) := rfl
  have hskip : (BucketingIndex.create 1 4 1 0 1 0).skipBits < 2 ^ 64 := by simp [BucketingIndex.create]
  have hbits : (BucketingIndex.create 1 4 1 0 1 0).bucketBits < 64 := by
    simp [BucketingIndex.create, BucketingIndex.bucketBitsLoop]
  exact ⟨hp, (keyRouting_iff hp ⟨[0x40], fun _ => true⟩ ⟨[0xC0], fun _ => true⟩ _ hskip hbits
    ⟨[0x40], fun _ => true⟩ ⟨[0xC0], fun _ => true⟩ rfl rfl).1⟩

/-- Nine bits of a key of one byte: the last one is taken from what lies behind the key. -/
theorem keyRouting_beyond :
    Partition.allocStores 0 512 = some (.ok, ⟨0, 512, 9⟩) ∧
    ¬(Partition.getPartition ⟨0, 512, 9⟩ ⟨[0], fun _ => true⟩).Inside ⟨[0], fun _ => true⟩ ∧
    ¬(BucketingIndex.findBucketReads (.create 1 512 1 0 1 0) ⟨[0], fun _ => true⟩).Inside
      ⟨[0], fun _ => true⟩ := by
  have hbits : (BucketingIndex.create 1 512 1 0 1 0).bucketBits = 9 := by
    simp [BucketingIndex.create, BucketingIndex.bucketBitsLoop]
  have hpartition : Partition.getPartition ⟨0, 512, 9⟩ ⟨[0], fun _ => true⟩ =
      ⟨1, false, [0, 1, 2, 3, 4, 5, 6, 7, 8]⟩ := rfl
  have hbucket : BucketingIndex.findBucketReads (.create 1 512 1 0 1 0) ⟨[0], fun _ => true⟩ =
      ⟨1, false, [0, 1, 2, 3, 4, 5, 6, 7, 8]⟩ := by
    rw [BucketingIndex.findBucketReads, hbits]
    rfl
  have hbeyond : ¬Route.Inside ⟨1, false, [0, 1, 2, 3, 4, 5, 6, 7, 8]⟩ ⟨[0], fun _ => true⟩ := by
    rintro (h | h)
    · cases h
    · exact absurd (h 8 (by decide)) (by decide)
  rw [hpartition, hbucket]
  exact ⟨rfl, hbeyond, hbeyond⟩

end Routes

end FawnKV.Cindex
