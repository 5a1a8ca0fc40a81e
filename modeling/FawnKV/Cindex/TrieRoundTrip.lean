import Mathlib.Data.Nat.Find
import FawnKV.Cindex.Trie

/-! `locate` inverts `encode`: the three recursions agree on which subtrees are coded. -/
namespace FawnKV.Cindex

open BitCode Silt

section KeyOrder

variable {a b : Value}

/-- The first bit in which two keys differ is clear in the first and set in the second. -/
def BitLt (bits : Nat) (a b : Value) : Prop :=
  ∃ d < bits, (∀ i < d, keyBit a i = keyBit b i) ∧ keyBit a d = false ∧ keyBit b d = true

theorem keyBit_cons_add (x : UInt8) (a : Value) (i : Nat) : keyBit (x :: a) (i + 8) = keyBit a i := by
  have hdiv : (i + 8) / 8 = i / 8 + 1 := by omega
  have hmod : (i + 8) % 8 = i % 8 := by omega
  rw [keyBit, keyBit, hdiv, hmod, List.getD_cons_succ]

theorem keyBit_cons_lt (x : UInt8) (a : Value) {i : Nat} (hi : i < 8) :
    keyBit (x :: a) i = x.toNat.testBit (7 - i) := by
  have hdiv : i / 8 = 0 := by omega
  have hmod : i % 8 = i := by omega
  rw [keyBit, hdiv, hmod, List.getD_cons_zero]

/-- The highest bit in which two bytes differ decides their order. -/
theorem byte_bit_lt {x y : UInt8} (h : x < y) :
    ∃ i < 8, (∀ j < i, x.toNat.testBit (7 - j) = y.toNat.testBit (7 - j)) ∧
      x.toNat.testBit (7 - i) = false ∧ y.toNat.testBit (7 - i) = true := by
  have hlt : x.toNat < y.toNat := UInt8.lt_iff_toNat_lt.mp h
  have hx : ∀ j, 7 < j → x.toNat.testBit j = false := fun j hj =>
    Nat.testBit_lt_two_pow (lt_of_lt_of_le x.toNat_lt (Nat.pow_le_pow_right (by omega) hj))
  have hy : ∀ j, 7 < j → y.toNat.testBit j = false := fun j hj =>
    Nat.testBit_lt_two_pow (lt_of_lt_of_le y.toNat_lt (Nat.pow_le_pow_right (by omega) hj))
  obtain ⟨j, hj⟩ : ∃ j, x.toNat.testBit j ≠ y.toNat.testBit j := by
    by_contra hall
    push Not at hall
    exact absurd (Nat.eq_of_testBit_eq hall) hlt.ne
  have hj7 : j ≤ 7 := by
    by_contra hgt
    exact hj (by rw [hx j (by omega), hy j (by omega)])
  obtain ⟨m, hm7, hmax, habove⟩ : ∃ m ≤ 7, x.toNat.testBit m ≠ y.toNat.testBit m ∧
      ∀ j, m < j → j ≤ 7 → ¬x.toNat.testBit j ≠ y.toNat.testBit j :=
    ⟨Nat.findGreatest (fun j => x.toNat.testBit j ≠ y.toNat.testBit j) 7, Nat.findGreatest_le 7,
      Nat.findGreatest_spec (P := fun j => x.toNat.testBit j ≠ y.toNat.testBit j) hj7 hj,
      fun j hmj h7 => Nat.findGreatest_is_greatest hmj h7⟩
  have hagree : ∀ j, m < j → x.toNat.testBit j = y.toNat.testBit j := by
    intro j hmj
    by_cases h7 : j ≤ 7
    · exact not_ne_iff.mp (habove j hmj h7)
    · rw [hx j (by omega), hy j (by omega)]
  refine ⟨7 - m, by omega, fun j hj => hagree _ (by omega), ?_⟩
  rw [show 7 - (7 - m) = m by omega]
  cases hxm : x.toNat.testBit m with
  | true =>
    have hym : y.toNat.testBit m = false := by
      cases hym : y.toNat.testBit m with
      | true => exact absurd (hxm.trans hym.symm) hmax
      | false => rfl
    exact absurd (Nat.lt_of_testBit m hym hxm fun j hj => (hagree j hj).symm) (by omega)
  | false =>
    refine ⟨rfl, ?_⟩
    cases hym : y.toNat.testBit m with
    | true => rfl
    | false => exact absurd (hxm.trans hym.symm) hmax

/-- On keys of one length the order of the bytes is the order of the bits. -/
theorem bitLt_of_lt (hlen : a.length = b.length) (h : a < b) : BitLt (a.length * 8) a b := by
  induction a generalizing b with
  | nil =>
    cases b with
    | nil => exact absurd h (lt_irrefl _)
    | cons y b => simp at hlen
  | cons x a ih =>
    cases b with
    | nil => simp at hlen
    | cons y b =>
      rcases List.cons_lt_cons_iff.mp h with hxy | ⟨rfl, hab⟩
      · obtain ⟨i, hi, hagree, hx, hy⟩ := byte_bit_lt hxy
        refine ⟨i, by rw [List.length_cons]; omega, fun j hj => ?_, ?_, ?_⟩
        · rw [keyBit_cons_lt x a (by omega), keyBit_cons_lt y b (by omega)]
          exact hagree j hj
        · rw [keyBit_cons_lt x a hi]
          exact hx
        · rw [keyBit_cons_lt y b hi]
          exact hy
      · obtain ⟨d, hd, hagree, ha, hb⟩ := ih (by simpa using hlen) hab
        refine ⟨d + 8, by rw [List.length_cons]; omega, fun i hi => ?_, ?_, ?_⟩
        · by_cases h8 : i < 8
          · rw [keyBit_cons_lt x a h8, keyBit_cons_lt x b h8]
          · obtain ⟨j, rfl⟩ : ∃ j, i = j + 8 := ⟨i - 8, by omega⟩
            rw [keyBit_cons_add, keyBit_cons_add]
            exact hagree j (by omega)
        · rw [keyBit_cons_add]
          exact ha
        · rw [keyBit_cons_add]
          exact hb

end KeyOrder

namespace Trie

section LeftCode

variable {weakOrdering : Bool} {n left : Nat}

theorem length_frequencies (n v k count : Nat) : (frequencies n v k count).length = count := by
  induction count generalizing v k with
  | zero => rfl
  | succ count ih => simp [frequencies, ih]

/-- The tree of `huff_[n - 2]` has a symbol for every size a left tree can have. -/
theorem huff_spec (weakOrdering : Bool) (hn : 2 ≤ n) :
    ∃ t, huff weakOrdering n = some t ∧ Wellformed t ∧
      t.numSymbols = if weakOrdering then n else n + 1 := by
  cases weakOrdering with
  | true =>
    have hlen : (2 :: frequencies n 1 1 (n - 1)).length = n := by
      rw [List.length_cons, length_frequencies]
      omega
    obtain ⟨t, ht, hsym, hwf⟩ := generate_wellformed (2 :: frequencies n 1 1 (n - 1)) (by omega)
    exact ⟨t, ht, hwf, by simp [hsym, hlen]⟩
  | false =>
    have hlen : (1 :: frequencies n 1 1 n).length = n + 1 := by
      rw [List.length_cons, length_frequencies]
    obtain ⟨t, ht, hsym, hwf⟩ := generate_wellformed (1 :: frequencies n 1 1 n) (by omega)
    exact ⟨t, ht, hwf, by simp [hsym, hlen]⟩

/-- The size of a left tree is read back from its code. -/
theorem exists_leftCode (hn : 2 ≤ n) (hlt : n < 2 ^ 63) (hleft : left ≤ n)
    (hweak : weakOrdering = true → left < n) :
    ∃ code, (∀ buf, encodeLeft weakOrdering buf n left = some (buf ++ code)) ∧
      Reads (decodeLeft weakOrdering n) code left := by
  by_cases hlimit : n ≤ huffmanCodingLimit
  · obtain ⟨t, ht, hwf, hsym⟩ := huff_spec weakOrdering hn
    have hs : left < t.numSymbols := by
      rw [hsym]
      split
      · exact hweak ‹_›
      · omega
    obtain ⟨code, -, henc, hdec⟩ := hwf.encode_decode hs
    refine ⟨code, fun buf => ?_, fun pre post => ?_⟩
    · rw [encodeLeft, if_pos hlimit, ht]
      exact henc buf
    · rw [decodeLeft, if_pos hlimit, ht]
      exact hdec pre post
  · -- the difference to n / 2 is never the least negative word
    generalize hv : (left + 2 ^ 64 - n / 2) % 2 ^ 64 = v
    have hvlt : v < 2 ^ 64 := by omega
    have hword := SignInterleave.encode_lt v
    have hcode := SignInterleave.encode_add_one_lt hvlt (by omega)
    have hm : SignInterleave.encode v / 2 ^ 0 + 1 < 2 ^ 64 := by simpa using hcode
    refine ⟨ExpGolomb.code 0 (SignInterleave.encode v), fun buf => ?_, fun pre post => ?_⟩
    · rw [encodeLeft, if_neg hlimit, hv]
      exact ExpGolomb.encode_eq buf hm
    · rw [decodeLeft, if_neg hlimit, ExpGolomb.decode_reads (by omega) hword hm pre post]
      have hback := SignInterleave.decode_encode hvlt
      simp only [Option.map_some, hback, Option.some.injEq, Prod.mk.injEq, and_true]
      omega

end LeftCode

section Split

variable {arr : List Value} {bits off n depth : Nat} {weakOrdering : Bool}

/-- The keys of a segment agree on their first `depth` bits. -/
def Agree (arr : List Value) (off n depth : Nat) : Prop :=
  ∀ i < n, ∀ j < n, ∀ b < depth,
    keyBit (arr.getD (off + i) []) b = keyBit (arr.getD (off + j) []) b

/-- The keys of the array increase in the order of their first `bits` bits. -/
def BitSorted (bits : Nat) (arr : List Value) : Prop :=
  ∀ i j, i < j → j < arr.length → BitLt bits (arr.getD i []) (arr.getD j [])

/-- Two keys of a segment differ first at `depth` or later. -/
theorem exists_split (hs : BitSorted bits arr) (ha : Agree arr off n depth)
    (hn : off + n ≤ arr.length) {i j : Nat} (hij : i < j) (hj : j < n) :
    ∃ d < bits, depth ≤ d ∧
      (∀ b < d, keyBit (arr.getD (off + i) []) b = keyBit (arr.getD (off + j) []) b) ∧
      keyBit (arr.getD (off + i) []) d = false ∧ keyBit (arr.getD (off + j) []) d = true := by
  obtain ⟨d, hd, hagree, hi, hj'⟩ := hs (off + i) (off + j) (by omega) (by omega)
  refine ⟨d, hd, ?_, hagree, hi, hj'⟩
  by_contra hlt
  have := ha i (by omega) j hj d (by omega)
  rw [hi, hj'] at this
  cases this

theorem depth_lt (hs : BitSorted bits arr) (ha : Agree arr off n depth)
    (hn : off + n ≤ arr.length) (htwo : 2 ≤ n) : depth < bits := by
  obtain ⟨d, hd, hle, -⟩ := exists_split hs ha hn (i := 0) (j := 1) (by omega) (by omega)
  omega

theorem countLeft_le (arr : List Value) (off n depth : Nat) : countLeft arr off n depth ≤ n := by
  have hle : countLeft arr off n depth ≤ (List.range n).length := List.findIdx_le_length
  simpa using hle

theorem keyBit_of_lt_countLeft {i : Nat} (hi : i < countLeft arr off n depth) :
    keyBit (arr.getD (off + i) []) depth = false := by
  have hin : i < (List.range n).length := by
    have := countLeft_le arr off n depth
    simp only [List.length_range]
    omega
  have := List.not_of_lt_findIdx hi
  simpa using this

/-- Behind the first key with the bit set every key has it set, as the keys increase. -/
theorem keyBit_of_countLeft_le (hs : BitSorted bits arr) (ha : Agree arr off n depth)
    (hn : off + n ≤ arr.length) {i : Nat} (hi : i < n) (hle : countLeft arr off n depth ≤ i) :
    keyBit (arr.getD (off + i) []) depth = true := by
  have hlt : countLeft arr off n depth < (List.range n).length := by
    simp only [List.length_range]
    omega
  have hfirst : keyBit (arr.getD (off + countLeft arr off n depth) []) depth = true := by
    have := List.findIdx_getElem (w := hlt)
    simpa [countLeft] using this
  rcases Nat.lt_or_eq_of_le hle with hlt | heq
  · obtain ⟨d, -, hd, hagree, hfalse, htrue⟩ := exists_split hs ha hn hlt hi
    rcases Nat.lt_or_eq_of_le hd with hdd | rfl
    · rw [← hagree depth hdd]
      exact hfirst
    · exact htrue
  · rw [← heq]
    exact hfirst

/-- What `locate` decides at a node: whether the key belongs to the left tree. -/
def goesLeft (weakOrdering : Bool) (left : Nat) (key : Value) (depth : Nat) : Bool :=
  !keyBit key depth && (!weakOrdering || (weakOrdering && left != 0))

/-- The split of a segment: both parts agree on one more bit, and `locate` sends a key of the
segment to the part it is in. -/
theorem leftSize_spec (hs : BitSorted bits arr) (ha : Agree arr off n depth)
    (hn : off + n ≤ arr.length) (htwo : 2 ≤ n) (weakOrdering : Bool) :
    leftSize weakOrdering arr off n depth ≤ n ∧
    (weakOrdering = true → leftSize weakOrdering arr off n depth < n) ∧
    Agree arr off (leftSize weakOrdering arr off n depth) (depth + 1) ∧
    Agree arr (off + leftSize weakOrdering arr off n depth)
      (n - leftSize weakOrdering arr off n depth) (depth + 1) ∧
    ∀ i < n, goesLeft weakOrdering (leftSize weakOrdering arr off n depth)
      (arr.getD (off + i) []) depth = decide (i < leftSize weakOrdering arr off n depth) := by
  have hle := countLeft_le arr off n depth
  have hfalse : ∀ i < countLeft arr off n depth, keyBit (arr.getD (off + i) []) depth = false :=
    fun i hi => keyBit_of_lt_countLeft hi
  have htrue : ∀ i < n, countLeft arr off n depth ≤ i →
      keyBit (arr.getD (off + i) []) depth = true :=
    fun i hi hge => keyBit_of_countLeft_le hs ha hn hi hge
  have hpart : ∀ (start len : Nat) (bit : Bool), start + len ≤ n →
      (∀ i, start ≤ i → i < start + len → keyBit (arr.getD (off + i) []) depth = bit) →
      Agree arr (off + start) len (depth + 1) := by
    intro start len bit hlen hbit i hi j hj b hb
    rw [Nat.add_assoc, Nat.add_assoc]
    rcases Nat.lt_succ_iff_lt_or_eq.mp hb with hb | rfl
    · exact ha (start + i) (by omega) (start + j) (by omega) b hb
    · rw [hbit (start + i) (by omega) (by omega), hbit (start + j) (by omega) (by omega)]
  by_cases hall : weakOrdering = true ∧ countLeft arr off n depth = n
  · -- all keys have a zero bit, and weak ordering puts them to the right
    have hleft : leftSize weakOrdering arr off n depth = 0 := by simp [leftSize, hall.1, hall.2]
    rw [hleft]
    refine ⟨by omega, fun _ => by omega, ?_, ?_, ?_⟩
    · intro i hi
      omega
    · exact hpart 0 n false (by omega) fun i _ hi => hfalse i (by omega)
    · intro i hi
      simp [goesLeft, hall.1]
  · have hleft : leftSize weakOrdering arr off n depth = countLeft arr off n depth := by
      rw [leftSize, if_neg]
      simpa using hall
    rw [hleft]
    refine ⟨hle, fun hw => ?_, ?_, ?_, ?_⟩
    · have : countLeft arr off n depth ≠ n := fun h => hall ⟨hw, h⟩
      omega
    · exact hpart 0 _ false (by omega) fun i _ hi => hfalse i (by omega)
    · exact hpart _ _ true (by omega) fun i hge hi => htrue i (by omega) hge
    · intro i hi
      by_cases hlt : i < countLeft arr off n depth
      · have hne : countLeft arr off n depth ≠ 0 := by omega
        rw [goesLeft, hfalse i hlt]
        simp [hlt, hne]
      · rw [goesLeft, htrue i hi (by omega)]
        simp [hlt]

end Split

section Coded

variable {weakOrdering : Bool} {keyLen destBase destKeysPerBlock : Nat} {arr : List Value}
  {off n depth : Nat}

/-- What the three recursions make of a segment: `encode` appends `code`; `skip` walks over it;
`locate` of any key stays inside it, and for a key of the segment it returns a key at or before it, of
the same destination block where the numbers do not wrap. -/
structure Coded (weakOrdering : Bool) (keyLen destBase destKeysPerBlock : Nat) (arr : List Value)
    (off n depth : Nat) (code : Bits) : Prop where
  encode : ∀ buf, encodeRec weakOrdering keyLen destBase destKeysPerBlock arr buf off n depth =
    some (buf ++ code)
  skip : ∀ pre post, skipRec weakOrdering keyLen destBase destKeysPerBlock (pre ++ code ++ post)
    pre.length off n depth = some (pre.length + code.length)
  inside : ∀ key pre post, ∃ r iter, locateRec weakOrdering keyLen destBase destKeysPerBlock
    (pre ++ code ++ post) key pre.length off n depth = some (r, iter) ∧
    r ≤ n ∧ pre.length ≤ iter ∧ iter ≤ pre.length + code.length
  found : ∀ i < n, ∀ pre post, ∃ j iter,
    locateRec weakOrdering keyLen destBase destKeysPerBlock (pre ++ code ++ post)
      (arr.getD (off + i) []) pre.length off n depth = some (j, iter) ∧ j ≤ i ∧
    (destKeysPerBlock = 1 → j = i) ∧
    (destBase + off + n ≤ 2 ^ 64 →
      (destBase + off + j) / destKeysPerBlock = (destBase + off + i) / destKeysPerBlock)

theorem coded_small (h : n ≤ 1) :
    Coded weakOrdering keyLen destBase destKeysPerBlock arr off n depth [] := by
  constructor
  · intro buf
    rw [encodeRec, if_pos h, List.append_nil]
  · intro pre post
    rw [skipRec, if_pos h]
    simp
  · intro key pre post
    exact ⟨0, pre.length, by rw [locateRec, if_pos h], by omega, by omega, by simp⟩
  · intro i hi pre post
    have h0 : i = 0 := by omega
    subst h0
    exact ⟨0, pre.length, by rw [locateRec, if_pos h], by omega, fun _ => rfl, fun _ => rfl⟩

theorem coded_oneBlock (h1 : ¬n ≤ 1) (h : oneBlock destBase destKeysPerBlock off n = true) :
    Coded weakOrdering keyLen destBase destKeysPerBlock arr off n depth [] := by
  constructor
  · intro buf
    rw [encodeRec, if_neg h1, if_pos h, List.append_nil]
  · intro pre post
    rw [skipRec, if_neg h1, if_pos h]
    simp
  · intro key pre post
    exact ⟨0, pre.length, by rw [locateRec, if_neg h1, if_pos h], by omega, by omega, by simp⟩
  · intro i hi pre post
    have hlocate : locateRec weakOrdering keyLen destBase destKeysPerBlock (pre ++ [] ++ post)
        (arr.getD (off + i) []) pre.length off n depth = some (0, pre.length) := by
      rw [locateRec, if_neg h1, if_pos h]
    simp only [oneBlock, Bool.and_eq_true, decide_eq_true_eq, beq_iff_eq] at h
    refine ⟨0, pre.length, hlocate, by omega, fun hone => absurd (hone ▸ h.1) h1, fun hwrap => ?_⟩
    have hfirst : (destBase + off) % 2 ^ 64 = destBase + off := Nat.mod_eq_of_lt (by omega)
    have hlast : (destBase + off + n - 1) % 2 ^ 64 = destBase + off + n - 1 :=
      Nat.mod_eq_of_lt (by omega)
    rw [hfirst, hlast] at h
    have hlow : (destBase + off) / destKeysPerBlock ≤ (destBase + off + i) / destKeysPerBlock :=
      Nat.div_le_div_right (by omega)
    have hhigh : (destBase + off + i) / destKeysPerBlock ≤
        (destBase + off + n - 1) / destKeysPerBlock := Nat.div_le_div_right (by omega)
    rw [Nat.add_zero]
    omega

/-- A node: the code of the left size, then the codes of the two parts. -/
theorem coded_node {left : Nat} {c₀ c₁ c₂ : Bits} (h1 : ¬n ≤ 1)
    (h2 : ¬oneBlock destBase destKeysPerBlock off n = true) (h3 : depth < keyLen * 8)
    (hsize : leftSize weakOrdering arr off n depth = left) (hleft : left ≤ n)
    (hgoes : ∀ i < n, goesLeft weakOrdering left (arr.getD (off + i) []) depth = decide (i < left))
    (henc : ∀ buf, encodeLeft weakOrdering buf n left = some (buf ++ c₀))
    (hdec : Reads (decodeLeft weakOrdering n) c₀ left)
    (hc₁ : Coded weakOrdering keyLen destBase destKeysPerBlock arr off left (depth + 1) c₁)
    (hc₂ : Coded weakOrdering keyLen destBase destKeysPerBlock arr (off + left) (n - left)
      (depth + 1) c₂) :
    Coded weakOrdering keyLen destBase destKeysPerBlock arr off n depth (c₀ ++ c₁ ++ c₂) := by
  have hbuf₀ : ∀ pre post : Bits, pre ++ (c₀ ++ c₁ ++ c₂) ++ post = pre ++ c₀ ++ (c₁ ++ c₂ ++ post) := by
    intro pre post
    simp
  have hbuf₁ : ∀ pre post : Bits,
      pre ++ (c₀ ++ c₁ ++ c₂) ++ post = (pre ++ c₀) ++ c₁ ++ (c₂ ++ post) := by
    intro pre post
    simp
  have hbuf₂ : ∀ pre post : Bits,
      pre ++ (c₀ ++ c₁ ++ c₂) ++ post = (pre ++ c₀ ++ c₁) ++ c₂ ++ post := by
    intro pre post
    simp
  have hread : ∀ pre post : Bits, decodeLeft weakOrdering n (pre ++ (c₀ ++ c₁ ++ c₂) ++ post)
      pre.length = some (left, (pre ++ c₀).length) := by
    intro pre post
    rw [hbuf₀, hdec, List.length_append]
  have hskip : ∀ pre post : Bits, skipRec weakOrdering keyLen destBase destKeysPerBlock
      (pre ++ (c₀ ++ c₁ ++ c₂) ++ post) (pre ++ c₀).length off left (depth + 1) =
      some (pre ++ c₀ ++ c₁).length := by
    intro pre post
    rw [hbuf₁, hc₁.skip, ← List.length_append]
  have hlocate : ∀ key pre post, locateRec weakOrdering keyLen destBase destKeysPerBlock
      (pre ++ (c₀ ++ c₁ ++ c₂) ++ post) key pre.length off n depth =
      if goesLeft weakOrdering left key depth then
        locateRec weakOrdering keyLen destBase destKeysPerBlock
          ((pre ++ c₀) ++ c₁ ++ (c₂ ++ post)) key (pre ++ c₀).length off left (depth + 1)
      else
        (locateRec weakOrdering keyLen destBase destKeysPerBlock
          ((pre ++ c₀ ++ c₁) ++ c₂ ++ post) key (pre ++ c₀ ++ c₁).length (off + left) (n - left)
          (depth + 1)).map fun p => (left + p.1, p.2) := by
    intro key pre post
    rw [locateRec, if_neg h1, if_neg h2, if_pos h3, hread]
    simp only [Option.bind_some, if_pos hleft, hskip]
    rw [← hbuf₁, ← hbuf₂]
    rfl
  constructor
  · intro buf
    rw [encodeRec, if_neg h1, if_neg h2, if_pos h3, hsize]
    simp only [henc, Option.bind_some, hc₁.encode, hc₂.encode, List.append_assoc]
  · intro pre post
    rw [skipRec, if_neg h1, if_neg h2, if_pos h3, hread]
    simp only [Option.bind_some, if_pos hleft, hskip]
    rw [hbuf₂, hc₂.skip]
    simp only [List.length_append, Nat.add_assoc]
  · intro key pre post
    rw [hlocate]
    split
    · obtain ⟨r, iter, heq, hr, hlow, hhigh⟩ := hc₁.inside key (pre ++ c₀) (c₂ ++ post)
      simp only [List.length_append] at hlow hhigh ⊢
      exact ⟨r, iter, by simpa using heq, by omega, by omega, by omega⟩
    · obtain ⟨r, iter, heq, hr, hlow, hhigh⟩ := hc₂.inside key (pre ++ c₀ ++ c₁) post
      rw [heq]
      simp only [List.length_append] at hlow hhigh ⊢
      exact ⟨left + r, iter, rfl, by omega, by omega, by omega⟩
  · intro i hi pre post
    rw [hlocate, hgoes i hi]
    by_cases hlt : i < left
    · obtain ⟨j, iter, heq, hj, hone, hblock⟩ := hc₁.found i hlt (pre ++ c₀) (c₂ ++ post)
      rw [if_pos (by simpa using hlt)]
      exact ⟨j, iter, heq, hj, hone, fun hwrap => hblock (by omega)⟩
    · obtain ⟨j, iter, heq, hj, hone, hblock⟩ :=
        hc₂.found (i - left) (by omega) (pre ++ c₀ ++ c₁) post
      rw [show off + left + (i - left) = off + i by omega] at heq
      rw [if_neg (by simpa using hlt), heq]
      refine ⟨left + j, iter, rfl, by omega, fun h => by rw [hone h]; omega, fun hwrap => ?_⟩
      rw [show destBase + off + (left + j) = destBase + (off + left) + j by omega, hblock (by omega)]
      congr 1
      omega

/-- Every segment of increasing keys is coded. -/
theorem exists_coded (weakOrdering : Bool) (destBase destKeysPerBlock : Nat)
    (hs : BitSorted (keyLen * 8) arr) (hlen : arr.length < 2 ^ 63) (k : Nat) :
    ∀ off n depth, keyLen * 8 - depth ≤ k → Agree arr off n depth → off + n ≤ arr.length →
      ∃ code, Coded weakOrdering keyLen destBase destKeysPerBlock arr off n depth code := by
  -- induction on the bits below the segment; a segment of two keys has at least one
  induction k with
  | zero =>
    intro off n depth hk ha hn
    by_cases h1 : n ≤ 1
    · exact ⟨[], coded_small h1⟩
    · have := depth_lt hs ha hn (by omega)
      omega
  | succ k ih =>
    intro off n depth hk ha hn
    by_cases h1 : n ≤ 1
    · exact ⟨[], coded_small h1⟩
    · by_cases h2 : oneBlock destBase destKeysPerBlock off n = true
      · exact ⟨[], coded_oneBlock h1 h2⟩
      · have h3 := depth_lt hs ha hn (by omega)
        obtain ⟨hleft, hweak, hal, har, hgoes⟩ := leftSize_spec hs ha hn (by omega) weakOrdering
        generalize hsize : leftSize weakOrdering arr off n depth = left at *
        obtain ⟨c₀, henc, hdec⟩ := exists_leftCode (by omega) (by omega) hleft hweak
        obtain ⟨c₁, hc₁⟩ := ih off left (depth + 1) (by omega) hal (by omega)
        obtain ⟨c₂, hc₂⟩ := ih (off + left) (n - left) (depth + 1) (by omega) har (by omega)
        exact ⟨_, coded_node h1 h2 h3 hsize hleft hgoes henc hdec hc₁ hc₂⟩

end Coded

section RoundTrip

variable {weakOrdering : Bool} {keys : List Value} {keyLen skipBits destBase destKeysPerBlock : Nat}

/-- `encode` appends `code` without a failed assertion; started at its first bit, `locate` of
any key returns a location of at most `n` and leaves the iterator inside it. -/
structure EncodedAs (weakOrdering : Bool) (keys : List Value)
    (keyLen skipBits destBase destKeysPerBlock : Nat) (code : Bits) : Prop where
  encode : ∀ pre, Trie.encode weakOrdering pre keys keyLen 0 keys.length destBase destKeysPerBlock
    skipBits = some (pre ++ code)
  locate : ∀ key pre post, ∃ r iter, Trie.locate weakOrdering (pre ++ code ++ post) pre.length key
    keyLen 0 keys.length destBase destKeysPerBlock skipBits = some (r, iter) ∧
    r ≤ keys.length ∧ pre.length ≤ iter ∧ iter ≤ pre.length + code.length

/-- Locating a key of the array finds one at or before it, and the key itself where a block has one. -/
def LocatesBefore (weakOrdering : Bool) (keys : List Value)
    (keyLen skipBits destBase destKeysPerBlock : Nat) (code : Bits) : Prop :=
  ∀ i (hi : i < keys.length) (pre post : Bits), ∃ j iter, locate weakOrdering (pre ++ code ++ post)
    pre.length keys[i] keyLen 0 keys.length destBase destKeysPerBlock skipBits = some (j, iter) ∧
    j ≤ i ∧ (destKeysPerBlock = 1 → j = i)

/-- Locating a key of the array finds one at or before it in its destination block. -/
def LocatesBlock (weakOrdering : Bool) (keys : List Value)
    (keyLen skipBits destBase destKeysPerBlock : Nat) (code : Bits) : Prop :=
  ∀ i (hi : i < keys.length) (pre post : Bits), ∃ j iter, locate weakOrdering (pre ++ code ++ post)
    pre.length keys[i] keyLen 0 keys.length destBase destKeysPerBlock skipBits = some (j, iter) ∧
    j ≤ i ∧ (destBase + j) / destKeysPerBlock = (destBase + i) / destKeysPerBlock ∧
    (destKeysPerBlock = 1 → j = i)

theorem bitSorted_of_pairwise (hlen : ∀ key ∈ keys, key.length = keyLen)
    (hsorted : keys.Pairwise (· < ·)) : BitSorted (keyLen * 8) keys := by
  intro i j hij hj
  have hi : i < keys.length := by omega
  rw [List.getD_eq_getElem _ _ hi, List.getD_eq_getElem _ _ hj]
  have hleni := hlen _ (List.getElem_mem hi)
  have hlenj := hlen _ (List.getElem_mem hj)
  have := bitLt_of_lt (hleni.trans hlenj.symm) (List.pairwise_iff_getElem.mp hsorted i j hi hj hij)
  rwa [hleni] at this

/-- `locate` inverts `encode` up to the destination block, as long as the numbers of the
destinations do not wrap; that it stays inside the code, and finds no later key, holds for every
`dest_base`. -/
theorem locate_encode (weakOrdering : Bool) (keys : List Value)
    (keyLen skipBits destBase destKeysPerBlock : Nat) (hlen : ∀ key ∈ keys, key.length = keyLen)
    (hsorted : keys.Pairwise (· < ·))
    (hskip : ∀ key ∈ keys, ∀ key' ∈ keys, ∀ b < skipBits, keyBit key b = keyBit key' b)
    (hn : keys.length < 2 ^ 63) :
    ∃ code, EncodedAs weakOrdering keys keyLen skipBits destBase destKeysPerBlock code ∧
      LocatesBefore weakOrdering keys keyLen skipBits destBase destKeysPerBlock code ∧
      (destBase + keys.length ≤ 2 ^ 64 →
        LocatesBlock weakOrdering keys keyLen skipBits destBase destKeysPerBlock code) := by
  have hagree : Agree keys 0 keys.length skipBits := by
    intro i hi j hj b hb
    rw [Nat.zero_add, Nat.zero_add, List.getD_eq_getElem _ _ hi, List.getD_eq_getElem _ _ hj]
    exact hskip _ (List.getElem_mem hi) _ (List.getElem_mem hj) b hb
  obtain ⟨code, hcode⟩ := exists_coded weakOrdering destBase destKeysPerBlock
    (bitSorted_of_pairwise hlen hsorted) hn _ 0 keys.length skipBits (Nat.le_refl _) hagree
    (by omega)
  have hfound : ∀ i (hi : i < keys.length) (pre post : Bits), ∃ j iter, locate weakOrdering
      (pre ++ code ++ post) pre.length keys[i] keyLen 0 keys.length destBase destKeysPerBlock skipBits =
        some (j, iter) ∧ j ≤ i ∧ (destKeysPerBlock = 1 → j = i) ∧ (destBase + keys.length ≤ 2 ^ 64 →
          (destBase + j) / destKeysPerBlock = (destBase + i) / destKeysPerBlock) := by
    intro i hi pre post
    obtain ⟨j, iter, heq, hj, hone, hblock⟩ := hcode.found i hi pre post
    rw [Nat.zero_add, List.getD_eq_getElem _ _ hi] at heq
    exact ⟨j, iter, heq, hj, hone, hblock⟩
  refine ⟨code, ⟨hcode.encode, hcode.inside⟩, fun i hi pre post => ?_, fun hwrap i hi pre post => ?_⟩
  · obtain ⟨j, iter, heq, hj, hone, -⟩ := hfound i hi pre post
    exact ⟨j, iter, heq, hj, hone⟩
  · obtain ⟨j, iter, heq, hj, hone, hblock⟩ := hfound i hi pre post
    exact ⟨j, iter, heq, hj, hblock hwrap, hone⟩

/-- Three keys whose middle one starts a new block of two. -/
theorem locate_encode_three_keys :
    ∃ code, EncodedAs true [[1], [2], [3]] 1 4 5 2 code ∧ LocatesBefore true [[1], [2], [3]] 1 4 5 2 code ∧
      LocatesBlock true [[1], [2], [3]] 1 4 5 2 code := by
  obtain ⟨code, henc, hbefore, hloc⟩ := locate_encode true [[1], [2], [3]] 1 4 5 2 (by decide) (by decide)
    (by decide) (by decide)
  exact ⟨code, henc, hbefore, hloc (by decide)⟩

/-- The last of three destinations wraps to 0, so the three keys look like one block, but the
middle one is alone in its block. -/
theorem locate_encode_wraps :
    ¬∃ code, EncodedAs false [[0], [1], [2]] 1 0 (2 ^ 64 - 2) (2 ^ 64 - 1) code ∧
      LocatesBlock false [[0], [1], [2]] 1 0 (2 ^ 64 - 2) (2 ^ 64 - 1) code := by
  rintro ⟨code, -, hloc⟩
  obtain ⟨j, iter, heq, -, hdiv, -⟩ := hloc 1 (by decide) [] []
  have h0 : some (0, 0) = some (j, iter) := by
    rw [← heq, locate, locateRec, if_neg (by decide), if_pos (by decide)]
    rfl
  cases h0
  revert hdiv
  decide

end RoundTrip

end Trie

end FawnKV.Cindex
