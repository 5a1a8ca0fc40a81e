import Mathlib.Tactic.IntervalCases

/-! `HashUtil::BobHash`: the bytes of a key are read in words, in half words or one by one, as its address
allows. -/
namespace FawnKV.Utils

structure Abc where
  a : UInt32
  b : UInt32
  c : UInt32
deriving DecidableEq, Repr

namespace Abc

def rot (x k : UInt32) : UInt32 := x <<< k ||| x >>> (32 - k)

def mix (s : Abc) : Abc :=
  let ⟨a, b, c⟩ := s
  let a := (a - c) ^^^ rot c 4
  let c := c + b
  let b := (b - a) ^^^ rot a 6
  let a := a + c
  let c := (c - b) ^^^ rot b 8
  let b := b + a
  let a := (a - c) ^^^ rot c 16
  let c := c + b
  let b := (b - a) ^^^ rot a 19
  let a := a + c
  let c := (c - b) ^^^ rot b 4
  let b := b + a
  ⟨a, b, c⟩

def final (s : Abc) : Abc :=
  let ⟨a, b, c⟩ := s
  let c := (c ^^^ b) - rot b 14
  let a := (a ^^^ c) - rot c 11
  let b := (b ^^^ a) - rot a 25
  let c := (c ^^^ b) - rot b 16
  let a := (a ^^^ c) - rot c 4
  let b := (b ^^^ a) - rot a 14
  let c := (c ^^^ b) - rot b 24
  ⟨a, b, c⟩

end Abc

/-- The memory from an address on. -/
abbrev Bytes := Nat → UInt8

namespace Bytes

variable (k : Bytes)

def byte (i : Nat) : UInt32 := (k i).toUInt32

/-- `k[i]` of a machine that stores the lowest byte first, for words of 16 and of 32 bits. -/
def half (i : Nat) : UInt32 := .ofNat ((k (2 * i)).toNat + 2 ^ 8 * (k (2 * i + 1)).toNat)

def word (i : Nat) : UInt32 :=
  .ofNat ((k (4 * i)).toNat + 2 ^ 8 * (k (4 * i + 1)).toNat + 2 ^ 16 * (k (4 * i + 2)).toNat +
    2 ^ 24 * (k (4 * i + 3)).toNat)

def drop (n : Nat) : Bytes := fun i => k (n + i)

end Bytes

/-- How a block of 12 bytes and the last bytes of a key are read. -/
structure Reading where
  block : Bytes → Abc → Abc
  last : Bytes → Nat → Abc → Abc

namespace Reading

def words : Reading where
  block k s := ⟨s.a + k.word 0, s.b + k.word 1, s.c + k.word 2⟩
  last k length s :=
    match length with
    | 12 => ⟨s.a + k.word 0, s.b + k.word 1, s.c + k.word 2⟩
    | 11 => ⟨s.a + k.word 0, s.b + k.word 1, s.c + (k.word 2 &&& 0xffffff)⟩
    | 10 => ⟨s.a + k.word 0, s.b + k.word 1, s.c + (k.word 2 &&& 0xffff)⟩
    | 9 => ⟨s.a + k.word 0, s.b + k.word 1, s.c + (k.word 2 &&& 0xff)⟩
    | 8 => ⟨s.a + k.word 0, s.b + k.word 1, s.c⟩
    | 7 => ⟨s.a + k.word 0, s.b + (k.word 1 &&& 0xffffff), s.c⟩
    | 6 => ⟨s.a + k.word 0, s.b + (k.word 1 &&& 0xffff), s.c⟩
    | 5 => ⟨s.a + k.word 0, s.b + (k.word 1 &&& 0xff), s.c⟩
    | 4 => ⟨s.a + k.word 0, s.b, s.c⟩
    | 3 => ⟨s.a + (k.word 0 &&& 0xffffff), s.b, s.c⟩
    | 2 => ⟨s.a + (k.word 0 &&& 0xffff), s.b, s.c⟩
    | 1 => ⟨s.a + (k.word 0 &&& 0xff), s.b, s.c⟩
    | _ => s

def halves : Reading where
  block k s :=
    ⟨s.a + (k.half 0 + k.half 1 <<< 16), s.b + (k.half 2 + k.half 3 <<< 16),
      s.c + (k.half 4 + k.half 5 <<< 16)⟩
  last k length s :=
    match length with
    | 12 =>
      ⟨s.a + (k.half 0 + k.half 1 <<< 16), s.b + (k.half 2 + k.half 3 <<< 16),
        s.c + (k.half 4 + k.half 5 <<< 16)⟩
    | 11 =>
      ⟨s.a + (k.half 0 + k.half 1 <<< 16), s.b + (k.half 2 + k.half 3 <<< 16),
        s.c + k.byte 10 <<< 16 + k.half 4⟩
    | 10 => ⟨s.a + (k.half 0 + k.half 1 <<< 16), s.b + (k.half 2 + k.half 3 <<< 16), s.c + k.half 4⟩
    | 9 => ⟨s.a + (k.half 0 + k.half 1 <<< 16), s.b + (k.half 2 + k.half 3 <<< 16), s.c + k.byte 8⟩
    | 8 => ⟨s.a + (k.half 0 + k.half 1 <<< 16), s.b + (k.half 2 + k.half 3 <<< 16), s.c⟩
    | 7 => ⟨s.a + (k.half 0 + k.half 1 <<< 16), s.b + k.byte 6 <<< 16 + k.half 2, s.c⟩
    | 6 => ⟨s.a + (k.half 0 + k.half 1 <<< 16), s.b + k.half 2, s.c⟩
    | 5 => ⟨s.a + (k.half 0 + k.half 1 <<< 16), s.b + k.byte 4, s.c⟩
    | 4 => ⟨s.a + (k.half 0 + k.half 1 <<< 16), s.b, s.c⟩
    | 3 => ⟨s.a + k.byte 2 <<< 16 + k.half 0, s.b, s.c⟩
    | 2 => ⟨s.a + k.half 0, s.b, s.c⟩
    | 1 => ⟨s.a + k.byte 0, s.b, s.c⟩
    | _ => s

/-- What the cases add from case `length` on, when each falls through to the next. -/
def addBytes (k : Bytes) : Nat → Abc → Abc
  | 0, s => s
  | i + 1, s =>
    let x := k.byte i <<< UInt32.ofNat (8 * (i % 4))
    addBytes k i (if i < 4 then { s with a := s.a + x } else if i < 8 then { s with b := s.b + x }
      else { s with c := s.c + x })

def bytes : Reading where
  block k s :=
    ⟨s.a + k.byte 0 + k.byte 1 <<< 8 + k.byte 2 <<< 16 + k.byte 3 <<< 24,
      s.b + k.byte 4 + k.byte 5 <<< 8 + k.byte 6 <<< 16 + k.byte 7 <<< 24,
      s.c + k.byte 8 + k.byte 9 <<< 8 + k.byte 10 <<< 16 + k.byte 11 <<< 24⟩
  last := addBytes

end Reading

/-- The branch for an address. -/
def reading (address : Nat) : Reading :=
  if address % 4 = 0 then .words else if address % 2 = 0 then .halves else .bytes

/-- The loop over the blocks, and the last bytes; there are some unless the key is empty. -/
def hashKey (r : Reading) (k : Bytes) (length : Nat) (s : Abc) : Abc :=
  if 12 < length then hashKey r (k.drop 12) (length - 12) (r.block k s).mix
  else if length = 0 then s
  else (r.last k length s).final
termination_by length

def bobHash (address : Nat) (k : Bytes) (length : Nat) (seed : UInt32) : UInt32 :=
  let x := 0xdeadbeef + UInt32.ofNat length + seed
  (hashKey (reading address) k length ⟨x, x, x⟩).c

/-- The function that returns two numbers. -/
def bobHashTwo (address : Nat) (k : Bytes) (length : Nat) (idx1 idx2 : UInt32) : UInt32 × UInt32 :=
  let x := 0xdeadbeef + UInt32.ofNat length + idx1
  let s := hashKey (reading address) k length ⟨x, x, x + idx2⟩
  (s.c, s.b)

theorem ofNat_shift (x : Nat) {m : UInt32} (hm : m.toNat < 32) :
    UInt32.ofNat x <<< m = .ofNat (2 ^ m.toNat * x) := by
  apply UInt32.toNat_inj.mp
  rw [UInt32.toNat_shiftLeft, UInt32.toNat_ofNat', UInt32.toNat_ofNat', Nat.shiftLeft_eq,
    Nat.mod_eq_of_lt hm, Nat.mul_comm, Nat.mul_mod, Nat.mod_mod, ← Nat.mul_mod]

namespace Bytes

/-- `n` bytes from `i` on as a number, the lowest first. -/
def number (k : Bytes) (i : Nat) : Nat → Nat
  | 0 => 0
  | n + 1 => number k i n + 2 ^ (8 * n) * (k (i + n)).toNat

section Number

@[simp]
theorem number_zero (k : Bytes) (i : Nat) : k.number i 0 = 0 :=
  rfl

variable (k : Bytes) (i : Nat)

theorem number_lt (n : Nat) : k.number i n < 2 ^ (8 * n) := by
  induction n with
  | zero => exact Nat.one_pos
  | succ n ih =>
    have hbyte := (k (i + n)).toNat_lt
    have hpow : 2 ^ (8 * (n + 1)) = 2 ^ (8 * n) * 2 ^ 8 := by rw [Nat.mul_succ, Nat.pow_add]
    have hprod : 2 ^ (8 * n) * (k (i + n)).toNat ≤ 2 ^ (8 * n) * (2 ^ 8 - 1) :=
      Nat.mul_le_mul_left _ (by omega)
    rw [number, hpow]
    omega

theorem number_mod {n m : Nat} (h : n ≤ m) : k.number i m % 2 ^ (8 * n) = k.number i n := by
  induction h with
  | refl => exact Nat.mod_eq_of_lt (number_lt k i n)
  | @step m h ih =>
    obtain ⟨d, rfl⟩ := Nat.exists_eq_add_of_le h
    rw [number, Nat.mul_add, Nat.pow_add, Nat.mul_assoc, Nat.add_mul_mod_self_left, ih]

theorem number_congr {k k' : Bytes} {i n : Nat} (h : ∀ j < n, k (i + j) = k' (i + j)) :
    k.number i n = k'.number i n := by
  induction n with
  | zero => rfl
  | succ n ih => rw [number, number, ih (fun j hj => h j (by omega)), h n (by omega)]

theorem byte_eq : k.byte i = .ofNat (k.number i 1) := by
  simp [byte, number]

theorem half_eq : k.half i = .ofNat (k.number (2 * i) 2) := by
  simp [half, number]

theorem word_eq : k.word i = .ofNat (k.number (4 * i) 4) := by
  simp [word, number]

/-- The mask takes away what is read past the end of the key. -/
theorem number_and {m : UInt32} {n : Nat} (hm : m.toNat = 2 ^ (8 * n) - 1) (hn : n ≤ 4) :
    UInt32.ofNat (k.number i 4) &&& m = .ofNat (k.number i n) := by
  have hword := number_lt k i 4
  have hpow : 2 ^ (8 * n) ≤ 2 ^ 32 := Nat.pow_le_pow_right (by decide) (by omega)
  have hnumber := number_lt k i n
  apply UInt32.toNat_inj.mp
  rw [UInt32.toNat_and, UInt32.toNat_ofNat', UInt32.toNat_ofNat', Nat.mod_eq_of_lt hword,
    Nat.mod_eq_of_lt (show _ < 2 ^ 32 by omega), hm, Nat.and_two_pow_sub_one_eq_mod, number_mod k _ hn]

theorem number_add (n m : Nat) :
    k.number i (n + m) = k.number i n + 2 ^ (8 * n) * k.number (i + n) m := by
  induction m with
  | zero => simp
  | succ m ih =>
    rw [← Nat.add_assoc, number, ih, number, Nat.mul_add, Nat.mul_add, Nat.pow_add, Nat.mul_assoc,
      Nat.add_assoc, Nat.add_assoc i]

theorem half_add_half {j : Nat} (hj : j = i + 2) :
    UInt32.ofNat (k.number i 2) + UInt32.ofNat (k.number j 2) <<< 16 = .ofNat (k.number i 4) := by
  subst hj
  rw [ofNat_shift (k.number (i + 2) 2) (m := 16) (by decide), ← UInt32.ofNat_add]
  exact congrArg UInt32.ofNat (number_add k i 2 2).symm

theorem byte_add_half {j : Nat} (hj : j = i + 2) :
    UInt32.ofNat (k.number j 1) <<< 16 + UInt32.ofNat (k.number i 2) = .ofNat (k.number i 3) := by
  subst hj
  rw [ofNat_shift (k.number (i + 2) 1) (m := 16) (by decide), ← UInt32.ofNat_add, Nat.add_comm]
  exact congrArg UInt32.ofNat (number_add k i 2 1).symm

theorem number_add_byte {n : Nat} {m : UInt32} (hm : m.toNat = 8 * n) (hn : n < 4) :
    UInt32.ofNat (k.number i n) + UInt32.ofNat (k.number (i + n) 1) <<< m = .ofNat (k.number i (n + 1)) := by
  rw [ofNat_shift _ (show m.toNat < 32 by omega), ← UInt32.ofNat_add, hm]
  exact congrArg UInt32.ofNat (number_add k i n 1).symm

end Number

end Bytes

namespace Reading

/-- What `n` bytes of a key, 12 at most, add to the state. -/
def addNumbers (k : Bytes) (n : Nat) (s : Abc) : Abc :=
  ⟨s.a + .ofNat (k.number 0 (min n 4)), s.b + .ofNat (k.number 4 (min (n - 4) 4)),
    s.c + .ofNat (k.number 8 (n - 8))⟩

structure ReadsNumbers (r : Reading) : Prop where
  block_eq : ∀ k s, r.block k s = addNumbers k 12 s
  last_eq : ∀ k n s, n ≤ 12 → r.last k n s = addNumbers k n s

open Bytes

theorem words_reads_numbers : words.ReadsNumbers where
  block_eq k s := by
    simp [words, addNumbers, word_eq]
  last_eq k n s hn := by
    have hthree := fun i => number_and k i (m := 0xffffff) (n := 3) (by decide) (by decide)
    have htwo := fun i => number_and k i (m := 0xffff) (n := 2) (by decide) (by decide)
    have hone := fun i => number_and k i (m := 0xff) (n := 1) (by decide) (by decide)
    interval_cases n <;> simp [words, addNumbers, hthree, htwo, hone, word_eq]

theorem halves_reads_numbers : halves.ReadsNumbers where
  block_eq k s := by
    simp [halves, addNumbers, half_add_half, half_eq]
  last_eq k n s hn := by
    interval_cases n <;>
      simp [halves, addNumbers, half_add_half, byte_add_half, byte_eq, half_eq, UInt32.add_assoc]

theorem add_bytes_eq {k : Bytes} {n : Nat} (hn : n ≤ 12) (s : Abc) : addBytes k n s = addNumbers k n s := by
  induction n generalizing s with
  | zero => simp [addBytes, addNumbers]
  | succ n ih =>
    have hshift : (UInt32.ofNat (8 * (n % 4))).toNat = 8 * (n % 4) := by
      rw [UInt32.toNat_ofNat']
      omega
    have hadd (i : Nat) (hi : n = i + n % 4) :
        (byte k n <<< UInt32.ofNat (8 * (n % 4))) + UInt32.ofNat (k.number i (n % 4)) =
          .ofNat (k.number i (n % 4 + 1)) := by
      have h := number_add_byte k i hshift (Nat.mod_lt n (by decide))
      rw [← h, ← hi, byte_eq, UInt32.add_comm]
    have hn' : n < 12 := hn
    rw [addBytes, ih hn'.le]
    interval_cases n <;> simp [addNumbers, ← hadd, UInt32.add_assoc]

theorem bytes_reads_numbers : bytes.ReadsNumbers where
  block_eq k s := by
    have hone := fun i => number_add_byte k i (m := 8) (n := 1) (by decide) (by decide)
    have htwo := fun i => number_add_byte k i (m := 16) (n := 2) (by decide) (by decide)
    have hthree := fun i => number_add_byte k i (m := 24) (n := 3) (by decide) (by decide)
    simp only [bytes, addNumbers, byte_eq]
    simp [← hone, ← htwo, ← hthree, UInt32.add_assoc]
  last_eq k n s hn := add_bytes_eq hn s

theorem reading_reads_numbers (address : Nat) : (reading address).ReadsNumbers := by
  unfold reading
  split
  · exact words_reads_numbers
  · split
    · exact halves_reads_numbers
    · exact bytes_reads_numbers

theorem add_numbers_congr {k k' : Bytes} {n : Nat} (hn : n ≤ 12) (h : ∀ i < n, k i = k' i) (s : Abc) :
    addNumbers k n s = addNumbers k' n s := by
  have ha : k.number 0 (min n 4) = k'.number 0 (min n 4) := number_congr fun j hj => h _ (by omega)
  have hb : k.number 4 (min (n - 4) 4) = k'.number 4 (min (n - 4) 4) :=
    number_congr fun j hj => h _ (by omega)
  have hc : k.number 8 (n - 8) = k'.number 8 (n - 8) := number_congr fun j hj => h _ (by omega)
  rw [addNumbers, ha, hb, hc, ← addNumbers]

end Reading

open Reading

theorem hash_key_congr {r r' : Reading} (hr : r.ReadsNumbers) (hr' : r'.ReadsNumbers) {k k' : Bytes}
    {length : Nat} (h : ∀ i < length, k i = k' i) (s : Abc) :
    hashKey r k length s = hashKey r' k' length s := by
  induction length using Nat.strong_induction_on generalizing k k' s with
  | _ length ih =>
    rw [hashKey.eq_def r k, hashKey.eq_def r' k']
    by_cases hlong : 12 < length
    · have hblock : r.block k s = r'.block k' s := by
        rw [hr.block_eq, hr'.block_eq]
        exact add_numbers_congr le_rfl (fun i hi => h i (by omega)) s
      have hrest : ∀ i < length - 12, k.drop 12 i = k'.drop 12 i := fun i hi => h (12 + i) (by omega)
      rw [if_pos hlong, if_pos hlong, hblock]
      exact ih (length - 12) (by omega) hrest (r'.block k' s).mix
    · have hshort : length ≤ 12 := Nat.le_of_not_lt hlong
      rw [if_neg hlong, if_neg hlong, hr.last_eq k length s hshort, hr'.last_eq k' length s hshort,
        add_numbers_congr hshort h]

/-- The hash is a function of the bytes of the key: neither its address nor what lies after it counts, and
the first of two numbers is the number of the other function. -/
theorem bob_hash_reads_key (address address' : Nat) (k k' : Bytes) (length : Nat) (seed idx2 : UInt32)
    (h : ∀ i < length, k i = k' i) :
    bobHash address k length seed = bobHash address' k' length seed ∧
      bobHashTwo address k length seed idx2 = bobHashTwo address' k' length seed idx2 ∧
      (bobHashTwo address k length seed 0).1 = bobHash address' k' length seed := by
  have hsame := hash_key_congr (reading_reads_numbers address) (reading_reads_numbers address') h
  refine ⟨?_, ?_, ?_⟩
  · rw [bobHash, bobHash, hsame]
  · rw [bobHashTwo, bobHashTwo, hsame]
  · rw [bobHashTwo, bobHash, hsame, UInt32.add_zero]

/-- Three bytes at an even address, with a zero and with other bytes after them. -/
theorem bob_hash_reads_key_three :
    (∀ i < 3, (fun i => if i < 3 then 97 else 0 : Bytes) i = (fun _ => 97 : Bytes) i) ∧
      bobHash 6 (fun i => if i < 3 then 97 else 0) 3 0 = bobHash 8 (fun _ => 97) 3 0 := by
  have hbytes : ∀ i < 3, (fun i => if i < 3 then 97 else 0 : Bytes) i = (fun _ => 97 : Bytes) i :=
    fun i hi => if_pos hi
  exact ⟨hbytes, (bob_hash_reads_key 6 8 _ _ 3 0 0 hbytes).1⟩

end FawnKV.Utils
