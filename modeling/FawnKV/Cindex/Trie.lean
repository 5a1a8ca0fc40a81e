import FawnKV.Cindex.ExpGolomb
import FawnKV.Cindex.Huffman
import FawnKV.Silt.Value

/-! The entropy coded trie: `encode`, `locate` and `skip` over one bit buffer. -/
namespace FawnKV.Cindex

open BitCode Silt

/-- `bit_access::get` on a key: bit `i` of its bytes, highest bit of each byte first. -/
def keyBit (key : Value) (i : Nat) : Bool := (key.getD (i / 8) 0).toNat.testBit (7 - i % 8)

namespace Trie

/-- `HuffmanCodingLimit` -/
def huffmanCodingLimit : Nat := 16

/-- The frequencies `gen[k], ..` of the constructor from the running value `v` on. -/
def frequencies (n : Nat) (v : Nat) : Nat → Nat → List Nat
  | _, 0 => []
  | k, count + 1 =>
    let v := v * (n - k + 1) / k
    v :: frequencies n v (k + 1) count

/-- `huff_[n - 2]` -/
def huff (weakOrdering : Bool) (n : Nat) : Option HuffmanTree :=
  HuffmanTreeGenerator.generate
    (if weakOrdering then 2 :: frequencies n 1 1 (n - 1) else 1 :: frequencies n 1 1 n)

/-- A block of keys that share their destination is not encoded (k-perfect hashing). -/
def oneBlock (destBase destKeysPerBlock off n : Nat) : Bool :=
  n ≤ destKeysPerBlock && (destBase + off) % 2 ^ 64 / destKeysPerBlock ==
    (destBase + off + n - 1) % 2 ^ 64 / destKeysPerBlock

/-- The number of keys before the first one with the bit set. -/
def countLeft (arr : List Value) (off n depth : Nat) : Nat :=
  (List.range n).findIdx fun left => keyBit (arr.getD (off + left) []) depth

/-- The size of the left tree; weak ordering turns the split `(n, 0)` into `(0, n)`. -/
def leftSize (weakOrdering : Bool) (arr : List Value) (off n depth : Nat) : Nat :=
  let left := countLeft arr off n depth
  if weakOrdering && left == n then 0 else left

def encodeLeft (weakOrdering : Bool) (outBuf : Bits) (n left : Nat) : Option Bits :=
  if n ≤ huffmanCodingLimit then
    (huff weakOrdering n).bind fun t => Huffman.encode t outBuf left
  else ExpGolomb.encode 0 outBuf (SignInterleave.encode ((left + 2 ^ 64 - n / 2) % 2 ^ 64))

def decodeLeft (weakOrdering : Bool) (n : Nat) : Reader Nat := fun inBuf iter =>
  if n ≤ huffmanCodingLimit then
    (huff weakOrdering n).bind fun t => Huffman.decode t inBuf iter
  else
    (ExpGolomb.decode 0 inBuf iter).map fun r =>
      ((SignInterleave.decode r.1 + n / 2) % 2 ^ 64, r.2)

section Recursions

variable (weakOrdering : Bool) (keyLen destBase destKeysPerBlock : Nat)

def encodeRec (arr : List Value) (outBuf : Bits) (off n depth : Nat) : Option Bits :=
  if n ≤ 1 then some outBuf
  else if oneBlock destBase destKeysPerBlock off n then some outBuf
  else if depth < keyLen * 8 then
    let left := leftSize weakOrdering arr off n depth
    (encodeLeft weakOrdering outBuf n left).bind fun outBuf =>
      (encodeRec arr outBuf off left (depth + 1)).bind fun outBuf =>
        encodeRec arr outBuf (off + left) (n - left) (depth + 1)
  else none
termination_by keyLen * 8 - depth

def skipRec (inBuf : Bits) (iter off n depth : Nat) : Option Nat :=
  if n ≤ 1 then some iter
  else if oneBlock destBase destKeysPerBlock off n then some iter
  else if depth < keyLen * 8 then
    (decodeLeft weakOrdering n inBuf iter).bind fun r =>
      if r.1 ≤ n then
        (skipRec inBuf r.2 off r.1 (depth + 1)).bind fun iter =>
          skipRec inBuf iter (off + r.1) (n - r.1) (depth + 1)
      else none
  else none
termination_by keyLen * 8 - depth

def locateRec (inBuf : Bits) (key : Value) (iter off n depth : Nat) : Option (Nat × Nat) :=
  if n ≤ 1 then some (0, iter)
  else if oneBlock destBase destKeysPerBlock off n then some (0, iter)
  else if depth < keyLen * 8 then
    (decodeLeft weakOrdering n inBuf iter).bind fun r =>
      if r.1 ≤ n then
        if !keyBit key depth && (!weakOrdering || (weakOrdering && r.1 != 0)) then
          locateRec inBuf key r.2 off r.1 (depth + 1)
        else
          (skipRec weakOrdering keyLen destBase destKeysPerBlock inBuf r.2 off r.1
              (depth + 1)).bind fun iter =>
            (locateRec inBuf key iter (off + r.1) (n - r.1) (depth + 1)).map fun p =>
              (r.1 + p.1, p.2)
      else none
  else none
termination_by keyLen * 8 - depth

end Recursions

def encode (weakOrdering : Bool) (outBuf : Bits) (arr : List Value) (keyLen off n destBase
    destKeysPerBlock skipBits : Nat) : Option Bits :=
  encodeRec weakOrdering keyLen destBase destKeysPerBlock arr outBuf off n skipBits

/-- The location and the moved iterator. -/
def locate (weakOrdering : Bool) (inBuf : Bits) (iter : Nat) (key : Value) (keyLen off n destBase
    destKeysPerBlock skipBits : Nat) : Option (Nat × Nat) :=
  locateRec weakOrdering keyLen destBase destKeysPerBlock inBuf key iter off n skipBits

end Trie

end FawnKV.Cindex
