import FawnKV.Cindex.BitVector
import FawnKV.Cindex.HuffmanShape

/-! The tables of `huffman`, with the codes in blocks, and its coder on a `bit_vector`. There is memory for the
tables. -/
namespace FawnKV.Cindex

open BitCode Checked BitBlocks

/-- `left` and `right`, which assert that the reference is an inner node. -/
def HuffmanTree.checkedChild (t : HuffmanTree) (ref : Nat) (right : Bool) : Except Fault Nat :=
  match t.child ref right with
  | some c => .ok c
  | none => .error .assertion

namespace HuffmanTable

/-- An entry of `lengths_` and of `codes_`. -/
structure Entry where
  length : Nat
  code : List (BitVec 32)
deriving DecidableEq

/-- The code that the entry has. -/
def Entry.bits (e : Entry) : Bits := bitsOf e.code e.length

/-- `memcpy` of blocks from the start of an array. -/
def copyBlocks (m : List (BitVec 32)) (n : Nat) : Except Fault (List (BitVec 32)) :=
  if n ≤ m.length then .ok (m.take n) else .error .outOfBounds

/-- `generate` below the reference `p`, with the one array for the prefix of all codes; the depth is at most the
number of rounds. -/
def generate (t : HuffmanTree) :
    Nat → Nat → List (BitVec 32) → Nat → List (Option Entry) →
    Except Fault (List (BitVec 32) × List (Option Entry))
  | 0, _, _, _, _ => .error .running
  | rounds + 1, p, pre, depth, entries =>
    if t.isSymbol p then do
      let _ ← require (depth < 2 ^ 8)
      let code ← copyBlocks pre (blockCount 32 depth)
      let entries ← set entries p (some ⟨depth % 2 ^ 8, code⟩)
      .ok (pre, entries)
    else do
      let pre ← unsetBit pre depth
      let left ← t.checkedChild p false
      let (pre, entries) ← generate t rounds left pre (depth + 1) entries
      let pre ← setBit pre depth
      let right ← t.checkedChild p true
      generate t rounds right pre (depth + 1) entries

/-- The constructor; `pre` is what the array for the prefix has at first. -/
def construct (t : HuffmanTree) (pre : List (BitVec 32)) : Except Fault (List (Option Entry)) := do
  let (_, entries) ← generate t t.numSymbols t.root pre 0 (List.replicate t.numSymbols none)
  .ok entries

end HuffmanTable

structure HuffmanRevTable where
  maxLength : Nat
  refs : List Nat
  lengths : List Nat
deriving DecidableEq

namespace HuffmanRevTable

def findMaxLength (t : HuffmanTree) : Nat → Nat → Nat → Nat → Except Fault Nat
  | 0, _, _, _ => .error .running
  | rounds + 1, p, depth, maxLength =>
    if t.isSymbol p then .ok (if maxLength < depth then depth else maxLength)
    else do
      let left ← t.checkedChild p false
      let maxLength ← findMaxLength t rounds left (depth + 1) maxLength
      let right ← t.checkedChild p true
      findMaxLength t rounds right (depth + 1) maxLength

/-- The loop of `fill_table` over the entries of a symbol, with `rest` of them to go. -/
def fillEntries (p depth : Nat) : Nat → Nat → HuffmanRevTable → Except Fault HuffmanRevTable
  | 0, _, r => .ok r
  | rest + 1, idx, r => do
    let refs ← set r.refs idx p
    let _ ← require (depth < 2 ^ 8)
    let lengths ← set r.lengths idx (depth % 2 ^ 8)
    fillEntries p depth rest (idx + 1) { r with refs, lengths }

def fillTable (t : HuffmanTree) : Nat → Nat → Nat → Nat → HuffmanRevTable → Except Fault HuffmanRevTable
  | 0, _, _, _, _ => .error .running
  | rounds + 1, p, numericPrefix, depth, r =>
    if t.isSymbol p then do
      let padding := r.maxLength - depth
      let count ← if padding < 32 then .ok (1 <<< padding) else .error .invalidShift
      fillEntries p depth count (numericPrefix <<< padding) r
    else do
      let left ← t.checkedChild p false
      let r ← fillTable t rounds left (numericPrefix <<< 1) (depth + 1) r
      let right ← t.checkedChild p true
      fillTable t rounds right (numericPrefix <<< 1 ||| 1) (depth + 1) r

/-- `1 << n`: the one is an `int`, which has no `2 ^ 31`. -/
def intShift (n : Nat) : Except Fault Nat := if n < 31 then .ok (1 <<< n) else .error .invalidShift

def construct (t : HuffmanTree) : Except Fault HuffmanRevTable := do
  let _ ← require (t.numSymbols ≤ 2 ^ 8)
  let maxLength ← findMaxLength t t.numSymbols t.root 0 0
  let _ ← require (maxLength ≤ 2 ^ 8)
  let size ← intShift maxLength
  fillTable t t.numSymbols t.root 0 0
    { maxLength, refs := List.replicate size 0, lengths := List.replicate size 0 }

end HuffmanRevTable

/-- An object of the class `huffman`. -/
structure HuffmanCoder where
  t : HuffmanTree
  tbl : List (Option HuffmanTable.Entry)
  revTbl : HuffmanRevTable

namespace HuffmanCoder

def construct (t : HuffmanTree) (pre : List (BitVec 32)) : Except Fault HuffmanCoder := do
  let tbl ← HuffmanTable.construct t pre
  let revTbl ← HuffmanRevTable.construct t
  .ok { t, tbl, revTbl }

section Coding

variable {w : Nat} (c : HuffmanCoder)

/-- The length and the code of a symbol; a code that is not there is a null pointer. -/
def entry (symbol : Nat) : Except Fault HuffmanTable.Entry := do
  let _ ← require (symbol < c.t.numSymbols)
  match ← get c.tbl symbol with
  | some e => .ok e
  | none => .error .outOfBounds

def encode (outBuf : BitVector w) (symbol : Nat) : Except Fault (BitVector w) := do
  let e ← c.entry symbol
  outBuf.append e.code 0 e.length

/-- The walk of `decode` from the reference `p`. -/
def decodeLoop (inBuf : BitVector w) (p iter : Nat) : Except Fault (Nat × Nat) :=
  if c.t.isSymbol p then .ok (p, iter)
  else if iter < inBuf.size then do
    let bit ← inBuf.bit iter
    let next ← c.t.checkedChild p bit
    decodeLoop inBuf next (iter + 1)
  else .error .assertion
termination_by inBuf.size - iter

def decode (inBuf : BitVector w) (iter : Nat) : Except Fault (Nat × Nat) :=
  if iter = inBuf.size then .ok (Huffman.noSymbol, iter) else c.decodeLoop inBuf c.t.root iter

end Coding

end HuffmanCoder

section Tables

open HuffmanTable

variable {t : HuffmanTree} {rounds p : Nat} {bits : Bits} {pre : List (BitVec 32)}
  {codes codes' : List (Option Bits)} {entries : List (Option Entry)}

/-- The entry has the code in its blocks. -/
structure HuffmanTable.Entry.Holds (e : Entry) (code : Bits) : Prop where
  fits : e.length ≤ e.code.length * 32
  bits_eq : e.bits = code

/-- The table has the codes of a table of bit lists. -/
structure Matches (codes : List (Option Bits)) (entries : List (Option Entry)) : Prop where
  length : entries.length = codes.length
  stored : ∀ (s : Nat) (code : Bits), codes[s]? = some (some code) →
    ∃ e : Entry, entries[s]? = some (some e) ∧ e.Holds code

theorem checkedChild_ok {c : Nat} {b : Bool} (h : t.child p b = some c) : t.checkedChild p b = .ok c := by
  rw [HuffmanTree.checkedChild, h]

theorem leaf_holds (hcover : bits.length ≤ pre.length * 32) (hbits : bitsOf pre bits.length = bits) :
    copyBlocks pre (blockCount 32 bits.length) = .ok (pre.take (blockCount 32 bits.length)) ∧
      (Entry.mk bits.length (pre.take (blockCount 32 bits.length))).Holds bits := by
  have hblocks : blockCount 32 bits.length ≤ pre.length := by
    rw [blockCount]
    omega
  refine ⟨if_pos hblocks, ?_, ?_⟩
  · rw [List.length_take, Nat.min_eq_left hblocks]
    exact le_blockCount (by decide) _
  · refine (bitsOf_congr (n := bits.length) fun j hj => bitAt_take ?_).trans hbits
    rw [blockCount]
    omega

theorem Matches.set (h : Matches codes entries) {e : Entry} (he : e.Holds bits) (p : Nat) :
    Matches (codes.set p (some bits)) (entries.set p (some e)) := by
  refine ⟨by rw [List.length_set, List.length_set, h.length], fun s code hs => ?_⟩
  by_cases hsp : p = s
  · subst hsp
    have hlt := (List.getElem?_eq_some_iff.mp hs).1
    rw [List.length_set] at hlt
    rw [List.getElem?_set_self hlt] at hs
    obtain rfl := Option.some.inj (Option.some.inj hs)
    exact ⟨e, List.getElem?_set_self (h.length ▸ hlt), he⟩
  · rw [List.getElem?_set_ne hsp] at hs
    rw [List.getElem?_set_ne hsp]
    exact h.stored s code hs

/-- One bit at the end of a prefix. -/
theorem bitsOf_extend {pre' : List (BitVec 32)} {b : Bool} (hbits : bitsOf pre bits.length = bits)
    (h : ∀ j, bitAt pre' j = if j = bits.length then b else bitAt pre j) :
    bitsOf pre' (bits ++ [b]).length = bits ++ [b] := by
  have hsame : bitsOf pre' bits.length = bits :=
    (bitsOf_congr fun j hj => by rw [h j, if_neg (Nat.ne_of_lt hj)]).trans hbits
  rw [List.length_append, List.length_singleton, bitsOf_succ, hsame, h, if_pos rfl]

/-- The one array for all prefixes has, whenever it is copied, the bits of the path. -/
theorem generate_refines (hnum : t.numSymbols ≤ 2 ^ 8) (hpre : t.numSymbols ≤ pre.length * 32)
    (htable : Huffman.table t rounds p bits codes = some codes') (hm : Matches codes entries)
    (hlength : codes.length = t.numSymbols) (hdepth : bits.length + rounds ≤ t.numSymbols)
    (hbits : bitsOf pre bits.length = bits) :
    ∃ pre' entries', HuffmanTable.generate t rounds p pre bits.length entries = .ok (pre', entries') ∧
      Matches codes' entries' ∧ codes'.length = t.numSymbols ∧ pre'.length = pre.length ∧
      ∀ j < bits.length, bitAt pre' j = bitAt pre j := by
  induction rounds generalizing p bits pre codes codes' entries with
  | zero => cases htable
  | succ rounds ih =>
    rw [Huffman.table] at htable
    rw [HuffmanTable.generate]
    by_cases hp : t.isSymbol p = true
    · rw [if_pos hp] at htable
      cases htable
      obtain ⟨hcopy, hholds⟩ := leaf_holds (by omega) hbits
      have hlt : p < entries.length := by
        rw [hm.length, hlength]
        simpa [HuffmanTree.isSymbol] using hp
      refine ⟨pre, _, ?_, hm.set hholds p, by rw [List.length_set, hlength], rfl, fun _ _ => rfl⟩
      rw [if_pos hp, require_ok (by omega), ok_bind, hcopy, ok_bind, Nat.mod_eq_of_lt (by omega),
        set_ok hlt, ok_bind]
    · rw [if_neg hp] at htable
      rw [if_neg hp]
      split at htable
      · rename_i left right hleft hright
        obtain ⟨codes₁, htable₁, htable₂⟩ := Option.bind_eq_some_iff.mp htable
        have hlen : ∀ b, (bits ++ [b]).length = bits.length + 1 := fun b => by
          rw [List.length_append, List.length_singleton]
        obtain ⟨pre₁, hunset, hlength₁, hbits₁⟩ := unsetBit_ok (m := pre) (i := bits.length) (by omega)
        obtain ⟨pre₂, entries₁, hgen₁, hm₁, hcodes₁, hlength₂, hsame₂⟩ :=
          ih (by rw [hlength₁]; exact hpre) htable₁ hm
          hlength (by rw [hlen]; omega) (bitsOf_extend hbits hbits₁)
        have hkept : ∀ j < bits.length, bitAt pre₂ j = bitAt pre j := fun j hj => by
          rw [hsame₂ j (by rw [hlen]; omega), hbits₁, if_neg (Nat.ne_of_lt hj)]
        obtain ⟨pre₃, hset, hlength₃, hbits₃⟩ := setBit_ok (m := pre₂) (i := bits.length) (by omega)
        obtain ⟨pre₄, entries₂, hgen₂, hm₂, hcodes₂, hlength₄, hsame₄⟩ := ih (by omega) htable₂ hm₁ hcodes₁
          (by rw [hlen]; omega) (bitsOf_extend ((bitsOf_congr hkept).trans hbits) hbits₃)
        rw [hlen] at hgen₁ hgen₂
        refine ⟨pre₄, entries₂, ?_, hm₂, hcodes₂, by omega, fun j hj => ?_⟩
        · rw [hunset, ok_bind, checkedChild_ok hleft, ok_bind, hgen₁, ok_bind]
          dsimp only
          rw [hset, ok_bind, checkedChild_ok hright, ok_bind, hgen₂]
        · rw [hsame₄ j (by rw [hlen]; omega), hbits₃, if_neg (Nat.ne_of_lt hj), hkept j hj]
      · cases htable

/-- A complete table: each symbol has the bits of its path. -/
structure Complete (t : HuffmanTree) (entries : List (Option Entry)) : Prop where
  length : entries.length = t.numSymbols
  path : ∀ s < t.numSymbols, ∃ e : Entry, entries[s]? = some (some e) ∧ e.length ≤ e.code.length * 32 ∧
    Path t t.root e.bits s

theorem construct_complete (h : Wellformed t) (hnum : t.numSymbols ≤ 2 ^ 8)
    (hpre : t.numSymbols ≤ pre.length * 32) :
    ∃ entries, HuffmanTable.construct t pre = .ok entries ∧ Complete t entries := by
  have hpos : 0 < t.numSymbols := Nat.lt_of_lt_of_le (by decide) h.two_le
  obtain ⟨codes, -, hcodes, -⟩ := h.exists_code hpos
  have hstart : Matches (List.replicate t.numSymbols none) (List.replicate t.numSymbols none) := by
    refine ⟨by rw [List.length_replicate, List.length_replicate], fun s code hs => ?_⟩
    simp [List.getElem?_replicate] at hs
  obtain ⟨pre', entries, hgen, hm, hlength, -⟩ := generate_refines hnum hpre hcodes hstart List.length_replicate
    (by rw [List.length_nil, Nat.zero_add]) rfl
  refine ⟨entries, ?_, hm.length.trans hlength, fun s hs => ?_⟩
  · rw [List.length_nil] at hgen
    rw [HuffmanTable.construct, hgen, ok_bind]
  · obtain ⟨codes', code, hcodes', hcode, hpath⟩ := h.exists_code hs
    obtain rfl : codes = codes' := Option.some.inj (hcodes.symm.trans hcodes')
    obtain ⟨e, he, hholds⟩ := hm.stored s code hcode
    exact ⟨e, he, hholds.fits, by rw [hholds.bits_eq]; exact hpath⟩

/-- No code is the start of another one. -/
def PrefixFree (entries : List (Option Entry)) : Prop :=
  ∀ (s s' : Nat) (e e' : Entry), s ≠ s' → entries[s]? = some (some e) → entries[s']? = some (some e') →
    ¬e.bits <+: e'.bits

theorem Complete.prefixFree (h : Complete t entries) : PrefixFree entries := by
  rintro s s' e e' hne hs hs' ⟨more, hmore⟩
  have hlt := (List.getElem?_eq_some_iff.mp hs).1
  have hlt' := (List.getElem?_eq_some_iff.mp hs').1
  rw [h.length] at hlt hlt'
  obtain ⟨e₁, he₁, -, hpath⟩ := h.path s hlt
  obtain ⟨e₂, he₂, -, hpath'⟩ := h.path s' hlt'
  obtain rfl : e = e₁ := Option.some.inj (Option.some.inj (hs.symm.trans he₁))
  obtain rfl : e' = e₂ := Option.some.inj (Option.some.inj (hs'.symm.trans he₂))
  rw [← hmore] at hpath'
  exact hne (hpath.prefix_eq hpath').1

end Tables

section RevTables

open HuffmanRevTable

variable {t : HuffmanTree} {rounds p depth maxLength numericPrefix : Nat}

/-- No symbol is further below the reference than that. -/
def Shallow (t : HuffmanTree) (p bound : Nat) : Prop :=
  ∀ s bits, Path t p bits s → bits.length ≤ bound

theorem symbol_path {s : Nat} {bits : Bits} (hp : t.isSymbol p = true) (h : Path t p bits s) : bits = [] := by
  cases h with
  | leaf => rfl
  | node hc => simp [HuffmanTree.child, hp] at hc

theorem findMaxLength_symbol (hp : t.isSymbol p = true) (depth maxLength : Nat) :
    ∃ m, findMaxLength t (rounds + 1) p depth maxLength = .ok m ∧ ∀ bound, m ≤ bound ↔
      maxLength ≤ bound ∧ ∀ s bits, Path t p bits s → depth + bits.length ≤ bound := by
  refine ⟨_, by rw [findMaxLength, if_pos hp], fun bound => ?_⟩
  have hpaths : (∀ s bits, Path t p bits s → depth + bits.length ≤ bound) ↔ depth ≤ bound := by
    constructor
    · exact fun hall => hall p [] (.leaf hp)
    · intro hdepth s bits hpath
      rw [symbol_path hp hpath]
      exact hdepth
  rw [hpaths]
  split <;> omega

/-- The length that is found is the least bound for the paths. -/
theorem findMaxLength_ok (h : Wellformed t) (hle : p ≤ t.root) (hlt : p < t.numSymbols + rounds)
    (depth maxLength : Nat) :
    ∃ m, findMaxLength t (rounds + 1) p depth maxLength = .ok m ∧ ∀ bound, m ≤ bound ↔
      maxLength ≤ bound ∧ ∀ s bits, Path t p bits s → depth + bits.length ≤ bound := by
  induction rounds generalizing p depth maxLength with
  | zero => exact findMaxLength_symbol (by simpa [HuffmanTree.isSymbol] using hlt) depth maxLength
  | succ rounds ih =>
    cases hp : t.isSymbol p with
    | true => exact findMaxLength_symbol hp depth maxLength
    | false =>
      obtain ⟨l, hl⟩ := h.exists_child hp hle false
      obtain ⟨r, hr⟩ := h.exists_child hp hle true
      have hlp := h.child_lt p false l hl
      have hrp := h.child_lt p true r hr
      obtain ⟨m, hfind, hbound⟩ := ih (p := l) (by omega) (by omega) (depth + 1) maxLength
      obtain ⟨m', hfind', hbound'⟩ := ih (p := r) (by omega) (by omega) (depth + 1) m
      refine ⟨m', ?_, fun bound => ?_⟩
      · rw [findMaxLength, if_neg (by simp [hp]), checkedChild_ok hl, ok_bind, hfind, ok_bind,
          checkedChild_ok hr, ok_bind, hfind']
      · rw [hbound', hbound, and_assoc]
        refine and_congr_right fun _ => ⟨fun hboth s bits hpath => ?_, fun hall => ⟨fun s bits hpath => ?_,
          fun s bits hpath => ?_⟩⟩
        · cases hpath with
          | leaf hs => simp [hs] at hp
          | @node p c s b bits hc hpath =>
            rw [List.length_cons, Nat.add_comm bits.length, ← Nat.add_assoc]
            cases b with
            | false =>
              obtain rfl : l = c := Option.some.inj (hl.symm.trans hc)
              exact hboth.1 s bits hpath
            | true =>
              obtain rfl : r = c := Option.some.inj (hr.symm.trans hc)
              exact hboth.2 s bits hpath
        · have hpath := hall s _ (.node hl hpath)
          rw [List.length_cons] at hpath
          omega
        · have hpath := hall s _ (.node hr hpath)
          rw [List.length_cons] at hpath
          omega

/-- The entries that a symbol fills are in the table. -/
theorem fillEntries_ok {rest : Nat} (p : Nat) (hdepth : depth < 2 ^ 8) (idx : Nat) (r : HuffmanRevTable)
    (hrefs : idx + rest ≤ r.refs.length) (hlengths : idx + rest ≤ r.lengths.length) :
    ∃ r', fillEntries p depth rest idx r = .ok r' ∧ r'.maxLength = r.maxLength ∧
      r'.refs.length = r.refs.length ∧ r'.lengths.length = r.lengths.length := by
  induction rest generalizing idx r with
  | zero => exact ⟨r, rfl, rfl, rfl, rfl⟩
  | succ rest ih =>
    obtain ⟨r', hfill, hmax, hlenRefs, hlenLengths⟩ := ih (idx + 1)
      { r with refs := r.refs.set idx p, lengths := r.lengths.set idx (depth % 2 ^ 8) }
      (by rw [List.length_set]; omega) (by rw [List.length_set]; omega)
    refine ⟨r', ?_, hmax, hlenRefs.trans List.length_set, hlenLengths.trans List.length_set⟩
    rw [fillEntries, set_ok (by omega), ok_bind, require_ok hdepth, ok_bind, set_ok (by omega), ok_bind, hfill]

/-- The table has an entry for each number of the longest length. -/
structure Sized (r : HuffmanRevTable) : Prop where
  maxLength_lt : r.maxLength < 31
  refs : r.refs.length = 2 ^ r.maxLength
  lengths : r.lengths.length = 2 ^ r.maxLength

theorem fillTable_symbol {r : HuffmanRevTable} (hr : Sized r) (hp : t.isSymbol p = true)
    (hsmall : numericPrefix < 2 ^ depth) (hdepth : depth ≤ r.maxLength) :
    ∃ r', fillTable t (rounds + 1) p numericPrefix depth r = .ok r' ∧ r'.maxLength = r.maxLength ∧
      Sized r' := by
  have hmax := hr.maxLength_lt
  have hentries : numericPrefix <<< (r.maxLength - depth) + 1 <<< (r.maxLength - depth) ≤ 2 ^ r.maxLength := by
    calc numericPrefix <<< (r.maxLength - depth) + 1 <<< (r.maxLength - depth)
        = (numericPrefix + 1) * 2 ^ (r.maxLength - depth) := by
          rw [Nat.shiftLeft_eq, Nat.shiftLeft_eq, Nat.add_mul]
      _ ≤ 2 ^ depth * 2 ^ (r.maxLength - depth) := Nat.mul_le_mul_right _ hsmall
      _ = 2 ^ r.maxLength := by rw [← Nat.pow_add, Nat.add_sub_cancel' hdepth]
  obtain ⟨r', hfill, hmax', hrefs, hlengths⟩ := fillEntries_ok p (show depth < 2 ^ 8 by omega) _ r
    (by rw [hr.refs]; exact hentries) (by rw [hr.lengths]; exact hentries)
  refine ⟨r', ?_, hmax', ⟨hmax'.symm ▸ hmax, hrefs.trans (hmax'.symm ▸ hr.refs),
    hlengths.trans (hmax'.symm ▸ hr.lengths)⟩⟩
  rw [fillTable, if_pos hp]
  dsimp only
  rw [if_pos (by omega), ok_bind, hfill]

theorem fillTable_ok (h : Wellformed t) (hle : p ≤ t.root) (hlt : p < t.numSymbols + rounds)
    {r : HuffmanRevTable} (hr : Sized r) (numericPrefix depth : Nat) (hsmall : numericPrefix < 2 ^ depth)
    (hpaths : ∀ s bits, Path t p bits s → depth + bits.length ≤ r.maxLength) :
    ∃ r', fillTable t (rounds + 1) p numericPrefix depth r = .ok r' ∧ r'.maxLength = r.maxLength ∧
      Sized r' := by
  induction rounds generalizing p depth numericPrefix r with
  | zero =>
    have hp : t.isSymbol p = true := by simpa [HuffmanTree.isSymbol] using hlt
    exact fillTable_symbol hr hp hsmall (hpaths p [] (.leaf hp))
  | succ rounds ih =>
    cases hp : t.isSymbol p with
    | true => exact fillTable_symbol hr hp hsmall (hpaths p [] (.leaf hp))
    | false =>
      obtain ⟨left, hleft⟩ := h.exists_child hp hle false
      obtain ⟨right, hright⟩ := h.exists_child hp hle true
      have hlp := h.child_lt p false left hleft
      have hrp := h.child_lt p true right hright
      have hdouble : numericPrefix <<< 1 = 2 * numericPrefix := by rw [Nat.shiftLeft_eq, Nat.mul_comm]
      have hodd : numericPrefix <<< 1 ||| 1 = 2 * numericPrefix + 1 := by
        rw [← Nat.shiftLeft_add_eq_or_of_lt (by decide), hdouble]
      have hbelow : ∀ {c b}, t.child p b = some c →
          ∀ s bits, Path t c bits s → depth + 1 + bits.length ≤ r.maxLength := by
        intro c b hc s bits hpath
        have hlen := hpaths s _ (.node hc hpath)
        rw [List.length_cons] at hlen
        omega
      obtain ⟨r₁, hfill₁, hmax₁, hr₁⟩ := ih (p := left) (by omega) (by omega) hr
        (numericPrefix <<< 1) (depth + 1)
        (by rw [hdouble, Nat.pow_succ]; omega) (hbelow hleft)
      obtain ⟨r₂, hfill₂, hmax₂, hr₂⟩ := ih (p := right) (by omega) (by omega) hr₁ (numericPrefix <<< 1 ||| 1)
        (depth + 1) (by rw [hodd, Nat.pow_succ]; omega) (by rw [hmax₁]; exact hbelow hright)
      refine ⟨r₂, ?_, hmax₂.trans hmax₁, hr₂⟩
      rw [fillTable, if_neg (by simp [hp]), checkedChild_ok hleft, ok_bind, hfill₁, ok_bind,
        checkedChild_ok hright, ok_bind, hfill₂]

/-- The table for decoding is built exactly when its size is an `int`. -/
theorem construct_iff (h : Wellformed t) (hnum : t.numSymbols ≤ 2 ^ 8) :
    (∃ r, HuffmanRevTable.construct t = .ok r) ↔ Shallow t t.root 30 := by
  have htwo := h.two_le
  have hlt : t.root < t.numSymbols + (t.numSymbols - 1) := by
    rw [HuffmanTree.root]
    omega
  obtain ⟨m, hfind, hbound⟩ := findMaxLength_ok h (Nat.le_refl _) hlt 0 0
  rw [Nat.sub_add_cancel (by omega)] at hfind
  have hshallow : m ≤ 30 ↔ Shallow t t.root 30 := by
    rw [hbound]
    simp only [Nat.zero_le, true_and, Nat.zero_add]
    rfl
  rw [← hshallow]
  constructor
  · rintro ⟨r, hr⟩
    rw [HuffmanRevTable.construct, require_ok hnum, ok_bind, hfind, ok_bind] at hr
    obtain ⟨_, _, hr⟩ := bind_eq_ok.mp hr
    obtain ⟨_, hsize, _⟩ := bind_eq_ok.mp hr
    rw [intShift] at hsize
    split at hsize
    · omega
    · cases hsize
  · intro hm
    have hpaths := ((hbound m).mp (Nat.le_refl m)).2
    have hentries : (List.replicate (1 <<< m) 0).length = 2 ^ m := by
      rw [List.length_replicate, Nat.one_shiftLeft]
    have hsized : Sized ⟨m, List.replicate (1 <<< m) 0, List.replicate (1 <<< m) 0⟩ :=
      ⟨Nat.lt_succ_of_le hm, hentries, hentries⟩
    obtain ⟨r', hfill, -⟩ := fillTable_ok h (Nat.le_refl _) hlt hsized 0 0 (by decide) hpaths
    rw [Nat.sub_add_cancel (by omega)] at hfill
    refine ⟨r', ?_⟩
    rw [HuffmanRevTable.construct, require_ok hnum, ok_bind, hfind, ok_bind, require_ok (by omega),
      ok_bind, intShift, if_pos (by omega), ok_bind, hfill]

end RevTables

section RoundTrip

open HuffmanTable

variable {t : HuffmanTree} {w p : Nat} {c : HuffmanCoder} {b : BitVector w} {code post : Bits} {s : Nat}
  {pre : List (BitVec 32)}

theorem decodeLoop_refines {r : Nat × Nat} (hb : b.WellMade) {iter : Nat}
    (h : Huffman.decodeLoop c.t b.bits p iter = some r) : c.decodeLoop b p iter = .ok r := by
  have hlength := BitVector.length_bits (b := b)
  fun_induction HuffmanCoder.decodeLoop c b p iter with
  | case1 p iter hp =>
    rw [Huffman.decodeLoop, if_pos hp] at h
    exact congrArg _ (Option.some.inj h)
  | case2 p iter hp hlt ih =>
    have hbits : iter < b.bits.length := by omega
    rw [Huffman.decodeLoop, if_neg hp, dif_pos hbits] at h
    split at h
    · rename_i next hnext
      rw [hb.bit hbits, ok_bind, checkedChild_ok hnext, ok_bind]
      exact ih next h
    · cases h
  | case3 p iter hp hge =>
    rw [Huffman.decodeLoop, if_neg hp, dif_neg (by omega)] at h
    cases h

/-- The code of a symbol, found from the root, is not empty. -/
theorem path_ne_nil (h : Wellformed t) (hpath : Path t t.root code s) : code ≠ [] := by
  rintro rfl
  have htwo := h.two_le
  cases hpath with
  | leaf hs =>
    have hlt : t.root < t.numSymbols := by simpa [HuffmanTree.isSymbol] using hs
    rw [HuffmanTree.root] at hlt
    omega

theorem decode_refines (h : Wellformed c.t) (hpath : Path c.t c.t.root code s) {before : Bits} (hb : b.WellMade)
    (hbits : b.bits = before ++ code ++ post) :
    c.decode b before.length = .ok (s, before.length + code.length) := by
  have hpos := List.length_pos_iff.mpr (path_ne_nil h hpath)
  have hlength := congrArg List.length hbits
  rw [BitVector.length_bits, List.length_append, List.length_append] at hlength
  rw [HuffmanCoder.decode, if_neg (by omega)]
  refine decodeLoop_refines hb ?_
  rw [hbits]
  exact decodeLoop_path hpath before post

theorem encode_ok (hc : Complete c.t c.tbl) (hs : s < c.t.numSymbols) {e : Entry}
    (he : c.tbl[s]? = some (some e)) (hb : b.WellMade) :
    ∃ b', c.encode b s = .ok b' ∧ b'.WellMade ∧ b'.bits = b.bits ++ e.bits := by
  obtain ⟨e', he', hfits, -⟩ := hc.path s hs
  obtain rfl : e = e' := Option.some.inj (Option.some.inj (he.symm.trans he'))
  rw [← Nat.zero_add e.length] at hfits
  obtain ⟨b', happend, hb', hbits⟩ := hb.append (by decide) hfits
  have hentry : c.entry s = .ok e := by
    rw [HuffmanCoder.entry, require_ok hs, ok_bind, get_ok he, ok_bind]
  refine ⟨b', by rw [HuffmanCoder.encode, hentry, ok_bind, happend], hb', ?_⟩
  simp only [Nat.zero_add] at hbits
  exact hbits

/-- What the coder is for: a symbol is decoded where it was encoded, whatever stands before and after. -/
def CodesBack (t : HuffmanTree) (pre : List (BitVec 32)) : Prop :=
  ∃ c, HuffmanCoder.construct t pre = .ok c ∧ ∀ s < t.numSymbols, ∃ e : Entry, c.tbl[s]? = some (some e) ∧
    ∀ {w : Nat} (b : BitVector w), b.WellMade → ∃ b', c.encode b s = .ok b' ∧ b'.WellMade ∧
      b'.bits = b.bits ++ e.bits ∧ ∀ (later : BitVector w) (post : Bits), later.WellMade →
        later.bits = b'.bits ++ post → c.decode later b.size = .ok (s, b.size + e.length)

theorem codesBack_iff (h : Wellformed t) (hnum : t.numSymbols ≤ 2 ^ 8) (hpre : t.numSymbols ≤ pre.length * 32) :
    CodesBack t pre ↔ Shallow t t.root 30 := by
  obtain ⟨entries, htable, hcomplete⟩ := construct_complete h hnum hpre
  rw [← construct_iff h hnum]
  constructor
  · rintro ⟨c, hc, -⟩
    rw [HuffmanCoder.construct, htable, ok_bind] at hc
    obtain ⟨r, hr, -⟩ := bind_eq_ok.mp hc
    exact ⟨r, hr⟩
  · rintro ⟨r, hr⟩
    refine ⟨⟨t, entries, r⟩, by rw [HuffmanCoder.construct, htable, ok_bind, hr, ok_bind], fun s hs => ?_⟩
    obtain ⟨e, he, -, hpath⟩ := hcomplete.path s hs
    refine ⟨e, he, fun {w} b hb => ?_⟩
    obtain ⟨b', hencode, hb', hbits⟩ := encode_ok (c := ⟨t, entries, r⟩) hcomplete hs he hb
    refine ⟨b', hencode, hb', hbits, fun later post hlater hpost => ?_⟩
    have hdecode := decode_refines (c := ⟨t, entries, r⟩) h hpath hlater (by rw [hpost, hbits])
    rwa [BitVector.length_bits, HuffmanTable.Entry.bits, length_bitsOf] at hdecode

/-- A generated tree has each reference but the root once as a child, and each symbol has one path; the codes
of the table are the bits of the paths, and none is the start of another one. The coder, which builds a table
for decoding too, gives the symbols back exactly when no path is longer than 30. -/
theorem huffman_round_trip_iff (freqs : List Nat) (htwo : 2 ≤ freqs.length) (hmax : freqs.length ≤ 128)
    (pre : List (BitVec 32)) (hpre : pre.length = blockCount 32 freqs.length) :
    ∃ t, HuffmanTreeGenerator.generate freqs = some t ∧ t.numSymbols = freqs.length ∧
      t.children.Perm (List.range t.root) ∧ (∀ s < t.numSymbols, ∃! bits, Path t t.root bits s) ∧
      (∃ entries, HuffmanTable.construct t pre = .ok entries ∧ Complete t entries ∧ PrefixFree entries) ∧
      (CodesBack t pre ↔ Shallow t t.root 30) := by
  obtain ⟨t, hgen, hnum, hwell⟩ := generate_wellformed freqs htwo
  have hchildren := generate_children htwo hgen
  have hnodup : t.children.Nodup := hchildren.nodup_iff.mpr List.nodup_range
  have hcover : t.numSymbols ≤ pre.length * 32 := by
    rw [hpre, hnum]
    exact le_blockCount (by decide) _
  obtain ⟨entries, htable, hcomplete⟩ := construct_complete hwell (by omega) hcover
  refine ⟨t, hgen, hnum, hchildren, fun s hs => ?_, ⟨entries, htable, hcomplete, hcomplete.prefixFree⟩,
    codesBack_iff hwell (by omega) hcover⟩
  obtain ⟨bits, hpath⟩ := hwell.exists_path hs
  exact ⟨bits, hpath, fun bits' hpath' => Path.unique hwell hnodup hpath' hpath⟩

theorem huffman_round_trip_iff_three :
    ∃ t, HuffmanTreeGenerator.generate [1, 1, 2] = some t ∧ t.numSymbols = 3 ∧
      t.children.Perm (List.range t.root) ∧ (∀ s < t.numSymbols, ∃! bits, Path t t.root bits s) ∧
      (∃ entries, HuffmanTable.construct t [0xcccccccc] = .ok entries ∧ Complete t entries ∧
        PrefixFree entries) ∧
      (CodesBack t [0xcccccccc] ↔ Shallow t t.root 30) :=
  huffman_round_trip_iff [1, 1, 2] (by decide) (by decide) [0xcccccccc] (by decide)

/-- With 33 Fibonacci numbers as the frequencies two paths have 32 bits, and `1 << 32` is none of an `int`. -/
theorem fibonacci_construct :
    let freqs := [1, 1, 2, 3, 5, 8, 13, 21, 34, 55, 89, 144, 233, 377, 610, 987, 1597, 2584, 4181, 6765, 10946,
      17711, 28657, 46368, 75025, 121393, 196418, 317811, 514229, 832040, 1346269, 2178309, 3524578]
    ∃ t, HuffmanTreeGenerator.generate freqs = some t ∧ HuffmanRevTable.construct t = .error .invalidShift ∧
      ¬CodesBack t [0, 0] := by
  intro freqs
  have hsome : (HuffmanTreeGenerator.generate freqs).map HuffmanRevTable.construct =
      some (.error .invalidShift) := by decide +kernel
  obtain ⟨t, hgen, hrev⟩ := Option.map_eq_some_iff.mp hsome
  refine ⟨t, hgen, hrev, ?_⟩
  rintro ⟨c, hc, -⟩
  rw [HuffmanCoder.construct] at hc
  obtain ⟨tbl, -, hc⟩ := bind_eq_ok.mp hc
  rw [hrev] at hc
  cases hc

end RoundTrip

end FawnKV.Cindex
