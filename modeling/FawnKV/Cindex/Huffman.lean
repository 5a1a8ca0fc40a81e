import Mathlib.Data.List.Basic
import FawnKV.Lib.BitCode

/-! Huffman trees as arrays of references, their code tables and the coder. -/
namespace FawnKV.Cindex

open BitCode

/-- References below `numSymbols` are symbols; the inner node `numSymbols + i` has the children
`nodes[i]`, left then right. -/
structure HuffmanTree where
  numSymbols : Nat
  nodes : List (Nat × Nat)

namespace HuffmanTree

def isSymbol (t : HuffmanTree) (ref : Nat) : Bool := ref < t.numSymbols

def root (t : HuffmanTree) : Nat := t.numSymbols * 2 - 2

/-- `left` and `right`, with the assertion that the reference is an inner node. -/
def child (t : HuffmanTree) (ref : Nat) (right : Bool) : Option Nat :=
  if t.isSymbol ref then none
  else (t.nodes[ref - t.numSymbols]?).map fun c => if right then c.2 else c.1

end HuffmanTree

namespace HuffmanTreeGenerator

/-- `multimap::insert`: behind the entries of the same frequency. -/
def multimapInsert (e : Nat × Nat) : List (Nat × Nat) → List (Nat × Nat)
  | [] => [e]
  | x :: q => if e.1 < x.1 then e :: x :: q else x :: multimapInsert e q

/-- The second loop of `generate`: `n` more inner nodes from `ref` on. An entry of the queue is
the frequency of a reference and the reference; `none` reads the begin of an empty queue. -/
def generateLoop : Nat → Nat → List (Nat × Nat) → List (Nat × Nat) → Option (List (Nat × Nat))
  | 0, _, _, nodes => some nodes
  | n + 1, ref, left :: right :: q, nodes =>
    generateLoop n (ref + 1) (multimapInsert ((left.1 + right.1) % 2 ^ 64, ref) q)
      (nodes ++ [(left.2, right.2)])
  | _ + 1, _, _, _ => none

/-- The first loop of `generate` puts the symbols into the queue. -/
def symbolQueue (freqs : List Nat) : List (Nat × Nat) :=
  (freqs.zipIdx).foldl (fun q e => multimapInsert e q) []

def generate (freqs : List Nat) : Option HuffmanTree :=
  (generateLoop (freqs.length - 1) freqs.length (symbolQueue freqs) []).map fun nodes =>
    { numSymbols := freqs.length, nodes }

end HuffmanTreeGenerator

namespace Huffman

/-- `huffman_table::generate` below the reference `p`; `fuel` bounds the depth. -/
def table (t : HuffmanTree) : Nat → Nat → Bits → List (Option Bits) → Option (List (Option Bits))
  | 0, _, _, _ => none
  | fuel + 1, p, pre, codes =>
    if t.isSymbol p then some (codes.set p (some pre))
    else
      match t.child p false, t.child p true with
      | some l, some r =>
        (table t fuel l (pre ++ [false]) codes).bind fun codes =>
          table t fuel r (pre ++ [true]) codes
      | _, _ => none

/-- The table of a tree; no code is longer than the number of symbols. -/
def codes (t : HuffmanTree) : Option (List (Option Bits)) :=
  table t t.numSymbols t.root [] (List.replicate t.numSymbols none)

def encode (t : HuffmanTree) (outBuf : Bits) (symbol : Nat) : Option Bits :=
  (codes t).bind fun codes => codes[symbol]?.join.map fun code => outBuf ++ code

/-- `nsymbol` -/
def noSymbol : Nat := 2 ^ 64 - 1

/-- The walk of `decode` from the reference `p`. -/
def decodeLoop (t : HuffmanTree) (inBuf : Bits) (p iter : Nat) : Option (Nat × Nat) :=
  if t.isSymbol p then some (p, iter)
  else if h : iter < inBuf.length then
    match t.child p inBuf[iter] with
    | some c => decodeLoop t inBuf c (iter + 1)
    | none => none
  else none
termination_by inBuf.length - iter

def decode (t : HuffmanTree) : Reader Nat := fun inBuf iter =>
  if iter = inBuf.length then some (noSymbol, iter) else decodeLoop t inBuf t.root iter

end Huffman

section Path

variable {t : HuffmanTree} {p q s : Nat} {bits : Bits}

/-- The bits lead from the reference `p` down to the symbol `s`. -/
inductive Path (t : HuffmanTree) : Nat → Bits → Nat → Prop
  | leaf {s : Nat} : t.isSymbol s = true → Path t s [] s
  | node {p c s : Nat} {b : Bool} {bits : Bits} :
      t.child p b = some c → Path t c bits s → Path t p (b :: bits) s

theorem decodeLoop_path (h : Path t p bits s) :
    Reads (fun inBuf iter => Huffman.decodeLoop t inBuf p iter) bits s := by
  induction h with
  | leaf hs =>
    intro pre post
    show Huffman.decodeLoop _ _ _ _ = _
    rw [Huffman.decodeLoop, if_pos hs]
    simp
  | @node p c s b bits hc _ ih =>
    intro pre post
    have hp : ¬t.isSymbol p = true := by
      intro hp
      simp [HuffmanTree.child, hp] at hc
    have htail := ih (pre ++ [b]) post
    show Huffman.decodeLoop _ _ _ _ = _
    rw [Huffman.decodeLoop, if_neg hp, dif_pos (by simp)]
    simp only [List.append_assoc, List.cons_append, List.nil_append, List.length_append,
      List.length_cons, List.length_nil] at htail ⊢
    rw [List.getElem_append_right (Nat.le_refl _)]
    simp only [Nat.sub_self, List.getElem_cons_zero, hc]
    rw [htail]
    simp only [Option.some.injEq, Prod.mk.injEq, true_and]
    omega

/-- The shape `generate` gives a tree: `numSymbols - 1` inner nodes, each with smaller
references as children, and every reference but the root a child. -/
structure Wellformed (t : HuffmanTree) : Prop where
  two_le : 2 ≤ t.numSymbols
  length_nodes : t.nodes.length = t.numSymbols - 1
  child_lt : ∀ p b c, t.child p b = some c → c < p
  spanning : ∀ r < t.root, ∃ p b, p ≤ t.root ∧ t.child p b = some r

theorem Wellformed.exists_child (h : Wellformed t) (hp : t.isSymbol p = false) (hle : p ≤ t.root)
    (b : Bool) : ∃ c, t.child p b = some c := by
  have hn : t.numSymbols ≤ p := by simpa [HuffmanTree.isSymbol] using hp
  have hlt : p - t.numSymbols < t.nodes.length := by
    have htwo := h.two_le
    rw [h.length_nodes]
    simp only [HuffmanTree.root] at hle
    omega
  exact ⟨_, by rw [HuffmanTree.child, if_neg (by simp [hp]), List.getElem?_eq_getElem hlt,
    Option.map_some]⟩

/-- The bits lead from the root down to the reference. -/
inductive Below (t : HuffmanTree) : Bits → Nat → Prop
  | root : Below t [] t.root
  | step {q c : Nat} {b : Bool} {bits : Bits} :
      Below t bits q → t.child q b = some c → Below t (bits ++ [b]) c

theorem Below.path {bits' : Bits} (h : Below t bits q) (hp : Path t q bits' s) :
    Path t t.root (bits ++ bits') s := by
  induction h generalizing bits' with
  | root => exact hp
  | step _ hc ih =>
    rw [List.append_assoc]
    exact ih (.node hc hp)

/-- Going up from a reference ends at the root, as parents are larger. -/
theorem Wellformed.below (h : Wellformed t) (k : Nat) :
    ∀ r ≤ t.root, t.root - r ≤ k → ∃ bits, Below t bits r := by
  induction k with
  | zero =>
    intro r hr hk
    have heq : r = t.root := by omega
    exact ⟨[], heq ▸ .root⟩
  | succ k ih =>
    intro r hr hk
    by_cases heq : r = t.root
    · exact ⟨[], heq ▸ .root⟩
    · obtain ⟨p, b, hle, hc⟩ := h.spanning r (by omega)
      have hlt := h.child_lt p b r hc
      obtain ⟨bits, hb⟩ := ih p hle (by omega)
      exact ⟨bits ++ [b], hb.step hc⟩

theorem Wellformed.exists_path (h : Wellformed t) (hs : s < t.numSymbols) :
    ∃ bits, Path t t.root bits s := by
  have htwo := h.two_le
  have hle : s ≤ t.root := by
    simp only [HuffmanTree.root]
    omega
  obtain ⟨bits, hb⟩ := h.below _ s hle (Nat.le_refl _)
  exact ⟨bits ++ [], hb.path (.leaf (by simpa [HuffmanTree.isSymbol] using hs))⟩

end Path

section Table

variable {t : HuffmanTree} {s : Nat}

/-- The entries of `codes'` are those of `codes` or paths from `p` behind `pre`, and every
symbol below `p` has one. -/
structure Filled (t : HuffmanTree) (p : Nat) (pre : Bits) (codes codes' : List (Option Bits)) :
    Prop where
  length : codes'.length = codes.length
  sound : ∀ (s : Nat) (code : Bits), codes'[s]? = some (some code) →
    codes[s]? = some (some code) ∨ ∃ bits, code = pre ++ bits ∧ Path t p bits s
  kept : ∀ (s : Nat) (code : Bits), codes[s]? = some (some code) → ∃ code', codes'[s]? = some (some code')
  complete : ∀ (s : Nat) (bits : Bits), s < codes.length → Path t p bits s → ∃ code,
    codes'[s]? = some (some code)

theorem filled_symbol {p : Nat} (hp : t.isSymbol p = true) (pre : Bits) (codes : List (Option Bits)) :
    Filled t p pre codes (codes.set p (some pre)) := by
  constructor
  · simp
  · intro s code hs
    by_cases hsp : s = p
    · subst hsp
      refine .inr ⟨[], ?_, .leaf hp⟩
      have hlt := (List.getElem?_eq_some_iff.mp hs).1
      rw [List.getElem?_set_self (by simpa using hlt)] at hs
      simpa using hs.symm
    · rw [List.getElem?_set_ne (Ne.symm hsp)] at hs
      exact .inl hs
  · intro s code hs
    by_cases hsp : s = p
    · subst hsp
      exact ⟨pre, List.getElem?_set_self (List.getElem?_eq_some_iff.mp hs).1⟩
    · exact ⟨code, by rw [List.getElem?_set_ne (Ne.symm hsp)]; exact hs⟩
  · intro s bits hlt hpath
    cases hpath with
    | leaf => exact ⟨pre, List.getElem?_set_self hlt⟩
    | node hc => simp [HuffmanTree.child, hp] at hc

/-- One inner node: its left subtree, then its right one. -/
theorem filled_node {p l r : Nat} {pre : Bits} {codes codes₁ codes₂ : List (Option Bits)}
    (hp : t.isSymbol p = false) (hl : t.child p false = some l) (hr : t.child p true = some r)
    (h₁ : Filled t l (pre ++ [false]) codes codes₁)
    (h₂ : Filled t r (pre ++ [true]) codes₁ codes₂) : Filled t p pre codes codes₂ := by
  constructor
  · rw [h₂.length, h₁.length]
  · intro s code hs
    rcases h₂.sound s code hs with hs | ⟨bits, hcode, hpath⟩
    · rcases h₁.sound s code hs with hs | ⟨bits, hcode, hpath⟩
      · exact .inl hs
      · exact .inr ⟨false :: bits, by simp [hcode], .node hl hpath⟩
    · exact .inr ⟨true :: bits, by simp [hcode], .node hr hpath⟩
  · intro s code hs
    obtain ⟨code₁, hs⟩ := h₁.kept s code hs
    exact h₂.kept s code₁ hs
  · intro s bits hlt hpath
    cases hpath with
    | leaf hs => simp [hs] at hp
    | @node p c s b bits hc hpath =>
      cases b with
      | false =>
        obtain rfl : l = c := Option.some.inj (hl.symm.trans hc)
        obtain ⟨code, hs⟩ := h₁.complete s bits hlt hpath
        exact h₂.kept s code hs
      | true =>
        obtain rfl : r = c := Option.some.inj (hr.symm.trans hc)
        exact h₂.complete s bits (h₁.length ▸ hlt) hpath

theorem Wellformed.table (h : Wellformed t) (fuel : Nat) :
    ∀ p pre codes, p ≤ t.root → p < t.numSymbols + fuel →
      ∃ codes', Huffman.table t (fuel + 1) p pre codes = some codes' ∧ Filled t p pre codes codes' := by
  induction fuel with
  | zero =>
    intro p pre codes _ hlt
    have hp : t.isSymbol p = true := by simpa [HuffmanTree.isSymbol] using hlt
    exact ⟨_, by rw [Huffman.table, if_pos hp], filled_symbol hp pre codes⟩
  | succ fuel ih =>
    intro p pre codes hle hlt
    cases hp : t.isSymbol p with
    | true => exact ⟨_, by rw [Huffman.table, if_pos hp], filled_symbol hp pre codes⟩
    | false =>
      obtain ⟨l, hl⟩ := h.exists_child hp hle false
      obtain ⟨r, hr⟩ := h.exists_child hp hle true
      have hlp := h.child_lt p false l hl
      have hrp := h.child_lt p true r hr
      obtain ⟨codes₁, heq₁, hfill₁⟩ := ih l (pre ++ [false]) codes (by omega) (by omega)
      obtain ⟨codes₂, heq₂, hfill₂⟩ := ih r (pre ++ [true]) codes₁ (by omega) (by omega)
      refine ⟨codes₂, ?_, filled_node hp hl hr hfill₁ hfill₂⟩
      rw [Huffman.table, if_neg (by simp [hp]), hl, hr]
      simp only [heq₁, Option.bind_some, heq₂]

/-- The table gives every symbol the bits of a path from the root. -/
theorem Wellformed.exists_code (h : Wellformed t) (hs : s < t.numSymbols) :
    ∃ codes code, Huffman.codes t = some codes ∧ codes[s]? = some (some code) ∧
      Path t t.root code s := by
  have htwo := h.two_le
  obtain ⟨codes, heq, hfill⟩ := h.table (t.numSymbols - 1) t.root []
    (List.replicate t.numSymbols none) (Nat.le_refl _) (by simp only [HuffmanTree.root]; omega)
  rw [Nat.sub_add_cancel (by omega)] at heq
  obtain ⟨bits, hpath⟩ := h.exists_path hs
  obtain ⟨code, hcode⟩ := hfill.complete s bits (by simpa using hs) hpath
  refine ⟨codes, code, heq, hcode, ?_⟩
  rcases hfill.sound s code hcode with hold | ⟨bits, rfl, hpath⟩
  · simp [hs] at hold
  · exact hpath

/-- Decoding where a symbol was encoded returns it and consumes its code. -/
theorem Wellformed.encode_decode (h : Wellformed t) (hs : s < t.numSymbols) :
    ∃ code, code ≠ [] ∧ (∀ buf, Huffman.encode t buf s = some (buf ++ code)) ∧
      Reads (Huffman.decode t) code s := by
  obtain ⟨codes, code, hcodes, hcode, hpath⟩ := h.exists_code hs
  have hne : code ≠ [] := by
    rintro rfl
    have htwo := h.two_le
    have hroot : ¬t.root < t.numSymbols := by
      rw [HuffmanTree.root]
      omega
    cases hpath with
    | leaf hsym => exact hroot (by simpa [HuffmanTree.isSymbol] using hsym)
  refine ⟨code, hne, ?_, ?_⟩
  · intro buf
    simp [Huffman.encode, hcodes, hcode]
  · intro pre post
    have hlen := List.length_pos_iff.mpr hne
    rw [Huffman.decode, if_neg (by simp only [List.length_append]; omega)]
    exact decodeLoop_path hpath pre post

end Table

section Generate

open HuffmanTreeGenerator

variable {num n ref : Nat} {q nodes : List (Nat × Nat)}

theorem multimapInsert_perm (e : Nat × Nat) (q : List (Nat × Nat)) : (multimapInsert e q).Perm (e :: q) := by
  induction q with
  | nil => exact List.Perm.refl _
  | cons x q ih =>
    rw [multimapInsert]
    split
    · exact List.Perm.refl _
    · exact (ih.cons x).trans (List.Perm.swap e x q)

theorem symbolQueue_perm (freqs : List Nat) : (symbolQueue freqs).Perm freqs.zipIdx := by
  have hfold : ∀ (es q : List (Nat × Nat)),
      (es.foldl (fun q e => multimapInsert e q) q).Perm (es ++ q) := by
    intro es
    induction es with
    | nil => exact fun q => List.Perm.refl _
    | cons e es ih =>
      intro q
      rw [List.foldl_cons]
      refine (ih _).trans ?_
      refine ((multimapInsert_perm e q).append_left es).trans ?_
      exact List.perm_middle
  have hall := hfold freqs.zipIdx []
  rwa [List.append_nil] at hall

/-- The references made so far are those in the queue and the children of inner nodes. -/
structure Building (num ref : Nat) (q nodes : List (Nat × Nat)) : Prop where
  ref_eq : ref = num + nodes.length
  length_queue : q.length + nodes.length = num
  queue_lt : ∀ e ∈ q, e.2 < ref
  covered : ∀ r < ref, r ∈ q.map (·.2) ∨ ∃ c ∈ nodes, r = c.1 ∨ r = c.2
  child_lt : ∀ i c, nodes[i]? = some c → c.1 < num + i ∧ c.2 < num + i

theorem building_symbols (freqs : List Nat) :
    Building freqs.length freqs.length (symbolQueue freqs) [] := by
  have hperm := symbolQueue_perm freqs
  have hmem : ∀ r, r ∈ (symbolQueue freqs).map (·.2) ↔ r < freqs.length := by
    intro r
    rw [(hperm.map _).mem_iff]
    simp
  constructor
  · rfl
  · simpa using hperm.length_eq
  · intro e he
    exact (hmem e.2).mp (List.mem_map_of_mem (f := (·.2)) he)
  · intro r hr
    exact .inl ((hmem r).mpr hr)
  · simp

theorem building_step {left right : Nat × Nat} (freq : Nat)
    (h : Building num ref (left :: right :: q) nodes) :
    Building num (ref + 1) (multimapInsert (freq, ref) q) (nodes ++ [(left.2, right.2)]) := by
  have hleft := h.queue_lt left (by simp)
  have hright := h.queue_lt right (by simp)
  have hmem : ∀ r, r ∈ (multimapInsert (freq, ref) q).map (·.2) ↔ r = ref ∨ r ∈ q.map (·.2) := by
    intro r
    rw [((multimapInsert_perm (freq, ref) q).map _).mem_iff]
    simp
  constructor
  · simp [h.ref_eq, Nat.add_assoc]
  · have hlen := h.length_queue
    rw [(multimapInsert_perm (freq, ref) q).length_eq]
    simp only [List.length_cons, List.length_append, List.length_nil] at hlen ⊢
    omega
  · intro e he
    rcases (hmem e.2).mp (List.mem_map_of_mem (f := (·.2)) he) with heq | he
    · omega
    · obtain ⟨e', he', heq⟩ := List.mem_map.mp he
      have hlt := h.queue_lt e' (by simp [he'])
      omega
  · intro r hr
    by_cases heq : r = ref
    · exact .inl ((hmem r).mpr (.inl heq))
    · rcases h.covered r (by omega) with hq | ⟨c, hc, hrc⟩
      · simp only [List.map_cons, List.mem_cons] at hq
        rcases hq with rfl | rfl | hq
        · exact .inr ⟨(left.2, right.2), by simp, .inl rfl⟩
        · exact .inr ⟨(left.2, right.2), by simp, .inr rfl⟩
        · exact .inl ((hmem r).mpr (.inr hq))
      · exact .inr ⟨c, by simp [hc], hrc⟩
  · intro i c hc
    have href := h.ref_eq
    rcases Nat.lt_trichotomy i nodes.length with hi | hi | hi
    · rw [List.getElem?_append_left hi] at hc
      exact h.child_lt i c hc
    · subst hi
      simp only [List.getElem?_concat_length, Option.some.injEq] at hc
      subst hc
      exact ⟨by omega, by omega⟩
    · rw [List.getElem?_eq_none (by simp; omega)] at hc
      cases hc

theorem generateLoop_spec (h : Building num ref q nodes) (hn : n + nodes.length + 1 = num) :
    ∃ nodes' q', generateLoop n ref q nodes = some nodes' ∧ nodes'.length + 1 = num ∧
      Building num (ref + n) q' nodes' := by
  induction n generalizing ref q nodes with
  | zero => exact ⟨nodes, q, rfl, by omega, h⟩
  | succ n ih =>
    have hlen := h.length_queue
    match q, h, hlen with
    | [], h, hlen => simp at hlen; omega
    | [_], h, hlen => simp at hlen; omega
    | left :: right :: q, h, hlen =>
      have hstep := building_step ((left.1 + right.1) % 2 ^ 64) h
      obtain ⟨nodes', q', hgen, hlen', hb⟩ := ih hstep (by simp; omega)
      refine ⟨nodes', q', hgen, hlen', ?_⟩
      rw [show ref + (n + 1) = ref + 1 + n by omega]
      exact hb

/-- `generate` builds a well-formed tree over any frequencies. -/
theorem generate_wellformed (freqs : List Nat) (htwo : 2 ≤ freqs.length) :
    ∃ t, generate freqs = some t ∧ t.numSymbols = freqs.length ∧ Wellformed t := by
  obtain ⟨nodes, q, hgen, hlen, hb⟩ :=
    generateLoop_spec (n := freqs.length - 1) (building_symbols freqs) (by simp; omega)
  refine ⟨⟨freqs.length, nodes⟩, by simp [generate, hgen], rfl, ?_⟩
  have hchild : ∀ p b c, (HuffmanTree.mk freqs.length nodes).child p b = some c →
      freqs.length ≤ p ∧ ∃ cs, nodes[p - freqs.length]? = some cs ∧
        c = if b then cs.2 else cs.1 := by
    intro p b c hc
    simp only [HuffmanTree.child, HuffmanTree.isSymbol, decide_eq_true_eq] at hc
    split at hc
    · cases hc
    · obtain ⟨cs, hcs, rfl⟩ := Option.map_eq_some_iff.mp hc
      exact ⟨by omega, cs, hcs, rfl⟩
  constructor
  · exact htwo
  · simp only
    omega
  · intro p b c hc
    obtain ⟨hp, cs, hcs, rfl⟩ := hchild p b c hc
    have hlt := hb.child_lt _ cs hcs
    cases b <;> simp <;> omega
  · intro r hr
    simp only [HuffmanTree.root] at hr ⊢
    have href := hb.ref_eq
    have hqlen := hb.length_queue
    -- the root is the one reference left in the queue
    have hroot : freqs.length * 2 - 2 ∈ q.map (·.2) := by
      rcases hb.covered (freqs.length * 2 - 2) (by omega) with hq | ⟨c, hc, hrc⟩
      · exact hq
      · obtain ⟨i, hi⟩ := List.mem_iff_getElem?.mp hc
        have hlt := hb.child_lt i c hi
        have hi' := (List.getElem?_eq_some_iff.mp hi).1
        omega
    obtain ⟨e, he⟩ := List.length_eq_one_iff.mp (show q.length = 1 by omega)
    rcases hb.covered r (by omega) with hq | ⟨c, hc, hrc⟩
    · rw [he] at hq hroot
      simp only [List.map_cons, List.map_nil, List.mem_singleton] at hq hroot
      omega
    · obtain ⟨i, hi⟩ := List.mem_iff_getElem?.mp hc
      have hi' := (List.getElem?_eq_some_iff.mp hi).1
      have hget : ∀ b, (HuffmanTree.mk freqs.length nodes).child (freqs.length + i) b =
          some (if b then c.2 else c.1) := by
        intro b
        simp [HuffmanTree.child, HuffmanTree.isSymbol, hi]
      rcases hrc with rfl | rfl
      · exact ⟨freqs.length + i, false, by omega, by simpa using hget false⟩
      · exact ⟨freqs.length + i, true, by omega, by simpa using hget true⟩

end Generate

end FawnKV.Cindex
