import FawnKV.Cindex.Huffman
import Mathlib.Data.List.Perm.Basic
import Mathlib.Data.List.Range

/-! The shape of a generated tree: every reference but the root is a child in one place. -/
namespace FawnKV.Cindex

open BitCode

section Children

/-- The children of all inner nodes, left then right. -/
def childrenOf (nodes : List (Nat × Nat)) : List Nat := nodes.flatMap fun c => [c.1, c.2]

def HuffmanTree.children (t : HuffmanTree) : List Nat := childrenOf t.nodes

theorem childrenOf_append (nodes : List (Nat × Nat)) (left right : Nat) :
    childrenOf (nodes ++ [(left, right)]) = childrenOf nodes ++ [left, right] := by
  rw [childrenOf, List.flatMap_append]
  rfl

theorem childrenOf_getElem? (nodes : List (Nat × Nat)) (i : Nat) :
    (childrenOf nodes)[2 * i]? = nodes[i]?.map (·.1) ∧
      (childrenOf nodes)[2 * i + 1]? = nodes[i]?.map (·.2) := by
  induction nodes generalizing i with
  | nil => exact ⟨rfl, rfl⟩
  | cons c nodes ih =>
    cases i with
    | zero => exact ⟨rfl, rfl⟩
    | succ i => exact ih i

variable {t : HuffmanTree} {p q c : Nat} {b b' : Bool}

theorem child_getElem? (h : t.child p b = some c) :
    t.numSymbols ≤ p ∧ t.children[2 * (p - t.numSymbols) + b.toNat]? = some c := by
  rw [HuffmanTree.child, HuffmanTree.isSymbol] at h
  split at h
  · cases h
  · rename_i hp
    obtain ⟨hleft, hright⟩ := childrenOf_getElem? t.nodes (p - t.numSymbols)
    refine ⟨by simpa using hp, ?_⟩
    cases b with
    | false => rw [HuffmanTree.children, Bool.toNat_false, Nat.add_zero, hleft]; simpa using h
    | true => rw [HuffmanTree.children, Bool.toNat_true, hright]; simpa using h

theorem exists_parent (h : c ∈ t.children) : ∃ p b, t.child p b = some c := by
  obtain ⟨cs, hcs, hc⟩ := List.mem_flatMap.mp h
  obtain ⟨i, hi⟩ := List.mem_iff_getElem?.mp hcs
  have hget : ∀ b, t.child (t.numSymbols + i) b = some (if b then cs.2 else cs.1) := by
    intro b
    simp [HuffmanTree.child, HuffmanTree.isSymbol, hi]
  simp only [List.mem_cons, List.not_mem_nil, or_false] at hc
  rcases hc with rfl | rfl
  · exact ⟨_, false, hget false⟩
  · exact ⟨_, true, hget true⟩

theorem parent_le_root (hwell : Wellformed t) (h : t.child p b = some c) : p ≤ t.root := by
  have htwo := hwell.two_le
  have hlength := hwell.length_nodes
  rw [HuffmanTree.child] at h
  split at h
  · cases h
  · obtain ⟨cs, hcs, -⟩ := Option.map_eq_some_iff.mp h
    have hlt := (List.getElem?_eq_some_iff.mp hcs).1
    rw [HuffmanTree.root]
    omega

/-- Two places of the same child are one place. -/
theorem parent_unique (hnodup : t.children.Nodup) (h : t.child p b = some c) (h' : t.child q b' = some c) :
    p = q ∧ b = b' := by
  obtain ⟨hp, hget⟩ := child_getElem? h
  obtain ⟨hq, hget'⟩ := child_getElem? h'
  have heq := (List.getElem?_inj (List.getElem?_eq_some_iff.mp hget).1 hnodup).mp (hget.trans hget'.symm)
  cases b <;> cases b' <;> simp only [Bool.toNat_false, Bool.toNat_true] at heq
  · exact ⟨by omega, rfl⟩
  · omega
  · omega
  · exact ⟨by omega, rfl⟩

end Children

section Generated

open HuffmanTreeGenerator

variable {n ref : Nat} {q nodes nodes' : List (Nat × Nat)}

/-- The references so far are once each in the queue or among the children. -/
def Once (ref : Nat) (q nodes : List (Nat × Nat)) : Prop :=
  (q.map (·.2) ++ childrenOf nodes).Perm (List.range ref)

theorem once_symbols (freqs : List Nat) : Once freqs.length (symbolQueue freqs) [] := by
  rw [Once, show childrenOf [] = [] from rfl, List.append_nil]
  refine ((symbolQueue_perm freqs).map _).trans ?_
  rw [List.zipIdx_map_snd, List.range_eq_range']

theorem once_step {left right : Nat × Nat} (freq : Nat) (h : Once ref (left :: right :: q) nodes) :
    Once (ref + 1) (multimapInsert (freq, ref) q) (nodes ++ [(left.2, right.2)]) := by
  have hinsert : ((multimapInsert (freq, ref) q).map (·.2)).Perm (ref :: q.map (·.2)) :=
    (multimapInsert_perm (freq, ref) q).map _
  have hmoved : (q.map (·.2) ++ (childrenOf nodes ++ [left.2, right.2])).Perm (List.range ref) := by
    rw [← List.append_assoc]
    exact List.perm_append_comm.trans h
  rw [Once, childrenOf_append, List.range_succ]
  refine (hinsert.append_right _).trans ?_
  exact (List.perm_append_singleton ref _).symm.trans (hmoved.append_right [ref])

theorem generateLoop_once (h : Once ref q nodes) (hlength : q.length = n + 1)
    (hgen : generateLoop n ref q nodes = some nodes') :
    ∃ r, (r :: childrenOf nodes').Perm (List.range (ref + n)) := by
  induction n generalizing ref q nodes with
  | zero =>
    obtain ⟨e, rfl⟩ := List.length_eq_one_iff.mp hlength
    cases hgen
    exact ⟨e.2, h⟩
  | succ n ih =>
    match q, h, hlength, hgen with
    | left :: right :: q, h, hlength, hgen =>
      have hstep := once_step ((left.1 + right.1) % 2 ^ 64) h
      have hlength' : (multimapInsert ((left.1 + right.1) % 2 ^ 64, ref) q).length = n + 1 := by
        rw [(multimapInsert_perm _ q).length_eq]
        simpa using hlength
      obtain ⟨r, hperm⟩ := ih hstep hlength' hgen
      exact ⟨r, by rwa [Nat.add_assoc, Nat.add_comm 1 n] at hperm⟩

end Generated

section Trees

variable {t : HuffmanTree} {p q c s s' : Nat} {bits bits' more : Bits} {freqs : List Nat}

/-- Each symbol is once a leaf, and each inner node but the root is once a child. -/
theorem generate_children (htwo : 2 ≤ freqs.length) (hgen : HuffmanTreeGenerator.generate freqs = some t) :
    t.children.Perm (List.range t.root) := by
  obtain ⟨t', hgen', hnum, hwell⟩ := generate_wellformed freqs htwo
  obtain rfl : t = t' := Option.some.inj (hgen.symm.trans hgen')
  rw [HuffmanTreeGenerator.generate] at hgen
  obtain ⟨nodes, hloop, rfl⟩ := Option.map_eq_some_iff.mp hgen
  obtain ⟨r, hperm⟩ := generateLoop_once (once_symbols freqs)
    (by rw [(symbolQueue_perm freqs).length_eq, List.length_zipIdx]; omega) hloop
  have hroot : freqs.length + (freqs.length - 1) = HuffmanTree.root ⟨freqs.length, nodes⟩ + 1 := by
    simp only [HuffmanTree.root]
    omega
  have hnot : HuffmanTree.root ⟨freqs.length, nodes⟩ ∉ childrenOf nodes := by
    intro hmem
    obtain ⟨p, b, hchild⟩ := exists_parent (t := ⟨freqs.length, nodes⟩) hmem
    have hlt := hwell.child_lt p b _ hchild
    have hle := parent_le_root hwell hchild
    omega
  rw [hroot, List.range_succ] at hperm
  have hperm := hperm.trans (List.perm_append_singleton _ _)
  rcases List.mem_cons.mp (hperm.mem_iff.mpr List.mem_cons_self) with heq | hmem
  · rw [heq] at hperm ⊢
    exact hperm.cons_inv
  · exact absurd hmem hnot

theorem Below.le_root (hwell : Wellformed t) (h : Below t bits q) : q ≤ t.root := by
  induction h with
  | root => exact Nat.le_refl _
  | step _ hc ih => exact Nat.le_trans (Nat.le_of_lt (hwell.child_lt _ _ _ hc)) ih

/-- There is one way down to a reference. -/
theorem Below.unique (hwell : Wellformed t) (hnodup : t.children.Nodup) (h : Below t bits q)
    (h' : Below t bits' q) : bits = bits' := by
  induction h generalizing bits' with
  | root =>
    cases h' with
    | root => rfl
    | step hq hc => exact absurd (hwell.child_lt _ _ _ hc) (Nat.not_lt.mpr (hq.le_root hwell))
  | step hq hc ih =>
    cases h' with
    | root => exact absurd (hwell.child_lt _ _ _ hc) (Nat.not_lt.mpr (hq.le_root hwell))
    | step hq' hc' =>
      obtain ⟨rfl, rfl⟩ := parent_unique hnodup hc hc'
      rw [ih hq']

theorem Below.of_path (h : Below t bits p) (hp : Path t p bits' s) : Below t (bits ++ bits') s := by
  induction hp generalizing bits with
  | leaf => rwa [List.append_nil]
  | node hc _ ih =>
    have hbelow := ih (h.step hc)
    rwa [List.append_assoc] at hbelow

theorem Path.unique (hwell : Wellformed t) (hnodup : t.children.Nodup) (h : Path t t.root bits s)
    (h' : Path t t.root bits' s) : bits = bits' :=
  Below.unique hwell hnodup (Below.root.of_path h) (Below.root.of_path h')

/-- A path does not go on below a symbol. -/
theorem Path.prefix_eq (h : Path t p bits s) (h' : Path t p (bits ++ more) s') : s = s' ∧ more = [] := by
  induction h with
  | leaf hs =>
    cases h' with
    | leaf => exact ⟨rfl, rfl⟩
    | node hc => simp [HuffmanTree.child, hs] at hc
  | node hc _ ih =>
    cases h' with
    | node hc' htail =>
      obtain rfl := Option.some.inj (hc.symm.trans hc')
      exact ih htail

end Trees

end FawnKV.Cindex
