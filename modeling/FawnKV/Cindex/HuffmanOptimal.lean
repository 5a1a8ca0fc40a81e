import FawnKV.Cindex.HuffmanShape
import FawnKV.Lib.OptimalTree
import Mathlib.Logic.Function.Basic

/-! The generated tree has the least weighted path length of all binary trees with the same symbols. -/
namespace FawnKV.Cindex

open OptimalTree HuffmanTreeGenerator

/-- The tree below a reference. -/
inductive Denotes (t : HuffmanTree) : Nat → BinTree Nat → Prop
  | leaf {s : Nat} : t.isSymbol s = true → Denotes t s (.leaf s)
  | node {p l r : Nat} {L R : BinTree Nat} :
      t.child p false = some l → t.child p true = some r → Denotes t l L → Denotes t r R →
      Denotes t p (.node L R)

section Queue

variable {e : Nat × Nat} {q : List (Nat × Nat)}

/-- The order of a multimap. -/
def Sorted (q : List (Nat × Nat)) : Prop := q.Pairwise fun x y => x.1 ≤ y.1

theorem multimapInsert_sorted (e : Nat × Nat) (h : Sorted q) : Sorted (multimapInsert e q) := by
  induction q with
  | nil => exact List.pairwise_singleton _ _
  | cons x q ih =>
    obtain ⟨hx, hq⟩ := List.pairwise_cons.mp h
    rw [multimapInsert]
    split
    · rename_i hlt
      refine List.pairwise_cons.mpr ⟨fun y hy => ?_, h⟩
      rcases List.mem_cons.mp hy with rfl | hy
      · exact Nat.le_of_lt hlt
      · exact Nat.le_trans (Nat.le_of_lt hlt) (hx y hy)
    · rename_i hge
      refine List.pairwise_cons.mpr ⟨fun y hy => ?_, ih hq⟩
      rcases List.mem_cons.mp ((multimapInsert_perm e q).mem_iff.mp hy) with rfl | hy
      · exact Nat.le_of_not_lt hge
      · exact hx y hy

theorem symbolQueue_sorted (freqs : List Nat) : Sorted (symbolQueue freqs) := by
  have hfold : ∀ (es q : List (Nat × Nat)), Sorted q → Sorted (es.foldl (fun q e => multimapInsert e q) q) := by
    intro es
    induction es with
    | nil => exact fun q hq => hq
    | cons e es ih => exact fun q hq => ih _ (multimapInsert_sorted e hq)
  exact hfold freqs.zipIdx [] List.Pairwise.nil

end Queue

section Forests

variable {f : Nat → Nat} {num ref n p : Nat} {nodes nodes' more q : List (Nat × Nat)} {left right : Nat × Nat}
  {tree : Nat → BinTree Nat} {T : BinTree Nat}

theorem child_append {b : Bool} {c : Nat} (h : HuffmanTree.child ⟨num, nodes⟩ p b = some c) :
    HuffmanTree.child ⟨num, nodes ++ more⟩ p b = some c := by
  rw [HuffmanTree.child] at h ⊢
  split at h
  · cases h
  · rename_i hp
    obtain ⟨cs, hcs, hc⟩ := Option.map_eq_some_iff.mp h
    have hlt := (List.getElem?_eq_some_iff.mp hcs).1
    rw [if_neg (show ¬HuffmanTree.isSymbol ⟨num, nodes ++ more⟩ p = true from hp)]
    simp only at hcs ⊢
    rw [List.getElem?_append_left hlt, hcs, Option.map_some, hc]

theorem Denotes.append (h : Denotes ⟨num, nodes⟩ p T) (more : List (Nat × Nat)) :
    Denotes ⟨num, nodes ++ more⟩ p T := by
  induction h with
  | leaf hs => exact .leaf hs
  | node hl hr _ _ ihl ihr => exact .node (child_append hl) (child_append hr) ihl ihr

/-- The trees of the references in the queue, each as heavy as its entry says. -/
structure Forest (f : Nat → Nat) (num : Nat) (nodes q : List (Nat × Nat))
    (tree : Nat → BinTree Nat) : Prop where
  denotes : ∀ e ∈ q, Denotes ⟨num, nodes⟩ e.2 (tree e.2)
  weight : ∀ e ∈ q, ((tree e.2).leaves.map f).sum = e.1

def forestCost (f : Nat → Nat) (q : List (Nat × Nat)) (tree : Nat → BinTree Nat) : Nat :=
  (q.map fun e => (tree e.2).weightedPathLength f).sum

def forestLeaves (q : List (Nat × Nat)) (tree : Nat → BinTree Nat) : List Nat :=
  q.flatMap fun e => (tree e.2).leaves

/-- The trees when two of them have become the children of a new node. -/
def joined (tree : Nat → BinTree Nat) (left right ref : Nat) : Nat → BinTree Nat :=
  Function.update tree ref (.node (tree left) (tree right))

theorem joined_self (tree : Nat → BinTree Nat) (left right ref : Nat) :
    joined tree left right ref ref = .node (tree left) (tree right) := Function.update_self ..

theorem joined_of_lt {left right r : Nat} (h : r < ref) : joined tree left right ref r = tree r :=
  Function.update_of_ne (Nat.ne_of_lt h) ..

theorem forest_step (h : Forest f num nodes (left :: right :: q) tree) (href : ref = num + nodes.length)
    (hfresh : ∀ e ∈ left :: right :: q, e.2 < ref) :
    Forest f num (nodes ++ [(left.2, right.2)]) (multimapInsert (left.1 + right.1, ref) q)
      (joined tree left.2 right.2 ref) := by
  have hleft := h.denotes left (by simp)
  have hright := h.denotes right (by simp)
  have hchild : ∀ b, HuffmanTree.child ⟨num, nodes ++ [(left.2, right.2)]⟩ ref b =
      some (if b then right.2 else left.2) := by
    intro b
    simp [HuffmanTree.child, HuffmanTree.isSymbol, href]
  have hq : ∀ e ∈ q, e.2 < ref := fun e he => hfresh e (by simp [he])
  refine ⟨fun e he => ?_, fun e he => ?_⟩
  · rcases List.mem_cons.mp ((multimapInsert_perm _ q).mem_iff.mp he) with rfl | he
    · rw [joined_self]
      exact .node (hchild false) (hchild true) (hleft.append _) (hright.append _)
    · rw [joined_of_lt (hq e he)]
      exact (h.denotes e (by simp [he])).append _
  · rcases List.mem_cons.mp ((multimapInsert_perm _ q).mem_iff.mp he) with rfl | he
    · rw [joined_self, BinTree.leaves, List.map_append, List.sum_append, h.weight left (by simp),
        h.weight right (by simp)]
    · rw [joined_of_lt (hq e he)]
      exact h.weight e (by simp [he])

theorem forestCost_step (h : Forest f num nodes (left :: right :: q) tree)
    (hfresh : ∀ e ∈ left :: right :: q, e.2 < ref) (freq : Nat) :
    forestCost f (multimapInsert (freq, ref) q) (joined tree left.2 right.2 ref) =
      forestCost f (left :: right :: q) tree + (left.1 + right.1) := by
  have hsame : (q.map fun e => (joined tree left.2 right.2 ref e.2).weightedPathLength f) =
      q.map fun e => (tree e.2).weightedPathLength f :=
    List.map_congr_left fun e he => by rw [joined_of_lt (hfresh e (by simp [he]))]
  rw [forestCost, ((multimapInsert_perm (freq, ref) q).map _).sum_eq, List.map_cons, List.sum_cons,
    joined_self, hsame, weightedPathLength_node, h.weight left (by simp), h.weight right (by simp),
    forestCost, List.map_cons, List.map_cons, List.sum_cons, List.sum_cons]
  omega

theorem forestLeaves_step (hfresh : ∀ e ∈ left :: right :: q, e.2 < ref) (freq : Nat) :
    (forestLeaves (multimapInsert (freq, ref) q) (joined tree left.2 right.2 ref)).Perm
      (forestLeaves (left :: right :: q) tree) := by
  have hsame : (q.flatMap fun e => (joined tree left.2 right.2 ref e.2).leaves) =
      q.flatMap fun e => (tree e.2).leaves :=
    List.flatMap_congr fun e he => by rw [joined_of_lt (hfresh e (by simp [he]))]
  refine ((multimapInsert_perm (freq, ref) q).flatMap_right _).trans ?_
  rw [List.flatMap_cons, joined_self, hsame, forestLeaves, List.flatMap_cons, List.flatMap_cons, BinTree.leaves,
    List.append_assoc]

/-- The merges cost no more than any tree over the weights in the queue. -/
theorem generateLoop_optimal (h : Forest f num nodes q tree) (href : ref = num + nodes.length)
    (hsorted : Sorted q) (hfresh : ∀ e ∈ q, e.2 < ref) (hlast : n = 0 → ∀ e ∈ q, e.2 + 1 = ref)
    (hlength : q.length = n + 1)
    (hsum : (q.map Prod.fst).sum < 2 ^ 64) (hgen : generateLoop n ref q nodes = some nodes') :
    ∃ T, Denotes ⟨num, nodes'⟩ (ref + n - 1) T ∧ T.leaves.Perm (forestLeaves q tree) ∧
      ∃ M, T.weightedPathLength f = forestCost f q tree + M ∧
        ∀ P : Multiset (Nat × Nat), Realizable (P.map Prod.snd) → P.map Prod.fst = q.map Prod.fst →
          M ≤ cost P := by
  induction n generalizing ref q nodes tree with
  | zero =>
    obtain ⟨e, rfl⟩ := List.length_eq_one_iff.mp hlength
    cases hgen
    have hroot := hlast rfl e (by simp)
    refine ⟨tree e.2, ?_, ?_, 0, ?_, fun P _ _ => Nat.zero_le _⟩
    · rw [show ref + 0 - 1 = e.2 by omega]
      exact h.denotes e (by simp)
    · simp [forestLeaves]
    · simp [forestCost]
  | succ n ih =>
    match q, h, hsorted, hfresh, hlength, hsum, hgen with
    | left :: right :: q, h, hsorted, hfresh, hlength, hsum, hgen =>
      have hperm := multimapInsert_perm (left.1 + right.1, ref) q
      obtain ⟨hleft, htail⟩ := List.pairwise_cons.mp hsorted
      obtain ⟨hright, hq⟩ := List.pairwise_cons.mp htail
      simp only [List.map_cons, List.sum_cons] at hsum
      simp only [List.length_cons] at hlength
      rw [generateLoop, Nat.mod_eq_of_lt (by omega)] at hgen
      obtain ⟨T, hT, hleaves, M, hcost, hM⟩ := ih (forest_step h href hfresh)
        (by rw [List.length_append, List.length_singleton, href, Nat.add_assoc]) (multimapInsert_sorted _ hq)
        (by
          intro e he
          rcases List.mem_cons.mp (hperm.mem_iff.mp he) with rfl | he
          · exact Nat.lt_succ_self ref
          · exact Nat.lt_succ_of_lt (hfresh e (by simp [he])))
        (by
          rintro rfl e he
          rw [List.length_eq_zero_iff.mp (by omega : q.length = 0)] at he
          obtain rfl := List.mem_singleton.mp he
          rfl)
        (by rw [hperm.length_eq, List.length_cons]; omega)
        (by rw [(hperm.map _).sum_eq, List.map_cons, List.sum_cons]; omega) hgen
      refine ⟨T, ?_, hleaves.trans (forestLeaves_step hfresh _), M + (left.1 + right.1), ?_,
        fun P hP hweights => ?_⟩
      · rwa [show ref + (n + 1) - 1 = ref + 1 + n - 1 by omega]
      · rw [hcost, forestCost_step h hfresh]
        omega
      · obtain ⟨Q, hQ, hQweights, hle⟩ := merge_le hP (a := left.1) (b := right.1)
          (W := q.map Prod.fst) hweights
          (hleft right (by simp)) (by
            intro w hw
            obtain ⟨e, he, rfl⟩ := List.mem_map.mp (Multiset.mem_coe.mp hw)
            exact hright e he)
        have hmerged : Q.map Prod.fst = (multimapInsert (left.1 + right.1, ref) q).map Prod.fst := by
          rw [hQweights]
          exact Multiset.coe_eq_coe.mpr (hperm.map Prod.fst).symm
        exact Nat.le_trans (Nat.add_le_add_right (hM Q hQ hmerged) _) hle

end Forests

section Optimal

variable {freqs : List Nat}

/-- The trees of single symbols. -/
theorem forest_symbols (freqs : List Nat) :
    Forest (fun s => freqs.getD s 0) freqs.length [] (symbolQueue freqs) BinTree.leaf := by
  have hmem : ∀ e ∈ symbolQueue freqs, freqs[e.2]? = some e.1 := fun e he =>
    List.mem_zipIdx_iff_getElem?.mp ((symbolQueue_perm freqs).mem_iff.mp he)
  refine ⟨fun e he => .leaf ?_, fun e he => ?_⟩
  · have hlt := (List.getElem?_eq_some_iff.mp (hmem e he)).1
    simpa [HuffmanTree.isSymbol] using hlt
  · rw [BinTree.leaves, List.map_singleton, List.sum_singleton, List.getD_eq_getElem?_getD,
      hmem e he, Option.getD_some]

theorem forest_symbols_cost (q : List (Nat × Nat)) (f : Nat → Nat) : forestCost f q BinTree.leaf = 0 := by
  refine List.sum_eq_zero fun x hx => ?_
  obtain ⟨e, -, rfl⟩ := List.mem_map.mp hx
  simp [BinTree.weightedPathLength, BinTree.weighed, cost]

theorem forest_symbols_leaves (freqs : List Nat) :
    (forestLeaves (symbolQueue freqs) BinTree.leaf).Perm (List.range freqs.length) := by
  have honce := once_symbols freqs
  rw [Once, show childrenOf [] = [] from rfl, List.append_nil] at honce
  rw [List.map_eq_flatMap] at honce
  exact honce

theorem map_range_freqs (freqs : List Nat) :
    (List.range freqs.length).map (fun s => freqs.getD s 0) = freqs := by
  refine List.ext_getElem (by rw [List.length_map, List.length_range]) fun i hi hi' => ?_
  rw [List.getElem_map, List.getElem_range, List.getD_eq_getElem _ _ hi']

/-- The tree of `generate` costs no more than any binary tree over the same symbols. -/
theorem generate_optimal (htwo : 2 ≤ freqs.length) (hsum : freqs.sum < 2 ^ 64) :
    ∃ t, generate freqs = some t ∧ ∃ T, Denotes t t.root T ∧ T.leaves.Perm (List.range freqs.length) ∧
      ∀ T' : BinTree Nat, T'.leaves.Perm (List.range freqs.length) →
        T.weightedPathLength (fun s => freqs.getD s 0) ≤ T'.weightedPathLength fun s => freqs.getD s 0 := by
  obtain ⟨t, hgen, hnum, hwell⟩ := generate_wellformed freqs htwo
  refine ⟨t, hgen, ?_⟩
  rw [generate] at hgen
  obtain ⟨nodes, hloop, rfl⟩ := Option.map_eq_some_iff.mp hgen
  have hqueue := symbolQueue_perm freqs
  have hweights : ((symbolQueue freqs).map Prod.fst).Perm freqs := by
    have hperm := hqueue.map Prod.fst
    rwa [List.zipIdx_map_fst] at hperm
  obtain ⟨T, hT, hleaves, M, hcost, hM⟩ :=
    generateLoop_optimal (forest_symbols freqs) rfl (symbolQueue_sorted freqs)
    (building_symbols freqs).queue_lt (by omega) (by rw [hqueue.length_eq, List.length_zipIdx]; omega)
    (by rwa [hweights.sum_eq]) hloop
  have hroot : freqs.length + (freqs.length - 1) - 1 = HuffmanTree.root ⟨freqs.length, nodes⟩ := by
    rw [HuffmanTree.root]
    omega
  refine ⟨T, hroot ▸ hT, hleaves.trans (forest_symbols_leaves freqs), fun T' hleaves' => ?_⟩
  obtain ⟨P, hP, hPweights, hle⟩ := exists_realizable (f := fun s => freqs.getD s 0) T' (D := 0) .root
  rw [add_zero] at hP
  have hfreqs : P.map Prod.fst = (symbolQueue freqs).map Prod.fst := by
    rw [hPweights]
    exact Multiset.coe_eq_coe.mpr ((hleaves'.map _).trans ((map_range_freqs freqs).symm ▸ hweights.symm))
  rw [hcost, forest_symbols_cost, Nat.zero_add]
  exact Nat.le_trans (hM P hP hfreqs) hle

theorem generate_optimal_zero :
    ∃ t, generate [3, 0, 3] = some t ∧ ∃ T, Denotes t t.root T ∧ T.leaves.Perm (List.range 3) ∧
      ∀ T' : BinTree Nat, T'.leaves.Perm (List.range 3) →
        T.weightedPathLength (fun s => [3, 0, 3].getD s 0) ≤
          T'.weightedPathLength fun s => [3, 0, 3].getD s 0 :=
  @generate_optimal [3, 0, 3] (by decide) (by decide)

end Optimal

end FawnKV.Cindex
