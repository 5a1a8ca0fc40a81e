import Mathlib.Algebra.BigOperators.Group.Multiset.Basic
import Mathlib.Algebra.Order.Group.Multiset
import Mathlib.Tactic.Ring
import Mathlib.Tactic.Linarith

/-! Binary trees with weights at the leaves: merging two of the least weights costs no more than any tree
does. -/
namespace OptimalTree

/-- Binary trees; an inner node has one child or two. -/
inductive BinTree (α : Type) where
  | leaf (a : α)
  | single (child : BinTree α)
  | node (left right : BinTree α)

namespace BinTree

variable {α : Type} (f : α → Nat)

def leaves : BinTree α → List α
  | leaf a => [a]
  | single t => t.leaves
  | node l r => l.leaves ++ r.leaves

/-- The weights of the leaves with their depths, where the root has depth `d`. -/
def weighed : BinTree α → Nat → Multiset (Nat × Nat)
  | leaf a, d => {(f a, d)}
  | single t, d => t.weighed (d + 1)
  | node l r, d => l.weighed (d + 1) + r.weighed (d + 1)

end BinTree

/-- The sum of all products of a weight and its depth. -/
def cost (P : Multiset (Nat × Nat)) : Nat := (P.map fun p => p.1 * p.2).sum

def BinTree.weightedPathLength {α : Type} (f : α → Nat) (t : BinTree α) : Nat := cost (t.weighed f 0)

/-- The depths of the leaves of a tree in which every inner node has two children. -/
inductive Realizable : Multiset Nat → Prop
  | root : Realizable {0}
  | split {d : Nat} {D : Multiset Nat} : Realizable (d ::ₘ D) → Realizable ((d + 1) ::ₘ (d + 1) ::ₘ D)

section Costs

variable {P Q : Multiset (Nat × Nat)} {D E W : Multiset Nat} {a b d : Nat}

theorem cost_cons (p : Nat × Nat) (P : Multiset (Nat × Nat)) : cost (p ::ₘ P) = p.1 * p.2 + cost P := by
  rw [cost, Multiset.map_cons, Multiset.sum_cons, cost]

theorem cost_add (P Q : Multiset (Nat × Nat)) : cost (P + Q) = cost P + cost Q := by
  rw [cost, Multiset.map_add, Multiset.sum_add, cost, cost]

/-- The deepest leaves come in pairs, and a pair can be taken for one leaf. -/
theorem Realizable.deepest (h : Realizable D) (hcard : 2 ≤ D.card) :
    ∃ m E, D = (m + 1) ::ₘ (m + 1) ::ₘ E ∧ (∀ e ∈ E, e ≤ m + 1) ∧ Realizable (m ::ₘ E) := by
  induction h with
  | root => simp at hcard
  | @split d D hD ih =>
    by_cases hmax : ∀ e ∈ D, e ≤ d + 1
    · exact ⟨d, D, rfl, hmax, hD⟩
    · simp only [not_forall, not_le] at hmax
      obtain ⟨e, he, hlt⟩ := hmax
      have hpos : 0 < D.card := Multiset.card_pos_iff_exists_mem.mpr ⟨e, he⟩
      obtain ⟨m, E, heq, hle, hE⟩ := ih (by rw [Multiset.card_cons]; omega)
      have hem : e ≤ m + 1 := by
        have hmem : e ∈ (m + 1) ::ₘ (m + 1) ::ₘ E := heq ▸ Multiset.mem_cons_of_mem he
        rcases Multiset.mem_cons.mp hmem with rfl | hmem
        · exact Nat.le_refl _
        · rcases Multiset.mem_cons.mp hmem with rfl | hmem
          · exact Nat.le_refl _
          · exact hle e hmem
      -- the split leaf is none of the deepest pair
      have hdE : d ∈ E := by
        have hmem : d ∈ (m + 1) ::ₘ (m + 1) ::ₘ E := heq ▸ Multiset.mem_cons_self d D
        rcases Multiset.mem_cons.mp hmem with hd | hmem
        · omega
        · exact (Multiset.mem_cons.mp hmem).resolve_left (by omega)
      obtain ⟨F, rfl⟩ := Multiset.exists_cons_of_mem hdE
      have hD : D = (m + 1) ::ₘ (m + 1) ::ₘ F := by
        rw [Multiset.cons_swap (m + 1) d, Multiset.cons_swap (m + 1) d] at heq
        exact (Multiset.cons_inj_right d).mp heq
      refine ⟨m, (d + 1) ::ₘ (d + 1) ::ₘ F, ?_, fun x hx => ?_, ?_⟩
      · rw [hD, Multiset.cons_swap (d + 1) (m + 1), Multiset.cons_swap (d + 1) (m + 1),
          Multiset.cons_swap (d + 1) (m + 1), Multiset.cons_swap (d + 1) (m + 1)]
      · rcases Multiset.mem_cons.mp hx with rfl | hx
        · omega
        · rcases Multiset.mem_cons.mp hx with rfl | hx
          · omega
          · exact hle x (Multiset.mem_cons_of_mem hx)
      · rw [Multiset.cons_swap m d] at hE
        have hsplit := hE.split
        rwa [Multiset.cons_swap (d + 1) m, Multiset.cons_swap (d + 1) m] at hsplit

theorem exists_cons_of_map {f : Nat × Nat → Nat} {x : Nat} (h : P.map f = x ::ₘ W) :
    ∃ p Q, P = p ::ₘ Q ∧ f p = x ∧ Q.map f = W := by
  obtain ⟨p, hp, hx, hrest⟩ := (Multiset.map_eq_cons f P W x).mpr h
  exact ⟨p, P.erase p, (Multiset.cons_erase hp).symm, hx, hrest⟩

/-- Of all weights the least one may stand deepest. -/
theorem exchange (hw : P.map Prod.fst = a ::ₘ W) (hd : P.map Prod.snd = d ::ₘ D) (hmin : ∀ w ∈ W, a ≤ w)
    (hmax : ∀ e ∈ D, e ≤ d) : ∃ Q, Q.map Prod.fst = W ∧ Q.map Prod.snd = D ∧ a * d + cost Q ≤ cost P := by
  obtain ⟨⟨x, d'⟩, R, rfl, hd', hR⟩ := exists_cons_of_map hd
  obtain rfl : d' = d := hd'
  rw [Multiset.map_cons] at hw
  rcases Multiset.cons_eq_cons.mp hw with ⟨hxa, hW⟩ | ⟨hne, V, hV, hW⟩
  · obtain rfl : x = a := hxa
    exact ⟨R, hW, hR, by rw [cost_cons]⟩
  · obtain ⟨⟨a', e⟩, S, rfl, ha', hS⟩ := exists_cons_of_map hV
    obtain rfl : a' = a := ha'
    have hax : a' ≤ x := hmin x (hW ▸ Multiset.mem_cons_self x V)
    have hed : e ≤ d' := hmax e (by rw [← hR, Multiset.map_cons]; exact Multiset.mem_cons_self e _)
    refine ⟨(x, e) ::ₘ S, by rw [Multiset.map_cons, hS, hW],
      by rw [← hR, Multiset.map_cons, Multiset.map_cons], ?_⟩
    obtain ⟨u, rfl⟩ := Nat.exists_eq_add_of_le hax
    obtain ⟨v, rfl⟩ := Nat.exists_eq_add_of_le hed
    rw [cost_cons, cost_cons, cost_cons]
    calc a' * (e + v) + ((a' + u) * e + cost S)
      _ ≤ a' * (e + v) + ((a' + u) * e + cost S) + u * v := Nat.le_add_right _ _
      _ = (a' + u) * (e + v) + (a' * e + cost S) := by ring

/-- The two least weights may be merged: what is saved is their sum. -/
theorem merge_le (h : Realizable (P.map Prod.snd)) (hw : P.map Prod.fst = a ::ₘ b ::ₘ W) (hab : a ≤ b)
    (hmin : ∀ w ∈ W, b ≤ w) :
    ∃ Q, Realizable (Q.map Prod.snd) ∧ Q.map Prod.fst = (a + b) ::ₘ W ∧ cost Q + (a + b) ≤ cost P := by
  have hcard : 2 ≤ (P.map Prod.snd).card := by
    rw [Multiset.card_map, ← Multiset.card_map Prod.fst, hw, Multiset.card_cons, Multiset.card_cons]
    omega
  obtain ⟨m, E, hD, hmax, hE⟩ := h.deepest hcard
  obtain ⟨Q, hQw, hQd, hcost⟩ := exchange hw hD
    (by
      intro w hmem
      rcases Multiset.mem_cons.mp hmem with rfl | hmem
      · exact hab
      · exact Nat.le_trans hab (hmin w hmem))
    (by
      intro e hmem
      rcases Multiset.mem_cons.mp hmem with rfl | hmem
      · exact Nat.le_refl _
      · exact hmax e hmem)
  obtain ⟨R, hRw, hRd, hcost'⟩ := exchange hQw hQd hmin hmax
  refine ⟨(a + b, m) ::ₘ R, ?_, ?_, ?_⟩
  · rw [Multiset.map_cons, hRd]
    exact hE
  · rw [Multiset.map_cons, hRw]
  · rw [cost_cons]
    calc (a + b) * m + cost R + (a + b) = a * (m + 1) + (b * (m + 1) + cost R) := by ring
      _ ≤ a * (m + 1) + cost Q := Nat.add_le_add_left hcost' _
      _ ≤ cost P := hcost

end Costs

section Trees

variable {α : Type} {f : α → Nat}

/-- A tree that stands one deeper costs its weight more. -/
theorem cost_weighed_succ (t : BinTree α) (d : Nat) :
    cost (t.weighed f (d + 1)) = cost (t.weighed f d) + (t.leaves.map f).sum := by
  induction t generalizing d with
  | leaf a => simp [BinTree.weighed, BinTree.leaves, cost, Nat.mul_add]
  | single t ih => exact ih (d + 1)
  | node l r ihl ihr =>
    rw [BinTree.weighed, BinTree.weighed, cost_add, cost_add, ihl, ihr, BinTree.leaves, List.map_append,
      List.sum_append]
    ring

theorem weightedPathLength_node (l r : BinTree α) : (BinTree.node l r).weightedPathLength f =
    l.weightedPathLength f + r.weightedPathLength f + ((l.leaves.map f).sum + (r.leaves.map f).sum) := by
  rw [BinTree.weightedPathLength, BinTree.weighed, cost_add, cost_weighed_succ, cost_weighed_succ,
    BinTree.weightedPathLength, BinTree.weightedPathLength]
  ring

/-- The inner nodes with one child can be left out. -/
theorem exists_realizable (t : BinTree α) {d : Nat} {D : Multiset Nat} (h : Realizable (d ::ₘ D)) :
    ∃ P, Realizable (P.map Prod.snd + D) ∧ P.map Prod.fst = (t.leaves : Multiset α).map f ∧
      cost P ≤ cost (t.weighed f d) := by
  induction t generalizing d D with
  | leaf a => exact ⟨{(f a, d)}, h, rfl, Nat.le_refl _⟩
  | single t ih =>
    obtain ⟨P, hP, hweights, hle⟩ := ih h
    refine ⟨P, hP, hweights, Nat.le_trans hle ?_⟩
    rw [BinTree.weighed, cost_weighed_succ]
    exact Nat.le_add_right _ _
  | node l r ihl ihr =>
    obtain ⟨P, hP, hweights, hle⟩ := ihl h.split
    rw [Multiset.add_cons] at hP
    obtain ⟨Q, hQ, hweights', hle'⟩ := ihr hP
    refine ⟨P + Q, ?_, ?_, ?_⟩
    · rw [Multiset.map_add, Multiset.add_comm (P.map Prod.snd), Multiset.add_assoc]
      exact hQ
    · rw [Multiset.map_add, hweights, hweights', BinTree.leaves, ← Multiset.coe_add, Multiset.map_add]
    · rw [cost_add, BinTree.weighed, cost_add]
      exact Nat.add_le_add hle hle'

end Trees

end OptimalTree
