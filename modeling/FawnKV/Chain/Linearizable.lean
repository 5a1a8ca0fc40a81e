import Mathlib.Data.List.Perm.Basic
import FawnKV.Lib.Linearizability
import FawnKV.Chain.TailFailure

/-! The calls of the frontends of a chain whose tail may stop, and what a map answers to them. -/
namespace FawnKV.Chain

open IntervalDb Transition Linearizability
open scoped List

variable {K V : Type}

inductive Call (K V : Type) where
  | put (op : Operation K V)
  | get (key : K)

/-- A put is stored, and a get finds a value in the store or none. -/
inductive Response (V : Type) where
  | stored
  | found (value : Option V)

/-- The map after a put or a remove. -/
def write [DecidableEq K] (values : K → Option V) (op : Operation K V) : K → Option V :=
  Function.update values op.key (if op.remove then none else some op.value)

/-- What the chain is for: a map whose calls take effect at once. -/
def mapObject [DecidableEq K] (values : K → Option V) : Call K V → (K → Option V) × Response V
  | .put op => (write values op, .stored)
  | .get key => (values, .found (values key))

/-- `get(key, continuation, ip)` on its way to a node. -/
structure GetMessage (K : Type) where
  node : Nat
  key : K
  continuation : Nat

/-- The chain with the messages between it and the frontends, and the history of their calls. -/
structure Cluster (K V : Type) where
  chain : TailState K V
  puts : List (Operation K V × Nat)
  gets : List (GetMessage K)
  responses : List (Nat × Response V)
  history : List (Event Nat (Call K V) (Response V))

inductive ClusterStep (K V : Type) where
  | put (op : Operation K V) (continuation : Nat)
  | get (key : K) (continuation node : Nat)
  | request (i : Nat) (hops : Int)
  | chain (l : TailStep K V)
  | getHandler (i : Nat)
  | respond (i : Nat)

namespace Cluster

def initial (memory : Nat → Nat) : Cluster K V :=
  { chain := .initial memory, puts := [], gets := [], responses := [], history := [] }

/-- The chain goes on, and the puts that it has answered are answered to the frontends. -/
def advance (s : Cluster K V) (chain : TailState K V) : Cluster K V :=
  { s with
    chain
    responses := s.responses ++
      (chain.answers.drop s.chain.answers.length).map fun call => (call.2, .stored) }

/-- A step of a chain of `k + 2` nodes and its frontends. Messages arrive in any order. A get goes to the tail,
or to the node before it once the tail is down; a node that is down handles none. -/
def step [DecidableEq K] (k : Nat) (s : Cluster K V) : ClusterStep K V → Option (Cluster K V)
  | .put op continuation =>
    some { s with
      puts := s.puts ++ [(op, continuation)]
      history := s.history ++ [.invoke continuation (.put op)] }
  | .get key continuation node =>
    if node = k + 1 ∨ s.chain.chain.down ≠ none ∧ node = k then
      some { s with
        gets := s.gets ++ [⟨node, key, continuation⟩]
        history := s.history ++ [.invoke continuation (.get key)] }
    else none
  | .request i hops =>
    match s.puts[i]? with
    | some (op, continuation) =>
      (s.chain.step k (.request op continuation hops)).map { s with puts := s.puts.eraseIdx i }.advance
    | none => none
  | .chain (.request ..) => none
  | .chain l => (s.chain.step k l).map s.advance
  | .getHandler i =>
    match s.gets[i]? with
    | some m =>
      if s.chain.chain.down = some m.node then none
      else
        some { s with
          gets := s.gets.eraseIdx i
          responses := s.responses ++
            [(m.continuation, .found ((s.chain.chain.replicas m.node).db.get m.key))] }
    | none => none
  | .respond i =>
    match s.responses[i]? with
    | some (continuation, r) =>
      some { s with
        responses := s.responses.eraseIdx i
        history := s.history ++ [.respond continuation r] }
    | none => none

end Cluster

section Map

variable [DecidableEq K] {values : K → Option V} {order : List (Nat × Call K V)}

/-- The store holds what its calls have left. -/
theorem get_eq_foldl (db : IntervalDb K V) (key : K) :
    db.get key = db.siltds.foldl write (fun _ => none) key := by
  rw [IntervalDb.get]
  induction db.siltds using List.reverseRecOn with
  | nil => rfl
  | append_singleton ops op ih =>
    rw [List.foldl_append, List.foldl_cons, List.foldl_nil, List.reverse_append, List.reverse_singleton,
      List.singleton_append, write, Function.update_apply]
    by_cases hkey : op.key = key
    · rw [List.find?_cons_of_pos (by simpa using hkey), if_pos hkey.symm]
    · rw [List.find?_cons_of_neg (by simpa using hkey), if_neg (Ne.symm hkey)]
      exact ih

/-- The puts in the order, as the nodes see them. -/
def writes (order : List (Nat × Call K V)) : List (Operation K V × Nat) :=
  order.filterMap fun call =>
    match call.2 with
    | .put op => some (op, call.1)
    | .get _ => none

/-- The numbers of the gets in the order. -/
def reads (order : List (Nat × Call K V)) : List Nat :=
  order.filterMap fun call =>
    match call.2 with
    | .put _ => none
    | .get _ => some call.1

/-- The puts of the chain as calls. -/
def putCalls (calls : List (Operation K V × Nat)) : List (Nat × Call K V) :=
  calls.map fun call => (call.2, .put call.1)

omit [DecidableEq K] in
theorem writes_putCalls (calls : List (Operation K V × Nat)) : writes (putCalls calls) = calls := by
  rw [writes, putCalls, List.filterMap_map]
  exact List.filterMap_some

omit [DecidableEq K] in
theorem reads_putCalls (calls : List (Operation K V × Nat)) : reads (putCalls calls) = [] := by
  rw [reads, putCalls, List.filterMap_map]
  exact List.filterMap_eq_nil_iff.mpr fun _ _ => rfl

omit [DecidableEq K] in
theorem order_numbers (order : List (Nat × Call K V)) :
    order.map Prod.fst ~ (writes order).map Prod.snd ++ reads order := by
  induction order with
  | nil => exact .refl _
  | cons call order ih =>
    obtain ⟨i, op | key⟩ := call
    · exact ih.cons i
    · refine (ih.cons i).trans ?_
      exact List.perm_middle.symm

theorem after_eq (values : K → Option V) (order : List (Nat × Call K V)) :
    after mapObject values order = ((writes order).map Prod.fst).foldl write values := by
  induction order generalizing values with
  | nil => rfl
  | cons call order ih =>
    obtain ⟨i, op | key⟩ := call
    · exact ih (write values op)
    · exact ih values

/-- Wherever a put stands, its answer is the same. -/
theorem answered_put {op : Operation K V} {i : Nat} (h : (op, i) ∈ writes order) :
    Answered mapObject values order i .stored := by
  obtain ⟨call, hcall, heq⟩ := List.mem_filterMap.mp h
  obtain ⟨before, rest, rfl⟩ := List.append_of_mem hcall
  obtain ⟨j, op' | key⟩ := call
  · cases heq
    exact ⟨before, .put op, rest, rfl, rfl⟩
  · cases heq

end Map

section Visible

namespace TailState

variable {s t : TailState K V} {l : TailStep K V} {k : Nat}

/-- The node that the gets go to. -/
def reader (k : Nat) (s : TailState K V) : Nat := if s.chain.down = none then k + 1 else k

/-- The puts that a get sees. -/
def visible (k : Nat) (s : TailState K V) : List (Operation K V × Nat) := s.handled (s.reader k)

theorem handled_handlePut (s : TailState K V) (i j : Nat) (m : PutMessage K V) :
    s.handled i <+: (s.handlePut j m).handled i := by
  simp only [handlePut]
  by_cases hij : i = j
  · subst hij
    rw [Function.update_self]
    exact List.prefix_append _ _
  · rw [Function.update_of_ne hij]

/-- What a step does to the puts handled by the nodes, and to the tail. -/
theorem handled_step (hs : step k s l = some t) : (∀ i, s.handled i <+: t.handled i) ∧
    (t.chain.down = s.chain.down ∨
      s.chain.down = none ∧ t.chain.down = some (k + 1) ∧ t.handled = s.handled) := by
  cases l with
  | request op continuation hops =>
    rw [step] at hs
    split at hs <;> cases hs
    exact ⟨fun i => handled_handlePut s i 0 _, .inl rfl⟩
  | receive j =>
    rw [step] at hs
    repeat' split at hs
    all_goals cases hs
    exact ⟨fun i => handled_handlePut _ i j _, .inl rfl⟩
  | receiveAck j =>
    rw [step] at hs
    repeat' split at hs
    all_goals cases hs
    exact ⟨fun i => List.prefix_rfl, .inl rfl⟩
  | failTail arriving =>
    rw [step] at hs
    split at hs <;> cases hs
    rename_i hup
    exact ⟨fun i => List.prefix_rfl, .inr ⟨hup, rfl, rfl⟩⟩
  | chainRepairTail key =>
    rw [step] at hs
    split at hs <;> cases hs
    exact ⟨fun i => List.prefix_rfl, .inl rfl⟩

/-- Only a put that comes to the head is new to the chain. -/
theorem handled_head (hs : step k s l = some t)
    (hl : ∀ op continuation hops, l ≠ .request op continuation hops) :
    t.handled 0 = s.handled 0 := by
  cases l with
  | request op continuation hops => exact absurd rfl (hl op continuation hops)
  | receive j =>
    rw [step] at hs
    split at hs
    case isFalse => cases hs
    rename_i hj
    split at hs <;> cases hs
    exact Function.update_of_ne hj.1.ne _ _
  | receiveAck j =>
    rw [step] at hs
    repeat' split at hs
    all_goals cases hs
    rfl
  | failTail arriving =>
    rw [step] at hs
    split at hs <;> cases hs
    rfl
  | chainRepairTail key =>
    rw [step] at hs
    split at hs <;> cases hs
    rfl

theorem handled_request {op : Operation K V} {continuation : Nat} {hops : Int}
    (hs : step k s (.request op continuation hops) = some t) :
    t.handled 0 = s.handled 0 ++ [(op, continuation)] := by
  rw [step] at hs
  split at hs <;> cases hs
  simp only [handlePut, Function.update_self]
  rfl

theorem TailInv.before_tail (h : TailInv k 0 [] s) (hup : s.chain.down = none) :
    s.handled (k + 1) <+: s.handled k := by
  rw [(h.of_up hup).edge, List.append_assoc]
  exact List.prefix_append _ _

/-- What a get sees is a part of what the head has handled, from its first put on. -/
theorem TailInv.visible_prefix (h : TailInv k 0 [] s) : s.visible k <+: s.handled 0 := by
  have hlast : s.handled k <+: s.handled 0 := h.handled_prefix (Nat.zero_le k) (Nat.le_refl k)
  rw [visible, reader]
  split
  · rename_i hup
    exact (h.before_tail hup).trans hlast
  · exact hlast

/-- The answered puts are seen. -/
theorem TailInv.answers_visible (h : TailInv k 0 [] s) : s.answers ⊆ s.visible k := by
  rw [visible, reader]
  rcases h.tail with hup | hdown
  · rw [if_pos hup.up, hup.answered]
    exact List.Subset.refl _
  · rw [if_neg (by rw [hdown.down]; exact Option.some_ne_none _)]
    exact hdown.kept.subset

/-- A put that was seen stays where it is, also when the tail stops and another node is asked. -/
theorem TailInv.visible_step (h : TailInv k 0 [] s) (hs : step k s l = some t) :
    s.visible k <+: t.visible k := by
  obtain ⟨hmore, hsame | ⟨hup, hdown, hhandled⟩⟩ := handled_step hs
  · rw [visible, visible, reader, reader, hsame]
    exact hmore _
  · rw [visible, visible, reader, reader, if_pos hup,
      if_neg (by rw [hdown]; exact Option.some_ne_none _), hhandled]
    exact h.before_tail hup

/-- The node that the gets go to holds the puts that they see. -/
theorem TailInv.get_reader [DecidableEq K] (h : TailInv k 0 [] s) (key : K) :
    (s.chain.replicas (s.reader k)).db.get key =
      ((s.visible k).map Prod.fst).foldl write (fun _ => none) key := by
  rw [get_eq_foldl (s.chain.replicas (s.reader k)).db key, h.stores]
  rfl

end TailState

end Visible

section Invariant

theorem getElem?_perm {α : Type} {xs : List α} {i : Nat} {x : α} (h : xs[i]? = some x) :
    xs ~ x :: xs.eraseIdx i := by
  obtain ⟨hi, rfl⟩ := List.getElem?_eq_some_iff.mp h
  exact (List.getElem_cons_eraseIdx_perm hi).symm

/-- The numbers of the calls that were made. -/
def numbers (history : List (Event Nat (Call K V) (Response V))) : List Nat :=
  history.filterMap fun e =>
    match e with
    | .invoke i _ => some i
    | .respond .. => none

variable [DecidableEq K] {s t : Cluster K V} {chain : TailState K V} {l : ClusterStep K V}
  {order : List (Nat × Call K V)} {k : Nat}

/-- The order explains the history. Its puts are those that a get sees, and its gets have been handled; every
other call is on its way. -/
structure Linearized (k : Nat) (s : Cluster K V) (order : List (Nat × Call K V)) : Prop where
  explains : Explains mapObject (fun _ => none) s.history order
  writes : writes order = s.chain.visible k
  numbered : (s.chain.handled 0 ++ s.puts).map Prod.snd ++ (s.gets.map GetMessage.continuation ++ reads order) ~
    numbers s.history
  puts : ∀ call ∈ s.chain.handled 0 ++ s.puts, .invoke call.2 (.put call.1) ∈ s.history
  gets : ∀ m ∈ s.gets, .invoke m.continuation (.get m.key) ∈ s.history ∧
    (m.node = k + 1 ∨ s.chain.chain.down ≠ none ∧ m.node = k)
  responses : ∀ r ∈ s.responses, Answered mapObject (fun _ => none) order r.1 r.2

theorem Linearized.order_subset (h : Linearized k s order) (hchain : TailState.TailInv k 0 [] s.chain)
    (waiting : List Nat) :
    order.map Prod.fst ⊆ (s.chain.handled 0 ++ s.puts).map Prod.snd ++ (waiting ++ reads order) := by
  intro i hi
  rcases List.mem_append.mp ((order_numbers order).subset hi) with hput | hget
  · rw [h.writes] at hput
    refine List.mem_append_left _ ?_
    rw [List.map_append]
    exact List.mem_append_left _ ((hchain.visible_prefix.sublist.map Prod.snd).subset hput)
  · exact List.mem_append_right _ (List.mem_append_right _ hget)

/-- A frontend makes a call. -/
theorem Linearized.invoke (h : Linearized k s order) (hchain : TailState.TailInv k 0 [] s.chain) {i : Nat}
    (hfresh : (numbers s.history ++ [i]).Nodup) (call : Call K V) :
    Explains mapObject (fun _ => none) (s.history ++ [.invoke i call]) order := by
  refine h.explains.invoke call fun hmem => ?_
  have hold : i ∈ numbers s.history := h.numbered.subset (h.order_subset hchain _ hmem)
  exact (List.nodup_append.mp hfresh).2.2 i hold i (List.mem_singleton_self i) rfl

theorem linearized_put (h : Linearized k s order) (hchain : TailState.TailInv k 0 [] s.chain)
    (op : Operation K V) (continuation : Nat) (hfresh : (numbers s.history ++ [continuation]).Nodup) :
    Linearized k
      { s with
        puts := s.puts ++ [(op, continuation)]
        history := s.history ++ [.invoke continuation (.put op)] } order := by
  refine ⟨h.invoke hchain hfresh _, h.writes, ?_, fun call hcall => ?_, fun m hm => ?_, h.responses⟩
  · have hmore := h.numbered.append_right [continuation]
    simp only [numbers, List.filterMap_append, List.filterMap_cons, List.filterMap_nil, List.map_append,
      List.map_singleton, List.append_assoc] at hmore ⊢
    refine List.Perm.trans ?_ hmore
    refine List.Perm.append_left _ (List.Perm.append_left _ ?_)
    exact List.perm_append_comm.trans (by rw [List.append_assoc])
  · rw [← List.append_assoc] at hcall
    rcases List.mem_append.mp hcall with hold | hnew
    · exact List.mem_append_left _ (h.puts call hold)
    · rw [List.mem_singleton.mp hnew]
      exact List.mem_append_right _ (List.mem_singleton_self _)
  · exact ⟨List.mem_append_left _ (h.gets m hm).1, (h.gets m hm).2⟩

theorem linearized_get (h : Linearized k s order) (hchain : TailState.TailInv k 0 [] s.chain)
    (key : K) (continuation node : Nat) (hnode : node = k + 1 ∨ s.chain.chain.down ≠ none ∧ node = k)
    (hfresh : (numbers s.history ++ [continuation]).Nodup) :
    Linearized k
      { s with
        gets := s.gets ++ [⟨node, key, continuation⟩]
        history := s.history ++ [.invoke continuation (.get key)] } order := by
  refine ⟨h.invoke hchain hfresh _, h.writes, ?_, fun call hcall => ?_, fun m hm => ?_, h.responses⟩
  · have hmore := h.numbered.append_right [continuation]
    simp only [numbers, List.filterMap_append, List.filterMap_cons, List.filterMap_nil, List.map_append,
      List.map_singleton, List.append_assoc] at hmore ⊢
    refine List.Perm.trans ?_ hmore
    refine List.Perm.append_left _ (List.Perm.append_left _ (List.Perm.append_left _ ?_))
    exact List.perm_append_comm
  · exact List.mem_append_left _ (h.puts call hcall)
  · rcases List.mem_append.mp hm with hold | hnew
    · exact ⟨List.mem_append_left _ (h.gets m hold).1, (h.gets m hold).2⟩
    · rw [List.mem_singleton.mp hnew]
      exact ⟨List.mem_append_right _ (List.mem_singleton_self _), hnode⟩

/-- A get takes effect when the node reads its store. -/
theorem linearized_getHandler (h : Linearized k s order) (hchain : TailState.TailInv k 0 [] s.chain)
    (hnodup : (numbers s.history).Nodup) {i : Nat} {m : GetMessage K} (hm : s.gets[i]? = some m)
    (hlive : s.chain.chain.down ≠ some m.node) :
    Linearized k
      { s with
        gets := s.gets.eraseIdx i
        responses := s.responses ++
          [(m.continuation, .found ((s.chain.chain.replicas m.node).db.get m.key))] }
      (order ++ [(m.continuation, .get m.key)]) := by
  obtain ⟨hinvoked, hnode⟩ := h.gets m (List.mem_of_getElem? hm)
  have hreader : m.node = s.chain.reader k := by
    rw [TailState.reader]
    rcases hchain.tail with hup | hdown
    · rw [if_pos hup.up]
      exact hnode.resolve_right fun hk => hk.1 hup.up
    · rw [if_neg (by rw [hdown.down]; exact Option.some_ne_none _)]
      rcases hnode with hnode | ⟨-, hnode⟩
      · rw [hdown.down, hnode] at hlive
        exact absurd rfl hlive
      · exact hnode
  have hwrites : writes (order ++ [(m.continuation, Call.get m.key)]) = writes order := by
    rw [writes, List.filterMap_append]
    exact List.append_nil _
  have hreads : reads (order ++ [(m.continuation, Call.get m.key)]) = reads order ++ [m.continuation] := by
    rw [reads, List.filterMap_append]
    rfl
  have hpicked : m.continuation :: ((s.chain.handled 0 ++ s.puts).map Prod.snd ++
      ((s.gets.eraseIdx i).map GetMessage.continuation ++ reads order)) ~ numbers s.history := by
    refine List.Perm.trans ?_ h.numbered
    refine List.perm_middle.symm.trans (List.Perm.append_left _ ?_)
    exact ((getElem?_perm hm).symm.map GetMessage.continuation).append_right (reads order)
  have hfresh : m.continuation ∉ order.map Prod.fst := fun hmem =>
    (List.nodup_cons.mp (hpicked.nodup_iff.mpr hnodup)).1 (h.order_subset hchain _ hmem)
  refine ⟨h.explains.point hinvoked hfresh, hwrites.trans h.writes, ?_, h.puts, fun m' hm' => ?_,
    fun r hr => ?_⟩
  · rw [hreads, ← List.append_assoc, ← List.append_assoc]
    exact (List.perm_append_singleton _ _).trans (by rw [List.append_assoc]; exact hpicked)
  · exact h.gets m' (List.mem_of_mem_eraseIdx hm')
  · rcases List.mem_append.mp hr with hold | hnew
    · exact (h.responses r hold).append _
    · rw [List.mem_singleton.mp hnew, hreader, hchain.get_reader m.key, ← h.writes, ← after_eq]
      exact answered_last order m.continuation (.get m.key)

/-- The chain goes on: the puts that gets begin to see take effect in the order of the chain. -/
theorem linearized_advance (h : Linearized k s order) (hnodup : (numbers s.history).Nodup)
    (hchain : TailState.TailInv k 0 [] chain) (hmore : s.chain.visible k <+: chain.visible k)
    {puts : List (Operation K V × Nat)} (hputs : chain.handled 0 ++ puts ~ s.chain.handled 0 ++ s.puts)
    (hdown : s.chain.chain.down ≠ none → chain.chain.down ≠ none) :
    ∃ order', Linearized k ({ s with puts := puts }.advance chain) order' := by
  obtain ⟨new, hnew⟩ := hmore
  have hwrites : writes (order ++ putCalls new) = chain.visible k := by
    rw [writes, List.filterMap_append, ← hnew, ← h.writes]
    exact congrArg (writes order ++ ·) (writes_putCalls new)
  have hreads : reads (order ++ putCalls new) = reads order := by
    rw [reads, List.filterMap_append]
    exact (congrArg (reads order ++ ·) (reads_putCalls new)).trans (List.append_nil _)
  have hnumbered : (chain.handled 0 ++ puts).map Prod.snd ++
      (s.gets.map GetMessage.continuation ++ reads order) ~ numbers s.history :=
    ((hputs.map Prod.snd).append_right _).trans h.numbered
  have hinvoked : ∀ call ∈ chain.handled 0 ++ puts, .invoke call.2 (.put call.1) ∈ s.history :=
    fun call hcall => h.puts call (hputs.subset hcall)
  refine ⟨order ++ putCalls new, ?_, hwrites, ?_, hinvoked, fun m hm => ?_, fun r hr => ?_⟩
  · refine h.explains.points (fun call hcall => ?_) ?_
    · obtain ⟨call', hcall', rfl⟩ := List.mem_map.mp hcall
      refine hinvoked call' (List.mem_append_left _ (hchain.visible_prefix.subset ?_))
      rw [← hnew]
      exact List.mem_append_right _ hcall'
    · refine (order_numbers _).nodup_iff.mpr ?_
      rw [hwrites, hreads]
      refine ((List.Sublist.append ?_ (List.sublist_append_right _ _))).nodup (hnumbered.nodup_iff.mpr hnodup)
      exact (hchain.visible_prefix.sublist.trans (List.sublist_append_left _ _)).map Prod.snd
  · rw [hreads]
    exact hnumbered
  · exact ⟨(h.gets m hm).1, (h.gets m hm).2.imp_right fun hnode => ⟨hdown hnode.1, hnode.2⟩⟩
  · rcases List.mem_append.mp hr with hold | hnew'
    · exact (h.responses r hold).append _
    · obtain ⟨call, hcall, rfl⟩ := List.mem_map.mp hnew'
      have hput : (call.1, call.2) ∈ writes (order ++ putCalls new) := by
        rw [hwrites]
        exact hchain.answers_visible ((List.drop_subset _ _) hcall)
      exact answered_put hput

/-- An answer comes to its frontend. -/
theorem linearized_respond (h : Linearized k s order) {i continuation : Nat} {r : Response V}
    (hr : s.responses[i]? = some (continuation, r)) :
    Linearized k
      { s with
        responses := s.responses.eraseIdx i
        history := s.history ++ [.respond continuation r] } order := by
  refine ⟨h.explains.respond (h.responses _ (List.mem_of_getElem? hr)), h.writes, ?_, fun call hcall => ?_,
    fun m hm => ?_, fun r' hr' => h.responses r' (List.mem_of_mem_eraseIdx hr')⟩
  · simp only [numbers, List.filterMap_append, List.filterMap_cons, List.filterMap_nil, List.append_nil]
    exact h.numbered
  · exact List.mem_append_left _ (h.puts call hcall)
  · exact ⟨List.mem_append_left _ (h.gets m hm).1, (h.gets m hm).2⟩

/-- What holds in every state of a run. -/
structure ClusterInv (k : Nat) (s : Cluster K V) : Prop where
  chain : TailState.TailInv k 0 [] s.chain
  linearized : (numbers s.history).Nodup → ∃ order, Linearized k s order

theorem clusterInv_initial (k : Nat) (memory : Nat → Nat) : ClusterInv k (.initial memory : Cluster K V) := by
  refine ⟨TailState.tailInv_initial k memory, fun _ => ⟨[], explains_nil _ _, ?_, .refl _, fun call h => ?_,
    fun m h => ?_, fun r h => ?_⟩⟩
  · rfl
  · cases h
  · cases h
  · cases h

theorem clusterInv_advance {l : TailStep K V} (hs : s.chain.step k l = some chain) (h : ClusterInv k s)
    {puts : List (Operation K V × Nat)} (hputs : chain.handled 0 ++ puts ~ s.chain.handled 0 ++ s.puts) :
    ClusterInv k ({ s with puts := puts }.advance chain) := by
  have hchain := TailState.tailInv_step hs h.chain
  refine ⟨hchain, fun hnodup => ?_⟩
  obtain ⟨order, horder⟩ := h.linearized hnodup
  refine linearized_advance horder hnodup hchain (h.chain.visible_step hs) hputs fun hdown => ?_
  obtain ⟨-, hsame | ⟨hup, -, -⟩⟩ := TailState.handled_step hs
  · rw [hsame]
    exact hdown
  · exact absurd hup hdown

theorem clusterInv_step (hs : s.step k l = some t) (h : ClusterInv k s) : ClusterInv k t := by
  cases l with
  | put op continuation =>
    cases hs
    refine ⟨h.chain, fun hnodup => ?_⟩
    rw [numbers, List.filterMap_append] at hnodup
    obtain ⟨order, horder⟩ := h.linearized (List.nodup_append.mp hnodup).1
    exact ⟨order, linearized_put horder h.chain op continuation hnodup⟩
  | get key continuation node =>
    rw [Cluster.step] at hs
    split at hs <;> cases hs
    rename_i hnode
    refine ⟨h.chain, fun hnodup => ?_⟩
    rw [numbers, List.filterMap_append] at hnodup
    obtain ⟨order, horder⟩ := h.linearized (List.nodup_append.mp hnodup).1
    exact ⟨order, linearized_get horder h.chain key continuation node hnode hnodup⟩
  | request i hops =>
    rw [Cluster.step] at hs
    split at hs
    case h_2 => cases hs
    rename_i op continuation hput
    obtain ⟨chain, hstep, rfl⟩ := Option.map_eq_some_iff.mp hs
    refine clusterInv_advance hstep h ?_
    rw [TailState.handled_request hstep, List.append_assoc]
    exact List.Perm.append_left _ (getElem?_perm hput).symm
  | chain l =>
    have hl : ∀ op continuation hops, l ≠ .request op continuation hops := by
      rintro op continuation hops rfl
      rw [Cluster.step] at hs
      cases hs
    have hchain : s.step k (.chain l) = (s.chain.step k l).map s.advance := by
      cases l with
      | request op continuation hops => exact absurd rfl (hl op continuation hops)
      | _ => rfl
    rw [hchain] at hs
    obtain ⟨chain, hstep, rfl⟩ := Option.map_eq_some_iff.mp hs
    have hputs : chain.handled 0 ++ s.puts ~ s.chain.handled 0 ++ s.puts := by
      rw [TailState.handled_head hstep hl]
    exact clusterInv_advance hstep h hputs
  | getHandler i =>
    rw [Cluster.step] at hs
    split at hs
    case h_2 => cases hs
    rename_i m hm
    split at hs
    case isTrue => cases hs
    rename_i hlive
    cases hs
    refine ⟨h.chain, fun hnodup => ?_⟩
    obtain ⟨order, horder⟩ := h.linearized hnodup
    exact ⟨_, linearized_getHandler horder h.chain hnodup hm hlive⟩
  | respond i =>
    rw [Cluster.step] at hs
    split at hs
    case h_2 => cases hs
    rename_i continuation r hr
    cases hs
    refine ⟨h.chain, fun hnodup => ?_⟩
    obtain ⟨order, horder⟩ := h.linearized (by simpa [numbers] using hnodup)
    exact ⟨order, linearized_respond horder hr⟩

/-- The history of every run is one of a map whose calls take effect at once, between the call and its answer:
with puts on their way along the chain, over the failure of the tail and its repair. -/
theorem chain_linearizable (k : Nat) (memory : Nat → Nat) (ls : List (ClusterStep K V)) (s : Cluster K V)
    (hrun : run (Cluster.step k) (.initial memory) ls = some s) (hnodup : (numbers s.history).Nodup) :
    Linearizable mapObject (fun _ => none) s.history := by
  have h : ClusterInv k s :=
    run_invariant (fun _ _ _ hstep hu => clusterInv_step hstep hu) hrun (clusterInv_initial k memory)
  obtain ⟨order, horder⟩ := h.linearized hnodup
  exact ⟨order, horder.explains⟩

/-- The second put has come to the node before the tail when the tail stops; it is never answered, and a get
finds it there. -/
def secondPut : List (ClusterStep Nat Nat) :=
  [.put ⟨7, 70, false⟩ 1, .request 0 3, .chain (.receive 1), .chain (.receive 2), .respond 0,
    .put ⟨7, 71, false⟩ 2, .request 0 3, .chain (.receive 1), .get 7 3 2, .chain (.failTail 1), .get 7 4 1,
    .getHandler 1, .respond 0]

theorem chain_linearizable_secondPut : ∃ s : Cluster Nat Nat,
    run (Cluster.step 1) (.initial fun _ => 0) secondPut = some s ∧
    .respond 4 (.found (some 71)) ∈ s.history ∧ Linearizable mapObject (fun _ => none) s.history := by
  have hobserved : (run (Cluster.step 1) (.initial fun _ => 0) secondPut).map (fun s =>
      (numbers s.history, s.history.getLast?.map fun e =>
        match e with
        | .respond i (.found v) => (i, v)
        | _ => (0, none))) = some ([1, 2, 3, 4], some (4, some 71)) := by decide +kernel
  obtain ⟨s, hs, hvalue⟩ := Option.map_eq_some_iff.mp hobserved
  obtain ⟨hnumbers, hlast⟩ := Prod.mk.inj hvalue
  refine ⟨s, hs, ?_, chain_linearizable 1 _ secondPut s hs (by rw [hnumbers]; decide)⟩
  obtain ⟨e, he, hresponse⟩ := Option.map_eq_some_iff.mp hlast
  refine List.mem_of_getLast? (he.trans (congrArg some ?_))
  rcases e with _ | ⟨i, _ | v⟩
  · cases hresponse
  · cases hresponse
  · cases hresponse
    rfl

end Invariant

end FawnKV.Chain
