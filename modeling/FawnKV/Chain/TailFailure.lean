import FawnKV.Chain.SerialInvariant

/-! The tail of a chain stops, and `chain_repair_tail` makes the node before it the new tail. -/
namespace FawnKV.Chain

open IntervalDb Transition
open scoped List

variable {K V : Type}

/-- A put with the number under which the frontend waits for the answer. -/
def PutMessage.call (m : PutMessage K V) : Operation K V × Nat := (m.op, m.continuation)

/-- The chain, with its history: the puts that each node handled, those that were answered, and those that went
to the tail and did not come to it. -/
structure TailState (K V : Type) where
  chain : SerialState K V
  handled : Nat → List (Operation K V × Nat)
  answers : List (Operation K V × Nat)
  lost : List (Operation K V × Nat)

/-- Of the acknowledgements that the tail has sent some still arrive. -/
inductive TailStep (K V : Type) where
  | request (op : Operation K V) (continuation : Nat) (hops : Int)
  | receive (j : Nat)
  | receiveAck (j : Nat)
  | failTail (arriving : Nat)
  | chainRepairTail (key : K)

namespace TailState

def initial (memory : Nat → Nat) : TailState K V :=
  { chain := .initial memory, handled := fun _ => [], answers := [], lost := [] }

def handlePut (s : TailState K V) (j : Nat) (m : PutMessage K V) : TailState K V :=
  { chain := s.chain.handlePut j m
    handled := Function.update s.handled j (s.handled j ++ [m.call])
    answers := if m.hops - 1 = 0 then s.answers ++ [m.call] else s.answers
    lost := if m.hops - 1 ≠ 0 ∧ s.chain.succOf j = none then s.lost ++ [m.call] else s.lost }

/-- A step in a chain of `k + 2` nodes. Once the tail is down frontends may know that the chain is shorter. The
repair is `put_ack` at the new tail for every pending put, with the hops that the manager sends; the successor
that it connects to is the node behind the chain. The stores take every operation (`put_helper` answers one that
a store refuses at once), and the puts that still have the hops of the longer chain after the repair are not
followed behind it. -/
def step (k : Nat) (s : TailState K V) : TailStep K V → Option (TailState K V)
  | .request op continuation hops =>
    if hops = k + 2 ∨ s.chain.down ≠ none ∧ hops = k + 1 then
      some (s.handlePut 0 { op, hops, ackhops := hops, continuation, seq := 0 })
    else none
  | .receive j =>
    if 0 < j ∧ j ≤ k + 1 ∧ s.chain.down ≠ some j then
      match s.chain.links j with
      | m :: rest =>
        some ({ s with chain := { s.chain with links := Function.update s.chain.links j rest } }.handlePut j m)
      | [] => none
    else none
  | .receiveAck j =>
    if j ≤ k + 1 ∧ s.chain.down ≠ some j then
      match s.chain.acks j with
      | a :: rest =>
        let chain := { s.chain with acks := Function.update s.chain.acks j rest }
        some { s with chain := chain.handleAck j a }
      | [] => none
    else none
  | .failTail arriving =>
    if s.chain.down = none then
      some
        { s with
          chain :=
            { s.chain with
              links := Function.update s.chain.links (k + 1) []
              acks := Function.update s.chain.acks k ((s.chain.acks k).take arriving)
              down := some (k + 1) }
          lost := s.lost ++ (s.chain.links (k + 1)).map PutMessage.call }
    else none
  | .chainRepairTail key =>
    if s.chain.down = some (k + 1) ∧ s.chain.repaired = false then
      let chain := s.chain.handleAck k { key, seq := 2 ^ 63 - 1, hops := (k : Int) - 1 }
      some { s with chain := { chain with repaired := true } }
    else none

section Put

variable {s : TailState K V} {db : IntervalDb K V} {m : PutMessage K V} {r : Replica K V} {j k : Nat}

theorem replicaPut_db (r : Replica K V) (m : PutMessage K V) : (r.put m).db = (r.db.putHelper m).1 := by
  rw [Replica.put]
  split <;> rfl

theorem putHelper_passed (hhops : m.hops - 1 ≠ 0) :
    ∃ m', (db.putHelper m).2.1 = some m' ∧ m'.call = m.call ∧ m'.hops = m.hops - 1 := by
  rw [putHelper]
  simp only [if_neg hhops]
  exact ⟨_, rfl, rfl, rfl⟩

theorem putHelper_answered (hhops : m.hops - 1 = 0) : (db.putHelper m).2.1 = none := by
  rw [putHelper]
  simp only [if_pos hhops]

/-- What the pending puts of a node are numbered with fits in 32 bits. -/
structure QueueOk (db : IntervalDb K V) : Prop where
  split : db.splitPoint = none
  bound : ∀ e ∈ db.seqMsgQueue, e.1 < 2 ^ 32

theorem queueOk_put (h : QueueOk db) (m : PutMessage K V) : QueueOk (db.putHelper m).1 := by
  by_cases hhops : m.hops - 1 = 0
  · rw [putHelper_tail db hhops]
    exact ⟨h.split, h.bound⟩
  · rw [putHelper_forward h.split hhops]
    have hbuffered : QueueOk (buffered db m) := by
      refine ⟨h.split, fun e he => ?_⟩
      rcases List.mem_append.mp he with hold | hnew
      · exact h.bound e hold
      · rw [List.mem_singleton.mp hnew]
        exact Nat.mod_lt _ (by decide)
    rw [assignSequence]
    split
    · exact ⟨hbuffered.split, hbuffered.bound⟩
    · exact hbuffered

theorem queueOk_ack (h : QueueOk db) (seq : Int) : QueueOk (db.putAck seq) := by
  rw [putAck_eq h.split]
  refine ⟨h.split, fun e he => ?_⟩
  exact h.bound e ((List.dropWhile_suffix _).subset he)

theorem putAck_siltds (db : IntervalDb K V) (seq : Int) : (db.putAck seq).siltds = db.siltds := by
  rw [putAck]
  split <;> rfl

/-- `INT64_MAX` acknowledges every pending put. -/
theorem putAck_all (h : QueueOk db) : (db.putAck (2 ^ 63 - 1)).seqMsgQueue = [] := by
  rw [putAck_eq h.split, popAcked]
  refine List.dropWhile_eq_nil_iff.mpr fun e he => ?_
  have hlt := h.bound e he
  rw [decide_eq_true_iff]
  omega

end Put

section Invariant

/-- While the tail is up it answers what it handles. -/
structure TailUp (k j : Nat) (calls : List (Operation K V × Nat)) (s : TailState K V) : Prop where
  up : s.chain.down = none
  answered : s.answers = s.handled (k + 1)
  edge : s.handled k = s.handled (k + 1) ++ (if j = k + 1 then calls else []) ++
    (s.chain.links (k + 1)).map PutMessage.call
  lost : s.lost = []
  behind : s.chain.links (k + 2) = []

/-- Then a put that comes to the node before it is answered there, is lost, or goes behind the chain. -/
structure TailDown (k : Nat) (s : TailState K V) : Prop where
  down : s.chain.down = some (k + 1)
  none_left : s.chain.links (k + 1) = []
  kept : s.answers <+ s.handled k
  parts : s.handled k ~ s.answers ++ s.lost ++ (s.chain.links (k + 2)).map PutMessage.call

/-- The invariant; `calls` has just been taken from the puts on their way to node `j`. -/
structure TailInv (k j : Nat) (calls : List (Operation K V × Nat)) (s : TailState K V) : Prop where
  stores : ∀ i, (s.chain.replicas i).db.siltds = (s.handled i).map Prod.fst
  queues : ∀ i, QueueOk (s.chain.replicas i).db
  hops : ∀ i ≤ k + 1, ∀ m ∈ s.chain.links i,
    m.hops = (k + 2 : Int) - i ∨ s.chain.down ≠ none ∧ m.hops = (k + 1 : Int) - i
  edge : ∀ i < k, s.handled i = s.handled (i + 1) ++ (if j = i + 1 then calls else []) ++
    (s.chain.links (i + 1)).map PutMessage.call
  tail : TailUp k j calls s ∨ TailDown k s

variable {s t : TailState K V} {m : PutMessage K V} {calls : List (Operation K V × Nat)} {i j k : Nat}

theorem tailInv_initial (k : Nat) (memory : Nat → Nat) : TailInv k 0 [] (initial memory : TailState K V) := by
  refine ⟨fun _ => rfl, fun _ => ⟨rfl, fun e he => ?_⟩, fun i _ m hm => ?_, fun i _ => rfl, .inl ?_⟩
  · cases he
  · cases hm
  · exact ⟨rfl, rfl, rfl, rfl, rfl⟩

theorem TailInv.of_up (h : TailInv k j calls s) (hup : s.chain.down = none) : TailUp k j calls s := by
  rcases h.tail with hold | hdown
  · exact hold
  · have hnone := hdown.down
    rw [hup] at hnone
    cases hnone

/-- Nothing is on its way to the head. -/
theorem TailInv.at_head (h : TailInv k 0 [] s) (calls : List (Operation K V × Nat)) : TailInv k 0 calls s := by
  refine ⟨h.stores, h.queues, h.hops, fun i hi => ?_, ?_⟩
  · rw [h.edge i hi, if_neg (Nat.succ_ne_zero i).symm, if_neg (Nat.succ_ne_zero i).symm]
  · rcases h.tail with hup | hdown
    · refine .inl ⟨hup.up, hup.answered, ?_, hup.lost, hup.behind⟩
      rw [hup.edge, if_neg (Nat.succ_ne_zero k).symm, if_neg (Nat.succ_ne_zero k).symm]
    · exact .inr hdown

/-- A put is taken from the link. -/
theorem TailInv.take (h : TailInv k 0 [] s) (hj : j ≤ k + 1) {rest : List (PutMessage K V)}
    (hlink : s.chain.links j = m :: rest) :
    TailInv k j [m.call]
      { s with chain := { s.chain with links := Function.update s.chain.links j rest } } := by
  have hne : ∀ {i}, (0 : Nat) ≠ i + 1 := fun {i} => (Nat.succ_ne_zero i).symm
  refine ⟨h.stores, h.queues, fun i hi m' hm' => ?_, fun i hi => ?_, ?_⟩
  · by_cases hij : i = j
    · subst hij
      simp only [Function.update_self] at hm'
      exact h.hops i hi m' (hlink ▸ List.mem_cons_of_mem m hm')
    · simp only [Function.update_of_ne hij] at hm'
      exact h.hops i hi m' hm'
  · have hedge := h.edge i hi
    rw [if_neg hne, List.append_nil] at hedge
    by_cases hij : j = i + 1
    · subst hij
      simp only [Function.update_self, if_true]
      rw [hedge, hlink]
      simp
    · simp only [Function.update_of_ne (Ne.symm hij), if_neg hij, List.append_nil]
      exact hedge
  · rcases h.tail with hup | hdown
    · refine .inl ⟨hup.up, hup.answered, ?_, hup.lost, ?_⟩
      · have hedge := hup.edge
        rw [if_neg hne, List.append_nil] at hedge
        by_cases hij : j = k + 1
        · subst hij
          simp only [Function.update_self, if_true]
          rw [hedge, hlink]
          simp
        · simp only [Function.update_of_ne (Ne.symm hij), if_neg hij, List.append_nil]
          exact hedge
      · simp only [Function.update_of_ne (show k + 2 ≠ j by omega)]
        exact hup.behind
    · have hjk : j ≠ k + 1 := by
        rintro rfl
        rw [hdown.none_left] at hlink
        cases hlink
      refine .inr ⟨hdown.down, ?_, hdown.kept, ?_⟩
      · simp only [Function.update_of_ne (Ne.symm hjk)]
        exact hdown.none_left
      · simp only [Function.update_of_ne (show k + 2 ≠ j by omega)]
        exact hdown.parts

theorem handlePut_stores (h : TailInv k j calls s) (i : Nat) (m : PutMessage K V) :
    ((s.handlePut j m).chain.replicas i).db.siltds = ((s.handlePut j m).handled i).map Prod.fst ∧
      QueueOk ((s.handlePut j m).chain.replicas i).db := by
  simp only [handlePut, SerialState.handlePut]
  by_cases hij : i = j
  · subst hij
    rw [Function.update_self, Function.update_self, replicaPut_db, putHelper_siltds, List.map_append, h.stores]
    exact ⟨rfl, queueOk_put (h.queues i) m⟩
  · rw [Function.update_of_ne hij, Function.update_of_ne hij]
    exact ⟨h.stores i, h.queues i⟩

/-- The links after a put that goes on from node `j` to node `i`. -/
theorem handlePut_links (hhops : m.hops - 1 ≠ 0) (hsucc : s.chain.succOf j = some i) :
    ∃ m', m'.call = m.call ∧ m'.hops = m.hops - 1 ∧
      (s.handlePut j m).chain.links = Function.update s.chain.links i (s.chain.links i ++ [m']) := by
  obtain ⟨m', hm', hcall, hhops'⟩ : ∃ m', ((s.chain.replicas j).db.putHelper m).2.1 = some m' ∧
      m'.call = m.call ∧ m'.hops = m.hops - 1 := putHelper_passed hhops
  refine ⟨m', hcall, hhops', ?_⟩
  rw [handlePut, SerialState.handlePut]
  simp only [SerialState.sendPut, hm', hsucc]

theorem handlePut_answers (hhops : m.hops - 1 ≠ 0) : (s.handlePut j m).answers = s.answers := if_neg hhops

theorem handlePut_lost (hsucc : s.chain.succOf j = some i) : (s.handlePut j m).lost = s.lost := by
  refine if_neg fun hnone => ?_
  rw [hsucc] at hnone
  cases hnone.2

theorem handlePut_links_answered (hhops : m.hops - 1 = 0) :
    (s.handlePut j m).chain.links = s.chain.links := by
  rw [handlePut, SerialState.handlePut]
  simp only [SerialState.sendPut, putHelper_answered hhops]

theorem handlePut_links_lost (hsucc : s.chain.succOf j = none) :
    (s.handlePut j m).chain.links = s.chain.links := by
  rw [handlePut, SerialState.handlePut]
  simp only [SerialState.sendPut, hsucc]
  split
  · rename_i hnone
    cases hnone
  · rfl

theorem TailInv.succOf_before (h : TailInv k j calls s) (hi : i < k) : s.chain.succOf i = some (i + 1) := by
  rw [SerialState.succOf]
  rcases h.tail with hup | hdown
  · rw [hup.up]
  · rw [hdown.down]
    exact if_neg (by omega)

theorem TailUp.succOf (h : TailUp k j calls s) (i : Nat) : s.chain.succOf i = some (i + 1) := by
  rw [SerialState.succOf, h.up]

theorem TailDown.succOf (h : TailDown k s) :
    s.chain.succOf k = if s.chain.repaired then some (k + 2) else none := by
  rw [SerialState.succOf, h.down]
  exact if_pos rfl

/-- A node before the last two passes the put on. -/
theorem tailInv_put_before (h : TailInv k j [m.call] s) (hj : j < k)
    (hhops : m.hops = (k + 2 : Int) - j ∨ s.chain.down ≠ none ∧ m.hops = (k + 1 : Int) - j) :
    TailInv k 0 [] (s.handlePut j m) := by
  have hpass : m.hops - 1 ≠ 0 := by omega
  obtain ⟨m', hcall, hhops', hlinks⟩ := handlePut_links hpass (h.succOf_before hj)
  have hanswers : (s.handlePut j m).answers = s.answers := handlePut_answers hpass
  have hlost : (s.handlePut j m).lost = s.lost := handlePut_lost (h.succOf_before hj)
  have hhandled : (s.handlePut j m).handled = Function.update s.handled j (s.handled j ++ [m.call]) := rfl
  refine ⟨fun i => (handlePut_stores h i m).1, fun i => (handlePut_stores h i m).2, fun i hi x hx => ?_,
    fun i hi => ?_, ?_⟩
  · rw [hlinks] at hx
    by_cases hij : i = j + 1
    · subst hij
      rw [Function.update_self] at hx
      rcases List.mem_append.mp hx with hold | hnew
      · exact h.hops (j + 1) hi x hold
      · rw [List.mem_singleton.mp hnew, hhops']
        rcases hhops with hhops | ⟨hdown, hhops⟩
        · exact .inl (by omega)
        · exact .inr ⟨hdown, by omega⟩
    · rw [Function.update_of_ne hij] at hx
      exact h.hops i hi x hx
  · rw [hlinks, hhandled, if_neg (Nat.succ_ne_zero i).symm, List.append_nil]
    have hedge := h.edge i hi
    by_cases hij : i = j
    · subst hij
      rw [if_neg (by omega), List.append_nil] at hedge
      rw [Function.update_self, Function.update_self, Function.update_of_ne (by omega), hedge, List.map_append,
        List.map_singleton, hcall, List.append_assoc]
    · rw [Function.update_of_ne hij, Function.update_of_ne (show i + 1 ≠ j + 1 by omega)]
      by_cases hsucc : i + 1 = j
      · subst hsucc
        rw [if_pos rfl] at hedge
        rw [Function.update_self]
        exact hedge
      · rw [if_neg (Ne.symm hsucc), List.append_nil] at hedge
        rw [Function.update_of_ne hsucc]
        exact hedge
  · rcases h.tail with hup | hdown
    · refine .inl ⟨hup.up, ?_, ?_, hlost.trans hup.lost, ?_⟩
      · rw [hanswers, hhandled, Function.update_of_ne (by omega)]
        exact hup.answered
      · have hedge := hup.edge
        rw [if_neg (by omega), List.append_nil] at hedge
        rw [hlinks, hhandled, Function.update_of_ne (show k ≠ j by omega),
          Function.update_of_ne (show k + 1 ≠ j by omega), Function.update_of_ne (show k + 1 ≠ j + 1 by omega),
          if_neg (Nat.succ_ne_zero k).symm, List.append_nil]
        exact hedge
      · rw [hlinks, Function.update_of_ne (by omega)]
        exact hup.behind
    · refine .inr ⟨hdown.down, ?_, ?_, ?_⟩
      · rw [hlinks, Function.update_of_ne (by omega)]
        exact hdown.none_left
      · rw [hanswers, hhandled, Function.update_of_ne (by omega)]
        exact hdown.kept
      · rw [hanswers, hlost, hlinks, hhandled, Function.update_of_ne (by omega),
          Function.update_of_ne (by omega)]
        exact hdown.parts

/-- The last two nodes send nothing to the nodes before them. -/
theorem edge_handlePut (h : TailInv k j [m.call] s) (hj : k ≤ j)
    (hlinks : ∀ i ≤ k, (s.handlePut j m).chain.links i = s.chain.links i) (hi : i < k) :
    (s.handlePut j m).handled i = (s.handlePut j m).handled (i + 1) ++ (if 0 = i + 1 then [] else []) ++
      ((s.handlePut j m).chain.links (i + 1)).map PutMessage.call := by
  have hhandled : (s.handlePut j m).handled = Function.update s.handled j (s.handled j ++ [m.call]) := rfl
  have hedge := h.edge i hi
  rw [hlinks (i + 1) hi, hhandled, Function.update_of_ne (show i ≠ j by omega), ite_self, List.append_nil]
  by_cases hsucc : j = i + 1
  · subst hsucc
    rw [if_pos rfl] at hedge
    rw [Function.update_self]
    exact hedge
  · rw [if_neg hsucc, List.append_nil] at hedge
    rw [Function.update_of_ne (Ne.symm hsucc)]
    exact hedge

/-- The tail answers the put. -/
theorem tailInv_put_tail (h : TailInv k (k + 1) [m.call] s) (hup : s.chain.down = none)
    (hhops : m.hops - 1 = 0) : TailInv k 0 [] (s.handlePut (k + 1) m) := by
  have hlinks : (s.handlePut (k + 1) m).chain.links = s.chain.links := handlePut_links_answered hhops
  have hanswers : (s.handlePut (k + 1) m).answers = s.answers ++ [m.call] := if_pos hhops
  have hlost : (s.handlePut (k + 1) m).lost = s.lost := if_neg fun hpass => hpass.1 hhops
  have hhandled : (s.handlePut (k + 1) m).handled =
      Function.update s.handled (k + 1) (s.handled (k + 1) ++ [m.call]) := rfl
  refine ⟨fun i => (handlePut_stores h i m).1, fun i => (handlePut_stores h i m).2, ?_,
    fun i => edge_handlePut h (Nat.le_succ k) fun i _ => by rw [hlinks], ?_⟩
  · rw [hlinks]
    exact h.hops
  · have hold := h.of_up hup
    refine .inl ⟨hup, ?_, ?_, hlost.trans hold.lost, ?_⟩
    · rw [hanswers, hhandled, Function.update_self, hold.answered]
    · have hedge := hold.edge
      rw [if_pos rfl] at hedge
      rw [hlinks, hhandled, Function.update_self, Function.update_of_ne (Nat.succ_ne_self k).symm, ite_self,
        List.append_nil]
      exact hedge
    · rw [hlinks]
      exact hold.behind

/-- The node before the tail answers the put when it knows that it is the last, and else passes it on. -/
theorem tailInv_put_last (h : TailInv k k [m.call] s)
    (hhops : m.hops = (k + 2 : Int) - k ∨ s.chain.down ≠ none ∧ m.hops = (k + 1 : Int) - k) :
    TailInv k 0 [] (s.handlePut k m) := by
  have hhandled : (s.handlePut k m).handled = Function.update s.handled k (s.handled k ++ [m.call]) := rfl
  have hself : (s.handlePut k m).handled k = s.handled k ++ [m.call] := by
    rw [hhandled, Function.update_self]
  have hstores := fun i => (handlePut_stores h i m).1
  have hqueues := fun i => (handlePut_stores h i m).2
  rcases h.tail with hup | hdown
  · have hpass : m.hops - 1 ≠ 0 := by
      rcases hhops with hhops | ⟨hdown, -⟩
      · omega
      · exact absurd hup.up hdown
    obtain ⟨m', hcall, hhops', hlinks⟩ := handlePut_links hpass (hup.succOf k)
    refine ⟨hstores, hqueues, fun i hi x hx => ?_, fun i => edge_handlePut h (Nat.le_refl k) fun i hi => ?_,
      .inl ⟨hup.up, ?_, ?_, ?_, ?_⟩⟩
    · rw [hlinks] at hx
      by_cases hik : i = k + 1
      · subst hik
        rw [Function.update_self] at hx
        rcases List.mem_append.mp hx with hold | hnew
        · exact h.hops (k + 1) hi x hold
        · rw [List.mem_singleton.mp hnew, hhops']
          rcases hhops with hhops | ⟨hdown, hhops⟩
          · exact .inl (by omega)
          · exact .inr ⟨hdown, by omega⟩
      · rw [Function.update_of_ne hik] at hx
        exact h.hops i hi x hx
    · rw [hlinks, Function.update_of_ne (by omega)]
    · rw [handlePut_answers hpass, hhandled, Function.update_of_ne (Nat.succ_ne_self k)]
      exact hup.answered
    · have hedge := hup.edge
      rw [if_neg (Nat.succ_ne_self k).symm, List.append_nil] at hedge
      rw [hself, hlinks, hhandled, Function.update_self, Function.update_of_ne (Nat.succ_ne_self k), hedge,
        List.map_append, List.map_singleton, hcall, ite_self, List.append_nil, List.append_assoc]
    · exact (handlePut_lost (hup.succOf k)).trans hup.lost
    · rw [hlinks, Function.update_of_ne (by omega)]
      exact hup.behind
  · by_cases hends : m.hops - 1 = 0
    · -- a frontend that knows of the failure sent the put
      have hlinks : (s.handlePut k m).chain.links = s.chain.links := handlePut_links_answered hends
      have hanswers : (s.handlePut k m).answers = s.answers ++ [m.call] := if_pos hends
      have hlost : (s.handlePut k m).lost = s.lost := if_neg fun hpass => hpass.1 hends
      refine ⟨hstores, hqueues, ?_, fun i => edge_handlePut h (Nat.le_refl k) fun i _ => by rw [hlinks],
        .inr ⟨hdown.down, ?_, ?_, ?_⟩⟩
      · rw [hlinks]
        exact h.hops
      · rw [hlinks]
        exact hdown.none_left
      · rw [hanswers, hself]
        exact hdown.kept.append_right [m.call]
      · rw [hanswers, hlost, hlinks, hself]
        refine (hdown.parts.append_right [m.call]).trans ?_
        simp only [List.append_assoc]
        refine List.Perm.append_left s.answers ?_
        rw [← List.append_assoc]
        exact List.perm_append_comm
    · have hanswers : (s.handlePut k m).answers = s.answers := handlePut_answers hends
      have hkept : (s.handlePut k m).answers <+ (s.handlePut k m).handled k := by
        rw [hanswers, hself]
        exact hdown.kept.trans (List.sublist_append_left _ _)
      by_cases hrepaired : s.chain.repaired = true
      · have hsucc : s.chain.succOf k = some (k + 2) := by rw [hdown.succOf, if_pos hrepaired]
        obtain ⟨m', hcall, -, hlinks⟩ := handlePut_links hends hsucc
        have hlost : (s.handlePut k m).lost = s.lost := handlePut_lost hsucc
        refine ⟨hstores, hqueues, fun i hi x hx => ?_, fun i => edge_handlePut h (Nat.le_refl k) fun i hi => ?_,
          .inr ⟨hdown.down, ?_, hkept, ?_⟩⟩
        · rw [hlinks, Function.update_of_ne (by omega)] at hx
          exact h.hops i hi x hx
        · rw [hlinks, Function.update_of_ne (by omega)]
        · rw [hlinks, Function.update_of_ne (by omega)]
          exact hdown.none_left
        · rw [hanswers, hlost, hlinks, hself, Function.update_self, List.map_append, List.map_singleton, hcall,
            ← List.append_assoc]
          exact hdown.parts.append_right [m.call]
      · have hsucc : s.chain.succOf k = none := by rw [hdown.succOf, if_neg hrepaired]
        have hlinks : (s.handlePut k m).chain.links = s.chain.links := handlePut_links_lost hsucc
        have hlost : (s.handlePut k m).lost = s.lost ++ [m.call] := if_pos ⟨hends, hsucc⟩
        refine ⟨hstores, hqueues, ?_, fun i => edge_handlePut h (Nat.le_refl k) fun i _ => by rw [hlinks],
          .inr ⟨hdown.down, ?_, hkept, ?_⟩⟩
        · rw [hlinks]
          exact h.hops
        · rw [hlinks]
          exact hdown.none_left
        · rw [hanswers, hlost, hlinks, hself]
          refine (hdown.parts.append_right [m.call]).trans ?_
          simp only [List.append_assoc]
          refine List.Perm.append_left s.answers (List.Perm.append_left s.lost ?_)
          exact List.perm_append_comm

/-- An acknowledgement changes no store and sends no put. -/
theorem TailInv.handleAck (h : TailInv k 0 [] s) (i : Nat) (a : AckMessage K)
    (acks : Nat → List (AckMessage K)) (repaired : Bool) :
    TailInv k 0 [] { s with
      chain :=
        { ({ s.chain with acks := acks } : SerialState K V).handleAck i a with repaired := repaired } } := by
  have hnode : ∀ u, (Function.update s.chain.replicas i ((s.chain.replicas i).putAck a.seq) u).db.siltds =
      (s.handled u).map Prod.fst ∧
      QueueOk (Function.update s.chain.replicas i ((s.chain.replicas i).putAck a.seq) u).db := by
    intro u
    by_cases hu : u = i
    · subst hu
      rw [Function.update_self]
      refine ⟨?_, queueOk_ack (h.queues u) a.seq⟩
      exact (putAck_siltds _ _).trans (h.stores u)
    · rw [Function.update_of_ne hu]
      exact ⟨h.stores u, h.queues u⟩
  refine ⟨fun u => (hnode u).1, fun u => (hnode u).2, h.hops, h.edge, ?_⟩
  rcases h.tail with hup | hdown
  · exact .inl ⟨hup.up, hup.answered, hup.edge, hup.lost, hup.behind⟩
  · exact .inr ⟨hdown.down, hdown.none_left, hdown.kept, hdown.parts⟩

/-- What the tail had not come to is lost. -/
theorem TailInv.failTail (h : TailInv k 0 [] s) (hup : s.chain.down = none) (acks : Nat → List (AckMessage K)) :
    TailInv k 0 [] { s with
      chain :=
        { s.chain with
          links := Function.update s.chain.links (k + 1) []
          acks := acks
          down := some (k + 1) }
      lost := s.lost ++ (s.chain.links (k + 1)).map PutMessage.call } := by
  have hold := h.of_up hup
  have hedge := hold.edge
  rw [ite_self, List.append_nil] at hedge
  refine ⟨h.stores, h.queues, fun i hi m hm => ?_, fun i hi => ?_, .inr ⟨rfl, ?_, ?_, ?_⟩⟩
  · by_cases hik : i = k + 1
    · subst hik
      simp only [Function.update_self] at hm
      cases hm
    · simp only [Function.update_of_ne hik] at hm
      rcases h.hops i hi m hm with hhops | ⟨hdown, -⟩
      · exact .inl hhops
      · exact absurd hup hdown
  · simp only [Function.update_of_ne (show i + 1 ≠ k + 1 by omega)]
    exact h.edge i hi
  · exact Function.update_self ..
  · simp only [hold.answered, hedge]
    exact List.sublist_append_left _ _
  · simp only [Function.update_of_ne (show k + 2 ≠ k + 1 by omega), hold.behind, hold.lost, hold.answered,
      hedge, List.map_nil, List.append_nil, List.nil_append]
    exact List.Perm.refl _

theorem tailInv_put (h : TailInv k j [m.call] s) (hj : j ≤ k + 1) (hlive : s.chain.down ≠ some j)
    (hhops : m.hops = (k + 2 : Int) - j ∨ s.chain.down ≠ none ∧ m.hops = (k + 1 : Int) - j) :
    TailInv k 0 [] (s.handlePut j m) := by
  rcases Nat.lt_trichotomy j k with hlt | rfl | hgt
  · exact tailInv_put_before h hlt hhops
  · exact tailInv_put_last h hhops
  · obtain rfl : j = k + 1 := by omega
    rcases h.tail with hup | hdown
    · refine tailInv_put_tail h hup.up ?_
      rcases hhops with hhops | ⟨hdown, -⟩
      · omega
      · exact absurd hup.up hdown
    · exact absurd hdown.down hlive

theorem tailInv_step {l : TailStep K V} (hs : step k s l = some t) (h : TailInv k 0 [] s) :
    TailInv k 0 [] t := by
  cases l with
  | request op continuation hops =>
    rw [step] at hs
    split at hs
    case isFalse => cases hs
    rename_i hhops
    cases hs
    refine tailInv_put (h.at_head _) (Nat.zero_le _) ?_ ?_
    · rcases h.tail with hup | hdown
      · rw [hup.up]
        exact (Option.some_ne_none 0).symm
      · rw [hdown.down]
        exact fun hzero => Nat.succ_ne_zero k (Option.some.inj hzero)
    · rw [Int.natCast_zero, Int.sub_zero, Int.sub_zero]
      exact hhops
  | receive j =>
    rw [step] at hs
    split at hs
    case isFalse => cases hs
    rename_i hj
    split at hs
    case h_2 => cases hs
    rename_i m rest hlink
    cases hs
    exact tailInv_put (h.take hj.2.1 hlink) hj.2.1 hj.2.2
      (h.hops j hj.2.1 m (hlink ▸ List.mem_cons_self))
  | receiveAck j =>
    rw [step] at hs
    split at hs
    case isFalse => cases hs
    split at hs
    case h_2 => cases hs
    rename_i a rest _
    cases hs
    exact h.handleAck j a _ s.chain.repaired
  | failTail arriving =>
    rw [step] at hs
    split at hs
    case isFalse => cases hs
    rename_i hup
    cases hs
    exact h.failTail hup _
  | chainRepairTail key =>
    rw [step] at hs
    split at hs
    case isFalse => cases hs
    cases hs
    exact h.handleAck k _ s.chain.acks true

theorem tailInv_run {memory : Nat → Nat} {ls : List (TailStep K V)}
    (hs : run (step k) (initial memory) ls = some s) : TailInv k 0 [] s :=
  run_invariant (fun _ _ _ hstep h => tailInv_step hstep h) hs (tailInv_initial k memory)

/-- A node has handled what the nodes after it have, and first of all that. -/
theorem TailInv.handled_prefix (h : TailInv k 0 [] s) (hij : i ≤ j) (hj : j ≤ k) :
    s.handled j <+: s.handled i := by
  induction j, hij using Nat.le_induction with
  | base => exact List.prefix_rfl
  | succ j hij ih =>
    refine List.IsPrefix.trans ?_ (ih (Nat.le_of_succ_le hj))
    rw [h.edge j hj, List.append_assoc]
    exact List.prefix_append _ _

theorem TailInv.answers_sublist (h : TailInv k 0 [] s) (hj : j ≤ k) : s.answers <+ s.handled j := by
  refine List.Sublist.trans ?_ (h.handled_prefix hj (Nat.le_refl k)).sublist
  rcases h.tail with hup | hdown
  · rw [hup.answered, hup.edge, List.append_assoc]
    exact List.sublist_append_left _ _
  · exact hdown.kept

end Invariant

section Answers

variable {s t u : TailState K V} {k : Nat} {memory : Nat → Nat} {ls ls' : List (TailStep K V)}

/-- In every order of the puts, of their way along the chain, of the failure of the tail and of the repair: the
stores of all the nodes that are left hold the answered puts, in the order of the answers. -/
theorem answered_puts_survive (hs : run (step k) (initial memory) ls = some s) :
    (∀ j ≤ k, s.answers.map Prod.fst <+ (s.chain.replicas j).db.siltds) ∧
      (s.chain.down = none → (s.chain.replicas (k + 1)).db.siltds = s.answers.map Prod.fst) := by
  have h := tailInv_run hs
  refine ⟨fun j hj => ?_, fun hup => ?_⟩
  · rw [h.stores j]
    exact (h.answers_sublist hj).map Prod.fst
  · rw [h.stores (k + 1), (h.of_up hup).answered]

/-- The first put of a chain of three nodes is answered, the second is on its way to the tail when it stops;
the third is sent by a frontend that knows of it. -/
def threeNodes : List (TailStep Nat Nat) :=
  [.request ⟨7, 70, false⟩ 1 3, .receive 1, .receive 2, .request ⟨8, 80, false⟩ 2 3, .receive 1, .failTail 1]

theorem answered_puts_survive_threeNodes :
    ∃ s : TailState Nat Nat, run (step 1) (initial fun _ => 0) threeNodes = some s ∧
      s.answers = [(⟨7, 70, false⟩, 1)] ∧
      [⟨7, 70, false⟩] <+ (s.chain.replicas 1).db.siltds := by
  have hanswers : (run (step 1) (initial fun _ => 0) threeNodes).map (fun s => s.answers) =
      some [((⟨7, 70, false⟩ : Operation Nat Nat), 1)] := by decide +kernel
  obtain ⟨s, hs, hvalue⟩ := Option.map_eq_some_iff.mp hanswers
  have hkept := (answered_puts_survive hs).1 1 (Nat.le_refl 1)
  rw [hvalue] at hkept
  exact ⟨s, hs, hvalue, hkept⟩

theorem lost_step {l : TailStep K V} (hs : step k s l = some t) : s.lost ⊆ t.lost := by
  have hput : ∀ (s : TailState K V) j m, s.lost ⊆ (s.handlePut j m).lost := by
    intro s j m
    simp only [handlePut]
    by_cases hlost : m.hops - 1 ≠ 0 ∧ s.chain.succOf j = none
    · rw [if_pos hlost]
      exact List.subset_append_left _ _
    · rw [if_neg hlost]
      exact List.Subset.refl _
  cases l with
  | request op continuation hops =>
    rw [step] at hs
    split at hs <;> cases hs
    exact hput s 0 _
  | receive j =>
    rw [step] at hs
    repeat' split at hs
    all_goals cases hs
    exact hput _ j _
  | receiveAck j =>
    rw [step] at hs
    repeat' split at hs
    all_goals cases hs
    exact List.Subset.refl _
  | failTail arriving =>
    rw [step] at hs
    split at hs <;> cases hs
    exact List.subset_append_left _ _
  | chainRepairTail key =>
    rw [step] at hs
    split at hs <;> cases hs
    exact List.Subset.refl _

/-- A put that was on its way to the tail when the tail stopped, or was sent there before the repair: it stays
in the stores of all the nodes that are left, the repair drops it from the pending puts of the new tail, and the
frontend, which waits under a number of its own, never gets an answer. -/
theorem lost_puts_never_answered (hs : run (step k) (initial memory) ls = some s)
    (ht : run (step k) s ls' = some t) (hfresh : ((t.handled 0).map Prod.snd).Nodup) :
    (∀ call ∈ s.lost, (∀ j ≤ k, call.1 ∈ (t.chain.replicas j).db.siltds) ∧ call.2 ∉ t.answers.map Prod.snd) ∧
      ∀ key u, step k t (.chainRepairTail key) = some u →
        (u.chain.replicas k).db.seqMsgQueue = [] ∧ u.answers = t.answers := by
  have h : TailInv k 0 [] t := run_invariant (fun _ _ _ hstep hu => tailInv_step hstep hu) ht (tailInv_run hs)
  have hmore : s.lost ⊆ t.lost := @run_invariant _ _ _ _ _ _ (fun u => s.lost ⊆ u.lost)
    (fun _ _ _ hstep hu => List.Subset.trans hu (lost_step hstep)) ht (List.Subset.refl _)
  refine ⟨fun call hcall => ?_, fun key u hu => ?_⟩
  · have hlost := hmore hcall
    rcases h.tail with hup | hdown
    · rw [hup.lost] at hlost
      cases hlost
    · have hmem : call ∈ t.handled k := by
        refine hdown.parts.symm.subset ?_
        exact List.mem_append_left _ (List.mem_append_right _ hlost)
      refine ⟨fun j hj => ?_, fun hanswered => ?_⟩
      · rw [h.stores j]
        exact List.mem_map_of_mem ((h.handled_prefix hj (Nat.le_refl k)).subset hmem)
      · have hsub : (t.handled k).map Prod.snd <+ (t.handled 0).map Prod.snd :=
          (h.handled_prefix (Nat.zero_le k) (Nat.le_refl k)).sublist.map Prod.snd
        have hnodup := (hdown.parts.map Prod.snd).nodup_iff.mp (hsub.nodup hfresh)
        rw [List.append_assoc, List.map_append, List.nodup_append] at hnodup
        refine hnodup.2.2 call.2 hanswered call.2 ?_ rfl
        exact List.mem_map_of_mem (List.mem_append_left _ hlost)
  · rw [step] at hu
    split at hu <;> cases hu
    refine ⟨?_, rfl⟩
    show (Function.update t.chain.replicas k _ k).db.seqMsgQueue = []
    rw [Function.update_self]
    exact putAck_all (h.queues k)

theorem lost_puts_never_answered_threeNodes :
    ∃ s t : TailState Nat Nat, run (step 1) (initial fun _ => 0) threeNodes = some s ∧
      s.lost = [(⟨8, 80, false⟩, 2)] ∧
      run (step 1) s [.chainRepairTail 7, .request ⟨9, 90, false⟩ 3 2, .receive 1] = some t ∧
      2 ∉ t.answers.map Prod.snd := by
  have hlost : (run (step 1) (initial fun _ => 0) threeNodes).map (fun s => (s.lost,
      (run (step 1) s [.chainRepairTail 7, .request ⟨9, 90, false⟩ 3 2, .receive 1]).map
        fun t => (t.handled 0).map Prod.snd)) =
      some ([((⟨8, 80, false⟩ : Operation Nat Nat), 2)], some [1, 2, 3]) := by decide +kernel
  obtain ⟨s, hs, hvalue⟩ := Option.map_eq_some_iff.mp hlost
  obtain ⟨hone, hrun⟩ := Prod.mk.inj hvalue
  obtain ⟨t, ht, hnumbers⟩ := Option.map_eq_some_iff.mp hrun
  have hnever := (lost_puts_never_answered hs ht (by rw [hnumbers]; decide)).1 (⟨8, 80, false⟩, 2)
    (by rw [hone]; exact List.mem_cons_self)
  exact ⟨s, t, hs, hone, ht, hnever.2⟩

end Answers

end TailState

end FawnKV.Chain
