import FawnKV.Chain.SerialInvariant

/-! The queue of pending puts: at an interior node it is what is not acknowledged, at the head not. -/
namespace FawnKV.Chain

open IntervalDb

variable {K V : Type}

/-- The steps of a chain in which no node stops. -/
def SerialStep.IsMessage : SerialStep K V → Prop
  | .request _ _ _ | .receive _ | .receiveAck _ => True
  | .fail _ | .repair _ _ _ => False

namespace SerialState

/-- The head's counter has not come back to zero when it gives a number. -/
def CounterOk (s : SerialState K V) : SerialStep K V → Prop
  | .request _ _ _ => (s.replicas 0).db.sequence ≠ 0
  | _ => True

section Runs

variable {n j : Nat} {s t : SerialState K V} {l : SerialStep K V} {ls : List (SerialStep K V)}

theorem inv_initial (n : Nat) (memory : Nat → Nat) : Inv n (initial memory : SerialState K V) := by
  constructor
  case notRepaired => rfl
  case interior =>
    intro f hf
    cases hf
  case nodes =>
    intro j _
    constructor
    case bound => exact Nat.two_pow_pos 32
    case lastPut => exact fun _ hne => absurd rfl hne
    case headQueue => exact fun _ => ⟨fun e he => absurd he List.not_mem_nil, fun _ => rfl⟩
    all_goals intros; rfl
  case edges =>
    intro j _ _
    exact ⟨rfl, rfl, fun m hm => absurd hm List.not_mem_nil, rfl, fun x hx => absurd hx List.not_mem_nil⟩
  case dead => exact fun _ _ _ => ⟨rfl, rfl⟩
  case tailAcks => rfl
  case cross =>
    intro f hf
    cases hf

theorem inv_step (hn : 1 < n) (hstep : step n s l = some t) (hcounter : CounterOk s l) (h : Inv n s)
    (hl : ∀ key hops ackHops, l ≠ .repair key hops ackHops) : Inv n t := by
  cases l with
  | request op continuation hops =>
    obtain ⟨hhops, rfl⟩ := step_request_eq_some.mp hstep
    have hfull : hops = n := by
      rcases hhops with hfull | ⟨hrep, -⟩
      · exact hfull
      · rw [h.notRepaired] at hrep
        cases hrep
    exact inv_request h hn hcounter hfull hfull rfl
  | receive j =>
    obtain ⟨⟨hpos, hj, hup⟩, m, rest, hlink, rfl⟩ := step_receive_eq_some.mp hstep
    obtain ⟨k, rfl⟩ : ∃ k, j = k + 1 := ⟨j - 1, by omega⟩
    exact inv_receive h hj hup hlink
  | receiveAck j =>
    obtain ⟨⟨hj, hup⟩, a, rest, hacks, rfl⟩ := step_receiveAck_eq_some.mp hstep
    exact inv_receiveAck h hj hup hacks
  | fail f =>
    obtain ⟨⟨hdown, hpos, hf⟩, rfl⟩ := step_fail_eq_some.mp hstep
    exact inv_fail h hdown hpos hf
  | repair key hops ackHops => exact absurd rfl (hl key hops ackHops)

theorem step_down (hstep : step n s l = some t) (hl : l.IsMessage) : t.down = s.down := by
  cases l with
  | request op continuation hops =>
    obtain ⟨-, rfl⟩ := step_request_eq_some.mp hstep
    rfl
  | receive j =>
    obtain ⟨-, m, rest, -, rfl⟩ := step_receive_eq_some.mp hstep
    rfl
  | receiveAck j =>
    obtain ⟨-, a, rest, -, rfl⟩ := step_receiveAck_eq_some.mp hstep
    rfl
  | fail f => cases hl
  | repair key hops ackHops => cases hl

theorem run_down (hrun : Transition.run (step n) s ls = some t) (hls : ∀ l ∈ ls, l.IsMessage) :
    t.down = s.down := by
  induction ls generalizing s with
  | nil =>
    cases hrun
    rfl
  | cons l ls ih =>
    obtain ⟨r, hstep, hrun⟩ := Transition.run_cons_eq_some.mp hrun
    rw [ih hrun fun l' hl' => hls l' (List.mem_cons_of_mem l hl')]
    exact step_down hstep (hls l List.mem_cons_self)

theorem inv_run (hn : 1 < n) (hrun : Transition.run (step n) s ls = some t)
    (hcounter : Transition.Meets (step n) CounterOk s ls) (h : Inv n s)
    (hls : ∀ l ∈ ls, ∀ key hops ackHops, l ≠ .repair key hops ackHops) : Inv n t := by
  induction ls generalizing s with
  | nil =>
    cases hrun
    exact h
  | cons l ls ih =>
    obtain ⟨r, hstep, hrun⟩ := Transition.run_cons_eq_some.mp hrun
    exact ih hrun (hcounter.2 r hstep) (inv_step hn hstep hcounter.1 h (hls l List.mem_cons_self))
      fun l' hl' => hls l' (List.mem_cons_of_mem l hl')

end Runs

section Law

variable {n j : Nat} {s : SerialState K V}

/-- The law for the pending puts of node `j`, with what processing the next acknowledgement does. -/
structure PendingLaw (s : SerialState K V) (j : Nat) : Prop where
  queue : (s.replicas j).db.seqMsgQueue = (s.replicas j).outstanding
  increasing : ((s.replicas j).db.seqMsgQueue.map Prod.fst).Pairwise (· < ·)
  popped : ∀ a ∈ (s.acks j).head?, ((s.replicas j).putAck a.seq).db.seqMsgQueue =
    (s.replicas j).db.seqMsgQueue.filter fun e => a.seq < (e.1 : Int)
  acknowledged : ∀ a ∈ (s.acks j).head?, ∀ e ∈ (s.replicas j).db.seqMsgQueue,
    e ∉ ((s.replicas j).putAck a.seq).db.seqMsgQueue →
      (e.1 : Int) ∈ ((s.replicas j).putAck a.seq).acked

theorem outstanding_eq {r : Replica K V} (h : NodeOk n j r) (hj : j + 1 < n) :
    r.outstanding = (entries r.db.siltds).drop r.acked.length := by
  rw [Replica.outstanding, h.forwarded hj, ← filter_entries]
  rw [h.acked, length_numbersTo]

theorem pendingLaw_interior (h : Inv n s) (hup : s.down = none) (hpos : 0 < j) (hj : j + 1 < n) :
    PendingLaw s j := by
  have hnode := h.nodes j (by omega)
  have hqueue := hnode.queue hpos hj
  have hfst := drop_entries_fst (s.replicas j).db.siltds (s.replicas j).acked.length
  have hincreasing : ((s.replicas j).db.seqMsgQueue.map Prod.fst).Pairwise (· < ·) := by
    rw [hqueue, hfst]
    exact List.pairwise_lt_range'
  have hpop : ∀ seq, ((s.replicas j).putAck seq).db.seqMsgQueue =
      (s.replicas j).db.seqMsgQueue.filter fun e => seq < (e.1 : Int) := fun seq => by
    rw [← popAcked_increasing seq hincreasing, Replica.putAck, putAck_eq hnode.split]
  refine ⟨?_, hincreasing, fun a _ => hpop a.seq, ?_⟩
  · rw [hqueue, outstanding_eq hnode hj]
  · intro a ha e he hgone
    obtain ⟨rest, hacks⟩ : ∃ rest, s.acks j = a :: rest := List.head?_eq_some_iff.mp ha
    have hlive : s.Live j := by
      intro f hf
      rw [hup] at hf
      cases hf
    have hedge := h.edges j hj hlive
    rw [hacks] at hedge
    obtain ⟨hseq, -⟩ := hedge.ack_seq_eq (h.nodes (j + 1) hj).acked
    have hle : (e.1 : Int) ≤ a.seq := by
      by_contra hlt
      rw [hpop, List.mem_filter] at hgone
      exact hgone ⟨he, by simpa using hlt⟩
    have hge : (s.replicas j).acked.length + 1 ≤ e.1 := by
      have hmem : e.1 ∈ (s.replicas j).db.seqMsgQueue.map Prod.fst := List.mem_map_of_mem he
      rw [hqueue, hfst, List.mem_range'_1] at hmem
      exact hmem.1
    rw [Replica.putAck, show (e.1 : Int) = a.seq by omega]
    exact List.mem_append_right _ List.mem_cons_self

/-- At the head every entry stands under the number zero. -/
theorem pendingLaw_head (h : Inv n s) (hn : 1 < n) : PendingLaw s 0 ↔ (s.replicas 0).outstanding = [] := by
  have hnode := h.nodes 0 (by omega)
  obtain ⟨hzero, hempty⟩ := hnode.headQueue rfl
  have hout := outstanding_eq hnode hn
  constructor
  · intro hlaw
    rw [List.eq_nil_iff_forall_not_mem]
    intro e he
    have hmem : e.1 ∈ (s.replicas 0).outstanding.map Prod.fst := List.mem_map_of_mem he
    rw [hout, drop_entries_fst, List.mem_range'_1] at hmem
    rw [← hlaw.queue] at he
    have := hzero e he
    omega
  · intro hnil
    have hle := hnode.acked_le
    have hge := congrArg List.length (hout.symm.trans hnil)
    rw [List.length_drop, length_entries, List.length_nil] at hge
    have hqueue := hempty (by omega)
    have hpop : ∀ seq, ((s.replicas 0).putAck seq).db.seqMsgQueue = [] := fun seq => by
      rw [Replica.putAck, putAck_eq hnode.split, hqueue]
      rfl
    constructor
    · rw [hqueue, hnil]
    · rw [hqueue]
      exact List.Pairwise.nil
    · intro a _
      rw [hpop, hqueue]
      rfl
    · intro a _ e he
      rw [hqueue] at he
      exact absurd he List.not_mem_nil

/-- In every state of a chain the law holds at a node before the tail, unless it is the head and has
puts that are not acknowledged. -/
theorem pendingLaw_iff (n : Nat) (memory : Nat → Nat) (ls : List (SerialStep K V))
    (hrun : Transition.run (step n) (initial memory) ls = some s) (hls : ∀ l ∈ ls, l.IsMessage)
    (hcounter : Transition.Meets (step n) CounterOk (initial memory) ls) (hj : j + 1 < n) :
    PendingLaw s j ↔ j ≠ 0 ∨ (s.replicas 0).outstanding = [] := by
  have hn : 1 < n := by omega
  have hinv : Inv n s := by
    refine inv_run hn hrun hcounter (inv_initial n memory) fun l hl key hops ackHops heq => ?_
    have := hls l hl
    rw [heq] at this
    exact this
  have hup : s.down = none := run_down hrun hls
  by_cases h0 : j = 0
  · subst h0
    rw [pendingLaw_head hinv hn]
    simp
  · exact iff_of_true (pendingLaw_interior hinv hup (by omega) hj) (.inl h0)

theorem pendingLaw_middle_node : ∃ s : SerialState Nat Nat,
    Transition.run (step 3) (initial fun _ => 0) [.request ⟨7, 70, false⟩ 1 3, .receive 1] = some s ∧
    (s.replicas 1).db.seqMsgQueue = [(1, 7, 70)] ∧ PendingLaw s 1 := by
  refine ⟨_, rfl, rfl, (pendingLaw_iff 3 (fun _ => 0) [.request ⟨7, 70, false⟩ 1 3, .receive 1]
    rfl ?_ ?_ (by decide)).mpr (.inl (by decide))⟩
  · intro l hl
    rcases List.mem_cons.mp hl with rfl | hl
    · trivial
    · rw [List.mem_singleton.mp hl]
      trivial
  · exact .cons rfl Nat.one_ne_zero (.cons rfl trivial trivial)

/-- Two puts through the head: the acknowledgement of the first takes both out of its queue. -/
theorem pendingLaw_fails_at_head : ∃ s : SerialState Nat Nat,
    Transition.run (step 2) (initial fun _ => 0)
      [.request ⟨7, 70, false⟩ 1 2, .request ⟨7, 71, false⟩ 2 2, .receive 1, .receiveAck 0] = some s ∧
    (s.replicas 0).db.seqMsgQueue = [] ∧ (s.replicas 0).outstanding = [(2, 7, 71)] ∧
    ¬PendingLaw s 0 := by
  refine ⟨_, rfl, by decide, by decide, fun hlaw => ?_⟩
  have hqueue := hlaw.queue
  revert hqueue
  decide

end Law

end SerialState

end FawnKV.Chain
