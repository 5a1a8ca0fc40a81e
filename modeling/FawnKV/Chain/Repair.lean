import FawnKV.Chain.Pending

/-! The repair of an interior node: when the nodes after it come to what the one before it applied. -/
namespace FawnKV.Chain

open IntervalDb

variable {K V : Type}

namespace SerialState

/-- The operations that were lost with node `f`: the node before it applied them, the one after it
did not. -/
def lost (s : SerialState K V) (f : Nat) : List (Operation K V) :=
  (s.replicas (f - 1)).db.siltds.drop (s.replicas (f + 1)).db.siltds.length

/-- Nothing was lost with node `f`, or all that is lost can be resent: the node before it is not the
head, no remove is lost, the node after it knows its last put, and the hops are the nodes after `f`. -/
def Recoverable (n : Nat) (s : SerialState K V) (f : Nat) (hops : Int) : Prop :=
  s.lost f = [] ∨
    f ≠ 1 ∧ (∀ op ∈ s.lost f, op.remove = false) ∧
      (s.replicas (f + 1)).db.lastPut = (s.replicas (f + 1)).db.siltds.length ∧
      hops = (n : Int) - 1 - f

/-- Until the repair the head's counter does not come back to zero, the repair is possible, and no put counts
the node that is left out: none is on its way before it at the repair, and later requests do not. -/
def RepairOk (n : Nat) (s : SerialState K V) : SerialStep K V → Prop
  | .request _ _ hops =>
    (s.repaired = false → (s.replicas 0).db.sequence ≠ 0) ∧ (s.repaired = true → hops = (n : Int) - 1)
  | .repair _ hops _ =>
    ∀ f, s.down = some f → s.Recoverable n f hops ∧ ∀ j, 0 < j → j < f → s.links j = []
  | _ => True

end SerialState

section Resend

variable {lastPut a x : Nat} {hops ackHops : Int} {queue : List (Nat × K × V)} {conts : List (Nat × Nat)}
  {ops : List (Operation K V)}

theorem resend_op (lastPut : Nat) (hops ackHops : Int) (queue : List (Nat × K × V))
    (conts : List (Nat × Nat)) : (resend lastPut hops ackHops queue conts).map PutMessage.op =
      (queue.filter fun e => lastPut < e.1).map fun e => ⟨e.2.1, e.2.2, false⟩ := by
  induction queue generalizing conts with
  | nil => rfl
  | cons e queue ih =>
    obtain ⟨seq, key, value⟩ := e
    rw [resend]
    by_cases hlt : lastPut < seq
    · rw [if_pos hlt, List.filter_cons_of_pos (by simpa using hlt), List.map_cons, List.map_cons, ih]
    · rw [if_neg hlt, List.filter_cons_of_neg (by simpa using hlt), ih]

theorem resend_hops {m : PutMessage K V} (hm : m ∈ resend lastPut hops ackHops queue conts) :
    m.hops = hops := by
  induction queue generalizing conts with
  | nil => cases hm
  | cons e queue ih =>
    obtain ⟨seq, key, value⟩ := e
    rw [resend] at hm
    split at hm
    · rcases List.mem_cons.mp hm with rfl | hrest
      · rfl
      · exact ih hrest
    · exact ih hm

/-- Of the entries from some number on, those after `a` are the entries after `a`. -/
theorem filter_drop_entries (ops : List (Operation K V)) (hx : x ≤ a) :
    ((entries ops).drop x).filter (fun e => a < e.1) = (entries ops).drop a := by
  have hfst := drop_entries_fst ops x
  have hincreasing : (((entries ops).drop x).map Prod.fst).Pairwise (· < ·) := by
    rw [hfst]
    exact List.pairwise_lt_range'
  have hfilter := popAcked_increasing (a : Int) hincreasing
  simp only [Int.ofNat_lt] at hfilter
  rw [← hfilter, popAcked_consecutive a hfst, List.drop_drop]
  congr 1
  omega

/-- The entries of puts as they are resent. -/
theorem drop_entries_puts (hputs : ∀ op ∈ ops.drop a, op.remove = false) :
    (((entries ops).drop a).map fun e => (⟨e.2.1, e.2.2, false⟩ : Operation K V)) = ops.drop a := by
  have hsnd : ((entries ops).drop a).map Prod.snd = (ops.drop a).map fun op => (op.key, op.value) := by
    rw [List.map_drop, entries_snd, List.map_drop]
  calc ((entries ops).drop a).map (fun e => (⟨e.2.1, e.2.2, false⟩ : Operation K V))
      = (((entries ops).drop a).map Prod.snd).map fun p => ⟨p.1, p.2, false⟩ := by
        rw [List.map_map]
        rfl
    _ = (ops.drop a).map fun op => ⟨op.key, op.value, false⟩ := by
        rw [hsnd, List.map_map]
        rfl
    _ = ops.drop a := by
        conv_rhs => rw [← List.map_id (ops.drop a)]
        refine List.map_congr_left fun op hop => ?_
        rw [← hputs op hop]
        rfl

end Resend

section ChainRepairMid

variable {db : IntervalDb K V} (info : RepairInfo) (key : K) (hops ackHops : Int)

theorem chainRepairMid_siltds (db : IntervalDb K V) :
    (db.chainRepairMid info key hops ackHops).1.siltds = db.siltds := by
  rw [chainRepairMid]
  split
  · rw [IntervalDb.putAck]
    split <;> rfl
  · rfl

theorem chainRepairMid_queue (hsplit : db.splitPoint = none) :
    (db.chainRepairMid info key hops ackHops).1.seqMsgQueue = db.seqMsgQueue ∨
    (db.chainRepairMid info key hops ackHops).1.seqMsgQueue = popAcked db.seqMsgQueue info.lastAck := by
  rw [chainRepairMid]
  split
  · right
    rw [putAck_eq hsplit]
  · left
    rfl

end ChainRepairMid

namespace SerialState

section Repair

variable {n f : Nat} {s : SerialState K V} (key : K) (hops ackHops : Int)

/-- The node before `f` after `chain_repair_mid`, with the messages it sends. -/
def repairResult (s : SerialState K V) (f : Nat) (key : K) (hops ackHops : Int) :
    IntervalDb K V × Option (AckMessage K) × List (PutMessage K V) :=
  (s.replicas (f - 1)).db.chainRepairMid (s.replicas (f + 1)).db.chainRepairMidSucc key hops ackHops

/-- The queue of an interior node when the puts are resent: no put that is lost was popped. -/
theorem repair_queue_interior (h : Inv n s) (hdown : s.down = some f) (hf : f ≠ 1) :
    ∃ x ≤ (s.replicas (f + 1)).db.siltds.length, (s.repairResult f key hops ackHops).1.seqMsgQueue =
      (entries (s.replicas (f - 1)).db.siltds).drop x := by
  obtain ⟨hpos, hfn⟩ := h.interior f hdown
  obtain ⟨-, -, hacked⟩ := h.cross f hdown
  have hpred := h.nodes (f - 1) (by omega)
  have hsucc := h.nodes (f + 1) hfn
  have hqueue := hpred.queue (by omega) (by omega)
  rcases chainRepairMid_queue (s.replicas (f + 1)).db.chainRepairMidSucc key hops ackHops hpred.split with
    hkept | hpopped
  · exact ⟨_, hacked, hkept.trans hqueue⟩
  · have hack : (s.replicas (f + 1)).db.chainRepairMidSucc.lastAck ≤ (s.replicas (f + 1)).db.siltds.length := by
      have hlast := chainRepairMidSucc_lastAck_le (s.replicas (f + 1)).db
      have hle := hsucc.acked_le
      rw [hsucc.lastAck (by omega)] at hlast
      omega
    rw [hqueue, popAcked_consecutive _ (drop_entries_fst _ _), List.drop_drop] at hpopped
    refine ⟨_, ?_, hpopped⟩
    omega

theorem repair_queue_head (h : Inv n s) (hdown : s.down = some 1) :
    ∀ e ∈ (s.repairResult 1 key hops ackHops).1.seqMsgQueue, e.1 = 0 := by
  obtain ⟨-, hfn⟩ := h.interior 1 hdown
  have hhead := h.nodes 0 (by omega)
  obtain ⟨hzero, -⟩ := hhead.headQueue rfl
  intro e he
  rcases chainRepairMid_queue (s.replicas (1 + 1)).db.chainRepairMidSucc key hops ackHops hhead.split with
    hkept | hpopped
  · rw [repairResult, hkept] at he
    exact hzero e he
  · rw [repairResult, hpopped] at he
    exact hzero e ((List.dropWhile_sublist _).subset he)

/-- What is resent is what was lost. -/
theorem resend_lost (h : Inv n s) (hdown : s.down = some f) (hrec : s.Recoverable n f hops) :
    (s.repairResult f key hops ackHops).2.2.map PutMessage.op = s.lost f := by
  obtain ⟨hpos, hfn⟩ := h.interior f hdown
  have hsucc := h.nodes (f + 1) hfn
  have hbound := hsucc.bound
  have hresend : (s.repairResult f key hops ackHops).2.2.map PutMessage.op =
      ((s.repairResult f key hops ackHops).1.seqMsgQueue.filter fun e =>
        toUInt32 (s.replicas (f + 1)).db.chainRepairMidSucc.lastPut < e.1).map
          fun e => ⟨e.2.1, e.2.2, false⟩ := resend_op _ _ _ _ _
  rw [hresend]
  rcases Nat.eq_or_lt_of_le hpos with rfl | hgt
  · -- the entries of the head have the number zero, and nothing is resent
    have hzero := repair_queue_head key hops ackHops h hdown
    rcases hrec with hnil | ⟨hne, -⟩
    · rw [hnil, List.filter_eq_nil_iff.mpr, List.map_nil]
      intro e he
      rw [hzero e he]
      simp
    · exact absurd rfl hne
  · obtain ⟨x, hx, hqueue⟩ := repair_queue_interior key hops ackHops h hdown (by omega)
    rw [hqueue]
    by_cases hempty : (s.replicas (f - 1)).db.siltds = []
    · rw [lost, hempty]
      simp [entries]
    have hlastPut : (s.replicas (f + 1)).db.lastPut = (s.replicas (f + 1)).db.siltds.length := by
      rcases hrec with hnil | ⟨-, -, hlast, -⟩
      · refine hsucc.lastPut (by omega) fun hnone => hempty ?_
        rw [lost, hnone] at hnil
        simpa using hnil
      · exact hlast
    have hputs : ∀ op ∈ s.lost f, op.remove = false := by
      rcases hrec with hnil | ⟨-, hputs, -⟩
      · intro op hop
        rw [hnil] at hop
        exact absurd hop List.not_mem_nil
      · exact hputs
    rw [toUInt32_lastPut (by rw [hlastPut]; exact hbound), hlastPut, filter_drop_entries _ hx]
    exact drop_entries_puts hputs

end Repair

end SerialState

section Put

variable {m : PutMessage K V}

theorem put_siltds (r : Replica K V) (m : PutMessage K V) : (r.put m).db.siltds = r.db.siltds ++ [m.op] := by
  rw [← putHelper_siltds, Replica.put]
  split <;> rfl

theorem putHelper_sent (db : IntervalDb K V) (hhops : m.hops - 1 ≠ 0) :
    ∃ seq, (db.putHelper m).2.1 = some (forward m seq) := by
  rw [putHelper]
  simp only
  rw [if_neg hhops]
  exact ⟨_, rfl⟩

theorem putHelper_not_sent (db : IntervalDb K V) (hhops : m.hops - 1 = 0) :
    (db.putHelper m).2.1 = none := by
  rw [putHelper]
  simp only
  rw [if_pos hhops]

end Put

namespace SerialState

section Rejoined

variable {n f j k : Nat} {s : SerialState K V} {m : PutMessage K V}

/-- The node after `j` when node `f` is left out. -/
def nextOf (f j : Nat) : Nat := if j + 1 = f then f + 1 else j + 1

/-- The number of nodes from `j` to the tail when node `f` is left out. -/
def toTail (n f j : Nat) : Int := if j < f then (n : Int) - (j + 1) else (n : Int) - j

/-- What holds after the repair: every node has applied what the next one has and what is on its way
to it, and every put goes to the tail and no further. -/
structure Rejoined (n f : Nat) (s : SerialState K V) : Prop where
  down : s.down = some f
  repaired : s.repaired = true
  interior : 0 < f ∧ f + 1 < n
  ops : ∀ j, j ≠ f → nextOf f j < n → (s.replicas j).db.siltds =
    (s.replicas (nextOf f j)).db.siltds ++ (s.links (nextOf f j)).map PutMessage.op
  hops : ∀ j, 0 < j → j < n → j ≠ f → ∀ m ∈ s.links j, m.hops = toTail n f j
  behind : s.links n = []

theorem succOf_rejoined (h : Rejoined n f s) (j : Nat) : s.succOf j = some (nextOf f j) := by
  unfold succOf nextOf
  rw [h.down]
  simp only [h.repaired]
  split <;> rfl

theorem nextOf_ne (f j : Nat) : nextOf f j ≠ j := by
  unfold nextOf
  split <;> omega

theorem nextOf_inj (hj : j ≠ f) (hk : k ≠ f) (heq : nextOf f j = nextOf f k) : j = k := by
  unfold nextOf at heq
  split at heq <;> split at heq <;> omega

theorem toTail_nextOf (f j : Nat) : toTail n f (nextOf f j) = toTail n f j - 1 := by
  unfold toTail nextOf
  split <;> split <;> split <;> omega

theorem one_lt_toTail (hf : f + 1 < n) (hlt : nextOf f j < n) : 1 < toTail n f j := by
  unfold nextOf at hlt
  unfold toTail
  split at hlt <;> split <;> omega

/-- A put goes to the next node, unless this is the tail, and counts the nodes from there. -/
theorem sendPut_rejoined (h : Rejoined n f s) (hhops : m.hops = toTail n f k)
    (links : Nat → List (PutMessage K V)) :
    ∃ sent, { s with links := links }.sendPut k ((s.replicas k).db.putHelper m).2.1 =
        Function.update links (nextOf f k) (links (nextOf f k) ++ sent) ∧
      (nextOf f k < n → sent.map PutMessage.op = [m.op]) ∧ (nextOf f k = n → sent = []) ∧
      ∀ m' ∈ sent, m'.hops = toTail n f (nextOf f k) := by
  by_cases hlast : m.hops - 1 = 0
  · refine ⟨[], ?_, ?_, fun _ => rfl, fun m' hm' => absurd hm' List.not_mem_nil⟩
    · rw [putHelper_not_sent _ hlast, sendPut_none, List.append_nil, Function.update_eq_self]
    · intro hnext
      have := one_lt_toTail h.interior.2 hnext
      omega
  · obtain ⟨seq, hsend⟩ := putHelper_sent (s.replicas k).db hlast
    have hsucc : ({ s with links := links } : SerialState K V).succOf k = some (nextOf f k) :=
      succOf_rejoined h k
    refine ⟨[forward m seq], ?_, fun _ => rfl, fun hnext => ?_, ?_⟩
    · unfold sendPut
      rw [hsend, hsucc]
    · -- the tail sends nothing on
      have hone : toTail n f k = 1 := by
        have hinterior := h.interior
        unfold nextOf at hnext
        unfold toTail
        split at hnext <;> split <;> omega
      omega
    · intro m' hm'
      rw [List.mem_singleton.mp hm', toTail_nextOf, ← hhops]
      rfl

/-- A put at node `k`, taken from its link if it is not a request. -/
theorem rejoined_put (h : Rejoined n f s) (hk : k ≠ f) (hkn : k < n) (hhops : m.hops = toTail n f k)
    {links : Nat → List (PutMessage K V)} (hothers : ∀ j, j ≠ k → links j = s.links j)
    (htaken : 0 < k → s.links k = m :: links k) :
    Rejoined n f ({ s with links := links }.handlePut k m) := by
  obtain ⟨sent, hlinks, hops, hlast, hsent⟩ := sendPut_rejoined h hhops links
  have hne := nextOf_ne f k
  unfold handlePut
  simp only
  rw [hlinks]
  constructor
  case down => exact h.down
  case repaired => exact h.repaired
  case interior => exact h.interior
  case ops =>
    intro j hj hlt
    have hold := h.ops j hj hlt
    simp only
    by_cases hjk : j = k
    · subst hjk
      rw [Function.update_self, Function.update_of_ne hne, Function.update_self, put_siltds,
        hothers _ hne, List.map_append, hops hlt, hold, List.append_assoc]
    · have hnext : nextOf f j ≠ nextOf f k := fun heq => hjk (nextOf_inj hj hk heq)
      rw [Function.update_of_ne hjk, Function.update_of_ne hnext]
      by_cases hjk' : nextOf f j = k
      · have hpos : 0 < k := by
          rw [← hjk', nextOf]
          split <;> omega
        rw [hjk', htaken hpos] at hold
        rw [hjk', Function.update_self, put_siltds, hold]
        simp
      · rw [Function.update_of_ne hjk', hothers _ hjk']
        exact hold
  case hops =>
    intro j hpos hlt hj m' hm'
    have hrest : ∀ m' ∈ links j, m'.hops = toTail n f j := by
      intro m' hm'
      refine h.hops j hpos hlt hj m' ?_
      by_cases hjk : j = k
      · rw [hjk, htaken (by omega)]
        rw [hjk] at hm'
        exact List.mem_cons_of_mem m hm'
      · rw [← hothers j hjk]
        exact hm'
    simp only at hm'
    by_cases hjk : j = nextOf f k
    · subst hjk
      rw [Function.update_self] at hm'
      rcases List.mem_append.mp hm' with hold | hnew
      · exact hrest m' hold
      · exact hsent m' hnew
    · rw [Function.update_of_ne hjk] at hm'
      exact hrest m' hm'
  case behind =>
    have hempty : links n = [] := by
      rw [hothers n (by omega)]
      exact h.behind
    simp only
    by_cases hnext : nextOf f k = n
    · rw [hnext, Function.update_self, hempty, hlast hnext, List.append_nil]
    · rw [Function.update_of_ne (Ne.symm hnext)]
      exact hempty

theorem rejoined_ack (h : Rejoined n f s) (j : Nat) (a : AckMessage K) (acks : Nat → List (AckMessage K)) :
    Rejoined n f ({ s with acks := acks }.handleAck j a) := by
  have hsiltds : ∀ i, (Function.update s.replicas j ((s.replicas j).putAck a.seq) i).db.siltds =
      (s.replicas i).db.siltds := by
    intro i
    by_cases hij : i = j
    · subst hij
      rw [Function.update_self, Replica.putAck, IntervalDb.putAck]
      split <;> rfl
    · rw [Function.update_of_ne hij]
  unfold handleAck
  constructor
  case down => exact h.down
  case repaired => exact h.repaired
  case interior => exact h.interior
  case ops =>
    intro i hi hlt
    simp only [hsiltds]
    exact h.ops i hi hlt
  case hops => exact h.hops
  case behind => exact h.behind

/-- The repair of a chain in which what was lost can be resent. -/
theorem rejoined_repair (h : Inv n s) (hdown : s.down = some f) (key : K) {hops : Int} (ackHops : Int)
    (hrec : s.Recoverable n f hops) (hbefore : ∀ j, 0 < j → j < f → s.links j = [])
    (hbehind : s.links n = []) : Rejoined n f (s.handleRepair f key hops ackHops) := by
  obtain ⟨hpos, hfn⟩ := h.interior f hdown
  have hlive : ∀ j, j ≠ f → j + 1 ≠ f → s.Live j := by
    intro j hj hj' f' hf'
    rw [hdown] at hf'
    cases hf'
    exact ⟨hj', hj⟩
  have hsiltds : ∀ i, ((s.handleRepair f key hops ackHops).replicas i).db.siltds =
      (s.replicas i).db.siltds := by
    intro i
    unfold handleRepair
    simp only
    by_cases hi : i = f - 1
    · subst hi
      rw [Function.update_self]
      exact chainRepairMid_siltds _ key hops ackHops _
    · rw [Function.update_of_ne hi]
  have hempty : s.links (f + 1) = [] := by
    refine (h.dead f hfn fun hlive' => ?_).1
    exact (hlive' f hdown).2 rfl
  have hlinks : (s.handleRepair f key hops ackHops).links =
      Function.update s.links (f + 1) (s.repairResult f key hops ackHops).2.2 := by
    unfold handleRepair repairResult
    simp only
    rw [hempty, List.nil_append]
  constructor
  case down => exact hdown
  case repaired => rfl
  case interior => exact ⟨hpos, hfn⟩
  case ops =>
    intro j hj hlt
    rw [hsiltds, hsiltds, hlinks]
    unfold nextOf at hlt ⊢
    by_cases hj' : j + 1 = f
    · -- across the node that is left out
      subst hj'
      obtain ⟨rest, hrest, -⟩ := h.cross _ hdown
      rw [if_pos rfl, Function.update_self, resend_lost key hops ackHops h hdown hrec, lost]
      rw [Nat.add_sub_cancel] at hrest ⊢
      rw [hrest, List.drop_left]
    · rw [if_neg hj'] at hlt ⊢
      rw [Function.update_of_ne (by omega)]
      exact (h.edges j hlt (hlive j hj hj')).ops
  case hops =>
    intro j hj hlt hjf m hm
    rw [hlinks] at hm
    by_cases hj' : j = f + 1
    · subst hj'
      rw [Function.update_self] at hm
      have hhops : m.hops = hops := resend_hops hm
      rcases hrec with hnil | ⟨-, -, -, hexact⟩
      · have hresend := resend_lost key hops ackHops h hdown (.inl hnil)
        rw [hnil, List.map_eq_nil_iff] at hresend
        rw [hresend] at hm
        exact absurd hm List.not_mem_nil
      · rw [hhops, hexact, toTail, if_neg (by omega)]
        omega
    · rw [Function.update_of_ne hj'] at hm
      by_cases hbefore' : j < f
      · rw [hbefore j hj hbefore'] at hm
        exact absurd hm List.not_mem_nil
      · obtain ⟨k, rfl⟩ : ∃ k, j = k + 1 := ⟨j - 1, by omega⟩
        have hedge := h.edges k hlt (hlive k (by omega) hjf)
        rw [(hedge.inLink m hm).1, toTail, if_neg hbefore']
        omega
  case behind =>
    rw [hlinks, Function.update_of_ne (by omega)]
    exact hbehind

end Rejoined

section Runs

variable {n f : Nat} {s t : SerialState K V} {l : SerialStep K V}

/-- What holds along a run: the chain is not repaired yet, or it is. -/
def RunInv (n : Nat) (s : SerialState K V) : Prop := Inv n s ∧ s.links n = [] ∨ ∃ f, Rejoined n f s

theorem rejoined_step (hstep : step n s l = some t) (hok : RepairOk n s l) (h : Rejoined n f s) :
    Rejoined n f t := by
  have hinterior := h.interior
  cases l with
  | request op continuation hops =>
    obtain ⟨-, rfl⟩ := step_request_eq_some.mp hstep
    refine rejoined_put h (by omega) (by omega) ?_ (fun _ _ => rfl) fun h0 => absurd h0 (by omega)
    rw [toTail, if_pos hinterior.1]
    simpa using hok.2 h.repaired
  | receive j =>
    obtain ⟨⟨hj, hlt, hup⟩, m, rest, hlink, rfl⟩ := step_receive_eq_some.mp hstep
    have hjf : j ≠ f := by
      rintro rfl
      exact hup h.down
    have hhops := h.hops j hj hlt hjf m (by rw [hlink]; exact List.mem_cons_self)
    refine rejoined_put h hjf hlt hhops (fun i hi => Function.update_of_ne hi _ _) fun _ => ?_
    rw [Function.update_self]
    exact hlink
  | receiveAck j =>
    obtain ⟨-, a, rest, -, rfl⟩ := step_receiveAck_eq_some.mp hstep
    exact rejoined_ack h j a _
  | fail f' =>
    obtain ⟨⟨hnone, -⟩, -⟩ := step_fail_eq_some.mp hstep
    rw [h.down] at hnone
    cases hnone
  | repair key hops ackHops =>
    obtain ⟨hrep, -⟩ := step_repair_eq_some.mp hstep
    rw [h.repaired] at hrep
    cases hrep

/-- Until the repair the tail sends nothing on. -/
theorem sendPut_behind (h : Inv n s) {links : Nat → List (PutMessage K V)} {k : Nat}
    (hhops : m.hops = (n : Int) - k) :
    { s with links := links }.sendPut k ((s.replicas k).db.putHelper m).2.1 n = links n := by
  by_cases hlast : m.hops - 1 = 0
  · rw [putHelper_not_sent _ hlast, sendPut_none]
  · have hsucc := succOf_live (j := k) (show ({ s with links := links } : SerialState K V).repaired = false
      from h.notRepaired)
    obtain ⟨seq, hsend⟩ := putHelper_sent (s.replicas k).db hlast
    unfold sendPut
    rw [hsucc, hsend]
    by_cases hdown : s.down = some (k + 1)
    · simp only [if_pos hdown]
    · simp only [if_neg hdown]
      rw [Function.update_of_ne (by omega)]

theorem behind_step (hstep : step n s l = some t)
    (hrepair : ∀ key hops ackHops, l ≠ .repair key hops ackHops) (h : Inv n s) (hbehind : s.links n = []) :
    t.links n = [] := by
  cases l with
  | request op continuation hops =>
    obtain ⟨hhops, rfl⟩ := step_request_eq_some.mp hstep
    rw [h.notRepaired] at hhops
    have hfull : hops = n := hhops.resolve_right fun hshort => Bool.noConfusion hshort.1
    exact (sendPut_behind h (by simpa using hfull)).trans hbehind
  | receive j =>
    obtain ⟨⟨hj, hlt, hup⟩, m, rest, hlink, rfl⟩ := step_receive_eq_some.mp hstep
    have hlive : s.Live (j - 1) := by
      by_contra hdead
      have hempty := (h.dead (j - 1) (by omega) hdead).1
      rw [Nat.sub_add_cancel hj, hlink] at hempty
      cases hempty
    have hedge := h.edges (j - 1) (by omega) hlive
    rw [Nat.sub_add_cancel hj] at hedge
    have hhops := (hedge.inLink m (by rw [hlink]; exact List.mem_cons_self)).1
    refine (sendPut_behind h (by rw [hhops]; omega)).trans ?_
    rw [Function.update_of_ne (by omega)]
    exact hbehind
  | receiveAck j =>
    obtain ⟨-, a, rest, -, rfl⟩ := step_receiveAck_eq_some.mp hstep
    exact hbehind
  | fail f' =>
    obtain ⟨⟨-, hf⟩, rfl⟩ := step_fail_eq_some.mp hstep
    simp only
    rw [Function.update_of_ne (by omega), Function.update_of_ne (by omega)]
    exact hbehind
  | repair key hops ackHops => exact absurd rfl (hrepair key hops ackHops)

theorem runInv_step (hn : 1 < n) (hstep : step n s l = some t) (hok : RepairOk n s l) (h : RunInv n s) :
    RunInv n t := by
  rcases h with ⟨h, hbehind⟩ | ⟨f, h⟩
  · cases l with
    | repair key hops ackHops =>
      obtain ⟨-, f, hdown, rfl⟩ := step_repair_eq_some.mp hstep
      obtain ⟨hrec, hbefore⟩ := hok f hdown
      exact .inr ⟨f, rejoined_repair h hdown key ackHops hrec hbefore hbehind⟩
    | request op continuation hops =>
      exact .inl ⟨inv_step hn hstep (hok.1 h.notRepaired) h (fun _ _ _ heq => by cases heq),
        behind_step hstep (fun _ _ _ heq => by cases heq) h hbehind⟩
    | receive j =>
      exact .inl ⟨inv_step hn hstep trivial h (fun _ _ _ heq => by cases heq),
        behind_step hstep (fun _ _ _ heq => by cases heq) h hbehind⟩
    | receiveAck j =>
      exact .inl ⟨inv_step hn hstep trivial h (fun _ _ _ heq => by cases heq),
        behind_step hstep (fun _ _ _ heq => by cases heq) h hbehind⟩
    | fail f =>
      exact .inl ⟨inv_step hn hstep trivial h (fun _ _ _ heq => by cases heq),
        behind_step hstep (fun _ _ _ heq => by cases heq) h hbehind⟩
  · exact .inr ⟨f, rejoined_step hstep hok h⟩

/-- When nothing is on its way after the node that is left out, the nodes there agree with the one
before it. -/
theorem siltds_of_quiet (h : Rejoined n f s) (hquiet : ∀ j, f < j → j < n → s.links j = []) {j : Nat}
    (hj : f < j) (hlt : j < n) : (s.replicas j).db.siltds = (s.replicas (f - 1)).db.siltds := by
  induction j, hj using Nat.le_induction with
  | base =>
    have hedge := h.ops (f - 1) (by have := h.interior; omega)
    rw [nextOf, if_pos (by have := h.interior; omega)] at hedge
    rw [hedge hlt, hquiet _ (by omega) hlt]
    simp
  | succ k hk ih =>
    have hedge := h.ops k (by omega)
    rw [nextOf, if_neg (by omega)] at hedge
    rw [← ih (by omega), hedge hlt, hquiet _ (by omega) hlt]
    simp

/-- In every run in which what is lost can be resent, the nodes after the one that stopped come to
what the node before it has applied, and no put goes past the tail. -/
theorem repair_loses_nothing (n : Nat) (memory : Nat → Nat) (ls : List (SerialStep K V)) (hn : 2 < n)
    (hrun : Transition.run (step n) (initial memory) ls = some s)
    (hok : Transition.Meets (step n) (RepairOk n) (initial memory) ls) (hdown : s.down = some f)
    (hrep : s.repaired = true) (hquiet : ∀ j, f < j → j < n → s.links j = []) :
    s.links n = [] ∧ ∀ j, f < j → j < n → (s.replicas j).db.siltds = (s.replicas (f - 1)).db.siltds := by
  have hinv : RunInv n s := Transition.run_invariant_of_meets
    (fun _ _ _ hstep hok h => runInv_step (by omega) hstep hok h) hrun hok
    (.inl ⟨inv_initial n memory, rfl⟩)
  rcases hinv with ⟨hinv, -⟩ | ⟨f', hinv⟩
  · rw [hinv.notRepaired] at hrep
    cases hrep
  · have heq : f' = f := Option.some.inj (hinv.down.symm.trans hdown)
    subst heq
    exact ⟨hinv.behind, fun j hj hlt => siltds_of_quiet hinv hquiet hj hlt⟩

/-- The second put is lost with node 2 and resent; the third goes to the shorter chain. -/
def lostPut : List (SerialStep Nat Nat) :=
  [.request ⟨7, 70, false⟩ 1 4, .receive 1, .receive 2, .receive 3, .request ⟨7, 71, false⟩ 2 4,
    .receive 1, .fail 2, .repair 7 1 1, .receive 3, .request ⟨7, 72, false⟩ 3 3, .receive 1, .receive 3]

theorem repair_resends_put : ∃ s : SerialState Nat Nat,
    Transition.run (step 4) (initial fun _ => 0) lostPut = some s ∧ s.links 4 = [] ∧
    (s.replicas 3).db.siltds = [⟨7, 70, false⟩, ⟨7, 71, false⟩, ⟨7, 72, false⟩] ∧
    (s.replicas 3).db.siltds = (s.replicas 1).db.siltds := by
  have hobserved : (Transition.run (step 4) (initial fun _ => 0) lostPut).map (fun s =>
      (s.down, s.repaired, s.links 3, (s.replicas 3).db.siltds)) =
        some (some 2, true, [], [⟨7, 70, false⟩, ⟨7, 71, false⟩, ⟨7, 72, false⟩]) := rfl
  have hok : Transition.Meets (step 4) (RepairOk 4) (initial fun _ => 0) lostPut := by
    refine .cons rfl ⟨fun _ => Nat.one_ne_zero, Bool.noConfusion⟩ <| .cons rfl trivial <|
      .cons rfl trivial <| .cons rfl trivial <|
      .cons rfl ⟨fun _ => by decide, Bool.noConfusion⟩ <| .cons rfl trivial <| .cons rfl trivial <|
      .cons rfl ?_ <| .cons rfl trivial <| .cons rfl ⟨Bool.noConfusion, fun _ => rfl⟩ <|
      .cons rfl trivial <| .cons rfl trivial trivial
    intro f hf
    cases hf
    refine ⟨.inr ⟨by decide, by decide, by decide, by decide⟩, fun j hj hlt => ?_⟩
    obtain rfl : j = 1 := by omega
    rfl
  obtain ⟨s, hs, hvalue⟩ := Option.map_eq_some_iff.mp hobserved
  simp only [Prod.mk.injEq] at hvalue
  obtain ⟨hdown, hrep, hlink, hsiltds⟩ := hvalue
  obtain ⟨hbehind, hagree⟩ := repair_loses_nothing 4 (fun _ => 0) lostPut (by decide) hs hok hdown hrep
    fun j hj hlt => by
      obtain rfl : j = 3 := by omega
      exact hlink
  exact ⟨s, hs, hbehind, hsiltds, hagree 3 (by decide) (by decide)⟩

/-- A remove is lost with node 2 and resent as a put: the tail holds a value the others do not. -/
theorem repair_resends_remove_as_put : ∃ s : SerialState Nat Nat,
    Transition.run (step 4) (initial fun _ => 0)
      [.request ⟨7, 70, false⟩ 1 4, .receive 1, .receive 2, .receive 3, .request ⟨7, 0, true⟩ 2 4,
        .receive 1, .fail 2, .repair 7 1 1, .receive 3] = some s ∧
    s.down = some 2 ∧ s.repaired = true ∧ (∀ j < 4, s.links j = []) ∧
    (s.replicas 1).db.siltds = [⟨7, 70, false⟩, ⟨7, 0, true⟩] ∧
    (s.replicas 3).db.siltds = [⟨7, 70, false⟩, ⟨7, 0, false⟩] ∧
    (s.replicas 1).db.get 7 = none ∧ (s.replicas 3).db.get 7 = some 0 := by
  refine ⟨_, rfl, rfl, rfl, ?_, by decide, by decide, by decide, by decide⟩
  decide

end Runs

end SerialState

end FawnKV.Chain
