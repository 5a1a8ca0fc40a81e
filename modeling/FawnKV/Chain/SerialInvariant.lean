import Mathlib.Data.List.Induction
import Mathlib.Data.List.TakeWhile
import FawnKV.Chain.Serial

/-! Before a repair the puts of a chain are numbered one by one and acknowledged in this order. -/
namespace FawnKV.Chain

open IntervalDb

variable {K V : Type}

section Numbers

variable {α : Type} {ops : List (Operation K V)} {l : List (Nat × α)} {b c : Nat}

/-- The operations as they stand in a queue, numbered from one. -/
def entries (ops : List (Operation K V)) : List (Nat × K × V) :=
  ops.mapIdx fun i op => (i + 1, op.key, op.value)

/-- The numbers from one to `b`. -/
def numbersTo (b : Nat) : List Int := (List.range b).map fun i : Nat => ((i + 1 : Nat) : Int)

@[simp] theorem length_entries (ops : List (Operation K V)) : (entries ops).length = ops.length := by
  simp [entries]

@[simp] theorem length_numbersTo (b : Nat) : (numbersTo b).length = b := by
  simp [numbersTo]

theorem entries_append (ops : List (Operation K V)) (op : Operation K V) :
    entries (ops ++ [op]) = entries ops ++ [(ops.length + 1, op.key, op.value)] := by
  rw [entries, List.mapIdx_concat]
  rfl

theorem numbersTo_succ (b : Nat) : numbersTo (b + 1) = numbersTo b ++ [((b + 1 : Nat) : Int)] := by
  rw [numbersTo, List.range_succ, List.map_append]
  rfl

theorem mem_numbersTo {x : Nat} : ((x + 1 : Nat) : Int) ∈ numbersTo b ↔ x < b := by
  simp only [numbersTo, List.mem_map, List.mem_range]
  constructor
  · rintro ⟨a, ha, heq⟩
    omega
  · intro hlt
    exact ⟨x, hlt, rfl⟩

/-- The entries after the first `b` are those that are not among the numbers up to `b`. -/
theorem filter_entries (ops : List (Operation K V)) (b : Nat) :
    ((entries ops).filter fun e => (e.1 : Int) ∉ numbersTo b) = (entries ops).drop b := by
  induction ops using List.reverseRecOn with
  | nil => simp [entries]
  | append_singleton ops op ih =>
    rw [entries_append, List.filter_append, ih]
    by_cases hlt : ops.length < b
    · have hmem : ((ops.length + 1 : Nat) : Int) ∈ numbersTo b := mem_numbersTo.mpr hlt
      rw [List.drop_eq_nil_of_le (by rw [length_entries]; omega), List.drop_eq_nil_of_le
        (by rw [List.length_append, length_entries, List.length_singleton]; omega)]
      rw [List.nil_append, List.filter_eq_nil_iff]
      simpa using hmem
    · have hmem : ((ops.length + 1 : Nat) : Int) ∉ numbersTo b := fun h => hlt (mem_numbersTo.mp h)
      rw [List.drop_append_of_le_length (by rw [length_entries]; omega), List.filter_cons,
        if_pos (by simpa using hmem)]
      rfl

/-- Popping from a queue whose numbers follow each other. -/
theorem popAcked_consecutive (seq : Int) (h : l.map Prod.fst = List.range' c l.length) :
    popAcked l seq = l.drop (seq + 1 - c).toNat := by
  induction l generalizing c with
  | nil => simp [popAcked]
  | cons e l ih =>
    rw [List.length_cons, List.range'_succ, List.map_cons] at h
    obtain ⟨he, hl⟩ := List.cons.inj h
    by_cases hle : (e.1 : Int) ≤ seq
    · have hcount : (seq + 1 - c).toNat = (seq + 1 - ((c + 1 : Nat) : Int)).toNat + 1 := by omega
      have hrest := ih hl
      rw [popAcked] at hrest
      rw [popAcked, List.dropWhile_cons_of_pos (by simpa using hle), hrest, hcount, List.drop_succ_cons]
    · have hcount : (seq + 1 - c).toNat = 0 := by omega
      rw [popAcked, List.dropWhile_cons_of_neg (by simpa using hle), hcount, List.drop_zero]

/-- Popping from a queue whose numbers increase. -/
theorem popAcked_increasing (seq : Int) (h : (l.map Prod.fst).Pairwise (· < ·)) :
    popAcked l seq = l.filter fun e => seq < (e.1 : Int) := by
  induction l with
  | nil => rfl
  | cons e l ih =>
    rw [List.map_cons, List.pairwise_cons] at h
    by_cases hle : (e.1 : Int) ≤ seq
    · have hrest := ih h.2
      rw [popAcked] at hrest
      rw [popAcked, List.dropWhile_cons_of_pos (by simpa using hle), hrest,
        List.filter_cons_of_neg (by simpa using hle)]
    · -- what follows the first entry that stays has larger numbers
      have hall : ∀ e' ∈ e :: l, seq < (e'.1 : Int) := by
        intro e' he'
        rcases List.mem_cons.mp he' with rfl | hmem
        · omega
        · have := h.1 e'.1 (List.mem_map_of_mem hmem)
          omega
      rw [popAcked, List.dropWhile_cons_of_neg (by simpa using hle),
        List.filter_eq_self.mpr (by simpa using hall)]

theorem lastPopped_consecutive (h : l.map Prod.fst = List.range' c l.length) :
    lastPopped l c = none ∨ lastPopped l c = some c := by
  cases l with
  | nil => exact .inl rfl
  | cons e l =>
    rw [List.length_cons, List.range'_succ, List.map_cons] at h
    obtain ⟨he, hl⟩ := List.cons.inj h
    right
    rw [lastPopped, List.takeWhile_cons_of_pos (by simp [he])]
    cases l with
    | nil => simp [he]
    | cons e' l =>
      rw [List.length_cons, List.range'_succ, List.map_cons] at hl
      have he' := (List.cons.inj hl).1
      rw [List.takeWhile_cons_of_neg (by simp; omega)]
      simp [he]

theorem entries_fst (ops : List (Operation K V)) :
    (entries ops).map Prod.fst = List.range' 1 ops.length := by
  induction ops using List.reverseRecOn with
  | nil => rfl
  | append_singleton ops op ih =>
    rw [entries_append, List.map_append, ih, List.length_append, List.length_singleton,
      List.range'_1_concat]
    simp [Nat.add_comm]

theorem entries_snd (ops : List (Operation K V)) :
    (entries ops).map Prod.snd = ops.map fun op => (op.key, op.value) := by
  induction ops using List.reverseRecOn with
  | nil => rfl
  | append_singleton ops op ih =>
    rw [entries_append, List.map_append, ih, List.map_append]
    rfl

theorem drop_entries_fst (ops : List (Operation K V)) (b : Nat) :
    ((entries ops).drop b).map Prod.fst = List.range' (b + 1) ((entries ops).drop b).length := by
  rw [List.map_drop, entries_fst, List.drop_range', List.length_drop, length_entries]
  congr 1
  omega

end Numbers

section Edge

variable {n j : Nat} {a a' b b' : Replica K V} {link : List (PutMessage K V)} {acks : List (AckMessage K)}
  {m : PutMessage K V} {x : AckMessage K}

/-- What holds between node `j` and the next one, with the puts and the acknowledgements between
them. -/
structure SerialEdge (n j : Nat) (a : Replica K V) (link : List (PutMessage K V))
    (acks : List (AckMessage K)) (b : Replica K V) : Prop where
  ops : a.db.siltds = b.db.siltds ++ link.map PutMessage.op
  seqs : link.map PutMessage.seq = List.range' (b.db.siltds.length + 1) link.length
  inLink : ∀ m ∈ link, m.hops = (n : Int) - (j + 1) ∧ m.ackhops = n ∧ m.seq < 2 ^ 32
  acked : b.acked = a.acked ++ acks.map AckMessage.seq
  inAcks : ∀ x ∈ acks, x.hops = (j : Int)

theorem SerialEdge.seq_eq (h : SerialEdge n j a (m :: link) acks b) :
    m.seq = b.db.siltds.length + 1 := by
  have hseqs := h.seqs
  rw [List.map_cons, List.length_cons, List.range'_succ] at hseqs
  exact (List.cons.inj hseqs).1

theorem SerialEdge.receive (h : SerialEdge n j a (m :: link) acks b) (sent : List (AckMessage K))
    (hsiltds : b'.db.siltds = b.db.siltds ++ [m.op])
    (hacked : b'.acked = b.acked ++ sent.map AckMessage.seq) (hsent : ∀ x ∈ sent, x.hops = (j : Int)) :
    SerialEdge n j a link (acks ++ sent) b' := by
  have hseqs := h.seqs
  rw [List.map_cons, List.length_cons, List.range'_succ] at hseqs
  constructor
  · rw [h.ops, hsiltds]
    simp
  · rw [(List.cons.inj hseqs).2, hsiltds, List.length_append, List.length_singleton]
  · exact fun m' hm' => h.inLink m' (List.mem_cons_of_mem m hm')
  · rw [hacked, h.acked]
    simp
  · intro x hx
    rcases List.mem_append.mp hx with hold | hnew
    · exact h.inAcks x hold
    · exact hsent x hnew

theorem SerialEdge.forward (h : SerialEdge n j a link acks b)
    (hsiltds : a'.db.siltds = a.db.siltds ++ [m.op]) (hacked : a'.acked = a.acked)
    (hseq : m.seq = a.db.siltds.length + 1) (hlt : m.seq < 2 ^ 32)
    (hhops : m.hops = (n : Int) - (j + 1)) (hackhops : m.ackhops = n) :
    SerialEdge n j a' (link ++ [m]) acks b := by
  have hlen : a.db.siltds.length = b.db.siltds.length + link.length := by
    rw [h.ops, List.length_append, List.length_map]
  constructor
  · rw [hsiltds, h.ops]
    simp
  · rw [List.map_append, h.seqs, List.length_append, List.length_singleton, List.range'_1_concat,
      List.map_singleton, hseq, hlen]
    congr 2
    omega
  · intro m' hm'
    rcases List.mem_append.mp hm' with hold | hnew
    · exact h.inLink m' hold
    · rw [List.mem_singleton.mp hnew]
      exact ⟨hhops, hackhops, hlt⟩
  · rw [hacked]
    exact h.acked
  · exact h.inAcks

theorem SerialEdge.ack_seq_eq (h : SerialEdge n j a link (x :: acks) b)
    (hb : b.acked = numbersTo b.acked.length) :
    x.seq = ((a.acked.length + 1 : Nat) : Int) ∧ a.acked.length + 1 ≤ b.acked.length := by
  have hlen := congrArg List.length h.acked
  rw [List.length_append, List.length_map, List.length_cons] at hlen
  refine ⟨?_, by omega⟩
  have hget : b.acked[a.acked.length]? = some x.seq := by
    rw [h.acked, List.getElem?_append_right (Nat.le_refl _), Nat.sub_self]
    rfl
  rw [hb, numbersTo, List.getElem?_map, List.getElem?_range (by omega)] at hget
  exact (Option.some.inj hget).symm

theorem SerialEdge.receiveAck (h : SerialEdge n j a link (x :: acks) b)
    (hsiltds : a'.db.siltds = a.db.siltds) (hacked : a'.acked = a.acked ++ [x.seq]) :
    SerialEdge n j a' link acks b := by
  constructor
  · rw [hsiltds]
    exact h.ops
  · exact h.seqs
  · exact h.inLink
  · rw [hacked, h.acked]
    simp
  · exact fun y hy => h.inAcks y (List.mem_cons_of_mem x hy)

theorem SerialEdge.forwardAck (h : SerialEdge n j a link acks b)
    (hsiltds : b'.db.siltds = b.db.siltds) (hacked : b'.acked = b.acked ++ [x.seq])
    (hhops : x.hops = (j : Int)) : SerialEdge n j a link (acks ++ [x]) b' := by
  constructor
  · rw [hsiltds]
    exact h.ops
  · rw [hsiltds]
    exact h.seqs
  · exact h.inLink
  · rw [hacked, h.acked]
    simp
  · intro y hy
    rcases List.mem_append.mp hy with hold | hnew
    · exact h.inAcks y hold
    · rw [List.mem_singleton.mp hnew]
      exact hhops

end Edge

section Node

variable {n j : Nat} {db : IntervalDb K V} {r : Replica K V} {m : PutMessage K V} {seq : Int}

/-- What holds of a node by itself. -/
structure NodeOk (n j : Nat) (r : Replica K V) : Prop where
  split : r.db.splitPoint = none
  bound : r.db.siltds.length < 2 ^ 32
  acked : r.acked = numbersTo r.acked.length
  acked_le : r.acked.length ≤ r.db.siltds.length
  forwarded : j + 1 < n → r.forwarded = entries r.db.siltds
  queue : 0 < j → j + 1 < n → r.db.seqMsgQueue = (entries r.db.siltds).drop r.acked.length
  headQueue : j = 0 → (∀ e ∈ r.db.seqMsgQueue, e.1 = 0) ∧
    (r.acked.length = r.db.siltds.length → r.db.seqMsgQueue = [])
  counter : j = 0 → r.db.sequence = (r.db.siltds.length + 1) % 2 ^ 32
  lastPut : 0 < j → r.db.siltds ≠ [] → r.db.lastPut = r.db.siltds.length
  lastAck : 0 < j → r.db.lastAck = r.acked.length
  tail : j + 1 = n → r.acked.length = r.db.siltds.length

/-- The node after the part of a put under `dbLock`, when it is not the tail. -/
def buffered (db : IntervalDb K V) (m : PutMessage K V) : IntervalDb K V :=
  { db with
    siltds := db.siltds ++ [m.op]
    lastPut := m.seq % 2 ^ 32
    seqMsgQueue := db.seqMsgQueue ++ [(m.seq % 2 ^ 32, m.op.key, m.op.value)]
    seqContQueue := db.seqContQueue ++ [(m.seq % 2 ^ 32, m.continuation)] }

theorem putHelper_forward (hsplit : db.splitPoint = none) (hhops : ¬m.hops - 1 = 0) :
    db.putHelper m = (((buffered db m).assignSequence m.seq).2,
      some (forward m ((buffered db m).assignSequence m.seq).1), none) := by
  have happly : db.applyPut m = buffered db m := by
    simp [applyPut, hhops, buffer, hsplit, buffered]
  rw [putHelper]
  simp only [happly, if_neg hhops]

theorem putHelper_tail (db : IntervalDb K V) (hhops : m.hops - 1 = 0) :
    db.putHelper m = ({ db with
      siltds := db.siltds ++ [m.op]
      lastPut := m.seq % 2 ^ 32
      lastAck := m.seq % 2 ^ 32 }, none, tailAck m) := by
  rw [putHelper]
  simp only [applyPut, if_pos hhops]

/-- An interior node forwards a put with the number it came with. -/
theorem node_put_interior (h : NodeOk n j r) (hpos : 0 < j) (hj : j + 1 < n)
    (hhops : ¬m.hops - 1 = 0) (hseq : m.seq = r.db.siltds.length + 1) (hlt : m.seq < 2 ^ 32) :
    r.db.putHelper m = (buffered r.db m, some (forward m m.seq), none) ∧ NodeOk n j (r.put m) ∧
      (r.put m).db.siltds = r.db.siltds ++ [m.op] ∧ (r.put m).acked = r.acked := by
  have hmod : m.seq % 2 ^ 32 = m.seq := Nat.mod_eq_of_lt hlt
  have hhelper : r.db.putHelper m = (buffered r.db m, some (forward m m.seq), none) := by
    rw [putHelper_forward h.split hhops, assignSequence, if_neg (by omega), hmod]
  have hput : r.put m = { r with
      db := buffered r.db m
      forwarded := r.forwarded ++ [(m.seq, m.op.key, m.op.value)] } := by
    rw [Replica.put, hhelper]
    rfl
  have hle := h.acked_le
  refine ⟨hhelper, ?_, by rw [hput]; rfl, by rw [hput]⟩
  rw [hput]
  constructor
  case split => exact h.split
  case bound =>
    simp only [buffered, List.length_append, List.length_singleton]
    omega
  case acked => exact h.acked
  case acked_le =>
    simp only [buffered, List.length_append, List.length_singleton]
    omega
  case forwarded =>
    intro _
    simp only [buffered, entries_append, h.forwarded hj, hseq]
  case queue =>
    intro _ _
    simp only [buffered, entries_append, h.queue hpos hj, hmod]
    rw [List.drop_append_of_le_length (by rw [length_entries]; exact hle), hseq]
  case headQueue => exact fun h0 => absurd h0 (by omega)
  case counter => exact fun h0 => absurd h0 (by omega)
  case lastPut =>
    intro _ _
    simp only [buffered, List.length_append, List.length_singleton, hmod]
    exact hseq
  case lastAck => exact h.lastAck
  case tail => exact fun h0 => absurd h0 (by omega)

/-- The head numbers a put with the number of puts it has applied. -/
theorem node_put_head (h : NodeOk n 0 r) (hn : 1 < n) (hhops : ¬m.hops - 1 = 0) (hseq : m.seq = 0)
    (hcounter : r.db.sequence ≠ 0) :
    ∃ db, r.db.putHelper m = (db, some (forward m (r.db.siltds.length + 1)), none) ∧
      NodeOk n 0 (r.put m) ∧ (r.put m).db.siltds = r.db.siltds ++ [m.op] ∧
      (r.put m).acked = r.acked ∧ r.db.siltds.length + 1 < 2 ^ 32 := by
  have hbound := h.bound
  have hseq' := h.counter rfl
  have hlt : r.db.siltds.length + 1 < 2 ^ 32 := by
    by_contra hge
    have : r.db.siltds.length + 1 = 2 ^ 32 := by omega
    rw [this] at hseq'
    exact hcounter hseq'
  rw [Nat.mod_eq_of_lt hlt] at hseq'
  have hhelper : r.db.putHelper m =
      ({ buffered r.db m with sequence := (r.db.siltds.length + 1 + 1) % 2 ^ 32 },
        some (forward m (r.db.siltds.length + 1)), none) := by
    rw [putHelper_forward h.split hhops, assignSequence, if_pos (by rw [hseq, Nat.zero_mod])]
    simp only [buffered, hseq']
  have hput : r.put m = { r with
      db := { buffered r.db m with sequence := (r.db.siltds.length + 1 + 1) % 2 ^ 32 }
      forwarded := r.forwarded ++ [(r.db.siltds.length + 1, m.op.key, m.op.value)] } := by
    rw [Replica.put, hhelper]
    rfl
  have hle := h.acked_le
  refine ⟨_, hhelper, ?_, by rw [hput]; rfl, by rw [hput], hlt⟩
  rw [hput]
  constructor
  case split => exact h.split
  case bound =>
    simp only [buffered, List.length_append, List.length_singleton]
    omega
  case acked => exact h.acked
  case acked_le =>
    simp only [buffered, List.length_append, List.length_singleton]
    omega
  case forwarded =>
    intro _
    simp only [buffered, entries_append, h.forwarded hn]
  case queue => exact fun h0 => absurd h0 (by omega)
  case headQueue =>
    intro _
    simp only [buffered, List.length_append, List.length_singleton]
    refine ⟨fun e he => ?_, fun heq => absurd heq (by omega)⟩
    rcases List.mem_append.mp he with hold | hnew
    · exact (h.headQueue rfl).1 e hold
    · rw [List.mem_singleton.mp hnew, hseq, Nat.zero_mod]
  case counter =>
    intro _
    simp only [buffered, List.length_append, List.length_singleton]
  case lastPut => exact fun h0 => absurd h0 (by omega)
  case lastAck => exact fun h0 => absurd h0 (by omega)
  case tail => exact fun h0 => absurd h0 (by omega)

/-- The tail acknowledges a put as soon as it has applied it. -/
theorem node_put_tail (h : NodeOk n j r) (hpos : 0 < j) (hj : j + 1 = n) (hhops : m.hops - 1 = 0)
    (hseq : m.seq = r.db.siltds.length + 1) (hlt : m.seq < 2 ^ 32) :
    ∃ db, r.db.putHelper m = (db, none, tailAck m) ∧ NodeOk n j (r.put m) ∧
      (r.put m).db.siltds = r.db.siltds ++ [m.op] ∧ (r.put m).acked = r.acked ++ [(m.seq : Int)] := by
  have hmod : m.seq % 2 ^ 32 = m.seq := Nat.mod_eq_of_lt hlt
  have hhelper := putHelper_tail r.db hhops
  have hput : r.put m = { r with
      db := { r.db with
        siltds := r.db.siltds ++ [m.op]
        lastPut := m.seq % 2 ^ 32
        lastAck := m.seq % 2 ^ 32 }
      acked := r.acked ++ [(m.seq : Int)] } := by
    rw [Replica.put, hhelper]
  have htail := h.tail hj
  refine ⟨_, hhelper, ?_, by rw [hput], by rw [hput]⟩
  rw [hput]
  constructor
  case split => exact h.split
  case bound =>
    simp only [List.length_append, List.length_singleton]
    omega
  case acked =>
    simp only [List.length_append, List.length_singleton, numbersTo_succ]
    rw [← h.acked, htail, hseq]
  case acked_le =>
    simp only [List.length_append, List.length_singleton]
    omega
  case forwarded => exact fun h0 => absurd h0 (by omega)
  case queue => exact fun _ h0 => absurd h0 (by omega)
  case headQueue => exact fun h0 => absurd h0 (by omega)
  case counter => exact fun h0 => absurd h0 (by omega)
  case lastPut =>
    intro _ _
    simp only [List.length_append, List.length_singleton]
    omega
  case lastAck =>
    intro _
    simp only [List.length_append, List.length_singleton]
    omega
  case tail =>
    intro _
    simp only [List.length_append, List.length_singleton]
    omega

theorem putAck_eq (hsplit : db.splitPoint = none) (seq : Int) :
    db.putAck seq = { db with
      lastAck := (lastPopped db.seqMsgQueue seq).getD (toUInt32 seq)
      seqMsgQueue := popAcked db.seqMsgQueue seq } := by
  have htemp : db.inTempQueue seq = false := by
    rw [inTempQueue, hsplit]
    rfl
  rw [IntervalDb.putAck, if_neg (by simp [htemp])]

/-- An acknowledgement takes the oldest put out of the queue. -/
theorem node_ack (h : NodeOk n j r) (hj : j + 1 < n) (hseq : seq = ((r.acked.length + 1 : Nat) : Int))
    (hle : r.acked.length + 1 ≤ r.db.siltds.length) : NodeOk n j (r.putAck seq) := by
  have hbound := h.bound
  have hack : r.putAck seq = { r with
      db := { r.db with
        lastAck := (lastPopped r.db.seqMsgQueue seq).getD (toUInt32 seq)
        seqMsgQueue := popAcked r.db.seqMsgQueue seq }
      acked := r.acked ++ [seq] } := by
    rw [Replica.putAck, putAck_eq h.split]
  have hacked : (r.acked ++ [seq]).length = r.acked.length + 1 := by simp
  rw [hack]
  constructor
  case split => exact h.split
  case bound => exact hbound
  case acked =>
    simp only [hacked, numbersTo_succ]
    rw [← h.acked, hseq]
  case acked_le =>
    simp only [hacked]
    exact hle
  case forwarded => exact h.forwarded
  case queue =>
    intro hpos _
    simp only [hacked, h.queue hpos hj]
    rw [popAcked_consecutive seq (drop_entries_fst _ _), List.drop_drop]
    congr 1
    omega
  case headQueue =>
    rintro rfl
    have hzero := (h.headQueue rfl).1
    have hempty : popAcked r.db.seqMsgQueue seq = [] := by
      rw [popAcked, List.dropWhile_eq_nil_iff]
      intro e he
      rw [hzero e he, decide_eq_true_eq]
      omega
    simp only [hempty]
    exact ⟨fun e he => absurd he List.not_mem_nil, fun _ => trivial⟩
  case counter => exact h.counter
  case lastPut => exact h.lastPut
  case lastAck =>
    intro hpos
    simp only [hacked, h.queue hpos hj]
    have huint : toUInt32 seq = r.acked.length + 1 := by
      rw [toUInt32, hseq]
      omega
    rw [huint, hseq]
    rcases lastPopped_consecutive (drop_entries_fst r.db.siltds r.acked.length) with hnone | hsome
    · rw [hnone]
      rfl
    · rw [hsome]
      rfl
  case tail => exact fun h0 => absurd h0 (by omega)

end Node

namespace SerialState

section Invariant

variable {n j k : Nat} {s t : SerialState K V} {m : PutMessage K V} {a : AckMessage K}

/-- Both ends of the link from node `j` to the next one are up. -/
def Live (s : SerialState K V) (j : Nat) : Prop := ∀ f, s.down = some f → j + 1 ≠ f ∧ j ≠ f

/-- What holds until the chain is repaired. Across a node that is down, the successor has applied a
beginning of what the predecessor has, and all the predecessor saw acknowledged. -/
structure Inv (n : Nat) (s : SerialState K V) : Prop where
  notRepaired : s.repaired = false
  interior : ∀ f, s.down = some f → 0 < f ∧ f + 1 < n
  nodes : ∀ j < n, NodeOk n j (s.replicas j)
  edges : ∀ j, j + 1 < n → s.Live j →
    SerialEdge n j (s.replicas j) (s.links (j + 1)) (s.acks j) (s.replicas (j + 1))
  dead : ∀ j, j + 1 < n → ¬s.Live j → s.links (j + 1) = [] ∧ s.acks j = []
  tailAcks : s.acks (n - 1) = []
  cross : ∀ f, s.down = some f → ∃ lost,
    (s.replicas (f - 1)).db.siltds = (s.replicas (f + 1)).db.siltds ++ lost ∧
    (s.replicas (f - 1)).acked.length ≤ (s.replicas (f + 1)).db.siltds.length

theorem succOf_live (hrep : s.repaired = false) :
    s.succOf j = if s.down = some (j + 1) then none else some (j + 1) := by
  unfold succOf
  cases hdown : s.down with
  | none => simp
  | some f =>
    by_cases hf : j + 1 = f
    · simp [hf, hrep]
    · simp [hf, Ne.symm hf]

theorem predOf_live (hrep : s.repaired = false) :
    s.predOf (j + 1) = if s.down = some j then none else some j := by
  unfold predOf
  cases hdown : s.down with
  | none => simp
  | some f =>
    by_cases hf : j = f
    · simp [hf, hrep]
    · simp [hf, Ne.symm hf]

theorem live_iff (hup : s.down ≠ some j) : s.Live j ↔ s.down ≠ some (j + 1) := by
  constructor
  · intro hlive hdown
    exact (hlive _ hdown).1 rfl
  · intro hne f hf
    constructor
    · rintro rfl
      exact hne hf
    · rintro rfl
      exact hup hf

theorem live_iff_succ (hup : s.down ≠ some (j + 1)) : s.Live j ↔ s.down ≠ some j := by
  constructor
  · intro hlive hdown
    exact (hlive _ hdown).2 rfl
  · intro hne f hf
    constructor
    · rintro rfl
      exact hup hf
    · rintro rfl
      exact hne hf

theorem sendPut_some (hrep : s.repaired = false) (hup : s.down ≠ some j) (m : PutMessage K V) :
    (s.Live j → s.sendPut j (some m) =
      Function.update s.links (j + 1) (s.links (j + 1) ++ [m])) ∧
    (¬s.Live j → s.sendPut j (some m) = s.links) := by
  rw [live_iff hup]
  unfold sendPut
  rw [succOf_live hrep]
  constructor
  · intro hne
    rw [if_neg hne]
  · intro hdown
    rw [if_pos (not_not.mp hdown)]

theorem sendAck_some (hrep : s.repaired = false) (hup : s.down ≠ some (j + 1)) (a : AckMessage K) :
    (s.Live j → s.sendAck (j + 1) (some a) = Function.update s.acks j (s.acks j ++ [a])) ∧
    (¬s.Live j → s.sendAck (j + 1) (some a) = s.acks) := by
  rw [live_iff_succ hup]
  unfold sendAck
  rw [predOf_live hrep]
  constructor
  · intro hne
    rw [if_neg hne]
  · intro hdown
    rw [if_pos (not_not.mp hdown)]

theorem sendPut_none (s : SerialState K V) (j : Nat) : s.sendPut j none = s.links := rfl

theorem sendAck_none (s : SerialState K V) (j : Nat) : s.sendAck j none = s.acks := rfl

/-- The invariant after a step at node `k`, from what it does there and on its two links. -/
theorem inv_update (h : Inv n s) {r : Replica K V} {links : Nat → List (PutMessage K V)}
    {acks : Nat → List (AckMessage K)} (hnode : k < n → NodeOk n k r)
    (hlinks : ∀ j, j ≠ k → j + 1 ≠ k → links (j + 1) = s.links (j + 1))
    (hacks : ∀ j, j ≠ k → j + 1 ≠ k → acks j = s.acks j)
    (hnext : k + 1 < n → s.Live k →
      SerialEdge n k r (links (k + 1)) (acks k) (s.replicas (k + 1)))
    (hprev : ∀ j, j + 1 = k → s.Live j → SerialEdge n j (s.replicas j) (links k) (acks j) r)
    (hdeadNext : k + 1 < n → ¬s.Live k → links (k + 1) = [] ∧ acks k = [])
    (hdeadPrev : ∀ j, j + 1 = k → ¬s.Live j → links k = [] ∧ acks j = [])
    (htail : acks (n - 1) = [])
    (hpred : s.down = some (k + 1) → (∃ ext, r.db.siltds = (s.replicas k).db.siltds ++ ext) ∧
      r.acked.length = (s.replicas k).acked.length)
    (hsucc : ∀ j, j + 1 = k → s.down = some j → r.db.siltds = (s.replicas k).db.siltds) :
    Inv n { s with replicas := Function.update s.replicas k r, links := links, acks := acks } := by
  constructor
  case notRepaired => exact h.notRepaired
  case interior => exact h.interior
  case nodes =>
    intro j hj
    by_cases hjk : j = k
    · subst hjk
      simp only [Function.update_self]
      exact hnode hj
    · simp only
      rw [Function.update_of_ne hjk]
      exact h.nodes j hj
  case edges =>
    intro j hj hlive
    by_cases hjk : j = k
    · subst hjk
      simp only [Function.update_self]
      rw [Function.update_of_ne (by omega)]
      exact hnext hj hlive
    · simp only
      rw [Function.update_of_ne hjk]
      by_cases hjk' : j + 1 = k
      · subst hjk'
        rw [Function.update_self]
        exact hprev j rfl hlive
      · rw [Function.update_of_ne hjk', hlinks j hjk hjk', hacks j hjk hjk']
        exact h.edges j hj hlive
  case dead =>
    intro j hj hdead
    by_cases hjk : j = k
    · subst hjk
      exact hdeadNext hj hdead
    · by_cases hjk' : j + 1 = k
      · subst hjk'
        exact hdeadPrev j rfl hdead
      · simp only
        rw [hlinks j hjk hjk', hacks j hjk hjk']
        exact h.dead j hj hdead
  case tailAcks => exact htail
  case cross =>
    intro f hf
    obtain ⟨hpos, hfn⟩ := h.interior f hf
    obtain ⟨lost, hlost, hle⟩ := h.cross f hf
    simp only
    by_cases hp : f - 1 = k
    · have hk : f = k + 1 := by omega
      subst hk
      obtain ⟨⟨ext, hext⟩, hacked⟩ := hpred hf
      rw [hp, Function.update_self, Function.update_of_ne (by omega)]
      rw [hp] at hlost hle
      refine ⟨lost ++ ext, ?_, by omega⟩
      rw [hext, hlost, List.append_assoc]
    · rw [Function.update_of_ne hp]
      by_cases hs : f + 1 = k
      · subst hs
        rw [Function.update_self, hsucc f rfl hf]
        exact ⟨lost, hlost, hle⟩
      · rw [Function.update_of_ne hs]
        exact ⟨lost, hlost, hle⟩

theorem sendPut_of_ne (hrep : s.repaired = false) (hup : s.down ≠ some j) (m : PutMessage K V) {i : Nat}
    (hi : i ≠ j + 1) : s.sendPut j (some m) i = s.links i := by
  by_cases hlive : s.Live j
  · rw [(sendPut_some hrep hup m).1 hlive, Function.update_of_ne hi]
  · rw [(sendPut_some hrep hup m).2 hlive]

theorem sendAck_of_ne (hrep : s.repaired = false) (hup : s.down ≠ some (j + 1)) (a : AckMessage K)
    {i : Nat} (hi : i ≠ j) : s.sendAck (j + 1) (some a) i = s.acks i := by
  by_cases hlive : s.Live j
  · rw [(sendAck_some hrep hup a).1 hlive, Function.update_of_ne hi]
  · rw [(sendAck_some hrep hup a).2 hlive]

theorem inv_request (h : Inv n s) (hn : 1 < n) (hcounter : (s.replicas 0).db.sequence ≠ 0)
    (hhops : m.hops = n) (hackhops : m.ackhops = n) (hseq : m.seq = 0) : Inv n (s.handlePut 0 m) := by
  have hrep := h.notRepaired
  have hup : s.down ≠ some 0 := fun hdown => absurd (h.interior 0 hdown).1 (by omega)
  obtain ⟨db, hhelper, hnode, hsiltds, hacked, hlt⟩ :=
    node_put_head (h.nodes 0 (by omega)) hn (by omega) hseq hcounter
  unfold handlePut
  rw [hhelper, sendAck_none]
  refine inv_update h (fun _ => hnode) ?_ (fun _ _ _ => rfl) ?_ (fun j hj => absurd hj (by omega)) ?_
    (fun j hj => absurd hj (by omega)) h.tailAcks (fun _ => ⟨⟨_, hsiltds⟩, by rw [hacked]⟩)
    (fun j hj => absurd hj (by omega))
  · intro j hj _
    exact sendPut_of_ne hrep hup _ (by omega)
  · intro _ hlive
    rw [(sendPut_some hrep hup _).1 hlive, Function.update_self]
    refine (h.edges 0 (by omega) hlive).forward hsiltds hacked rfl hlt ?_ hackhops
    simp only [forward]
    omega
  · intro _ hdead
    rw [(sendPut_some hrep hup _).2 hdead]
    exact h.dead 0 (by omega) hdead

theorem Inv.live_of_link (h : Inv n s) (hj : j + 1 < n) {rest : List (PutMessage K V)}
    (hlink : s.links (j + 1) = m :: rest) : s.Live j := by
  by_contra hdead
  have := (h.dead j hj hdead).1
  rw [hlink] at this
  cases this

theorem Inv.live_of_ack (h : Inv n s) (hj : j + 1 < n) {rest : List (AckMessage K)}
    (hacks : s.acks j = a :: rest) : s.Live j := by
  by_contra hdead
  have := (h.dead j hj hdead).2
  rw [hacks] at this
  cases this

theorem tailAck_of_hops (h : m.ackhops = ((j + 2 : Nat) : Int)) :
    tailAck m = some { key := m.op.key, seq := m.seq, hops := j } := by
  unfold tailAck
  rw [h, if_pos (by push_cast; omega)]
  congr 2
  push_cast
  omega

theorem forwardAck_of_hops (h : a.hops = ((j + 1 : Nat) : Int)) : forwardAck a = some { a with hops := j } := by
  unfold forwardAck
  rw [h, if_pos (by push_cast; omega)]
  congr 2
  push_cast
  omega

/-- A node between the head and the tail applies a put and sends it on. -/
theorem inv_receive_interior (h : Inv n s) (hj : j + 1 + 1 < n) (hup : s.down ≠ some (j + 1))
    {rest : List (PutMessage K V)} (hlink : s.links (j + 1) = m :: rest) :
    Inv n ({ s with links := Function.update s.links (j + 1) rest }.handlePut (j + 1) m) := by
  have hlive := h.live_of_link (by omega) hlink
  have hedge := h.edges j (by omega) hlive
  rw [hlink] at hedge
  obtain ⟨hhops, hackhops, hlt⟩ := hedge.inLink m List.mem_cons_self
  have hseq := hedge.seq_eq
  -- the state after the message is taken from the link
  have hrep₁ : ({ s with links := Function.update s.links (j + 1) rest } : SerialState K V).repaired =
    false := h.notRepaired
  have hup₁ : ({ s with links := Function.update s.links (j + 1) rest } : SerialState K V).down ≠
    some (j + 1) := hup
  obtain ⟨hhelper, hnode, hsiltds, hacked⟩ :=
    node_put_interior (h.nodes (j + 1) (by omega)) (by omega) hj (by omega) hseq hlt
  unfold handlePut
  simp only
  rw [hhelper, sendAck_none]
  refine inv_update h (fun _ => hnode) ?_ (fun _ _ _ => rfl) ?_ ?_ ?_ ?_ h.tailAcks
    (fun _ => ⟨⟨_, hsiltds⟩, by rw [hacked]⟩) ?_
  · intro i hi hi'
    rw [sendPut_of_ne hrep₁ hup₁ _ (by omega)]
    exact Function.update_of_ne hi' _ _
  · intro _ hlive'
    rw [(sendPut_some hrep₁ hup₁ _).1 hlive', Function.update_self]
    simp only
    rw [Function.update_of_ne (by omega)]
    refine (h.edges (j + 1) hj hlive').forward hsiltds hacked hseq hlt ?_ hackhops
    simp only [forward]
    push_cast
    omega
  · intro i hi _
    obtain rfl : i = j := by omega
    rw [sendPut_of_ne hrep₁ hup₁ _ (by omega)]
    simp only [Function.update_self]
    have := hedge.receive [] hsiltds (by simpa using hacked) (by simp)
    simpa using this
  · intro _ hdead
    rw [(sendPut_some hrep₁ hup₁ _).2 hdead]
    simp only
    rw [Function.update_of_ne (by omega)]
    exact h.dead (j + 1) hj hdead
  · intro i hi hdead
    obtain rfl : i = j := by omega
    exact absurd hlive hdead
  · intro i hi hdown
    obtain rfl : i = j := by omega
    exact absurd rfl (hlive _ hdown).2

/-- The tail applies a put and acknowledges it. -/
theorem inv_receive_tail (h : Inv (j + 2) s) (hup : s.down ≠ some (j + 1)) {rest : List (PutMessage K V)}
    (hlink : s.links (j + 1) = m :: rest) :
    Inv (j + 2) ({ s with links := Function.update s.links (j + 1) rest }.handlePut (j + 1) m) := by
  have hj : j + 1 < j + 2 := Nat.lt_succ_self _
  have hlive := h.live_of_link hj hlink
  have hedge := h.edges j hj hlive
  rw [hlink] at hedge
  obtain ⟨hhops, hackhops, hlt⟩ := hedge.inLink m List.mem_cons_self
  have hrep₁ : ({ s with links := Function.update s.links (j + 1) rest } : SerialState K V).repaired =
    false := h.notRepaired
  have hup₁ : ({ s with links := Function.update s.links (j + 1) rest } : SerialState K V).down ≠
    some (j + 1) := hup
  obtain ⟨db, hhelper, hnode, hsiltds, hacked⟩ :=
    node_put_tail (h.nodes (j + 1) hj) (by omega) rfl (by push_cast at hhops; omega) hedge.seq_eq hlt
  unfold handlePut
  simp only
  rw [hhelper, tailAck_of_hops hackhops, sendPut_none]
  simp only
  refine inv_update h (fun _ => hnode) (fun i hi hi' => Function.update_of_ne hi' _ _) ?_
    (fun h0 => absurd h0 (by omega)) ?_ (fun h0 => absurd h0 (by omega)) ?_ ?_ ?_ ?_
  · intro i hi hi'
    exact sendAck_of_ne hrep₁ hup₁ _ (by omega)
  · intro i hi _
    obtain rfl : i = j := by omega
    rw [(sendAck_some hrep₁ hup₁ _).1 hlive, Function.update_self, Function.update_self]
    exact hedge.receive [{ key := m.op.key, seq := m.seq, hops := i }] hsiltds hacked
      (by simp)
  · intro i hi hdead
    obtain rfl : i = j := by omega
    exact absurd hlive hdead
  · rw [sendAck_of_ne hrep₁ hup₁ _ (by omega)]
    exact h.tailAcks
  · intro hdown
    have := h.interior _ hdown
    omega
  · intro i hi hdown
    obtain rfl : i = j := by omega
    exact absurd rfl (hlive _ hdown).2

theorem inv_receive (h : Inv n s) (hj : j + 1 < n) (hup : s.down ≠ some (j + 1))
    {rest : List (PutMessage K V)} (hlink : s.links (j + 1) = m :: rest) :
    Inv n ({ s with links := Function.update s.links (j + 1) rest }.handlePut (j + 1) m) := by
  by_cases hlast : j + 1 + 1 < n
  · exact inv_receive_interior h hlast hup hlink
  · obtain rfl : n = j + 2 := by omega
    exact inv_receive_tail h hup hlink

theorem inv_receiveAck (h : Inv n s) (hj : j < n) (hup : s.down ≠ some j)
    {rest : List (AckMessage K)} (hacks : s.acks j = a :: rest) :
    Inv n ({ s with acks := Function.update s.acks j rest }.handleAck j a) := by
  have hlast : j + 1 < n := by
    by_contra hge
    have htail := h.tailAcks
    rw [show n - 1 = j by omega, hacks] at htail
    cases htail
  have hlive := h.live_of_ack hlast hacks
  have hedge := h.edges j hlast hlive
  rw [hacks] at hedge
  have hnext := h.nodes (j + 1) hlast
  obtain ⟨hseq, hlen⟩ := hedge.ack_seq_eq hnext.acked
  have hhops := hedge.inAcks a List.mem_cons_self
  have hle : (s.replicas j).acked.length + 1 ≤ (s.replicas j).db.siltds.length := by
    have hops := congrArg List.length hedge.ops
    have := hnext.acked_le
    rw [List.length_append] at hops
    omega
  have hnode := node_ack (h.nodes j hj) hlast hseq hle
  have hsiltds : ((s.replicas j).putAck a.seq).db.siltds = (s.replicas j).db.siltds := by
    simp only [Replica.putAck, IntervalDb.putAck]
    split <;> rfl
  have hpred : ∀ P : Prop, s.down = some (j + 1) → P := fun P hdown =>
    absurd rfl (hlive _ hdown).1
  unfold handleAck
  simp only
  cases j with
  | zero =>
    have hforward : forwardAck a = none := by
      unfold forwardAck
      rw [if_neg (by omega)]
    rw [hforward, sendAck_none]
    simp only
    refine inv_update h (fun _ => hnode) (fun _ _ _ => rfl) (fun i hi _ => Function.update_of_ne hi _ _)
      ?_ (fun i hi => absurd hi (by omega)) (fun _ hdead => absurd hlive hdead)
      (fun i hi => absurd hi (by omega)) ?_ (hpred _) (fun i hi => absurd hi (by omega))
    · intro _ _
      rw [Function.update_self]
      exact hedge.receiveAck hsiltds rfl
    · rw [Function.update_of_ne (by omega)]
      exact h.tailAcks
  | succ i =>
    have hrep₁ : ({ s with acks := Function.update s.acks (i + 1) rest } : SerialState K V).repaired =
      false := h.notRepaired
    have hup₁ : ({ s with acks := Function.update s.acks (i + 1) rest } : SerialState K V).down ≠
      some (i + 1) := hup
    rw [forwardAck_of_hops hhops]
    refine inv_update h (fun _ => hnode) (fun _ _ _ => rfl) ?_ ?_ ?_ (fun _ hdead => absurd hlive hdead)
      ?_ ?_ (hpred _) (fun _ _ _ => hsiltds)
    · intro k hk hk'
      rw [sendAck_of_ne hrep₁ hup₁ _ (by omega)]
      exact Function.update_of_ne hk _ _
    · intro _ _
      rw [sendAck_of_ne hrep₁ hup₁ _ (by omega)]
      simp only [Function.update_self]
      exact hedge.receiveAck hsiltds rfl
    · intro k hk hlive'
      obtain rfl : k = i := by omega
      rw [(sendAck_some hrep₁ hup₁ _).1 hlive', Function.update_self]
      simp only
      rw [Function.update_of_ne (by omega)]
      exact (h.edges k hj hlive').forwardAck hsiltds rfl rfl
    · intro k hk hdead
      obtain rfl : k = i := by omega
      rw [(sendAck_some hrep₁ hup₁ _).2 hdead]
      simp only
      rw [Function.update_of_ne (by omega)]
      exact h.dead k hj hdead
    · rw [sendAck_of_ne hrep₁ hup₁ _ (by omega)]
      simp only
      rw [Function.update_of_ne (by omega)]
      exact h.tailAcks

/-- A node stops, and with it what was on its way to it and from it. -/
theorem inv_fail (h : Inv n s) (hdown : s.down = none) {f : Nat} (hpos : 0 < f) (hf : f + 1 < n) :
    Inv n { s with
      links := Function.update (Function.update s.links f []) (f + 1) []
      acks := Function.update (Function.update s.acks f []) (f - 1) []
      down := some f } := by
  have hall : ∀ j, s.Live j := by
    intro j f' hf'
    rw [hdown] at hf'
    cases hf'
  constructor
  case notRepaired => exact h.notRepaired
  case interior =>
    intro f' hf'
    cases hf'
    exact ⟨hpos, hf⟩
  case nodes => exact h.nodes
  case edges =>
    intro j hj hlive
    obtain ⟨h1, h2⟩ := hlive f rfl
    simp only
    rw [Function.update_of_ne (by omega), Function.update_of_ne h1, Function.update_of_ne (by omega),
      Function.update_of_ne h2]
    exact h.edges j hj (hall j)
  case dead =>
    intro j hj hdead
    have hcases : j + 1 = f ∨ j = f := by
      by_contra hno
      refine hdead fun f' hf' => ?_
      cases hf'
      exact ⟨fun h1 => hno (.inl h1), fun h2 => hno (.inr h2)⟩
    rcases hcases with rfl | rfl
    · simp only
      rw [Function.update_of_ne (by omega), Function.update_self, Nat.add_sub_cancel, Function.update_self]
      exact ⟨rfl, rfl⟩
    · simp only
      rw [Function.update_self, Function.update_of_ne (by omega), Function.update_self]
      exact ⟨rfl, rfl⟩
  case tailAcks =>
    simp only
    rw [Function.update_of_ne (by omega), Function.update_of_ne (by omega)]
    exact h.tailAcks
  case cross =>
    intro f' hf'
    cases hf'
    obtain ⟨p, rfl⟩ : ∃ p, f = p + 1 := ⟨f - 1, by omega⟩
    have hbefore := h.edges p (by omega) (hall p)
    have hafter := h.edges (p + 1) hf (hall (p + 1))
    rw [Nat.add_sub_cancel]
    refine ⟨(s.links (p + 1 + 1)).map PutMessage.op ++ (s.links (p + 1)).map PutMessage.op, ?_, ?_⟩
    · simp only
      rw [hbefore.ops, hafter.ops, List.append_assoc]
    · have h1 := congrArg List.length hbefore.acked
      have h2 := congrArg List.length hafter.acked
      have h3 := (h.nodes (p + 1 + 1) hf).acked_le
      rw [List.length_append] at h1 h2
      simp only
      omega

end Invariant

end SerialState

end FawnKV.Chain
