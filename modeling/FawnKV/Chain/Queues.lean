import FawnKV.Lib.Transition
import FawnKV.Chain.Node

/-! The queues of messages and of continuations of the intervals a node serves. -/
namespace FawnKV.Chain

open IntervalDb

variable {K V : Type}

/-- What happens to the intervals of a node. A split begins when `flush_split` sets the split point
of an interval and ends with `handle_split`, which adds the new interval; the store may fail to
split. -/
inductive QueueStep (K V : Type) where
  | put (i : Nat) (m : PutMessage K V)
  | putAck (i : Nat) (seq : Int)
  | splitStart (i : Nat) (key : K)
  | handleSplit (i lastPut : Nat) (success : Bool)

namespace QueueStep

def step (dbs : List (IntervalDb K V)) : QueueStep K V → Option (List (IntervalDb K V))
  | .put i m => dbs[i]?.map fun db => dbs.set i (db.putHelper m).1
  | .putAck i seq => dbs[i]?.map fun db => dbs.set i (db.putAck seq)
  | .splitStart i key => dbs[i]?.map fun db => dbs.set i { db with splitPoint := some key }
  | .handleSplit i lastPut success => dbs[i]?.map fun db =>
    if success then
      dbs.set i (db.handleSplit (init lastPut)).1 ++ [(db.handleSplit (init lastPut)).2]
    else dbs ++ [init lastPut]

end QueueStep

/-- Two queues have the same numbers in the same places. -/
def SameSeqs {α β : Type} (msgs : List (Nat × α)) (conts : List (Nat × β)) : Prop :=
  msgs.map Prod.fst = conts.map Prod.fst

structure Aligned (db : IntervalDb K V) : Prop where
  queue : SameSeqs db.seqMsgQueue db.seqContQueue
  tmp : SameSeqs db.seqMsgQueueTmp db.seqContQueueTmp

/-- The first entry of the queue, if there is one, is not acknowledged. -/
def FrontPending {α : Type} (queue : List (Nat × α)) (seq : Int) : Prop :=
  ∀ e ∈ queue.head?, seq < (e.1 : Int)

/-- The steps that take nothing out of a message queue. -/
def QueueStep.Keeps (dbs : List (IntervalDb K V)) : QueueStep K V → Prop
  | .putAck i seq => ∀ db ∈ dbs[i]?, FrontPending db.seqMsgQueue seq ∧
      (db.splitPoint.isSome → FrontPending db.seqMsgQueueTmp seq)
  | .handleSplit i _ success => ∀ db ∈ dbs[i]?, success → db.seqMsgQueueTmp = []
  | _ => True

section Alignment

variable {db new : IntervalDb K V} {m : PutMessage K V} {seq : Int} {dbs dbs' : List (IntervalDb K V)}
  {i : Nat} {α β : Type} {msgs : List (Nat × α)} {conts : List (Nat × β)}

theorem popAcked_sameSeqs (h : SameSeqs msgs conts) (seq : Int) :
    SameSeqs (popAcked msgs seq) conts ↔ FrontPending msgs seq := by
  rw [SameSeqs, ← show msgs.map Prod.fst = conts.map Prod.fst from h]
  cases msgs with
  | nil => simp [popAcked, FrontPending]
  | cons e msgs =>
    by_cases hle : (e.1 : Int) ≤ seq
    · constructor
      · intro hsame
        have hlen := congrArg List.length hsame
        rw [popAcked, List.dropWhile_cons_of_pos (by simpa using hle), List.length_map, List.length_map,
          List.length_cons] at hlen
        have hle' : (msgs.dropWhile fun e => decide ((e.1 : Int) ≤ seq)).length ≤ msgs.length :=
          (List.dropWhile_sublist _).length_le
        omega
      · intro hfront
        have := hfront e rfl
        omega
    · constructor
      · intro _ e' he'
        cases he'
        omega
      · intro _
        rw [popAcked, List.dropWhile_cons_of_neg (by simpa using hle)]

theorem lastPopped_eq_none : lastPopped msgs seq = none ↔ FrontPending msgs seq := by
  cases msgs with
  | nil => simp [lastPopped, FrontPending]
  | cons e msgs =>
    by_cases hle : (e.1 : Int) ≤ seq
    · rw [lastPopped, List.takeWhile_cons_of_pos (by simpa using hle)]
      simp only [Option.map_eq_none_iff, List.getLast?_eq_none_iff, reduceCtorEq, false_iff]
      intro hfront
      have := hfront e rfl
      omega
    · rw [lastPopped, List.takeWhile_cons_of_neg (by simpa using hle)]
      refine ⟨fun _ e' he' => ?_, fun _ => rfl⟩
      cases he'
      omega

theorem buffer_aligned (h : Aligned db) : Aligned (db.buffer m) := by
  unfold buffer
  split
  · refine ⟨?_, h.tmp⟩
    have := h.queue
    simp_all [SameSeqs]
  · refine ⟨h.queue, ?_⟩
    have := h.tmp
    simp_all [SameSeqs]

theorem putHelper_aligned (h : Aligned db) : Aligned (db.putHelper m).1 := by
  have happly : Aligned (db.applyPut m) := by
    unfold applyPut
    simp only
    split
    · exact ⟨h.queue, h.tmp⟩
    · exact buffer_aligned ⟨h.queue, h.tmp⟩
  unfold putHelper assignSequence
  simp only
  split
  · exact happly
  · split
    · exact ⟨happly.queue, happly.tmp⟩
    · exact happly

theorem putAck_aligned_iff (h : Aligned db) : Aligned (db.putAck seq) ↔
    FrontPending db.seqMsgQueue seq ∧ (db.splitPoint.isSome → FrontPending db.seqMsgQueueTmp seq) := by
  by_cases htemp : db.inTempQueue seq = true
  · -- the temporary queue loses entries
    obtain ⟨hsplit, hpopped⟩ := Bool.and_eq_true_iff.mp htemp
    have hnot : ¬FrontPending db.seqMsgQueueTmp seq := by
      rw [← lastPopped_eq_none]
      exact Option.isSome_iff_ne_none.mp hpopped
    rw [putAck, if_pos htemp]
    constructor
    · intro ha
      exact absurd ((popAcked_sameSeqs h.tmp seq).mp ha.tmp) hnot
    · rintro ⟨-, hfront⟩
      exact absurd (hfront hsplit) hnot
  · have hfront : db.splitPoint.isSome → FrontPending db.seqMsgQueueTmp seq := by
      intro hsplit
      rw [← lastPopped_eq_none]
      cases hlast : lastPopped db.seqMsgQueueTmp seq with
      | none => rfl
      | some x => exact absurd (by rw [inTempQueue, hsplit, hlast]; rfl) htemp
    rw [putAck, if_neg htemp]
    constructor
    · intro ha
      exact ⟨(popAcked_sameSeqs h.queue seq).mp ha.queue, hfront⟩
    · rintro ⟨hqueue, -⟩
      exact ⟨(popAcked_sameSeqs h.queue seq).mpr hqueue, h.tmp⟩

theorem aligned_init (lastPut : Nat) : Aligned (init lastPut : IntervalDb K V) := ⟨rfl, rfl⟩

theorem handleSplit_aligned_iff (h : Aligned db) (lastPut : Nat) :
    (Aligned (db.handleSplit (init lastPut)).1 ∧ Aligned (db.handleSplit (init lastPut)).2) ↔
      db.seqMsgQueueTmp = [] := by
  constructor
  · rintro ⟨-, hnew⟩
    have hqueue := hnew.queue
    exact List.map_eq_nil_iff.mp hqueue
  · intro hnil
    have htmp : ([] : List Nat) = db.seqContQueueTmp.map Prod.fst := by
      have := h.tmp
      rwa [SameSeqs, hnil] at this
    refine ⟨⟨h.queue, htmp⟩, ⟨?_, rfl⟩⟩
    rw [handleSplit, hnil]
    rfl

theorem forall_mem_set {P : IntervalDb K V → Prop} (h : ∀ db ∈ dbs, P db) (hi : dbs[i]? = some db) :
    (∀ db' ∈ dbs.set i new, P db') ↔ P new := by
  obtain ⟨hlt, -⟩ := List.getElem?_eq_some_iff.mp hi
  constructor
  · intro hall
    exact hall new (List.mem_set hlt new)
  · intro hnew db' hmem
    rcases List.mem_or_eq_of_mem_set hmem with hold | rfl
    · exact h db' hold
    · exact hnew

/-- A step keeps the queues of every interval aligned exactly when it takes nothing out of one. -/
theorem step_aligned_iff {l : QueueStep K V} (h : ∀ db ∈ dbs, Aligned db)
    (hstep : QueueStep.step dbs l = some dbs') :
    (∀ db ∈ dbs', Aligned db) ↔ QueueStep.Keeps dbs l := by
  cases l with
  | put i m =>
    obtain ⟨db, hdb, rfl⟩ := Option.map_eq_some_iff.mp hstep
    have hal := h db (List.mem_of_getElem? hdb)
    exact ⟨fun _ => trivial, fun _ => (forall_mem_set h hdb).mpr (putHelper_aligned hal)⟩
  | putAck i seq =>
    obtain ⟨db, hdb, rfl⟩ := Option.map_eq_some_iff.mp hstep
    rw [forall_mem_set h hdb, putAck_aligned_iff (h db (List.mem_of_getElem? hdb))]
    simp only [QueueStep.Keeps, hdb, Option.mem_some_iff, forall_eq']
  | splitStart i key =>
    obtain ⟨db, hdb, rfl⟩ := Option.map_eq_some_iff.mp hstep
    have hal := h db (List.mem_of_getElem? hdb)
    exact ⟨fun _ => trivial, fun _ => (forall_mem_set h hdb).mpr ⟨hal.queue, hal.tmp⟩⟩
  | handleSplit i lastPut success =>
    obtain ⟨db, hdb, rfl⟩ := Option.map_eq_some_iff.mp hstep
    have hal := h db (List.mem_of_getElem? hdb)
    simp only [QueueStep.Keeps, hdb, Option.mem_some_iff, forall_eq']
    cases success with
    | false =>
      refine ⟨fun _ hno => absurd hno Bool.false_ne_true, fun _ db' hmem => ?_⟩
      rcases List.mem_append.mp hmem with hold | hnew
      · exact h db' hold
      · rw [List.mem_singleton.mp hnew]
        exact aligned_init lastPut
    | true =>
      simp only [if_true, forall_const]
      rw [← handleSplit_aligned_iff hal lastPut, ← forall_mem_set (i := i) h hdb]
      simp only [List.mem_append, List.mem_singleton, or_imp, forall_and, forall_eq]

/-- The queues stay aligned in a run exactly as long as no entry is acknowledged or moved. -/
theorem queues_aligned_iff (memory : List Nat) (ls : List (QueueStep K V))
    {dbs : List (IntervalDb K V)} (h : Transition.run QueueStep.step (memory.map init) ls = some dbs) :
    Transition.Always QueueStep.step (fun dbs => ∀ db ∈ dbs, Aligned db) (memory.map init) ls ↔
      Transition.Meets QueueStep.step QueueStep.Keeps (memory.map init) ls := by
  refine Transition.always_iff_meets (fun s l t hstep hs => step_aligned_iff hs hstep) h ?_
  intro db hdb
  obtain ⟨lastPut, -, rfl⟩ := List.mem_map.mp hdb
  exact aligned_init lastPut

instance (dbs : List (IntervalDb K V)) : (q : QueueStep K V) → Decidable (QueueStep.Keeps dbs q)
  | .putAck i seq => inferInstanceAs (Decidable (∀ db ∈ dbs[i]?,
      (∀ e ∈ db.seqMsgQueue.head?, seq < (e.1 : Int)) ∧
        (db.splitPoint.isSome → ∀ e ∈ db.seqMsgQueueTmp.head?, seq < (e.1 : Int))))
  | .handleSplit i _ success => decidable_of_iff (∀ db ∈ dbs[i]?, success → db.seqMsgQueueTmp.isEmpty)
      (by simp only [QueueStep.Keeps, List.isEmpty_iff])
  | .put _ _ => inferInstanceAs (Decidable True)
  | .splitStart _ _ => inferInstanceAs (Decidable True)

/-- A put waits for its acknowledgement, while those of earlier ones come and the interval is split. -/
def putAndSplit : List (QueueStep Nat Nat) :=
  [.put 0 ⟨⟨7, 70, false⟩, 2, 3, 5, 2⟩, .putAck 0 1, .splitStart 0 50, .putAck 0 1, .handleSplit 0 0 true,
    .put 1 ⟨⟨60, 80, false⟩, 2, 3, 6, 3⟩, .putAck 1 2]

theorem queues_aligned_put_split : Transition.Always QueueStep.step
    (fun dbs : List (IntervalDb Nat Nat) => ∀ db ∈ dbs, Aligned db) ([0].map init) putAndSplit :=
  (queues_aligned_iff [0] putAndSplit rfl).mpr (by decide)

/-- The acknowledgement of a put leaves its continuation behind. -/
theorem queues_misaligned_after_ack : ∃ dbs : List (IntervalDb Nat Nat),
    Transition.run QueueStep.step ([0].map init)
      [.put 0 ⟨⟨7, 70, false⟩, 2, 3, 5, 1⟩, .putAck 0 1] = some dbs ∧ ¬∀ db ∈ dbs, Aligned db := by
  refine ⟨_, rfl, fun hall => ?_⟩
  have hqueue := (hall _ List.mem_cons_self).queue
  cases hqueue

/-- While the queues are aligned, a put is resent with its own continuation. -/
theorem continuation_of_resend (lastPut : Nat) (hops ackHops : Int) {pending : List (Nat × K × V)}
    {conts : List (Nat × Nat)} (h : SameSeqs pending conts) :
    ∀ m ∈ resend lastPut hops ackHops pending conts, (m.seq, m.continuation) ∈ conts := by
  induction pending generalizing conts with
  | nil =>
    intro m hm
    cases hm
  | cons e pending ih =>
    cases conts with
    | nil => cases h
    | cons c conts =>
      obtain ⟨hseq, hrest⟩ := List.cons.inj h
      intro m hm
      unfold resend at hm
      simp only [List.tail_cons, List.headD_cons] at hm
      split at hm
      · rcases List.mem_cons.mp hm with rfl | hm
        · rw [show e.1 = c.1 from hseq]
          exact List.mem_cons_self
        · exact List.mem_cons_of_mem c (ih hrest m hm)
      · exact List.mem_cons_of_mem c (ih hrest m hm)

end Alignment

end FawnKV.Chain
