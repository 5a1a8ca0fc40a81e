import Mathlib.Data.List.Forall2
import FawnKV.Lib.Transition
import FawnKV.Fawn.Dbid
import FawnKV.Fawn.Log

/-! Streaming a range of a store to another node: `split_init`, `split_next` and the loop around it. -/
namespace FawnKV.Fawn

open ByteFile Transition FawnDS

/-- What a call of `split_next` that returns true leaves in its output arguments. -/
structure Delivery where
  valid : Bool
  remove : Bool
  key : Bytes
  data : Bytes
  deriving DecidableEq, Repr

/-- `split_next` at `currSplit` with the caller's string `data`: the delivery and the next
`currSplit`, or `none` when it returns false. The caller's key buffer is written for keys in range only. -/
def FawnDS.splitNext (ds : FawnDS) (startKey endKey : Dbid) (currSplit : Nat) (data : Bytes) :
    Option (Delivery × Nat) :=
  if ds.header.dataInsertionPoint ≤ currSplit then none
  else
    match FawnDSFlash.readIntoHeader ds.datastore currSplit with
    | none => none
    | some (dataHeader, key) =>
      let remove := dataHeader.deleteLog
      let r := if dataHeader.deleteLog then (true, data)
        else FawnDSFlash.read ds.datastore key currSplit data
      if !r.1 then none
      else
        let next := currSplit + dataHeaderSize + dataHeader.keyLength + dataHeader.dataLength
        if inRange startKey endKey key then some (⟨true, remove, key, r.2⟩, next)
        else some (⟨false, remove, [], r.2⟩, next)

/-- A transfer: the source with the records of its log, the position of the next record, the string
of the loop, and what `split_next` has delivered. -/
structure Transfer where
  source : FawnDS
  log : List LogRecord
  currSplit : Nat
  data : Bytes
  delivered : List Delivery

/-- Updates of the source and rounds of the loop in `precopy` and `flush_split`. -/
inductive TransferStep where
  | update (op : Op)
  | splitNext

namespace Transfer

/-- `split_init` on a store whose log begins at `start`. -/
def init (start : Nat) (source : FawnDS) (log : List LogRecord) : Transfer :=
  { source, log, currSplit := start, data := [], delivered := [] }

def step (hashes : Hashes) (startKey endKey : Dbid) (s : Transfer) : TransferStep → Option Transfer
  | .update op =>
    let r := s.source.step hashes op
    some { s with source := r.2, log := s.log ++ (recordOf (op, r.1)).toList }
  | .splitNext =>
    (s.source.splitNext startKey endKey s.currSplit s.data).map fun r =>
      { s with
        currSplit := r.2
        -- `data_returned.clear()` stands behind `if (!valid) continue;`
        data := if r.1.valid then [] else r.1.data
        delivered := s.delivered ++ [r.1] }

end Transfer

/-- The delivery says what the record says. -/
def Delivery.Faithful (startKey endKey : Dbid) (d : Delivery) (r : LogRecord) : Prop :=
  d.valid = inRange startKey endKey r.key ∧ d.remove = r.deleteLog ∧
    (d.valid = true → d.key = r.key ∧ d.data = r.value)

/-- What the receiver makes of the valid deliveries. -/
def receive (m : Bytes → Option Bytes) (d : Delivery) : Bytes → Option Bytes :=
  if d.valid then Function.update m d.key (if d.remove then none else some d.data) else m

namespace Transfer

variable (hashes : Hashes) (startKey endKey : Dbid)

/-- The records are delivered one by one in the order of the log, each as it is; and when there are
no more, the receiver has the source's keys of the range. -/
structure FaithfulTransfer (s : Transfer) : Prop where
  inOrder : List.Forall₂ (Delivery.Faithful startKey endKey) s.delivered
    (s.log.take s.delivered.length)
  complete : s.source.splitNext startKey endKey s.currSplit s.data = none →
    s.delivered.length = s.log.length ∧
      ∀ key, s.delivered.foldl receive (fun _ => none) key =
        if inRange startKey endKey key then s.source.contents hashes key else none

/-- No record that was skipped since the last one in range has a value. -/
def NothingLeft (scanned : List LogRecord) : Prop :=
  ∀ r ∈ scanned.reverse.takeWhile (fun r => !inRange startKey endKey r.key), r.value = []

/-- The condition: a record in range without a value is read only when nothing is left in the
string. -/
def NoLeak (s : Transfer) : TransferStep → Prop
  | .splitNext => ∀ r, s.log[s.delivered.length]? = some r → inRange startKey endKey r.key = true →
      r.value = [] → NothingLeft startKey endKey (s.log.take s.delivered.length)
  | .update _ => True

/-- What every state of a transfer keeps. -/
structure Inv (start : Nat) (s : Transfer) : Prop where
  logged : Logged hashes start s.source s.log
  bound : s.source.header.dataInsertionPoint < 2 ^ 32
  behind : s.delivered.length ≤ s.log.length
  position : s.currSplit = logEnd start (s.log.take s.delivered.length)
  left : s.data = [] ↔ NothingLeft startKey endKey (s.log.take s.delivered.length)

section Proofs

variable {hashes : Hashes} {startKey endKey : Dbid} {start : Nat} {s t : Transfer} {l : TransferStep}
  {ls : List TransferStep} {r : LogRecord} {d : Delivery} {scanned log : List LogRecord}
  {delivered : List Delivery}

theorem nothingLeft_concat : NothingLeft startKey endKey (scanned ++ [r]) ↔
    inRange startKey endKey r.key = true ∨ r.value = [] ∧ NothingLeft startKey endKey scanned := by
  unfold NothingLeft
  rw [List.reverse_append, List.reverse_singleton, List.singleton_append, List.takeWhile_cons]
  cases hr : inRange startKey endKey r.key with
  | true => simp
  | false => simp

/-- What `split_next` delivers for the next record of the log. -/
theorem splitNext_eq_some (h : Inv hashes startKey endKey start s)
    (hr : s.log[s.delivered.length]? = some r) :
    s.source.splitNext startKey endKey s.currSplit s.data =
      some (⟨inRange startKey endKey r.key, r.deleteLog,
          if inRange startKey endKey r.key then r.key else [],
          if r.value = [] then s.data else r.value⟩,
        logEnd start (s.log.take (s.delivered.length + 1))) := by
  obtain ⟨hlt, hget⟩ := List.getElem?_eq_some_iff.mp hr
  have hsplit : s.log = s.log.take s.delivered.length ++ r :: s.log.drop (s.delivered.length + 1) := by
    rw [← hget]
    simp
  have himage := h.logged.image
  rw [hsplit] at himage
  have hlen : s.source.datastore.length < 2 ^ 32 := by
    rw [h.logged.maps.logEnd]
    exact h.bound
  have hrecord := himage.hasRecord hlen
  rw [← h.position] at hrecord
  have hbefore : ¬s.source.header.dataInsertionPoint ≤ s.currSplit := by
    rw [h.logged.logEnd, h.position, hsplit, logEnd_append, not_le]
    simp only [← hsplit]
    exact logEnd_lt_cons
  have hnext : s.currSplit + dataHeaderSize + r.header.keyLength + r.header.dataLength =
      logEnd start (s.log.take (s.delivered.length + 1)) := by
    rw [List.take_add_one, hr, logEnd_append, ← h.position, Option.toList_some, logEnd_cons, logEnd_nil]
    simp only [LogRecord.header, LogRecord.size]
    omega
  have hread : (if r.header.deleteLog = true then (true, s.data)
      else FawnDSFlash.read s.source.datastore r.key s.currSplit s.data) =
        (true, if r.value = [] then s.data else r.value) := by
    cases hdelete : r.deleteLog with
    | true =>
      have hvalue := (h.logged.proper _ r _ hsplit hdelete).1
      simp [LogRecord.header, hdelete, hvalue]
    | false => simp [LogRecord.header, hdelete, hrecord.read_own]
  unfold FawnDS.splitNext
  simp only [hbefore, if_false, hrecord.readIntoHeader, hread, hnext, Bool.not_true, Bool.false_eq_true]
  cases inRange startKey endKey r.key <;> rfl

theorem splitNext_eq_none (h : Inv hashes startKey endKey start s) :
    s.source.splitNext startKey endKey s.currSplit s.data = none ↔ s.delivered.length = s.log.length := by
  constructor
  · intro hnone
    by_contra hne
    have hlt : s.delivered.length < s.log.length := lt_of_le_of_ne h.behind hne
    rw [splitNext_eq_some h (List.getElem?_eq_getElem hlt)] at hnone
    cases hnone
  · intro hall
    have hend : s.source.header.dataInsertionPoint ≤ s.currSplit := by
      rw [h.logged.logEnd, h.position, hall, List.take_length]
    unfold FawnDS.splitNext
    rw [if_pos hend]

/-- The step of the loop, with the record it delivers. -/
theorem step_splitNext (h : Inv hashes startKey endKey start s)
    (hstep : step hashes startKey endKey s .splitNext = some t) :
    ∃ r, s.log[s.delivered.length]? = some r ∧
      t = { s with
        currSplit := logEnd start (s.log.take (s.delivered.length + 1))
        data := if inRange startKey endKey r.key then [] else if r.value = [] then s.data else r.value
        delivered := s.delivered ++ [⟨inRange startKey endKey r.key, r.deleteLog,
          if inRange startKey endKey r.key then r.key else [],
            if r.value = [] then s.data else r.value⟩] } := by
  obtain ⟨⟨d, next⟩, hnext, rfl⟩ := Option.map_eq_some_iff.mp hstep
  cases hr : s.log[s.delivered.length]? with
  | none =>
    have hend := (splitNext_eq_none h).mpr (le_antisymm h.behind (List.getElem?_eq_none_iff.mp hr))
    rw [hend] at hnext
    cases hnext
  | some r =>
    rw [splitNext_eq_some h hr] at hnext
    obtain ⟨rfl, rfl⟩ := Prod.mk.inj (Option.some.inj hnext)
    exact ⟨r, rfl, rfl⟩

theorem take_update (h : Inv hashes startKey endKey start s) (extra : List LogRecord) :
    (s.log ++ extra).take s.delivered.length = s.log.take s.delivered.length :=
  List.take_append_of_le_length h.behind

/-- A step keeps the source below its limit. -/
def LogBelow (hashes : Hashes) (startKey endKey : Dbid) (s : Transfer) (l : TransferStep) : Prop :=
  ∀ t, step hashes startKey endKey s l = some t → t.source.header.dataInsertionPoint < 2 ^ 32

theorem inv_step (hstep : step hashes startKey endKey s l = some t)
    (hbound : LogBelow hashes startKey endKey s l) (h : Inv hashes startKey endKey start s) :
    Inv hashes startKey endKey start t := by
  have hbound := hbound t hstep
  cases l with
  | update op =>
    cases hstep
    have htake := take_update h (recordOf (op, (s.source.step hashes op).1)).toList
    refine ⟨h.logged.step op hbound, hbound, ?_, ?_, ?_⟩
    · simp only [List.length_append]
      exact Nat.le_add_right_of_le h.behind
    · simp only [htake]
      exact h.position
    · simp only [htake]
      exact h.left
  | splitNext =>
    obtain ⟨r, hr, rfl⟩ := step_splitNext h hstep
    obtain ⟨hlt, -⟩ := List.getElem?_eq_some_iff.mp hr
    refine ⟨h.logged, hbound, ?_, ?_, ?_⟩
    · simp only [List.length_append, List.length_singleton]
      exact hlt
    · simp only [List.length_append, List.length_singleton]
    · simp only [List.length_append, List.length_singleton, List.take_add_one, hr, Option.toList_some,
        nothingLeft_concat, ← h.left]
      cases inRange startKey endKey r.key with
      | true => simp
      | false => by_cases hvalue : r.value = [] <;> simp [hvalue]

/-- Faithful deliveries rebuild the map of the records in range. -/
theorem receive_faithful {m : Bytes → Option (Nat × Bytes)} {m' : Bytes → Option Bytes} {offset : Nat}
    (h : List.Forall₂ (Delivery.Faithful startKey endKey) delivered log)
    (hm : ∀ key, m' key = if inRange startKey endKey key then (m key).map Prod.snd else none) (key : Bytes) :
    delivered.foldl receive m' key =
      if inRange startKey endKey key then (replay m offset log key).map Prod.snd else none := by
  induction h generalizing m m' offset with
  | nil => exact hm key
  | @cons d r delivered log hd _ ih =>
    apply ih
    intro key
    obtain ⟨hvalid, hremove, hdata⟩ := hd
    unfold receive
    rw [hvalid]
    cases hr : inRange startKey endKey r.key with
    | false =>
      have hne : inRange startKey endKey key = true → key ≠ r.key := by
        rintro hk rfl
        rw [hr] at hk
        cases hk
      rw [if_neg (by simp), hm key]
      by_cases hk : inRange startKey endKey key = true
      · rw [if_pos hk, if_pos hk, applyRecord_ne (hne hk)]
      · rw [if_neg hk, if_neg hk]
    | true =>
      obtain ⟨hkey, hvalue⟩ := hdata (hvalid.trans hr)
      rw [if_pos rfl, hkey, hremove, hvalue]
      by_cases hk : key = r.key
      · subst hk
        rw [Function.update_self, if_pos hr, applyRecord_self]
        cases r.deleteLog <;> rfl
      · rw [Function.update_of_ne hk, applyRecord_ne hk, hm key]

/-- Faithful deliveries are enough. -/
theorem faithfulTransfer_iff (h : Inv hashes startKey endKey start s) :
    FaithfulTransfer hashes startKey endKey s ↔
      List.Forall₂ (Delivery.Faithful startKey endKey) s.delivered (s.log.take s.delivered.length) := by
  constructor
  · exact fun hs => hs.inOrder
  · intro hall
    refine ⟨hall, fun hnone => ?_⟩
    have hlen := (splitNext_eq_none h).mp hnone
    rw [hlen, List.take_length] at hall
    refine ⟨hlen, fun key => ?_⟩
    rw [h.logged.maps.contents_eq key]
    exact receive_faithful hall (fun _ => by simp) key

theorem faithful_step_iff (hstep : step hashes startKey endKey s l = some t)
    (hbound : LogBelow hashes startKey endKey s l) (h : Inv hashes startKey endKey start s)
    (hs : FaithfulTransfer hashes startKey endKey s) :
    FaithfulTransfer hashes startKey endKey t ↔ NoLeak startKey endKey s l := by
  rw [faithfulTransfer_iff (inv_step hstep hbound h)]
  cases l with
  | update op =>
    cases hstep
    refine iff_of_true ?_ trivial
    simp only [take_update h]
    exact hs.inOrder
  | splitNext =>
    obtain ⟨r, hr, rfl⟩ := step_splitNext h hstep
    simp only [List.length_append, List.length_singleton, List.take_add_one, hr, Option.toList_some]
    have hlast : List.Forall₂ (Delivery.Faithful startKey endKey)
        (s.delivered ++ [⟨inRange startKey endKey r.key, r.deleteLog,
          if inRange startKey endKey r.key then r.key else [], if r.value = [] then s.data else r.value⟩])
        (s.log.take s.delivered.length ++ [r]) ↔
        Delivery.Faithful startKey endKey ⟨inRange startKey endKey r.key, r.deleteLog,
          if inRange startKey endKey r.key then r.key else [], if r.value = [] then s.data else r.value⟩ r := by
      rw [← List.forall₂_reverse_iff, List.reverse_append, List.reverse_append]
      simp [hs.inOrder]
    rw [hlast]
    unfold Delivery.Faithful NoLeak
    simp only [true_and, hr, Option.some.injEq, forall_eq', ← h.left]
    cases inRange startKey endKey r.key with
    | false => simp
    | true =>
      by_cases hvalue : r.value = []
      · simp [hvalue]
      · simp [hvalue]

theorem step_insertionPoint_le (hstep : step hashes startKey endKey s l = some t) :
    s.source.header.dataInsertionPoint ≤ t.source.header.dataInsertionPoint := by
  cases l with
  | update op =>
    cases hstep
    exact step_insertionPoint op
  | splitNext =>
    obtain ⟨r, -, rfl⟩ := Option.map_eq_some_iff.mp hstep
    exact le_rfl

theorem inv_init {source : FawnDS} (hsource : Logged hashes start source log)
    (hbound : source.header.dataInsertionPoint < 2 ^ 32) :
    Inv hashes startKey endKey start (init start source log) := by
  refine ⟨hsource, hbound, Nat.zero_le _, rfl, ?_⟩
  simp [init, NothingLeft]

/-- A transfer from the store that any calls have made, with updates in between, is faithful in every
state exactly if no record without a value is read while the string holds the value of a skipped
one. -/
theorem transfer_faithful_iff (hashes : Hashes) (headerSize : Nat) (size : UInt64) (n : Nat) (hn : 3 ≤ n)
    (hsize : size.toNat = 2 ^ n) (ops : List Op) (startKey endKey : Dbid) (ls : List TransferStep)
    (t : Transfer) :
    let made := FawnDS.run hashes (create headerSize size) ops
    let first := init (headerSize + 6 * size.toNat) made.2 (records made.1)
    run (step hashes startKey endKey) first ls = some t →
    t.source.header.dataInsertionPoint < 2 ^ 32 →
    (Always (step hashes startKey endKey) (FaithfulTransfer hashes startKey endKey) first ls ↔
      Meets (step hashes startKey endKey) (NoLeak startKey endKey) first ls) := by
  intro made first h hlog
  have hmono : ∀ s l t, step hashes startKey endKey s l = some t →
      s.source.header.dataInsertionPoint ≤ t.source.header.dataInsertionPoint :=
    fun s l t hstep => step_insertionPoint_le hstep
  have hbound : made.2.header.dataInsertionPoint < 2 ^ 32 :=
    lt_of_le_of_lt (run_le (s := first) hmono h) hlog
  have hlogged := (logged_create hashes headerSize hn hsize).run ops hbound
  have hinv : Inv hashes startKey endKey (headerSize + 6 * size.toNat) first :=
    inv_init hlogged hbound
  have hfirst : FaithfulTransfer hashes startKey endKey first :=
    (faithfulTransfer_iff hinv).mpr List.Forall₂.nil
  exact always_iff_meets_of_assuming (fun s l t => inv_step) (fun s l t => faithful_step_iff) h
    (meets_of_le hmono h hlog) hinv hfirst

/-- The store after an insert of key `9`, on a table of eight slots. -/
def sample (headerSize : Nat) : Transfer :=
  init (headerSize + 48) (FawnDS.run (fun _ _ => 5) (create headerSize 8) [.insert [9] [90]]).2
    (records (FawnDS.run (fun _ _ => 5) (create headerSize 8) [.insert [9] [90]]).1)

/-- In the range of the keys `2` to `8`: an insert of key `2` after the record of key `9` was skipped. -/
theorem transfer_faithful_two_records :
    Always (step (fun _ _ => 5) (.init [1]) (.init [8]))
      (FaithfulTransfer (fun _ _ => 5) (.init [1]) (.init [8])) (sample 0)
      [.splitNext, .update (.insert [2] [20]), .splitNext] := by
  refine (transfer_faithful_iff (fun _ _ => 5) 0 8 3 (by decide) rfl [.insert [9] [90]] _ _ _ _ rfl
    (by decide)).mpr ?_
  refine Meets.cons rfl ?_ (Meets.cons rfl trivial (Meets.cons rfl ?_ trivial))
  · intro r hr hrange _
    cases hr
    exact absurd hrange (by decide)
  · intro r hr _ hvalue
    cases hr
    cases hvalue

/-- An insert of key `2` with an empty value instead: it is delivered with the value of key `9`. -/
theorem transfer_leaks_skipped_value :
    ∃ t, run (step (fun _ _ => 5) (.init [1]) (.init [8])) (sample 4096)
        [.splitNext, .update (.insert [2] []), .splitNext] = some t ∧
      ¬FaithfulTransfer (fun _ _ => 5) (.init [1]) (.init [8]) t := by
  have heval : (run (step (fun _ _ => 5) (.init [1]) (.init [8])) (sample 4096)
      [.splitNext, .update (.insert [2] []), .splitNext]).map (fun t => (t.log, t.delivered)) =
        some ([⟨[9], [90], false⟩, ⟨[2], [], false⟩],
          [⟨false, false, [], [90]⟩, ⟨true, false, [2], [90]⟩]) := by
    decide +kernel
  obtain ⟨t, ht, hpair⟩ := Option.map_eq_some_iff.mp heval
  refine ⟨t, ht, fun h => ?_⟩
  have hlog := congrArg Prod.fst hpair
  have hdelivered := congrArg Prod.snd hpair
  have hall := h.inOrder
  simp only at hlog hdelivered
  rw [hlog, hdelivered] at hall
  cases hall with
  | cons _ hall =>
    cases hall with
    | cons hbad _ => exact absurd (hbad.2.2 rfl).2 (by decide)

end Proofs

end Transfer

end FawnKV.Fawn
