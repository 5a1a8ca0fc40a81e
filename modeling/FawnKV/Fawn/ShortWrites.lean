import FawnKV.Fawn.Runs
import FawnKV.Lib.Transition

/-! Insert and Delete over a log whose writes may stop short, and the store that such writes leave. -/
namespace FawnKV.Fawn

open ByteFile OpenAddressing

namespace FawnDSFlash

/-- `Write` when its `writev` moves `moved` bytes of the record. -/
def writeUpTo (moved : Nat) (f key data : Bytes) (offset : Nat) : Bool × Bytes :=
  let record := (DataHeader.mk data.length key.length false).toBytes ++ key ++ data
  (decide (record.length ≤ moved), pwrite f (record.take moved) offset)

/-- `Delete` when its two `pwrite64` move `moved` and `movedKey` bytes. -/
def deleteUpTo (moved movedKey : Nat) (f key : Bytes) (offset : Nat) : Bool × Bytes :=
  let header := (DataHeader.mk 0 key.length true).toBytes
  let f := pwrite f (header.take moved) offset
  if moved < header.length then (false, f)
  else (decide (key.length ≤ movedKey), pwrite f (key.take movedKey) (offset + dataHeaderSize))

variable {f key data : Bytes} {offset moved movedKey : Nat}

theorem writeUpTo_true (h : (writeUpTo moved f key data offset).1 = true) :
    (writeUpTo moved f key data offset).2 = write f key data offset := by
  have hlen := of_decide_eq_true h
  simp only [writeUpTo, write, List.take_of_length_le hlen]

theorem deleteUpTo_true (h : (deleteUpTo moved movedKey f key offset).1 = true) :
    (deleteUpTo moved movedKey f key offset).2 = delete f key offset := by
  simp only [deleteUpTo] at h ⊢
  split at h
  · cases h
  · rename_i hheader
    have hkey := of_decide_eq_true h
    rw [if_neg hheader, List.take_of_length_le (Nat.not_lt.mp hheader), List.take_of_length_le hkey]
    rfl

/-- Whatever was written lies behind the bytes before `offset`. -/
theorem take_writeUpTo (h : offset ≤ f.length) :
    (writeUpTo moved f key data offset).2.take offset = f.take offset :=
  take_pwrite (Nat.le_refl _) h

theorem take_deleteUpTo (h : offset ≤ f.length) :
    (deleteUpTo moved movedKey f key offset).2.take offset = f.take offset := by
  have hheader : ∀ block : Bytes, (pwrite f block offset).take offset = f.take offset :=
    fun _ => take_pwrite (Nat.le_refl _) h
  simp only [deleteUpTo]
  split
  · exact hheader _
  · have hlength : offset ≤
        (pwrite f (((DataHeader.mk 0 key.length true).toBytes).take moved) offset).length := by
      rw [length_pwrite]
      omega
    exact (take_pwrite (Nat.le_add_right _ _) hlength).trans (hheader _)

end FawnDSFlash

/-- A call that changes the store, with the number of bytes that each write of the log moves. -/
inductive LogCall where
  | insert (key data : Bytes) (moved : Nat)
  | delete (key : Bytes) (moved movedKey : Nat)
  deriving DecidableEq, Repr

/-- The same call on a log whose writes succeed. -/
def LogCall.op : LogCall → Op
  | .insert key data _ => .insert key data
  | .delete key _ _ => .delete key

/-- The lengths of a call are `uint32_t`. -/
def LogCall.Fits : LogCall → Prop
  | .insert key data _ => key.length < 2 ^ 32 ∧ data.length < 2 ^ 32
  | .delete key _ _ => key.length < 2 ^ 32

instance : DecidablePred LogCall.Fits
  | .insert _ _ _ => inferInstanceAs (Decidable (_ ∧ _))
  | .delete _ _ _ => inferInstanceAs (Decidable (_ < _))

namespace FawnDS

/-- `Insert`, where a write of the log that fails leaves header and table as they were. -/
def insertUpTo (hashes : Hashes) (ds : FawnDS) (key data : Bytes) (moved : Nat) : Bool × FawnDS :=
  if ds.header.numberElements == ds.header.hashtableSize then (false, ds)
  else
    match ds.findHashIndexInsert hashes key with
    | none => (false, ds)
    | some (hashIndex, newObj) =>
      let written := FawnDSFlash.writeUpTo moved ds.datastore key data ds.header.dataInsertionPoint
      if !written.1 then (false, { ds with datastore := written.2 })
      else (true, { ds.insertAt hashIndex newObj key data with datastore := written.2 })

/-- `Delete` with `writeLog = true`, in the same way. -/
def deleteUpTo (hashes : Hashes) (ds : FawnDS) (key : Bytes) (moved movedKey : Nat) : Bool × FawnDS :=
  match ds.findHashIndex hashes key with
  | none => (false, ds)
  | some hashIndex =>
    if !ds.valid hashIndex then (false, ds)
    else
      let written := FawnDSFlash.deleteUpTo moved movedKey ds.datastore key ds.header.dataInsertionPoint
      if !written.1 then (false, { ds with datastore := written.2 })
      else
        (true, eliminateStale hashes key (ds.path hashes key).length
          ({ ds.logDelete key with datastore := written.2 }.markDeleted hashIndex))

def call (hashes : Hashes) (ds : FawnDS) : LogCall → Bool × FawnDS
  | .insert key data moved => ds.insertUpTo hashes key data moved
  | .delete key moved movedKey => ds.deleteUpTo hashes key moved movedKey

/-- `Insert` comes to its write of the log. -/
def Reaches (hashes : Hashes) (ds : FawnDS) (key : Bytes) : Prop :=
  ds.header.numberElements ≠ ds.header.hashtableSize ∧ (ds.findHashIndexInsert hashes key).isSome

instance (hashes : Hashes) (ds : FawnDS) (key : Bytes) : Decidable (Reaches hashes ds key) :=
  inferInstanceAs (Decidable (_ ∧ _))

/-- An insert writes its record where 32 bits can address it. -/
def Addresses (hashes : Hashes) (ds : FawnDS) : LogCall → Prop
  | .insert key data moved => Reaches hashes ds key →
      dataHeaderSize + key.length + data.length ≤ moved → ds.header.dataInsertionPoint < 2 ^ 32
  | .delete _ _ _ => True

instance (hashes : Hashes) (ds : FawnDS) : DecidablePred (Addresses hashes ds)
  | .insert _ _ _ => inferInstanceAs (Decidable (_ → _))
  | .delete _ _ _ => inferInstanceAs (Decidable True)

/-- The store after the call. -/
def callStep (hashes : Hashes) (ds : FawnDS) (c : LogCall) : Option FawnDS := some (ds.call hashes c).2

variable {hashes : Hashes} {ds : FawnDS} {t : Nat → Slot Bytes (Nat × Bytes)} {key data : Bytes}
  {moved movedKey i : Nat} {newObj : Bool}

/-- The store without the bytes that failed writes left behind the insertion point. -/
def logged (ds : FawnDS) : FawnDS :=
  { ds with datastore := ds.datastore.take ds.header.dataInsertionPoint }

/-- What `Insert` can do: nothing to header, table and log, or all of its work. -/
theorem insertUpTo_cases (hashes : Hashes) (ds : FawnDS) (key data : Bytes) (moved : Nat) :
    (∃ f, ds.insertUpTo hashes key data moved = (false, { ds with datastore := f }) ∧
      (ds.header.dataInsertionPoint ≤ ds.datastore.length →
        f.take ds.header.dataInsertionPoint = ds.datastore.take ds.header.dataInsertionPoint) ∧
      (Reaches hashes ds key → moved < dataHeaderSize + key.length + data.length)) ∨
    ∃ i newObj, ds.insertUpTo hashes key data moved = (true, ds.insertAt i newObj key data) ∧
      ds.findHashIndexInsert hashes key = some (i, newObj) ∧ Reaches hashes ds key ∧
      dataHeaderSize + key.length + data.length ≤ moved := by
  have hrecord : ((DataHeader.mk data.length key.length false).toBytes ++ key ++ data).length =
      dataHeaderSize + key.length + data.length := by
    simp only [List.length_append, DataHeader.length_toBytes]
  by_cases hfull : ds.header.numberElements = ds.header.hashtableSize
  · exact .inl ⟨ds.datastore, by simp [insertUpTo, hfull], fun _ => rfl, fun hreach => absurd hfull hreach.1⟩
  · cases hfind : ds.findHashIndexInsert hashes key with
    | none =>
      refine .inl ⟨ds.datastore, by simp [insertUpTo, hfind], fun _ => rfl, ?_⟩
      rintro ⟨-, hsome⟩
      rw [hfind] at hsome
      cases hsome
    | some r =>
      obtain ⟨i, newObj⟩ := r
      cases hwrite : (FawnDSFlash.writeUpTo moved ds.datastore key data ds.header.dataInsertionPoint).1 with
      | false =>
        have hshort : ¬dataHeaderSize + key.length + data.length ≤ moved := by
          rw [← hrecord]
          exact of_decide_eq_false hwrite
        have hcall : ds.insertUpTo hashes key data moved = (false, { ds with datastore :=
            (FawnDSFlash.writeUpTo moved ds.datastore key data ds.header.dataInsertionPoint).2 }) := by
          simp [insertUpTo, hfull, hfind, hwrite]
        exact .inl ⟨_, hcall, FawnDSFlash.take_writeUpTo, fun _ => Nat.not_le.mp hshort⟩
      | true =>
        have hlong : dataHeaderSize + key.length + data.length ≤ moved := by
          rw [← hrecord]
          exact of_decide_eq_true hwrite
        refine .inr ⟨i, newObj, ?_, rfl, ⟨hfull, by simp [hfind]⟩, hlong⟩
        simp only [insertUpTo, beq_eq_false_iff_ne.mpr hfull, hfind, hwrite,
          FawnDSFlash.writeUpTo_true hwrite]
        rfl

/-- What `Delete` can do. -/
theorem deleteUpTo_cases (hashes : Hashes) (ds : FawnDS) (key : Bytes) (moved movedKey : Nat) :
    (∃ f, ds.deleteUpTo hashes key moved movedKey = (false, { ds with datastore := f }) ∧
      (ds.header.dataInsertionPoint ≤ ds.datastore.length →
        f.take ds.header.dataInsertionPoint = ds.datastore.take ds.header.dataInsertionPoint)) ∨
    ∃ i, ds.findHashIndex hashes key = some i ∧ ds.valid i = true ∧
      ds.deleteUpTo hashes key moved movedKey = (true, eliminateStale hashes key (ds.path hashes key).length
        ((ds.logDelete key).markDeleted i)) := by
  cases hfind : ds.findHashIndex hashes key with
  | none => exact .inl ⟨ds.datastore, by simp [deleteUpTo, hfind], fun _ => rfl⟩
  | some i =>
    cases hvalid : ds.valid i with
    | false => exact .inl ⟨ds.datastore, by simp [deleteUpTo, hfind, hvalid], fun _ => rfl⟩
    | true =>
      cases hwrite :
          (FawnDSFlash.deleteUpTo moved movedKey ds.datastore key ds.header.dataInsertionPoint).1 with
      | false =>
        have hcall : ds.deleteUpTo hashes key moved movedKey = (false, { ds with datastore :=
            (FawnDSFlash.deleteUpTo moved movedKey ds.datastore key ds.header.dataInsertionPoint).2 }) := by
          simp [deleteUpTo, hfind, hvalid, hwrite]
        exact .inl ⟨_, hcall, FawnDSFlash.take_deleteUpTo⟩
      | true =>
        refine .inr ⟨i, rfl, hvalid, ?_⟩
        simp only [deleteUpTo, hfind, hvalid, hwrite, FawnDSFlash.deleteUpTo_true hwrite]
        rfl

/-! What the table shows, it shows through the bytes before the insertion point. -/

theorem Table.insertionPoint_le (h : Table hashes ds.logged t) :
    ds.header.dataInsertionPoint ≤ ds.datastore.length := by
  have hend := h.logEnd
  simp only [logged, List.length_take] at hend
  omega

theorem Table.slots_of_logged (h : Table hashes ds.logged t) (i : Nat) : TableSlot ds i (t i) :=
  (h.slots i).frame rfl ⟨_, (List.take_append_drop _ _).symm⟩

theorem logged_insertAt (h : ds.header.dataInsertionPoint ≤ ds.datastore.length) (i : Nat) (newObj : Bool)
    (key data : Bytes) : (ds.insertAt i newObj key data).logged = ds.logged.insertAt i newObj key data := by
  have hend : ds.logged.datastore.length = ds.header.dataInsertionPoint := by
    rw [logged, List.length_take, Nat.min_eq_left h]
  have hstore : (ds.insertAt i newObj key data).logged.datastore =
      (ds.logged.insertAt i newObj key data).datastore := by
    rw [insertAt_datastore hend]
    have hlength : ds.header.dataInsertionPoint + dataHeaderSize + key.length + data.length =
        ds.header.dataInsertionPoint +
          ((DataHeader.mk data.length key.length false).toBytes ++ key ++ data).length := by
      simp only [List.length_append, DataHeader.length_toBytes]
      omega
    change (FawnDSFlash.write ds.datastore key data ds.header.dataInsertionPoint).take
      (ds.header.dataInsertionPoint + dataHeaderSize + key.length + data.length) = _
    rw [FawnDSFlash.write, hlength, take_pwrite_end h]
    rfl
  exact congrArg (fun f => { ds.insertAt i newObj key data with datastore := f }) hstore

theorem logged_logDelete (h : ds.header.dataInsertionPoint ≤ ds.datastore.length) (key : Bytes) :
    (ds.logDelete key).logged = ds.logged.logDelete key := by
  have hend : ds.logged.datastore.length = ds.header.dataInsertionPoint := by
    rw [logged, List.length_take, Nat.min_eq_left h]
  have hstore : (ds.logDelete key).logged.datastore = (ds.logged.logDelete key).datastore := by
    rw [logDelete_datastore hend]
    generalize hheader : (DataHeader.mk 0 key.length true).toBytes = header
    have hlength : header.length = dataHeaderSize := by rw [← hheader, DataHeader.length_toBytes]
    have hlong : ds.header.dataInsertionPoint + dataHeaderSize ≤
        (pwrite ds.datastore header ds.header.dataInsertionPoint).length := by
      rw [length_pwrite, hlength]
      omega
    change (FawnDSFlash.delete ds.datastore key ds.header.dataInsertionPoint).take
      (ds.header.dataInsertionPoint + dataHeaderSize + key.length) = _
    rw [FawnDSFlash.delete, hheader, take_pwrite_end hlong, ← hlength, take_pwrite_end h, List.append_assoc]
    rfl
  exact congrArg (fun f => { ds.logDelete key with datastore := f }) hstore

/-- The searches see the same slots with and without the bytes behind the insertion point. -/
theorem Table.logged_findHashIndex (h : Table hashes ds.logged t) (key : Bytes) :
    ds.findHashIndex hashes key = find t key (ds.path hashes key) :=
  findHashIndexIn_eq h.slots_of_logged key _

theorem Table.logged_findHashIndexInsert (h : Table hashes ds.logged t) (key : Bytes) :
    ds.findHashIndexInsert hashes key =
      (findInsert t key (ds.path hashes key)).map fun i => (i, (t i).isFree) :=
  findHashIndexInsertIn_eq_map h.slots_of_logged key _

theorem Table.findInsert_of_logged (h : Table hashes ds.logged t)
    (hfind : ds.findHashIndexInsert hashes key = some (i, newObj)) :
    findInsert t key (ds.path hashes key) = some i := by
  rw [h.logged_findHashIndexInsert, Option.map_eq_some_iff] at hfind
  obtain ⟨j, hj, he⟩ := hfind
  cases he
  exact hj

theorem Table.logged_eliminateStale (h : Table hashes ds.logged t) (key : Bytes) (fuel : Nat) :
    (FawnDS.eliminateStale hashes key fuel ds).logged = FawnDS.eliminateStale hashes key fuel ds.logged := by
  induction fuel generalizing ds t with
  | zero => rfl
  | succ fuel ih =>
    have hfind : ds.findHashIndex hashes key = ds.logged.findHashIndex hashes key :=
      (h.logged_findHashIndex key).trans (h.findHashIndex_eq key).symm
    rw [FawnDS.eliminateStale, FawnDS.eliminateStale, ← hfind]
    cases hi : ds.findHashIndex hashes key with
    | none => rfl
    | some i =>
      rw [hfind, h.findHashIndex_eq] at hi
      exact ih (h.markDeleted hi)

/-- A call that returns true does to the logged records what it does on a log whose writes succeed; any
other leaves them. -/
theorem Table.call_logged (h : Table hashes ds.logged t) (c : LogCall) :
    ((ds.call hashes c).1 = true → (ds.logged.step hashes c.op).1 = true ∧
      (ds.call hashes c).2.logged = (ds.logged.step hashes c.op).2) ∧
    ((ds.call hashes c).1 = false → (ds.call hashes c).2.logged = ds.logged) := by
  have hpoint := h.insertionPoint_le
  have hsame : ∀ f, f.take ds.header.dataInsertionPoint = ds.datastore.take ds.header.dataInsertionPoint →
      { ds with datastore := f }.logged = ds.logged :=
    fun f hf => congrArg (fun f => { ds with datastore := f }) hf
  cases c with
  | insert key data moved =>
    rcases insertUpTo_cases hashes ds key data moved with ⟨f, hcall, hkeep, -⟩ |
      ⟨i, newObj, hcall, hfind, hreach, -⟩
    · simp only [call, hcall]
      exact ⟨fun h => (by cases h), fun _ => hsame f (hkeep hpoint)⟩
    · simp only [call, hcall]
      refine ⟨fun _ => ?_, fun h => (by cases h)⟩
      have hfind' : ds.logged.findHashIndexInsert hashes key = some (i, newObj) := by
        rw [← hfind, h.logged_findHashIndexInsert]
        exact findHashIndexInsertIn_eq_map h.slots key _
      have hroom' : (ds.logged.header.numberElements == ds.logged.header.hashtableSize) = false :=
        beq_eq_false_iff_ne.mpr hreach.1
      have hinsert : ds.logged.insert hashes key data = (true, ds.logged.insertAt i newObj key data) := by
        rw [insert, hroom', hfind']
        rfl
      rw [logged_insertAt hpoint, LogCall.op, step, hinsert]
      exact ⟨rfl, rfl⟩
  | delete key moved movedKey =>
    rcases deleteUpTo_cases hashes ds key moved movedKey with ⟨f, hcall, hkeep⟩ | ⟨i, hfind, hvalid, hcall⟩
    · simp only [call, hcall]
      exact ⟨fun h => (by cases h), fun _ => hsame f (hkeep hpoint)⟩
    · simp only [call, hcall]
      refine ⟨fun _ => ?_, fun h => (by cases h)⟩
      rw [h.logged_findHashIndex] at hfind
      have hfind' : ds.logged.findHashIndex hashes key = some i := (h.findHashIndex_eq key).trans hfind
      have hdelete : ds.logged.delete hashes key = (true, FawnDS.eliminateStale hashes key
          (ds.path hashes key).length ((ds.logged.logDelete key).markDeleted i)) := by
        rw [delete, FawnDS.deleteWith, hfind']
        exact if_neg (by simp [show ds.logged.valid i = true from hvalid])
      have hlogged := logged_logDelete hpoint key
      have htable : Table hashes ((ds.logDelete key).markDeleted i).logged
          (Function.update t i .tombstone) := by
        have hmarked := (h.logDelete key).markDeleted hfind
        rw [← hlogged] at hmarked
        exact hmarked
      rw [htable.logged_eliminateStale, LogCall.op, step, hdelete, ← hlogged]
      exact ⟨rfl, rfl⟩

end FawnDS

end FawnKV.Fawn
