import Mathlib.Data.List.Induction
import FawnKV.Fawn.Runs

/-! The map that a store shows, and the log of its source as a list of records. -/
namespace FawnKV.Fawn

open ByteFile OpenAddressing

/-- The position behind a list of records. -/
def logEnd (start : Nat) (log : List LogRecord) : Nat := start + (log.map LogRecord.size).sum

/-- The map after a record at the position `offset`: a value stands with the position of its record. -/
def applyRecord (m : Bytes → Option (Nat × Bytes)) (offset : Nat) (r : LogRecord) :
    Bytes → Option (Nat × Bytes) :=
  Function.update m r.key (if r.deleteLog then none else some (offset, r.value))

/-- The map after the records that follow `offset`. -/
def replay (m : Bytes → Option (Nat × Bytes)) : Nat → List LogRecord → Bytes → Option (Nat × Bytes)
  | _, [] => m
  | offset, r :: log => replay (applyRecord m offset r) (offset + r.size) log

/-- The map of a log that begins at `start`. -/
def located (start : Nat) (log : List LogRecord) : Bytes → Option (Nat × Bytes) :=
  replay (fun _ => none) start log

/-- A delete record has no value, and stands behind a record that made its key present. -/
def Proper (start : Nat) (log : List LogRecord) : Prop :=
  ∀ before r after, log = before ++ r :: after → r.deleteLog = true →
    r.value = [] ∧ (located start before r.key).isSome

/-- The file holds the log behind its first `start` bytes. -/
def LogImage (start : Nat) (f : Bytes) (log : List LogRecord) : Prop :=
  ∃ pre, pre.length = start ∧ f = pre ++ log.flatMap LogRecord.toBytes

section Records

variable {start offset : Nat} {log before after : List LogRecord} {r : LogRecord} {k key : Bytes}
  {m : Bytes → Option (Nat × Bytes)} {f : Bytes}

@[simp] theorem logEnd_nil : logEnd start [] = start := rfl

theorem logEnd_append (start : Nat) (before after : List LogRecord) :
    logEnd start (before ++ after) = logEnd (logEnd start before) after := by
  simp [logEnd, Nat.add_assoc]

theorem logEnd_cons : logEnd start (r :: log) = logEnd (start + r.size) log := by
  simp [logEnd, Nat.add_assoc]

theorem nine_le_size (r : LogRecord) : 9 ≤ r.size := by
  simp only [LogRecord.size, dataHeaderSize]
  omega

theorem le_logEnd (start : Nat) (log : List LogRecord) : start ≤ logEnd start log :=
  Nat.le_add_right _ _

theorem logEnd_lt_cons : start < logEnd start (r :: log) := by
  have hsize := nine_le_size r
  have hle := le_logEnd (start + r.size) log
  rw [logEnd_cons]
  omega

theorem replay_append (m : Bytes → Option (Nat × Bytes)) (offset : Nat) (before after : List LogRecord) :
    replay m offset (before ++ after) = replay (replay m offset before) (logEnd offset before) after := by
  induction before generalizing m offset with
  | nil => rfl
  | cons r before ih => simp only [List.cons_append, replay, ih, logEnd_cons]

theorem located_concat (start : Nat) (log : List LogRecord) (r : LogRecord) :
    located start (log ++ [r]) = applyRecord (located start log) (logEnd start log) r :=
  replay_append ..

@[simp] theorem applyRecord_self :
    applyRecord m offset r r.key = if r.deleteLog then none else some (offset, r.value) :=
  Function.update_self ..

theorem applyRecord_ne (h : key ≠ r.key) : applyRecord m offset r key = m key :=
  Function.update_of_ne h ..

/-- Records of other keys do not matter. -/
theorem replay_of_notMem (h : ∀ r ∈ log, r.key ≠ key) : replay m offset log key = m key := by
  induction log generalizing m offset with
  | nil => rfl
  | cons r log ih =>
    rw [replay, ih fun r' hr' => h r' (List.mem_cons_of_mem _ hr')]
    exact applyRecord_ne (h r (List.mem_cons_self ..)).symm

/-- The last record of a key decides. -/
theorem located_last (h : ∀ r' ∈ after, r'.key ≠ r.key) :
    located start (before ++ r :: after) r.key =
      if r.deleteLog then none else some (logEnd start before, r.value) := by
  rw [located, replay_append, replay, replay_of_notMem h]
  exact applyRecord_self

/-- A value comes from an insert record at its position, behind which the key has no record. -/
theorem located_eq_some {v : Bytes} (h : located start log key = some (offset, v)) :
    ∃ before after, log = before ++ ⟨key, v, false⟩ :: after ∧ offset = logEnd start before ∧
      ∀ r ∈ after, r.key ≠ key := by
  induction log using List.reverseRecOn with
  | nil => cases h
  | append_singleton log r ih =>
    rw [located_concat] at h
    by_cases hk : key = r.key
    · subst hk
      rw [applyRecord_self] at h
      cases hdelete : r.deleteLog with
      | true => simp [hdelete] at h
      | false =>
        simp only [hdelete, Bool.false_eq_true, if_false, Option.some.injEq, Prod.mk.injEq] at h
        obtain ⟨rfl, rfl⟩ := h
        exact ⟨log, [], by rw [← hdelete], rfl, by simp⟩
    · rw [applyRecord_ne hk] at h
      obtain ⟨before, after, rfl, hoffset, hafter⟩ := ih h
      refine ⟨before, after ++ [r], by simp, hoffset, fun r' hr' => ?_⟩
      rcases List.mem_append.mp hr' with hr' | hr'
      · exact hafter r' hr'
      · rw [List.mem_singleton.mp hr']
        exact Ne.symm hk

theorem Proper.concat (h : Proper start log)
    (hr : r.deleteLog = true → r.value = [] ∧ (located start log r.key).isSome) : Proper start
      (log ++ [r]) := by
  intro before r' after hsplit hdelete
  rcases List.eq_nil_or_concat after with rfl | ⟨after', last, rfl⟩
  · obtain ⟨rfl, hlast⟩ := List.append_inj' hsplit rfl
    cases hlast
    exact hr hdelete
  · have hinit : log ++ [r] = (before ++ r' :: after') ++ [last] := by simpa using hsplit
    obtain ⟨rfl, -⟩ := List.append_inj' hinit rfl
    exact h before r' after' rfl hdelete

theorem length_flatMap_toBytes (log : List LogRecord) :
    (log.flatMap LogRecord.toBytes).length = (log.map LogRecord.size).sum := by
  induction log with
  | nil => rfl
  | cons r log ih => simp [ih]

theorem LogImage.length (h : LogImage start f log) : f.length = logEnd start log := by
  obtain ⟨pre, hpre, rfl⟩ := h
  rw [List.length_append, length_flatMap_toBytes, hpre, logEnd]

theorem LogImage.concat (h : LogImage start f log) (r : LogRecord) :
    LogImage start (f ++ r.toBytes) (log ++ [r]) := by
  obtain ⟨pre, hpre, rfl⟩ := h
  exact ⟨pre, hpre, by simp⟩

/-- Every record of the log can be read at its position. -/
theorem LogImage.hasRecord (h : LogImage start f (before ++ r :: after)) (hlen : f.length < 2 ^ 32) :
    HasRecord f (logEnd start before) r := by
  have hend := h.length
  have hsize : logEnd start before + r.size ≤ f.length := by
    rw [hend, logEnd_append, logEnd_cons]
    exact le_logEnd _ _
  have hr : r.size = dataHeaderSize + r.value.length + r.key.length := rfl
  obtain ⟨pre, hpre, hf⟩ := h
  refine ⟨by omega, by omega, pre ++ before.flatMap LogRecord.toBytes, after.flatMap LogRecord.toBytes, ?_, ?_⟩
  · rw [List.length_append, length_flatMap_toBytes, hpre, logEnd]
  · simp [hf]

/-- The keys a list of records is about. -/
def keysOf (log : List LogRecord) : List Bytes := log.map LogRecord.key

theorem mem_keysOf_of_isSome (h : (located start log key).isSome) : key ∈ keysOf log := by
  by_contra hnot
  have hnone : located start log key = none := by
    apply replay_of_notMem
    intro r hr he
    exact hnot (List.mem_map.mpr ⟨r, hr, he⟩)
  rw [hnone] at h
  cases h

theorem keysOf_concat : key ∈ keysOf (log ++ [r]) ↔ key ∈ keysOf log ∨ key = r.key := by
  simp [keysOf, eq_comm]

theorem key_length_of_isSome {len : Nat} (hlog : ∀ r ∈ log, r.key.length = len) :
    ∀ key, (located start log key).isSome → key.length = len := by
  intro key hkey
  obtain ⟨r, hr, rfl⟩ := List.mem_map.mp (mem_keysOf_of_isSome hkey)
  exact hlog r hr

end Records

namespace FawnDS

/-- The store shows the map `m` of keys to positions and values. -/
def Maps (hashes : Hashes) (ds : FawnDS) (m : Bytes → Option (Nat × Bytes)) : Prop :=
  ∃ t, Table hashes ds t ∧ ∀ k, lookup (ds.path hashes) t k = m k

/-- The store shows the map of its own log, which begins at `start`. -/
structure Logged (hashes : Hashes) (start : Nat) (ds : FawnDS) (log : List LogRecord) : Prop where
  maps : Maps hashes ds (located start log)
  image : LogImage start ds.datastore log
  proper : Proper start log

/-- The value of the record at the entry that `FindHashIndex` finds. -/
def contents (hashes : Hashes) (ds : FawnDS) (key : Bytes) : Option Bytes :=
  (ds.findHashIndex hashes key).bind fun i =>
    match FawnDSFlash.read ds.datastore key (ds.entry i).offset.toNat [] with
    | (true, data) => some data
    | (false, _) => none

section Maps

variable {hashes : Hashes} {ds : FawnDS} {m : Bytes → Option (Nat × Bytes)} {key k v : Bytes} {i : Nat}
  {writeLog : Bool}

theorem maps_create (headerSize : Nat) {size : UInt64} {n : Nat} (hn : 3 ≤ n)
    (hsize : size.toNat = 2 ^ n) : Maps hashes (create headerSize size) fun _ => none :=
  ⟨_, table_create headerSize hn hsize, fun k => by simp [lookup, List.find?_eq_none.mpr]⟩

theorem Maps.logEnd (h : Maps hashes ds m) : ds.datastore.length = ds.header.dataInsertionPoint := by
  obtain ⟨t, htable, -⟩ := h
  exact htable.logEnd

theorem Maps.get (h : Maps hashes ds m) (hlen : ∀ k, (m k).isSome → k.length = key.length) :
    ds.get hashes key [] = found ((m key).map Prod.snd) := by
  obtain ⟨t, htable, hm⟩ := h
  rw [← hm]
  apply htable.get_eq
  intro i k p hp
  apply hlen
  rw [← hm]
  exact lookup_isSome_of_live htable.reach hp

theorem Maps.findHashIndex_none (h : Maps hashes ds m) (key : Bytes) :
    ds.findHashIndex hashes key = none ↔ m key = none := by
  obtain ⟨t, htable, hm⟩ := h
  have hsome := lookup_isSome (k := key) htable.reach
  rw [← htable.findHashIndex_eq, hm] at hsome
  rw [← Option.not_isSome_iff_eq_none, ← Option.not_isSome_iff_eq_none, hsome]

/-- The entry that is found stands for the record of the key. -/
theorem Maps.findHashIndex_some (h : Maps hashes ds m) (hi : ds.findHashIndex hashes key = some i) :
    ∃ v, m key = some ((ds.entry i).offset.toNat, v) ∧ ds.existsAt i = true := by
  obtain ⟨t, htable, hm⟩ := h
  rw [htable.findHashIndex_eq] at hi
  obtain ⟨⟨offset, v⟩, hp⟩ := find_holds hi
  have hslot := htable.slots i
  rw [hp] at hslot
  obtain ⟨hvalid, hdeleted, -, hoffset, -⟩ := hslot
  refine ⟨v, ?_, by simp [existsAt, hvalid, hdeleted]⟩
  rw [← hm, htable.reach.lookup_eq, hi, hoffset]
  simp [hp]

/-- The entry that is found leads to the value of its record. -/
theorem Maps.contents_eq (h : Maps hashes ds m) (key : Bytes) :
    ds.contents hashes key = (m key).map Prod.snd := by
  obtain ⟨t, htable, hm⟩ := h
  rw [← hm, htable.reach.lookup_eq, contents, htable.findHashIndex_eq]
  cases hi : find t key (ds.path hashes key) with
  | none => rfl
  | some i =>
    obtain ⟨⟨offset, v⟩, hp⟩ := find_holds hi
    have hslot := htable.slots i
    rw [hp] at hslot
    obtain ⟨-, -, -, hoffset, hrecord⟩ := hslot
    rw [Option.bind_some, Option.bind_some, hp, hoffset, hrecord.read key rfl, if_pos rfl]
    rfl

theorem Maps.insert (h : Maps hashes ds m) (hok : (ds.insert hashes k v).1 = true)
    (hbound : (ds.insert hashes k v).2.header.dataInsertionPoint < 2 ^ 32) :
    Maps hashes (ds.insert hashes k v).2
        (Function.update m k (some (ds.header.dataInsertionPoint, v))) ∧
      (ds.insert hashes k v).2.datastore = ds.datastore ++ (LogRecord.mk k v false).toBytes := by
  obtain ⟨t, htable, hm⟩ := h
  obtain ⟨i, newObj, hi, -, heq, htable'⟩ := htable.insert_true hok hbound
  have hpath : FawnDS.path (ds.insert hashes k v).2 hashes = ds.path hashes := by
    rw [heq]
    exact path_eq rfl hashes
  refine ⟨⟨_, htable', fun k' => ?_⟩, ?_⟩
  · rw [hpath]
    by_cases hk : k' = k
    · subst k'
      rw [lookup_insert_self hi, Function.update_self]
    · rw [lookup_insert_ne hi hk, Function.update_of_ne hk, hm]
  · rw [heq, insertAt_datastore htable.logEnd]
    rfl

theorem Maps.deleteWith_iff (h : Maps hashes ds m) (writeLog : Bool) (k : Bytes) :
    (ds.deleteWith hashes writeLog k).1 = true ↔ (m k).isSome := by
  obtain ⟨t, htable, hm⟩ := h
  rw [(htable.deleteWith writeLog k).1, hm]

theorem Maps.deleteWith_false (h : Maps hashes ds m)
    (hok : (ds.deleteWith hashes writeLog k).1 = false) : (ds.deleteWith hashes writeLog k).2 = ds := by
  obtain ⟨t, htable, -⟩ := h
  exact (htable.deleteWith writeLog k).2.1 hok

theorem Maps.deleteWith (h : Maps hashes ds m) (hok : (ds.deleteWith hashes writeLog k).1 = true) :
    Maps hashes (ds.deleteWith hashes writeLog k).2 (Function.update m k none) ∧
      (ds.deleteWith hashes writeLog k).2.header =
        (if writeLog then ds.logDelete k else ds.countDelete).header ∧
      (ds.deleteWith hashes writeLog k).2.datastore =
        (if writeLog then ds.logDelete k else ds.countDelete).datastore := by
  obtain ⟨t, htable, hm⟩ := h
  obtain ⟨t', htable', -, hheader, hstore, -, hlookup⟩ := (htable.deleteWith writeLog k).2.2 hok
  have hsize : (ds.deleteWith hashes writeLog k).2.header.hashtableSize = ds.header.hashtableSize := by
    rw [hheader]
    cases writeLog <;> rfl
  refine ⟨⟨t', htable', fun k' => ?_⟩, hheader, hstore⟩
  rw [path_eq hsize, hlookup]
  by_cases hk : k' = k
  · simp [hk]
  · rw [if_neg hk, Function.update_of_ne hk, hm]

end Maps

section Logged

variable {hashes : Hashes} {ds : FawnDS} {start : Nat} {log : List LogRecord} {k v : Bytes}

theorem logged_create (hashes : Hashes) (headerSize : Nat) {size : UInt64} {n : Nat} (hn : 3 ≤ n)
    (hsize : size.toNat = 2 ^ n) :
    Logged hashes (headerSize + 6 * size.toNat) (create headerSize size) [] :=
  ⟨maps_create headerSize hn hsize, ⟨_, List.length_replicate, (List.append_nil _).symm⟩, by
    intro before r after h
    cases before <;> cases h⟩

theorem Logged.logEnd (h : Logged hashes start ds log) :
    ds.header.dataInsertionPoint = Fawn.logEnd start log := by
  rw [← h.maps.logEnd, h.image.length]

/-- A successful insert adds its record to the log. -/
theorem Logged.insert (h : Logged hashes start ds log) (hok : (ds.insert hashes k v).1 = true)
    (hbound : (ds.insert hashes k v).2.header.dataInsertionPoint < 2 ^ 32) :
    Logged hashes start (ds.insert hashes k v).2 (log ++ [⟨k, v, false⟩]) := by
  obtain ⟨hmaps, hstore⟩ := h.maps.insert hok hbound
  constructor
  · rw [located_concat, ← h.logEnd]
    exact hmaps
  · rw [hstore]
    exact h.image.concat _
  · apply h.proper.concat
    intro hdelete
    cases hdelete

/-- A successful delete adds its record to the log. -/
theorem Logged.delete (h : Logged hashes start ds log) (hok : (ds.delete hashes k).1 = true) :
    Logged hashes start (ds.delete hashes k).2 (log ++ [⟨k, [], true⟩]) := by
  rw [← deleteWith_true] at hok ⊢
  obtain ⟨hmaps, -, hstore⟩ := h.maps.deleteWith hok
  constructor
  · rw [located_concat]
    exact hmaps
  · have himage := h.image.concat ⟨k, [], true⟩
    rw [hstore, if_pos rfl, logDelete_datastore h.maps.logEnd]
    simpa [LogRecord.toBytes, LogRecord.header] using himage
  · apply h.proper.concat
    intro _
    exact ⟨rfl, (h.maps.deleteWith_iff true k).mp hok⟩

/-- `Get` of a store whose log has keys of one length. -/
theorem Logged.get_eq {len : Nat} (h : Logged hashes start ds log)
    (hlog : ∀ r ∈ log, r.key.length = len) (hkey : k.length = len) :
    ds.get hashes k [] = found ((located start log k).map Prod.snd) := by
  apply h.maps.get
  rw [hkey]
  exact key_length_of_isSome hlog

/-- A store on which no `Get` succeeds has an empty map. -/
theorem Logged.located_of_get_false {len : Nat} (h : Logged hashes start ds log)
    (hlog : ∀ r ∈ log, r.key.length = len)
    (hempty : ∀ k, k.length = len → ds.get hashes k [] = (false, [])) (key : Bytes) :
    located start log key = none := by
  by_contra hsome
  have hk := key_length_of_isSome hlog key (Option.isSome_iff_ne_none.mpr hsome)
  have hget := hempty key hk
  rw [h.get_eq hlog hk, found_eq_false, Option.map_eq_none_iff] at hget
  exact hsome hget

/-- A key without a record is absent. -/
theorem Logged.get_of_notMem {len : Nat} (h : Logged hashes start ds log)
    (hlog : ∀ r ∈ log, r.key.length = len) (hkey : k.length = len) (hmem : k ∉ keysOf log) :
    ds.get hashes k [] = (false, []) := by
  have hnone : located start log k = none := by
    by_contra hsome
    exact hmem (mem_keysOf_of_isSome (Option.isSome_iff_ne_none.mpr hsome))
  rw [h.get_eq hlog hkey, hnone]
  rfl

/-- The record a call leaves in the log. -/
def recordOf : Op × Bool → Option LogRecord
  | (.insert key data, true) => some ⟨key, data, false⟩
  | (.delete key, true) => some ⟨key, [], true⟩
  | _ => none

/-- The log of a history of calls. -/
def records (history : List (Op × Bool)) : List LogRecord := history.filterMap recordOf

theorem Logged.step_false (h : Logged hashes start ds log) {op : Op} (hok : (ds.step hashes op).1 = false) :
    (ds.step hashes op).2 = ds := by
  cases op with
  | insert k v => exact insert_false hok
  | delete k => exact h.maps.deleteWith_false (show (ds.deleteWith hashes true k).1 = false from hok)
  | get k => rfl

theorem Logged.step (h : Logged hashes start ds log) (op : Op)
    (hbound : (ds.step hashes op).2.header.dataInsertionPoint < 2 ^ 32) :
    Logged hashes start (ds.step hashes op).2
      (log ++ (recordOf (op, (ds.step hashes op).1)).toList) := by
  cases hok : (ds.step hashes op).1 with
  | true =>
    cases op with
    | insert k v => exact h.insert hok hbound
    | delete k => exact h.delete hok
    | get k => simpa [recordOf, FawnDS.step] using h
  | false =>
    have hnone : recordOf (op, false) = none := by cases op <;> rfl
    rw [h.step_false hok, hnone]
    simpa using h

theorem records_cons (hashes : Hashes) (ds : FawnDS) (op : Op) (ops : List Op) :
    records (run hashes ds (op :: ops)).1 =
      (recordOf (op, (ds.step hashes op).1)).toList ++ records (run hashes (ds.step hashes op).2 ops).1 := by
  simp only [records, FawnDS.run, List.filterMap_cons]
  cases recordOf (op, (ds.step hashes op).1) <;> rfl

/-- After a run of calls the store shows the map of its log. -/
theorem Logged.run (h : Logged hashes start ds log) (ops : List Op)
    (hbound : (run hashes ds ops).2.header.dataInsertionPoint < 2 ^ 32) :
    Logged hashes start (run hashes ds ops).2 (log ++ records (run hashes ds ops).1) := by
  induction ops generalizing ds log with
  | nil => simpa [records, FawnDS.run] using h
  | cons op ops ih =>
    have hstep := h.step op (Nat.lt_of_le_of_lt (run_insertionPoint ops _) hbound)
    have hrest := ih hstep hbound
    rw [List.append_assoc] at hrest
    rw [records_cons]
    exact hrest

theorem run_fst (hashes : Hashes) (ops : List Op) (ds : FawnDS) : (run hashes ds ops).1.map Prod.fst = ops := by
  induction ops generalizing ds with
  | nil => rfl
  | cons op ops ih => simp [FawnDS.run, ih]

/-- The keys of the log are keys of the calls. -/
theorem key_of_mem_records {len : Nat} {ops : List Op} (hops : ∀ op ∈ ops, op.key.length = len) {r : LogRecord}
    (hr : r ∈ records (run hashes ds ops).1) : r.key.length = len := by
  obtain ⟨⟨op, ok⟩, hmem, hrecord⟩ := List.mem_filterMap.mp hr
  have hop : op ∈ ops := by
    rw [← run_fst hashes ops ds]
    exact List.mem_map_of_mem (f := Prod.fst) hmem
  have hkey : r.key = op.key := by
    cases op <;> cases ok <;> simp [recordOf] at hrecord
    · subst hrecord
      rfl
    · subst hrecord
      rfl
  rw [hkey]
  exact hops op hop

end Logged

end FawnDS

end FawnKV.Fawn
