import FawnKV.Fawn.Dbid
import FawnKV.Fawn.Resize
import FawnKV.Fawn.Scan

/-! `Rewrite`: the live records of a store are copied to a new one. -/
namespace FawnKV.Fawn

open ByteFile OpenAddressing FawnDS

/-- A delete record is passed on; a delete that finds nothing ends the rewrite. -/
def rewriteDelete (hashes : Hashes) (writeLog : Bool) (target : FawnDS) (key : Bytes) : Option FawnDS :=
  match target.deleteWith hashes writeLog key with
  | (true, target) => some target
  | (false, _) => none

/-- A refused insert ends the rewrite. -/
def rewriteInsert (hashes : Hashes) (target : FawnDS) (key data : Bytes) : Option FawnDS :=
  match target.insert hashes key data with
  | (true, target) => some target
  | (false, _) => none

/-- The body of the inner loop of `Rewrite`. The hash table of the old store decides whether a record
is copied. -/
def rewriteRecord (hashes : Hashes) (startKey endKey : Dbid) (old : FawnDS) : RecordHandler :=
  fun checkpointed target offset =>
    match FawnDSFlash.readIntoHeader old.datastore offset with
    | none => none
    | some (dataHeader, key) =>
      let next := offset + dataHeaderSize + dataHeader.dataLength + dataHeader.keyLength
      if !inRange startKey endKey key then some (target, next)
      else
        match old.findHashIndex hashes key with
        | none => some (target, next)
        | some hashIndex =>
          if !old.existsAt hashIndex then some (target, next)
          else
            match if dataHeader.deleteLog then rewriteDelete hashes checkpointed target key
              else some target with
            | none => none
            | some target =>
              if (old.entry hashIndex).offset.toNat ≠ offset then some (target, next)
              else
                match FawnDSFlash.read old.datastore key offset [] with
                | (false, _) => none
                | (true, data) => (rewriteInsert hashes target key data).map fun target => (target, next)

/-- The fresh store that `Rewrite` fills. -/
def rewriteTarget (headerSize : Nat) (old : FawnDS) : FawnDS := create headerSize (maxEntries old.header)

/-- `old.Rewrite(NULL)` after a number of steps of its loops. -/
def rewrite (hashes : Hashes) (headerSize : Nat) (startKey endKey : Dbid) (old : FawnDS) (start fuel : Nat) :
    Scan :=
  (Scan.step (rewriteRecord hashes startKey endKey old) old.header.dataInsertionPoint)^[fuel]
    (Scan.init (rewriteTarget headerSize old) start)

/-- What is done with a record of a store that shows the map `m`. -/
def copyRecord (hashes : Hashes) (wanted : Bytes → Bool) (m : Bytes → Option (Nat × Bytes))
    (checkpointed : Bool)
    (target : FawnDS) (offset : Nat) (r : LogRecord) : Option FawnDS :=
  if !wanted r.key then some target
  else
    match m r.key with
    | none => some target
    | some p =>
      (if r.deleteLog then rewriteDelete hashes checkpointed target r.key else some target).bind fun target =>
        if p.1 = offset then rewriteInsert hashes target r.key r.value else some target

section Target

variable {hashes : Hashes} {startKey endKey : Dbid} {old target target' : FawnDS} {k v : Bytes}
  {writeLog : Bool}

theorem rewriteInsert_eq : rewriteInsert hashes target k v =
    if (target.insert hashes k v).1 = true then some (target.insert hashes k v).2 else none := by
  unfold rewriteInsert
  generalize target.insert hashes k v = q
  obtain ⟨ok, target'⟩ := q
  cases ok <;> rfl

theorem rewriteDelete_eq : rewriteDelete hashes writeLog target k =
    if (target.deleteWith hashes writeLog k).1 = true then some (target.deleteWith hashes writeLog k).2
    else none := by
  unfold rewriteDelete
  generalize target.deleteWith hashes writeLog k = q
  obtain ⟨ok, target'⟩ := q
  cases ok <;> rfl

theorem rewriteInsert_insertionPoint (h : rewriteInsert hashes target k v = some target') :
    target.header.dataInsertionPoint ≤ target'.header.dataInsertionPoint := by
  rw [rewriteInsert_eq] at h
  split at h
  · rename_i hok
    cases h
    rw [insert_insertionPoint hok]
    omega
  · cases h

theorem rewriteDelete_insertionPoint (h : rewriteDelete hashes writeLog target k = some target') :
    target.header.dataInsertionPoint ≤ target'.header.dataInsertionPoint := by
  have hpoint : target.header.dataInsertionPoint ≤
      (target.deleteWith hashes writeLog k).2.header.dataInsertionPoint := by
    unfold deleteWith
    split
    · exact le_rfl
    · split
      · exact le_rfl
      · rw [eliminateStale_header]
        cases writeLog with
        | true =>
          change _ ≤ target.header.dataInsertionPoint + dataHeaderSize + k.length
          omega
        | false => exact le_rfl
  rw [rewriteDelete_eq] at h
  split at h
  · cases h
    exact hpoint
  · cases h

/-- The log of the new store only grows. -/
theorem rewriteRecord_insertionPoint {checkpointed : Bool} {offset next : Nat}
    (h : rewriteRecord hashes startKey endKey old checkpointed target offset = some (target', next)) :
    target.header.dataInsertionPoint ≤ target'.header.dataInsertionPoint := by
  unfold rewriteRecord at h
  split at h
  · cases h
  · rename_i dataHeader key hread
    split at h
    · cases h
      exact le_rfl
    · split at h
      · cases h
        exact le_rfl
      · split at h
        · cases h
          exact le_rfl
        · split at h
          · cases h
          · rename_i middle hdelete
            have hfirst : target.header.dataInsertionPoint ≤ middle.header.dataInsertionPoint := by
              split at hdelete
              · exact rewriteDelete_insertionPoint hdelete
              · cases hdelete
                exact le_rfl
            split at h
            · cases h
              exact hfirst
            · split at h
              · cases h
              · obtain ⟨target'', hinsert, hpair⟩ := Option.map_eq_some_iff.mp h
                cases hpair
                exact le_trans hfirst (rewriteInsert_insertionPoint hinsert)

end Target

section Records

variable {hashes : Hashes} {startKey endKey : Dbid} {start : Nat} {old target : FawnDS}
  {log before after : List LogRecord} {r : LogRecord} {wanted : Bytes → Bool} {key : Bytes}

theorem located_of_notMem_after (h : key ∉ keysOf after) :
    located start (before ++ after) key = located start before key := by
  rw [located, replay_append]
  apply replay_of_notMem
  intro r hr hkey
  exact h (List.mem_map.mpr ⟨r, hr, hkey⟩)

/-- Positions tell records apart. -/
theorem logEnd_inj {before' after' : List LogRecord} {r' : LogRecord}
    (hsplit : before ++ r :: after = before' ++ r' :: after')
    (hend : logEnd start before = logEnd start before') : before = before' ∧ r = r' ∧ after = after' := by
  have hbefore : before = before' := by
    rcases List.append_eq_append_iff.mp hsplit with ⟨c, rfl, hc⟩ | ⟨c, rfl, hc⟩
    · cases c with
      | nil => simp
      | cons x c =>
        rw [logEnd_append] at hend
        exact absurd hend (Nat.ne_of_lt logEnd_lt_cons)
    · cases c with
      | nil => simp
      | cons x c =>
        rw [logEnd_append] at hend
        exact absurd hend.symm (Nat.ne_of_lt logEnd_lt_cons)
  subst hbefore
  have htail := List.append_cancel_left hsplit
  exact ⟨rfl, List.head_eq_of_cons_eq htail, List.tail_eq_of_cons_eq htail⟩

/-- The key stands for the record at its position exactly if no later record is about it. -/
theorem located_position (p : Nat × Bytes) (hp : located start (before ++ r :: after) r.key = some p) :
    p.1 = logEnd start before ↔ r.deleteLog = false ∧ r.key ∉ keysOf after := by
  constructor
  · intro hposition
    obtain ⟨offset, v⟩ := p
    obtain ⟨before', after', hsplit, hoffset, hafter⟩ := located_eq_some hp
    obtain ⟨-, hr, rfl⟩ := logEnd_inj hsplit (hposition.symm.trans hoffset)
    constructor
    · rw [hr]
    · intro hmem
      obtain ⟨r', hr', hkey⟩ := List.mem_map.mp hmem
      exact hafter r' hr' hkey
  · rintro ⟨hdelete, hmem⟩
    have hlast : located start (before ++ r :: after) r.key = _ := located_last fun r' hr' hkey =>
      hmem (List.mem_map.mpr ⟨r', hr', hkey⟩)
    rw [hdelete, if_neg Bool.false_ne_true, hp, Option.some.injEq] at hlast
    rw [hlast]

/-- The cases of a record. -/
theorem copyRecord_eq (checkpointed : Bool) (target : FawnDS) :
    copyRecord hashes wanted (located start (before ++ r :: after)) checkpointed target
      (logEnd start before) r =
      if wanted r.key = false then some target
      else if r.deleteLog then
        if (located start (before ++ r :: after) r.key).isSome then
          rewriteDelete hashes checkpointed target r.key
        else some target
      else if r.key ∈ keysOf after then some target
      else rewriteInsert hashes target r.key r.value := by
  unfold copyRecord
  cases hwanted : wanted r.key with
  | false => simp
  | true =>
    simp only [Bool.not_true, Bool.false_eq_true, if_false]
    cases hp : located start (before ++ r :: after) r.key with
    | none =>
      cases hdelete : r.deleteLog with
      | true => simp
      | false =>
        -- an insert without a value in the map was deleted later
        have hmem : r.key ∈ keysOf after := by
          by_contra hnot
          have hlast : located start (before ++ r :: after) r.key = _ := located_last fun r' hr' hkey =>
            hnot (List.mem_map.mpr ⟨r', hr', hkey⟩)
          rw [hp, hdelete] at hlast
          cases hlast
        simp [hmem]
    | some p =>
      have hposition := located_position p hp
      simp only [hposition, Option.isSome_some, if_true]
      cases hdelete : r.deleteLog with
      | true => simp
      | false => by_cases hmem : r.key ∈ keysOf after <;> simp [hmem]

/-- The handler at the position of a record. -/
theorem rewriteRecord_eq (h : Logged hashes start old (before ++ r :: after))
    (hbound : old.header.dataInsertionPoint < 2 ^ 32) (startKey endKey : Dbid) (checkpointed : Bool)
    (target : FawnDS) :
    rewriteRecord hashes startKey endKey old checkpointed target (logEnd start before) =
      (copyRecord hashes (inRange startKey endKey) (located start (before ++ r :: after)) checkpointed target
        (logEnd start before) r).map fun target => (target, logEnd start before + r.size) := by
  have hrecord := h.image.hasRecord (by rw [h.maps.logEnd]; exact hbound)
  have hnext : logEnd start before + dataHeaderSize + r.header.dataLength + r.header.keyLength =
      logEnd start before + r.size := by
    simp only [LogRecord.header, LogRecord.size]
    omega
  have hread : FawnDSFlash.read old.datastore r.key (logEnd start before) [] = (true, r.value) := by
    rw [hrecord.read_own]
    by_cases hvalue : r.value = [] <;> simp [hvalue]
  unfold rewriteRecord copyRecord
  simp only [hrecord.readIntoHeader, hnext, hread]
  cases hrange : inRange startKey endKey r.key with
  | false => rfl
  | true =>
    simp only [Bool.not_true, Bool.false_eq_true, if_false]
    cases hi : old.findHashIndex hashes r.key with
    | none =>
      rw [(h.maps.findHashIndex_none r.key).mp hi]
      rfl
    | some i =>
      obtain ⟨v, hv, hexists⟩ := h.maps.findHashIndex_some hi
      simp only [hv, hexists, LogRecord.header, Bool.not_true, Bool.false_eq_true, if_false]
      by_cases hdelete : r.deleteLog = true
      · simp only [hdelete, if_true]
        cases rewriteDelete hashes checkpointed target r.key with
        | none => rfl
        | some target =>
          by_cases hoffset : (old.entry i).offset.toNat = logEnd start before <;> simp [hoffset]
      · simp only [hdelete]
        by_cases hoffset : (old.entry i).offset.toNat = logEnd start before <;> simp [hoffset]

end Records

/-- The records that are copied: of each wanted key that is live, the last. -/
def copied (wanted : Bytes → Bool) : List LogRecord → List LogRecord
  | [] => []
  | r :: after =>
    if wanted r.key = true ∧ r.deleteLog = false ∧ r.key ∉ keysOf after then r :: copied wanted after
    else copied wanted after

/-- The value the new store shows when the records `after` are still to be read. -/
def copiedValue (wanted : Bytes → Bool) (start : Nat) (before after : List LogRecord) (key : Bytes) :
    Option Bytes :=
  if wanted key = true ∧ key ∉ keysOf after then (located start before key).map Prod.snd else none

/-- The new store in the middle of a rewrite; `taken` are its used slots. -/
structure Copied (hashes : Hashes) (wanted : Bytes → Bool) (start : Nat) (size : UInt64) (target : FawnDS)
    (before after : List LogRecord) (taken : List Nat) : Prop where
  filled : ∃ t, Table hashes target t ∧ Packed t taken ∧
    ∀ k, (lookup (target.path hashes) t k).map Prod.snd = copiedValue wanted start before after k
  number : target.header.numberElements.toNat = taken.length
  bounded : ∀ i ∈ taken, i < size.toNat
  size_eq : target.header.hashtableSize = size

section Quiescent

variable {hashes : Hashes} {wanted : Bytes → Bool} {start : Nat} {size : UInt64} {target : FawnDS}
  {log before after : List LogRecord} {r : LogRecord} {taken : List Nat} {k v : Bytes}

theorem copiedValue_self : copiedValue wanted start before (r :: after) r.key = none := by
  simp [copiedValue, keysOf]

theorem copiedValue_skip (h : ¬(wanted r.key = true ∧ r.deleteLog = false ∧ r.key ∉ keysOf after)) (k : Bytes) :
    copiedValue wanted start (before ++ [r]) after k = copiedValue wanted start before (r :: after) k := by
  by_cases hk : k = r.key
  · subst hk
    rw [copiedValue_self, copiedValue, located_concat, applyRecord_self]
    cases hdelete : r.deleteLog with
    | true => simp
    | false => simpa [hdelete] using h
  · simp [copiedValue, located_concat, applyRecord_ne hk, keysOf, hk]

theorem copiedValue_copy (hwanted : wanted r.key = true) (hdelete : r.deleteLog = false)
    (hmem : r.key ∉ keysOf after) (k : Bytes) :
    copiedValue wanted start (before ++ [r]) after k =
      if k = r.key then some r.value else copiedValue wanted start before (r :: after) k := by
  by_cases hk : k = r.key
  · subst hk
    simp [copiedValue, hwanted, hmem, located_concat, hdelete]
  · simp [copiedValue, located_concat, applyRecord_ne hk, keysOf, hk]

theorem Copied.skip (h : Copied hashes wanted start size target before (r :: after) taken)
    (hr : ¬(wanted r.key = true ∧ r.deleteLog = false ∧ r.key ∉ keysOf after)) :
    Copied hashes wanted start size target (before ++ [r]) after taken := by
  obtain ⟨⟨t, htable, hpacked, hvalues⟩, hnumber, hbounded, hsize⟩ := h
  refine ⟨⟨t, htable, hpacked, fun k => ?_⟩, hnumber, hbounded, hsize⟩
  rw [hvalues, copiedValue_skip hr]

/-- Distinct slots do not outnumber the table. -/
theorem length_lt_of_notMem {n i : Nat} (hnodup : taken.Nodup) (hbounded : ∀ j ∈ taken, j < n) (hi : i < n)
    (hmem : i ∉ taken) : taken.length < n := by
  have hsub : i :: taken ⊆ List.range n := by
    intro j hj
    rcases List.mem_cons.mp hj with rfl | hj
    · exact List.mem_range.mpr hi
    · exact List.mem_range.mpr (hbounded j hj)
  have hle := (List.nodup_cons.mpr ⟨hmem, hnodup⟩).subperm hsub |>.length_le
  rw [List.length_cons, List.length_range] at hle
  exact hle

/-- A key that is not in the new store is inserted exactly if it has a place. -/
theorem Copied.insert_fst (h : Copied hashes wanted start size target before after taken)
    (hk : copiedValue wanted start before after k = none) (v : Bytes) :
    (target.insert hashes k v).1 = (place taken (probePath hashes size k)).isSome := by
  obtain ⟨⟨t, htable, hpacked, hvalues⟩, hnumber, hbounded, rfl⟩ := h
  have hfresh : ∀ i p, t i ≠ .live k p := by
    intro i p hp
    have hsome := lookup_isSome_of_live htable.reach hp
    rw [← Option.isSome_map (f := Prod.snd), hvalues, hk] at hsome
    cases hsome
  have hfind := htable.findHashIndexInsert_eq k
  rw [hpacked.findInsert_eq hfresh] at hfind
  unfold FawnDS.insert
  change (target.findHashIndexInsert hashes k).map Prod.fst = place taken (probePath hashes _ k) at hfind
  rw [← hfind]
  by_cases hfull : (target.header.numberElements == target.header.hashtableSize) = true
  · -- a full table has no free slot
    rw [if_pos hfull]
    cases hi : target.findHashIndexInsert hashes k with
    | none => rfl
    | some q =>
      rw [hi] at hfind
      obtain ⟨hnot, hmem⟩ := place_notMem hfind.symm
      have hlt := length_lt_of_notMem hpacked.nodup hbounded (htable.path_lt hmem) hnot
      rw [← hnumber, beq_iff_eq.mp hfull] at hlt
      exact absurd hlt (lt_irrefl _)
  · rw [if_neg hfull]
    cases target.findHashIndexInsert hashes k <;> rfl

/-- The insert of a current record. -/
theorem Copied.copy (h : Copied hashes wanted start size target before (r :: after) taken)
    (hr : wanted r.key = true ∧ r.deleteLog = false ∧ r.key ∉ keysOf after)
    (hok : (target.insert hashes r.key r.value).1 = true)
    (hbound : (target.insert hashes r.key r.value).2.header.dataInsertionPoint < 2 ^ 32) :
    ∃ i, place taken (probePath hashes size r.key) = some i ∧
      Copied hashes wanted start size (target.insert hashes r.key r.value).2 (before ++ [r]) after
        (i :: taken) := by
  obtain ⟨⟨t, htable, hpacked, hvalues⟩, hnumber, hbounded, rfl⟩ := h
  have hfresh : ∀ i p, t i ≠ .live r.key p := by
    intro i p hp
    have hsome := lookup_isSome_of_live htable.reach hp
    rw [← Option.isSome_map (f := Prod.snd), hvalues, copiedValue_self] at hsome
    cases hsome
  obtain ⟨i, newObj, hi, hidx, heq, htable'⟩ := htable.insert_true hok hbound
  have hplace : place taken (probePath hashes target.header.hashtableSize r.key) = some i := by
    rw [← hi, hpacked.findInsert_eq hfresh]
    rfl
  obtain ⟨hnot, hmem⟩ := place_notMem hplace
  have hlt := htable.path_lt hmem
  have hnew : newObj = true := by
    by_contra hold
    rw [Bool.eq_false_iff.mpr hold] at hidx
    obtain ⟨p, hp⟩ := live_of_oldObj htable.slots hidx
    exact hfresh i p hp
  have hlength := length_lt_of_notMem hpacked.nodup hbounded hlt hnot
  have hpath : FawnDS.path (target.insert hashes r.key r.value).2 hashes = target.path hashes := by
    rw [heq]
    exact path_eq rfl hashes
  refine ⟨i, hplace, ⟨_, htable', hpacked.insert hnot, fun k => ?_⟩, ?_, ?_, ?_⟩
  · rw [hpath, copiedValue_copy hr.1 hr.2.1 hr.2.2]
    by_cases hk : k = r.key
    · subst hk
      rw [lookup_insert_self hi, if_pos rfl]
      rfl
    · rw [lookup_insert_ne hi hk, if_neg hk, hvalues]
  · have hcount : (target.header.numberElements + 1).toNat = target.header.numberElements.toNat + 1 := by
      have hsize := target.header.hashtableSize.toNat_lt
      rw [UInt64.toNat_add, UInt64.toNat_one]
      omega
    rw [heq, hnew, List.length_cons, ← hnumber, ← hcount]
    rfl
  · intro j hj
    rcases List.mem_cons.mp hj with rfl | hj
    · exact hlt
    · exact hbounded j hj
  · rw [heq]
    rfl

/-- A current record is inserted if its key has a place. -/
theorem Copied.record_copy (h : Copied hashes wanted start size target before (r :: after) taken)
    (hr : wanted r.key = true ∧ r.deleteLog = false ∧ r.key ∉ keysOf after)
    (hbound : target.header.dataInsertionPoint + r.size < 2 ^ 32) :
    match place taken (probePath hashes size r.key) with
    | none => copyRecord hashes wanted (located start (before ++ r :: after)) false target
        (logEnd start before) r = none
    | some i => ∃ target', copyRecord hashes wanted (located start (before ++ r :: after)) false target
        (logEnd start before) r = some target' ∧
        target'.header.dataInsertionPoint = target.header.dataInsertionPoint + r.size ∧
        Copied hashes wanted start size target' (before ++ [r]) after (i :: taken) := by
  have hfst := h.insert_fst copiedValue_self r.value
  cases hplace : place taken (probePath hashes size r.key) with
  | none =>
    rw [hplace] at hfst
    rw [copyRecord_eq]
    simp [hr, rewriteInsert_eq, hfst]
  | some i =>
    rw [hplace] at hfst
    have hpoint : (target.insert hashes r.key r.value).2.header.dataInsertionPoint =
        target.header.dataInsertionPoint + r.size := by
      rw [insert_insertionPoint hfst, LogRecord.size]
      omega
    obtain ⟨j, hj, hcopied⟩ := h.copy hr hfst (by rw [hpoint]; exact hbound)
    rw [hplace, Option.some.injEq] at hj
    subst hj
    refine ⟨_, ?_, hpoint, hcopied⟩
    rw [copyRecord_eq]
    simp [hr, rewriteInsert_eq, hfst]

/-- A delete record of a live key ends the rewrite: its key is not in the new store. -/
theorem Copied.record_dead (h : Copied hashes wanted start size target before (r :: after) taken)
    (hdelete : r.deleteLog = true) (hwanted : wanted r.key = true)
    (hlive : (located start (before ++ r :: after) r.key).isSome) :
    copyRecord hashes wanted (located start (before ++ r :: after)) false target (logEnd start before) r =
      none := by
  obtain ⟨t, htable, -, hvalues⟩ := h.filled
  have hnone := hvalues r.key
  rw [copiedValue_self, Option.map_eq_none_iff] at hnone
  have hok := (htable.deleteWith false r.key).1
  rw [hnone] at hok
  rw [copyRecord_eq, rewriteDelete_eq]
  simp [hdelete, hwanted, hlive, hok]

/-- All other records are skipped. -/
theorem copyRecord_skip (hr : ¬(wanted r.key = true ∧ r.deleteLog = false ∧ r.key ∉ keysOf after))
    (hdead : r.deleteLog = true → wanted r.key = true → located start (before ++ r :: after) r.key = none) :
    copyRecord hashes wanted (located start (before ++ r :: after)) false target (logEnd start before) r =
      some target := by
  rw [copyRecord_eq]
  cases hwanted : wanted r.key with
  | false => simp
  | true =>
    cases hdelete : r.deleteLog with
    | true => simp [hdead hdelete hwanted]
    | false =>
      have hmem : r.key ∈ keysOf after := by
        by_contra hnot
        exact hr ⟨hwanted, hdelete, hnot⟩
      simp [hmem]

/-- A rewrite without concurrent updates returns a store exactly if no wanted live key has a delete
record and the copied keys fit, and then the store shows the wanted keys. -/
theorem Copied.fold (hlog : log = before ++ after)
    (h : Copied hashes wanted start size target before after taken)
    (hbound : logEnd target.header.dataInsertionPoint (copied wanted after) < 2 ^ 32) :
    ((∃ new, foldRecords (copyRecord hashes wanted (located start log) false) target
        (logEnd start before) after = some new) ↔
      (∀ r ∈ after, r.deleteLog = true → wanted r.key = true → located start log r.key = none) ∧
        Fits (probePath hashes size) taken ((copied wanted after).map LogRecord.key)) ∧
    ∀ new, foldRecords (copyRecord hashes wanted (located start log) false) target
        (logEnd start before) after = some new → ∃ taken, Copied hashes wanted start size new log [] taken := by
  induction after generalizing before target taken with
  | nil =>
    rw [List.append_nil] at hlog
    subst hlog
    refine ⟨⟨fun _ => ⟨by simp, trivial⟩, fun _ => ⟨target, rfl⟩⟩, fun new hnew => ?_⟩
    cases hnew
    exact ⟨taken, h⟩
  | cons r after ih =>
    have hsplit : log = before ++ [r] ++ after := by simp [hlog]
    have hnext : logEnd start before + r.size = logEnd start (before ++ [r]) := by
      rw [logEnd_append, logEnd_cons, logEnd_nil]
    rw [foldRecords, hnext]
    by_cases hr : wanted r.key = true ∧ r.deleteLog = false ∧ r.key ∉ keysOf after
    · -- the record is copied
      have hlive : r.deleteLog ≠ true := by simp [hr.2.1]
      rw [copied, if_pos hr, logEnd_cons] at hbound
      have hrecord := h.record_copy hr (lt_of_le_of_lt (le_logEnd _ _) hbound)
      rw [← hlog] at hrecord
      rw [copied, if_pos hr, List.map_cons, Fits]
      cases hplace : place taken (probePath hashes size r.key) with
      | none =>
        simp only [hplace] at hrecord
        simp [hrecord]
      | some i =>
        simp only [hplace] at hrecord
        obtain ⟨target', hact, hpoint, hcopied⟩ := hrecord
        rw [← hpoint] at hbound
        rw [hact, Option.bind_some]
        simpa [hlive] using ih hsplit hcopied hbound
    · rw [copied, if_neg hr] at hbound ⊢
      by_cases hdead : r.deleteLog = true → wanted r.key = true → located start log r.key = none
      · have hact : copyRecord hashes wanted (located start log) false target (logEnd start before) r =
            some target := by
          rw [hlog] at hdead ⊢
          exact copyRecord_skip hr hdead
        rw [hact, Option.bind_some]
        have hrest := ih hsplit (h.skip hr) hbound
        simp only [List.mem_cons, forall_eq_or_imp]
        rw [and_iff_right hdead]
        exact hrest
      · -- a delete record of a live key
        have hnone : copyRecord hashes wanted (located start log) false target
            (logEnd start before) r = none := by
          push Not at hdead
          rw [hlog] at hdead ⊢
          exact h.record_dead hdead.1 hdead.2.1 (Option.isSome_iff_ne_none.mpr hdead.2.2)
        rw [hnone]
        constructor
        · constructor
          · rintro ⟨new, hnew⟩
            cases hnew
          · rintro ⟨hall, -⟩
            exact absurd (hall r (List.mem_cons_self ..)) hdead
        · intro new hnew
          cases hnew

theorem copied_create (hashes : Hashes) (wanted : Bytes → Bool) (start : Nat) (log : List LogRecord)
    (headerSize : Nat) {n : Nat} (hn : 3 ≤ n) (hsize : size.toNat = 2 ^ n) :
    Copied hashes wanted start size (create headerSize size) [] log [] := by
  refine ⟨⟨_, table_create headerSize hn hsize, packed_nil, fun k => ?_⟩, rfl, by simp, rfl⟩
  simp [copiedValue, located, replay, lookup, List.find?_eq_none.mpr]

/-- `Get` of the new store. -/
theorem Copied.get {len : Nat} (h : Copied hashes wanted start size target log [] taken)
    (hlog : ∀ r ∈ log, r.key.length = len) (hk : k.length = len) :
    target.get hashes k [] = if wanted k then found ((located start log k).map Prod.snd) else (false, []) := by
  obtain ⟨t, htable, -, hvalues⟩ := h.filled
  have hmaps : Maps hashes target (lookup (target.path hashes) t) := ⟨t, htable, fun _ => rfl⟩
  have hlength : ∀ k', (lookup (target.path hashes) t k').isSome → k'.length = k.length := by
    intro k' hsome
    rw [← Option.isSome_map (f := Prod.snd), hvalues, copiedValue] at hsome
    split at hsome
    · rw [Option.isSome_map] at hsome
      rw [hk, key_length_of_isSome hlog k' hsome]
    · cases hsome
  rw [hmaps.get hlength, hvalues, copiedValue]
  by_cases hwanted : wanted k = true <;> simp [hwanted, keysOf, found]

end Quiescent

/-- The counters of a store that calls have made give a table that is a power of two. -/
theorem maxEntries_of_run (hashes : Hashes) (headerSize : Nat) {size : UInt64} {n : Nat} (hn : 3 ≤ n)
    (hsize : size.toNat = 2 ^ n) (ops : List Op)
    (hbound : (run hashes (create headerSize size) ops).2.header.dataInsertionPoint < 2 ^ 32) :
    ∃ m, 3 ≤ m ∧ (maxEntries (run hashes (create headerSize size) ops).2.header).toNat = 2 ^ m := by
  have hlogged := logged_create hashes headerSize hn hsize
  have hcounted : Counted (run hashes (create headerSize size) ops).2 _ :=
    (counted_create headerSize size).run hlogged ops hbound
  obtain ⟨hnumber, keys, -, hcard⟩ := hcounted
  have hpoint : headerSize + 6 * size.toNat ≤
      (run hashes (create headerSize size) ops).2.header.dataInsertionPoint :=
    run_insertionPoint ops (create headerSize size)
  have hold : (run hashes (create headerSize size) ops).2.header.hashtableSize.toNat = size.toNat :=
    congrArg UInt64.toNat (run_hashtableSize ops (create headerSize size))
  apply maxEntries_toNat hn (hold.trans hsize)
  · omega
  · exact hnumber
  · omega

/-- `Rewrite` of a store that any calls on keys of one length have made, without concurrent updates,
returns a store with the keys in the range exactly if no live key of the range has a delete record
in the log and the copied keys fit into the new table in the order of their records. -/
theorem rewrite_quiescent_iff (hashes : Hashes) (headerSize : Nat) (size : UInt64) (n : Nat) (hn : 3 ≤ n)
    (hsize : size.toNat = 2 ^ n) (len : Nat) (ops : List Op) (hkeys : ∀ op ∈ ops, op.key.length = len)
    (startKey endKey : Dbid) (fuel : Nat) :
    let made := run hashes (create headerSize size) ops
    let old := made.2
    let live := copied (inRange startKey endKey) (records made.1)
    old.header.dataInsertionPoint < 2 ^ 32 →
    logEnd (headerSize + 6 * (maxEntries old.header).toNat) live < 2 ^ 32 →
    (records made.1).length + 3 ≤ fuel →
    let s := rewrite hashes headerSize startKey endKey old (headerSize + 6 * size.toNat) fuel
    s.Returned ∧
      ((∃ new, s.result = some new ∧ ∀ k, k.length = len → new.get hashes k [] =
          if inRange startKey endKey k then old.get hashes k [] else (false, [])) ↔
        (∀ r ∈ records made.1, r.deleteLog = true → inRange startKey endKey r.key = true →
          old.get hashes r.key [] = (false, [])) ∧
        Fits (probePath hashes (maxEntries old.header)) [] (live.map LogRecord.key)) := by
  intro made old live hbound hnewbound hfuel
  have hold : Logged hashes (headerSize + 6 * size.toNat) old (records made.1) :=
    (logged_create hashes headerSize hn hsize).run ops hbound
  have hlog : ∀ r ∈ records made.1, r.key.length = len := fun r => key_of_mem_records hkeys
  obtain ⟨m, hm, hnewsize⟩ := maxEntries_of_run hashes headerSize hn hsize ops hbound
  have hhandles : Handles (rewriteRecord hashes startKey endKey old)
      (copyRecord hashes (inRange startKey endKey) (located (headerSize + 6 * size.toNat)
        (records made.1)) false)
      (headerSize + 6 * size.toNat) (records made.1) := by
    intro before r after hsplit target
    rw [hsplit] at hold ⊢
    exact rewriteRecord_eq hold hbound startKey endKey false target
  obtain ⟨hreturned, hresult⟩ := scan_quiescent (rewriteTarget headerSize old) hhandles hfuel
  rw [← hold.logEnd] at hreturned hresult
  have hfirst := copied_create hashes (inRange startKey endKey) (headerSize + 6 * size.toNat)
    (records made.1) headerSize hm hnewsize
  obtain ⟨hiff, hcopied⟩ := hfirst.fold (List.nil_append _).symm hnewbound
  refine ⟨hreturned, fun hagree => ?_, fun ⟨hdead, hfits⟩ => ?_⟩
  · obtain ⟨new, hnew, -⟩ := hagree
    obtain ⟨hdead, hfits⟩ := hiff.mp ⟨new, hresult.symm.trans hnew⟩
    refine ⟨fun r hr hdelete hrange => ?_, hfits⟩
    rw [hold.get_eq hlog (hlog r hr), hdead r hr hdelete hrange]
    rfl
  · have hnone : ∀ r ∈ records made.1, r.deleteLog = true → inRange startKey endKey r.key = true →
        located (headerSize + 6 * size.toNat) (records made.1) r.key = none := by
      intro r hr hdelete hrange
      have hget := hdead r hr hdelete hrange
      rw [hold.get_eq hlog (hlog r hr), found_eq_false, Option.map_eq_none_iff] at hget
      exact hget
    obtain ⟨new, hnew⟩ := hiff.mpr ⟨hnone, hfits⟩
    obtain ⟨taken, hlast⟩ := hcopied new hnew
    refine ⟨new, hresult.trans hnew, fun k hk => ?_⟩
    rw [hlast.get hlog hk, hold.get_eq hlog hk]

/-- Two keys, one of them overwritten and one deleted, in a table of eight slots. -/
theorem rewrite_quiescent_three_records :
    let made := run (fun _ _ => 5) (create 0 8) [.insert [2] [20], .insert [3] [30],
        .insert [2] [21], .delete [3]]
    ∃ new, (rewrite (fun _ _ => 5) 0 (.init [1]) (.init [8]) made.2 48 7).result = some new ∧
      ∀ k, k.length = 1 → new.get (fun _ _ => 5) k [] =
        if inRange (.init [1]) (.init [8]) k then made.2.get (fun _ _ => 5) k [] else (false, []) := by
  have hspec := rewrite_quiescent_iff (fun _ _ => 5) 0 8 3 (by decide) rfl 1
    [.insert [2] [20], .insert [3] [30], .insert [2] [21], .delete [3]] (by decide) (.init [1]) (.init [8]) 7
    (by decide) (by decide) (by decide)
  rw [show 0 + 6 * UInt64.toNat 8 = 48 from rfl] at hspec
  exact hspec.2.mpr ⟨by decide, trivial⟩

/-- A key that is deleted and inserted again: the delete record ends the rewrite. -/
theorem rewrite_fails_after_delete :
    let made := run (fun _ _ => 5) (create 4096 8) [.insert [2] [20], .delete [2], .insert [2] [21]]
    made.2.get (fun _ _ => 5) [2] [] = (true, [21]) ∧
      (rewrite (fun _ _ => 5) 4096 (.init [1]) (.init [8]) made.2 4144 6).pc = .failed := by
  decide +kernel

end FawnKV.Fawn
