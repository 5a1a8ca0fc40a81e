import FawnKV.Fawn.Dbid
import FawnKV.Fawn.Scan

/-! `Merge` and `Split`: the log of one store is replayed on another. -/
namespace FawnKV.Fawn

open ByteFile OpenAddressing FawnDS

/-- The body of the inner loop of `SplitMergeHelper`. Delete records come before the range test; a
failed insert is only reported. -/
def splitMergeRecord (hashes : Hashes) (startKey endKey : Dbid) (merge : Bool) (source : FawnDS) :
    RecordHandler := fun checkpointed target offset =>
  match FawnDSFlash.readIntoHeader source.datastore offset with
  | none => none
  | some (dataHeader, key) =>
    let next := offset + dataHeaderSize + dataHeader.keyLength + dataHeader.dataLength
    if dataHeader.deleteLog then
      match target.deleteWith hashes checkpointed key with
      | (true, target) => some (target, next)
      | (false, _) => none
    else
      let data := (FawnDSFlash.read source.datastore key offset []).2
      if inRange startKey endKey key then some ((target.insert hashes key data).2, next)
      else if merge then some ((target.insert hashes key data).2, next)
      else some (target, next)

/-- `source.SplitMergeHelper(target, NULL, merge)` after a number of steps of its loops; the range is
that of the target. -/
def splitMergeHelper (hashes : Hashes) (startKey endKey : Dbid) (merge : Bool) (source : FawnDS)
    (start : Nat) (target : FawnDS) (fuel : Nat) : Scan :=
  (Scan.step (splitMergeRecord hashes startKey endKey merge source)
    source.header.dataInsertionPoint)^[fuel] (Scan.init target start)

/-- `target.Merge(source)`. -/
def merge (hashes : Hashes) (startKey endKey : Dbid) (target source : FawnDS) (start fuel : Nat) : Scan :=
  splitMergeHelper hashes startKey endKey true source start target fuel

/-- `source.Split(target)`. -/
def split (hashes : Hashes) (startKey endKey : Dbid) (source target : FawnDS) (start fuel : Nat) : Scan :=
  splitMergeHelper hashes startKey endKey false source start target fuel

/-- The replay of one record; the keys that are inserted are given by `wanted`. -/
def replayRecord (hashes : Hashes) (wanted : Bytes → Bool) (target : FawnDS) (_ : Nat) (r : LogRecord) :
    Option FawnDS :=
  if r.deleteLog then
    match target.deleteWith hashes false r.key with
    | (true, target) => some target
    | (false, _) => none
  else if wanted r.key then some (target.insert hashes r.key r.value).2
  else some target

/-- There is room for the replay: no insert is refused, and the log stays below its limit. -/
def Room (hashes : Hashes) (wanted : Bytes → Bool) : FawnDS → List LogRecord → Prop
  | _, [] => True
  | target, r :: log =>
    if r.deleteLog then Room hashes wanted (target.deleteWith hashes false r.key).2 log
    else if wanted r.key then
      (target.insert hashes r.key r.value).1 = true ∧
        (target.insert hashes r.key r.value).2.header.dataInsertionPoint < 2 ^ 32 ∧
        Room hashes wanted (target.insert hashes r.key r.value).2 log
    else Room hashes wanted target log

instance decidableRoom (hashes : Hashes) (wanted : Bytes → Bool) :
    (target : FawnDS) → (log : List LogRecord) → Decidable (Room hashes wanted target log)
  | _, [] => isTrue trivial
  | target, r :: log =>
    have := decidableRoom hashes wanted target log
    have := decidableRoom hashes wanted (target.deleteWith hashes false r.key).2 log
    have := decidableRoom hashes wanted (target.insert hashes r.key r.value).2 log
    inferInstanceAs (Decidable (
      if r.deleteLog then Room hashes wanted (target.deleteWith hashes false r.key).2 log
      else if wanted r.key then
        (target.insert hashes r.key r.value).1 = true ∧
          (target.insert hashes r.key r.value).2.header.dataInsertionPoint < 2 ^ 32 ∧
          Room hashes wanted (target.insert hashes r.key r.value).2 log
      else Room hashes wanted target log))

section Replay

variable {hashes : Hashes} {startKey endKey : Dbid} {source target : FawnDS} {start fuel : Nat}
  {log before after : List LogRecord} {r : LogRecord} {wanted : Bytes → Bool} {key : Bytes}
  {m base : Bytes → Option (Nat × Bytes)}

/-- The handler replays the records of the source's log. -/
theorem handles_splitMerge (h : Logged hashes start source log)
    (hbound : source.header.dataInsertionPoint < 2 ^ 32) (startKey endKey : Dbid) (merge : Bool) :
    Handles (splitMergeRecord hashes startKey endKey merge source)
      (replayRecord hashes fun key => inRange startKey endKey key || merge) start log := by
  intro before r after hsplit target
  have himage := h.image
  rw [hsplit] at himage
  have hrecord := himage.hasRecord (by rw [h.maps.logEnd]; exact hbound)
  have hnext : logEnd start before + dataHeaderSize + r.header.keyLength + r.header.dataLength =
      logEnd start before + r.size := by
    simp only [LogRecord.header, LogRecord.size]
    omega
  have hdata : (FawnDSFlash.read source.datastore r.key (logEnd start before) []).2 = r.value := by
    rw [hrecord.read_own]
    by_cases hvalue : r.value = [] <;> simp [hvalue]
  unfold splitMergeRecord replayRecord
  simp only [hrecord.readIntoHeader, hnext, hdata]
  cases hdelete : r.deleteLog with
  | true =>
    simp only [LogRecord.header, hdelete, if_true]
    cases target.deleteWith hashes false r.key with
    | mk ok target' => cases ok <;> rfl
  | false =>
    simp only [LogRecord.header, hdelete, Bool.false_eq_true, if_false]
    by_cases hrange : inRange startKey endKey r.key = true
    · simp [hrange]
    · cases merge <;> simp [hrange]

/-- The target shows the replayed records of the wanted keys over its first map. -/
structure Replayed (hashes : Hashes) (wanted : Bytes → Bool) (start : Nat) (base : Bytes → Option (Nat × Bytes))
    (target : FawnDS) (log : List LogRecord) (m : Bytes → Option (Nat × Bytes)) : Prop where
  maps : Maps hashes target m
  values : ∀ key, (m key).map Prod.snd =
    if wanted key = true ∧ key ∈ keysOf log then (located start log key).map Prod.snd
    else (base key).map Prod.snd

/-- One wanted record. -/
theorem Replayed.concat {m' : Bytes → Option (Nat × Bytes)} {target' : FawnDS}
    (h : Replayed hashes wanted start base target log m) (hmaps : Maps hashes target' m')
    (hwanted : wanted r.key = true)
    (hself : (m' r.key).map Prod.snd = if r.deleteLog then none else some r.value)
    (hother : ∀ key, key ≠ r.key → m' key = m key) :
    Replayed hashes wanted start base target' (log ++ [r]) m' := by
  refine ⟨hmaps, fun key => ?_⟩
  simp only [located_concat, keysOf_concat]
  by_cases hkey : key = r.key
  · subst hkey
    have hcond : wanted r.key = true ∧ (r.key ∈ keysOf log ∨ r.key = r.key) := ⟨hwanted, Or.inr rfl⟩
    rw [if_pos hcond, hself, applyRecord_self]
    cases r.deleteLog <;> rfl
  · rw [hother key hkey, h.values key, applyRecord_ne hkey]
    simp [hkey]

/-- A record of a key that is not wanted. -/
theorem Replayed.skip (h : Replayed hashes wanted start base target log m) (hwanted : wanted r.key = false) :
    Replayed hashes wanted start base target (log ++ [r]) m := by
  refine ⟨h.maps, fun key => ?_⟩
  rw [h.values key]
  simp only [located_concat, keysOf_concat]
  by_cases hkey : key = r.key
  · subst hkey
    simp [hwanted]
  · simp [hkey, applyRecord_ne hkey]

/-- The replay of one record whose insert has room. -/
theorem Replayed.record (h : Replayed hashes wanted start base target before m)
    (hproper : Proper start (before ++ r :: after)) (hroom : Room hashes wanted target (r :: after))
    (hrecord : r.deleteLog = true → wanted r.key = true) (offset : Nat) :
    ∃ target' m', replayRecord hashes wanted target offset r = some target' ∧
      Replayed hashes wanted start base target' (before ++ [r]) m' ∧ Room hashes wanted target' after := by
  unfold replayRecord
  unfold Room at hroom
  cases hdelete : r.deleteLog with
  | true =>
    have hwanted := hrecord hdelete
    -- the delete follows an insert of its key, which was replayed
    have hpresent := (hproper before r after rfl hdelete).2
    have hvalue := h.values r.key
    rw [if_pos ⟨hwanted, mem_keysOf_of_isSome hpresent⟩] at hvalue
    have hsome : (m r.key).isSome := by
      rw [← Option.isSome_map (f := Prod.snd), hvalue, Option.isSome_map]
      exact hpresent
    have hok := (h.maps.deleteWith_iff false r.key).mpr hsome
    obtain ⟨hmaps, -⟩ := h.maps.deleteWith hok
    rw [if_pos hdelete] at hroom
    refine ⟨_, _, ?_, h.concat hmaps hwanted ?_ ?_, hroom⟩
    · generalize target.deleteWith hashes false r.key = d at hok
      obtain ⟨ok, target'⟩ := d
      cases hok
      simp
    · rw [Function.update_self, hdelete]
      rfl
    · intro key hkey
      exact Function.update_of_ne hkey _ _
  | false =>
    rw [if_neg (by simp [hdelete])] at hroom
    cases hwanted : wanted r.key with
    | true =>
      rw [if_pos hwanted] at hroom
      obtain ⟨hok, hbound, hroom⟩ := hroom
      obtain ⟨hmaps, -⟩ := h.maps.insert hok hbound
      refine ⟨_, _, by simp, h.concat hmaps hwanted ?_ ?_, hroom⟩
      · rw [Function.update_self, hdelete]
        rfl
      · intro key hkey
        exact Function.update_of_ne hkey _ _
    | false =>
      rw [if_neg (by simp [hwanted])] at hroom
      exact ⟨target, m, by simp, h.skip hwanted, hroom⟩

/-- The whole replay, when every delete record is of a wanted key. -/
theorem Replayed.fold (h : Replayed hashes wanted start base target before m)
    (hproper : Proper start (before ++ after)) (hroom : Room hashes wanted target after)
    (hrecords : ∀ r ∈ after, r.deleteLog = true → wanted r.key = true) (offset : Nat) :
    ∃ target' m', foldRecords (replayRecord hashes wanted) target offset after = some target' ∧
      Replayed hashes wanted start base target' (before ++ after) m' := by
  induction after generalizing before target m offset with
  | nil => exact ⟨target, m, rfl, by simpa using h⟩
  | cons r after ih =>
    obtain ⟨target', m', hact, hreplayed, hroom'⟩ :=
      h.record hproper hroom (hrecords r (List.mem_cons_self ..)) offset
    have hsplit : before ++ r :: after = before ++ [r] ++ after := by simp
    rw [hsplit] at hproper ⊢
    obtain ⟨target'', m'', hfold, hlast⟩ :=
      ih hreplayed hproper hroom' (fun r' hr' => hrecords r' (List.mem_cons_of_mem _ hr')) (offset + r.size)
    refine ⟨target'', m'', ?_, hlast⟩
    rw [foldRecords, hact]
    exact hfold

/-- The replay fails at a delete record of a key that is not wanted. -/
theorem Replayed.fold_none (h : Replayed hashes wanted start base target before m)
    (hproper : Proper start (before ++ after)) (hroom : Room hashes wanted target after)
    (hbase : ∀ key, wanted key = false → base key = none)
    (hrecord : ∃ r ∈ after, r.deleteLog = true ∧ wanted r.key = false) (offset : Nat) :
    foldRecords (replayRecord hashes wanted) target offset after = none := by
  induction after generalizing before target m offset with
  | nil =>
    obtain ⟨r, hr, -⟩ := hrecord
    cases hr
  | cons r after ih =>
    by_cases hfirst : r.deleteLog = true ∧ wanted r.key = false
    · obtain ⟨hdelete, hwanted⟩ := hfirst
      have habsent : m r.key = none := by
        have hvalue := h.values r.key
        rw [if_neg (by simp [hwanted]), hbase r.key hwanted] at hvalue
        simpa using hvalue
      have hok : (target.deleteWith hashes false r.key).1 = false := by
        apply Bool.eq_false_iff.mpr
        rw [ne_eq, h.maps.deleteWith_iff, habsent]
        simp
      rw [foldRecords, replayRecord, if_pos hdelete]
      generalize target.deleteWith hashes false r.key = d at hok
      obtain ⟨ok, target'⟩ := d
      cases hok
      rfl
    · have hgood : r.deleteLog = true → wanted r.key = true := by
        intro hdelete
        by_contra hnot
        exact hfirst ⟨hdelete, Bool.eq_false_iff.mpr hnot⟩
      obtain ⟨target', m', hact, hreplayed, hroom'⟩ := h.record hproper hroom hgood offset
      have hsplit : before ++ r :: after = before ++ [r] ++ after := by simp
      rw [hsplit] at hproper
      have hrest : ∃ r ∈ after, r.deleteLog = true ∧ wanted r.key = false := by
        obtain ⟨r', hr', hbad⟩ := hrecord
        rcases List.mem_cons.mp hr' with rfl | hr'
        · exact absurd hbad hfirst
        · exact ⟨r', hr', hbad⟩
      rw [foldRecords, hact]
      exact ih hreplayed hproper hroom' hrest (offset + r.size)

/-- Before the first record. -/
theorem replayed_nil (wanted : Bytes → Bool) (start : Nat) (h : Maps hashes target base) :
    Replayed hashes wanted start base target [] base :=
  ⟨h, fun key => by simp [keysOf]⟩

/-- `Get` of the target after the replay. -/
theorem Replayed.get {sourceValue targetValue : Bool × Bytes}
    (h : Replayed hashes wanted start base target log m)
    (hkeys : ∀ key', (m key').isSome → key'.length = key.length)
    (hsource : sourceValue = found ((located start log key).map Prod.snd))
    (htarget : targetValue = found ((base key).map Prod.snd)) :
    target.get hashes key [] =
      if wanted key = true ∧ key ∈ keysOf log then sourceValue else targetValue := by
  rw [h.maps.get hkeys, h.values key, hsource, htarget]
  split <;> rfl

theorem Replayed.key_length {len : Nat} (h : Replayed hashes wanted start base target log m)
    (hlog : ∀ r ∈ log, r.key.length = len) (hbase : ∀ key, (base key).isSome → key.length = len) :
    ∀ key, (m key).isSome → key.length = len := by
  intro key hkey
  have hvalue := h.values key
  by_cases hin : key ∈ keysOf log
  · obtain ⟨r, hr, rfl⟩ := List.mem_map.mp hin
    exact hlog r hr
  · rw [if_neg (fun hand => hin hand.2)] at hvalue
    apply hbase
    rw [← Option.isSome_map (f := Prod.snd), ← hvalue, Option.isSome_map]
    exact hkey

/-- The replay of the whole log of a store on another. -/
theorem get_of_fold {len startT : Nat} {logT : List LogRecord} (h : Logged hashes start source log)
    (hT : Logged hashes startT target logT) (hlog : ∀ r ∈ log, r.key.length = len)
    (hlogT : ∀ r ∈ logT, r.key.length = len) (hroom : Room hashes wanted target log)
    (hrecords : ∀ r ∈ log, r.deleteLog = true → wanted r.key = true) :
    ∃ target', foldRecords (replayRecord hashes wanted) target start log = some target' ∧
      ∀ k, k.length = len → target'.get hashes k [] =
        if wanted k = true ∧ k ∈ keysOf log then source.get hashes k [] else target.get hashes k [] := by
  obtain ⟨target', m, hfold, hreplayed⟩ :=
    (replayed_nil wanted start hT.maps).fold (by simpa using h.proper) hroom hrecords start
  refine ⟨target', hfold, fun k hk => ?_⟩
  rw [List.nil_append] at hreplayed
  have hlength := hreplayed.key_length hlog (key_length_of_isSome hlogT)
  apply hreplayed.get
  · rw [hk]
    exact hlength
  · exact h.get_eq hlog hk
  · exact hT.get_eq hlogT hk

end Replay

/-- `Merge` of two stores that any calls on keys of one length have made takes over the other store's
view of the keys in its log, if the table has room. `Split` into an empty store restricts to the
range exactly if every delete in the log is of a key in the range. -/
theorem merge_split_iff (hashes : Hashes) (headerSizeA headerSizeB : Nat) (sizeA sizeB : UInt64) (nA nB : Nat)
    (hnA : 3 ≤ nA) (hnB : 3 ≤ nB) (hsizeA : sizeA.toNat = 2 ^ nA) (hsizeB : sizeB.toNat = 2 ^ nB)
    (len : Nat) (opsA opsB : List Op) (hkeysA : ∀ op ∈ opsA, op.key.length = len)
    (hkeysB : ∀ op ∈ opsB, op.key.length = len) (startKey endKey : Dbid) (fuel : Nat) :
    let madeA := run hashes (create headerSizeA sizeA) opsA
    let madeB := run hashes (create headerSizeB sizeB) opsB
    let a := madeA.2
    let b := madeB.2
    a.header.dataInsertionPoint < 2 ^ 32 → b.header.dataInsertionPoint < 2 ^ 32 →
    (Room hashes (fun _ => true) a (records madeB.1) → (records madeB.1).length + 3 ≤ fuel →
      ∃ a', (merge hashes startKey endKey a b (headerSizeB + 6 * sizeB.toNat) fuel).result = some a' ∧
        ∀ k, k.length = len → a'.get hashes k [] =
          if k ∈ keysOf (records madeB.1) then b.get hashes k [] else a.get hashes k []) ∧
    ((∀ k, k.length = len → b.get hashes k [] = (false, [])) →
      Room hashes (inRange startKey endKey) b (records madeA.1) → (records madeA.1).length + 3 ≤ fuel →
      let s := split hashes startKey endKey a b (headerSizeA + 6 * sizeA.toNat) fuel
      s.Returned ∧
        ((∃ b', s.result = some b' ∧ ∀ k, k.length = len → b'.get hashes k [] =
            if inRange startKey endKey k then a.get hashes k [] else (false, [])) ↔
          ∀ r ∈ records madeA.1, r.deleteLog = true → inRange startKey endKey r.key = true)) := by
  intro madeA madeB a b hboundA hboundB
  have hA : Logged hashes (headerSizeA + 6 * sizeA.toNat) a (records madeA.1) :=
    (logged_create hashes headerSizeA hnA hsizeA).run opsA hboundA
  have hB : Logged hashes (headerSizeB + 6 * sizeB.toNat) b (records madeB.1) :=
    (logged_create hashes headerSizeB hnB hsizeB).run opsB hboundB
  have hlogA : ∀ r ∈ records madeA.1, r.key.length = len := fun r => key_of_mem_records hkeysA
  have hlogB : ∀ r ∈ records madeB.1, r.key.length = len := fun r => key_of_mem_records hkeysB
  refine ⟨fun hroom hfuel => ?_, fun hempty hroom hfuel => ?_⟩
  · have hhandles := handles_splitMerge hB hboundB startKey endKey true
    simp only [Bool.or_true] at hhandles
    obtain ⟨-, hresult⟩ := scan_quiescent a hhandles hfuel
    rw [← hB.logEnd] at hresult
    obtain ⟨a', hfold, hget⟩ := get_of_fold hB hA hlogB hlogA hroom (fun _ _ _ => rfl)
    refine ⟨a', hresult.trans hfold, fun k hk => ?_⟩
    simpa using hget k hk
  · have hhandles := handles_splitMerge hA hboundA startKey endKey false
    simp only [Bool.or_false] at hhandles
    obtain ⟨hreturned, hresult⟩ := scan_quiescent b hhandles hfuel
    rw [← hA.logEnd] at hreturned hresult
    refine ⟨hreturned, fun hsplit r hr hdelete => ?_, fun hrecords => ?_⟩
    · -- a delete of another key fails, for the target never had it
      by_contra hrange
      have hfold := (replayed_nil (inRange startKey endKey) (headerSizeA + 6 * sizeA.toNat) hB.maps).fold_none
        (by simpa using hA.proper) hroom (fun key _ => hB.located_of_get_false hlogB hempty key)
        ⟨r, hr, hdelete, by simpa using hrange⟩ (headerSizeA + 6 * sizeA.toNat)
      obtain ⟨b', hb', -⟩ := hsplit
      cases hb'.symm.trans (hresult.trans hfold)
    · obtain ⟨b', hfold, hget⟩ := get_of_fold hA hB hlogA hlogB hroom hrecords
      refine ⟨b', hresult.trans hfold, fun k hk => ?_⟩
      rw [hget k hk, hempty k hk]
      by_cases hmem : k ∈ keysOf (records madeA.1)
      · simp [hmem]
      · have habsent : a.get hashes k [] = (false, []) := hA.get_of_notMem hlogA hk hmem
        simp [habsent]

/-- Two inserts and a delete, in a table of eight slots. -/
def madeCalls : List Op := [.insert [2] [20], .insert [3] [30], .delete [3]]

/-- A merge of one key, and a split in which the deleted key is in the range. -/
theorem merge_split_two_keys :
    (∃ a', (merge (fun _ _ => 5) (.init [1]) (.init [8])
        (run (fun _ _ => 5) (create 0 8) [.insert [4] [40]]).2 (run (fun _ _ => 5) (create 0 8) madeCalls).2
        48 6).result = some a' ∧
      ∀ k, k.length = 1 → a'.get (fun _ _ => 5) k [] =
        if k ∈ keysOf (records (run (fun _ _ => 5) (create 0 8) madeCalls).1) then
          (run (fun _ _ => 5) (create 0 8) madeCalls).2.get (fun _ _ => 5) k []
        else (run (fun _ _ => 5) (create 0 8) [.insert [4] [40]]).2.get (fun _ _ => 5) k []) ∧
    (∃ b', (split (fun _ _ => 5) (.init [1]) (.init [8]) (run (fun _ _ => 5) (create 0 8) madeCalls).2
        (create 0 8) 48 6).result = some b' ∧
      ∀ k, k.length = 1 → b'.get (fun _ _ => 5) k [] =
        if inRange (.init [1]) (.init [8]) k then
          (run (fun _ _ => 5) (create 0 8) madeCalls).2.get (fun _ _ => 5) k []
        else (false, [])) := by
  constructor
  · apply (merge_split_iff (fun _ _ => 5) 0 0 8 8 3 3 (by decide) (by decide) rfl rfl 1 [.insert [4] [40]]
      madeCalls (by decide) (by decide) (.init [1]) (.init [8]) 6 (by decide) (by decide)).1
    · exact ⟨rfl, by decide, rfl, by decide, trivial⟩
    · decide
  · apply ((merge_split_iff (fun _ _ => 5) 0 0 8 8 3 3 (by decide) (by decide) rfl rfl 1 madeCalls []
      (by decide) (by decide) (.init [1]) (.init [8]) 6 (by decide) (by decide)).2 ?_ ?_ ?_).2.mpr
    · decide
    · intro k hk
      have hcreate := logged_create (fun _ _ => 5) 0 (n := 3) (by decide) (show (8 : UInt64).toNat = 8 from rfl)
      exact hcreate.get_of_notMem (by simp) hk (by simp [keysOf])
    · exact ⟨rfl, by decide, rfl, by decide, trivial⟩
    · decide

/-- A key that was inserted and deleted, out of the range: `Split` fails. -/
theorem split_fails_at_delete :
    let made := run (fun _ _ => 5) (create 4096 8) [.insert [3] [30], .delete [3]]
    Room (fun _ _ => 5) (inRange (.init [1]) (.init [2])) (create 4096 8) (records made.1) ∧
      (split (fun _ _ => 5) (.init [1]) (.init [2]) made.2 (create 4096 8) 4144 5).pc = .failed := by
  decide +kernel

end FawnKV.Fawn
