import FawnKV.Silt.Combi

/-! `FawnDS_Combi` refines a map while its stores are converted and merged. -/
namespace FawnKV.Silt.FawnDSCombi

open MergeTask

/-- The entry of a key a `Get` has found: a value, a tombstone (`some none`) or nothing. -/
def entryOf : FawnDSReturn × Value → Option (Option Value)
  | (.ok, v) => some (some v)
  | (.keyDeleted, _) => some none
  | _ => none

/-- The codes a store answers a `Get` with. -/
def Answered (r : FawnDSReturn × Value) : Prop :=
  r.1 = .ok ∨ r.1 = .keyDeleted ∨ r.1 = .keyNotFound

/-- The entry of a key by its last record. -/
def recordsEntry (recs : List Record) (k : Value) : Option (Option Value) :=
  (lastRecord recs k).map fun r => if r.deleted then none else some r.data

/-- The back store `b` holds exactly the sorted entries `puts`. -/
structure BackHolds {F M B : Type} (c : Lengths) (ch : Children F M B) (b : B)
    (puts : List (Value × Value)) : Prop where
  enumerate : ch.enumerateBack b = puts
  sorted : puts.Pairwise fun x y => x.1 < y.1
  lengths : ∀ e ∈ puts, e.1.length = c.keyLen ∧ e.2.length = c.dataLen
  answered : ∀ k, k.length = c.keyLen → Answered (ch.getBack b k)
  get : ∀ k, k.length = c.keyLen → entryOf (ch.getBack b k) = (puts.lookup k).map some

/-- The single-store contracts of the child stores, for keys of `key_len_` bytes: front and
middle stores are maps with tombstones, `Enumerate` lists records oldest first, `ConvertTo`
succeeds and keeps every `Get`, and the back store is a sorted map. -/
structure Contract {F M B : Type} (c : Lengths) (ch : Children F M B) : Prop where
  answered_front : ∀ f k, k.length = c.keyLen → Answered (ch.getFront f k)
  create_front : ∀ k, k.length = c.keyLen → entryOf (ch.getFront ch.createFront k) = none
  put_ok : ∀ f k v, k.length = c.keyLen → v.length = c.dataLen → (ch.putFront f k v).1 = .ok →
    ∀ k', k'.length = c.keyLen → entryOf (ch.getFront (ch.putFront f k v).2 k') =
      if k' = k then some (some v) else entryOf (ch.getFront f k')
  put_fail : ∀ f k v, k.length = c.keyLen → v.length = c.dataLen → (ch.putFront f k v).1 ≠ .ok →
    ∀ k', k'.length = c.keyLen → entryOf (ch.getFront (ch.putFront f k v).2 k') =
      entryOf (ch.getFront f k')
  delete_ok : ∀ f k, k.length = c.keyLen →
    (ch.deleteFront f k).1 = .ok ∨ (ch.deleteFront f k).1 = .keyNotFound →
    ∀ k', k'.length = c.keyLen → entryOf (ch.getFront (ch.deleteFront f k).2 k') =
      if k' = k then some none else entryOf (ch.getFront f k')
  delete_fail : ∀ f k, k.length = c.keyLen →
    ¬((ch.deleteFront f k).1 = .ok ∨ (ch.deleteFront f k).1 = .keyNotFound) →
    ∀ k', k'.length = c.keyLen → entryOf (ch.getFront (ch.deleteFront f k).2 k') =
      entryOf (ch.getFront f k')
  convert_ok : ∀ f, (ch.convertTo f).1 = .ok
  convert_get : ∀ f k, k.length = c.keyLen →
    ch.getMiddle (ch.convertTo f).2 k = ch.getFront f k
  answered_middle : ∀ m k, k.length = c.keyLen → Answered (ch.getMiddle m k)
  get_middle : ∀ m k, k.length = c.keyLen →
    entryOf (ch.getMiddle m k) = recordsEntry (ch.enumerateMiddle m) k
  enumerate_middle : ∀ m, ∀ r ∈ ch.enumerateMiddle m, WellFormed c r
  build_back : ∀ size puts, (puts.Pairwise fun x y => x.1 < y.1) →
    (∀ e ∈ puts, e.1.length = c.keyLen ∧ e.2.length = c.dataLen) →
    ∃ b, buildBack ch size puts = some b ∧ BackHolds c ch b puts

/-- The contract of one front store. -/
structure FrontLaws {F M B : Type} (c : Lengths) (ch : Children F M B) (f : F) : Prop where
  answered : ∀ k, k.length = c.keyLen → Answered (ch.getFront f k)
  put_ok : ∀ k v, k.length = c.keyLen → v.length = c.dataLen → (ch.putFront f k v).1 = .ok →
    ∀ k', k'.length = c.keyLen → entryOf (ch.getFront (ch.putFront f k v).2 k') =
      if k' = k then some (some v) else entryOf (ch.getFront f k')
  put_fail : ∀ k v, k.length = c.keyLen → v.length = c.dataLen → (ch.putFront f k v).1 ≠ .ok →
    ∀ k', k'.length = c.keyLen → entryOf (ch.getFront (ch.putFront f k v).2 k') =
      entryOf (ch.getFront f k')
  delete_ok : ∀ k, k.length = c.keyLen →
    (ch.deleteFront f k).1 = .ok ∨ (ch.deleteFront f k).1 = .keyNotFound →
    ∀ k', k'.length = c.keyLen → entryOf (ch.getFront (ch.deleteFront f k).2 k') =
      if k' = k then some none else entryOf (ch.getFront f k')
  delete_fail : ∀ k, k.length = c.keyLen →
    ¬((ch.deleteFront f k).1 = .ok ∨ (ch.deleteFront f k).1 = .keyNotFound) →
    ∀ k', k'.length = c.keyLen → entryOf (ch.getFront (ch.deleteFront f k).2 k') =
      entryOf (ch.getFront f k')
  convert_ok : (ch.convertTo f).1 = .ok
  convert_get : ∀ k, k.length = c.keyLen → ch.getMiddle (ch.convertTo f).2 k = ch.getFront f k

/-- The contract of one middle store. -/
structure MiddleLaws {F M B : Type} (c : Lengths) (ch : Children F M B) (m : M) : Prop where
  answered : ∀ k, k.length = c.keyLen → Answered (ch.getMiddle m k)
  enumerate : ∀ r ∈ ch.enumerateMiddle m, WellFormed c r

/-- No front store has an entry of the key. -/
def Unseen {F M B : Type} (ch : Children F M B) (k : Value) (stores : List (Nat × F)) : Prop :=
  ∀ p ∈ stores, entryOf (ch.getFront p.2 k) = none

/-- Middle stores, newest first, list of the key what `Get` finds, up to the first one that has it. -/
def Listed {F M B : Type} (ch : Children F M B) (k : Value) : List M → Prop
  | [] => True
  | m :: stores => entryOf (ch.getMiddle m k) = recordsEntry (ch.enumerateMiddle m) k ∧
      (entryOf (ch.getMiddle m k) = none → Listed ch k stores)

/-- The contract of the stores that are made: empty front stores and sorted back stores. -/
structure MadeLaws {F M B : Type} (c : Lengths) (ch : Children F M B) : Prop where
  create_front : ∀ k, k.length = c.keyLen → entryOf (ch.getFront ch.createFront k) = none
  build_back : ∀ size puts, (puts.Pairwise fun x y => x.1 < y.1) →
    (∀ e ∈ puts, e.1.length = c.keyLen ∧ e.2.length = c.dataLen) →
    ∃ b, buildBack ch size puts = some b ∧ BackHolds c ch b puts

/-- Every store in the stages keeps its contract, and `Enumerate` lists what `Get` finds where no newer
store has the key. -/
structure StageLaws {F M B : Type} (c : Lengths) (ch : Children F M B) (s : State F M B) : Prop where
  front : ∀ p ∈ s.stage0, FrontLaws c ch p.2
  middle : ∀ m ∈ s.stage1, MiddleLaws c ch m
  listed : ∀ k, k.length = c.keyLen → Unseen ch k s.stage0 → Listed ch k s.stage1

section Laws

variable {F M B : Type} {c : Lengths} {ch : Children F M B}

theorem Contract.front (hc : Contract c ch) (f : F) : FrontLaws c ch f where
  answered k := hc.answered_front f k
  put_ok k v := hc.put_ok f k v
  put_fail k v := hc.put_fail f k v
  delete_ok k := hc.delete_ok f k
  delete_fail k := hc.delete_fail f k
  convert_ok := hc.convert_ok f
  convert_get k := hc.convert_get f k

theorem Contract.middle (hc : Contract c ch) (m : M) : MiddleLaws c ch m where
  answered k := hc.answered_middle m k
  enumerate := hc.enumerate_middle m

theorem Contract.listed (hc : Contract c ch) {k : Value} (hk : k.length = c.keyLen) (stores : List M) :
    Listed ch k stores := by
  induction stores with
  | nil => trivial
  | cons m stores ih => exact ⟨hc.get_middle m k hk, fun _ => ih⟩

theorem Contract.made (hc : Contract c ch) : MadeLaws c ch := ⟨hc.create_front, hc.build_back⟩

theorem Contract.stages (hc : Contract c ch) (s : State F M B) : StageLaws c ch s :=
  ⟨fun p _ => hc.front p.2, fun m _ => hc.middle m, fun _ hk _ => hc.listed hk s.stage1⟩

end Laws

section Search

variable {F M B : Type} {c : Lengths} {ch : Children F M B} {k : Value}

theorem entryOf_eq_none {r : FawnDSReturn × Value} (h : Answered r) :
    entryOf r = none ↔ r.1 = .keyNotFound := by
  obtain ⟨code, v⟩ := r
  rcases h with h | h | h <;> simp only at h <;> subst h <;> simp [entryOf]

/-- The entry found by the search through a list of answers. -/
theorem entryOf_getLoop (rs : List (FawnDSReturn × Value)) (h : ∀ r ∈ rs, Answered r) :
    entryOf (getLoop rs) = rs.findSome? entryOf := by
  induction rs with
  | nil => rfl
  | cons r rs ih =>
    have hr := entryOf_eq_none (h r (by simp))
    rw [getLoop, List.findSome?_cons]
    by_cases hcode : r.1 = .keyNotFound
    · rw [if_neg (by simpa using hcode), hr.mpr hcode]
      exact ih fun r' hr' => h r' (List.mem_cons_of_mem _ hr')
    · rw [if_pos hcode]
      cases he : entryOf r with
      | none => exact absurd (hr.mp he) hcode
      | some e => rfl

theorem answered_getLoop (rs : List (FawnDSReturn × Value)) (h : ∀ r ∈ rs, Answered r) :
    Answered (getLoop rs) := by
  induction rs with
  | nil => exact .inr (.inr rfl)
  | cons r rs ih =>
    rw [getLoop]
    split
    · exact h r (by simp)
    · exact ih fun r' hr' => h r' (List.mem_cons_of_mem _ hr')

theorem lastRecord_append' (xs ys : List Record) (k : Value) :
    lastRecord (xs ++ ys) k = (lastRecord ys k).or (lastRecord xs k) := by
  simp [lastRecord, List.getLast?_append]

theorem recordsEntry_append (xs ys : List Record) (k : Value) :
    recordsEntry (xs ++ ys) k = (recordsEntry ys k).or (recordsEntry xs k) := by
  simp only [recordsEntry, lastRecord_append']
  cases lastRecord ys k <;> rfl

/-- The records of middle stores (newest first), oldest first. -/
def recordsOf (ch : Children F M B) (stores : List M) : List Record :=
  (stores.reverse.map ch.enumerateMiddle).flatten

/-- Searching middle stores newest first finds the last of all their records. -/
theorem recordsEntry_recordsOf {stores : List M} (h : Listed ch k stores) :
    stores.findSome? (fun m => entryOf (ch.getMiddle m k)) = recordsEntry (recordsOf ch stores) k := by
  induction stores with
  | nil => rfl
  | cons m stores ih =>
    have hrec : recordsOf ch (m :: stores) = recordsOf ch stores ++ ch.enumerateMiddle m := by
      simp [recordsOf]
    obtain ⟨hsame, hrest⟩ := h
    rw [hrec, recordsEntry_append, ← hsame, List.findSome?_cons]
    cases hentry : entryOf (ch.getMiddle m k) with
    | none => exact ih (hrest hentry)
    | some e => rfl

/-- The stores behind stores that do not have the key. -/
theorem Listed.drop {newer older : List M} (h : Listed ch k (newer ++ older))
    (hnone : newer.findSome? (fun m => entryOf (ch.getMiddle m k)) = none) : Listed ch k older := by
  induction newer with
  | nil => exact h
  | cons m newer ih =>
    rw [List.findSome?_eq_none_iff] at hnone
    have hm := hnone m List.mem_cons_self
    exact ih (h.2 hm) (List.findSome?_eq_none_iff.mpr fun m' hm' => hnone m' (List.mem_cons_of_mem m hm'))

theorem rightBiased_eq (recs : List Record) (back : List (Value × Value)) (k : Value) :
    rightBiased recs back k = ((recordsEntry recs k).or ((back.lookup k).map some)).join := by
  rw [rightBiased, recordsEntry]
  cases lastRecord recs k with
  | none => cases back.lookup k <;> rfl
  | some r => rfl

end Search

section Invariant

variable {F M B : Type} (c : Config) (ch : Children F M B) (uninit : Nat → UInt8)

/-- The value of the last `Put` of `k` that returned `OK`, unless a later `Delete` did. -/
def lastOk (log : List (Op × FawnDSReturn)) (k : Value) : Option Value :=
  log.foldl (fun cur e =>
    match e with
    | (.put key data, .ok) => if key = k then some data else cur
    | (.delete key, .ok) => if key = k then none else cur
    | _ => cur) none

/-- The entry of `k` found by searching the stages newest first. -/
def search (s : State F M B) (k : Value) : Option (Option Value) :=
  (s.stage0.findSome? fun p => entryOf (ch.getFront p.2 k)).or
    ((s.stage1.findSome? fun m => entryOf (ch.getMiddle m k)).or
      (s.stage2.findSome? fun b => entryOf (ch.getBack b k)))

/-- A conversion in progress works on the oldest front store, which is not the newest. -/
def ConvertInv (s : State F M B) : Prop :=
  match s.convertPc with
  | .idle => s.convertTasks = (if s.convertTaskRunning then 1 else 0) ∧
      (s.convertTaskRunning = true → c.store0LowWatermark < s.stage0.length)
  | .took a => s.convertTaskRunning = true ∧ s.convertTasks = 0 ∧
      c.store0LowWatermark < s.stage0.length ∧ ∃ f, s.stage0.getLast? = some (a, f)
  | .converted m => s.convertTaskRunning = true ∧ s.convertTasks = 0 ∧
      c.store0LowWatermark < s.stage0.length ∧ ∃ p, s.stage0.getLast? = some p ∧
        ∀ k, k.length = c.keyLen → ch.getMiddle m k = ch.getFront p.2 k
  | .swapped => s.convertTaskRunning = true ∧ s.convertTasks = 0

/-- The `n` oldest of the middle stores. -/
def oldest (stores : List M) (n : Nat) : List M := stores.drop (stores.length - n)

/-- The sorter has taken the records of the `n` oldest middle stores. -/
def Sorted (stores : List M) (n : Nat) (sorter : Option Sorter) : Prop :=
  Taking c.toLengths (sorter.getD (Sorter.create c.keyLen (1 + c.dataLen)))
    ((recordsOf ch (oldest stores n)).map (entry c.toLengths uninit)) ∧ (0 < n → sorter.isSome)

/-- What the back store lists, nothing when there is none. -/
def backEntries (backs : List B) : List (Value × Value) :=
  (backs.head?.map ch.enumerateBack).getD []

/-- A merge in progress works on the oldest middle stores; new ones only come in front. -/
def MergeInv (s : State F M B) : Prop :=
  match s.mergePc with
  | .idle => s.mergeTasks = (if s.mergeTaskRunning then 1 else 0) ∧
      (s.mergeTaskRunning = true → c.store1LowWatermark < s.stage1.length)
  | .sorting n sorter _ _ => s.mergeTaskRunning = true ∧ s.mergeTasks = 0 ∧
      c.store1LowWatermark < s.stage1.length ∧ n ≤ s.stage1.length ∧ Sorted c ch uninit s.stage1 n sorter
  | .picked m n sorter _ _ => s.mergeTaskRunning = true ∧ s.mergeTasks = 0 ∧
      c.store1LowWatermark < s.stage1.length ∧ n < s.stage1.length ∧
      s.stage1[s.stage1.length - 1 - n]? = some m ∧ Sorted c ch uninit s.stage1 n sorter
  | .sorted n sorter _ _ => s.mergeTaskRunning = true ∧ s.mergeTasks = 0 ∧
      0 < n ∧ n ≤ s.stage1.length ∧ Sorted c ch uninit s.stage1 n sorter
  | .merged b n => s.mergeTaskRunning = true ∧ s.mergeTasks = 0 ∧ n ≤ s.stage1.length ∧
      ∃ puts, BackHolds c.toLengths ch b puts ∧
        ∀ k, puts.lookup k = rightBiased (recordsOf ch (oldest s.stage1 n)) (backEntries ch s.stage2) k
  | .swapped => s.mergeTaskRunning = true ∧ s.mergeTasks = 0

/-- The invariant of every run: no assertion has failed, the tasks are where the stages allow
them to be, and the search finds the value of the last successful call. -/
structure Inv (s : State F M B) : Prop where
  running : s.aborted = false
  front : s.stage0 ≠ []
  nodup : (s.stage0.map (·.1)).Nodup
  back_le : s.stage2.length ≤ 1
  back : ∀ b ∈ s.stage2, ∃ puts, BackHolds c.toLengths ch b puts
  calls : ∀ call ∈ s.calls, call.key.length = c.keyLen ∧ call.data.length = c.dataLen
  convert : ConvertInv c ch s
  merge : MergeInv c ch uninit s
  visible : ∀ k, k.length = c.keyLen → (search ch s k).join = lastOk s.log k

end Invariant

section Steps

variable {F M B : Type} {c : Config} {ch : Children F M B} {uninit : Nat → UInt8}
  {s t : State F M B} {k : Value}

theorem lastOk_append (log : List (Op × FawnDSReturn)) (op : Op) (ret : FawnDSReturn) (k : Value) :
    lastOk (log ++ [(op, ret)]) k =
      match op, ret with
      | .put key data, .ok => if key = k then some data else lastOk log k
      | .delete key, .ok => if key = k then none else lastOk log k
      | _, _ => lastOk log k := by
  simp only [lastOk, List.foldl_append, List.foldl_cons, List.foldl_nil]
  cases op <;> cases ret <;> rfl

theorem lastOk_append_fail {op : Op} {ret : FawnDSReturn} (h : ret ≠ .ok)
    (log : List (Op × FawnDSReturn)) (k : Value) : lastOk (log ++ [(op, ret)]) k = lastOk log k := by
  rw [lastOk_append]
  cases op <;> cases ret <;> first | rfl | exact absurd rfl h

theorem create_inv (hm : MadeLaws c.toLengths ch) : Inv c ch uninit (create ch) := by
  constructor
  · rfl
  · simp [create]
  · simp [create]
  · simp [create]
  · simp [create]
  · simp [create]
  · exact ⟨rfl, by simp [create]⟩
  · exact ⟨rfl, by simp [create]⟩
  · intro k hk
    simp [create, search, hm.create_front k hk, lastOk]

/-- Writing the newest front store leaves the tasks alone. -/
theorem convertInv_front {a : Nat} {f f' : F} {rest : List (Nat × F)}
    (h0 : s.stage0 = (a, f) :: rest) (h : ConvertInv c ch s) :
    ConvertInv c ch { s with stage0 := (a, f') :: rest } := by
  have hlow := c.store0_low
  have hlast : ∀ p, c.store0LowWatermark < s.stage0.length → s.stage0.getLast? = some p →
      ((a, f') :: rest).getLast? = some p := by
    intro p hlen hp
    rw [h0] at hlen hp
    cases rest with
    | nil => simp at hlen; omega
    | cons q rest => simpa using hp
  have hlen : ((a, f') :: rest).length = s.stage0.length := by simp [h0]
  unfold ConvertInv at h ⊢
  cases hpc : s.convertPc with
  | idle => simpa [hpc, hlen] using h
  | took x =>
    simp only [hpc, hlen] at h ⊢
    obtain ⟨hrun, htask, hlt, g, hg⟩ := h
    exact ⟨hrun, htask, hlt, g, hlast _ hlt hg⟩
  | converted m =>
    simp only [hpc, hlen] at h ⊢
    obtain ⟨hrun, htask, hlt, p, hp, hget⟩ := h
    exact ⟨hrun, htask, hlt, p, hlast _ hlt hp, hget⟩
  | swapped => simpa [hpc] using h

/-- A call that writes the newest front store, or leaves all its entries, and logs accordingly. -/
theorem inv_writeFront {a : Nat} {f f' : F} {rest : List (Nat × F)} {calls : List Call}
    {log : List (Op × FawnDSReturn)} (h : Inv c ch uninit s) (h0 : s.stage0 = (a, f) :: rest)
    (hcalls : ∀ call ∈ calls, call.key.length = c.keyLen ∧ call.data.length = c.dataLen)
    (hentry : ∀ k, k.length = c.keyLen →
      (entryOf (ch.getFront f' k) = entryOf (ch.getFront f k) ∧ lastOk log k = lastOk s.log k) ∨
      ∃ e, entryOf (ch.getFront f' k) = some e ∧ lastOk log k = e) :
    Inv c ch uninit { s with stage0 := (a, f') :: rest, calls := calls, log := log } := by
  have hsearch : ∀ g k, search ch { s with stage0 := (a, g) :: rest } k =
      (entryOf (ch.getFront g k)).or (search ch { s with stage0 := rest } k) := by
    intro g k
    simp only [search, List.findSome?_cons]
    cases entryOf (ch.getFront g k) <;> rfl
  constructor
  · exact h.running
  · simp
  · simpa [h0] using h.nodup
  · exact h.back_le
  · exact h.back
  · exact hcalls
  · exact convertInv_front h0 h.convert
  · exact h.merge
  · intro k hk
    have hvis := h.visible k hk
    have hs : s = { s with stage0 := (a, f) :: rest } := by rw [← h0]
    show (search ch { s with stage0 := (a, f') :: rest } k).join = lastOk log k
    rw [hs, hsearch] at hvis
    rw [hsearch]
    rcases hentry k hk with ⟨hsame, hlog⟩ | ⟨e, he, hlog⟩
    · rw [hsame, hlog]
      exact hvis
    · rw [he, hlog]
      rfl

theorem put_inv {key data : Value} (h : Inv c ch uninit s) : Inv c ch uninit (put c s key data) := by
  unfold put
  split
  · refine { h with visible := fun k hk => ?_ }
    exact (h.visible k hk).trans (lastOk_append_fail (by decide) s.log k).symm
  · split
    · refine { h with visible := fun k hk => ?_ }
      exact (h.visible k hk).trans (lastOk_append_fail (by decide) s.log k).symm
    · refine { h with calls := fun call hcall => ?_ }
      rcases List.mem_append.mp hcall with hcall | hcall
      · exact h.calls call hcall
      · obtain rfl := List.mem_singleton.mp hcall
        exact ⟨Eq.symm (not_ne_iff.mp ‹_›), Eq.symm (not_ne_iff.mp ‹_›)⟩

theorem putTry_inv (hl : StageLaws c.toLengths ch s) {i : Nat} (h : Inv c ch uninit s)
    (hs : putTry ch s i = some t) : Inv c ch uninit t := by
  unfold putTry at hs
  split at hs
  case h_2 => cases hs
  case h_1 key data a front rest hcall h0 =>
    have hlen := h.calls _ (List.mem_of_getElem? hcall)
    have hfront : FrontLaws c.toLengths ch front := hl.front (a, front) (by rw [h0]; exact List.mem_cons_self)
    have hput := hfront.put_ok key data hlen.1 hlen.2
    have hfail := hfront.put_fail key data hlen.1 hlen.2
    generalize ch.putFront front key data = r at hs hput hfail
    obtain ⟨ret, front'⟩ := r
    simp only at hs hput hfail
    split at hs
    · cases hs
      show Inv c ch uninit { s with
        stage0 := (a, front') :: rest, calls := s.calls.eraseIdx i
        log := s.log ++ [(.put key data, ret)] }
      refine inv_writeFront h h0 (fun call hcall => h.calls call (List.mem_of_mem_eraseIdx hcall)) ?_
      intro k hk
      by_cases hok : ret = .ok
      · subst hok
        rw [hput rfl k hk, lastOk_append]
        by_cases hkk : k = key
        · exact .inr ⟨some data, by simp [hkk], by simp [hkk]⟩
        · exact .inl ⟨by simp [hkk], by simp [Ne.symm hkk]⟩
      · exact .inl ⟨hfail hok k hk, lastOk_append_fail hok s.log k⟩
    · rename_i hret
      cases hs
      have hret : ret = .insufficientSpace := by simpa using hret
      refine inv_writeFront h h0 (fun call hcall => ?_) fun k hk => .inl ⟨?_, rfl⟩
      · rcases List.mem_or_eq_of_mem_set hcall with hcall | rfl
        · exact h.calls call hcall
        · exact hlen
      · exact hfail (by simp [hret]) k hk

theorem delete_inv (hl : StageLaws c.toLengths ch s) {key : Value} (h : Inv c ch uninit s)
    (hs : delete c ch s key = some t) : Inv c ch uninit t := by
  unfold delete at hs
  split at hs
  · cases hs
    refine { h with visible := fun k hk => ?_ }
    exact (h.visible k hk).trans (lastOk_append_fail (by decide) s.log k).symm
  · split at hs
    case h_2 => cases hs
    case h_1 hlen _ a front rest h0 =>
      have hlen : key.length = c.keyLen := by omega
      have hfront : FrontLaws c.toLengths ch front := hl.front (a, front) (by rw [h0]; exact List.mem_cons_self)
      have hdel := hfront.delete_ok key hlen
      have hfail := hfront.delete_fail key hlen
      generalize ch.deleteFront front key = r at hs hdel hfail
      obtain ⟨ret, front'⟩ := r
      simp only at hs hdel hfail
      cases hs
      show Inv c ch uninit { s with
        stage0 := (a, front') :: rest, calls := s.calls
        log := s.log ++ [(.delete key, if ret = .ok ∨ ret = .keyNotFound then .ok else ret)] }
      refine inv_writeFront h h0 h.calls fun k hk => ?_
      by_cases hok : ret = .ok ∨ ret = .keyNotFound
      · rw [hdel hok k hk, if_pos hok, lastOk_append]
        by_cases hkk : k = key
        · exact .inr ⟨none, by simp [hkk], by simp [hkk]⟩
        · exact .inl ⟨by simp [hkk], by simp [Ne.symm hkk]⟩
      · rw [if_neg hok]
        exact .inl ⟨hfail hok k hk, lastOk_append_fail (fun h => hok (.inl h)) s.log k⟩

/-- A new front store leaves the oldest one the oldest. -/
theorem convertInv_push {p : Nat × F} (hne : s.stage0 ≠ []) (h : ConvertInv c ch s) :
    ConvertInv c ch { s with stage0 := p :: s.stage0 } := by
  have hlast : (p :: s.stage0).getLast? = s.stage0.getLast? := by
    obtain ⟨q, l, hl⟩ := List.exists_cons_of_ne_nil hne
    rw [hl, List.getLast?_cons_cons]
  unfold ConvertInv at h ⊢
  cases hpc : s.convertPc with
  | idle =>
    simp only [hpc, List.length_cons] at h ⊢
    exact ⟨h.1, fun hrun => Nat.lt_succ_of_lt (h.2 hrun)⟩
  | took x =>
    simp only [hpc, hlast, List.length_cons] at h ⊢
    exact ⟨h.1, h.2.1, Nat.lt_succ_of_lt h.2.2.1, h.2.2.2⟩
  | converted m =>
    simp only [hpc, hlast, List.length_cons] at h ⊢
    exact ⟨h.1, h.2.1, Nat.lt_succ_of_lt h.2.2.1, h.2.2.2⟩
  | swapped => simpa [hpc] using h

/-- Enqueueing the conversion when none is running. -/
theorem convertInv_enqueue (h : ConvertInv c ch s) (hrun : s.convertTaskRunning = false)
    (hlen : c.store0LowWatermark < s.stage0.length) :
    ConvertInv c ch { s with convertTaskRunning := true, convertTasks := s.convertTasks + 1 } := by
  unfold ConvertInv at h ⊢
  cases hpc : s.convertPc with
  | idle => simp only [hpc, hrun] at h ⊢; exact ⟨by simp [h.1], fun _ => hlen⟩
  | took x => simp [hpc, hrun] at h
  | converted m => simp [hpc, hrun] at h
  | swapped => simp [hpc, hrun] at h

theorem putUpgrade_inv (hm : MadeLaws c.toLengths ch) {i addr : Nat} (h : Inv c ch uninit s)
    (hs : putUpgrade c ch s i addr = some t) : Inv c ch uninit t := by
  unfold putUpgrade at hs
  split at hs
  case h_2 => cases hs
  case h_1 key data front a f rest hcall h0 =>
    have hlen := h.calls _ (List.mem_of_getElem? hcall)
    have hcalls : ∀ call ∈ s.calls.set i ⟨key, data, none⟩,
        call.key.length = c.keyLen ∧ call.data.length = c.dataLen := by
      intro call hcall
      rcases List.mem_or_eq_of_mem_set hcall with hcall | rfl
      · exact h.calls call hcall
      · exact hlen
    have h1 : Inv c ch uninit { s with calls := s.calls.set i ⟨key, data, none⟩ } :=
      { h with calls := hcalls }
    simp only at hs
    split at hs
    · cases hs
      exact h1
    · split at hs
      · cases hs
      · rename_i hfresh
        have h2 : Inv c ch uninit { s with
            calls := s.calls.set i ⟨key, data, none⟩
            stage0 := (addr, ch.createFront) :: s.stage0 } := by
          refine { h1 with
            front := by simp
            nodup := List.nodup_cons.mpr ⟨hfresh, h.nodup⟩
            convert := convertInv_push h.front h.convert
            visible := fun k hk => ?_ }
          have := h.visible k hk
          simpa [search, List.findSome?_cons, hm.create_front k hk] using this
        split at hs
        · rename_i hcond
          cases hs
          simp only [Bool.and_eq_true, decide_eq_true_eq, Bool.not_eq_true'] at hcond
          have hlow := lt_of_lt_of_le c.store0_high hcond.2
          exact { h2 with convert := convertInv_enqueue h2.convert hcond.1.2 hlow }
        · cases hs
          exact h2

section Convert

theorem convertTake_inv (h : Inv c ch uninit s) (hs : convertTake c s = some t) :
    Inv c ch uninit t := by
  unfold convertTake at hs
  split at hs
  case h_2 => cases hs
  case h_1 n a f hpc htasks hlast =>
    have hcv := h.convert
    simp only [ConvertInv, hpc] at hcv
    have hrun : s.convertTaskRunning = true := by
      by_contra hno
      simp [hno, htasks] at hcv
    have hlow := hcv.2 hrun
    rw [if_pos hlow] at hs
    cases hs
    refine { h with convert := ⟨hrun, ?_, hlow, f, hlast⟩ }
    have := hcv.1
    simp only [hrun, if_true] at this
    show n = 0
    omega

theorem lookup_getLast {l : List (Nat × F)} {a : Nat} {f : F} (hnd : (l.map (·.1)).Nodup)
    (h : l.getLast? = some (a, f)) : l.lookup a = some f := by
  induction l with
  | nil => cases h
  | cons p l ih =>
    obtain ⟨x, g⟩ := p
    cases l with
    | nil =>
      simp only [List.getLast?_singleton, Option.some.injEq, Prod.mk.injEq] at h
      simp [h.1, h.2]
    | cons q l =>
      rw [List.getLast?_cons_cons] at h
      have hmem : a ∈ (q :: l).map (·.1) :=
        List.mem_map_of_mem (f := (·.1)) (List.mem_of_getLast? h)
      have hne : (a == x) = false := by
        have hx := (List.nodup_cons.mp hnd).1
        simp only [beq_eq_false_iff_ne]
        rintro rfl
        exact hx hmem
      rw [List.lookup_cons, hne]
      exact ih (List.nodup_cons.mp hnd).2 h

theorem convertRun_inv (hl : StageLaws c.toLengths ch s) (h : Inv c ch uninit s)
    (hs : convertRun ch s = some t) : Inv c ch uninit t := by
  unfold convertRun at hs
  split at hs
  case h_2 => cases hs
  case h_1 a hpc =>
    have hcv := h.convert
    simp only [ConvertInv, hpc] at hcv
    obtain ⟨hrun, htasks, hlow, f, hlast⟩ := hcv
    simp only [lookup_getLast h.nodup hlast] at hs
    have hfront : FrontLaws c.toLengths ch f := hl.front (a, f) (List.mem_of_getLast? hlast)
    have hok := hfront.convert_ok
    have hget := hfront.convert_get
    generalize ch.convertTo f = r at hs hok hget
    obtain ⟨ret, m⟩ := r
    simp only at hok hget
    subst hok
    cases hs
    exact { h with convert := ⟨hrun, htasks, hlow, (a, f), hlast, hget⟩ }

theorem oldest_push {m : M} {stores : List M} {n : Nat} (hn : n ≤ stores.length) :
    oldest (m :: stores) n = oldest stores n := by
  have hlen : (m :: stores).length - n = (stores.length - n) + 1 := by
    rw [List.length_cons]
    omega
  rw [oldest, oldest, hlen, List.drop_succ_cons]

theorem sorted_push {m : M} {stores : List M} {n : Nat} {sorter : Option Sorter}
    (hn : n ≤ stores.length) (h : Sorted c ch uninit stores n sorter) :
    Sorted c ch uninit (m :: stores) n sorter := by
  unfold Sorted at h ⊢
  rw [oldest_push hn]
  exact h

/-- A new middle store leaves the oldest ones the oldest. -/
theorem mergeInv_push {m : M} (h : MergeInv c ch uninit s) :
    MergeInv c ch uninit { s with stage1 := m :: s.stage1 } := by
  unfold MergeInv at h ⊢
  cases hpc : s.mergePc with
  | idle =>
    simp only [hpc, List.length_cons] at h ⊢
    exact ⟨h.1, fun hrun => Nat.lt_succ_of_lt (h.2 hrun)⟩
  | sorting n sorter numAdds numDels =>
    simp only [hpc, List.length_cons] at h ⊢
    obtain ⟨hrun, htasks, hlow, hn, hsorted⟩ := h
    exact ⟨hrun, htasks, Nat.lt_succ_of_lt hlow, Nat.le_succ_of_le hn, sorted_push hn hsorted⟩
  | picked store n sorter numAdds numDels =>
    simp only [hpc, List.length_cons] at h ⊢
    obtain ⟨hrun, htasks, hlow, hn, hstore, hsorted⟩ := h
    refine ⟨hrun, htasks, Nat.lt_succ_of_lt hlow, Nat.lt_succ_of_lt hn, ?_, sorted_push hn.le hsorted⟩
    have hidx : s.stage1.length + 1 - 1 - n = (s.stage1.length - 1 - n) + 1 := by omega
    rw [hidx, List.getElem?_cons_succ]
    exact hstore
  | sorted n sorter numAdds numDels =>
    simp only [hpc, List.length_cons] at h ⊢
    obtain ⟨hrun, htasks, hpos, hn, hsorted⟩ := h
    exact ⟨hrun, htasks, hpos, Nat.le_succ_of_le hn, sorted_push hn hsorted⟩
  | merged b n =>
    simp only [hpc, List.length_cons] at h ⊢
    obtain ⟨hrun, htasks, hn, puts, hb, hget⟩ := h
    refine ⟨hrun, htasks, Nat.le_succ_of_le hn, puts, hb, fun k => ?_⟩
    rw [oldest_push hn]
    exact hget k
  | swapped => simpa [hpc] using h

theorem mergeInv_enqueue (h : MergeInv c ch uninit s) (hrun : s.mergeTaskRunning = false)
    (hlen : c.store1LowWatermark < s.stage1.length) :
    MergeInv c ch uninit { s with mergeTaskRunning := true, mergeTasks := s.mergeTasks + 1 } := by
  unfold MergeInv at h ⊢
  cases hpc : s.mergePc with
  | idle => simp only [hpc, hrun] at h ⊢; exact ⟨by simp [h.1], fun _ => hlen⟩
  | sorting n sorter numAdds numDels => simp [hpc, hrun] at h
  | picked store n sorter numAdds numDels => simp [hpc, hrun] at h
  | sorted n sorter numAdds numDels => simp [hpc, hrun] at h
  | merged b n => simp [hpc, hrun] at h
  | swapped => simp [hpc, hrun] at h

/-- Moving the oldest front store over to its middle store keeps every answer. -/
theorem convertSwap_inv (h : Inv c ch uninit s) (hs : convertSwap c s = some t) :
    Inv c ch uninit t ∧ ∀ k, k.length = c.keyLen → get c ch t k = get c ch s k := by
  unfold convertSwap at hs
  split at hs
  case h_2 => cases hs
  case h_1 m hpc =>
    have hcv := h.convert
    simp only [ConvertInv, hpc] at hcv
    obtain ⟨hrun, htasks, hlow, p, hlast, hget⟩ := hcv
    have hlow0 := c.store0_low
    have h0 : s.stage0 = s.stage0.dropLast ++ [p] := (List.dropLast_append_getLast? p hlast).symm
    have hlen : s.stage0.length = s.stage0.dropLast.length + 1 := by
      conv_lhs => rw [h0]
      simp
    have h1 : Inv c ch uninit { s with
        stage0 := s.stage0.dropLast, stage1 := m :: s.stage1, convertPc := .swapped } := by
      refine { h with
        front := ?_
        nodup := ?_
        convert := ⟨hrun, htasks⟩
        merge := mergeInv_push h.merge
        visible := fun k hk => ?_ }
      · show s.stage0.dropLast ≠ []
        intro hnil
        rw [hnil] at hlen
        simp only [List.length_nil] at hlen
        omega
      · have := h.nodup
        rw [h0, List.map_append] at this
        exact (List.nodup_append.mp this).1
      · have := h.visible k hk
        rw [← this]
        congr 1
        conv_rhs => rw [search, h0]
        simp only [search, List.findSome?_append, List.findSome?_cons, hget k hk, List.findSome?_nil]
        cases entryOf (ch.getFront p.2 k) <;> cases s.stage0.dropLast.findSome? _ <;> rfl
    have hsame : ∀ k, k.length = c.keyLen → get c ch { s with
        stage0 := s.stage0.dropLast, stage1 := m :: s.stage1, convertPc := .swapped } k =
        get c ch s k := by
      intro k hk
      simp only [get, if_neg (not_ne_iff.mpr hk.symm)]
      conv_rhs => rw [h0]
      simp [hget k hk]
    simp only at hs
    split at hs
    · rename_i hcond
      cases hs
      simp only [Bool.and_eq_true, decide_eq_true_eq, Bool.not_eq_true'] at hcond
      exact ⟨{ h1 with merge := mergeInv_enqueue h1.merge hcond.1.2
                        (lt_of_lt_of_le c.store1_high hcond.2) }, hsame⟩
    · cases hs
      exact ⟨h1, hsame⟩

theorem convertFinish_inv (h : Inv c ch uninit s) (hs : convertFinish c s = some t) :
    Inv c ch uninit t := by
  unfold convertFinish at hs
  split at hs
  case h_2 => cases hs
  case h_1 hpc =>
    have hcv := h.convert
    simp only [ConvertInv, hpc] at hcv
    obtain ⟨hrun, htasks⟩ := hcv
    split at hs
    · cases hs
      exact { h with convert := ⟨by simp [hrun, htasks], fun _ => by assumption⟩ }
    · cases hs
      exact { h with convert := ⟨by simp [htasks], by simp⟩ }

end Convert

section Merge

theorem mergeStart_inv (h : Inv c ch uninit s) (hs : mergeStart c s = some t) :
    Inv c ch uninit t := by
  unfold mergeStart at hs
  split at hs
  case h_2 => cases hs
  case h_1 n hpc htasks =>
    have hmg := h.merge
    simp only [MergeInv, hpc] at hmg
    have hrun : s.mergeTaskRunning = true := by
      by_contra hno
      simp [hno, htasks] at hmg
    have hlow := hmg.2 hrun
    have hn : n = 0 := by
      have := hmg.1
      simp only [hrun, if_true] at this
      omega
    rw [if_pos hlow] at hs
    cases hs
    refine { h with merge := ⟨hrun, hn, hlow, Nat.zero_le _, ?_, by simp⟩ }
    simp only [oldest, Nat.sub_zero, List.drop_length]
    exact ⟨Sorter.create_holds _ _, rfl, rfl⟩

theorem mergePick_inv (h : Inv c ch uninit s) (hs : mergePick c s = some t) :
    Inv c ch uninit t := by
  unfold mergePick at hs
  split at hs
  case h_2 => cases hs
  case h_1 n sorter numAdds numDels hpc =>
    have hmg := h.merge
    simp only [MergeInv, hpc] at hmg
    obtain ⟨hrun, htasks, hlow, hn, hsorted⟩ := hmg
    split at hs
    · cases hs
      exact { h with merge := ⟨hrun, htasks, by omega, hn, hsorted⟩ }
    · have hidx : s.stage1.length - 1 - n < s.stage1.length := by omega
      have hlt : n < s.stage1.length := by omega
      rw [List.getElem?_eq_getElem hidx] at hs
      cases hs
      exact { h with merge := ⟨hrun, htasks, hlow, hlt, List.getElem?_eq_getElem hidx, hsorted⟩ }

theorem oldest_succ {stores : List M} {m : M} {n : Nat} (hn : n < stores.length)
    (hm : stores[stores.length - 1 - n]? = some m) :
    oldest stores (n + 1) = m :: oldest stores n := by
  obtain ⟨hlt, rfl⟩ := List.getElem?_eq_some_iff.mp hm
  have hidx : stores.length - (n + 1) = stores.length - 1 - n := by omega
  have hnext : stores.length - n = stores.length - 1 - n + 1 := by omega
  rw [oldest, oldest, hidx, hnext]
  exact List.drop_eq_getElem_cons hlt

theorem recordsOf_cons (m : M) (stores : List M) :
    recordsOf ch (m :: stores) = recordsOf ch stores ++ ch.enumerateMiddle m := by
  simp [recordsOf]

theorem mergeSort_inv (hl : StageLaws c.toLengths ch s) (h : Inv c ch uninit s)
    (hs : mergeSort c ch uninit s = some t) : Inv c ch uninit t := by
  unfold mergeSort at hs
  split at hs
  case h_2 => cases hs
  case h_1 m n sorter numAdds numDels hpc =>
    have hmg := h.merge
    simp only [MergeInv, hpc] at hmg
    obtain ⟨hrun, htasks, hlow, hn, hm, htake, -⟩ := hmg
    obtain ⟨sorter', a, d, hsort, htake'⟩ :=
      sortLoop_spec uninit numAdds numDels (ch.enumerateMiddle m)
        (hl.middle m (List.mem_of_getElem? hm)).enumerate htake
    simp only [MergeTask.sort, hsort] at hs
    cases hs
    refine { h with merge := ⟨hrun, htasks, hlow, hn, ?_, by simp⟩ }
    rw [oldest_succ hn hm, recordsOf_cons, List.map_append]
    exact htake'

theorem recordsOf_wellFormed {stores : List M} (hm : ∀ m ∈ stores, MiddleLaws c.toLengths ch m) :
    ∀ r ∈ recordsOf ch stores, WellFormed c.toLengths r := by
  intro r hr
  obtain ⟨recs, hrecs, hr⟩ := List.mem_flatten.mp hr
  obtain ⟨m, hmem, rfl⟩ := List.mem_map.mp hrecs
  exact (hm m (List.mem_reverse.mp hmem)).enumerate r hr

/-- The oldest stores are stores of the stage. -/
theorem StageLaws.oldest (hl : StageLaws c.toLengths ch s) (n : Nat) :
    ∀ m ∈ FawnDSCombi.oldest s.stage1 n, MiddleLaws c.toLengths ch m :=
  fun m hm => hl.middle m (List.mem_of_mem_drop hm)

/-- What the back store lists is sorted and is what its `Get` finds. -/
theorem backEntries_holds (h : Inv c ch uninit s) :
    ((backEntries ch s.stage2).Pairwise fun x y => x.1 < y.1) ∧
    (∀ e ∈ backEntries ch s.stage2, e.1.length = c.keyLen ∧ e.2.length = c.dataLen) ∧
    ∀ k, k.length = c.keyLen → (s.stage2.findSome? fun b => entryOf (ch.getBack b k)) =
      ((backEntries ch s.stage2).lookup k).map some := by
  have hle := h.back_le
  have hback := h.back
  cases hst : s.stage2 with
  | nil => simp [backEntries]
  | cons b rest =>
    have hrest : rest = [] := by
      rw [hst, List.length_cons] at hle
      exact List.eq_nil_of_length_eq_zero (by omega)
    obtain ⟨puts, hb⟩ := hback b (by simp [hst])
    subst hrest
    have henum : backEntries ch [b] = puts := hb.enumerate
    rw [henum]
    refine ⟨hb.sorted, hb.lengths, fun k hk => ?_⟩
    rw [← hb.get k hk]
    simp only [List.findSome?_cons, List.findSome?_nil]
    cases entryOf (ch.getBack b k) <;> rfl

/-- What `merge` puts has the lengths of the records and of the old back store. -/
theorem rightBiased_lengths {recs : List Record} {back puts : List (Value × Value)}
    (hrecs : ∀ r ∈ recs, WellFormed c.toLengths r)
    (hback : ∀ e ∈ back, e.1.length = c.keyLen ∧ e.2.length = c.dataLen)
    (hsorted : puts.Pairwise fun x y => x.1 < y.1)
    (hget : ∀ k, puts.lookup k = rightBiased recs back k) :
    ∀ e ∈ puts, e.1.length = c.keyLen ∧ e.2.length = c.dataLen := by
  intro e he
  have hlook := (hget e.1).symm.trans (SortedMerge.lookup_of_mem hsorted he)
  rw [rightBiased] at hlook
  cases hlast : lastRecord recs e.1 with
  | none =>
    rw [hlast] at hlook
    obtain ⟨l₁, l₂, hl, -⟩ := List.lookup_eq_some_iff.mp hlook
    exact hback e (by simp [hl])
  | some r =>
    have hmem := List.mem_filter.mp (List.mem_of_getLast? hlast)
    have hwf := hrecs r hmem.1
    have hkey : r.key = e.1 := by simpa using hmem.2
    simp only [hlast] at hlook
    cases hdel : r.deleted with
    | true => simp [hdel] at hlook
    | false =>
      simp only [hdel, Bool.false_eq_true, if_false, Option.some.injEq] at hlook
      exact ⟨hkey ▸ hwf.key, hlook ▸ hwf.data hdel⟩

theorem mergeRun_inv (hm : MadeLaws c.toLengths ch) (hl : StageLaws c.toLengths ch s) (h : Inv c ch uninit s)
    (hs : mergeRun c ch s = some t) : Inv c ch uninit t := by
  unfold mergeRun at hs
  split at hs
  case h_2 => cases hs
  case h_1 n sorter numAdds numDels hpc =>
    have hmg := h.merge
    simp only [MergeInv, hpc] at hmg
    obtain ⟨hrun, htasks, hpos, hn, htake, hsome⟩ := hmg
    obtain ⟨sr, rfl⟩ := Option.isSome_iff_exists.mp (hsome hpos)
    rw [Option.getD_some] at htake
    obtain ⟨hbsorted, hblen, -⟩ := backEntries_holds h
    have hkeys : ∀ e ∈ backEntries ch s.stage2, e.1.length < 2 ^ 31 := by
      intro e he
      rw [(hblen e he).1]
      exact c.keyLen_lt
    have hwf := recordsOf_wellFormed (hl.oldest n)
    obtain ⟨merged, hmerge, hsorted, hget, -, -⟩ :=
      merge_spec hwf htake hkeys hbsorted s.backStoreSize numAdds numDels
    obtain ⟨b, hbuild, hb⟩ := hm.build_back merged.maxNewBackStoreSize merged.puts hsorted
      (rightBiased_lengths hwf hblen hsorted hget)
    rw [if_neg (by have := h.back_le; omega), hmerge] at hs
    simp only [hbuild] at hs
    cases hs
    exact { h with merge := ⟨hrun, htasks, hn, merged.puts, hb, hget⟩ }

/-- Replacing the oldest middle stores and the back store by their merge keeps what is visible. -/
theorem mergeSwap_inv (hl : StageLaws c.toLengths ch s) (h : Inv c ch uninit s)
    (hs : mergeSwap s = some t) : Inv c ch uninit t := by
  unfold mergeSwap at hs
  split at hs
  case h_2 => cases hs
  case h_1 b n hpc =>
    have hmg := h.merge
    simp only [MergeInv, hpc] at hmg
    obtain ⟨hrun, htasks, hn, puts, hb, hget⟩ := hmg
    cases hs
    refine { h with
      back_le := by simp
      back := fun b' hb' => ?_
      merge := ⟨hrun, htasks⟩
      visible := fun k hk => ?_ }
    · obtain rfl := List.mem_singleton.mp hb'
      exact ⟨puts, hb⟩
    · have hold : (s.stage1.findSome? fun m => entryOf (ch.getMiddle m k)) =
          ((s.stage1.take (s.stage1.length - n)).findSome? fun m => entryOf (ch.getMiddle m k)).or
            ((oldest s.stage1 n).findSome? fun m => entryOf (ch.getMiddle m k)) := by
        rw [← List.findSome?_append, oldest, List.take_append_drop]
      have hnew : ([b].findSome? fun b => entryOf (ch.getBack b k)) = (puts.lookup k).map some := by
        rw [← hb.get k hk]
        simp only [List.findSome?_cons, List.findSome?_nil]
        cases entryOf (ch.getBack b k) <;> rfl
      have hjoin : ((puts.lookup k).map some).join =
          ((recordsEntry (recordsOf ch (oldest s.stage1 n)) k).or
            (s.stage2.findSome? fun b => entryOf (ch.getBack b k))).join := by
        rw [(backEntries_holds h).2.2 k hk, ← rightBiased_eq, ← hget k]
        cases puts.lookup k <;> rfl
      rw [← h.visible k hk]
      simp only [search]
      rw [hnew, hold, Option.or_assoc]
      -- what the merged stores find is only looked at where no newer store has the key
      cases hfront : s.stage0.findSome? fun p => entryOf (ch.getFront p.2 k) with
      | some e => rfl
      | none =>
        cases hnewer : (s.stage1.take (s.stage1.length - n)).findSome? fun m => entryOf (ch.getMiddle m k) with
        | some e => rfl
        | none =>
          have hlisted := hl.listed k hk (List.findSome?_eq_none_iff.mp hfront)
          rw [← List.take_append_drop (s.stage1.length - n) s.stage1] at hlisted
          rw [oldest, recordsEntry_recordsOf (hlisted.drop hnewer)]
          exact hjoin

theorem mergeFinish_inv (h : Inv c ch uninit s) (hs : mergeFinish c s = some t) :
    Inv c ch uninit t := by
  unfold mergeFinish at hs
  split at hs
  case h_2 => cases hs
  case h_1 hpc =>
    have hmg := h.merge
    simp only [MergeInv, hpc] at hmg
    obtain ⟨hrun, htasks⟩ := hmg
    split at hs
    · cases hs
      exact { h with merge := ⟨by simp [hrun, htasks], fun _ => by assumption⟩ }
    · cases hs
      exact { h with merge := ⟨by simp [htasks], by simp⟩ }

end Merge

theorem step_inv (hm : MadeLaws c.toLengths ch) (hl : StageLaws c.toLengths ch s) {l : Label}
    (h : Inv c ch uninit s) (hs : step c ch uninit s l = some t) : Inv c ch uninit t := by
  unfold step at hs
  rw [if_neg (by simp [h.running])] at hs
  cases l with
  | put key data => cases hs; exact put_inv h
  | putTry i => exact putTry_inv hl h hs
  | putUpgrade i addr => exact putUpgrade_inv hm h hs
  | delete key => exact delete_inv hl h hs
  | convertTake => exact convertTake_inv h hs
  | convertRun => exact convertRun_inv hl h hs
  | convertSwap => exact (convertSwap_inv h hs).1
  | convertFinish => exact convertFinish_inv h hs
  | mergeStart => exact mergeStart_inv h hs
  | mergePick => exact mergePick_inv h hs
  | mergeSort => exact mergeSort_inv hl h hs
  | mergeRun => exact mergeRun_inv hm hl h hs
  | mergeSwap => exact mergeSwap_inv hl h hs
  | mergeFinish => exact mergeFinish_inv h hs

theorem run_inv (hc : Contract c.toLengths ch) {ls : List Label}
    (hs : Transition.run (step c ch uninit) (create ch) ls = some s) : Inv c ch uninit s :=
  Transition.run_invariant (fun s _ _ hstep h => step_inv hc.made (hc.stages s) h hstep) hs (create_inv hc.made)

end Steps

section Refinement

variable {F M B : Type} {c : Config} {ch : Children F M B} {uninit : Nat → UInt8}
  {s t : State F M B} {k : Value}

/-- `Get` answers `OK` with the value, or that the key is absent. -/
def Answers (r : FawnDSReturn × Value) (value : Option Value) : Prop :=
  match value with
  | some v => r = (.ok, v)
  | none => r.1 = .keyDeleted ∨ r.1 = .keyNotFound

/-- Equal answers, or two that both say that the key is absent. -/
def SameOutcome (r r' : FawnDSReturn × Value) : Prop :=
  ∃ value, Answers r value ∧ Answers r' value

def Label.isConvert : Label → Bool
  | .convertTake | .convertRun | .convertSwap | .convertFinish => true
  | _ => false

def Label.isMerge : Label → Bool
  | .mergeStart | .mergePick | .mergeSort | .mergeRun | .mergeSwap | .mergeFinish => true
  | _ => false

theorem answers_of_entry {r : FawnDSReturn × Value} (hr : Answered r) :
    Answers r (entryOf r).join := by
  obtain ⟨code, v⟩ := r
  rcases hr with hr | hr | hr
  · simp only at hr
    subst hr
    rfl
  · simp only at hr
    subst hr
    exact .inl rfl
  · simp only at hr
    subst hr
    exact .inr rfl

/-- Every store that is asked answers. -/
theorem answered_of_mem (hl : StageLaws c.toLengths ch s) (h : Inv c ch uninit s) (hk : k.length = c.keyLen) :
    ∀ r ∈ s.stage0.map (fun p => ch.getFront p.2 k) ++ s.stage1.map (fun m => ch.getMiddle m k) ++
      s.stage2.map (fun b => ch.getBack b k), Answered r := by
  intro r hr
  rcases List.mem_append.mp hr with hr | hr
  · rcases List.mem_append.mp hr with hr | hr
    · obtain ⟨p, hp, rfl⟩ := List.mem_map.mp hr
      exact (hl.front p hp).answered k hk
    · obtain ⟨m, hm, rfl⟩ := List.mem_map.mp hr
      exact (hl.middle m hm).answered k hk
  · obtain ⟨b, hb, rfl⟩ := List.mem_map.mp hr
    obtain ⟨puts, hholds⟩ := h.back b hb
    exact hholds.answered k hk

/-- `Get` answers what the search through the stages finds. -/
theorem get_answers (hl : StageLaws c.toLengths ch s) (h : Inv c ch uninit s)
    (hk : k.length = c.keyLen) : Answers (get c ch s k) (lastOk s.log k) := by
  have hall := answered_of_mem hl h hk
  have hans := answers_of_entry (answered_getLoop _ hall)
  rw [entryOf_getLoop _ hall] at hans
  rw [get, if_neg (not_ne_iff.mpr hk.symm), ← h.visible k hk]
  simpa only [List.findSome?_append, List.findSome?_map, Option.or_assoc, Function.comp_def,
    search] using hans

/-- The background tasks return no call. -/
theorem background_log {l : Label} (hl : l.isConvert = true ∨ l.isMerge = true)
    (hs : step c ch uninit s l = some t) : t.log = s.log := by
  unfold step at hs
  split at hs
  · cases hs
  · cases l <;> simp only [Label.isConvert, Label.isMerge, Bool.false_eq_true, or_self] at hl <;>
      simp only [convertTake, convertRun, convertSwap, convertFinish, mergeStart, mergePick,
        mergeSort, mergeRun, mergeSwap, mergeFinish] at hs <;>
      repeat' split at hs
    all_goals first | (cases hs; rfl) | cases hs

/-- No call is taken out of the log. -/
theorem log_append {l : Label} (hs : step c ch uninit s l = some t) : ∃ new, t.log = s.log ++ new := by
  by_cases hl : l.isConvert = true ∨ l.isMerge = true
  · exact ⟨[], by rw [background_log hl hs, List.append_nil]⟩
  unfold step at hs
  split at hs
  · cases hs
  cases l with
  | put key data =>
    cases hs
    unfold put
    split
    · exact ⟨_, rfl⟩
    · split
      · exact ⟨_, rfl⟩
      · exact ⟨[], (List.append_nil _).symm⟩
  | putTry i =>
    simp only [putTry] at hs
    repeat' split at hs
    all_goals first | (cases hs; exact ⟨_, rfl⟩) | (cases hs; exact ⟨[], (List.append_nil _).symm⟩) | cases hs
  | putUpgrade i addr =>
    simp only [putUpgrade] at hs
    repeat' split at hs
    all_goals first | (cases hs; exact ⟨[], (List.append_nil _).symm⟩) | cases hs
  | delete key =>
    simp only [delete] at hs
    repeat' split at hs
    all_goals first | (cases hs; exact ⟨_, rfl⟩) | cases hs
  | _ => exact absurd (by simp [Label.isConvert, Label.isMerge]) hl

/-- A conversion only changes the stages where it swaps the stores. -/
theorem convert_get (h : Inv c ch uninit s) {l : Label} (hl : l.isConvert = true)
    (hs : step c ch uninit s l = some t) (hk : k.length = c.keyLen) :
    get c ch t k = get c ch s k := by
  unfold step at hs
  rw [if_neg (by simp [h.running])] at hs
  cases l <;> simp only [Label.isConvert, Bool.false_eq_true] at hl
  case convertSwap => exact (convertSwap_inv h hs).2 k hk
  case convertTake =>
    simp only [convertTake] at hs
    repeat' split at hs
    all_goals first | (cases hs; rfl) | cases hs
  case convertRun =>
    simp only [convertRun] at hs
    repeat' split at hs
    all_goals first | (cases hs; rfl) | cases hs
  case convertFinish =>
    simp only [convertFinish] at hs
    repeat' split at hs
    all_goals first | (cases hs; rfl) | cases hs

/-- In every run `Get` finds the value of the last successful `Put` unless a later `Delete`
succeeded; no assertion fails; conversions change no answer and merges no outcome. -/
theorem combi_refines_map (c : Config) (ch : Children F M B) (uninit : Nat → UInt8)
    (hc : Contract c.toLengths ch) (ls : List Label) (s : State F M B)
    (hs : Transition.run (step c ch uninit) (create ch) ls = some s) :
    s.aborted = false ∧
    (∀ k, k.length = c.keyLen → Answers (get c ch s k) (lastOk s.log k)) ∧
    (∀ l t, l.isConvert = true → step c ch uninit s l = some t →
      ∀ k, k.length = c.keyLen → get c ch t k = get c ch s k) ∧
    (∀ l t, l.isMerge = true → step c ch uninit s l = some t →
      ∀ k, k.length = c.keyLen → SameOutcome (get c ch t k) (get c ch s k)) := by
  have h := run_inv hc hs
  refine ⟨h.running, fun k hk => get_answers (hc.stages s) h hk, ?_, ?_⟩
  · intro l t hl ht k hk
    exact convert_get h hl ht hk
  · intro l t hl ht k hk
    have hans := get_answers (hc.stages t) (step_inv hc.made (hc.stages s) h ht) hk
    rw [background_log (.inr hl) ht] at hans
    exact ⟨lastOk s.log k, hans, get_answers (hc.stages s) h hk⟩

section Reference

/-- Stores that keep their records in a list, at most `cap` of them in a front store. -/
def Recs (c : Lengths) : Type := { recs : List Record // ∀ r ∈ recs, WellFormed c r }

def answer : Option (Option Value) → FawnDSReturn × Value
  | some (some v) => (.ok, v)
  | some none => (.keyDeleted, [])
  | none => (.keyNotFound, [])

def Recs.add {c : Lengths} (f : Recs c) (r : Record) (h : WellFormed c r) : Recs c :=
  ⟨f.1 ++ [r], fun x hx => by
    rcases List.mem_append.mp hx with hx | hx
    · exact f.2 x hx
    · obtain rfl := List.mem_singleton.mp hx
      exact h⟩

def refStores (c : Lengths) (cap : Nat) : Children (Recs c) (Recs c) (List (Value × Value)) where
  createFront := ⟨[], by simp⟩
  putFront f k v :=
    if h : k.length = c.keyLen ∧ v.length = c.dataLen then
      if f.1.length < cap then (.ok, f.add ⟨k, false, v⟩ ⟨h.1, h.2.le, fun _ => h.2⟩)
      else (.insufficientSpace, f)
    else (.invalidKey, f)
  deleteFront f k :=
    if h : k.length = c.keyLen then
      if f.1.length < cap then
        (.ok, f.add ⟨k, true, []⟩ ⟨h, Nat.zero_le _, fun h => by cases h⟩)
      else (.insufficientSpace, f)
    else (.invalidKey, f)
  getFront f k := answer (recordsEntry f.1 k)
  convertTo f := (.ok, f)
  getMiddle m k := answer (recordsEntry m.1 k)
  enumerateMiddle m := m.1
  createBack _ := []
  putBack b k v :=
    if b.all fun e => e.1 < k then (.ok, b ++ [(k, v)]) else (.invalidKey, b)
  flushBack b := b
  getBack b k := answer ((b.lookup k).map some)
  enumerateBack b := b

@[simp] theorem entryOf_answer (e : Option (Option Value)) : entryOf (answer e) = e := by
  rcases e with _ | _ | v <;> rfl

theorem answered_answer (e : Option (Option Value)) : Answered (answer e) := by
  rcases e with _ | _ | v
  · exact .inr (.inr rfl)
  · exact .inr (.inl rfl)
  · exact .inl rfl

theorem recordsEntry_add {c : Lengths} (f : Recs c) (r : Record) (h : WellFormed c r) (k : Value) :
    recordsEntry (f.add r h).1 k =
      if k = r.key then some (if r.deleted then none else some r.data) else recordsEntry f.1 k := by
  rw [recordsEntry, Recs.add, lastRecord_append]
  by_cases hk : r.key = k
  · simp [hk]
  · simp [hk, Ne.symm hk, recordsEntry]

theorem buildBack_refStores (c : Lengths) (cap size : Nat) (puts : List (Value × Value))
    (h : puts.Pairwise fun x y => x.1 < y.1) :
    buildBack (refStores c cap) size puts = some puts := by
  have hfold : ∀ b : List (Value × Value), (b ++ puts).Pairwise (fun x y => x.1 < y.1) →
      puts.foldlM (assertPut (refStores c cap)) b = some (b ++ puts) := by
    clear h
    induction puts with
    | nil => simp
    | cons e puts ih =>
      intro b hb
      have hlt : (b.all fun x => decide (x.1 < e.1)) = true := by
        simp only [List.all_eq_true, decide_eq_true_eq]
        exact fun x hx => (List.pairwise_append.mp hb).2.2 x hx e (by simp)
      have hb' : ((b ++ [e]) ++ puts).Pairwise fun x y => x.1 < y.1 := by simpa using hb
      have := ih (b ++ [e]) hb'
      have hput : assertPut (refStores c cap) b e = some (b ++ [e]) := by
        simp [assertPut, refStores, hlt]
      rw [List.foldlM_cons, hput]
      simpa using this
  exact congrArg (Option.map _) (hfold [] h)

/-- The contracts are met by the stores of plain lists. -/
theorem refStores_contract (c : Lengths) (cap : Nat) : Contract c (refStores c cap) where
  answered_front _ _ _ := answered_answer _
  create_front _ _ := by simp [refStores, recordsEntry, lastRecord]
  put_ok f k v hk hv hok k' _ := by
    simp only [refStores, hk, hv, and_self, dite_true] at hok ⊢
    split at hok
    · rename_i hcap
      simp [hcap, recordsEntry_add]
    · cases hok
  put_fail f k v hk hv hfail k' _ := by
    simp only [refStores, hk, hv, and_self, dite_true] at hfail ⊢
    split at hfail
    · exact absurd rfl hfail
    · rename_i hcap
      simp [hcap]
  delete_ok f k hk hok k' _ := by
    simp only [refStores, hk, dite_true] at hok ⊢
    split at hok
    · rename_i hcap
      simp [hcap, recordsEntry_add]
    · simp at hok
  delete_fail f k hk hfail k' _ := by
    simp only [refStores, hk, dite_true] at hfail ⊢
    split at hfail
    · exact absurd (.inl rfl) hfail
    · rename_i hcap
      simp [hcap]
  convert_ok _ := rfl
  convert_get _ _ _ := rfl
  answered_middle _ _ _ := answered_answer _
  get_middle _ _ _ := entryOf_answer _
  enumerate_middle m := m.2
  build_back size puts hsorted hlen :=
    ⟨puts, buildBack_refStores c cap size puts hsorted,
      ⟨rfl, hsorted, hlen, fun _ _ => answered_answer _, fun _ _ => entryOf_answer _⟩⟩

/-- One byte keys and values, one middle store enough to start a merge. -/
def smallConfig : Config :=
  ⟨⟨1, 1, by decide, by decide⟩, 2, 2, 1, 1, 0, by decide, by decide, by decide⟩

/-- Keys of four bytes and no data; a second front store is converted at once, and two middle stores are
merged at once. -/
def keysOnly : Config :=
  { smallConfig with
    toLengths := ⟨4, 0, by decide, by decide⟩
    store1HighWatermark := 2
    store1_high := by decide }

/-- Two Puts of one key, the second into a new front store; the first is converted and
merged. -/
def smallRun : List Label :=
  [.put [1] [10], .putTry 0, .put [1] [11], .putTry 0, .putUpgrade 0 1, .putTry 0,
    .convertTake, .convertRun, .convertSwap, .convertFinish, .mergeStart, .mergePick, .mergeSort,
    .mergePick, .mergeRun, .mergeSwap, .mergeFinish]

theorem combi_refines_map_merged :
    ∃ s, Transition.run (step smallConfig (refStores smallConfig.toLengths 1) fun _ => 0)
        (create (refStores smallConfig.toLengths 1)) smallRun = some s ∧
      Answers (get smallConfig (refStores smallConfig.toLengths 1) s [1]) (some [11]) := by
  have hlog : (Transition.run (step smallConfig (refStores smallConfig.toLengths 1) fun _ => 0)
      (create (refStores smallConfig.toLengths 1)) smallRun).map (fun s => lastOk s.log [1]) =
      some (some [11]) := by decide +kernel
  obtain ⟨s, hs, hval⟩ := Option.map_eq_some_iff.mp hlog
  refine ⟨s, hs, ?_⟩
  rw [← hval]
  exact (combi_refines_map _ _ _ (refStores_contract _ 1) _ s hs).2.1 [1] rfl

end Reference

end Refinement

end FawnKV.Silt.FawnDSCombi
