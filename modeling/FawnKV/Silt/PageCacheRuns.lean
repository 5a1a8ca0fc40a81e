import FawnKV.Silt.FileLog

/-! Runs of `int_pwritev` and `int_pread` at any positions, with what the system calls in them return. -/
namespace FawnKV.Silt.PagedFile

open ByteFile PageCache Transition
open FileStore (pageSize cacheSize)

section Functions

-- what the buffer of a read holds before the read
variable (uninit : Nat → UInt8)

/-- `req_count`, in the 64 bits of a `size_t`. -/
def reqCount (count : Nat) (offset : Int) : Nat :=
  let toDiscard := (offset % pageSize).toNat
  ((toDiscard + count) % 2 ^ 64 + (pageSize - 1)) % 2 ^ 64 / pageSize * pageSize

/-- `readPages` with a `pread` that moves at most `moved` bytes, or fails with `none`. -/
def readMoved (s : PagedFile) (count offset : Nat) (moved : Option Nat) : Option Bytes × PagedFile :=
  let toDiscard := offset % pageSize
  let reqOffset := offset - toDiscard
  let reqCount := (toDiscard + count + (pageSize - 1)) / pageSize * pageSize
  let wanted := pages pageSize reqOffset (reqCount / pageSize)
  if decide (reqCount ≤ pageSize * cacheSize) && wanted.all (hit pageSize cacheSize s.cache) then
    (some (copyOut (contents pageSize cacheSize s.cache wanted) toDiscard count), s)
  else
    match moved with
    | none => (none, s)
    | some n =>
      let reqBuf := pread s.store.file (min reqCount n) reqOffset
      let whole := pages pageSize reqOffset (reqBuf.length / pageSize)
      let cache :=
        if reqCount ≤ pageSize * cacheSize then
          whole.foldl (fun c p => fill pageSize cacheSize c p (pread reqBuf pageSize (p - reqOffset))) s.cache
        else s.cache
      (some (copyOut reqBuf toDiscard count), { s with cache })

/-- `int_pread`: `none` is the assertion on `req_count`, and `some none` the result `false`. Without
`memory` there is no buffer. -/
def intPreadMoved (s : PagedFile) (count : Nat) (offset : Int) (memory : Bool) (moved : Option Nat) :
    Option (Option Bytes × PagedFile) :=
  if reqCount count offset < count then none
  else if memory then
    match offset with
    | .ofNat offset => some (s.readMoved count offset moved)
    | .negSucc n => some (FileStore.intPread uninit s.store.file count (.negSucc n), s)
  else some (none, s)

inductive Call where
  | write (iov : List Bytes) (offset writtenLen : Int)
  | read (count : Nat) (offset : Int) (memory : Bool) (moved : Option Nat)

def stepCall (s : PagedFile) : Call → Option PagedFile
  | .write iov offset writtenLen =>
    if Written iov offset writtenLen then some (s.intPwritev iov offset writtenLen).2 else none
  | .read count offset memory moved => (s.intPreadMoved uninit count offset memory moved).map Prod.snd

/-- The bytes of a file from `offset` to `offset + count` or to its end. -/
def between (f : Bytes) (count : Nat) (offset : Int) : Bytes :=
  (f.take (offset + count).toNat).drop offset.toNat

/-- The `pread` of the request is not cut short before the end of the file. -/
def Whole (s : PagedFile) (count : Nat) (offset : Int) (moved : Option Nat) : Prop :=
  ∀ n ∈ moved, reqCount count offset ≤ n ∨ (s.store.file.length : Int) ≤ offset - offset % pageSize + n

/-- With memory and a `pread` that is not cut short the call returns `true`, with the bytes of the file. -/
def ReadsExactly (s : PagedFile) (count : Nat) (offset : Int) : Prop :=
  ∀ n, s.Whole count offset (some n) →
    ∃ t, s.intPreadMoved uninit count offset true (some n) = some (some (between s.store.file count offset), t)

/-- The positions of the file, and no bytes from before it where the loops run over no page. -/
def InFile (count : Nat) (offset : Int) : Prop :=
  0 ≤ offset ∨ count = 0 ∧ (offset % pageSize = 0 ∨ -(pageSize : Int) ≤ offset)

/-- A region from a negative position that reaches the begin of the file: its bounds as unsigned numbers
enclose no page, and so all its pages count as cached. -/
def ReachesZero (count : Nat) (offset : Int) : Prop :=
  offset < 0 ∧ 0 < count ∧ count ≤ reqCount count offset ∧ reqCount count offset ≤ pageSize * cacheSize ∧
    0 ≤ offset - offset % pageSize + reqCount count offset

instance (count : Nat) (offset : Int) : Decidable (ReachesZero count offset) :=
  inferInstanceAs (Decidable (_ ∧ _))

end Functions

section Runs

variable {uninit : Nat → UInt8} {s t : PagedFile} {iov : List Bytes} {count dataLen : Nat}
  {offset writtenLen : Int} {moved : Option Nat} {memory : Bool} {b : Bytes} {call : Call} {calls : List Call}

/-- The assertion of `int_pread` keeps the sums of its request within 64 bits. -/
theorem reqCount_eq (h : count ≤ reqCount count offset) : reqCount count offset =
    ((offset % pageSize).toNat + count + (pageSize - 1)) / pageSize * pageSize := by
  simp only [reqCount, pageSize] at *
  omega

theorem le_reqCount (h : count ≤ reqCount count offset) :
    (offset % pageSize).toNat + count ≤ reqCount count offset := by
  rw [reqCount_eq h]
  simp only [pageSize]
  omega

theorem readMoved_reads (h : s.Coherent) (count offset : Nat) (moved : Option Nat) :
    Reads s (s.readMoved count offset moved).2 := by
  unfold readMoved
  dsimp only
  split
  · exact ⟨rfl, h⟩
  · cases moved with
    | none => exact ⟨rfl, h⟩
    | some n =>
      refine ⟨rfl, ?_⟩
      unfold Coherent
      dsimp only
      split
      · exact coherent_fillPages h (Nat.dvd_sub_mod offset)
      · exact h

/-- A read beyond what is there reads to the end of the file. -/
theorem pread_of_length_le {f : Bytes} {n m first : Nat} (hle : n ≤ m) (h : f.length ≤ first + n) :
    pread f n first = pread f m first := by
  rw [pread, pread, List.take_of_length_le (by rw [List.length_drop]; omega),
    List.take_of_length_le (by rw [List.length_drop]; omega)]

theorem readMoved_exact (h : s.Coherent) {offset : Nat} (hwhole : s.Whole count offset moved)
    (hcount : count ≤ reqCount count offset) (hread : (s.readMoved count offset moved).1 = some b) :
    b = pread s.store.file count offset := by
  have hsize := reqCount_eq hcount
  have hmod : ((offset : Int) % pageSize).toNat = offset % pageSize := by omega
  have hround := le_reqCount hcount
  have hback : offset - offset % pageSize + offset % pageSize = offset :=
    Nat.sub_add_cancel (Nat.mod_le offset pageSize)
  rw [hmod] at hsize hround
  unfold readMoved at hread
  simp only [← hsize] at hread
  split at hread
  · rename_i hcached
    cases hread
    rw [Bool.and_eq_true, List.all_eq_true] at hcached
    have hdvd : pageSize ∣ reqCount count offset := hsize ▸ Nat.dvd_mul_left pageSize _
    rw [copyOut_eq, PageCache.Coherent.contents h hcached.2, Nat.mul_comm pageSize, Nat.div_mul_cancel hdvd,
      pread_pread hround, hback]
  · cases moved with
    | none => cases hread
    | some n =>
      have hall : pread s.store.file (min (reqCount count offset) n) (offset - offset % pageSize) =
          pread s.store.file (reqCount count offset) (offset - offset % pageSize) := by
        rcases hwhole n rfl with hle | hend
        · rw [Nat.min_eq_left hle]
        · rcases Nat.le_total (reqCount count offset) n with hle | hge
          · rw [Nat.min_eq_left hle]
          · rw [Nat.min_eq_right hge]
            exact pread_of_length_le hge (by omega)
      cases hread
      rw [hall, copyOut_eq, pread_pread hround, hback]

theorem readMoved_returns (s : PagedFile) (count offset n : Nat) :
    ∃ b, (s.readMoved count offset (some n)).1 = some b := by
  unfold readMoved
  dsimp only
  split
  · exact ⟨_, rfl⟩
  · exact ⟨_, rfl⟩

/-- At a negative position only a region that reaches the begin of the file is read. -/
theorem intPread_negSucc (f : Bytes) {n : Nat} (hoff : -2 ^ 63 ≤ Int.negSucc n) (hpos : 0 < count)
    (hcount : count ≤ reqCount count (.negSucc n)) :
    FileStore.intPread uninit f count (.negSucc n) =
      if ReachesZero count (.negSucc n) then some ((List.range count).map uninit) else none := by
  have hsize := reqCount_eq hcount
  have hneg : ¬0 ≤ Int.negSucc n := Int.not_le.mpr (Int.negSucc_lt_zero n)
  have hlt : Int.negSucc n < 0 := Int.negSucc_lt_zero n
  have hback : -2 ^ 63 ≤ Int.negSucc n - Int.negSucc n % pageSize := by
    simp only [pageSize]
    omega
  rw [FileStore.intPread, if_neg hneg]
  simp only [← hsize]
  refine if_congr ?_ rfl rfl
  rw [ReachesZero]
  simp only [pageSize, cacheSize] at *
  omega

/-- No bytes at a negative position. -/
theorem intPread_zero (f : Bytes) {n : Nat} (hoff : -2 ^ 63 ≤ Int.negSucc n) :
    FileStore.intPread uninit f 0 (.negSucc n) =
      if Int.negSucc n % pageSize = 0 ∨ -(pageSize : Int) ≤ Int.negSucc n then some [] else none := by
  have hneg : Int.negSucc n < 0 := Int.negSucc_lt_zero n
  rw [FileStore.intPread, if_neg (Int.not_le.mpr hneg)]
  refine if_congr ?_ rfl rfl
  simp only [pageSize, cacheSize] at *
  omega

theorem length_intPread_negSucc {f : Bytes} {n : Nat}
    (h : FileStore.intPread uninit f count (.negSucc n) = some b) : b.length = count := by
  rw [FileStore.intPread, if_neg (Int.not_le.mpr (Int.negSucc_lt_zero n))] at h
  dsimp only at h
  split at h
  · cases h
    rw [List.length_map, List.length_range]
  · cases h

theorem length_between (f : Bytes) (h : offset < 0) (hpos : 0 < count) :
    (between f count offset).length < count := by
  rw [between, List.length_drop, List.length_take]
  omega

theorem between_ofNat (f : Bytes) (count offset : Nat) : between f count offset = pread f count offset := by
  have hsum : ((offset : Int) + count).toNat = offset + count := by omega
  rw [between, hsum, Int.toNat_natCast, List.drop_take, Nat.add_sub_cancel_left, pread]

theorem coherent_stepCall (h : s.Coherent) (hstep : stepCall uninit s call = some t) : t.Coherent := by
  cases call with
  | write iov offset writtenLen =>
    rw [stepCall] at hstep
    split at hstep
    · rename_i hwritten
      cases hstep
      exact h.intPwritev hwritten
    · cases hstep
  | read count offset memory moved =>
    obtain ⟨r, hr, rfl⟩ := Option.map_eq_some_iff.mp hstep
    unfold intPreadMoved at hr
    split at hr
    · cases hr
    · split at hr
      · cases offset with
        | ofNat offset =>
          cases hr
          exact (readMoved_reads h count offset moved).coherent
        | negSucc n =>
          cases hr
          exact h
      · cases hr
        exact h

/-- A read that returns bytes returns those of the file, unless its region reaches zero from below. -/
theorem intPreadMoved_exact (h : s.Coherent) (hoff : -2 ^ 63 ≤ offset) (hzero : ¬ReachesZero count offset)
    (hwhole : s.Whole count offset moved)
    (hread : s.intPreadMoved uninit count offset memory moved = some (some b, t)) :
    b = between s.store.file count offset := by
  unfold intPreadMoved at hread
  split at hread
  · cases hread
  · rename_i hcount
    split at hread
    · cases offset with
      | ofNat offset =>
        cases hr : s.readMoved count offset moved with
        | mk r t' =>
          simp only [hr] at hread
          cases hread
          rw [Int.ofNat_eq_natCast, between_ofNat]
          exact readMoved_exact h hwhole (Nat.le_of_not_lt hcount) (congrArg Prod.fst hr)
      | negSucc n =>
        rcases Nat.eq_zero_or_pos count with rfl | hpos
        · simp only [Option.some.injEq, Prod.mk.injEq] at hread
          have hnil : b = [] := List.length_eq_zero_iff.mp (length_intPread_negSucc hread.1)
          have hzero : (Int.negSucc n + (0 : Nat)).toNat = 0 := rfl
          rw [hnil, between, hzero, List.take_zero, List.drop_nil]
        · dsimp only at hread
          rw [intPread_negSucc s.store.file hoff hpos (Nat.le_of_not_lt hcount), if_neg hzero] at hread
          cases hread
    · cases hread

theorem readsExactly_ofNat (h : s.Coherent) {offset : Nat} (hcount : count ≤ reqCount count offset) :
    s.ReadsExactly uninit count offset := by
  intro n hwhole
  obtain ⟨b, hb⟩ := readMoved_returns s count offset n
  have hexact := readMoved_exact h hwhole hcount hb
  refine ⟨(s.readMoved count offset (some n)).2, ?_⟩
  unfold intPreadMoved
  rw [if_neg (Nat.not_lt.mpr hcount), if_pos rfl, between_ofNat, ← hexact, ← hb]

theorem readsExactly_negSucc {n : Nat} (hoff : -2 ^ 63 ≤ Int.negSucc n)
    (hcount : count ≤ reqCount count (.negSucc n)) :
    s.ReadsExactly uninit count (.negSucc n) ↔ InFile count (.negSucc n) := by
  have hneg : Int.negSucc n < 0 := Int.negSucc_lt_zero n
  have hread : ∀ m, s.intPreadMoved uninit count (.negSucc n) true m =
      some (FileStore.intPread uninit s.store.file count (.negSucc n), s) := by
    intro m
    unfold intPreadMoved
    rw [if_neg (Nat.not_lt.mpr hcount), if_pos rfl]
  have hreturns : s.ReadsExactly uninit count (.negSucc n) ↔
      FileStore.intPread uninit s.store.file count (.negSucc n) =
        some (between s.store.file count (.negSucc n)) := by
    refine ⟨fun h => ?_, fun h m _ => ⟨s, by rw [hread, h]⟩⟩
    obtain ⟨t, ht⟩ := h (reqCount count (.negSucc n)) (by rintro m hm; cases hm; exact .inl (Nat.le_refl _))
    rw [hread] at ht
    exact congrArg Prod.fst (Option.some.inj ht)
  rw [hreturns]
  rcases Nat.eq_zero_or_pos count with rfl | hpos
  · have hnil : between s.store.file 0 (.negSucc n) = [] := by
      have hzero : (Int.negSucc n + (0 : Nat)).toNat = 0 := rfl
      rw [between, hzero, List.take_zero, List.drop_nil]
    rw [intPread_zero s.store.file hoff, hnil]
    unfold InFile
    split
    · rename_i hpage
      exact iff_of_true rfl (.inr ⟨rfl, hpage⟩)
    · rename_i hpage
      exact iff_of_false (fun h => by cases h) (by rintro (h | ⟨-, h⟩) <;> [omega; exact hpage h])
  · refine iff_of_false (fun h => ?_) (by rintro (h | ⟨h, -⟩) <;> omega)
    have hlength := length_intPread_negSucc h
    exact absurd (length_between s.store.file hneg hpos) (by omega)

/-- In every state of a run the cache holds pages of the file. `int_pread` returns exactly the bytes of the file
if and only if they are asked for at a position of the file, with a count that passes the assertion; and it
returns other bytes only where its region reaches zero from below. -/
theorem intPread_exact_iff (uninit : Nat → UInt8) (dataLen : Nat) (calls : List Call) (s : PagedFile)
    (hrun : run (stepCall uninit) (create dataLen) calls = some s) (count : Nat) (offset : Int)
    (hoff : -2 ^ 63 ≤ offset) :
    s.Coherent ∧ (s.ReadsExactly uninit count offset ↔ count ≤ reqCount count offset ∧ InFile count offset) ∧
      ((∀ memory moved, s.Whole count offset moved → ∀ b t,
        s.intPreadMoved uninit count offset memory moved = some (some b, t) →
          b = between s.store.file count offset) ↔ ¬ReachesZero count offset) := by
  have hcoherent : s.Coherent :=
    run_invariant (fun _ _ _ hstep h => coherent_stepCall h hstep) hrun (coherent_empty fun _ => rfl)
  have hwhole : s.Whole count offset (some (reqCount count offset)) := by
    rintro n hn
    cases hn
    exact .inl (Nat.le_refl _)
  refine ⟨hcoherent, ?_, fun h hzero => ?_, fun h memory moved hwhole b t hread =>
    intPreadMoved_exact hcoherent hoff h hwhole hread⟩
  · by_cases hcount : count ≤ reqCount count offset
    · rw [and_iff_right hcount]
      cases offset with
      | ofNat offset =>
        exact iff_of_true (readsExactly_ofNat hcoherent hcount) (.inl (Int.natCast_nonneg offset))
      | negSucc n => exact readsExactly_negSucc hoff hcount
    · refine iff_of_false (fun h => ?_) (fun h => hcount h.1)
      obtain ⟨t, hread⟩ := h _ hwhole
      unfold intPreadMoved at hread
      rw [if_pos (Nat.lt_of_not_le hcount)] at hread
      cases hread
  · obtain ⟨hneg, hpos, hcount, -⟩ := id hzero
    cases offset with
    | ofNat offset => exact absurd hneg (Int.not_lt.mpr (Int.natCast_nonneg offset))
    | negSucc n =>
      have hbytes := h true none (fun _ hn => by cases hn) ((List.range count).map uninit) s (by
        rw [intPreadMoved, if_neg (Nat.not_lt.mpr hcount), if_pos rfl,
          intPread_negSucc s.store.file hoff hpos hcount, if_pos hzero])
      have hsame := congrArg List.length hbytes
      rw [List.length_map, List.length_range] at hsame
      exact absurd (length_between s.store.file hneg hpos) (by omega)

/-- A write that leaves a hole, and a read over the end of the file. -/
theorem intPread_exact_iff_hole : ∃ s,
    run (stepCall fun _ => 0) (create 4) [.write [[1, 2], [3, 4]] 600 4, .read 8 0 true (some 512)] = some s ∧
      s.Coherent ∧ s.ReadsExactly (fun _ => 0) 8 598 ∧ between s.store.file 8 598 = [0, 0, 1, 2, 3, 4] := by
  refine ⟨_, rfl, ?_, ?_, by decide +kernel⟩
  · exact (intPread_exact_iff (fun _ => 0) 4 [.write [[1, 2], [3, 4]] 600 4, .read 8 0 true (some 512)] _ rfl 8
      598 (by decide)).1
  · exact ((intPread_exact_iff (fun _ => 0) 4 [.write [[1, 2], [3, 4]] 600 4, .read 8 0 true (some 512)] _ rfl
      8 598 (by decide)).2.1.mpr ⟨by decide, .inl (by decide)⟩)

/-- Four bytes are written, and the read of four bytes from minus one returns as many that are none of them. -/
theorem intPread_minus_one : ∃ s,
    run (stepCall fun _ => 0) (create 4) [.write [[1, 2, 3, 4]] 0 4] = some s ∧ s.store.file = [1, 2, 3, 4] ∧
      s.intPreadMoved (fun _ => 0) 4 (-1) true none = some (some [0, 0, 0, 0], s) ∧
      between s.store.file 4 (-1) = [1, 2, 3] :=
  ⟨_, rfl, rfl, rfl, rfl⟩

end Runs

end FawnKV.Silt.PagedFile
