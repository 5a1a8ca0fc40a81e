import FawnKV.Lib.PageCache
import FawnKV.Silt.FileStore

/-! `FileStore` with the cache of its reads, and the log that `Append` writes. -/
namespace FawnKV.Silt

open ByteFile PageCache Transition

/-- A file store, and the pages of its file that are cached. -/
structure PagedFile where
  store : FileStore
  cache : Cache

namespace PagedFile

open FileStore (pageSize cacheSize)

section Functions

-- what the buffer of a read holds before the read
variable (uninit : Nat → UInt8)

def create (dataLen : Nat) : PagedFile := ⟨FileStore.create dataLen, fun _ => {}⟩

/-- The bytes of the request among those that were read: none, a part or all of them. -/
def copyOut (reqBuf : Bytes) (toDiscard count : Nat) : Bytes :=
  if reqBuf.length < toDiscard then []
  else if reqBuf.length < toDiscard + count then
    (reqBuf.drop toDiscard).take (reqBuf.length - toDiscard)
  else (reqBuf.drop toDiscard).take count

/-- `int_pread` at a position that is not negative: the pages around the region, all from the cache or
all from the file. -/
def readPages (s : PagedFile) (count offset : Nat) : Bytes × PagedFile :=
  let toDiscard := offset % pageSize
  let reqOffset := offset - toDiscard
  let reqCount := (toDiscard + count + (pageSize - 1)) / pageSize * pageSize
  let wanted := pages pageSize reqOffset (reqCount / pageSize)
  if decide (reqCount ≤ pageSize * cacheSize) && wanted.all (hit pageSize cacheSize s.cache) then
    (copyOut (contents pageSize cacheSize s.cache wanted) toDiscard count, s)
  else
    let reqBuf := pread s.store.file reqCount reqOffset
    -- a page that the end of the file cuts off is not kept
    let whole := pages pageSize reqOffset (reqBuf.length / pageSize)
    let cache :=
      if reqCount ≤ pageSize * cacheSize then
        whole.foldl (fun c p => fill pageSize cacheSize c p (pread reqBuf pageSize (p - reqOffset))) s.cache
      else s.cache
    (copyOut reqBuf toDiscard count, { s with cache })

/-- At a negative position nothing is cached. -/
def intPread (s : PagedFile) (count : Nat) : Int → Option Bytes × PagedFile
  | .ofNat offset => (some (s.readPages count offset).1, (s.readPages count offset).2)
  | .negSucc n => (FileStore.intPread uninit s.store.file count (.negSucc n), s)

def lengthAt (s : PagedFile) (id : Int) : Except FawnDSReturn Nat × PagedFile :=
  if s.store.endId ≤ id then (.error .keyNotFound, s)
  else if s.store.dataLen = 0 then
    match s.intPread uninit 4 id with
    | (none, s) => (.error .error, s)
    | (some buf, s) => (if buf.length ≠ 4 then .error .error else .ok (readLe buf), s)
  else (.ok s.store.dataLen, s)

/-- `none` is the exception of a `new` of more bytes than there are addresses. -/
def getAt (s : PagedFile) (id : Int) (offset len : Nat) : Option (Except FawnDSReturn Value × PagedFile) :=
  if s.store.endId ≤ id then some (.error .end, s)
  else
    match s.lengthAt uninit id with
    | (.error ret, s) => some (.error ret, s)
    | (.ok dataLen, s) =>
      if dataLen < offset then some (.error .end, s)
      else
        let len := if dataLen < (offset + len) % 2 ^ 64 then dataLen - offset else len
        let count := if s.store.dataLen = 0 then len else s.store.dataLen - offset
        let position := if s.store.dataLen = 0 then id + 4 + offset else id * s.store.dataLen + offset
        if 2 ^ 63 ≤ count then none
        else
          match s.intPread uninit count position with
          | (none, s) => some (.error .error, s)
          | (some data, s) => some (.ok (if s.store.dataLen = 0 then data else data.take len), s)

def length (s : PagedFile) (key : Value) : Except FawnDSReturn Nat × PagedFile :=
  s.lengthAt uninit (asOffset key)

def get (s : PagedFile) (key : Value) (offset len : Nat) : Option (Except FawnDSReturn Value × PagedFile) :=
  s.getAt uninit (asOffset key) offset len

/-- The cached pages from the one of `target` to those before `limit` are dropped. -/
def invalidated (s : PagedFile) (target limit : Nat) : Cache :=
  (pagesBelow pageSize (target - target % pageSize) limit).foldl (invalidate pageSize cacheSize) s.cache

/-- `int_pwritev`, where `pwritev` moves `writtenLen` of the bytes, or fails with minus one. -/
def intPwritev (s : PagedFile) (iov : List Bytes) (offset writtenLen : Int) : Bool × PagedFile :=
  let writeSize := (iov.map List.length).sum
  let file := if 0 < writtenLen then
    pwrite s.store.file (iov.flatten.take writtenLen.toNat) offset.toNat else s.store.file
  -- no entry has a negative offset
  let cache := if 0 ≤ offset then s.invalidated offset.toNat (offset + writtenLen).toNat else s.cache
  -- the comparison is one of unsigned numbers, in which minus one is large
  (!decide (writtenLen % 2 ^ 64 < writeSize), { store := { s.store with file }, cache })

/-- What `pwritev` can return. A position in a file is an `off_t`, and a negative one is an error. -/
def Written (iov : List Bytes) (offset writtenLen : Int) : Prop :=
  writtenLen = -1 ∨ 0 ≤ offset ∧ 0 ≤ writtenLen ∧ writtenLen ≤ (iov.map List.length).sum ∧
    offset + writtenLen < 2 ^ 63

instance (iov : List Bytes) (offset writtenLen : Int) : Decidable (Written iov offset writtenLen) :=
  inferInstanceAs (Decidable (_ ∨ _))

/-- What `Append` writes, and where. -/
def iov (s : PagedFile) (data : Value) : List Bytes :=
  if s.store.dataLen = 0 then [leBytes 4 data.length, data] else [data]

def target (s : PagedFile) : Nat :=
  if s.store.dataLen = 0 then s.store.nextAppendId else s.store.nextAppendId * s.store.dataLen

/-- The end of the records moves on only if `int_pwritev` says that it wrote. -/
def append (s : PagedFile) (data : Value) (writtenLen : Int) : FawnDSReturn × Value × PagedFile :=
  if s.store.dataLen ≠ 0 ∧ s.store.dataLen ≠ data.length then (.invalidData, [], s)
  else
    let keyVal := s.store.nextAppendId
    let counters := (s.store.append data).2.2
    let (wrote, t) := s.intPwritev (s.iov data) s.target writtenLen
    if wrote then (.ok, leBytes 8 keyVal, { t with store := { counters with file := t.store.file } })
    else (.error, leBytes 8 keyVal,
      { t with store := { t.store with nextAppendId := counters.nextAppendId } })

/-- An iterator of `Enumerate`, followed for at most `fuel` records. -/
def enumerateLoop : Nat → PagedFile → Nat → Option (List (Value × Value))
  | 0, _, _ => none
  | fuel + 1, s, nextId =>
    match s.get uninit (leBytes 8 nextId) 0 FawnDSSF.maxLen with
    | none => none
    | some (.ok data, s) =>
      (enumerateLoop fuel s (nextId + if s.store.dataLen = 0 then 4 + data.length else 1)).map
        ((leBytes 8 nextId, data) :: ·)
    | some (.error _, _) => some []

/-- Every record moves the iterator on, up to `END`. -/
def enumerate (s : PagedFile) : Option (List (Value × Value)) := enumerateLoop uninit (s.store.endId + 1) s 0

end Functions

section Refinement

variable {uninit : Nat → UInt8} {s s' : PagedFile} {count offset len : Nat} {id : Int} {data : Value}

/-- The cache holds pages of the file. -/
def Coherent (s : PagedFile) : Prop := PageCache.Coherent pageSize cacheSize s.cache s.store.file

/-- The store is as it was, and its cache is in order. -/
structure Reads (s s' : PagedFile) : Prop where
  store : s'.store = s.store
  coherent : s'.Coherent

theorem copyOut_eq (reqBuf : Bytes) (toDiscard count : Nat) :
    copyOut reqBuf toDiscard count = pread reqBuf count toDiscard := by
  rw [copyOut, pread]
  by_cases hnone : reqBuf.length < toDiscard
  · rw [if_pos hnone, List.drop_eq_nil_of_le (by omega), List.take_nil]
  · rw [if_neg hnone]
    by_cases hpart : reqBuf.length < toDiscard + count
    · rw [if_pos hpart, List.take_of_length_le (by rw [List.length_drop]),
        List.take_of_length_le (by rw [List.length_drop]; omega)]
    · rw [if_neg hpart]

/-- Whole pages of a read of consecutive pages are kept as the file has them. -/
theorem coherent_fillPages (h : s.Coherent) {first n : Nat} (hfirst : pageSize ∣ first) :
    PageCache.Coherent pageSize cacheSize
      ((pages pageSize first ((pread s.store.file n first).length / pageSize)).foldl
        (fun c p => fill pageSize cacheSize c p (pread (pread s.store.file n first) pageSize (p - first)))
        s.cache) s.store.file := by
  refine PageCache.Coherent.fillAll h fun p hp => ?_
  obtain ⟨i, hi, rfl⟩ := List.mem_map.mp hp
  rw [List.mem_range, pread, List.length_take, List.length_drop, Nat.lt_div_iff_mul_lt (by decide)] at hi
  refine ⟨Nat.dvd_add hfirst (Nat.dvd_mul_right pageSize i), ?_, ?_⟩
  · simp only [pageSize] at hi ⊢
    omega
  · rw [Nat.add_sub_cancel_left, pread_pread]
    simp only [pageSize] at hi ⊢
    omega

/-- A read gives the bytes of the file, from wherever it takes them. -/
theorem readPages_spec (h : s.Coherent) (count offset : Nat) :
    (s.readPages count offset).1 = pread s.store.file count offset ∧ Reads s (s.readPages count offset).2 := by
  have hround : offset % pageSize + count ≤
      (offset % pageSize + count + (pageSize - 1)) / pageSize * pageSize := by
    simp only [pageSize]
    omega
  have hback : offset - offset % pageSize + offset % pageSize = offset :=
    Nat.sub_add_cancel (Nat.mod_le offset pageSize)
  simp only [readPages]
  by_cases hcached : (decide ((offset % pageSize + count + (pageSize - 1)) / pageSize * pageSize ≤
        pageSize * cacheSize) &&
      (pages pageSize (offset - offset % pageSize)
        ((offset % pageSize + count + (pageSize - 1)) / pageSize * pageSize / pageSize)).all
          (hit pageSize cacheSize s.cache)) = true
  · rw [if_pos hcached]
    rw [Bool.and_eq_true, List.all_eq_true] at hcached
    refine ⟨?_, rfl, h⟩
    rw [copyOut_eq, PageCache.Coherent.contents h hcached.2, Nat.mul_comm pageSize,
      Nat.div_mul_cancel (Nat.dvd_mul_left pageSize _), pread_pread hround, hback]
  · rw [if_neg hcached]
    refine ⟨?_, rfl, ?_⟩
    · rw [copyOut_eq, pread_pread hround, hback]
    · unfold Coherent
      dsimp only
      split
      · exact coherent_fillPages h (Nat.dvd_sub_mod offset)
      · exact h

theorem Coherent.intPwritev {iov : List Bytes} {offset writtenLen : Int} (h : s.Coherent)
    (hwritten : Written iov offset writtenLen) : (s.intPwritev iov offset writtenLen).2.Coherent := by
  by_cases hmoved : 0 < writtenLen
  · obtain ⟨hoff, -, hle, -⟩ := hwritten.resolve_left (by omega)
    have hlen : (iov.flatten.take writtenLen.toNat).length = writtenLen.toNat := by
      rw [List.length_take, List.length_flatten]
      omega
    have hlimit : (offset + writtenLen).toNat = offset.toNat + writtenLen.toNat := by omega
    unfold Coherent PagedFile.intPwritev
    simp only [if_pos hmoved, if_pos hoff]
    have hwrite := PageCache.Coherent.write (by decide) h (iov.flatten.take writtenLen.toNat) offset.toNat
    rwa [hlen, ← hlimit] at hwrite
  · unfold Coherent PagedFile.intPwritev
    simp only [if_neg hmoved]
    split
    · exact PageCache.Coherent.invalidateAll h _
    · exact h

/-- Without an error of `pwritev`, `true` means that all bytes are in the file. -/
theorem intPwritev_wrote {iov : List Bytes} {offset writtenLen : Int} (hwritten : Written iov offset writtenLen)
    (hlands : writtenLen ≠ -1) (hwrote : (s.intPwritev iov offset writtenLen).1 = true)
    (hne : iov.flatten ≠ []) :
    (s.intPwritev iov offset writtenLen).2.store =
      { s.store with file := pwrite s.store.file iov.flatten offset.toNat } ∧
    offset.toNat + iov.flatten.length < 2 ^ 63 := by
  obtain ⟨hoff, hnonneg, hle, hbound⟩ := hwritten.resolve_left hlands
  have hpos := List.length_pos_of_ne_nil hne
  rw [← List.length_flatten] at hle
  have hall : writtenLen = iov.flatten.length := by
    rw [PagedFile.intPwritev] at hwrote
    simp only [Bool.not_eq_true', decide_eq_false_iff_not, ← List.length_flatten] at hwrote
    omega
  refine ⟨?_, by omega⟩
  have hmoved : 0 < writtenLen := by omega
  simp only [PagedFile.intPwritev, if_pos hmoved]
  rw [hall, Int.toNat_natCast, List.take_length]

theorem intPread_spec (uninit : Nat → UInt8) (h : s.Coherent) (count : Nat) (offset : Int) :
    (s.intPread uninit count offset).1 = FileStore.intPread uninit s.store.file count offset ∧
      Reads s (s.intPread uninit count offset).2 := by
  cases offset with
  | ofNat offset =>
    obtain ⟨hread, hreads⟩ := readPages_spec h count offset
    refine ⟨?_, hreads⟩
    have hnonneg : 0 ≤ Int.ofNat offset := Int.natCast_nonneg offset
    rw [intPread, hread, FileStore.intPread, if_pos hnonneg]
    rfl
  | negSucc n => exact ⟨rfl, rfl, h⟩

/-- `Length` does not depend on the cache. -/
theorem lengthAt_spec (uninit : Nat → UInt8) (h : s.Coherent) (id : Int) :
    (s.lengthAt uninit id).1 = s.store.lengthAt uninit id ∧ Reads s (s.lengthAt uninit id).2 := by
  obtain ⟨hread, hreads⟩ := intPread_spec uninit h 4 id
  rw [lengthAt, FileStore.lengthAt, ← hread]
  split
  · exact ⟨rfl, rfl, h⟩
  · split
    · rcases hpread : s.intPread uninit 4 id with ⟨_ | buf, s'⟩
      · rw [hpread] at hreads
        exact ⟨rfl, hreads⟩
      · rw [hpread] at hreads
        exact ⟨rfl, hreads⟩
    · exact ⟨rfl, rfl, h⟩

/-- The bytes that `Get` asks memory for, where the record has `dataLen` bytes. -/
def bufferSize (s : FileStore) (dataLen offset len : Nat) : Nat :=
  if s.dataLen = 0 then if dataLen < (offset + len) % 2 ^ 64 then dataLen - offset else len
  else s.dataLen - offset

/-- `Get` does not depend on the cache, if there is memory for its buffer. -/
theorem getAt_spec (uninit : Nat → UInt8) (h : s.Coherent)
    (hmem : ∀ dataLen, s.store.lengthAt uninit id = .ok dataLen → offset ≤ dataLen →
      bufferSize s.store dataLen offset len < 2 ^ 63) :
    ∃ s', s.getAt uninit id offset len = some (s.store.getAt uninit id offset len, s') ∧ Reads s s' := by
  rw [getAt, FileStore.getAt]
  by_cases hend : (s.store.endId : Int) ≤ id
  · rw [if_pos hend, if_pos hend]
    exact ⟨s, rfl, rfl, h⟩
  rw [if_neg hend, if_neg hend]
  obtain ⟨hlength, hreads⟩ := lengthAt_spec uninit h id
  rcases hat : s.lengthAt uninit id with ⟨ret | dataLen, t⟩
  · rw [hat] at hlength hreads
    rw [← hlength]
    exact ⟨t, rfl, hreads⟩
  rw [hat] at hlength hreads
  rw [← hlength]
  simp only
  by_cases hoff : dataLen < offset
  · rw [if_pos hoff, if_pos hoff]
    exact ⟨t, rfl, hreads⟩
  rw [if_neg hoff, if_neg hoff]
  have hbuffer := hmem dataLen hlength.symm (Nat.le_of_not_lt hoff)
  rw [bufferSize] at hbuffer
  rw [hreads.store]
  have hstep : ∀ count position, ∃ u, t.intPread uninit count position =
      (FileStore.intPread uninit s.store.file count position, u) ∧ Reads s u := by
    intro count position
    obtain ⟨hread, hstore, hcoherent⟩ := intPread_spec uninit hreads.coherent count position
    rw [hreads.store] at hread hstore
    exact ⟨_, Prod.ext hread rfl, hstore, hcoherent⟩
  by_cases hvar : s.store.dataLen = 0
  · simp only [if_pos hvar] at hbuffer ⊢
    rw [if_neg (Nat.not_le.mpr hbuffer)]
    obtain ⟨u, hu, hreads'⟩ := hstep (if dataLen < (offset + len) % 2 ^ 64 then dataLen - offset else len)
      (id + 4 + offset)
    rw [hu]
    refine ⟨u, ?_, hreads'⟩
    cases FileStore.intPread uninit s.store.file
        (if dataLen < (offset + len) % 2 ^ 64 then dataLen - offset else len) (id + 4 + offset) with
    | none => rfl
    | some data =>
      simp only [hreads'.store, if_pos hvar]
  · simp only [if_neg hvar] at hbuffer ⊢
    rw [if_neg (Nat.not_le.mpr hbuffer)]
    obtain ⟨u, hu, hreads'⟩ := hstep (s.store.dataLen - offset) (id * s.store.dataLen + offset)
    rw [hu]
    refine ⟨u, ?_, hreads'⟩
    cases FileStore.intPread uninit s.store.file (s.store.dataLen - offset)
        (id * s.store.dataLen + offset) with
    | none => rfl
    | some data =>
      simp only [hreads'.store, if_neg hvar]

/-- Without memory for the buffer there is an exception. -/
theorem getAt_throws (h : s.Coherent) {dataLen : Nat} (hend : id < s.store.endId)
    (hlength : s.store.lengthAt uninit id = .ok dataLen) (hoff : offset ≤ dataLen)
    (hmem : 2 ^ 63 ≤ bufferSize s.store dataLen offset len) : s.getAt uninit id offset len = none := by
  obtain ⟨hsame, hreads⟩ := lengthAt_spec uninit h id
  rcases hat : s.lengthAt uninit id with ⟨r, t⟩
  rw [hat] at hsame hreads
  rw [hlength] at hsame
  obtain rfl : r = .ok dataLen := hsame
  have hstore : t.store = s.store := hreads.store
  rw [getAt, if_neg (by omega), hat]
  simp only [if_neg (Nat.not_lt.mpr hoff), hstore]
  rw [bufferSize] at hmem
  exact if_pos hmem

/-- What `Get` leaves, it leaves in order. -/
theorem reads_getAt (h : s.Coherent) {r : Except FawnDSReturn Value}
    (hget : s.getAt uninit id offset len = some (r, s')) : Reads s s' := by
  by_cases hmem : ∀ dataLen, s.store.lengthAt uninit id = .ok dataLen → offset ≤ dataLen →
      bufferSize s.store dataLen offset len < 2 ^ 63
  · obtain ⟨t, ht, hreads⟩ := getAt_spec uninit h hmem
    rw [ht] at hget
    cases hget
    exact hreads
  · push Not at hmem
    obtain ⟨dataLen, hlength, hoff, hbig⟩ := hmem
    have hend : id < s.store.endId := by
      by_contra hge
      rw [FileStore.lengthAt, if_pos (by omega)] at hlength
      cases hlength
    rw [getAt_throws h hend hlength hoff hbig] at hget
    cases hget

end Refinement

end PagedFile

namespace FileStore

/-- The bytes of a record in the file. -/
def frame (dataLen : Nat) (r : Value) : Bytes := if dataLen = 0 then leBytes 4 r.length ++ r else r

/-- The id of the record that comes after these. -/
def idAfter (dataLen : Nat) (recs : List Value) : Nat :=
  if dataLen = 0 then (recs.flatMap (frame dataLen)).length else recs.length

/-- A record that the store can give back: its length fits a `uint32_t`, or is the configured one. -/
def Fits (dataLen : Nat) (r : Value) : Prop := if dataLen = 0 then r.length < 2 ^ 32 else r.length = dataLen

/-- The store after these records were appended. -/
structure Records (s : FileStore) (recs : List Value) : Prop where
  dataLen_lt : s.dataLen < 2 ^ 64
  file : s.file = recs.flatMap (frame s.dataLen)
  nextAppendId : s.nextAppendId = idAfter s.dataLen recs
  endId : s.endId = idAfter s.dataLen recs
  fits : ∀ r ∈ recs, Fits s.dataLen r

section Records

variable {uninit : Nat → UInt8} {s : FileStore} {recs pre post : List Value} {r data : Value}
  {dataLen offset len : Nat}

theorem length_frame (h : Fits dataLen r) :
    (frame dataLen r).length = if dataLen = 0 then 4 + r.length else dataLen := by
  rw [Fits] at h
  rw [frame]
  split at h
  · rename_i hvar
    rw [if_pos hvar, if_pos hvar, List.length_append, length_leBytes]
  · rename_i hfix
    rw [if_neg hfix, if_neg hfix, h]

/-- Where in the file the frame after these begins. -/
theorem length_frames (h : ∀ r ∈ recs, Fits dataLen r) : (recs.flatMap (frame dataLen)).length =
    if dataLen = 0 then idAfter dataLen recs else idAfter dataLen recs * dataLen := by
  by_cases hvar : dataLen = 0
  · rw [if_pos hvar, idAfter, if_pos hvar]
  · rw [if_neg hvar, idAfter, if_neg hvar, Nat.mul_comm]
    refine length_records fun r hr => ?_
    rw [length_frame (h r hr), if_neg hvar]

theorem idAfter_append (pre : List Value) (h : Fits dataLen r) : idAfter dataLen (pre ++ [r]) =
    idAfter dataLen pre + if dataLen = 0 then 4 + r.length else 1 := by
  rw [idAfter, idAfter]
  by_cases hvar : dataLen = 0
  · rw [if_pos hvar, if_pos hvar, if_pos hvar, List.flatMap_append, List.flatMap_singleton,
      List.length_append, length_frame h, if_pos hvar]
  · rw [if_neg hvar, if_neg hvar, if_neg hvar, List.length_append, List.length_singleton]

theorem idAfter_lt (h : Fits dataLen r) (post : List Value) :
    idAfter dataLen pre < idAfter dataLen (pre ++ r :: post) := by
  rw [idAfter, idAfter]
  by_cases hvar : dataLen = 0
  · rw [if_pos hvar, if_pos hvar, List.flatMap_append, List.flatMap_cons, List.length_append,
      List.length_append, length_frame h, if_pos hvar]
    omega
  · rw [if_neg hvar, if_neg hvar, List.length_append, List.length_cons]
    omega

theorem Records.create (hlen : dataLen < 2 ^ 64) : Records (create dataLen) [] := by
  refine ⟨hlen, rfl, ?_, ?_, by simp⟩ <;>
  · rw [idAfter]
    split <;> rfl

theorem Records.append (h : Records s recs) (hdata : Fits s.dataLen data) :
    Records (append s data).2.2 (recs ++ [data]) ∧ (append s data).2.2.dataLen = s.dataLen := by
  have hframes := length_frames h.fits
  have hnext := h.nextAppendId
  have hid := idAfter_append recs hdata
  have hfits : ∀ r ∈ recs ++ [data], Fits s.dataLen r := by
    intro r hr
    rcases List.mem_append.mp hr with hr | hr
    · exact h.fits r hr
    · rw [List.mem_singleton.mp hr]
      exact hdata
  have hfile : (recs ++ [data]).flatMap (frame s.dataLen) = s.file ++ frame s.dataLen data := by
    rw [List.flatMap_append, List.flatMap_singleton, h.file]
  by_cases hvar : s.dataLen = 0
  · have hmod : data.length % 2 ^ 32 = data.length := by
      rw [Fits, if_pos hvar] at hdata
      exact Nat.mod_eq_of_lt hdata
    rw [if_pos hvar] at hframes hid
    have htarget : s.nextAppendId = s.file.length := by rw [hnext, h.file, hframes]
    simp only [FileStore.append, writeAt, hvar, ne_eq, not_true_eq_false, false_and, if_false, if_true, hmod]
    refine ⟨⟨Nat.two_pow_pos 64, ?_, ?_, ?_, hvar ▸ hfits⟩, trivial⟩
    · simp only
      rw [htarget, pwrite_length, ← hvar, hfile, frame, if_pos hvar]
    · simp only
      rw [← hvar, hid, hnext]
    · simp only
      rw [h.endId, ← hvar, hid, hnext]
      split <;> omega
  · have hpass : ¬(s.dataLen ≠ 0 ∧ s.dataLen ≠ data.length) := by
      rw [Fits, if_neg hvar] at hdata
      rintro ⟨-, hne⟩
      exact hne hdata.symm
    rw [if_neg hvar] at hframes hid
    have htarget : s.nextAppendId * s.dataLen = s.file.length := by rw [hnext, h.file, hframes]
    simp only [FileStore.append, if_neg hpass, writeAt, if_neg hvar]
    refine ⟨⟨h.dataLen_lt, ?_, ?_, ?_, hfits⟩, trivial⟩
    · simp only
      rw [htarget, pwrite_length, hfile, frame, if_neg hvar]
    · simp only
      rw [hid, hnext]
    · simp only
      rw [h.endId, hid, hnext]
      split <;> omega

theorem Records.fits_mem (h : Records s (pre ++ r :: post)) : Fits s.dataLen r :=
  h.fits r (List.mem_append_right pre List.mem_cons_self)

theorem Records.lt_endId (h : Records s (pre ++ r :: post)) : idAfter s.dataLen pre < s.endId := by
  rw [h.endId]
  exact idAfter_lt h.fits_mem post

/-- A read inside the frame of a record. -/
theorem Records.pread (h : Records s (pre ++ r :: post)) (count offset : Nat)
    (hle : offset + count ≤ (frame s.dataLen r).length) :
    pread s.file count ((pre.flatMap (frame s.dataLen)).length + offset) =
      pread (frame s.dataLen r) count offset := by
  rw [h.file, List.flatMap_append, List.flatMap_cons, ByteFile.pread, ByteFile.pread, ← List.drop_drop,
    List.drop_left, List.drop_append_of_le_length (by omega),
    List.take_append_of_le_length (by rw [List.length_drop]; omega)]

theorem Records.lengthAt (h : Records s (pre ++ r :: post)) :
    s.lengthAt uninit (idAfter s.dataLen pre) = .ok r.length := by
  have hlt := h.lt_endId
  have hfits := h.fits_mem
  rw [FileStore.lengthAt, if_neg (by omega)]
  by_cases hvar : s.dataLen = 0
  · have hframe := length_frame hfits
    have hread := h.pread 4 0 (by rw [hframe, if_pos hvar]; omega)
    have hpos : (pre.flatMap (frame s.dataLen)).length = idAfter s.dataLen pre := by
      rw [idAfter, if_pos hvar]
    rw [if_pos hvar, intPread, if_pos (Int.natCast_nonneg _), Int.toNat_natCast, ← hpos,
      ← Nat.add_zero (List.length _), hread, frame, if_pos hvar, ByteFile.pread, List.drop_zero,
      List.take_left' (length_leBytes _ _)]
    simp only [length_leBytes, ne_eq, not_true_eq_false, if_false]
    rw [Fits, if_pos hvar] at hfits
    rw [readLe_leBytes hfits]
  · rw [if_neg hvar]
    rw [Fits, if_neg hvar] at hfits
    rw [hfits]

/-- The bytes of the record from `offset` on in its frame. -/
theorem pread_frame (dataLen count offset : Nat) :
    pread (frame dataLen r) count ((if dataLen = 0 then 4 else 0) + offset) = (r.drop offset).take count := by
  rw [frame]
  by_cases hvar : dataLen = 0
  · rw [if_pos hvar, if_pos hvar, ByteFile.pread, ← List.drop_drop, List.drop_left' (length_leBytes _ _)]
  · rw [if_neg hvar, if_neg hvar, Nat.zero_add, ByteFile.pread]

/-- A part of a record of any length, where its end is not past the last number of 64 bits. -/
theorem Records.getAt_variable (h : Records s (pre ++ r :: post)) (hvar : s.dataLen = 0)
    (hoff : offset ≤ r.length) (hwrap : offset + len < 2 ^ 64) :
    s.getAt uninit (idAfter s.dataLen pre) offset len = .ok ((r.drop offset).take len) := by
  have hlt := h.lt_endId
  have hfits := h.fits_mem
  have hframe := length_frame hfits
  have hpos : (pre.flatMap (frame s.dataLen)).length = idAfter s.dataLen pre := by
    rw [idAfter, if_pos hvar]
  rw [FileStore.getAt, if_neg (by omega), h.lengthAt]
  simp only [if_neg (Nat.not_lt.mpr hoff), if_pos hvar, Nat.mod_eq_of_lt hwrap]
  have hclamp : (if r.length < offset + len then r.length - offset else len) = min len (r.length - offset) := by
    split <;> omega
  have hcast : (idAfter s.dataLen pre : Int) + 4 + offset =
      ((idAfter s.dataLen pre + (4 + offset) : Nat) : Int) := by
    push_cast
    omega
  have hread := pread_frame (r := r) s.dataLen (min len (r.length - offset)) offset
  rw [if_pos hvar] at hframe hread
  rw [hclamp, hcast, intPread, if_pos (Int.natCast_nonneg _), Int.toNat_natCast, ← hpos,
    h.pread _ (4 + offset) (by omega), hread, ← List.length_drop, ← List.take_take,
    List.take_of_length_le (Nat.le_refl (r.drop offset).length)]

/-- A part of a record of the configured length. -/
theorem Records.getAt_fixed (h : Records s (pre ++ r :: post)) (hfix : s.dataLen ≠ 0)
    (hoff : offset ≤ r.length) :
    s.getAt uninit (idAfter s.dataLen pre) offset len = .ok ((r.drop offset).take len) := by
  have hlt := h.lt_endId
  have hfits := h.fits_mem
  have hframe := length_frame hfits
  have hbound := h.dataLen_lt
  have hpos := length_frames fun r hr => h.fits r (List.mem_append_left _ hr)
  have hlen : r.length = s.dataLen := by
    rw [Fits, if_neg hfix] at hfits
    exact hfits
  rw [FileStore.getAt, if_neg (by omega), h.lengthAt]
  simp only [if_neg (Nat.not_lt.mpr hoff), if_neg hfix]
  have hcast : (idAfter s.dataLen pre : Int) * s.dataLen + offset =
      ((idAfter s.dataLen pre * s.dataLen + (0 + offset) : Nat) : Int) := by
    push_cast
    omega
  have hread := pread_frame (r := r) s.dataLen (s.dataLen - offset) offset
  rw [if_neg hfix] at hframe hread hpos
  rw [hcast, intPread, if_pos (Int.natCast_nonneg _), Int.toNat_natCast, ← hpos,
    h.pread _ (0 + offset) (by omega), hread]
  -- whether the sum was clamped or not, the rest of the record is no longer than asked
  have hrest : (r.drop offset).length = s.dataLen - offset := by rw [List.length_drop, hlen]
  simp only
  rw [List.take_of_length_le (Nat.le_of_eq hrest)]
  by_cases hclamp : r.length < (offset + len) % 2 ^ 64
  · rw [if_pos hclamp, List.take_of_length_le (by omega), List.take_of_length_le]
    have hmod := Nat.mod_le (offset + len) (2 ^ 64)
    omega
  · rw [if_neg hclamp]

theorem Records.getAt_whole (h : Records s (pre ++ r :: post)) :
    s.getAt uninit (idAfter s.dataLen pre) 0 FawnDSSF.maxLen = .ok r := by
  have hlt : r.length ≤ FawnDSSF.maxLen := by
    have hfits := h.fits_mem
    have hbound := h.dataLen_lt
    rw [Fits] at hfits
    rw [FawnDSSF.maxLen]
    split at hfits <;> omega
  have hwhole : (r.drop 0).take FawnDSSF.maxLen = r := by rw [List.drop_zero, List.take_of_length_le hlt]
  by_cases hvar : s.dataLen = 0
  · rw [h.getAt_variable hvar (Nat.zero_le _) (by decide), hwhole]
  · rw [h.getAt_fixed hvar (Nat.zero_le _), hwhole]

theorem Records.endId_le (h : Records s recs) : s.endId ≤ s.file.length := by
  rw [h.endId, h.file, length_frames h.fits]
  split
  · exact Nat.le_refl _
  · rename_i hfix
    exact Nat.le_mul_of_pos_right _ (Nat.pos_of_ne_zero hfix)

/-- The file after an `Append`, and where the record was written. -/
theorem file_append (s : FileStore) (h : Fits s.dataLen data) : (append s data).2.2.file =
    pwrite s.file (frame s.dataLen data)
      (if s.dataLen = 0 then s.nextAppendId else s.nextAppendId * s.dataLen) := by
  rw [Fits] at h
  simp only [FileStore.append, writeAt, frame]
  split at h
  · rename_i hvar
    simp only [hvar, ne_eq, not_true_eq_false, false_and, if_false, if_true]
  · rename_i hfix
    simp only [hfix, h, ne_eq, not_true_eq_false, and_false, if_false]

theorem asOffset_leBytes_eight {id : Nat} (hid : id < 2 ^ 63) : asOffset (leBytes 8 id) = id := by
  rw [asOffset, number?, length_leBytes, if_pos (by decide), readLe_leBytes (Nat.lt_trans hid (by decide))]
  exact if_pos hid

end Records

end FileStore

namespace PagedFile

inductive Op where
  | append (data : Value) (writtenLen : Int)
  | get (key : Value) (offset len : Nat)
  | length (key : Value)

/-- The store, and the records appended to it with the ids that were returned. -/
structure Observed where
  store : PagedFile
  log : List (Value × Value)

/-- One call; a run stops at an `Append` that fails. -/
def step (uninit : Nat → UInt8) (o : Observed) : Op → Option Observed
  | .append data writtenLen =>
    if Written (o.store.iov data) o.store.target writtenLen then
      match o.store.append data writtenLen with
      | (.ok, key, store) => some ⟨store, o.log ++ [(key, data)]⟩
      | _ => none
    else none
  | .get key offset len => (o.store.get uninit key offset len).map fun r => { o with store := r.2 }
  | .length key => some { o with store := (o.store.length uninit key).2 }

/-- The records of an `Append` have lengths of 32 bits. -/
def Op.Short : Op → Prop
  | .append data _ => data.length < 2 ^ 32
  | _ => True

/-- The `pwritev` of an `Append` does not fail. -/
def Op.Lands : Op → Prop
  | .append _ writtenLen => writtenLen ≠ -1
  | _ => True

/-- What the calls keep. -/
structure Inv (dataLen : Nat) (o : Observed) : Prop where
  dataLen_eq : o.store.store.dataLen = dataLen
  coherent : o.store.Coherent
  records : FileStore.Records o.store.store (o.log.map Prod.snd)
  file_lt : o.store.store.file.length < 2 ^ 63
  key : ∀ pre key r post, o.log = pre ++ (key, r) :: post →
    key = leBytes 8 (FileStore.idAfter dataLen (pre.map Prod.snd))

section Runs

variable {uninit : Nat → UInt8} {dataLen : Nat} {o o' : Observed} {op : Op} {key data r : Value}
  {pre post : List (Value × Value)}

theorem inv_start (hlen : dataLen < 2 ^ 64) : Inv dataLen ⟨create dataLen, []⟩ := by
  refine ⟨rfl, coherent_empty fun _ => rfl, FileStore.Records.create hlen, Nat.two_pow_pos 63, ?_⟩
  intro pre key r post h
  cases pre <;> cases h

theorem Inv.reads (h : Inv dataLen o) {s : PagedFile} (hreads : Reads o.store s) :
    Inv dataLen { o with store := s } := by
  obtain ⟨hstore, hcoherent⟩ := hreads
  refine ⟨?_, hcoherent, ?_, ?_, h.key⟩
  · exact (congrArg FileStore.dataLen hstore).trans h.dataLen_eq
  · show FileStore.Records s.store _
    rw [hstore]
    exact h.records
  · show s.store.file.length < _
    rw [hstore]
    exact h.file_lt

theorem iov_flatten (s : PagedFile) (data : Value) :
    (s.iov data).flatten = FileStore.frame s.store.dataLen data := by
  rw [iov, FileStore.frame]
  split
  · rw [List.flatten_cons, List.flatten_singleton]
  · exact List.flatten_singleton

theorem inv_append (h : Inv dataLen o) (hshort : dataLen = 0 → data.length < 2 ^ 32) {s : PagedFile}
    {writtenLen : Int} (hwritten : Written (o.store.iov data) o.store.target writtenLen)
    (hlands : writtenLen ≠ -1)
    (happend : o.store.append data writtenLen = (.ok, key, s)) : Inv dataLen ⟨s, o.log ++ [(key, data)]⟩ := by
  obtain ⟨hlen, hcoherent, hrecords, hlt, hkey⟩ := h
  rw [append] at happend
  split at happend
  · cases happend
  rename_i hpass
  have hfits : FileStore.Fits o.store.store.dataLen data := by
    rw [FileStore.Fits]
    split
    · rename_i hvar
      exact hshort (hlen.symm.trans hvar)
    · rename_i hfix
      by_contra hne
      exact hpass ⟨hfix, Ne.symm hne⟩
  have hframe := FileStore.length_frame hfits
  have hne : FileStore.frame o.store.store.dataLen data ≠ [] := by
    refine List.ne_nil_of_length_pos ?_
    rw [hframe]
    split <;> omega
  dsimp only at happend
  split at happend
  · rename_i hwrote
    obtain ⟨rfl, rfl⟩ := Prod.mk.inj (Prod.mk.inj happend).2
    obtain ⟨hstore, hbound⟩ := intPwritev_wrote hwritten hlands hwrote (iov_flatten o.store data ▸ hne)
    obtain ⟨hrecords', hlen'⟩ := hrecords.append hfits
    have hfile := FileStore.file_append o.store.store hfits
    have hsame : (o.store.store.append data).2.2.file =
        (o.store.intPwritev (o.store.iov data) o.store.target writtenLen).2.store.file := by
      rw [hfile, hstore, iov_flatten]
      rfl
    rw [iov_flatten] at hbound
    rw [← hsame]
    refine ⟨hlen'.trans hlen, ?_, ?_, ?_, ?_⟩
    · show PageCache.Coherent _ _ _ (o.store.store.append data).2.2.file
      rw [hsame]
      exact hcoherent.intPwritev hwritten
    · rw [List.map_append]
      exact hrecords'
    · show (o.store.store.append data).2.2.file.length < _
      rw [hfile, length_pwrite]
      simp only [target] at hbound
      omega
    · intro pre key r post heq
      rcases List.eq_nil_or_concat post with rfl | ⟨post', last, rfl⟩
      · obtain ⟨rfl, hlast⟩ := List.append_inj' heq rfl
        cases hlast
        rw [hrecords.nextAppendId, hlen]
      · rw [List.concat_eq_append, ← List.cons_append, ← List.append_assoc] at heq
        exact hkey pre key r post' (List.append_inj' heq rfl).1
  · cases (Prod.mk.inj happend).1

theorem inv_step (h : Inv dataLen o) (hshort : dataLen = 0 → op.Short)
    (hlands : op.Lands) (hstep : step uninit o op = some o') : Inv dataLen o' := by
  cases op with
  | append data writtenLen =>
    rw [step] at hstep
    split at hstep
    · rename_i hwritten
      split at hstep
      · rename_i key s happend
        cases hstep
        exact inv_append h hshort hwritten hlands happend
      · cases hstep
    · cases hstep
  | get key offset len =>
    obtain ⟨⟨ret, s⟩, hget, rfl⟩ := Option.map_eq_some_iff.mp hstep
    exact h.reads (reads_getAt h.coherent hget)
  | length key =>
    obtain rfl := Option.some.inj hstep
    exact h.reads (lengthAt_spec uninit h.coherent (asOffset key)).2

theorem inv_run {ops : List Op} (hshort : dataLen = 0 → ∀ op ∈ ops, op.Short)
    (hlands : ∀ op ∈ ops, op.Lands) (hrun : run (step uninit) o ops = some o') (h : Inv dataLen o) :
    Inv dataLen o' := by
  have hstep : ∀ o op o', step uninit o op = some o' → (dataLen = 0 → op.Short) ∧ op.Lands →
      Inv dataLen o → Inv dataLen o' := fun o op o' hstep hop hinv => inv_step hinv hop.1 hop.2 hstep
  exact run_invariant_of_meets hstep hrun
    (meets_of_forall_mem (fun op hop => ⟨fun hvar => hshort hvar op hop, hlands op hop⟩) o) h

/-- The id of a record of the log, and that record, in the file. -/
theorem Inv.at (h : Inv dataLen o) (hlog : o.log = pre ++ (key, r) :: post) :
    asOffset key = FileStore.idAfter o.store.store.dataLen (pre.map Prod.snd) ∧
      FileStore.Records o.store.store (pre.map Prod.snd ++ r :: post.map Prod.snd) := by
  have hrecords := h.records
  rw [hlog, List.map_append, List.map_cons] at hrecords
  refine ⟨?_, hrecords⟩
  have hlt := hrecords.lt_endId
  have hend := hrecords.endId_le
  have hfile := h.file_lt
  rw [h.key pre key r post hlog, h.dataLen_eq, FileStore.asOffset_leBytes_eight]
  rw [h.dataLen_eq] at hlt
  omega

/-- There is memory for the buffer of a `Get` of a whole record. -/
theorem Inv.get (uninit : Nat → UInt8) (h : Inv dataLen o) (hlog : o.log = pre ++ (key, r) :: post) :
    ∃ s, o.store.get uninit key 0 FawnDSSF.maxLen = some (.ok r, s) ∧ Reads o.store s := by
  obtain ⟨hid, hrecords⟩ := h.at hlog
  have hfile := h.file_lt
  have hfits := hrecords.fits_mem
  have hmem : ∀ dataLen, o.store.store.lengthAt uninit (asOffset key) = .ok dataLen → 0 ≤ dataLen →
      bufferSize o.store.store dataLen 0 FawnDSSF.maxLen < 2 ^ 63 := by
    intro n hn _
    rw [hid, hrecords.lengthAt] at hn
    cases hn
    rw [bufferSize]
    by_cases hvar : o.store.store.dataLen = 0
    · rw [FileStore.Fits, if_pos hvar] at hfits
      rw [if_pos hvar, FawnDSSF.maxLen, if_pos (by omega)]
      omega
    · -- the file holds a record of this length
      have hlen := congrArg List.length hrecords.file
      rw [List.flatMap_append, List.flatMap_cons, List.length_append, List.length_append,
        FileStore.length_frame hfits, if_neg hvar] at hlen
      rw [if_neg hvar]
      omega
  obtain ⟨s, hget, hreads⟩ := getAt_spec uninit h.coherent hmem
  rw [hid, hrecords.getAt_whole, ← hid] at hget
  exact ⟨s, hget, hreads⟩

theorem Inv.length (h : Inv dataLen o) (hlog : o.log = pre ++ (key, r) :: post) :
    (o.store.length uninit key).1 = .ok r.length := by
  obtain ⟨hid, hrecords⟩ := h.at hlog
  rw [PagedFile.length, (lengthAt_spec uninit h.coherent _).1, hid, hrecords.lengthAt]

/-- An iterator that stands after the records `pre` yields the rest. -/
theorem Inv.enumerateLoop (uninit : Nat → UInt8) (h : Inv dataLen o) (pre : List (Value × Value))
    (hlog : o.log = pre ++ post) {fuel : Nat} (hfuel : post.length < fuel) :
    enumerateLoop uninit fuel o.store (FileStore.idAfter dataLen (pre.map Prod.snd)) = some post := by
  induction post generalizing o pre fuel with
  | nil =>
    obtain ⟨fuel, rfl⟩ := Nat.exists_eq_succ_of_ne_zero (Nat.ne_of_gt hfuel)
    rw [List.append_nil] at hlog
    have hend := h.records.endId_le
    have hfile := h.file_lt
    have hid : o.store.store.endId = FileStore.idAfter dataLen (pre.map Prod.snd) := by
      rw [h.records.endId, h.dataLen_eq, hlog]
    have hget : o.store.get uninit (leBytes 8 (FileStore.idAfter dataLen (pre.map Prod.snd))) 0
        FawnDSSF.maxLen = some (.error .end, o.store) := by
      rw [PagedFile.get, FileStore.asOffset_leBytes_eight (by omega), getAt, if_pos (by omega)]
    rw [PagedFile.enumerateLoop, hget]
  | cons e post ih =>
    obtain ⟨fuel, rfl⟩ := Nat.exists_eq_succ_of_ne_zero (Nat.ne_of_gt (Nat.zero_lt_of_lt hfuel))
    obtain ⟨key, r⟩ := e
    obtain ⟨s, hget, hreads⟩ := h.get uninit hlog
    have hkey := h.key pre key r post hlog
    have hfits := (h.at hlog).2.fits_mem
    rw [h.dataLen_eq] at hfits
    have hnext := ih (h.reads hreads) (pre ++ [(key, r)]) (hlog.trans (List.append_cons pre _ post))
      (Nat.lt_of_succ_lt_succ hfuel)
    rw [List.map_append, List.map_singleton, FileStore.idAfter_append _ hfits] at hnext
    rw [hkey] at hget
    rw [PagedFile.enumerateLoop, hget]
    simp only [hreads.store, h.dataLen_eq]
    rw [hnext, Option.map_some, ← hkey]

end Runs

end PagedFile

end FawnKV.Silt
