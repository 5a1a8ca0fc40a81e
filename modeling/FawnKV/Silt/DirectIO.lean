import FawnKV.Silt.DirtyChunks
import FawnKV.Silt.PageCacheRuns

/-! The reads of `int_pread` that go around the buffers of the system, against the dirty chunks. -/
namespace FawnKV.Silt.PagedFile

open PageCache DynamicBitset Transition
open FileStore (pageSize cacheSize)
open DirtyChunks (State chunkSize preadFd)

/-- All pages of the region are taken from the cache. -/
def usesCache (c : Cache) (count offset : Nat) : Bool :=
  decide (reqCount count offset ≤ pageSize * cacheSize) &&
    (pages pageSize (offset - offset % pageSize) (reqCount count offset / pageSize)).all
      (hit pageSize cacheSize c)

/-- `int_pread` without `readahead` calls `pread` on `fd_direct_random_`. -/
def ReadsDirect (s : State) (c : Cache) (count offset : Nat) : Prop :=
  count ≤ reqCount count offset ∧ usesCache c count offset = false ∧
    preadFd s false (offset - offset % pageSize) = .directRandom

/-- The chunk has a byte of the region that is read. -/
def Intersects (count offset chunk : Nat) : Prop :=
  ∃ p, offset - offset % pageSize ≤ p ∧ p < offset - offset % pageSize + reqCount count offset ∧
    p / chunkSize = chunk

section Direct

variable {s : State} {c : Cache} {count offset chunk : Nat} {f : PagedFile}

/-- Without the cache it is `pread` that decides on the result. -/
theorem usesCache_eq_false (h : count ≤ reqCount count offset) :
    usesCache f.cache count offset = false ↔ (f.readMoved count offset none).1 = none := by
  have hsize := reqCount_eq h
  have hmod : ((offset : Int) % pageSize).toNat = offset % pageSize := by omega
  rw [hmod] at hsize
  rw [usesCache, hsize]
  unfold readMoved
  dsimp only
  split
  · rename_i hcached
    simp [hcached]
  · rename_i hcached
    simpa using hcached

theorem preadFd_direct (s : State) (reqOffset : Nat) :
    preadFd s false reqOffset = .directRandom ↔ test s.dirtyChunk (reqOffset / chunkSize) = false := by
  rw [preadFd, if_neg (by decide)]
  cases test s.dirtyChunk (reqOffset / chunkSize) <;> simp

/-- A page is in one chunk. -/
theorem div_chunkSize_reqOffset (offset : Nat) :
    (offset - offset % pageSize) / chunkSize = offset / chunkSize := by
  simp only [pageSize, chunkSize]
  omega

/-- The region meets no more chunks than the bytes that are asked for. -/
theorem intersects_later (h : count ≤ reqCount count offset) (hlater : offset / chunkSize < chunk) :
    Intersects count offset chunk ↔ chunk * chunkSize < offset + count := by
  have hsize := reqCount_eq h
  rw [Intersects, hsize]
  constructor
  · rintro ⟨p, -, hlt, rfl⟩
    simp only [pageSize, chunkSize] at *
    omega
  · intro hlt
    refine ⟨chunk * chunkSize, ?_, ?_, Nat.mul_div_cancel _ (by decide)⟩
    · simp only [pageSize, chunkSize] at *
      omega
    · simp only [pageSize, chunkSize] at *
      omega

theorem intersects_cases (h : Intersects count offset chunk) :
    chunk = offset / chunkSize ∨ offset / chunkSize < chunk := by
  obtain ⟨p, hle, -, rfl⟩ := h
  have hfirst := Nat.div_le_div_right (c := chunkSize) hle
  rw [div_chunkSize_reqOffset] at hfirst
  omega

/-- Only the chunk of the first byte is looked at, so a dirty chunk after it is read around the buffers. -/
theorem readsDirect_clean_iff (s : State) (c : Cache) (count offset : Nat) :
    (ReadsDirect s c count offset → ∀ chunk, Intersects count offset chunk → test s.dirtyChunk chunk = false) ↔
      reqCount count offset < count ∨ usesCache c count offset = true ∨
        test s.dirtyChunk (offset / chunkSize) = true ∨
          ∀ chunk, offset / chunkSize < chunk → chunk * chunkSize < offset + count →
            test s.dirtyChunk chunk = false := by
  rw [ReadsDirect, preadFd_direct, div_chunkSize_reqOffset]
  constructor
  · intro h
    by_contra hnot
    simp only [not_or, Nat.not_lt, Bool.not_eq_true, not_forall, Bool.not_eq_false] at hnot
    obtain ⟨hcount, hcache, hfirst, chunk, hlater, hlt, hdirty⟩ := hnot
    have hclean := h ⟨hcount, hcache, hfirst⟩ chunk ((intersects_later hcount hlater).mpr hlt)
    rw [hdirty] at hclean
    cases hclean
  · rintro hcases ⟨hcount, hcache, hfirst⟩ chunk hin
    rcases hcases with hshort | hcached | hdirty | hlater
    · omega
    · rw [hcache] at hcached
      cases hcached
    · rw [hfirst] at hdirty
      cases hdirty
    · rcases intersects_cases hin with rfl | hgt
      · exact hfirst
      · exact hlater chunk hgt ((intersects_later hcount hgt).mp hin)

/-- Two records are written and synced, the second one over the end of a chunk, and then a third one. -/
def straddlingRecord : List DirtyChunks.Label :=
  [.call 0 1048320, .mark 0, .write 0 1048320, .finish 0, .call 1048320 512, .mark 1, .write 1 512, .finish 1,
    .intSync, .copy, .fdatasync true, .subtract, .call 1048832 512, .mark 2, .write 2 512, .finish 2]

/-- The second record is read around the buffers, from a chunk with the third one in it. -/
theorem straddlingRecord_read : ∃ s, run DirtyChunks.step DirtyChunks.start straddlingRecord = some s ∧
    ReadsDirect s (fun _ => {}) 512 1048320 ∧ Intersects 512 1048320 1 ∧ test s.dirtyChunk 1 = true :=
  ⟨_, rfl, ⟨by decide, by decide, by decide⟩, ⟨1048576, by decide, by decide, by decide⟩, by decide⟩

end Direct

end FawnKV.Silt.PagedFile
