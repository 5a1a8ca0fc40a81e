import FawnKV.Lib.DynamicBitset
import FawnKV.Lib.Transition

/-! The chunks of a `FileStore` that are marked dirty: calls of `int_pwritev` and the `SyncTask`, one step for
each section under the lock, for the write and for `fdatasync`. -/
namespace FawnKV.Silt.DirtyChunks

open DynamicBitset Transition

def chunkSize : Nat := 1048576

/-- The position of a call, with the number of bytes it wrote and whether an `fdatasync` came after. -/
inductive Stage where
  | called
  | marked
  | written (n : Nat) (durable : Bool)
  | returned (n : Nat) (durable : Bool)
deriving DecidableEq

/-- `late` records that the first marking came after the last copy of a `SyncTask`; the code does not read
it. -/
structure Call where
  offset : Nat
  writeSize : Nat
  stage : Stage
  late : Bool
deriving DecidableEq

def Call.startChunk (call : Call) : Nat := call.offset / chunkSize

def Call.endChunk (call : Call) : Nat := (call.offset + call.writeSize + chunkSize - 1) / chunkSize + 1

/-- A `SyncTask` has `sync_mutex_` from `int_sync` to its end, so that there is one at a time. -/
inductive Task where
  | idle
  | queued
  | copied
  | synced
deriving DecidableEq

/-- `snapshot` records the dirty chunks at the last copy; the code does not read it. -/
structure State where
  dirtyChunk : List Bool
  syncingChunk : List Bool
  task : Task
  calls : List Call
  snapshot : List Bool
deriving DecidableEq

def start : State := { dirtyChunk := [], syncingChunk := [], task := .idle, calls := [], snapshot := [] }

section Steps

variable (s : State)

/-- The first marking, of the chunks that are there. -/
def mark (i : Nat) : Option State :=
  match s.calls[i]? with
  | some call =>
    if call.stage = .called then
      some { s with
        dirtyChunk := assign s.dirtyChunk call.startChunk call.endChunk true
        syncingChunk := assign s.syncingChunk call.startChunk call.endChunk false
        calls := s.calls.set i { call with stage := .marked, late := true } }
    else none
  | none => none

/-- `pwritev`, which may write less than it is given; nothing, when it fails. -/
def write (i n : Nat) : Option State :=
  match s.calls[i]? with
  | some call =>
    if call.stage = .marked ∧ n ≤ call.writeSize then
      some { s with calls := s.calls.set i { call with stage := .written n false } }
    else none
  | none => none

def markDirty (dirty : List Bool) (startChunk endChunk : Nat) : List Bool :=
  if endChunk ≤ dirty.length then assign dirty startChunk endChunk true
  else resize (assign dirty startChunk dirty.length true) endChunk true

/-- The second marking, after which the call returns. -/
def finish (i : Nat) : Option State :=
  match s.calls[i]? with
  | some call =>
    match call.stage with
    | .written n durable =>
      some { s with
        dirtyChunk := markDirty s.dirtyChunk call.startChunk call.endChunk
        calls := s.calls.set i { call with stage := .returned n durable } }
    | _ => none
  | none => none

/-- `int_sync` that has the lock: without a dirty chunk there is no task. -/
def intSync : Option State :=
  match s.task with
  | .idle => if s.dirtyChunk.any id then some { s with task := .queued } else some s
  | _ => none

def Call.copy (call : Call) : Call := { call with late := false }

def copy : Option State :=
  match s.task with
  | .queued =>
    some { s with
      syncingChunk := s.dirtyChunk, snapshot := s.dirtyChunk, task := .copied
      calls := s.calls.map Call.copy }
  | _ => none

def Call.sync (call : Call) : Call :=
  match call.stage with
  | .written n _ => { call with stage := .written n true }
  | .returned n _ => { call with stage := .returned n true }
  | _ => call

/-- All that was written before is durable; the task ends when the call fails. -/
def fdatasync (ok : Bool) : Option State :=
  match s.task with
  | .copied => if ok then some { s with task := .synced, calls := s.calls.map Call.sync } else some
    { s with task := .idle }
  | _ => none

def subtract : Option State :=
  match s.task with
  | .synced =>
    let syncing := resize s.syncingChunk s.dirtyChunk.length false
    some { s with syncingChunk := syncing, dirtyChunk := diff s.dirtyChunk syncing, task := .idle }
  | _ => none

inductive Label where
  | call (offset writeSize : Nat)
  | mark (i : Nat)
  | write (i n : Nat)
  | finish (i : Nat)
  | intSync
  | copy
  | fdatasync (ok : Bool)
  | subtract

def step (l : Label) : Option State :=
  match l with
  | .call offset writeSize => some { s with calls := s.calls ++ [⟨offset, writeSize, .called, false⟩] }
  | .mark i => mark s i
  | .write i n => write s i n
  | .finish i => finish s i
  | .intSync => intSync s
  | .copy => copy s
  | .fdatasync ok => fdatasync s ok
  | .subtract => subtract s

end Steps

section Inversion

variable {s t : State} {i n : Nat}

theorem mark_eq_some (hs : mark s i = some t) :
    ∃ call, s.calls[i]? = some call ∧ call.stage = .called ∧ t = { s with
      dirtyChunk := assign s.dirtyChunk call.startChunk call.endChunk true
      syncingChunk := assign s.syncingChunk call.startChunk call.endChunk false
      calls := s.calls.set i { call with stage := .marked, late := true } } := by
  unfold mark at hs
  split at hs
  case h_2 => cases hs
  rename_i call hcall
  split at hs <;> cases hs
  exact ⟨call, hcall, ‹_›, rfl⟩

theorem write_eq_some (hs : write s i n = some t) :
    ∃ call, s.calls[i]? = some call ∧ call.stage = .marked ∧ n ≤ call.writeSize ∧
      t = { s with calls := s.calls.set i { call with stage := .written n false } } := by
  unfold write at hs
  split at hs
  case h_2 => cases hs
  rename_i call hcall
  split at hs <;> cases hs
  rename_i hguard
  exact ⟨call, hcall, hguard.1, hguard.2, rfl⟩

theorem finish_eq_some (hs : finish s i = some t) :
    ∃ call n durable, s.calls[i]? = some call ∧ call.stage = .written n durable ∧ t = { s with
      dirtyChunk := markDirty s.dirtyChunk call.startChunk call.endChunk
      calls := s.calls.set i { call with stage := .returned n durable } } := by
  unfold finish at hs
  split at hs
  case h_2 => cases hs
  rename_i call hcall
  split at hs <;> cases hs
  exact ⟨call, _, _, hcall, ‹_›, rfl⟩

theorem intSync_eq_some (hs : intSync s = some t) : t = s ∨ t = { s with task := .queued } := by
  unfold intSync at hs
  split at hs
  case h_2 => cases hs
  split at hs <;> cases hs
  · exact .inr rfl
  · exact .inl rfl

theorem copy_eq_some (hs : copy s = some t) : t = { s with
    syncingChunk := s.dirtyChunk, snapshot := s.dirtyChunk, task := .copied, calls :=
      s.calls.map Call.copy } := by
  unfold copy at hs
  split at hs <;> cases hs
  rfl

theorem fdatasync_eq_some {ok : Bool} (hs : fdatasync s ok = some t) :
    s.task = .copied ∧ (t = { s with task := .synced, calls := s.calls.map Call.sync } ∨
      t = { s with task := .idle }) := by
  unfold fdatasync at hs
  split at hs
  case h_2 => cases hs
  rename_i htask
  split at hs <;> cases hs
  · exact ⟨htask, .inl rfl⟩
  · exact ⟨htask, .inr rfl⟩

theorem subtract_eq_some (hs : subtract s = some t) :
    s.task = .synced ∧ t = { s with
      syncingChunk := resize s.syncingChunk s.dirtyChunk.length false
      dirtyChunk := diff s.dirtyChunk (resize s.syncingChunk s.dirtyChunk.length false)
      task := .idle } := by
  unfold subtract at hs
  split at hs <;> cases hs
  exact ⟨‹_›, rfl⟩

end Inversion

section Property

/-- The first `n` bytes of the write of the call reach into the chunk. -/
def Call.Wrote (call : Call) (n chunk : Nat) : Prop :=
  ∃ b, call.offset ≤ b ∧ b < call.offset + n ∧ b / chunkSize = chunk

/-- The call has returned and wrote into the chunk, and no `fdatasync` came after its write. -/
def Call.Pending (call : Call) (chunk : Nat) : Prop :=
  ∃ n, call.stage = .returned n false ∧ call.Wrote n chunk

def Pending (s : State) (chunk : Nat) : Prop := ∃ call ∈ s.calls, call.Pending chunk

/-- A chunk with a pending write is dirty. -/
def Safe (s : State) : Prop := ∀ chunk, Pending s chunk → test s.dirtyChunk chunk = true

/-- The first marking of the call came after the last copy, and the chunk is one of those it marks. -/
def Call.Remarked (call : Call) (chunk : Nat) : Prop :=
  call.late = true ∧ call.startChunk ≤ chunk ∧ chunk < call.endChunk

def Remarked (s : State) (chunk : Nat) : Prop := ∃ call ∈ s.calls, call.Remarked chunk

/-- A chunk that was dirty at the copy, and that has a write after the `fdatasync` that has returned before the
subtraction, is marked by the first marking of some call since the copy. -/
def Remarks (s : State) : Label → Prop
  | .subtract => ∀ chunk, test s.snapshot chunk = true → Pending s chunk → Remarked s chunk
  | _ => True

inductive Fd where
  | bufferedSequential
  | bufferedRandom
  | directRandom
deriving DecidableEq

/-- The file descriptor that `int_pread` chooses for a page that is not in the cache. -/
def preadFd (s : State) (readahead : Bool) (reqOffset : Nat) : Fd :=
  if readahead then .bufferedSequential
  else if test s.dirtyChunk (reqOffset / chunkSize) then .bufferedRandom
  else .directRandom

variable {s : State} {chunk : Nat}

/-- A read that starts in a chunk with a pending write does not go around the buffers. -/
theorem preadFd_of_pending (h : Safe s) (readahead : Bool) {reqOffset : Nat}
    (hpending : Pending s (reqOffset / chunkSize)) : preadFd s readahead reqOffset ≠ .directRandom := by
  rw [preadFd, h _ hpending]
  cases readahead <;> exact Fd.noConfusion

theorem Call.wrote_range {call : Call} {n : Nat} (hn : n ≤ call.writeSize) (h : call.Wrote n chunk) :
    call.startChunk ≤ chunk ∧ chunk < call.endChunk := by
  obtain ⟨b, hle, hlt, rfl⟩ := h
  constructor
  · exact Nat.div_le_div_right hle
  · rw [Call.endChunk]
    apply Nat.lt_succ_of_le
    apply Nat.div_le_div_right
    have hpos : 1 ≤ chunkSize := by decide
    omega

end Property

section Invariant

variable {s t : State} {l : Label} {chunk i n : Nat} {call : Call}

theorem exists_mem_set {α : Type} {xs : List α} {x y : α} (p : α → Prop) (hx : xs[i]? = some x)
    (hp : p x → p y) :
    (∃ z ∈ xs.set i y, p z) ↔ p y ∨ ∃ z ∈ xs, p z := by
  obtain ⟨hi, rfl⟩ := List.getElem?_eq_some_iff.mp hx
  constructor
  · rintro ⟨z, hz, hpz⟩
    rcases List.mem_or_eq_of_mem_set hz with hz | rfl
    · exact .inr ⟨z, hz, hpz⟩
    · exact .inl hpz
  · rintro (hy | ⟨z, hz, hpz⟩)
    · exact ⟨y, List.mem_set hi y, hy⟩
    · obtain ⟨j, hj, rfl⟩ := List.getElem_of_mem hz
      by_cases hij : i = j
      · subst hij
        exact ⟨y, List.mem_set hi y, hp hpz⟩
      · refine ⟨xs[j], ?_, hpz⟩
        rw [List.mem_iff_getElem?]
        exact ⟨j, by rw [List.getElem?_set_ne hij]; exact List.getElem?_eq_getElem hj⟩

/-- A call writes no more than it is given. -/
def Call.Fits (call : Call) : Prop :=
  match call.stage with
  | .written n _ | .returned n _ => n ≤ call.writeSize
  | _ => True

/-- While a task is between its copy and its subtraction, it is about the chunks that were dirty at the copy and
that no call marked for the first time since. -/
structure Inv (s : State) : Prop where
  fits : ∀ call ∈ s.calls, call.Fits
  syncing : s.task = .copied ∨ s.task = .synced →
    ∀ chunk, test s.syncingChunk chunk = true ↔ test s.snapshot chunk = true ∧ ¬Remarked s chunk

theorem fits_set {y : Call} (h : ∀ call ∈ s.calls, call.Fits) (hy : y.Fits) :
    ∀ call ∈ s.calls.set i y, call.Fits := by
  intro z hz
  rcases List.mem_or_eq_of_mem_set hz with hz | rfl
  · exact h z hz
  · exact hy

/-- A call that goes on keeps its chunks and when it first marked them. -/
theorem remarked_set {stage : Stage} (hcall : s.calls[i]? = some call) :
    (∃ z ∈ s.calls.set i { call with stage := stage }, z.Remarked chunk) ↔ Remarked s chunk := by
  have hsame : call.Remarked chunk → ({ call with stage := stage } : Call).Remarked chunk := fun h => h
  rw [exists_mem_set _ hcall hsame]
  constructor
  · rintro (h | h)
    · exact ⟨call, List.mem_of_getElem? hcall, h⟩
    · exact h
  · exact .inr

theorem remarked_mark (hcall : s.calls[i]? = some call) :
    (∃ z ∈ s.calls.set i { call with stage := .marked, late := true }, z.Remarked chunk) ↔
      (call.startChunk ≤ chunk ∧ chunk < call.endChunk) ∨ Remarked s chunk := by
  have hlate : ({ call with stage := .marked, late := true } : Call).Remarked chunk ↔
      call.startChunk ≤ chunk ∧ chunk < call.endChunk := ⟨And.right, fun h => ⟨rfl, h⟩⟩
  rw [exists_mem_set _ hcall fun h => hlate.mpr h.2, hlate]
  rfl

theorem inv_mark (h : Inv s) (hs : mark s i = some t) : Inv t := by
  obtain ⟨call, hcall, -, rfl⟩ := mark_eq_some hs
  refine ⟨fits_set h.fits trivial, fun htask chunk => ?_⟩
  rw [Remarked, remarked_mark hcall, not_or, test_assign]
  by_cases hrange : call.startChunk ≤ chunk ∧ chunk < call.endChunk
  · -- a chunk past the end of the syncing ones is not set there either
    have hfalse : (if call.startChunk ≤ chunk ∧ chunk < call.endChunk ∧ chunk < s.syncingChunk.length then false
        else test s.syncingChunk chunk) = false := by
      by_cases hlen : chunk < s.syncingChunk.length
      · rw [if_pos ⟨hrange.1, hrange.2, hlen⟩]
      · rw [if_neg fun hall => hlen hall.2.2, test_of_le (Nat.le_of_not_lt hlen)]
    rw [hfalse]
    constructor
    · intro hset
      cases hset
    · rintro ⟨-, hout, -⟩
      exact absurd hrange hout
  · rw [if_neg fun hall => hrange ⟨hall.1, hall.2.1⟩, h.syncing htask chunk]
    exact ⟨fun h => ⟨h.1, hrange, h.2⟩, fun h => ⟨h.1, h.2.2⟩⟩

theorem inv_write (h : Inv s) (hs : write s i n = some t) : Inv t := by
  obtain ⟨call, hcall, -, hsize, rfl⟩ := write_eq_some hs
  refine ⟨fits_set h.fits hsize, fun htask chunk => ?_⟩
  rw [Remarked, remarked_set hcall]
  exact h.syncing htask chunk

theorem inv_finish (h : Inv s) (hs : finish s i = some t) : Inv t := by
  obtain ⟨call, n, durable, hcall, hstage, rfl⟩ := finish_eq_some hs
  have hfits := h.fits call (List.mem_of_getElem? hcall)
  rw [Call.Fits, hstage] at hfits
  refine ⟨fits_set h.fits hfits, fun htask chunk => ?_⟩
  rw [Remarked, remarked_set hcall]
  exact h.syncing htask chunk

theorem inv_intSync (h : Inv s) (hs : intSync s = some t) : Inv t := by
  rcases intSync_eq_some hs with rfl | rfl
  · exact h
  · refine ⟨h.fits, fun htask => ?_⟩
    rcases htask with htask | htask <;> cases htask

theorem inv_copy (h : Inv s) (hs : copy s = some t) : Inv t := by
  obtain rfl := copy_eq_some hs
  refine ⟨?_, fun _ chunk => ?_⟩
  · intro z hz
    obtain ⟨call, hcall, rfl⟩ := List.mem_map.mp hz
    exact h.fits call hcall
  · refine ⟨fun hdirty => ⟨hdirty, ?_⟩, And.left⟩
    rintro ⟨z, hz, hlate, -⟩
    obtain ⟨call, -, rfl⟩ := List.mem_map.mp hz
    cases hlate

theorem Call.sync_fields (call : Call) :
    call.sync.offset = call.offset ∧ call.sync.writeSize = call.writeSize ∧ call.sync.late = call.late := by
  unfold Call.sync
  split <;> exact ⟨rfl, rfl, rfl⟩

theorem Call.fits_sync (h : call.Fits) : call.sync.Fits := by
  cases hstage : call.stage with
  | called | marked => simp [Call.sync, Call.Fits, hstage]
  | written n durable | returned n durable =>
    simp only [Call.Fits, hstage] at h
    simp only [Call.sync, Call.Fits, hstage, h]

theorem Call.remarked_sync : call.sync.Remarked chunk ↔ call.Remarked chunk := by
  obtain ⟨hoffset, hsize, hlate⟩ := call.sync_fields
  simp only [Call.Remarked, Call.startChunk, Call.endChunk, hoffset, hsize, hlate]

theorem remarked_map_sync : (∃ z ∈ s.calls.map Call.sync, z.Remarked chunk) ↔ Remarked s chunk := by
  constructor
  · rintro ⟨z, hz, h⟩
    obtain ⟨call, hcall, rfl⟩ := List.mem_map.mp hz
    exact ⟨call, hcall, Call.remarked_sync.mp h⟩
  · rintro ⟨call, hcall, h⟩
    exact ⟨call.sync, List.mem_map_of_mem hcall, Call.remarked_sync.mpr h⟩

theorem inv_fdatasync {ok : Bool} (h : Inv s) (hs : fdatasync s ok = some t) : Inv t := by
  obtain ⟨htask, rfl | rfl⟩ := fdatasync_eq_some hs
  · refine ⟨?_, fun _ chunk => ?_⟩
    · intro z hz
      obtain ⟨call, hcall, rfl⟩ := List.mem_map.mp hz
      exact Call.fits_sync (h.fits call hcall)
    · rw [Remarked, remarked_map_sync]
      exact h.syncing (.inl htask) chunk
  · refine ⟨h.fits, fun htask => ?_⟩
    rcases htask with htask | htask <;> cases htask

theorem inv_subtract (h : Inv s) (hs : subtract s = some t) : Inv t := by
  obtain ⟨-, rfl⟩ := subtract_eq_some hs
  refine ⟨h.fits, fun htask => ?_⟩
  rcases htask with htask | htask <;> cases htask

theorem inv_call {offset writeSize : Nat} (h : Inv s) :
    Inv { s with calls := s.calls ++ [⟨offset, writeSize, .called, false⟩] } := by
  refine ⟨?_, fun htask chunk => ?_⟩
  · intro z hz
    rcases List.mem_append.mp hz with hz | hz
    · exact h.fits z hz
    · cases List.mem_singleton.mp hz
      trivial
  · rw [h.syncing htask chunk]
    refine and_congr_right fun _ => not_congr ?_
    constructor
    · rintro ⟨z, hz, hlate⟩
      exact ⟨z, List.mem_append_left _ hz, hlate⟩
    · rintro ⟨z, hz, hlate, hrange⟩
      rcases List.mem_append.mp hz with hz | hz
      · exact ⟨z, hz, hlate, hrange⟩
      · cases List.mem_singleton.mp hz
        cases hlate

theorem inv_step (hs : step s l = some t) (h : Inv s) : Inv t := by
  cases l with
  | call offset writeSize =>
    cases hs
    exact inv_call h
  | mark i => exact inv_mark h hs
  | write i n => exact inv_write h hs
  | finish i => exact inv_finish h hs
  | intSync => exact inv_intSync h hs
  | copy => exact inv_copy h hs
  | fdatasync ok => exact inv_fdatasync h hs
  | subtract => exact inv_subtract h hs

theorem inv_start : Inv start := by
  refine ⟨fun call hcall => (nomatch hcall), fun htask => ?_⟩
  rcases htask with htask | htask <;> cases htask

end Invariant

section Safety

variable {s t : State} {l : Label} {chunk i n : Nat} {call : Call}

theorem test_markDirty_of_test {b : List Bool} {startChunk endChunk : Nat} (h : test b chunk = true) :
    test (markDirty b startChunk endChunk) chunk = true := by
  have hassign : ∀ stop, test (assign b startChunk stop true) chunk = true := by
    intro stop
    rw [test_assign, h, ite_self]
  unfold markDirty
  split
  · exact hassign endChunk
  · rename_i hgrow
    have hlen := lt_of_test h
    rw [test_resize_of_lt (by omega) (lt_of_test (hassign b.length))]
    exact hassign b.length

theorem test_markDirty_of_range {b : List Bool} {startChunk endChunk : Nat}
    (hstart : startChunk ≤ chunk) (hend : chunk < endChunk) : test
      (markDirty b startChunk endChunk) chunk = true := by
  unfold markDirty
  split
  · rename_i hlen
    rw [test_assign, if_pos ⟨hstart, hend, Nat.lt_of_lt_of_le hend hlen⟩]
  · have hsame : (assign b startChunk b.length true).length = b.length := List.length_mapIdx
    by_cases hin : chunk < b.length
    · rw [test_resize_of_lt hend (by rw [hsame]; exact hin), test_assign, if_pos ⟨hstart, hin, hin⟩]
    · exact test_resize_of_le hend (by rw [hsame]; exact Nat.le_of_not_lt hin)

/-- Safe is a state with no chunk that loses its mark, and with no write that becomes pending unmarked. -/
theorem Safe.mono (h : Safe s) (hpending : ∀ chunk, Pending t chunk → Pending s chunk ∨
    test t.dirtyChunk chunk = true)
    (hdirty : ∀ chunk, test s.dirtyChunk chunk = true → test t.dirtyChunk chunk = true) : Safe t := by
  intro chunk hp
  rcases hpending chunk hp with hold | hnew
  · exact hdirty chunk (h chunk hold)
  · exact hnew

/-- A call that goes on to a place before its return. -/
theorem pending_set {y : Call} (hy : ∀ n, y.stage ≠ .returned n false)
    (h : ∃ z ∈ s.calls.set i y, z.Pending chunk) : Pending s chunk := by
  obtain ⟨z, hz, hpending⟩ := h
  rcases List.mem_or_eq_of_mem_set hz with hz | rfl
  · exact ⟨z, hz, hpending⟩
  · obtain ⟨n, hstage, -⟩ := hpending
    exact absurd hstage (hy n)

theorem safe_mark (h : Safe s) (hs : mark s i = some t) : Safe t := by
  obtain ⟨call, -, -, rfl⟩ := mark_eq_some hs
  refine h.mono (fun chunk hp => .inl (pending_set (fun n => Stage.noConfusion) hp)) ?_
  intro chunk hdirty
  rw [test_assign, hdirty, ite_self]

theorem safe_write (h : Safe s) (hs : write s i n = some t) : Safe t := by
  obtain ⟨call, -, -, -, rfl⟩ := write_eq_some hs
  exact h.mono (fun chunk hp => .inl (pending_set (fun n => Stage.noConfusion) hp)) fun chunk hdirty => hdirty

/-- The second marking covers what the call wrote. -/
theorem safe_finish (hi : Inv s) (h : Safe s) (hs : finish s i = some t) : Safe t := by
  obtain ⟨call, n, durable, hcall, hstage, rfl⟩ := finish_eq_some hs
  have hfits := hi.fits call (List.mem_of_getElem? hcall)
  rw [Call.Fits, hstage] at hfits
  refine h.mono (fun chunk hp => ?_) fun chunk => test_markDirty_of_test
  obtain ⟨z, hz, hpending⟩ := hp
  rcases List.mem_or_eq_of_mem_set hz with hz | rfl
  · exact .inl ⟨z, hz, hpending⟩
  · obtain ⟨m, hm, hwrote⟩ := hpending
    cases hm
    have hrange : call.startChunk ≤ chunk ∧ chunk < call.endChunk := Call.wrote_range hfits hwrote
    exact .inr (test_markDirty_of_range hrange.1 hrange.2)

theorem safe_intSync (h : Safe s) (hs : intSync s = some t) : Safe t := by
  rcases intSync_eq_some hs with rfl | rfl
  · exact h
  · exact h

theorem safe_copy (h : Safe s) (hs : copy s = some t) : Safe t := by
  obtain rfl := copy_eq_some hs
  refine h.mono (fun chunk hp => .inl ?_) fun chunk hdirty => hdirty
  obtain ⟨z, hz, hpending⟩ := hp
  obtain ⟨call, hcall, rfl⟩ := List.mem_map.mp hz
  exact ⟨call, hcall, hpending⟩

theorem Call.not_pending_sync : ¬call.sync.Pending chunk := by
  rintro ⟨n, hstage, -⟩
  unfold Call.sync at hstage
  split at hstage
  · cases hstage
  · cases hstage
  · rename_i hother
    exact hother n false hstage

/-- Nothing is pending after `fdatasync`. -/
theorem safe_fdatasync {ok : Bool} (h : Safe s) (hs : fdatasync s ok = some t) : Safe t := by
  obtain ⟨-, rfl | rfl⟩ := fdatasync_eq_some hs
  · rintro chunk ⟨z, hz, hpending⟩
    obtain ⟨call, -, rfl⟩ := List.mem_map.mp hz
    exact absurd hpending Call.not_pending_sync
  · exact h

theorem safe_call {offset writeSize : Nat} (h : Safe s) :
    Safe { s with calls := s.calls ++ [⟨offset, writeSize, .called, false⟩] } := by
  refine h.mono (fun chunk hp => .inl ?_) fun chunk hdirty => hdirty
  obtain ⟨z, hz, hpending⟩ := hp
  rcases List.mem_append.mp hz with hz | hz
  · exact ⟨z, hz, hpending⟩
  · cases List.mem_singleton.mp hz
    obtain ⟨n, hstage, -⟩ := hpending
    cases hstage

/-- The subtraction takes the mark from the chunks the task is still about. -/
theorem safe_subtract_iff (hi : Inv s) (h : Safe s) (hs : subtract s = some t) :
    Safe t ↔ Remarks s .subtract := by
  obtain ⟨htask, rfl⟩ := subtract_eq_some hs
  have hkept : ∀ chunk, test s.dirtyChunk chunk = true →
      (test (diff s.dirtyChunk (resize s.syncingChunk s.dirtyChunk.length false)) chunk = true ↔
        test s.syncingChunk chunk = false) := by
    intro chunk hdirty
    have hlen := lt_of_test hdirty
    rw [test_diff, hdirty, Bool.true_and, Bool.not_eq_true']
    by_cases hin : chunk < s.syncingChunk.length
    · rw [test_resize_of_lt hlen hin]
    · have hout := Nat.le_of_not_lt hin
      rw [test_resize_of_le hlen hout, test_of_le hout]
  constructor
  · intro hsafe chunk hsnapshot hpending
    by_contra hremarked
    have hsyncing := (hi.syncing (.inr htask) chunk).mpr ⟨hsnapshot, hremarked⟩
    have hclear := (hkept chunk (h chunk hpending)).mp (hsafe chunk hpending)
    rw [hsyncing] at hclear
    cases hclear
  · intro hremarks chunk hpending
    apply (hkept chunk (h chunk hpending)).mpr
    by_contra hset
    obtain ⟨hsnapshot, hremarked⟩ := (hi.syncing (.inr htask) chunk).mp (by simpa using hset)
    exact hremarked (hremarks chunk hsnapshot hpending)

theorem safe_step_iff (hs : step s l = some t) (hi : Inv s) (h : Safe s) : Safe t ↔ Remarks s l := by
  cases l with
  | call offset writeSize =>
    cases hs
    exact iff_of_true (safe_call h) trivial
  | mark i => exact iff_of_true (safe_mark h hs) trivial
  | write i n => exact iff_of_true (safe_write h hs) trivial
  | finish i => exact iff_of_true (safe_finish hi h hs) trivial
  | intSync => exact iff_of_true (safe_intSync h hs) trivial
  | copy => exact iff_of_true (safe_copy h hs) trivial
  | fdatasync ok => exact iff_of_true (safe_fdatasync h hs) trivial
  | subtract => exact safe_subtract_iff hi h hs

/-- In every order of the steps of any number of calls and of the tasks. -/
theorem dirty_chunks_safe_iff (ls : List Label) (s : State) (hs : run step start ls = some s) :
    Always step Safe start ls ↔ Meets step Remarks start ls := by
  refine always_iff_meets_of_invariant (fun s l t => inv_step) (fun s l t => safe_step_iff) hs inv_start ?_
  rintro chunk ⟨call, hcall, -⟩
  cases hcall

/-- Two writes of one byte each, the second call marked between the copy and `fdatasync`. -/
def remarkedRun : List Label :=
  [.call 0 1, .mark 0, .write 0 1, .finish 0, .call 0 1, .intSync, .copy, .mark 1, .fdatasync true,
    .write 1 1, .finish 1]

/-- Where that run comes before the subtraction. -/
def remarked : State where
  dirtyChunk := [true, true]
  syncingChunk := [false, false]
  task := .synced
  calls := [⟨0, 1, .returned 1 true, false⟩, ⟨0, 1, .returned 1 false, true⟩]
  snapshot := [true, true]

theorem dirty_chunks_safe_remarked : Always step Safe start (remarkedRun ++ [.subtract]) := by
  have hrun : run step start remarkedRun = some remarked := by decide +kernel
  have hend : (run step start (remarkedRun ++ [.subtract])).isSome = true := by decide +kernel
  obtain ⟨s, hs⟩ := Option.isSome_iff_exists.mp hend
  refine (dirty_chunks_safe_iff _ s hs).mpr (meets_concat (fun s l hl => ?_) hrun ?_)
  · simp only [remarkedRun, List.mem_cons, List.not_mem_nil, or_false] at hl
    rcases hl with rfl | rfl | rfl | rfl | rfl | rfl | rfl | rfl | rfl | rfl | rfl <;> trivial
  · intro chunk hsnapshot _
    refine ⟨⟨0, 1, .returned 1 false, true⟩, .tail _ (.head _), rfl, Nat.zero_le chunk, ?_⟩
    exact lt_of_test hsnapshot

/-- The second call is marked before the copy and writes after `fdatasync`. -/
def straddlingRun : List Label :=
  [.call 0 1, .mark 0, .write 0 1, .finish 0, .call 0 1, .mark 1, .intSync, .copy, .fdatasync true,
    .write 1 1, .finish 1, .subtract]

/-- Where that run ends: the chunk of the second write is not dirty. -/
def straddled : State where
  dirtyChunk := [false, false]
  syncingChunk := [true, true]
  task := .idle
  calls := [⟨0, 1, .returned 1 true, false⟩, ⟨0, 1, .returned 1 false, false⟩]
  snapshot := [true, true]

theorem straddling_write_unmarked :
    run step start straddlingRun = some straddled ∧ ¬Safe straddled ∧
      preadFd straddled false 0 = .directRandom := by
  refine ⟨by decide +kernel, fun h => ?_, by decide⟩
  have hpending : Pending straddled 0 :=
    ⟨⟨0, 1, .returned 1 false, false⟩, .tail _ (.head _), 1, rfl, 0, Nat.le_refl 0, Nat.one_pos, rfl⟩
  cases h 0 hpending

end Safety

end FawnKV.Silt.DirtyChunks
