import FawnKV.Lib.Transition
import FawnKV.Silt.Merge

/-! `FawnDS_Combi`: three stages of stores, client calls and the two background tasks, one step
for each lock section. -/
namespace FawnKV.Silt

/-- What `FawnDS_Combi` calls of its front (`F`), middle (`M`) and back (`B`) stores. A `Get`
returns its code and the data read. -/
structure Children (F M B : Type) where
  createFront : F
  putFront : F → Value → Value → FawnDSReturn × F
  deleteFront : F → Value → FawnDSReturn × F
  getFront : F → Value → FawnDSReturn × Value
  convertTo : F → FawnDSReturn × M
  getMiddle : M → Value → FawnDSReturn × Value
  enumerateMiddle : M → List Record
  createBack : Nat → B
  putBack : B → Value → Value → FawnDSReturn × B
  flushBack : B → B
  getBack : B → Value → FawnDSReturn × Value
  enumerateBack : B → List (Value × Value)

namespace FawnDSCombi

/-- The configuration `Create` accepts. -/
structure Config extends Lengths where
  stageLimit : Nat
  store0HighWatermark : Nat
  store0LowWatermark : Nat
  store1HighWatermark : Nat
  store1LowWatermark : Nat
  store0_low : 1 ≤ store0LowWatermark
  store0_high : store0LowWatermark < store0HighWatermark
  store1_high : store1LowWatermark < store1HighWatermark

inductive Op where
  | put (key data : Value)
  | delete (key : Value)
deriving DecidableEq

/-- A `Put` inside its loop; `frontStore` is set while it waits for the writer lock, to the
front store it found full. -/
structure Call where
  key : Value
  data : Value
  frontStore : Option Nat

inductive ConvertPc (M : Type) where
  | idle
  | took (frontStore : Nat)
  | converted (middleStore : M)
  | swapped

inductive MergePc (M B : Type) where
  | idle
  | sorting (n : Nat) (sorter : Option Sorter) (numAdds numDels : Nat)
  | picked (store : M) (n : Nat) (sorter : Option Sorter) (numAdds numDels : Nat)
  | sorted (n : Nat) (sorter : Option Sorter) (numAdds numDels : Nat)
  | merged (newBackStore : B) (n : Nat)
  | swapped

/-- `all_stores_`, newest first, front stores under their address; the task flags and queues; the
position of each task; the `Put` calls in progress; the calls that returned, in order. `aborted`
records a failed assertion. -/
structure State (F M B : Type) where
  aborted : Bool
  stage0 : List (Nat × F)
  stage1 : List M
  stage2 : List B
  backStoreSize : Nat
  convertTaskRunning : Bool
  mergeTaskRunning : Bool
  convertTasks : Nat
  mergeTasks : Nat
  convertPc : ConvertPc M
  mergePc : MergePc M B
  calls : List Call
  log : List (Op × FawnDSReturn)

variable {F M B : Type} (c : Config) (ch : Children F M B) (uninit : Nat → UInt8)

/-- The store as `Create` leaves it, its one front store at address 0. -/
def create : State F M B :=
  { aborted := false, stage0 := [(0, ch.createFront)], stage1 := [], stage2 := []
    backStoreSize := 0, convertTaskRunning := false, mergeTaskRunning := false
    convertTasks := 0, mergeTasks := 0, convertPc := .idle, mergePc := .idle
    calls := [], log := [] }

def State.abort (s : State F M B) : State F M B := { s with aborted := true }

def State.return (s : State F M B) (op : Op) (ret : FawnDSReturn) : State F M B :=
  { s with log := s.log ++ [(op, ret)] }

section Client

def put (s : State F M B) (key data : Value) : State F M B :=
  if c.keyLen ≠ key.length then s.return (.put key data) .invalidKey
  else if c.dataLen ≠ data.length then s.return (.put key data) .invalidData
  else { s with calls := s.calls ++ [⟨key, data, none⟩] }

/-- The body of the loop in `Put` up to the upgrade of the lock. -/
def putTry (s : State F M B) (i : Nat) : Option (State F M B) :=
  match s.calls[i]?, s.stage0 with
  | some ⟨key, data, none⟩, (a, front) :: rest =>
    let (ret, front) := ch.putFront front key data
    let s := { s with stage0 := (a, front) :: rest }
    if ret ≠ .insufficientSpace then
      some (State.return { s with calls := s.calls.eraseIdx i } (.put key data) ret)
    else some { s with calls := s.calls.set i ⟨key, data, some a⟩ }
  | _, _ => none

/-- The rest of the loop body under the writer lock; `addr` is where a new store is allocated. -/
def putUpgrade (s : State F M B) (i addr : Nat) : Option (State F M B) :=
  match s.calls[i]?, s.stage0 with
  | some ⟨key, data, some front⟩, (a, _) :: _ =>
    let s := { s with calls := s.calls.set i ⟨key, data, none⟩ }
    if front ≠ a then some s
    else if addr ∈ s.stage0.map (·.1) then none
    else
      let s := { s with stage0 := (addr, ch.createFront) :: s.stage0 }
      if 1 ≤ c.stageLimit && !s.convertTaskRunning &&
          decide (c.store0HighWatermark ≤ s.stage0.length) then
        some { s with convertTaskRunning := true, convertTasks := s.convertTasks + 1 }
      else some s
  | _, _ => none

def delete (s : State F M B) (key : Value) : Option (State F M B) :=
  if c.keyLen ≠ key.length then some (s.return (.delete key) .invalidKey)
  else
    match s.stage0 with
    | (a, front) :: rest =>
      let (ret, front) := ch.deleteFront front key
      let ret := if ret = .ok ∨ ret = .keyNotFound then .ok else ret
      some (State.return { s with stage0 := (a, front) :: rest } (.delete key) ret)
    | [] => none

/-- The first answer other than `KEY_NOT_FOUND`. -/
def getLoop : List (FawnDSReturn × Value) → FawnDSReturn × Value
  | [] => (.keyNotFound, [])
  | r :: rs => if r.1 ≠ .keyNotFound then r else getLoop rs

def get (s : State F M B) (key : Value) : FawnDSReturn × Value :=
  if c.keyLen ≠ key.length then (.invalidKey, [])
  else getLoop (s.stage0.map (fun p => ch.getFront p.2 key) ++
    s.stage1.map (fun m => ch.getMiddle m key) ++ s.stage2.map (fun b => ch.getBack b key))

end Client

section Convert

def convertTake (s : State F M B) : Option (State F M B) :=
  match s.convertPc, s.convertTasks, s.stage0.getLast? with
  | .idle, n + 1, some (a, _) =>
    if c.store0LowWatermark < s.stage0.length then
      some { s with convertTasks := n, convertPc := .took a }
    else some s.abort
  | _, _, _ => none

/-- `convert`, outside any lock. -/
def convertRun (s : State F M B) : Option (State F M B) :=
  match s.convertPc with
  | .took a =>
    match s.stage0.lookup a with
    | some front =>
      match ch.convertTo front with
      | (.ok, middle) => some { s with convertPc := .converted middle }
      | _ => some s.abort
    | none => some s.abort
  | _ => none

def convertSwap (s : State F M B) : Option (State F M B) :=
  match s.convertPc with
  | .converted middle =>
    let s := { s with
      stage0 := s.stage0.dropLast, stage1 := middle :: s.stage1, convertPc := .swapped }
    if 2 ≤ c.stageLimit && !s.mergeTaskRunning &&
        decide (c.store1HighWatermark ≤ s.stage1.length) then
      some { s with mergeTaskRunning := true, mergeTasks := s.mergeTasks + 1 }
    else some s
  | _ => none

def convertFinish (s : State F M B) : Option (State F M B) :=
  match s.convertPc with
  | .swapped =>
    if c.store0LowWatermark < s.stage0.length then
      some { s with convertTasks := s.convertTasks + 1, convertPc := .idle }
    else if s.convertTaskRunning then
      some { s with convertTaskRunning := false, convertPc := .idle }
    else some s.abort
  | _ => none

end Convert

section Merge

def mergeStart (s : State F M B) : Option (State F M B) :=
  match s.mergePc, s.mergeTasks with
  | .idle, n + 1 =>
    if c.store1LowWatermark < s.stage1.length then
      some { s with mergeTasks := n, mergePc := .sorting 0 none 0 0 }
    else some s.abort
  | _, _ => none

/-- The read-lock section of the sort loop: stop, or pick the next oldest store. -/
def mergePick (s : State F M B) : Option (State F M B) :=
  match s.mergePc with
  | .sorting n sorter numAdds numDels =>
    if s.stage1.length ≤ n + c.store1LowWatermark then
      some { s with mergePc := .sorted n sorter numAdds numDels }
    else
      match s.stage1[s.stage1.length - 1 - n]? with
      | some store => some { s with mergePc := .picked store n sorter numAdds numDels }
      | none => some s.abort
  | _ => none

def mergeSort (s : State F M B) : Option (State F M B) :=
  match s.mergePc with
  | .picked store n sorter numAdds numDels =>
    match MergeTask.sort c.toLengths uninit sorter (ch.enumerateMiddle store) numAdds numDels with
    | some (sorter, numAdds, numDels) =>
      some { s with mergePc := .sorting (n + 1) (some sorter) numAdds numDels }
    | none => some s.abort
  | _ => none

/-- A Put on the new back store, asserted to return `OK`. -/
def assertPut (b : B) (e : Value × Value) : Option B :=
  match ch.putBack b e.1 e.2 with
  | (.ok, b) => some b
  | _ => none

/-- Create the new back store, make the Puts of `merge` on it and flush it. -/
def buildBack (size : Nat) (puts : List (Value × Value)) : Option B :=
  (puts.foldlM (assertPut ch) (ch.createBack size)).map ch.flushBack

/-- `merge`, outside any lock. -/
def mergeRun (s : State F M B) : Option (State F M B) :=
  match s.mergePc with
  | .sorted n sorter numAdds numDels =>
    if 1 < s.stage2.length then some s.abort
    else
      match MergeTask.merge c.toLengths (s.stage2.head?.map ch.enumerateBack) sorter
          s.backStoreSize numAdds numDels with
      | some merged =>
        match buildBack ch merged.maxNewBackStoreSize merged.puts with
        | some back =>
          some { s with backStoreSize := merged.backStoreSize, mergePc := .merged back n }
        | none => some s.abort
      | none => some s.abort
  | _ => none

def mergeSwap (s : State F M B) : Option (State F M B) :=
  match s.mergePc with
  | .merged back n =>
    some { s with stage1 := s.stage1.take (s.stage1.length - n), stage2 := [back]
                  mergePc := .swapped }
  | _ => none

def mergeFinish (s : State F M B) : Option (State F M B) :=
  match s.mergePc with
  | .swapped =>
    if c.store1LowWatermark < s.stage1.length then
      some { s with mergeTasks := s.mergeTasks + 1, mergePc := .idle }
    else if s.mergeTaskRunning then some { s with mergeTaskRunning := false, mergePc := .idle }
    else some s.abort
  | _ => none

end Merge

/-- The lock sections of the client calls and of the two tasks. -/
inductive Label where
  | put (key data : Value)
  | putTry (i : Nat)
  | putUpgrade (i addr : Nat)
  | delete (key : Value)
  | convertTake
  | convertRun
  | convertSwap
  | convertFinish
  | mergeStart
  | mergePick
  | mergeSort
  | mergeRun
  | mergeSwap
  | mergeFinish

def step (s : State F M B) (l : Label) : Option (State F M B) :=
  if s.aborted then none
  else
    match l with
    | .put key data => some (put c s key data)
    | .putTry i => putTry ch s i
    | .putUpgrade i addr => putUpgrade c ch s i addr
    | .delete key => delete c ch s key
    | .convertTake => convertTake c s
    | .convertRun => convertRun ch s
    | .convertSwap => convertSwap c s
    | .convertFinish => convertFinish c s
    | .mergeStart => mergeStart c s
    | .mergePick => mergePick c s
    | .mergeSort => mergeSort c ch uninit s
    | .mergeRun => mergeRun c ch s
    | .mergeSwap => mergeSwap s
    | .mergeFinish => mergeFinish c s

section Stages

variable {c ch uninit} {s t : State F M B} {l : Label}

/-- The step leaves the front and the middle stores, and converts none. -/
structure KeepsStores (s t : State F M B) : Prop where
  stage0 : t.stage0 = s.stage0
  stage1 : t.stage1 = s.stage1
  converted : ∀ m, t.convertPc = .converted m → s.convertPc = .converted m

theorem keepsStores_put (s : State F M B) (key data : Value) : KeepsStores s (put c s key data) := by
  unfold put
  split
  · exact ⟨rfl, rfl, fun _ h => h⟩
  · split <;> exact ⟨rfl, rfl, fun _ h => h⟩

theorem keepsStores_convertTake (hstep : convertTake c s = some t) : KeepsStores s t := by
  rw [convertTake] at hstep
  split at hstep
  · split at hstep
    · cases hstep
      exact ⟨rfl, rfl, fun _ h => by cases h⟩
    · cases hstep
      exact ⟨rfl, rfl, fun _ h => h⟩
  · cases hstep

theorem keepsStores_convertFinish (hstep : convertFinish c s = some t) : KeepsStores s t := by
  rw [convertFinish] at hstep
  split at hstep
  · split at hstep
    · cases hstep
      exact ⟨rfl, rfl, fun _ h => by cases h⟩
    · split at hstep
      · cases hstep
        exact ⟨rfl, rfl, fun _ h => by cases h⟩
      · cases hstep
        exact ⟨rfl, rfl, fun _ h => h⟩
  · cases hstep

theorem keepsStores_mergeStart (hstep : mergeStart c s = some t) : KeepsStores s t := by
  rw [mergeStart] at hstep
  split at hstep
  · split at hstep <;>
    · cases hstep
      exact ⟨rfl, rfl, fun _ h => h⟩
  · cases hstep

theorem keepsStores_mergePick (hstep : mergePick c s = some t) : KeepsStores s t := by
  rw [mergePick] at hstep
  split at hstep
  · split at hstep
    · cases hstep
      exact ⟨rfl, rfl, fun _ h => h⟩
    · split at hstep <;>
      · cases hstep
        exact ⟨rfl, rfl, fun _ h => h⟩
  · cases hstep

theorem keepsStores_mergeSort (hstep : mergeSort c ch uninit s = some t) : KeepsStores s t := by
  rw [mergeSort] at hstep
  split at hstep
  · split at hstep <;>
    · cases hstep
      exact ⟨rfl, rfl, fun _ h => h⟩
  · cases hstep

theorem keepsStores_mergeRun (hstep : mergeRun c ch s = some t) : KeepsStores s t := by
  rw [mergeRun] at hstep
  split at hstep
  · split at hstep
    · cases hstep
      exact ⟨rfl, rfl, fun _ h => h⟩
    · split at hstep
      · split at hstep <;>
        · cases hstep
          exact ⟨rfl, rfl, fun _ h => h⟩
      · cases hstep
        exact ⟨rfl, rfl, fun _ h => h⟩
  · cases hstep

theorem keepsStores_mergeFinish (hstep : mergeFinish c s = some t) : KeepsStores s t := by
  rw [mergeFinish] at hstep
  split at hstep
  · split at hstep
    · cases hstep
      exact ⟨rfl, rfl, fun _ h => h⟩
    · split at hstep <;>
      · cases hstep
        exact ⟨rfl, rfl, fun _ h => h⟩
  · cases hstep

/-- What a step does to the front and the middle stores, and to the store that is being converted. -/
inductive StageStep (c : Config) (ch : Children F M B) (s : State F M B) (l : Label)
  (t : State F M B) : Prop where
  | kept (h : KeepsStores s t)
  | put (a : Nat) (f : F) (rest : List (Nat × F)) (call : Call) (hcall : call ∈ s.calls)
      (hs : s.stage0 = (a, f) :: rest) (h0 : t.stage0 = (a, (ch.putFront f call.key call.data).2) :: rest)
      (h1 : t.stage1 = s.stage1) (hpc : t.convertPc = s.convertPc)
  | deleted (a : Nat) (f : F) (rest : List (Nat × F)) (key : Value) (hkey : key.length = c.keyLen)
      (hs : s.stage0 = (a, f) :: rest) (h0 : t.stage0 = (a, (ch.deleteFront f key).2) :: rest)
      (h1 : t.stage1 = s.stage1) (hpc : t.convertPc = s.convertPc)
      (hlog : t.log = s.log ++ [(.delete key, if (ch.deleteFront f key).1 = .ok ∨
        (ch.deleteFront f key).1 = .keyNotFound then .ok else (ch.deleteFront f key).1)])
  | created (a : Nat) (hs : s.stage0 ≠ []) (h0 : t.stage0 = (a, ch.createFront) :: s.stage0)
      (h1 : t.stage1 = s.stage1) (hpc : t.convertPc = s.convertPc)
  | converted (a : Nat) (f : F) (m : M) (hl : l = .convertRun) (htook : s.convertPc = .took a)
      (hlookup : s.stage0.lookup a = some f) (hconvert : ch.convertTo f = (.ok, m))
      (h0 : t.stage0 = s.stage0) (h1 : t.stage1 = s.stage1) (hpc : t.convertPc = .converted m)
  | swapped (m : M) (hconverted : s.convertPc = .converted m) (h0 : t.stage0 = s.stage0.dropLast)
      (h1 : t.stage1 = m :: s.stage1) (hpc : t.convertPc = .swapped)
  | merged (n : Nat) (h0 : t.stage0 = s.stage0) (h1 : t.stage1 = s.stage1.take n)
      (hpc : t.convertPc = s.convertPc)

theorem stageStep_putTry {i : Nat} (hstep : putTry ch s i = some t) : StageStep c ch s l t := by
  rw [putTry] at hstep
  split at hstep
  · rename_i key data a front rest hcall h0
    simp only at hstep
    split at hstep <;>
    · cases hstep
      exact .put a front rest _ (List.mem_of_getElem? hcall) h0 rfl rfl rfl
  · cases hstep

theorem stageStep_putUpgrade {i addr : Nat} (hstep : putUpgrade c ch s i addr = some t) :
    StageStep c ch s l t := by
  rw [putUpgrade] at hstep
  split at hstep
  · rename_i h0
    have hne : s.stage0 ≠ [] := by
      rw [h0]
      exact List.cons_ne_nil _ _
    simp only at hstep
    split at hstep
    · cases hstep
      exact .kept ⟨rfl, rfl, fun _ h => h⟩
    split at hstep
    · cases hstep
    split at hstep <;>
    · cases hstep
      exact .created addr hne rfl rfl rfl
  · cases hstep

theorem stageStep_delete {key : Value} (hstep : delete c ch s key = some t) : StageStep c ch s l t := by
  rw [delete] at hstep
  split at hstep
  · cases hstep
    exact .kept ⟨rfl, rfl, fun _ h => h⟩
  rename_i hkey
  split at hstep
  · rename_i a front rest h0
    cases hstep
    exact .deleted a front rest key (not_not.mp hkey).symm h0 rfl rfl rfl rfl
  · cases hstep

theorem stageStep_convertRun (hstep : convertRun ch s = some t) : StageStep c ch s .convertRun t := by
  rw [convertRun] at hstep
  split at hstep
  · rename_i a hpc
    split at hstep
    · rename_i front hlookup
      split at hstep
      · rename_i middle hconvert
        cases hstep
        exact .converted a front middle rfl hpc hlookup hconvert rfl rfl rfl
      · cases hstep
        exact .kept ⟨rfl, rfl, fun _ h => h⟩
    · cases hstep
      exact .kept ⟨rfl, rfl, fun _ h => h⟩
  · cases hstep

theorem stageStep_convertSwap (hstep : convertSwap c s = some t) : StageStep c ch s l t := by
  rw [convertSwap] at hstep
  split at hstep
  · rename_i middle hpc
    simp only at hstep
    split at hstep <;>
    · cases hstep
      exact .swapped middle hpc rfl rfl rfl
  · cases hstep

theorem stageStep_mergeSwap (hstep : mergeSwap s = some t) : StageStep c ch s l t := by
  rw [mergeSwap] at hstep
  split at hstep
  · cases hstep
    exact .merged _ rfl rfl rfl
  · cases hstep

theorem stageStep_of_step (hstep : step c ch uninit s l = some t) : StageStep c ch s l t := by
  unfold step at hstep
  split at hstep
  · cases hstep
  cases l with
  | put key data =>
    cases hstep
    exact .kept (keepsStores_put s key data)
  | putTry i => exact stageStep_putTry hstep
  | putUpgrade i addr => exact stageStep_putUpgrade hstep
  | delete key => exact stageStep_delete hstep
  | convertTake => exact .kept (keepsStores_convertTake hstep)
  | convertRun => exact stageStep_convertRun hstep
  | convertSwap => exact stageStep_convertSwap hstep
  | convertFinish => exact .kept (keepsStores_convertFinish hstep)
  | mergeStart => exact .kept (keepsStores_mergeStart hstep)
  | mergePick => exact .kept (keepsStores_mergePick hstep)
  | mergeSort => exact .kept (keepsStores_mergeSort hstep)
  | mergeRun => exact .kept (keepsStores_mergeRun hstep)
  | mergeSwap => exact stageStep_mergeSwap hstep
  | mergeFinish => exact .kept (keepsStores_mergeFinish hstep)

end Stages

end FawnDSCombi

end FawnKV.Silt
