import FawnKV.Cindex.KeyRouting
import FawnKV.Silt.BackStores
import FawnKV.Silt.TaskScheduler

/-! `FawnDS_Partition` over `FawnDS_Combi` stores. The two schedulers of `FawnDS_Combi` are static: all the
stores share them. -/
namespace FawnKV.Silt

namespace FawnDSCombi

/-- The key of the call that a step begins. -/
def Label.key? : Label → Option Value
  | .put key _ | .delete key => some key
  | _ => none

def Op.key : Op → Value
  | .put key _ | .delete key => key

/-- The sections that end the `Run` of a task. -/
def Label.endsConvert : Label → Bool
  | .convertFinish => true
  | _ => false

def Label.endsMerge : Label → Bool
  | .mergeFinish => true
  | _ => false

end FawnDSCombi

namespace FawnDSPartition

open Cindex FawnDSCombi Transition

/-- The stores of the partitions, the schedulers with the tasks of each store under its index, and the calls
that returned, in order. -/
structure State (F M B : Type) where
  stores : List (FawnDSCombi.State F M B)
  convertScheduler : TaskScheduler.State Nat
  mergeScheduler : TaskScheduler.State Nat
  log : List (Op × FawnDSReturn)

variable {F M B : Type} (p : Partition) (c : Config) (ch : Children F M B) (uninit : Nat → UInt8)
  (capacity : Nat)

/-- `Create` with a configuration that `alloc_stores` accepts; each scheduler has one worker. -/
def create : State F M B where
  stores := List.replicate p.partitions (FawnDSCombi.create ch)
  convertScheduler := TaskScheduler.create 1
  mergeScheduler := TaskScheduler.create 1
  log := []

/-- A section of a store that may enqueue a task of the store, and may be the last of the task that runs. -/
def serve (q : TaskScheduler.State Nat) (i : Nat) (enqueues ends : Bool) : Option (TaskScheduler.State Nat) :=
  (if enqueues then TaskScheduler.enqueueTask capacity q i else some q).bind fun q =>
    if ends then TaskScheduler.runTask q 0 else some q

/-- A task of a store begins when a worker has popped it. -/
def mayRun (s : State F M B) (i : Nat) : FawnDSCombi.Label → Bool
  | .convertTake => decide (s.convertScheduler.running = [.task i])
  | .mergeStart => decide (s.mergeScheduler.running = [.task i])
  | _ => true

/-- A section of the code of one store. -/
def storeStep (s : State F M B) (i : Nat) (l : FawnDSCombi.Label) : Option (State F M B) := do
  let store ← s.stores[i]?
  if mayRun s i l then
    let store' ← FawnDSCombi.step c ch uninit store l
    let convertScheduler ← serve capacity s.convertScheduler i
      (decide (store.convertTasks < store'.convertTasks)) l.endsConvert
    let mergeScheduler ← serve capacity s.mergeScheduler i
      (decide (store.mergeTasks < store'.mergeTasks)) l.endsMerge
    let stores := s.stores.set i store'
    some ⟨stores, convertScheduler, mergeScheduler, s.log ++ store'.log.drop store.log.length⟩
  else none

/-- A key that is too short breaks the program off. -/
def put (s : State F M B) (key : KeyInMemory) (data : Value) : Option (State F M B) :=
  if s.stores = [] then some { s with log := s.log ++ [(.put key.data data, .error)] }
  else
    let route := p.getPartition key
    if route.tooShort then none else storeStep c ch uninit capacity s route.index (.put key.data data)

def delete (s : State F M B) (key : KeyInMemory) : Option (State F M B) :=
  if s.stores = [] then some { s with log := s.log ++ [(.delete key.data, .error)] }
  else
    let route := p.getPartition key
    if route.tooShort then none else storeStep c ch uninit capacity s route.index (.delete key.data)

def get (s : State F M B) (key : KeyInMemory) : Option (FawnDSReturn × Value) :=
  if s.stores = [] then some (.error, [])
  else
    let route := p.getPartition key
    if route.tooShort then none
    else s.stores[route.index]?.map fun store => FawnDSCombi.get c ch store key.data

/-- The calls, the sections of the stores that are under way, and the two workers. -/
inductive Label where
  | put (key : KeyInMemory) (data : Value)
  | delete (key : KeyInMemory)
  | store (i : Nat) (l : FawnDSCombi.Label)
  | convertPop
  | mergePop

/-- The section that a step takes in one of the stores. -/
def Label.section? : Label → Option (Nat × FawnDSCombi.Label)
  | .put key data => some ((p.getPartition key).index, .put key.data data)
  | .delete key => some ((p.getPartition key).index, .delete key.data)
  | .store i l => some (i, l)
  | .convertPop | .mergePop => none

def step (s : State F M B) : Label → Option (State F M B)
  | .put key data => put p c ch uninit capacity s key data
  | .delete key => delete p c ch uninit capacity s key
  | .store i l => if l.key? = none then storeStep c ch uninit capacity s i l else none
  | .convertPop => (TaskScheduler.pop s.convertScheduler 0).map fun q => { s with convertScheduler := q }
  | .mergePop => (TaskScheduler.pop s.mergeScheduler 0).map fun q => { s with mergeScheduler := q }

end FawnDSPartition

namespace FawnDSCombi

section Calls

variable {F M B : Type} {c : Config} {ch : Children F M B} {uninit : Nat → UInt8} {s t : State F M B}
  {l : Label} {k : Value}

/-- A key that a call under way has, or the call that a step begins. -/
def Asked (s : State F M B) (l : Label) (k : Value) : Prop :=
  (∃ call ∈ s.calls, call.key = k) ∨ l.key? = some k

/-- A step returns one call at most. -/
structure CallStep (s : State F M B) (l : Label) (t : State F M B) : Prop where
  calls : ∀ call ∈ t.calls, Asked s l call.key
  log : t.log = s.log ∨ ∃ op ret, t.log = s.log ++ [(op, ret)] ∧ Asked s l op.key

theorem CallStep.of_eq (hcalls : t.calls = s.calls) (hlog : t.log = s.log) : CallStep s l t :=
  ⟨fun call hcall => .inl ⟨call, hcalls ▸ hcall, rfl⟩, .inl hlog⟩

theorem callStep_put (s : State F M B) (key data : Value) :
    CallStep s (.put key data) (put c s key data) := by
  rw [put]
  split
  · exact ⟨fun call hcall => .inl ⟨call, hcall, rfl⟩, .inr ⟨_, _, rfl, .inr rfl⟩⟩
  split
  · exact ⟨fun call hcall => .inl ⟨call, hcall, rfl⟩, .inr ⟨_, _, rfl, .inr rfl⟩⟩
  · refine ⟨fun call hcall => ?_, .inl rfl⟩
    rcases List.mem_append.mp hcall with hold | hnew
    · exact .inl ⟨call, hold, rfl⟩
    · cases List.mem_singleton.mp hnew
      exact .inr rfl

theorem callStep_delete {key : Value} (hs : delete c ch s key = some t) : CallStep s (.delete key) t := by
  rw [delete] at hs
  split at hs
  · cases hs
    exact ⟨fun call hcall => .inl ⟨call, hcall, rfl⟩, .inr ⟨_, _, rfl, .inr rfl⟩⟩
  · split at hs
    · cases hs
      exact ⟨fun call hcall => .inl ⟨call, hcall, rfl⟩, .inr ⟨_, _, rfl, .inr rfl⟩⟩
    · cases hs

theorem callStep_putTry {i : Nat} (hs : putTry ch s i = some t) : CallStep s l t := by
  rw [putTry] at hs
  split at hs
  · rename_i key data a front rest hcall h0
    have hmem := List.mem_of_getElem? hcall
    simp only at hs
    split at hs <;> cases hs
    · refine ⟨fun call hcall' => .inl ⟨call, List.mem_of_mem_eraseIdx hcall', rfl⟩, .inr ⟨_, _, rfl, .inl ?_⟩⟩
      exact ⟨_, hmem, rfl⟩
    · refine ⟨fun call hcall' => .inl ?_, .inl rfl⟩
      rcases List.mem_or_eq_of_mem_set hcall' with hold | rfl
      · exact ⟨call, hold, rfl⟩
      · exact ⟨_, hmem, rfl⟩
  · cases hs

theorem callStep_putUpgrade {i addr : Nat} (hs : putUpgrade c ch s i addr = some t) : CallStep s l t := by
  rw [putUpgrade] at hs
  split at hs
  · rename_i key data front a f rest hcall h0
    have hmem := List.mem_of_getElem? hcall
    have hcalls : ∀ call ∈ s.calls.set i ⟨key, data, none⟩, Asked s l call.key := by
      intro call hcall'
      rcases List.mem_or_eq_of_mem_set hcall' with hold | rfl
      · exact .inl ⟨call, hold, rfl⟩
      · exact .inl ⟨_, hmem, rfl⟩
    simp only at hs
    split at hs
    · cases hs
      exact ⟨hcalls, .inl rfl⟩
    split at hs
    · cases hs
    split at hs <;>
    · cases hs
      exact ⟨hcalls, .inl rfl⟩
  · cases hs

/-- The tasks leave the calls alone. -/
theorem background_calls (hl : l.isConvert = true ∨ l.isMerge = true) (hs : step c ch uninit s l = some t) :
    t.calls = s.calls := by
  unfold step at hs
  split at hs
  · cases hs
  · cases l <;> simp only [Label.isConvert, Label.isMerge, Bool.false_eq_true, or_self] at hl <;>
      simp only [convertTake, convertRun, convertSwap, convertFinish, mergeStart, mergePick,
        mergeSort, mergeRun, mergeSwap, mergeFinish] at hs <;>
      repeat' split at hs
    all_goals first | (cases hs; rfl) | cases hs

theorem callStep_of_step (hs : step c ch uninit s l = some t) : CallStep s l t := by
  have hbackground : l.isConvert = true ∨ l.isMerge = true → CallStep s l t :=
    fun hl => .of_eq (background_calls hl hs) (background_log hl hs)
  have hstep := hs
  unfold step at hstep
  split at hstep
  · cases hstep
  cases l with
  | put key data =>
    cases hstep
    exact callStep_put s key data
  | putTry i => exact callStep_putTry hstep
  | putUpgrade i addr => exact callStep_putUpgrade hstep
  | delete key => exact callStep_delete hstep
  | convertTake => exact hbackground (.inl rfl)
  | convertRun => exact hbackground (.inl rfl)
  | convertSwap => exact hbackground (.inl rfl)
  | convertFinish => exact hbackground (.inl rfl)
  | mergeStart => exact hbackground (.inr rfl)
  | mergePick => exact hbackground (.inr rfl)
  | mergeSort => exact hbackground (.inr rfl)
  | mergeRun => exact hbackground (.inr rfl)
  | mergeSwap => exact hbackground (.inr rfl)
  | mergeFinish => exact hbackground (.inr rfl)

theorem lastOk_append_other {op : Op} {ret : FawnDSReturn} (h : op.key ≠ k)
    (log : List (Op × FawnDSReturn)) : lastOk (log ++ [(op, ret)]) k = lastOk log k := by
  rw [lastOk_append]
  cases op <;> cases ret <;> first | rfl | exact if_neg h

theorem lastOk_append_congr {log log' : List (Op × FawnDSReturn)} (h : lastOk log k = lastOk log' k)
    (new : List (Op × FawnDSReturn)) : lastOk (log ++ new) k = lastOk (log' ++ new) k := by
  simp only [lastOk] at h ⊢
  rw [List.foldl_append, List.foldl_append, h]

end Calls

end FawnDSCombi

namespace FawnDSPartition

open Cindex FawnDSCombi Transition

section Routing

variable {p : Partition} {n : Nat}

/-- The partition of a key. -/
def route (p : Partition) (k : Value) : Nat := (p.getPartition ⟨k, fun _ => false⟩).index

/-- The bits for the partition lie in keys of `n` bytes, whatever lies behind them. -/
theorem getPartition_inside (hbits : p.partitionBits < 32) (hfit : p.skipBits + p.partitionBits ≤ 8 * n)
    (hn : n < 2 ^ 61 - 1) {key : KeyInMemory} (hkey : key.data.length = n) :
    (p.getPartition key).tooShort = false ∧ (p.getPartition key).index = route p key.data ∧
      route p key.data < 2 ^ p.partitionBits := by
  have hinside : ∀ b < p.partitionBits, (p.skipBits + b) % 2 ^ 64 < 8 * n := by
    intro b hb
    rw [Nat.mod_eq_of_lt (by omega)]
    omega
  have hlong : ∀ key : KeyInMemory, key.data.length = n → (p.getPartition key).tooShort = false := by
    intro key hkey
    rw [Bool.eq_false_iff, Partition.getPartition]
    intro hshort
    obtain ⟨b, -, hb, hguard⟩ := routeLoop_tooShort.mp hshort
    have hin := hinside b (by omega)
    rw [decide_eq_true_iff, hkey] at hguard
    omega
  have hbare := hlong ⟨key.data, fun _ => false⟩ hkey
  refine ⟨hlong key hkey, ?_, routeLoop_lt (by omega) hbare⟩
  rw [Partition.getPartition, routeLoop_index_inside (by omega) (hlong key hkey) (hkey ▸ hinside), route,
    Partition.getPartition, routeLoop_index_inside (by omega) hbare (hkey ▸ hinside)]

/-- A configuration that is accepted, and whose bits lie in keys of `n` bytes. -/
structure Fits (p : Partition) (n : Nat) : Prop where
  bits : p.partitionBits < 32
  count : p.partitions = 2 ^ p.partitionBits
  fit : p.skipBits + p.partitionBits ≤ 8 * n
  len : n < 2 ^ 61 - 1

theorem fits_of_allocStores {skipBits partitions : Int}
    (hp : Partition.allocStores skipBits partitions = some (.ok, p))
    (hfit : p.skipBits + p.partitionBits ≤ 8 * n) (hlen : n < 2 ^ 61 - 1) : Fits p n := by
  obtain ⟨-, hbits, hcount⟩ := Partition.allocStores_ok hp
  exact ⟨hbits, hcount, hfit, hlen⟩

theorem Fits.inside (h : Fits p n) {key : KeyInMemory} (hkey : key.data.length = n) :
    (p.getPartition key).tooShort = false ∧ (p.getPartition key).index = route p key.data ∧
      route p key.data < 2 ^ p.partitionBits :=
  getPartition_inside h.bits h.fit h.len hkey

end Routing

section Refinement

variable {F M B : Type} {p : Partition} {c : Config} {ch : Children F M B} {uninit : Nat → UInt8}
  {capacity : Nat} {s t : State F M B} {i : Nat} {k : Value}

theorem storeStep_eq_some {l : FawnDSCombi.Label} (h : storeStep c ch uninit capacity s i l = some t) :
    ∃ store store', s.stores[i]? = some store ∧ mayRun s i l = true ∧
      FawnDSCombi.step c ch uninit store l = some store' ∧
      serve capacity s.convertScheduler i (decide (store.convertTasks < store'.convertTasks)) l.endsConvert =
        some t.convertScheduler ∧
      serve capacity s.mergeScheduler i (decide (store.mergeTasks < store'.mergeTasks)) l.endsMerge =
        some t.mergeScheduler ∧
      t.stores = s.stores.set i store' ∧ t.log = s.log ++ store'.log.drop store.log.length := by
  simp only [storeStep, Option.bind_eq_bind, Option.bind_eq_some_iff] at h
  obtain ⟨store, hstore, h⟩ := h
  split at h
  · rename_i hmay
    simp only [Option.bind_eq_some_iff] at h
    obtain ⟨store', hstep, convertScheduler, hconvert, mergeScheduler, hmerge, h⟩ := h
    cases h
    exact ⟨store, store', hstore, hmay, hstep, hconvert, hmerge, rfl, rfl⟩
  · cases h

/-- A property of single stores which their steps keep, where they meet a condition, and which says that the
store is a map. -/
structure StoreMap (c : Config) (ch : Children F M B) (uninit : Nat → UInt8)
    (Meeting : FawnDSCombi.State F M B → FawnDSCombi.Label → Prop) (Good : FawnDSCombi.State F M B → Prop) :
    Prop where
  create : Good (FawnDSCombi.create ch)
  step : ∀ s l t, FawnDSCombi.step c ch uninit s l = some t → Meeting s l → Good s → Good t
  calls : ∀ s, Good s → ∀ call ∈ s.calls, call.key.length = c.keyLen
  running : ∀ s, Good s → s.aborted = false
  answers : ∀ s, Good s → ∀ k, k.length = c.keyLen → Answers (FawnDSCombi.get c ch s k) (lastOk s.log k)

variable {Meeting : FawnDSCombi.State F M B → FawnDSCombi.Label → Prop} {Good : FawnDSCombi.State F M B → Prop}

/-- The section that a step takes meets the condition in its store. -/
def OnStore (p : Partition) (Meeting : FawnDSCombi.State F M B → FawnDSCombi.Label → Prop) (s : State F M B)
    (l : Label) : Prop :=
  ∀ x ∈ l.section? p, ∀ store ∈ s.stores[x.1]?, Meeting store x.2

instance [∀ store l, Decidable (Meeting store l)] (s : State F M B) (l : Label) :
    Decidable (OnStore p Meeting s l) :=
  inferInstanceAs (Decidable (∀ x ∈ l.section? p, ∀ store ∈ s.stores[x.1]?, Meeting store x.2))

/-- What holds of the store of a partition: what holds of a store by itself; its calls are those of keys of the
partition, and it has all of their calls. -/
structure StoreInv (p : Partition) (c : Config) (Good : FawnDSCombi.State F M B → Prop)
    (log : List (Op × FawnDSReturn)) (i : Nat) (store : FawnDSCombi.State F M B) : Prop where
  good : Good store
  routed : ∀ call ∈ store.calls, route p call.key = i
  logged : ∀ k, k.length = c.keyLen → route p k = i → lastOk log k = lastOk store.log k

structure Inv (p : Partition) (c : Config) (Good : FawnDSCombi.State F M B → Prop) (s : State F M B) :
    Prop where
  length : s.stores.length = p.partitions
  store : ∀ i store, s.stores[i]? = some store → StoreInv p c Good s.log i store

theorem inv_create (hmap : StoreMap c ch uninit Meeting Good) : Inv p c Good (create p ch) := by
  refine ⟨List.length_replicate, fun i store hstore => ?_⟩
  rw [List.eq_of_mem_replicate (List.mem_of_getElem? hstore)]
  exact ⟨hmap.create, fun call hcall => absurd hcall List.not_mem_nil, fun k _ _ => rfl⟩

/-- The steps of a store on keys of its partition keep the invariant. -/
theorem inv_storeStep (hmap : StoreMap c ch uninit Meeting Good) {l : FawnDSCombi.Label}
    (hmeets : ∀ store, s.stores[i]? = some store → Meeting store l)
    (hroute : ∀ k, l.key? = some k → k.length = c.keyLen → route p k = i)
    (hs : storeStep c ch uninit capacity s i l = some t) (h : Inv p c Good s) : Inv p c Good t := by
  obtain ⟨store, store', hstore, -, hstep, -, -, hstores, hlog⟩ := storeStep_eq_some hs
  have hold := h.store i store hstore
  have hgood : Good store' := hmap.step store l store' hstep (hmeets store hstore) hold.good
  have hasked : ∀ k, Asked store l k → k.length = c.keyLen → route p k = i := by
    rintro k (⟨call, hcall, rfl⟩ | hkey) hk
    · exact hold.routed call hcall
    · exact hroute k hkey hk
  obtain ⟨hcalls, hreturn⟩ := callStep_of_step hstep
  -- the log of the partitions takes what the log of the store has got
  have hnew : t.log = s.log ∧ store'.log = store.log ∨ ∃ op ret, t.log = s.log ++ [(op, ret)] ∧
      store'.log = store.log ++ [(op, ret)] ∧ Asked store l op.key := by
    rcases hreturn with hsame | ⟨op, ret, hone, hop⟩
    · refine .inl ⟨?_, hsame⟩
      rw [hlog, hsame, List.drop_length, List.append_nil]
    · refine .inr ⟨op, ret, ?_, hone, hop⟩
      rw [hlog, hone, List.drop_left]
  refine ⟨?_, fun j store₁ hstore₁ => ?_⟩
  · rw [hstores, List.length_set]
    exact h.length
  · rw [hstores] at hstore₁
    by_cases hij : i = j
    · subst hij
      rw [List.getElem?_set_self (List.getElem?_eq_some_iff.mp hstore).1] at hstore₁
      cases hstore₁
      refine ⟨hgood, fun call hcall => ?_, fun k hk hkroute => ?_⟩
      · exact hasked call.key (hcalls call hcall) (hmap.calls store' hgood call hcall)
      · rcases hnew with ⟨hsame, hsame'⟩ | ⟨op, ret, hone, hone', -⟩
        · rw [hsame, hsame']
          exact hold.logged k hk hkroute
        · rw [hone, hone']
          exact lastOk_append_congr (hold.logged k hk hkroute) _
    · rw [List.getElem?_set_ne hij] at hstore₁
      have hother := h.store j store₁ hstore₁
      refine ⟨hother.good, hother.routed, fun k hk hkroute => ?_⟩
      rw [← hother.logged k hk hkroute]
      rcases hnew with ⟨hsame, -⟩ | ⟨op, ret, hone, -, hop⟩
      · rw [hsame]
      · rw [hone]
        refine lastOk_append_other ?_ s.log
        rintro rfl
        exact hij ((hasked op.key hop hk).symm.trans hkroute)

theorem inv_step (hfits : Fits p c.keyLen) (hmap : StoreMap c ch uninit Meeting Good) {l : Label}
    (hs : step p c ch uninit capacity s l = some t) (hmeets : OnStore p Meeting s l) (h : Inv p c Good s) :
    Inv p c Good t := by
  have hne : s.stores ≠ [] := by
    intro hnil
    have hzero := h.length
    rw [hnil, hfits.count, List.length_nil] at hzero
    exact absurd hzero.symm (Nat.two_pow_pos _).ne'
  have hroute : ∀ (key : KeyInMemory) k, some key.data = some k → k.length = c.keyLen →
      route p k = (p.getPartition key).index := by
    intro key k heq hk
    cases heq
    exact (hfits.inside hk).2.1.symm
  cases l with
  | put key data =>
    rw [step, put, if_neg hne] at hs
    simp only at hs
    split at hs
    · cases hs
    · refine inv_storeStep hmap (hmeets _ rfl) ?_ hs h
      exact hroute key
  | delete key =>
    rw [step, delete, if_neg hne] at hs
    simp only at hs
    split at hs
    · cases hs
    · refine inv_storeStep hmap (hmeets _ rfl) ?_ hs h
      exact hroute key
  | store i l =>
    rw [step] at hs
    split at hs
    · rename_i hnone
      refine inv_storeStep hmap (hmeets _ rfl) (fun k hk => ?_) hs h
      rw [hnone] at hk
      cases hk
    · cases hs
  | convertPop =>
    obtain ⟨q, -, rfl⟩ := Option.map_eq_some_iff.mp hs
    exact ⟨h.length, h.store⟩
  | mergePop =>
    obtain ⟨q, -, rfl⟩ := Option.map_eq_some_iff.mp hs
    exact ⟨h.length, h.store⟩

theorem inv_run (hfits : Fits p c.keyLen) (hmap : StoreMap c ch uninit Meeting Good) {ls : List Label}
    (hs : run (step p c ch uninit capacity) (create p ch) ls = some s)
    (hmeets : Meets (step p c ch uninit capacity) (OnStore p Meeting) (create p ch) ls) : Inv p c Good s :=
  run_invariant_of_meets (fun _ _ _ => inv_step hfits hmap) hs hmeets (inv_create hmap)

/-- The store of a key, with what holds of it. -/
theorem Inv.exists_store (h : Inv p c Good s) (hfits : Fits p c.keyLen) (hk : k.length = c.keyLen) :
    ∃ store, s.stores[route p k]? = some store ∧ StoreInv p c Good s.log (route p k) store := by
  obtain ⟨-, -, hlt⟩ := @Fits.inside _ _ hfits ⟨k, fun _ => false⟩ hk
  rw [← hfits.count, ← h.length] at hlt
  exact ⟨_, List.getElem?_eq_getElem hlt, h.store _ _ (List.getElem?_eq_getElem hlt)⟩

/-- Where every store is a map, so is the whole. -/
theorem Inv.get_answers (h : Inv p c Good s) (hfits : Fits p c.keyLen)
    (hmap : StoreMap c ch uninit Meeting Good) {key : KeyInMemory} (hkey : key.data.length = c.keyLen) :
    ∃ r, get p c ch s key = some r ∧ Answers r (lastOk s.log key.data) := by
  obtain ⟨store, hstore, hinv⟩ := h.exists_store hfits hkey
  obtain ⟨hshort, hindex, -⟩ := hfits.inside hkey
  have hne : s.stores ≠ [] := by
    rintro hnil
    rw [hnil] at hstore
    cases hstore
  refine ⟨FawnDSCombi.get c ch store key.data, ?_, ?_⟩
  · rw [get, if_neg hne]
    simp only [hshort, Bool.false_eq_true, if_false, hindex, hstore, Option.map_some]
  · rw [hinv.logged key.data hkey rfl]
    exact hmap.answers store hinv.good key.data hkey

end Refinement

section Tries

open HashTableCuckoo (Seeded)

variable {p : Partition} {c : Config} {keep : Bool} {uninit : Nat → UInt8} {size : Int} {t₀ : HashTableCuckoo}
  {n₀ : TagTable} {draws : Nat → Nat → Nat} {node : TrieNode}
  {ch : Children (FawnDSSF Seeded FileStore) Middle FawnDSSFOrderedTrie} {capacity : Nat}

/-- The store over its real parts is a map where its merges are of keys that the index takes. -/
theorem trieInv_storeMap (hsize : 4 ≤ size) (htable : HashTableCuckoo.create size = .ok t₀)
    (htags : TagTable.create size = .ok n₀) (hfour : 4 ≤ c.keyLen) (hdataLen : c.dataLen ≠ 0)
    (hch : TrieStores c keep uninit t₀ n₀ draws node ch) :
    StoreMap c ch uninit (Mergeable c keep uninit node ch) (TrieInv c keep uninit t₀ ch) := by
  obtain ⟨hinv, hindex⟩ := created_tables hsize htable htags
  refine ⟨trieInv_create hch hfour hinv, fun _ _ _ => trieInv_step hch hfour hdataLen hindex hinv,
    fun s h call hcall => (h.silt.inv.calls call hcall).1, fun s h => h.silt.inv.running, fun s h k hk => ?_⟩
  rw [← get_mapBack h.lists k]
  exact FawnDSCombi.get_answers (h.stages hch hfour hdataLen hindex) h.silt.inv hk

/-- For every configuration that is accepted and whose bits lie in the keys: in every order of the calls, of the
sections of all the stores and of what the two workers do, `Get` finds the value of the last successful `Put`
unless a later `Delete` succeeded, and no assertion fails. -/
theorem partitioned_store_refines_map {skipBits partitions : Int}
    (hp : Partition.allocStores skipBits partitions = some (.ok, p))
    (hfit : p.skipBits + p.partitionBits ≤ 8 * c.keyLen) (hlen : c.keyLen < 2 ^ 61 - 1) (hsize : 4 ≤ size)
    (htable : HashTableCuckoo.create size = .ok t₀) (htags : TagTable.create size = .ok n₀)
    (hfour : 4 ≤ c.keyLen) (hdataLen : c.dataLen ≠ 0) (hch : TrieStores c keep uninit t₀ n₀ draws node ch)
    (ls : List Label) (s : State (FawnDSSF Seeded FileStore) Middle FawnDSSFOrderedTrie)
    (hs : run (step p c ch uninit capacity) (create p ch) ls = some s)
    (hmeets : Meets (step p c ch uninit capacity) (OnStore p (Mergeable c keep uninit node ch)) (create p ch)
      ls) :
    (∀ store ∈ s.stores, store.aborted = false) ∧
    ∀ key : KeyInMemory, key.data.length = c.keyLen →
      ∃ r, get p c ch s key = some r ∧ Answers r (lastOk s.log key.data) := by
  have hfits := fits_of_allocStores hp hfit hlen
  have hmap := trieInv_storeMap hsize htable htags hfour hdataLen hch
  have h := inv_run hfits hmap hs hmeets
  refine ⟨fun store hstore => ?_, fun key hkey => h.get_answers hfits hmap hkey⟩
  obtain ⟨i, hi⟩ := List.mem_iff_getElem?.mp hstore
  exact hmap.running store (h.store i store hi).good

/-- Two keys that differ in their first bit, in two partitions, and an overwrite. -/
def twoKeys : List Label :=
  [.put ⟨[1, 0, 0, 0], fun _ => true⟩ [10], .store 0 (.putTry 0),
    .put ⟨[129, 0, 0, 0], fun _ => true⟩ [11], .store 1 (.putTry 0),
    .put ⟨[1, 0, 0, 0], fun _ => true⟩ [12], .store 0 (.putTry 0)]

theorem run_twoKeys :
    ∃ s, run (step ⟨0, 2, 1⟩ fourBytes tries (fun _ => 0) 100) (create ⟨0, 2, 1⟩ tries) twoKeys = some s ∧
      lastOk s.log [1, 0, 0, 0] = some [12] ∧ lastOk s.log [129, 0, 0, 0] = some [11] ∧
      Meets (step ⟨0, 2, 1⟩ fourBytes tries (fun _ => 0) 100)
        (OnStore ⟨0, 2, 1⟩ (Mergeable fourBytes true (fun _ => 0) smallNode tries)) (create ⟨0, 2, 1⟩ tries)
        twoKeys := by
  have hobserved : (run (step ⟨0, 2, 1⟩ fourBytes tries (fun _ => 0) 100) (create ⟨0, 2, 1⟩ tries) twoKeys).map
      (fun s => (lastOk s.log [1, 0, 0, 0], lastOk s.log [129, 0, 0, 0],
        decide (Meets (step ⟨0, 2, 1⟩ fourBytes tries (fun _ => 0) 100)
          (OnStore ⟨0, 2, 1⟩ (Safe fourBytes true (fun _ => 0) tries)) (create ⟨0, 2, 1⟩ tries) twoKeys))) =
      some (some [12], some [11], true) := by
    rw [tries_eq]
    decide +kernel
  obtain ⟨s, hs, hval⟩ := Option.map_eq_some_iff.mp hobserved
  simp only [Prod.mk.injEq, decide_eq_true_iff] at hval
  obtain ⟨hfirst, hsecond, hsafe⟩ := hval
  have hnone : Meets (step ⟨0, 2, 1⟩ fourBytes tries (fun _ => 0) 100)
      (fun _ l => ∀ x ∈ l.section? ⟨0, 2, 1⟩, x.2 ≠ .mergeRun) (create ⟨0, 2, 1⟩ tries) twoKeys :=
    meets_of_forall_mem (by decide) _
  refine ⟨s, hs, hfirst, hsecond, (hsafe.and hnone).imp fun u l h x hx store hstore => ?_⟩
  exact ⟨h.1 x hx store hstore, fun hl => absurd hl (h.2 x hx)⟩

theorem partitioned_store_refines_map_twoKeys :
    ∃ s, run (step ⟨0, 2, 1⟩ fourBytes tries (fun _ => 0) 100) (create ⟨0, 2, 1⟩ tries) twoKeys = some s ∧
      get ⟨0, 2, 1⟩ fourBytes tries s ⟨[1, 0, 0, 0], fun _ => false⟩ = some (.ok, [12]) ∧
      get ⟨0, 2, 1⟩ fourBytes tries s ⟨[129, 0, 0, 0], fun _ => false⟩ = some (.ok, [11]) := by
  obtain ⟨s, hs, hfirst, hsecond, hmeets⟩ := run_twoKeys
  have hp : Partition.allocStores 0 2 = some (.ok, ⟨0, 2, 1⟩) := rfl
  have hch : TrieStores fourBytes true (fun _ => 0) oneBucket oneBucketTags (fun _ _ => 0) smallNode tries :=
    trieStores_laws _ _ _ _ _ _ _
  have hgets := (partitioned_store_refines_map hp (by decide) (by decide) (Int.le_refl 4) rfl rfl
    (by decide) (by decide) hch twoKeys s hs hmeets).2
  obtain ⟨r, hr, hans⟩ := hgets ⟨[1, 0, 0, 0], fun _ => false⟩ rfl
  obtain ⟨r', hr', hans'⟩ := hgets ⟨[129, 0, 0, 0], fun _ => false⟩ rfl
  rw [hfirst] at hans
  rw [hsecond] at hans'
  exact ⟨s, hs, hr.trans (congrArg some hans), hr'.trans (congrArg some hans')⟩

end Tries

end FawnDSPartition

end FawnKV.Silt
