import FawnKV.Fawn.Refinement

/-! Runs of client calls on a fresh FAWN-DS store, against the history of their results. -/
namespace FawnKV.Fawn

open ByteFile OpenAddressing

/-- A client call. -/
inductive Op where
  | insert (key data : Bytes)
  | delete (key : Bytes)
  | get (key : Bytes)
  deriving DecidableEq, Repr

def Op.key : Op → Bytes
  | .insert key _ | .delete key | .get key => key

/-- The abstract map after a call that returned `ok`: only a successful call changes it. -/
def applyOp (m : Bytes → Option Bytes) : Op × Bool → Bytes → Option Bytes
  | (.insert key data, true) => Function.update m key (some data)
  | (.delete key, true) => Function.update m key none
  | _ => m

/-- The value of the latest successful insert of each key with no successful delete after it. -/
def latest (history : List (Op × Bool)) : Bytes → Option Bytes :=
  history.foldl applyOp fun _ => none

namespace FawnDS

/-- One call with its boolean result. `Get` is called with an empty output string. -/
def step (hashes : Hashes) (ds : FawnDS) : Op → Bool × FawnDS
  | .insert key data => ds.insert hashes key data
  | .delete key => ds.delete hashes key
  | .get key => ((ds.get hashes key []).1, ds)

/-- The results of a list of calls, oldest first, and the store after them. -/
def run (hashes : Hashes) : FawnDS → List Op → List (Op × Bool) × FawnDS
  | ds, [] => ([], ds)
  | ds, op :: ops =>
    let r := ds.step hashes op
    let rest := run hashes r.2 ops
    ((op, r.1) :: rest.1, rest.2)

variable {hashes : Hashes} {len : Nat} {ds : FawnDS} {t : Nat → Slot Bytes Bytes}
  {m : Bytes → Option Bytes}

/-- The store shows the map `m`. -/
def Shows (hashes : Hashes) (len : Nat) (ds : FawnDS) (m : Bytes → Option Bytes) : Prop :=
  ∃ t, Rep hashes len ds t ∧ ∀ k, lookup (ds.path hashes) t k = m k

theorem shows_create (headerSize : Nat) {size : UInt64} {n : Nat} (hn : 3 ≤ n)
    (hsize : size.toNat = 2 ^ n) : Shows hashes len (create headerSize size) fun _ => none :=
  ⟨_, rep_create headerSize hn hsize, fun k => by simp [lookup, List.find?_eq_none.mpr]⟩

theorem Shows.get (h : Shows hashes len ds m) {k : Bytes} (hk : k.length = len) :
    ds.get hashes k [] = found (m k) := by
  obtain ⟨t, hrep, hm⟩ := h
  rw [hrep.get_eq hk, hm]

theorem Shows.delete_iff (h : Shows hashes len ds m) (k : Bytes) :
    (ds.delete hashes k).1 = true ↔ ∃ v, m k = some v := by
  obtain ⟨t, hrep, hm⟩ := h
  rw [(hrep.delete k).1, hm, Option.isSome_iff_exists]

theorem eliminateStale_header (k : Bytes) (fuel : Nat) (ds : FawnDS) :
    (eliminateStale hashes k fuel ds).header = ds.header := by
  induction fuel generalizing ds with
  | zero => rfl
  | succ fuel ih =>
    rw [eliminateStale]
    split
    · rfl
    · rw [ih]; rfl

theorem step_insertionPoint (op : Op) :
    ds.header.dataInsertionPoint ≤ (ds.step hashes op).2.header.dataInsertionPoint := by
  cases op with
  | insert k v =>
    simp only [step, insert]
    split
    · exact le_rfl
    · split
      · exact le_rfl
      · change ds.header.dataInsertionPoint ≤
          ds.header.dataInsertionPoint + dataHeaderSize + k.length + v.length
        omega
  | delete k =>
    simp only [step, delete, deleteWith, Bool.true_and, if_true]
    split
    · exact le_rfl
    · split
      · exact le_rfl
      · rw [eliminateStale_header]
        change ds.header.dataInsertionPoint ≤
          ds.header.dataInsertionPoint + dataHeaderSize + k.length
        omega
  | get k => exact le_rfl

/-- The table keeps its size. -/
theorem step_hashtableSize (op : Op) :
    (ds.step hashes op).2.header.hashtableSize = ds.header.hashtableSize := by
  cases op with
  | insert k v =>
    simp only [step, insert]
    split
    · rfl
    · split <;> rfl
  | delete k =>
    simp only [step, delete, deleteWith, Bool.true_and, if_true]
    split
    · rfl
    · split
      · rfl
      · rw [eliminateStale_header]
        rfl
  | get k => rfl

theorem run_hashtableSize (ops : List Op) (ds : FawnDS) :
    (run hashes ds ops).2.header.hashtableSize = ds.header.hashtableSize := by
  induction ops generalizing ds with
  | nil => rfl
  | cons op ops ih => exact (ih _).trans (step_hashtableSize op)

theorem run_insertionPoint (ops : List Op) (ds : FawnDS) :
    ds.header.dataInsertionPoint ≤ (run hashes ds ops).2.header.dataInsertionPoint := by
  induction ops generalizing ds with
  | nil => exact le_rfl
  | cons op ops ih => exact Nat.le_trans (step_insertionPoint op) (ih _)

theorem step_false {op : Op} (hop : (ds.step hashes op).1 = false)
    (h : Shows hashes len ds m) : (ds.step hashes op).2 = ds := by
  cases op with
  | insert k v => exact insert_false hop
  | delete k =>
    obtain ⟨t, hrep, _⟩ := h
    exact (hrep.delete k).2.1 hop
  | get k => rfl

/-- One call moves the store and the map in step. -/
theorem Shows.step (h : Shows hashes len ds m) {op : Op} (hkey : op.key.length = len)
    (hlog : (ds.step hashes op).2.header.dataInsertionPoint < 2 ^ 32) :
    Shows hashes len (ds.step hashes op).2 (applyOp m (op, (ds.step hashes op).1)) := by
  cases hok : (ds.step hashes op).1 with
  | false =>
    rw [step_false hok h]
    cases op <;> exact h
  | true =>
    obtain ⟨t, hrep, hm⟩ := h
    cases op with
    | insert k v =>
      obtain ⟨i, hi, hsize, hrep'⟩ := hrep.insert_true (k := k) hkey hok hlog
      refine ⟨_, hrep', fun k' => ?_⟩
      rw [show FawnDS.path (ds.step hashes (.insert k v)).2 hashes = ds.path hashes from
        path_eq hsize _]
      by_cases hk : k' = k
      · subst k'
        rw [lookup_insert_self hi]
        simp [applyOp]
      · rw [lookup_insert_ne hi hk, hm]
        simp [applyOp, hk]
    | delete k =>
      obtain ⟨t', hrep', hsize, hlookup⟩ := (hrep.delete k).2.2 hok
      refine ⟨t', hrep', fun k' => ?_⟩
      rw [show FawnDS.path (ds.step hashes (.delete k)).2 hashes = ds.path hashes from
        path_eq hsize _, hlookup, hm]
      by_cases hk : k' = k <;> simp [applyOp, hk]
    | get k => exact ⟨t, hrep, hm⟩

theorem Shows.run (h : Shows hashes len ds m) (ops : List Op)
    (hkeys : ∀ op ∈ ops, op.key.length = len)
    (hlog : (run hashes ds ops).2.header.dataInsertionPoint < 2 ^ 32) :
    Shows hashes len (run hashes ds ops).2 ((run hashes ds ops).1.foldl applyOp m) := by
  induction ops generalizing ds m with
  | nil => exact h
  | cons op ops ih =>
    have hstep := h.step (hkeys op (by simp))
      (Nat.lt_of_le_of_lt (run_insertionPoint ops _) hlog)
    exact ih hstep (fun o ho => hkeys o (List.mem_cons_of_mem _ ho)) hlog

/-- FAWN-DS refines a map: after any run of calls on keys of one length, for any three hash
functions and any power-of-two table, while the log stays below `2 ^ 32` bytes. -/
theorem fawnDS_refines_map (hashes : Hashes) (headerSize : Nat) (size : UInt64) (n : Nat)
    (hn : 3 ≤ n) (hsize : size.toNat = 2 ^ n) (len : Nat) (ops : List Op)
    (hkeys : ∀ op ∈ ops, op.key.length = len)
    (hlog : (run hashes (create headerSize size) ops).2.header.dataInsertionPoint < 2 ^ 32) :
    let history := (run hashes (create headerSize size) ops).1
    let ds := (run hashes (create headerSize size) ops).2
    (∀ k, k.length = len → ds.get hashes k [] = found (latest history k)) ∧
    (∀ k, k.length = len → ((ds.delete hashes k).1 = true ↔ ∃ v, latest history k = some v)) ∧
    (∀ op : Op, op.key.length = len → (ds.step hashes op).1 = false →
      ∀ k, k.length = len → (ds.step hashes op).2.get hashes k [] = ds.get hashes k []) := by
  intro history ds
  have hshows : Shows hashes len ds (latest history) :=
    (shows_create headerSize hn hsize).run ops hkeys hlog
  refine ⟨fun k hk => hshows.get hk, fun k _ => hshows.delete_iff k, fun op _ hop k _ => ?_⟩
  rw [step_false hop hshows]

/-- Insert, delete and insert again on a table of eight slots with colliding hashes. -/
theorem fawnDS_refines_map_eight :
    let ops : List Op := [.insert [1, 2] [7], .insert [3, 2] [], .delete [1, 2], .insert [1, 2] [8]]
    let r := run (fun _ _ => 5) (create 4096 8) ops
    r.2.get (fun _ _ => 5) [1, 2] [] = found (latest r.1 [1, 2]) ∧
      latest r.1 [1, 2] = some [8] :=
  ⟨(fawnDS_refines_map (fun _ _ => 5) 4096 8 3 (by decide) (by decide) 2 _ (by decide)
    (by decide +kernel)).1 [1, 2] rfl, by decide +kernel⟩

end FawnDS

end FawnKV.Fawn
