import FawnKV.Lib.Iteration
import FawnKV.Silt.PartitionStores

/-! `Enumerate` of `FawnDS_Combi` and of `FawnDS_Partition`: the iterators of the stores one after another. -/
namespace FawnKV.Silt

open Iteration

namespace FawnDSCombi

/-- The iterator, with `all_stores_` of its store; it holds the lock, so that no store is added or removed.
`currentStore` is `-1` for the `size_t(-1)` it begins with. -/
structure IteratorElem (S I : Type) where
  allStores : List (List S)
  currentStage : Nat
  currentStore : Int
  storeIt : Option I

namespace IteratorElem

variable {S I E : Type} (c : Cursor I E) (enumerate : S → I)

/-- The inner loop of `Next`. -/
def locate (allStores : List (List S)) (stage store : Nat) : Nat × Nat :=
  if allStores.length ≤ stage then (stage, store)
  else if (allStores.getD stage []).length ≤ store then locate allStores (stage + 1) 0
  else (stage, store)
termination_by allStores.length - stage

/-- The stores from a position on. -/
def rest (allStores : List (List S)) (stage store : Nat) : List S :=
  (allStores.getD stage []).drop store ++ (allStores.drop (stage + 1)).flatten

theorem rest_locate (allStores : List (List S)) (stage store : Nat) :
    rest allStores (locate allStores stage store).1 (locate allStores stage store).2 =
        rest allStores stage store ∧
      ((allStores[(locate allStores stage store).1]?.bind (·[(locate allStores stage store).2]?) = none ∧
          rest allStores stage store = []) ∨
        ∃ x, allStores[(locate allStores stage store).1]?.bind (·[(locate allStores stage store).2]?) = some x ∧
          rest allStores stage store =
            x :: rest allStores (locate allStores stage store).1 ((locate allStores stage store).2 + 1)) := by
  induction stage, store using locate.induct allStores with
  | case1 stage store hend =>
    have hrest : rest allStores stage store = [] := by
      rw [rest, List.getD_eq_default _ _ hend, List.drop_nil, List.drop_eq_nil_of_le (by omega)]
      rfl
    rw [locate, if_pos hend]
    exact ⟨rfl, .inl ⟨by rw [List.getElem?_eq_none hend]; rfl, hrest⟩⟩
  | case2 stage store hstage hstore ih =>
    have hstage := Nat.lt_of_not_le hstage
    have hrest : rest allStores stage store = rest allStores (stage + 1) 0 := by
      rw [rest, rest, List.drop_eq_nil_of_le hstore, List.nil_append, List.drop_zero]
      rcases Nat.lt_or_ge (stage + 1) allStores.length with hlt | hge
      · rw [List.drop_eq_getElem_cons hlt, List.flatten_cons, List.getD_eq_getElem _ _ hlt]
      · rw [List.drop_eq_nil_of_le hge, List.getD_eq_default _ _ hge, List.drop_eq_nil_of_le (by omega)]
        rfl
    rw [locate, if_neg (Nat.not_le_of_lt hstage), if_pos hstore, hrest]
    exact ih
  | case3 stage store hstage hstore =>
    have hstage := Nat.lt_of_not_le hstage
    have hstore := Nat.lt_of_not_le hstore
    rw [locate, if_neg (Nat.not_le_of_lt hstage), if_neg (Nat.not_le_of_lt hstore)]
    rw [List.getD_eq_getElem _ _ hstage] at hstore
    refine ⟨rfl, .inr ⟨allStores[stage][store], ?_, ?_⟩⟩
    · rw [List.getElem?_eq_getElem hstage]
      exact List.getElem?_eq_getElem hstore
    · rw [rest, rest, List.getD_eq_getElem _ _ hstage, List.drop_eq_getElem_cons hstore, List.cons_append]

/-- The outer loop of `Next`; at its end the state is `END` if the iterator has none. -/
def loop (e : IteratorElem S I) : IteratorElem S I :=
  if (e.storeIt.bind c.elem).isSome then e
  else
    let p := locate e.allStores e.currentStage (e.currentStore + 1).toNat
    match _h : e.allStores[p.1]?.bind (·[p.2]?) with
    | none => { e with currentStage := p.1, currentStore := p.2 }
    | some store =>
      loop { e with currentStage := p.1, currentStore := p.2, storeIt := some (enumerate store) }
termination_by (rest e.allStores e.currentStage (e.currentStore + 1).toNat).length
decreasing_by
  obtain ⟨-, ⟨hnone, -⟩ | ⟨x, -, hrest⟩⟩ := rest_locate e.allStores e.currentStage (e.currentStore + 1).toNat
  · rw [hnone] at _h
    cases _h
  · rw [hrest]
    exact Nat.lt_succ_self _

def next (e : IteratorElem S I) : IteratorElem S I :=
  loop c enumerate
    { e with storeIt := if (e.storeIt.bind c.elem).isSome then e.storeIt.map c.next else e.storeIt }

/-- `Enumerate` of a store with these stores. -/
def enumerateAll (allStores : List (List S)) : IteratorElem S I :=
  next c enumerate { allStores, currentStage := 0, currentStore := -1, storeIt := none }

def cursor : Cursor (IteratorElem S I) E where
  next := next c enumerate
  elem e := e.storeIt.bind c.elem

section Spec

variable {c enumerate} {e : IteratorElem S I}

/-- The iterator in use, if it is not at its end, and those that are still to begin. -/
def view (c : Cursor I E) (enumerate : S → I) (e : IteratorElem S I) : Option I × List I :=
  (inUse c e.storeIt,
    (rest e.allStores e.currentStage (e.currentStore + 1).toNat).map enumerate)

end Spec

end IteratorElem

end FawnDSCombi

namespace FawnDSPartition

structure IteratorElem (S I : Type) where
  stores : List S
  nextStore : Nat
  storeIt : Option I

namespace IteratorElem

variable {S I E : Type} (c : Cursor I E) (enumerate : S → I)

/-- The loop of `Next`; at its end the state is `END` if the iterator has none. -/
def loop (e : IteratorElem S I) : IteratorElem S I :=
  if (e.storeIt.bind c.elem).isSome then e
  else
    match _h : e.stores[e.nextStore]? with
    | none => e
    | some store => loop { e with nextStore := e.nextStore + 1, storeIt := some (enumerate store) }
termination_by e.stores.length - e.nextStore
decreasing_by
  obtain ⟨hlt, -⟩ := List.getElem?_eq_some_iff.mp _h
  omega

def next (e : IteratorElem S I) : IteratorElem S I :=
  loop c enumerate
    { e with storeIt := if (e.storeIt.bind c.elem).isSome then e.storeIt.map c.next else e.storeIt }

def enumerateAll (stores : List S) : IteratorElem S I :=
  next c enumerate { stores, nextStore := 0, storeIt := none }

def cursor : Cursor (IteratorElem S I) E where
  next := next c enumerate
  elem e := e.storeIt.bind c.elem

section Spec

variable {c enumerate} {e : IteratorElem S I}

def view (c : Cursor I E) (enumerate : S → I) (e : IteratorElem S I) : Option I × List I :=
  (inUse c e.storeIt, (e.stores.drop e.nextStore).map enumerate)

end Spec

end IteratorElem

end FawnDSPartition

namespace FawnDSCombi

open MergeTask

/-- A store in `all_stores_`. -/
inductive Child (F M B : Type) where
  | front (f : F)
  | middle (m : M)
  | back (b : B)

variable {F M B : Type} {c : Config} {ch : Children F M B} {uninit : Nat → UInt8} {s : State F M B}
  {frontRecords : F → List Record} {k v : Value}

/-- What the iterator of a store goes through: a record with its state, `OK` or `KEY_DELETED`. -/
def Child.records (ch : Children F M B) (frontRecords : F → List Record) : Child F M B → List Record
  | .front f => frontRecords f
  | .middle m => ch.enumerateMiddle m
  | .back b => (ch.enumerateBack b).map fun e => ⟨e.1, false, e.2⟩

def State.allStores (s : State F M B) : List (List (Child F M B)) :=
  [s.stage0.map fun p => .front p.2, s.stage1.map .middle, s.stage2.map .back]

def State.records (ch : Children F M B) (frontRecords : F → List Record) (s : State F M B) : List Record :=
  s.allStores.flatten.flatMap (Child.records ch frontRecords)

theorem mem_of_recordsEntry {recs : List Record} (h : recordsEntry recs k = some (some v)) :
    ⟨k, false, v⟩ ∈ recs := by
  obtain ⟨⟨key, deleted, data⟩, hr, hentry⟩ := Option.map_eq_some_iff.mp h
  obtain ⟨hmem, hkey⟩ := List.mem_filter.mp (List.mem_of_getLast? hr)
  obtain rfl := of_decide_eq_true hkey
  cases deleted with
  | true => cases hentry
  | false =>
    cases hentry
    exact hmem

theorem mem_records {r : Record} (child : Child F M B) (hchild : child ∈ s.allStores.flatten)
    (hr : r ∈ child.records ch frontRecords) : r ∈ s.records ch frontRecords :=
  List.mem_flatMap.mpr ⟨child, hchild, hr⟩

theorem allStores_flatten (s : State F M B) : s.allStores.flatten = s.stage0.map (fun p => .front p.2) ++
    (s.stage1.map .middle ++ s.stage2.map .back) := by
  simp [State.allStores]

/-- The record that a search through the stages finds is listed. -/
theorem mem_records_of_search (hl : StageLaws c.toLengths ch s) (h : Inv c ch uninit s)
    (hfront : ∀ q ∈ s.stage0, entryOf (ch.getFront q.2 k) = some (some v) →
      recordsEntry (frontRecords q.2) k = some (some v))
    (hk : k.length = c.keyLen) (hsearch : search ch s k = some (some v)) :
    ⟨k, false, v⟩ ∈ s.records ch frontRecords := by
  rcases Option.or_eq_some_iff.mp hsearch with hfound | ⟨hunseen, hsearch⟩
  · obtain ⟨q, hq, hget⟩ := List.exists_of_findSome?_eq_some hfound
    refine mem_records (.front q.2) ?_ (mem_of_recordsEntry (hfront q hq hget))
    rw [allStores_flatten]
    exact List.mem_append_left _ (List.mem_map.mpr ⟨q, hq, rfl⟩)
  · rcases Option.or_eq_some_iff.mp hsearch with hfound | ⟨-, hfound⟩
    · have hlisted := hl.listed k hk (List.findSome?_eq_none_iff.mp hunseen)
      rw [recordsEntry_recordsOf hlisted] at hfound
      obtain ⟨recs, hrecs, hmem⟩ := List.mem_flatten.mp (mem_of_recordsEntry hfound)
      obtain ⟨m, hm, rfl⟩ := List.mem_map.mp hrecs
      refine mem_records (.middle m) ?_ hmem
      rw [allStores_flatten]
      exact List.mem_append_right _ (List.mem_append_left _ (List.mem_map_of_mem (List.mem_reverse.mp hm)))
    · obtain ⟨b, hb, hget⟩ := List.exists_of_findSome?_eq_some hfound
      obtain ⟨puts, hholds⟩ := h.back b hb
      rw [hholds.get k hk, Option.map_eq_some_iff] at hget
      obtain ⟨w, hlookup, heq⟩ := hget
      cases heq
      refine mem_records (.back b) ?_ ?_
      · rw [allStores_flatten]
        exact List.mem_append_right _ (List.mem_append_right _ (List.mem_map_of_mem hb))
      · rw [Child.records, hholds.enumerate]
        obtain ⟨before, after, rfl, -⟩ := List.lookup_eq_some_iff.mp hlookup
        exact List.mem_map.mpr ⟨(k, v), List.mem_append_right before List.mem_cons_self, rfl⟩

/-- Back stores that are lists list the same. -/
theorem records_mapBack (ch : Children F M B) (frontRecords : F → List Record) (s : State F M B) :
    (s.mapBack ch.enumerateBack).records (overLists c.toLengths ch) frontRecords =
      s.records ch frontRecords := by
  simp only [State.records, allStores_flatten, State.mapBack, List.flatMap_append, List.flatMap_map]
  rfl

section Tries

open HashTableCuckoo (Seeded)

variable {keep : Bool} {t₀ : HashTableCuckoo} {n₀ : TagTable} {draws : Nat → Nat → Nat} {node : TrieNode}
  {ch : Children (FawnDSSF Seeded FileStore) Middle FawnDSSFOrderedTrie}
  {s : State (FawnDSSF Seeded FileStore) Middle FawnDSSFOrderedTrie}

/-- What `Enumerate` of a front store reads in its log. -/
def logRecords (uninit : Nat → UInt8) (f : FawnDSSF Seeded FileStore) : List Record :=
  (FawnDSSF.records uninit f).getD []

/-- A value that `Get` of a front store finds is that of the last record of the key in its log. -/
theorem recordsEntry_logRecords (hch : TrieStores c keep uninit t₀ n₀ draws node ch) (hfour : 4 ≤ c.keyLen)
    {f : FawnDSSF Seeded FileStore} {m : FawnDSSF.TombMap} (h : FawnDSSF.FrontInv uninit c.toLengths t₀ f m)
    (hk : k.length = c.keyLen) (hget : entryOf (ch.getFront f k) = some (some v)) :
    recordsEntry (logRecords uninit f) k = some (some v) := by
  have hfront : (overLists c.toLengths ch).getFront f k = answer (m k) :=
    getFront_eq hch.siltStores hfour h hk
  have hsame : (overLists c.toLengths ch).getFront f k = ch.getFront f k := rfl
  rw [← hsame, hfront, entryOf_answer] at hget
  obtain ⟨log, hlog⟩ := h.logged
  rw [logRecords, hlog.records_eq uninit h.keyLen (by omega), Option.getD_some, hlog.found k ?_, hget]
  rw [hget]
  exact Option.some_ne_none _

/-- The value of a key is among the records of the store. -/
theorem TrieInv.mem_records (h : TrieInv c keep uninit t₀ ch s)
    (hch : TrieStores c keep uninit t₀ n₀ draws node ch) (hfour : 4 ≤ c.keyLen) (hdataLen : c.dataLen ≠ 0)
    (hindex : n₀.maxIndex = t₀.maxIndex) (hk : k.length = c.keyLen) (hlast : lastOk s.log k = some v) :
    ⟨k, false, v⟩ ∈ s.records ch (logRecords uninit) := by
  have hvisible := h.silt.inv.visible k hk
  have hsame : (s.mapBack ch.enumerateBack).log = s.log := rfl
  rw [hsame, hlast] at hvisible
  rw [← records_mapBack (c := c)]
  refine mem_records_of_search (h.stages hch hfour hdataLen hindex) h.silt.inv (fun q hq hget => ?_) hk
    (Option.join_eq_some_iff.mp hvisible)
  obtain ⟨m, hm⟩ := h.silt.fronts q.2 (List.mem_map_of_mem hq)
  exact recordsEntry_logRecords hch hfour hm hk hget

end Tries

end FawnDSCombi

namespace FawnDSPartition

open Cindex FawnDSCombi Transition

variable {I F M B : Type} {p : Partition} {c : Config} {ch : Children F M B} {uninit : Nat → UInt8}
  {capacity : Nat}

/-- `Enumerate` of the whole store, from the iterators of the child stores. -/
def enumerate (cursor : Cursor I Record) (iterator : Child F M B → I) (s : State F M B) :
    IteratorElem (FawnDSCombi.State F M B) (FawnDSCombi.IteratorElem (Child F M B) I) :=
  IteratorElem.enumerateAll (FawnDSCombi.IteratorElem.cursor cursor iterator)
    (fun store => FawnDSCombi.IteratorElem.enumerateAll cursor iterator store.allStores) s.stores

section Tries

open HashTableCuckoo (Seeded)

variable {keep : Bool} {size : Int} {t₀ : HashTableCuckoo} {n₀ : TagTable} {draws : Nat → Nat → Nat}
  {node : TrieNode} {ch : Children (FawnDSSF Seeded FileStore) Middle FawnDSSFOrderedTrie}

end Tries

end FawnDSPartition

end FawnKV.Silt
