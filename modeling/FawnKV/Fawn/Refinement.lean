import FawnKV.Fawn.Table

/-! FAWN-DS refines a map: the table represents open addressing with tombstones over the log. -/
namespace FawnKV.Fawn

open ByteFile OpenAddressing

namespace FawnDS

/-- How a hash entry shows the slot of an abstract table. -/
def RepSlot (len : Nat) (ds : FawnDS) (i : Nat) : Slot Bytes Bytes → Prop
  | .empty => ds.valid i = false
  | .tombstone => ds.valid i = true ∧ ds.deleted i = true
  | .live k v => ds.valid i = true ∧ ds.deleted i = false ∧ k.length = len ∧
      ds.verifykey i = keyfragmentFromKey k ∧ HasRecord ds.datastore (ds.entry i).offset.toNat ⟨k, v, false⟩

/-- The store represents the abstract table `t` with keys of length `len`. -/
structure Rep (hashes : Hashes) (len : Nat) (ds : FawnDS) (t : Nat → Slot Bytes Bytes) : Prop where
  slots : ∀ i, RepSlot len ds i (t i)
  reach : Reachable (ds.path hashes) t
  logEnd : ds.datastore.length = ds.header.dataInsertionPoint
  size : ∃ n, 3 ≤ n ∧ ds.header.hashtableSize.toNat = 2 ^ n

variable {hashes : Hashes} {len : Nat} {ds : FawnDS} {t : Nat → Slot Bytes Bytes}
  {u : Nat → Slot Bytes (Nat × Bytes)} {key k v : Bytes} {i : Nat}

/-- All keys in the table have this length. -/
def KeyLength (len : Nat) (u : Nat → Slot Bytes (Nat × Bytes)) : Prop :=
  ∀ i k p, u i = .live k p → k.length = len

section Offsets

/-- The slots with the offsets of their entries. -/
def withOffset (offset : Nat) (s : Slot Bytes Bytes) : Slot Bytes (Nat × Bytes) :=
  s.map fun v => (offset, v)

theorem map_withOffset (offset : Nat) (s : Slot Bytes Bytes) : (withOffset offset s).map Prod.snd = s := by
  cases s <;> rfl

/-- A representation is a table of keys of one length whose offsets are left out. -/
theorem Rep.exists_table (h : Rep hashes len ds t) :
    ∃ u, Table hashes ds u ∧ KeyLength len u ∧ t = fun i => (u i).map Prod.snd := by
  have hback : t = fun i => (withOffset (ds.entry i).offset.toNat (t i)).map Prod.snd := by
    funext i
    exact (map_withOffset _ _).symm
  refine ⟨fun i => withOffset (ds.entry i).offset.toNat (t i), ?_, ?_, hback⟩
  · constructor
    · intro i
      have hi := h.slots i
      cases hs : t i with
      | live k v =>
        rw [hs] at hi
        exact ⟨hi.1, hi.2.1, hi.2.2.2.1, rfl, hi.2.2.2.2⟩
      | _ =>
        rw [hs] at hi
        exact hi
    · have hreach := h.reach
      rw [hback] at hreach
      exact (reachable_map Prod.snd).mp hreach
    · exact h.logEnd
    · exact h.size
  · intro i k p hp
    obtain ⟨v, hv, -⟩ := Slot.map_eq_live.mp hp
    have hi := h.slots i
    rw [hv] at hi
    exact hi.2.2.1

theorem Table.rep (h : Table hashes ds u) (hlen : KeyLength len u) :
    Rep hashes len ds fun i => (u i).map Prod.snd := by
  constructor
  · intro i
    have hi := h.slots i
    cases hs : u i with
    | live k p =>
      rw [hs] at hi
      obtain ⟨hvalid, hdeleted, hverify, hoffset, hrecord⟩ := hi
      refine ⟨hvalid, hdeleted, hlen i k p hs, hverify, ?_⟩
      rw [hoffset]
      exact hrecord
    | _ =>
      rw [hs] at hi
      exact hi
  · exact (reachable_map Prod.snd).mpr h.reach
  · exact h.logEnd
  · exact h.size

theorem map_update (i : Nat) (s : Slot Bytes (Nat × Bytes)) :
    (fun j => (Function.update u i s j).map Prod.snd) =
      Function.update (fun j => (u j).map Prod.snd) i (s.map Prod.snd) := by
  funext j
  by_cases hj : j = i
  · subst j
    simp
  · simp [Function.update_of_ne hj]

theorem KeyLength.update (h : KeyLength len u) (hk : k.length = len) (p : Nat × Bytes) :
    KeyLength len (Function.update u i (.live k p)) := by
  intro j k' p' hj
  by_cases hji : j = i
  · subst j
    rw [Function.update_self] at hj
    cases hj
    exact hk
  · rw [Function.update_of_ne hji] at hj
    exact h j k' p' hj

theorem KeyLength.erased {u' : Nat → Slot Bytes (Nat × Bytes)} (h : KeyLength len u)
    (herased : Erased k u u') : KeyLength len u' := by
  intro j k' p' hj
  rcases herased j with he | ⟨he, -⟩
  · exact h j k' p' (he ▸ hj)
  · rw [he] at hj
    cases hj

end Offsets

/-- `Get` returns the value of the first entry of the key on its path. -/
theorem Rep.get_eq (hrep : Rep hashes len ds t) (hlen : key.length = len) :
    ds.get hashes key [] = found (lookup (ds.path hashes) t key) := by
  obtain ⟨u, htable, hkeys, rfl⟩ := hrep.exists_table
  rw [lookup_map]
  exact htable.get_eq fun i k p hp => (hkeys i k p hp).trans hlen.symm

theorem rep_create (headerSize : Nat) {size : UInt64} {n : Nat} (hn : 3 ≤ n)
    (hsize : size.toNat = 2 ^ n) : Rep hashes len (create headerSize size) fun _ => .empty :=
  (table_create headerSize hn hsize).rep fun i k p hp => by cases hp

/-- A successful insert rewrites the slot that open addressing chooses. -/
theorem Rep.insert_true (hrep : Rep hashes len ds t) (hlen : k.length = len)
    (hok : (ds.insert hashes k v).1 = true)
    (hbound : (ds.insert hashes k v).2.header.dataInsertionPoint < 2 ^ 32) :
    ∃ i, findInsert t k (ds.path hashes k) = some i ∧
      (ds.insert hashes k v).2.header.hashtableSize = ds.header.hashtableSize ∧
      Rep hashes len (ds.insert hashes k v).2 (Function.update t i (.live k v)) := by
  obtain ⟨u, htable, hkeys, rfl⟩ := hrep.exists_table
  obtain ⟨i, newObj, hi, -, heq, htable'⟩ := htable.insert_true hok hbound
  refine ⟨i, (findInsert_map ..).trans hi, by rw [heq]; rfl, ?_⟩
  have hrep' := htable'.rep (hkeys.update hlen _)
  rw [map_update] at hrep'
  exact hrep'

/-- `Delete` finds the key exactly when it has a value, and then removes it. -/
theorem Rep.delete (hrep : Rep hashes len ds t) (k : Bytes) :
    ((ds.delete hashes k).1 = true ↔ (lookup (ds.path hashes) t k).isSome) ∧
    ((ds.delete hashes k).1 = false → (ds.delete hashes k).2 = ds) ∧
    ((ds.delete hashes k).1 = true → ∃ t', Rep hashes len (ds.delete hashes k).2 t' ∧
      (ds.delete hashes k).2.header.hashtableSize = ds.header.hashtableSize ∧
      ∀ k', lookup (ds.path hashes) t' k' =
        if k' = k then none else lookup (ds.path hashes) t k') := by
  obtain ⟨u, htable, hkeys, rfl⟩ := hrep.exists_table
  obtain ⟨hiff, hfalse, htrue⟩ := htable.deleteWith true k
  rw [deleteWith_true] at hiff hfalse htrue
  refine ⟨?_, hfalse, fun hok => ?_⟩
  · rw [lookup_map, Option.isSome_map]
    exact hiff
  · obtain ⟨u', htable', herased, hheader, -, -, hlookup⟩ := htrue hok
    refine ⟨_, htable'.rep (hkeys.erased herased), by rw [hheader]; rfl, fun k' => ?_⟩
    rw [lookup_map, lookup_map, hlookup]
    split <;> rfl

end FawnDS

end FawnKV.Fawn
