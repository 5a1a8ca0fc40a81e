import Mathlib.Logic.Function.Basic
import Mathlib.Data.List.Basic

/-! Open addressing with tombstones along an arbitrary probe path. -/
namespace OpenAddressing

/-- What a slot of the table holds for the reader of a probe path. -/
inductive Slot (K V : Type) where
  | empty
  | tombstone
  | live (k : K) (v : V)
  deriving DecidableEq

namespace Slot

variable {K V : Type}

def value? : Slot K V → Option V
  | .live _ v => some v
  | _ => none

@[simp] theorem value?_live (k : K) (v : V) : (live k v).value? = some v := rfl

/-- No entry is lost when this slot is taken. -/
def isFree : Slot K V → Bool
  | .live _ _ => false
  | _ => true

@[simp] theorem isFree_empty : (empty : Slot K V).isFree = true := rfl
@[simp] theorem isFree_tombstone : (tombstone : Slot K V).isFree = true := rfl
@[simp] theorem isFree_live (k : K) (v : V) : (live k v).isFree = false := rfl

/-- The same slot with another view of its value. -/
def map {W : Type} (f : V → W) : Slot K V → Slot K W
  | .empty => .empty
  | .tombstone => .tombstone
  | .live k v => .live k (f v)

theorem value?_map {W : Type} (f : V → W) (s : Slot K V) : (s.map f).value? = s.value?.map f := by
  cases s <;> rfl

theorem map_eq_live {W : Type} {f : V → W} {s : Slot K V} {k : K} {w : W} :
    s.map f = .live k w ↔ ∃ v, s = .live k v ∧ f v = w := by
  cases s with
  | live k' v =>
    constructor
    · intro h
      cases h
      exact ⟨v, rfl, rfl⟩
    · rintro ⟨v', h, rfl⟩
      cases h
      rfl
  | _ => simp [map]

theorem map_eq_empty {W : Type} {f : V → W} {s : Slot K V} : s.map f = .empty ↔ s = .empty := by
  cases s <;> simp [map]

variable [DecidableEq K]

def holds (k : K) : Slot K V → Bool
  | .live k' _ => k' = k
  | _ => false

theorem holds_map {W : Type} (f : V → W) (s : Slot K V) (k : K) : (s.map f).holds k = s.holds k := by
  cases s <;> rfl

@[simp] theorem holds_empty (k : K) : (empty : Slot K V).holds k = false := rfl
@[simp] theorem holds_tombstone (k : K) : (tombstone : Slot K V).holds k = false := rfl
@[simp] theorem holds_live (k k' : K) (v : V) : (live k' v).holds k = decide (k' = k) := rfl

theorem holds_iff {k : K} {s : Slot K V} : s.holds k = true ↔ ∃ v, s = live k v := by
  cases s <;> simp

end Slot

section Search

variable {ι K V : Type} [DecidableEq K]

/-- The slot of `k` met first on a probe path; an empty slot ends the search. -/
def find (t : ι → Slot K V) (k : K) : List ι → Option ι
  | [] => none
  | i :: is =>
    match t i with
    | .empty => none
    | .tombstone => find t k is
    | .live k' _ => if k' = k then some i else find t k is

/-- The slot an insertion of `k` takes: the first that is free or already holds `k`. -/
def findInsert (t : ι → Slot K V) (k : K) : List ι → Option ι
  | [] => none
  | i :: is =>
    match t i with
    | .live k' _ => if k' = k then some i else findInsert t k is
    | _ => some i

/-- The value of the first entry of `k` on its path. -/
def lookup (path : K → List ι) (t : ι → Slot K V) (k : K) : Option V :=
  ((path k).find? fun i => (t i).holds k).bind fun i => (t i).value?

/-- Every live entry lies on the path of its key with no empty slot before it. -/
def Reachable (path : K → List ι) (t : ι → Slot K V) : Prop :=
  ∀ i k v, t i = .live k v → ∃ pre post, path k = pre ++ i :: post ∧ ∀ j ∈ pre, t j ≠ .empty

variable {path : K → List ι} {t : ι → Slot K V} {k : K} {i : ι} {is : List ι}

theorem find_holds (h : find t k is = some i) : ∃ v, t i = .live k v := by
  induction is with
  | nil => simp [find] at h
  | cons j is ih =>
    unfold find at h
    split at h
    · simp at h
    · exact ih h
    · split at h
      · simp_all
      · exact ih h

theorem find_mem (h : find t k is = some i) : i ∈ is := by
  induction is with
  | nil => simp [find] at h
  | cons j is ih =>
    unfold find at h
    split at h
    · simp at h
    · exact List.mem_cons_of_mem _ (ih h)
    · split at h
      · simp_all
      · exact List.mem_cons_of_mem _ (ih h)

/-- Stopping at an empty slot loses nothing when no entry of `k` lies only behind one. -/
theorem find_eq_find? (h : ∀ i, (t i).holds k = true → i ∈ is →
      ∃ pre post, is = pre ++ i :: post ∧ ∀ j ∈ pre, t j ≠ .empty) :
    find t k is = is.find? fun i => (t i).holds k := by
  induction is with
  | nil => rfl
  | cons j is ih =>
    by_cases hj : (t j).holds k = true
    · obtain ⟨v, hv⟩ := Slot.holds_iff.mp hj
      simp [find, hv]
    · -- `j` is not the entry, so every witness of `h` starts with `j`
      have hpre : ∀ i, (t i).holds k = true → i ∈ is →
          t j ≠ .empty ∧ ∃ pre post, is = pre ++ i :: post ∧ ∀ l ∈ pre, t l ≠ .empty := by
        intro i hi hm
        obtain ⟨pre, post, he, hp⟩ := h i hi (List.mem_cons_of_mem _ hm)
        cases pre with
        | nil =>
          simp only [List.nil_append, List.cons.injEq] at he
          rw [he.1] at hj
          exact (hj hi).elim
        | cons a pre =>
          simp only [List.cons_append, List.cons.injEq] at he
          obtain ⟨rfl, rfl⟩ := he
          exact ⟨hp j (by simp), pre, post, rfl, fun l hl => hp l (List.mem_cons_of_mem _ hl)⟩
      have htail := ih (fun i hi hm => (hpre i hi hm).2)
      cases hs : t j with
      | empty =>
        have hnone : is.find? (fun i => (t i).holds k) = none := by
          rw [List.find?_eq_none]
          intro i hm hi
          exact (hpre i hi hm).1 hs
        simp [find, hs, hnone]
      | tombstone => simp [find, hs, htail]
      | live k' v =>
        have hk : k' ≠ k := by simpa [hs] using hj
        simp [find, hs, hk, htail]

theorem Reachable.find_eq (hr : Reachable path t) (k : K) :
    find t k (path k) = (path k).find? fun i => (t i).holds k := by
  apply find_eq_find?
  intro i hi _
  obtain ⟨v, hv⟩ := Slot.holds_iff.mp hi
  exact hr i k v hv

theorem Reachable.lookup_eq (hr : Reachable path t) (k : K) :
    lookup path t k = (find t k (path k)).bind fun i => (t i).value? := by
  rw [lookup, hr.find_eq]

theorem lookup_of_find_none (hr : Reachable path t) (h : find t k (path k) = none) :
    lookup path t k = none := by
  simp [hr.lookup_eq, h]

theorem lookup_isSome (hr : Reachable path t) :
    (lookup path t k).isSome ↔ (find t k (path k)).isSome := by
  rw [hr.lookup_eq]
  cases h : find t k (path k) with
  | none => simp
  | some i =>
    obtain ⟨v, hv⟩ := find_holds h
    simp [hv]

/-- The slot an insertion takes is preceded by entries of other keys only. -/
theorem findInsert_split (h : findInsert t k is = some i) :
    ∃ pre post, is = pre ++ i :: post ∧ (∀ j ∈ pre, ∃ k' v, t j = .live k' v ∧ k' ≠ k) ∧
      ∀ k' v, t i = .live k' v → k' = k := by
  induction is with
  | nil => simp [findInsert] at h
  | cons j is ih =>
    have hfree : t j = .empty ∨ t j = .tombstone → i = j := by
      intro hj
      rcases hj with hj | hj <;> simpa [findInsert, hj, eq_comm] using h
    cases hs : t j with
    | empty => exact ⟨[], is, by simp [hfree (.inl hs)], by simp, by simp [hfree (.inl hs), hs]⟩
    | tombstone => exact ⟨[], is, by simp [hfree (.inr hs)], by simp, by simp [hfree (.inr hs), hs]⟩
    | live k' v =>
      by_cases hk : k' = k
      · have hij : i = j := by simpa [findInsert, hs, hk, eq_comm] using h
        exact ⟨[], is, by simp [hij], by simp, by simp [hij, hs, hk]⟩
      · obtain ⟨pre, post, rfl, hpre, hi⟩ := ih (by simpa [findInsert, hs, hk] using h)
        refine ⟨j :: pre, post, rfl, ?_, hi⟩
        intro l hl
        rcases List.mem_cons.mp hl with rfl | hl
        · exact ⟨k', v, hs, hk⟩
        · exact hpre l hl

theorem findInsert_eq_none_iff :
    findInsert t k is = none ↔ ∀ i ∈ is, ∃ k' v, t i = .live k' v ∧ k' ≠ k := by
  induction is with
  | nil => simp [findInsert]
  | cons i is ih =>
    rw [List.forall_mem_cons, ← ih, findInsert]
    cases hs : t i with
    | live k' v =>
      by_cases hk : k' = k <;> simp [hk]
    | _ => simp

/-! Another view of the values changes neither searches nor paths. -/

theorem lookup_map {W : Type} (f : V → W) (k : K) :
    lookup path (fun i => (t i).map f) k = (lookup path t k).map f := by
  unfold lookup
  simp only [Slot.holds_map, Slot.value?_map, Option.map_bind]
  rfl

theorem findInsert_map {W : Type} (f : V → W) (k : K) (is : List ι) :
    findInsert (fun i => (t i).map f) k is = findInsert t k is := by
  induction is with
  | nil => rfl
  | cons i is ih =>
    unfold findInsert
    simp only [ih]
    cases t i with
    | live k' v => rfl
    | _ => rfl

omit [DecidableEq K] in
theorem reachable_map {W : Type} (f : V → W) :
    Reachable path (fun i => (t i).map f) ↔ Reachable path t := by
  constructor
  · intro h i k v hi
    obtain ⟨pre, post, hpath, hpre⟩ := h i k (f v) (Slot.map_eq_live.mpr ⟨v, hi, rfl⟩)
    exact ⟨pre, post, hpath, fun j hj he => hpre j hj (Slot.map_eq_empty.mpr he)⟩
  · intro h i k w hi
    obtain ⟨v, hv, -⟩ := Slot.map_eq_live.mp hi
    obtain ⟨pre, post, hpath, hpre⟩ := h i k v hv
    exact ⟨pre, post, hpath, fun j hj he => hpre j hj (Slot.map_eq_empty.mp he)⟩

/-- The key of a live slot has a value. -/
theorem lookup_isSome_of_live {v : V} (hr : Reachable path t) (h : t i = .live k v) :
    (lookup path t k).isSome := by
  obtain ⟨pre, post, hpath, -⟩ := hr i k v h
  have hfind : ((path k).find? fun j => (t j).holds k).isSome := by
    rw [List.find?_isSome]
    exact ⟨i, by simp [hpath], by simp [h]⟩
  obtain ⟨j, hj⟩ := Option.isSome_iff_exists.mp hfind
  have hholds := List.find?_some hj
  obtain ⟨w, hw⟩ := Slot.holds_iff.mp hholds
  simp [lookup, hj, hw]

end Search

section Update

variable {ι K V : Type} [DecidableEq ι] [DecidableEq K]
  {path : K → List ι} {t : ι → Slot K V} {k k' : K} {v : V} {i : ι}

theorem holds_update_of_not_holds {s : Slot K V} (ht : (t i).holds k' = false)
    (hs : s.holds k' = false) (j : ι) :
    (Function.update t i s j).holds k' = (t j).holds k' := by
  by_cases hj : j = i
  · subst j
    simp [ht, hs]
  · simp [hj]

/-- An update that neither removes nor adds an entry of `k'` leaves its value alone. -/
theorem lookup_update_of_not_holds {s : Slot K V} (ht : (t i).holds k' = false)
    (hs : s.holds k' = false) : lookup path (Function.update t i s) k' = lookup path t k' := by
  have hf : ((path k').find? fun j => (Function.update t i s j).holds k') =
      (path k').find? fun j => (t j).holds k' := by
    simp only [holds_update_of_not_holds ht hs]
  unfold lookup
  rw [hf]
  cases hi : (path k').find? fun j => (t j).holds k' with
  | none => rfl
  | some j =>
    have hj := List.find?_some hi
    have hne : j ≠ i := by rintro rfl; simp [ht] at hj
    simp [hne]

omit [DecidableEq K] in
theorem reachable_update {s : Slot K V} (hr : Reachable path t) (hs : s ≠ .empty)
    (hlive : ∀ k v, s = .live k v → ∃ pre post, path k = pre ++ i :: post ∧ ∀ j ∈ pre, t j ≠ .empty) :
    Reachable path (Function.update t i s) := by
  have hkeep : ∀ j, t j ≠ .empty → Function.update t i s j ≠ .empty := by
    intro j hj
    by_cases hji : j = i
    · subst j
      simpa using hs
    · simpa [hji] using hj
  intro j k v hj
  by_cases hji : j = i
  · subst j
    obtain ⟨pre, post, he, hp⟩ := hlive k v (by simpa using hj)
    exact ⟨pre, post, he, fun l hl => hkeep l (hp l hl)⟩
  · obtain ⟨pre, post, he, hp⟩ := hr j k v (by simpa [hji] using hj)
    exact ⟨pre, post, he, fun l hl => hkeep l (hp l hl)⟩

/-- Inserting at the slot found keeps reachability: everything before it was live. -/
theorem reachable_insert (hr : Reachable path t) (h : findInsert t k (path k) = some i) :
    Reachable path (Function.update t i (.live k v)) := by
  apply reachable_update hr (by simp)
  intro k' v' he
  obtain ⟨rfl, rfl⟩ : k = k' ∧ v = v' := by simpa using he
  obtain ⟨pre, post, hpath, hpre, _⟩ := findInsert_split h
  refine ⟨pre, post, hpath, fun j hj => ?_⟩
  obtain ⟨_, _, hlive, _⟩ := hpre j hj
  simp [hlive]

/-- The inserted entry is the first of its key, whatever older copies lie behind it. -/
theorem lookup_insert_self (h : findInsert t k (path k) = some i) :
    lookup path (Function.update t i (.live k v)) k = some v := by
  obtain ⟨pre, post, hpath, hpre, _⟩ := findInsert_split h
  have hne : ∀ j ∈ pre, (Function.update t i (.live k v) j).holds k = false ∨ j = i := by
    intro j hj
    by_cases hji : j = i
    · exact .inr hji
    · obtain ⟨k', v', hlive, hk⟩ := hpre j hj
      exact .inl (by simp [hji, hlive, hk])
  have hfind : ((path k).find? fun j => (Function.update t i (.live k v) j).holds k) = some i := by
    rw [hpath]
    clear hpath hpre
    induction pre with
    | nil => simp
    | cons j pre ih =>
      rcases hne j (by simp) with hj | rfl
      · simpa [List.find?_cons, hj] using ih (fun l hl => hne l (List.mem_cons_of_mem _ hl))
      · simp
  simp [lookup, hfind]

theorem lookup_insert_ne (h : findInsert t k (path k) = some i) (hk : k' ≠ k) :
    lookup path (Function.update t i (.live k v)) k' = lookup path t k' := by
  obtain ⟨pre, post, _, _, hi⟩ := findInsert_split h
  apply lookup_update_of_not_holds
  · cases hs : t i with
    | live k'' v'' => simpa [hi k'' v'' hs] using hk.symm
    | _ => rfl
  · simpa using hk.symm

omit [DecidableEq K] in
theorem reachable_tombstone (hr : Reachable path t) :
    Reachable path (Function.update t i .tombstone) :=
  reachable_update hr (by simp) (by simp)

theorem lookup_tombstone_ne (h : find t k (path k) = some i) (hk : k' ≠ k) :
    lookup path (Function.update t i .tombstone) k' = lookup path t k' := by
  obtain ⟨v, hv⟩ := find_holds h
  exact lookup_update_of_not_holds (by simpa [hv] using hk.symm) rfl

/-- Copies of `k` left on a path: the measure that ends an exhaustive deletion. -/
def copies (t : ι → Slot K V) (k : K) (is : List ι) : Nat := is.countP fun i => (t i).holds k

theorem copies_tombstone_lt {is : List ι} (h : find t k is = some i) :
    copies (Function.update t i .tombstone) k is < copies t k is := by
  have hmem := find_mem h
  obtain ⟨v, hv⟩ := find_holds h
  have hle : ∀ l : List ι, copies (Function.update t i .tombstone) k l ≤ copies t k l := by
    intro l
    apply List.countP_mono_left
    intro j _ hj
    by_cases hji : j = i
    · subst j
      simp at hj
    · simpa [hji] using hj
  obtain ⟨pre, post, rfl⟩ := List.append_of_mem hmem
  have h1 := hle pre
  have h2 := hle post
  simp only [copies, List.countP_append, List.countP_cons, hv, Slot.holds_live] at h1 h2 ⊢
  simp
  omega

theorem find_eq_none_of_copies_eq_zero {is : List ι} (h : copies t k is = 0) :
    find t k is = none := by
  cases hf : find t k is with
  | none => rfl
  | some i =>
    have := copies_tombstone_lt hf
    omega

end Update

section Packed

variable {ι K V : Type} [DecidableEq ι] [DecidableEq K]
  {path : K → List ι} {t : ι → Slot K V} {k : K} {v : V} {i : ι} {taken is : List ι}

/-- The first slot of a path that is not taken. -/
def place (taken is : List ι) : Option ι := is.find? fun i => decide (i ∉ taken)

/-- The keys find places one after the other. -/
def Fits (path : K → List ι) : List ι → List K → Prop
  | _, [] => True
  | taken, k :: ks =>
    match place taken (path k) with
    | none => False
    | some i => Fits path (i :: taken) ks

/-- The slots `taken` are live, and all others are empty. -/
structure Packed (t : ι → Slot K V) (taken : List ι) : Prop where
  noTombstone : ∀ i, t i ≠ .tombstone
  empty_iff : ∀ i, t i = .empty ↔ i ∉ taken
  nodup : taken.Nodup

omit [DecidableEq ι] [DecidableEq K] in
theorem packed_nil : Packed (fun _ => .empty : ι → Slot K V) [] :=
  ⟨by simp, by simp, List.nodup_nil⟩

theorem place_cons (j : ι) : place taken (j :: is) = if j ∈ taken then place taken is else some j := by
  by_cases hj : j ∈ taken <;> simp [place, hj]

theorem place_notMem (h : place taken is = some i) : i ∉ taken ∧ i ∈ is :=
  ⟨by simpa using List.find?_some h, List.mem_of_find?_eq_some h⟩

/-- A new key takes the first free slot. -/
theorem Packed.findInsert_eq (h : Packed t taken) (hk : ∀ i v, t i ≠ .live k v) (is : List ι) :
    findInsert t k is = place taken is := by
  induction is with
  | nil => rfl
  | cons j is ih =>
    have hempty := h.empty_iff j
    unfold findInsert
    rw [place_cons]
    cases hs : t j with
    | empty =>
      have hj : j ∉ taken := hempty.mp hs
      simp [hj]
    | tombstone => exact absurd hs (h.noTombstone j)
    | live k' v =>
      have hj : j ∈ taken := by
        by_contra hnot
        rw [hempty.mpr hnot] at hs
        cases hs
      have hk' : k' ≠ k := by
        rintro rfl
        exact hk j v hs
      simpa [hj, hk'] using ih

omit [DecidableEq K] in
theorem Packed.insert (h : Packed t taken) (hi : i ∉ taken) :
    Packed (Function.update t i (.live k v)) (i :: taken) := by
  refine ⟨fun j => ?_, fun j => ?_, List.nodup_cons.mpr ⟨hi, h.nodup⟩⟩
  · by_cases hj : j = i
    · simp [hj]
    · simpa [hj] using h.noTombstone j
  · by_cases hj : j = i
    · simp [hj]
    · simpa [hj] using h.empty_iff j

end Packed

end OpenAddressing
