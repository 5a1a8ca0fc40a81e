import FawnKV.Lib.QuadraticProbing
import FawnKV.Silt.RecordIds

/-! The iterator of `HashTableDefault`, with which the table is searched and enumerated. -/
namespace FawnKV.Silt

open QuadraticProbing

namespace HashTableDefault

/-- `IteratorElem`; `rest` are the places of the probes that it has still to make. -/
structure IteratorElem where
  key : Value
  vkey : UInt16
  rest : List Nat
  currentIndex : Nat
  skipUnused : Bool
  atEnd : Bool
deriving DecidableEq

namespace IteratorElem

/-- The loop of `Next`, with the place that it puts into the cache. `none` where a place does not fit the
`int32_t` that `valid` takes, and memory before the table is read. -/
def probe (t : HashTableDefault) (e : IteratorElem) : List Nat → Nat → Option (IteratorElem × Option Nat)
  | [], current => some ({ e with rest := [], currentIndex := current, atEnd := true }, none)
  | index :: rest, _ =>
    if index < 2 ^ 31 then
      if t.valid index then
        if e.key = [] ∨ t.verifykey index = e.vkey then
          some ({ e with rest, currentIndex := index, atEnd := false }, none)
        else probe t e rest index
      else if e.skipUnused then probe t e rest index
      else some ({ e with rest, currentIndex := index, atEnd := true }, some index)
    else none

def next (t : HashTableDefault) (e : IteratorElem) : Option (IteratorElem × Option Nat) :=
  e.probe t e.rest e.currentIndex

/-- The places that `++` comes to until the end; `none` also where the fuel is used up. -/
def yields (t : HashTableDefault) : Nat → IteratorElem → Option (List Nat)
  | 0, _ => none
  | fuel + 1, e =>
    if e.atEnd then some []
    else do
      let r ← e.next t
      let places ← yields t fuel r.1
      some (e.currentIndex :: places)

end IteratorElem

/-- The iterator of `Find` before its first `Next`. -/
def beforeFind (hashes : Hashes) (t : HashTableDefault) (key : Value) : IteratorElem :=
  { key, vkey := keyfragmentFromKey key, rest := probePath hashes t key, currentIndex := 0, skipUnused := false,
    atEnd := false }

/-- The iterator of `Enumerate` before its first `Next`: the probes start from the first place. -/
def beforeEnumerate (t : HashTableDefault) : IteratorElem :=
  { key := [], vkey := 0, rest := (List.range t.size).map fun count => t.probeIndex 0 (count + 1),
    currentIndex := 0, skipUnused := true, atEnd := false }

def enumerate (t : HashTableDefault) : Option IteratorElem := ((beforeEnumerate t).next t).map (·.1)

/-- `Enumerate` comes to every valid place once, and then to its end. -/
def EnumeratesAll (t : HashTableDefault) : Prop :=
  ∃ places, ((enumerate t).bind fun e => e.yields t (t.size + 1)) = some places ∧
    places.Perm ((List.range t.size).filter t.valid)

section Enumerate

variable {t : HashTableDefault} {e : IteratorElem}

/-- An iterator without a key that skips unused places comes to all valid ones that it probes. -/
theorem probe_yields (hkey : e.key = []) (hskip : e.skipUnused = true) (path : List Nat)
    (current : Nat) {fuel : Nat}
    (hfuel : path.length < fuel) :
    ((e.probe t path current).map (·.1)).bind (·.yields t fuel) =
      if path.all (fun i => decide (i < 2 ^ 31)) then some (path.filter t.valid) else none := by
  induction path generalizing e current fuel with
  | nil =>
    obtain ⟨fuel, rfl⟩ : ∃ f, fuel = f + 1 := ⟨fuel - 1, by omega⟩
    simp [IteratorElem.probe, IteratorElem.yields]
  | cons index rest ih =>
    rw [List.length_cons] at hfuel
    rw [IteratorElem.probe, List.all_cons]
    by_cases hindex : index < 2 ^ 31
    · rw [if_pos hindex, decide_eq_true hindex, Bool.true_and]
      by_cases hvalid : t.valid index = true
      · -- the iterator stops here, and the next `++` goes on from here
        obtain ⟨fuel, rfl⟩ : ∃ f, fuel = f + 1 := ⟨fuel - 1, by omega⟩
        have hrest := ih (e := { e with rest, currentIndex := index, atEnd := false }) hkey hskip index
          (Nat.lt_of_succ_lt_succ hfuel)
        rw [if_pos hvalid, if_pos (.inl hkey), Option.map_some, Option.bind_some, IteratorElem.yields,
          if_neg (by simp), IteratorElem.next, List.filter_cons_of_pos hvalid]
        cases hprobe : IteratorElem.probe t
          { e with rest, currentIndex := index, atEnd := false } rest index with
        | none =>
          rw [hprobe] at hrest
          split at hrest
          · cases hrest
          · rw [if_neg (by assumption)]
            rfl
        | some r =>
          rw [hprobe, Option.map_some, Option.bind_some] at hrest
          simp only [Option.bind_eq_bind, Option.bind_some, hrest]
          split <;> rfl
      · rw [if_neg hvalid, if_pos hskip, List.filter_cons_of_neg hvalid, ih hkey hskip index (by omega)]
    · rw [if_neg hindex, decide_eq_false hindex]
      rfl

/-- The places of all probes of `Enumerate`. -/
theorem enumerate_yields (t : HashTableDefault) :
    ((enumerate t).bind fun e => e.yields t (t.size + 1)) =
      if (beforeEnumerate t).rest.all (fun i => decide (i < 2 ^ 31)) then some
        ((beforeEnumerate t).rest.filter t.valid)
      else none :=
  probe_yields rfl rfl _ _ (by simp [beforeEnumerate])

/-- The place of a probe in a table of `2 ^ k` places. -/
theorem probeIndex_pow {k : Nat} (hsize : t.size = 2 ^ k) (count : Nat) :
    t.probeIndex 0 count = (if t.quadratic then triangle count else count) % 2 ^ k := by
  rw [probeIndex, hsize, UInt32.toNat_zero, Nat.zero_and, Nat.zero_add, Nat.and_two_pow_sub_one_eq_mod]
  rfl

/-- The first `2 ^ k` probes, counted from zero, come to all places. -/
theorem map_probeIndex_perm {k : Nat} (hsize : t.size = 2 ^ k) :
    ((List.range (2 ^ k)).map (t.probeIndex 0)).Perm (List.range (2 ^ k)) := by
  refine map_range_perm (fun i _ => ?_) (fun i hi j hj heq => ?_)
  · rw [probeIndex_pow hsize]
    exact Nat.mod_lt _ (Nat.two_pow_pos k)
  · rw [probeIndex_pow hsize, probeIndex_pow hsize] at heq
    split at heq
    · exact triangle_injective hi hj heq
    · rw [Nat.mod_eq_of_lt hi, Nat.mod_eq_of_lt hj] at heq
      exact heq

/-- Where the probes begin, and where the last one is. -/
theorem probeIndex_ends {k : Nat} (hsize : t.size = 2 ^ k) :
    t.probeIndex 0 0 = 0 ∧ t.probeIndex 0 (2 ^ k) = if t.quadratic ∧ k ≠ 0 then 2 ^ (k - 1) else 0 := by
  rw [probeIndex_pow hsize, probeIndex_pow hsize]
  constructor
  · split
    · exact Nat.zero_mod _
    · exact Nat.zero_mod _
  · cases k with
    | zero => simp [Nat.mod_one]
    | succ k =>
      cases t.quadratic with
      | true => simp [triangle_pow]
      | false => simp

/-- All places fit an `int32_t` in tables of up to `2 ^ 31` places. -/
theorem rest_lt_iff {k : Nat} (hsize : t.size = 2 ^ k) :
    (beforeEnumerate t).rest.all (fun i => decide (i < 2 ^ 31)) = true ↔ k ≤ 31 := by
  have hwindow := window_perm (map_probeIndex_perm hsize)
  have hrest : (beforeEnumerate t).rest = (List.range (2 ^ k)).map fun count => t.probeIndex 0 (count + 1) := by
    rw [beforeEnumerate, hsize]
  simp only [List.all_eq_true, decide_eq_true_eq]
  constructor
  · intro hall
    by_contra hlarge
    have hmem : 2 ^ 31 ∈ List.range (2 ^ k) := List.mem_range.mpr (Nat.pow_lt_pow_right (by decide) (by omega))
    have hprobed := hwindow.mem_iff.mpr (List.mem_cons_of_mem _ hmem)
    rw [(probeIndex_ends hsize).1] at hprobed
    rcases List.mem_cons.mp hprobed with hzero | hprobed
    · exact absurd hzero (by decide)
    · exact absurd (hall _ (hrest ▸ hprobed)) (Nat.lt_irrefl _)
  · intro hk i hi
    rw [hrest] at hi
    obtain ⟨count, -, rfl⟩ := List.mem_map.mp hi
    rw [probeIndex_pow hsize]
    exact Nat.lt_of_lt_of_le (Nat.mod_lt _ (Nat.two_pow_pos k)) (Nat.pow_le_pow_right (by decide) hk)

/-- Whether `Enumerate` comes to all valid places: in a table that is not too large for its iterator, with
linear probing it does, and with quadratic probing where the first place and the one in the middle are not
valid. -/
theorem enumeratesAll_iff (t : HashTableDefault) (k : Nat) (hsize : t.size = 2 ^ k) :
    EnumeratesAll t ↔ k ≤ 31 ∧
      (t.quadratic = false ∨ k = 0 ∨ t.valid 0 = false ∧ t.valid (2 ^ (k - 1)) = false) := by
  have hplaces : EnumeratesAll t ↔ (beforeEnumerate t).rest.all (fun i => decide (i < 2 ^ 31)) = true ∧
      ((beforeEnumerate t).rest.filter t.valid).Perm ((List.range t.size).filter t.valid) := by
    unfold EnumeratesAll
    rw [enumerate_yields]
    split
    · simp_all
    · simp_all
  have hwindow := window_filter_perm_iff (p := t.valid) (map_probeIndex_perm hsize)
  obtain ⟨hfirst, hlast⟩ := probeIndex_ends hsize
  rw [hfirst, hlast] at hwindow
  rw [hplaces, rest_lt_iff hsize, beforeEnumerate, hsize, hwindow]
  refine and_congr_right fun _ => ?_
  cases t.quadratic with
  | false => simp
  | true =>
    by_cases hk : k = 0
    · simp [hk]
    · simp [hk]

/-- A linear table of four places with one entry. -/
theorem enumeratesAll_iff_linear :
    EnumeratesAll { quadratic := false, entries := [{}, {}, ⟨0x8001, 7⟩, {}], currentEntries := 1 } :=
  (enumeratesAll_iff { quadratic := false, entries := [{}, {}, ⟨0x8001, 7⟩, {}],
                       currentEntries := 1 } 2 rfl).mpr
    ⟨by decide, .inl rfl⟩

/-- A quadratic table with entries in the first place and in the one in the middle. -/
def halves : HashTableDefault :=
  { quadratic := true, entries := [⟨0x8001, 7⟩, {}, ⟨0x8002, 9⟩, {}], currentEntries := 2 }

/-- The first entry is missed, and the other one comes twice. -/
theorem enumerate_halves :
    ((enumerate halves).bind fun e => e.yields halves 5) = some [2, 2] ∧ ¬EnumeratesAll halves := by
  have hplaces : ((enumerate halves).bind fun e => e.yields halves 5) = some [2, 2] := by decide +kernel
  refine ⟨hplaces, ?_⟩
  rintro ⟨places, hyields, hperm⟩
  have hsame : some places = some [2, 2] := hyields.symm.trans hplaces
  cases hsame
  have hmem := hperm.mem_iff (a := 0)
  exact absurd (hmem.mpr (by decide)) (by decide)

end Enumerate

end HashTableDefault

end FawnKV.Silt
