import FawnKV.Fawn.Log

/-! `Get` and `FindHashIndex` on keys of different lengths: `Read` compares as many bytes of memory as
the key it is given has, whatever the length of the stored key. -/
namespace FawnKV.Fawn

open ByteFile OpenAddressing

/-- The bytes in memory from the start of a string: behind its end a NUL, and then whatever lies there. -/
def memory (stray : Nat → UInt8) (str : Bytes) (count : Nat) : Bytes :=
  (str ++ 0 :: (List.range count).map stray).take count

/-- `FawnDS_Flash::Read` into an empty string; `stray` is what lies in memory behind the stored key. -/
def readMemory (stray : Nat → UInt8) (f : Bytes) (key : Bytes) (offset : Nat) : Option Bytes :=
  match FawnDSFlash.readIntoHeader f offset with
  | none => none
  | some (dataHeader, inputkey) =>
    if memory stray inputkey key.length ≠ key then none
    else if dataHeader.dataLength = 0 then some []
    else
      let mdata := pread f dataHeader.dataLength (offset + key.length + dataHeaderSize)
      if mdata.length ≠ dataHeader.dataLength then none else some mdata

namespace FawnDS

/-- `Get` along a list of slots: the slot it returns from, and the data. -/
def getMemoryIn (ds : FawnDS) (stray : Nat → Nat → UInt8) (key : Bytes) : List Nat → Option (Nat × Bytes)
  | [] => none
  | hashIndex :: rest =>
    if !ds.valid hashIndex then none
    else if ds.deleted hashIndex then getMemoryIn ds stray key rest
    else if ds.verifykey hashIndex == keyfragmentFromKey key then
      match readMemory (stray (ds.entry hashIndex).offset.toNat) ds.datastore key
        (ds.entry hashIndex).offset.toNat with
      | some data => some (hashIndex, data)
      | none => getMemoryIn ds stray key rest
    else getMemoryIn ds stray key rest

/-- `Get` on an empty string. The memory behind a stored key may differ from record to record. -/
def getMemory (ds : FawnDS) (hashes : Hashes) (stray : Nat → Nat → UInt8) (key : Bytes) :
    Option (Nat × Bytes) :=
  ds.getMemoryIn stray key (ds.path hashes key)

/-- `Get` succeeds when `FindHashIndex` does, from the same entry and with the value of its record. -/
structure Identified (hashes : Hashes) (stray : Nat → Nat → UInt8) (ds : FawnDS) (key : Bytes) : Prop where
  found_iff : (ds.getMemory hashes stray key).isSome ↔ (ds.findHashIndex hashes key).isSome
  entry : ∀ i data, ds.getMemory hashes stray key = some (i, data) →
    ds.findHashIndex hashes key = some i ∧ ds.contents hashes key = some data

/-- The slot holds an entry of the key. -/
def holdsKey (ds : FawnDS) (i : Nat) (key : Bytes) : Bool :=
  ds.existsAt i && ds.verifykey i == keyfragmentFromKey key && ds.recordHasKey i key

/-- The slot holds another key with the same fragment, which cannot be told from `key` by as many bytes
as `key` has, and a value is there to be read. -/
def Confusable (stray : Nat → Nat → UInt8) (ds : FawnDS) (key : Bytes) (i : Nat) : Prop :=
  ds.existsAt i = true ∧ ds.verifykey i = keyfragmentFromKey key ∧
    ∃ dataHeader ckey, FawnDSFlash.readIntoHeader ds.datastore (ds.entry i).offset.toNat = some
      (dataHeader, ckey) ∧
      ckey ≠ key ∧ memory (stray (ds.entry i).offset.toNat) ckey key.length = key ∧
      (dataHeader.dataLength = 0 ∨
        (ds.entry i).offset.toNat + key.length + dataHeaderSize + dataHeader.dataLength ≤ ds.datastore.length)

section Proofs

variable {hashes : Hashes} {stray : Nat → Nat → UInt8} {ds : FawnDS} {t : Nat → Slot Bytes (Nat × Bytes)}
  {key k v : Bytes} {i : Nat} {is : List Nat} {p : Nat × Bytes}

theorem memory_self (s : Nat → UInt8) (str : Bytes) : memory s str str.length = str := by
  simp [memory]

/-- A stored key that is at least as long is compared as in `FawnDSFlash.read`. -/
theorem memory_of_le (s : Nat → UInt8) {str : Bytes} {count : Nat} (h : count ≤ str.length) :
    memory s str count = str.take count := by
  simp [memory, List.take_append_of_le_length h]

theorem readMemory_self {s : Nat → UInt8} {f : Bytes} {offset : Nat} (h : HasRecord f offset ⟨k, v, false⟩) :
    readMemory s f k offset = some v := by
  unfold readMemory
  rw [h.readIntoHeader_insert]
  have hdata := h.pread_data
  by_cases hv : v = []
  · simp [memory_self, hv]
  · simp [memory_self, hv, hdata]

theorem readMemory_isSome {s : Nat → UInt8} {f : Bytes} {offset : Nat} (h : HasRecord f offset ⟨k, v, false⟩) :
    (readMemory s f key offset).isSome ↔ memory s k key.length = key ∧
      (v.length = 0 ∨ offset + key.length + dataHeaderSize + v.length ≤ f.length) := by
  unfold readMemory
  rw [h.readIntoHeader_insert]
  by_cases hkey : memory s k key.length = key
  · by_cases hv : v.length = 0
    · simp [hkey, hv]
    · have hlen : (pread f v.length (offset + key.length + dataHeaderSize)).length = v.length ↔
          offset + key.length + dataHeaderSize + v.length ≤ f.length := by
        simp only [pread, List.length_take, List.length_drop]
        omega
      simp only [hkey, hv, hlen, ne_eq, not_true, if_false, false_or, true_and]
      split <;> simp_all
  · simp [hkey]

theorem confusable_live (h : TableSlot ds i (.live k p)) :
    Confusable stray ds key i ↔ k ≠ key ∧ keyfragmentFromKey k = keyfragmentFromKey key ∧
      (readMemory (stray p.1) ds.datastore key p.1).isSome := by
  obtain ⟨hvalid, hdeleted, hverify, hoffset, hrecord⟩ := h
  unfold Confusable
  rw [readMemory_isSome hrecord, hoffset, hrecord.readIntoHeader_insert, hverify]
  simp only [existsAt, hvalid, hdeleted, Option.some.injEq, Prod.mk.injEq]
  constructor
  · rintro ⟨-, hfragment, _, _, ⟨rfl, rfl⟩, hne, hmemory, hdata⟩
    exact ⟨hne, hfragment, hmemory, hdata⟩
  · rintro ⟨hne, hfragment, hmemory, hdata⟩
    exact ⟨rfl, hfragment, _, _, ⟨rfl, rfl⟩, hne, hmemory, hdata⟩

/-- Among keys that are not shorter, `Get` does not see what lies behind a stored key. -/
theorem getIn_eq_getMemoryIn (hslots : ∀ i, TableSlot ds i (t i))
    (hlen : ∀ i k p, t i = .live k p → key.length ≤ k.length) (is : List Nat) :
    ds.getIn key [] is = found ((ds.getMemoryIn stray key is).map Prod.snd) := by
  induction is with
  | nil => rfl
  | cons i is ih =>
    have hi := hslots i
    cases hs : t i with
    | empty =>
      rw [hs] at hi
      have hvalid : ds.valid i = false := hi
      simp [getIn, getMemoryIn, hvalid, found]
    | tombstone =>
      rw [hs] at hi
      simp [getIn, getMemoryIn, hi.1, hi.2, ih]
    | live k p =>
      rw [hs] at hi
      obtain ⟨hvalid, hdeleted, -, hoffset, hrecord⟩ := hi
      have hread : FawnDSFlash.read ds.datastore key p.1 [] =
          found (readMemory (stray p.1) ds.datastore key p.1) := by
        unfold FawnDSFlash.read readMemory
        rw [hrecord.readIntoHeader_insert]
        simp only [memory_of_le _ (hlen i k p hs)]
        split_ifs <;> rfl
      cases hdata : readMemory (stray p.1) ds.datastore key p.1 with
      | none =>
        rw [hdata] at hread
        simp [getIn, getMemoryIn, hvalid, hdeleted, hoffset, hread, hdata, found_none, ih]
      | some data =>
        rw [hdata] at hread
        by_cases hfragment : ds.verifykey i = keyfragmentFromKey key
        · simp [getIn, getMemoryIn, hvalid, hdeleted, hoffset, hread, hdata, hfragment, found_some]
        · simp [getIn, getMemoryIn, hvalid, hdeleted, hfragment, ih]

/-- No slot before the entry of the key, or before an empty slot, is confusable with it. -/
def Distinct (stray : Nat → Nat → UInt8) (ds : FawnDS) (key : Bytes) (is : List Nat) : Prop :=
  ∀ pre i post, is = pre ++ i :: post → (∀ j ∈ pre, ds.valid j = true ∧ ds.holdsKey j key = false) →
    ¬Confusable stray ds key i

theorem distinct_cons : Distinct stray ds key (i :: is) ↔ ¬Confusable stray ds key i ∧
    (ds.valid i = true → ds.holdsKey i key = false → Distinct stray ds key is) := by
  constructor
  · intro h
    refine ⟨h [] i is rfl (by simp), fun hvalid hholds pre j post hsplit hpre => ?_⟩
    apply h (i :: pre) j post (by simp [hsplit])
    intro l hl
    rcases List.mem_cons.mp hl with rfl | hl
    · exact ⟨hvalid, hholds⟩
    · exact hpre l hl
  · rintro ⟨hi, htail⟩ pre j post hsplit hpre
    cases pre with
    | nil =>
      cases hsplit
      exact hi
    | cons l pre =>
      obtain ⟨rfl, rfl⟩ := List.cons.inj hsplit
      obtain ⟨hvalid, hholds⟩ := hpre i (List.mem_cons_self ..)
      exact htail hvalid hholds pre j post rfl fun l hl => hpre l (List.mem_cons_of_mem _ hl)

/-- `Get` along a path returns from the first entry of the key exactly if nothing before it is
confusable. -/
theorem getMemoryIn_iff (hslots : ∀ i, TableSlot ds i (t i)) (is : List Nat) :
    ds.getMemoryIn stray key is = ((find t key is).bind fun i => (t i).value?.map fun p => (i, p.2)) ↔
      Distinct stray ds key is := by
  induction is with
  | nil =>
    refine iff_of_true rfl ?_
    intro pre i post hsplit
    cases pre <;> cases hsplit
  | cons i is ih =>
    have hi := hslots i
    rw [distinct_cons]
    cases hs : t i with
    | empty =>
      rw [hs] at hi
      have hvalid : ds.valid i = false := hi
      simp [getMemoryIn, find, hs, hvalid, Confusable, existsAt]
    | tombstone =>
      rw [hs] at hi
      simp [getMemoryIn, find, hs, hi.1, hi.2, Confusable, existsAt, holdsKey, ih]
    | live k p =>
      rw [hs] at hi
      have hconfusable : Confusable stray ds key i ↔ _ := confusable_live hi
      have hholds : ds.holdsKey i key = decide (k = key) := by
        rw [holdsKey, Bool.and_assoc, matches_live hi key]
        simp [existsAt, hi.1, hi.2.1]
      obtain ⟨hvalid, hdeleted, hverify, hoffset, hrecord⟩ := hi
      by_cases hk : k = key
      · -- the entry of the key itself
        subst hk
        have hread : readMemory (stray p.1) ds.datastore k p.1 = some p.2 := readMemory_self hrecord
        simp [getMemoryIn, find, hs, hvalid, hdeleted, hverify, hoffset, hread, hconfusable, hholds]
      · by_cases hc : Confusable stray ds key i
        · obtain ⟨-, hfragment, hread⟩ := hconfusable.mp hc
          obtain ⟨data, hdata⟩ := Option.isSome_iff_exists.mp hread
          refine iff_of_false (fun heq => ?_) fun h => h.1 hc
          simp only [getMemoryIn, find, hs, hvalid, hdeleted, hverify, hoffset, hfragment, hdata,
            hk, Bool.not_true, Bool.false_eq_true, if_false, beq_self_eq_true, if_true] at heq
          obtain ⟨j, hj, hpair⟩ := Option.bind_eq_some_iff.mp heq.symm
          obtain ⟨q, -, hq⟩ := Option.map_eq_some_iff.mp hpair
          cases hq
          obtain ⟨w, hw⟩ := find_holds hj
          rw [hs] at hw
          cases hw
          exact hk rfl
        · have hskip : ds.getMemoryIn stray key (i :: is) = ds.getMemoryIn stray key is := by
            simp only [getMemoryIn, hvalid, hdeleted, hverify, hoffset, Bool.not_true,
              Bool.false_eq_true, if_false]
            by_cases hfragment : keyfragmentFromKey k = keyfragmentFromKey key
            · have hnone : readMemory (stray p.1) ds.datastore key p.1 = none := by
                by_contra hsome
                exact hc (hconfusable.mpr ⟨hk, hfragment, Option.isSome_iff_ne_none.mpr hsome⟩)
              simp [hfragment, hnone]
            · simp [hfragment]
          have hfind : find t key (i :: is) = find t key is := by simp [find, hs, hk]
          simp [hskip, hfind, ih, hc, hvalid, hholds, hk]

/-- For a store that any calls have made, `Get` goes by the same entry as `FindHashIndex` exactly if
nothing confusable stands before it on the path of the key. -/
theorem get_identified_iff (hashes : Hashes) (headerSize : Nat) (size : UInt64) (n : Nat) (hn : 3 ≤ n)
    (hsize : size.toNat = 2 ^ n) (ops : List Op) (stray : Nat → Nat → UInt8) (key : Bytes) :
    let ds := (run hashes (create headerSize size) ops).2
    ds.header.dataInsertionPoint < 2 ^ 32 →
    (Identified hashes stray ds key ↔ Distinct stray ds key (ds.path hashes key)) := by
  intro ds hbound
  obtain ⟨t, htable, hm⟩ := ((logged_create hashes headerSize hn hsize).run ops hbound).maps
  have hcontents : ds.contents hashes key =
      (find t key (ds.path hashes key)).bind fun i => (t i).value?.map Prod.snd := by
    have hmaps : Maps hashes ds (lookup (ds.path hashes) t) := ⟨t, htable, fun _ => rfl⟩
    rw [hmaps.contents_eq, htable.reach.lookup_eq, Option.map_bind]
    rfl
  have hfind : ds.findHashIndex hashes key = find t key (ds.path hashes key) := htable.findHashIndex_eq key
  rw [← getMemoryIn_iff htable.slots]
  change _ ↔ ds.getMemory hashes stray key = _
  cases hi : find t key (ds.path hashes key) with
  | none =>
    rw [hi] at hfind hcontents
    constructor
    · rintro ⟨hiff, -⟩
      rw [hfind] at hiff
      simpa using hiff
    · intro hnone
      rw [Option.bind_none] at hnone
      exact ⟨by simp [hnone, hfind], by simp [hnone]⟩
  | some i =>
    rw [hi] at hfind hcontents
    obtain ⟨p, hp⟩ := find_holds hi
    simp only [Option.bind_some, hp, Slot.value?_live, Option.map_some] at hcontents ⊢
    constructor
    · rintro ⟨hiff, hentry⟩
      rw [hfind] at hiff
      obtain ⟨⟨j, data⟩, hget⟩ := Option.isSome_iff_exists.mp (hiff.mpr rfl)
      obtain ⟨hj, hdata⟩ := hentry j data hget
      rw [hfind, Option.some.injEq] at hj
      rw [hcontents, Option.some.injEq] at hdata
      rw [hget, hj, hdata]
    · intro hget
      refine ⟨by simp [hget, hfind], fun j data hpair => ?_⟩
      rw [hget] at hpair
      cases hpair
      exact ⟨hfind, hcontents⟩

end Proofs

/-- Keys `2 2` and `2 2 2` with one fragment and one path, the shorter one first. -/
theorem get_identified_two_lengths :
    Identified (fun _ _ => 5) (fun _ _ => 0)
      (run (fun _ _ => 5) (create 0 8) [.insert [2, 2] [20], .insert [2, 2, 2] [30]]).2 [2, 2] := by
  refine (get_identified_iff (fun _ _ => 5) 0 8 3 (by decide) rfl [.insert [2, 2] [20], .insert [2, 2, 2] [30]]
    (fun _ _ => 0) [2, 2] (by decide)).mpr ?_
  refine distinct_cons.mpr ⟨?_, fun _ hholds => absurd hholds (by decide)⟩
  rintro ⟨-, -, dataHeader, ckey, hread, hne, -⟩
  cases hread
  exact hne rfl

/-- With key `2 2 2` alone, `Get` of `2 2` returns the last byte of the stored key. -/
theorem get_confuses_lengths :
    let ds := (run (fun _ _ => 5) (create 4096 8) [.insert [2, 2, 2] [9]]).2
    ds.getMemory (fun _ _ => 5) (fun _ _ => 0) [2, 2] = some (0, [2]) ∧
      ds.findHashIndex (fun _ _ => 5) [2, 2] = none := by
  decide +kernel

end FawnDS

end FawnKV.Fawn
