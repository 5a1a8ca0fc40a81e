import FawnKV.Fawn.ShortWrites

/-! The 32-bit offsets of a FAWN-DS table against the positions where its records were written. -/
namespace FawnKV.Fawn

open ByteFile OpenAddressing Transition

/-- A store with the start of its log and, for every slot, the position of the record it was last set for. -/
structure TracedDS where
  store : FawnDS
  dataStartPoint : Nat
  written : Nat → Nat

namespace TracedDS

open FawnDS

variable {hashes : Hashes} {s s' : TracedDS} {ds : FawnDS} {key data : Bytes} {fuel i j : Nat} {e : HashEntry}
  {c : LogCall}

/-- `Create` starts the log at its insertion point. -/
def create (headerSize : Nat) (hashtableSize : UInt64) : TracedDS :=
  let ds := FawnDS.create headerSize hashtableSize
  ⟨ds, ds.header.dataInsertionPoint, fun _ => 0⟩

/-- The slot that a call sets, with the position of the record. -/
def sets (hashes : Hashes) (ds : FawnDS) (c : LogCall) : Option (Nat × Nat) :=
  match c, (ds.call hashes c).1 with
  | .insert key _ _, true =>
    (ds.findHashIndexInsert hashes key).map fun r => (r.1, ds.header.dataInsertionPoint)
  | _, _ => none

def step (hashes : Hashes) (s : TracedDS) (c : LogCall) : Option TracedDS :=
  some { s with
    store := (s.store.call hashes c).2
    written := match sets hashes s.store c with
      | some (i, position) => Function.update s.written i position
      | none => s.written }

/-- Every live entry's offset is the position in the log at which its record was written. -/
def OffsetsExact (s : TracedDS) : Prop :=
  ∀ i, s.store.existsAt i = true → (s.store.entry i).offset.toNat = s.written i ∧
    s.dataStartPoint ≤ s.written i ∧ s.written i < s.store.header.dataInsertionPoint

/-- A table whose windows lie inside it, and a log behind its start. -/
def WellSized (s : TracedDS) : Prop :=
  (∃ n, 3 ≤ n ∧ s.store.header.hashtableSize.toNat = 2 ^ n) ∧
    s.dataStartPoint ≤ s.store.header.dataInsertionPoint

theorem existsAt_of_entry {ds' : FawnDS} (h : ds'.entry i = ds.entry i) : ds'.existsAt i = ds.existsAt i := by
  simp only [existsAt, valid, deleted, h]

/-- An index behind the table sets nothing. -/
theorem entry_setEntry_of_le (hi : ds.header.hashtableSize.toNat ≤ i) (j : Nat) :
    (ds.setEntry i e).entry j = ds.entry j := by
  have hsize : ds.hashTable.size ≤ i := by rw [ds.sizeEq]; exact hi
  change (ds.hashTable.setIfInBounds i e).getD j {} = ds.entry j
  rw [Array.setIfInBounds_eq_of_size_le hsize]
  rfl

/-- Marking an entry leaves the live entries that remain as they were. -/
theorem markDeleted_live (h : (ds.markDeleted i).existsAt j = true) :
    (ds.markDeleted i).entry j = ds.entry j := by
  rcases Nat.lt_or_ge i ds.header.hashtableSize.toNat with hi | hi
  · rw [markDeleted, entry_setEntry hi]
    by_cases hj : j = i
    · -- the entry itself is no longer live
      subst j
      have hdeleted : (ds.markDeleted i).deleted i = true := by
        rw [deleted, markDeleted, entry_setEntry hi, if_pos rfl, markedKey_deleted]
        rfl
      simp [existsAt, hdeleted] at h
    · exact if_neg hj
  · exact entry_setEntry_of_le hi j

theorem eliminateStale_live (h : (eliminateStale hashes key fuel ds).existsAt j = true) :
    (eliminateStale hashes key fuel ds).entry j = ds.entry j := by
  induction fuel generalizing ds with
  | zero => rfl
  | succ fuel ih =>
    simp only [eliminateStale] at h ⊢
    split at h
    · rfl
    · rename_i i hi
      have hrest := ih h
      exact hrest.trans (markDeleted_live (by rw [← existsAt_of_entry hrest]; exact h))

/-- The live entries after a delete are entries from before. -/
theorem deleteUpTo_live {moved movedKey : Nat}
    (h : (ds.deleteUpTo hashes key moved movedKey).2.existsAt j = true) :
    (ds.deleteUpTo hashes key moved movedKey).2.entry j = ds.entry j := by
  rcases deleteUpTo_cases hashes ds key moved movedKey with ⟨f, hcall, -⟩ | ⟨i, -, -, hcall⟩
  · rw [hcall]
    rfl
  · rw [hcall] at h ⊢
    have hstale := eliminateStale_live h
    have hmarked : ((ds.logDelete key).markDeleted i).existsAt j = true := by
      rw [← existsAt_of_entry hstale]
      exact h
    exact hstale.trans (markDeleted_live hmarked)

theorem findHashIndexInsertIn_mem {is : List Nat} {newObj : Bool}
    (h : ds.findHashIndexInsertIn key is = some (i, newObj)) : i ∈ is := by
  induction is with
  | nil => cases h
  | cons j is ih =>
    rw [findHashIndexInsertIn] at h
    split at h
    · cases h
      exact List.mem_cons_self
    · split at h
      · cases h
        exact List.mem_cons_self
      · exact List.mem_cons_of_mem j (ih h)

theorem insertAt_entry (hi : i < ds.header.hashtableSize.toNat) (newObj : Bool) (j : Nat) :
    (ds.insertAt i newObj key data).entry j =
      if j = i then ⟨keyfragmentFromKey key ||| validBitMask, UInt32.ofNat ds.header.dataInsertionPoint⟩
      else ds.entry j :=
  entry_setEntry hi j

theorem insertAt_live (hi : i < ds.header.hashtableSize.toNat) (newObj : Bool) :
    (ds.insertAt i newObj key data).existsAt i = true := by
  obtain ⟨f, hf⟩ := keyfragmentFromKey_masked key
  have he : (ds.insertAt i newObj key data).entry i = _ := (insertAt_entry hi newObj i).trans (if_pos rfl)
  simp only [existsAt, valid, deleted, he, insertedKey_valid]
  rw [hf, insertedKey_deleted]
  rfl

/-- A call keeps the size of the table, and the log only grows. -/
theorem call_header (hashes : Hashes) (ds : FawnDS) (c : LogCall) :
    (ds.call hashes c).2.header.hashtableSize = ds.header.hashtableSize ∧
      ds.header.dataInsertionPoint ≤ (ds.call hashes c).2.header.dataInsertionPoint := by
  cases c with
  | insert key data moved =>
    rcases insertUpTo_cases hashes ds key data moved with ⟨f, hcall, -⟩ | ⟨i, newObj, hcall, -⟩
    · rw [call, hcall]
      exact ⟨rfl, Nat.le_refl _⟩
    · rw [call, hcall]
      refine ⟨rfl, ?_⟩
      change ds.header.dataInsertionPoint ≤
          ds.header.dataInsertionPoint + dataHeaderSize + key.length + data.length
      omega
  | delete key moved movedKey =>
    rcases deleteUpTo_cases hashes ds key moved movedKey with ⟨f, hcall, -⟩ | ⟨i, -, -, hcall⟩
    · rw [call, hcall]
      exact ⟨rfl, Nat.le_refl _⟩
    · rw [call, hcall, eliminateStale_header]
      refine ⟨rfl, ?_⟩
      change ds.header.dataInsertionPoint ≤ ds.header.dataInsertionPoint + dataHeaderSize + key.length
      omega

theorem wellSized_step (h : WellSized s) (hstep : step hashes s c = some s') : WellSized s' := by
  cases hstep
  obtain ⟨⟨n, hn, hsize⟩, hstart⟩ := h
  obtain ⟨hsame, hgrows⟩ := call_header hashes s.store c
  refine ⟨⟨n, hn, ?_⟩, Nat.le_trans hstart hgrows⟩
  rw [← hsize]
  exact congrArg UInt64.toNat hsame

/-- An entry that is not set keeps its exact offset while the log grows. -/
theorem OffsetsExact.keep (h : OffsetsExact s) {ds' : FawnDS} (he : ds'.entry j = s.store.entry j)
    (hgrows : s.store.header.dataInsertionPoint ≤ ds'.header.dataInsertionPoint) (hj : ds'.existsAt j = true) :
    (ds'.entry j).offset.toNat = s.written j ∧ s.dataStartPoint ≤ s.written j ∧
      s.written j < ds'.header.dataInsertionPoint := by
  rw [existsAt_of_entry he] at hj
  obtain ⟨hoffset, hstart, hend⟩ := h j hj
  rw [he]
  exact ⟨hoffset, hstart, Nat.lt_of_lt_of_le hend hgrows⟩

/-- Offsets stay exact exactly when the record of the call, if there is one, starts below `2 ^ 32`. -/
theorem offsetsExact_step (hw : WellSized s) (h : OffsetsExact s) (hstep : step hashes s c = some s') :
    OffsetsExact s' ↔ Addresses hashes s.store c := by
  cases hstep
  have hgrows := (call_header hashes s.store c).2
  cases c with
  | delete key moved movedKey => exact iff_of_true (fun j hj => h.keep (deleteUpTo_live hj) hgrows hj) trivial
  | insert key data moved =>
    rcases insertUpTo_cases hashes s.store key data moved with
      ⟨f, hcall, -, hshort⟩ | ⟨i, newObj, hcall, hfind, hreach, hlong⟩
    · simp only [sets, call, hcall] at hgrows ⊢
      exact iff_of_true (fun j hj => h.keep rfl hgrows hj)
        fun hreach hlong => absurd hlong (Nat.not_le.mpr (hshort hreach))
    · simp only [sets, call, hcall, hfind, Option.map_some] at hgrows ⊢
      obtain ⟨⟨n, hn, hsize⟩, hstart⟩ := hw
      have hi : i < s.store.header.hashtableSize.toNat :=
          probePath_lt hn hsize (findHashIndexInsertIn_mem hfind)
      constructor
      · intro hexact _ _
        have hoffset := (hexact i (insertAt_live hi newObj)).1
        simp only [insertAt_entry hi, if_pos, Function.update_self, UInt32.toNat_ofNat'] at hoffset
        omega
      · intro haddress j hj
        have hpoint := haddress hreach hlong
        by_cases hji : j = i
        · subst j
          simp only [insertAt_entry hi, if_pos, Function.update_self, UInt32.toNat_ofNat']
          refine ⟨Nat.mod_eq_of_lt hpoint, hstart, ?_⟩
          change s.store.header.dataInsertionPoint <
            s.store.header.dataInsertionPoint + dataHeaderSize + key.length + data.length
          simp only [dataHeaderSize]
          omega
        · have he : (s.store.insertAt i newObj key data).entry j = s.store.entry j :=
            (insertAt_entry hi newObj j).trans (if_neg hji)
          simp only [Function.update_of_ne hji]
          exact h.keep he hgrows hj

/-- Over any run of inserts and deletes of any length, in every state each live entry's offset is the
position of its record, exactly when no insert writes a record at or above `2 ^ 32`. -/
theorem offsetsExact_iff (hashes : Hashes) (headerSize : Nat) (size : UInt64) (n : Nat) (hn : 3 ≤ n)
    (hsize : size.toNat = 2 ^ n) (calls : List LogCall) :
    Always (step hashes) OffsetsExact (create headerSize size) calls ↔
      Meets (step hashes) (fun s => Addresses hashes s.store) (create headerSize size) calls := by
  have hstart : WellSized (create headerSize size) := ⟨⟨n, hn, hsize⟩, Nat.le_refl _⟩
  have hexact : OffsetsExact (create headerSize size) := by
    intro i hi
    have he : (create headerSize size).store.existsAt i = false := existsAt_create headerSize size i
    rw [he] at hi
    cases hi
  obtain ⟨s', hrun, -⟩ := exists_run_of_meets (I := fun _ => True) (fun _ _ _ _ => ⟨_, rfl, trivial⟩)
    (meets_of_forall (C := fun _ _ => True) (fun _ _ => trivial) (create headerSize size) calls) trivial
  exact always_iff_meets_of_invariant (fun _ _ _ hstep hw => wellSized_step hw hstep)
    (fun _ _ _ hstep hw h => offsetsExact_step hw h hstep) hrun hstart hexact

/-- An overwrite through a tombstone, a write that fails, and a delete. -/
theorem offsetsExact_iff_short :
    Always (step fun _ _ => 5) OffsetsExact (create 0 8) [.insert [1, 2] [7] 12, .insert [3, 2] [8] 12,
      .delete [1, 2] 9 2, .insert [3, 2] [9] 11, .insert [3, 2] [9] 12, .delete [3, 2] 9 2] :=
  (offsetsExact_iff (fun _ _ => 5) 0 8 3 (by decide) (by decide) _).mpr (by decide +kernel)

/-- With all hashes 5 and eight slots, a store without keys or with the key `[1, 2]` in its first slot. -/
def AtMostOneKey (ds : FawnDS) (point : Nat) : Prop :=
  ds.header.hashtableSize = 8 ∧ ds.header.dataInsertionPoint = point ∧
    ∃ o : Slot Bytes (Nat × Bytes), (o = .empty ∧ ds.header.numberElements = 0 ∨
        (∃ p, o = .live [1, 2] p) ∧ ds.header.numberElements = 1) ∧
      Table (fun _ _ => 5) ds (Function.update (fun _ => .empty) 0 o)

theorem AtMostOneKey.path_eq {point : Nat} (h : AtMostOneKey ds point) (hkey : key = [1, 2] ∨ key = [3, 4]) :
    ds.path (fun _ _ => 5) key = 0 :: 1 :: (List.range' 2 6 ++ List.range 8 ++ List.range 8) := by
  rw [path, h.1]
  rcases hkey with rfl | rfl <;> decide +kernel

/-- The key itself finds the first slot. -/
theorem AtMostOneKey.findHashIndexInsert {point : Nat} (h : AtMostOneKey ds point) :
    ds.findHashIndexInsert (fun _ _ => 5) [1, 2] = some (0, ds.header.numberElements == 0) := by
  have hpath := h.path_eq (.inl rfl)
  obtain ⟨-, -, o, ho, htable⟩ := h
  have hfind : ds.findHashIndexInsert (fun _ _ => 5) [1, 2] = _ :=
    findHashIndexInsertIn_eq_map htable.slots [1, 2] _
  rw [hfind, hpath]
  rcases ho with ⟨rfl, hnone⟩ | ⟨⟨p, rfl⟩, hone⟩ <;> simp [findInsert, *]

/-- Another key finds the first slot or the one behind it. -/
theorem AtMostOneKey.reaches {point : Nat} (h : AtMostOneKey ds point) (hkey : key = [1, 2] ∨ key = [3, 4]) :
    Reaches (fun _ _ => 5) ds key := by
  have hpath := h.path_eq hkey
  obtain ⟨hsize, -, o, ho, htable⟩ := h
  constructor
  · rw [hsize]
    rcases ho with ⟨-, hcount⟩ | ⟨-, hcount⟩ <;> rw [hcount] <;> decide
  · have hfind : ds.findHashIndexInsert (fun _ _ => 5) key = _ :=
      findHashIndexInsertIn_eq_map htable.slots key _
    rw [hfind, hpath, Option.isSome_map]
    rcases ho with ⟨rfl, -⟩ | ⟨⟨p, rfl⟩, -⟩ <;> rcases hkey with rfl | rfl <;> simp [findInsert]

/-- A record of the key that is moved as a whole takes the first slot. -/
theorem AtMostOneKey.insert {point moved : Nat} (h : AtMostOneKey ds point) (hpoint : point < 2 ^ 32)
    (hfits : data.length < 2 ^ 32) (hlong : dataHeaderSize + 2 + data.length ≤ moved) :
    AtMostOneKey (ds.call (fun _ _ => 5) (.insert [1, 2] data moved)).2
      (point + dataHeaderSize + 2 + data.length) := by
  have hfind := h.findHashIndexInsert
  have hreaches := h.reaches (.inl rfl)
  obtain ⟨hsize, rfl, o, ho, htable⟩ := h
  rcases insertUpTo_cases (fun _ _ => 5) ds [1, 2] data moved with
    ⟨f, -, -, hshort⟩ | ⟨i, newObj, hcall, hi, -⟩
  · exact absurd hlong (Nat.not_le.mpr (hshort hreaches))
  · rw [hfind] at hi
    cases hi
    rw [call, hcall]
    have hslot : findInsert (Function.update (fun _ => .empty) 0 o) [1, 2] (ds.path (fun _ _ => 5) [1, 2]) =
        some 0 := by
      rw [← findHashIndexInsertIn_eq htable.slots]
      exact congrArg (Option.map Prod.fst) hfind
    have hnext := htable.insertAt (v := data) hslot (ds.header.numberElements == 0) hpoint (by decide) hfits
    rw [Function.update_idem] at hnext
    refine ⟨hsize, rfl, _, .inr ⟨⟨_, rfl⟩, ?_⟩, hnext⟩
    rcases ho with ⟨-, hcount⟩ | ⟨-, hcount⟩ <;> simp [insertAt, hcount]

theorem AtMostOneKey.step {point moved : Nat} (h : AtMostOneKey s.store point)
    (hstep : step (fun _ _ => 5) s (.insert [1, 2] data moved) = some s') (hpoint : point < 2 ^ 32)
    (hfits : data.length < 2 ^ 32) (hlong : dataHeaderSize + 2 + data.length ≤ moved) :
    AtMostOneKey s'.store (point + dataHeaderSize + 2 + data.length) := by
  cases hstep
  exact h.insert hpoint hfits hlong

theorem atMostOneKey_create : AtMostOneKey (FawnDS.create 4096 8) 4144 := by
  refine ⟨rfl, rfl, .empty, .inl ⟨rfl, rfl⟩, ?_⟩
  rw [Function.update_eq_self_iff.mpr rfl]
  exact table_create 4096 (Nat.le_refl 3) rfl

/-- Values of which the first two records are the longest that one `writev` moves: the record after the
third lies above the offsets. -/
theorem not_offsetsExact_of_length {v w : Bytes} (hv : v.length = 2147479541) (hw : w.length = 5000) :
    ¬Always (step fun _ _ => 5) OffsetsExact (create 4096 8) [.insert [1, 2] v 2147479552,
      .insert [1, 2] v 2147479552, .insert [1, 2] w 5011, .insert [3, 4] [7] 12] := by
  have hsized : WellSized (create 4096 8) := ⟨⟨3, by decide, by decide⟩, Nat.le_refl _⟩
  have hempty : AtMostOneKey (create 4096 8).store 4144 := atMostOneKey_create
  generalize create 4096 8 = s at hsized hempty
  have hnext : ∀ s c, ∃ t, step (fun _ _ => 5) s c = some t := fun _ _ => ⟨_, rfl⟩
  rintro ⟨-, hfirst⟩
  obtain ⟨s₁, h₁⟩ := hnext s (.insert [1, 2] v 2147479552)
  obtain ⟨-, hsecond⟩ := hfirst s₁ h₁
  obtain ⟨s₂, h₂⟩ := hnext s₁ (.insert [1, 2] v 2147479552)
  obtain ⟨-, hthird⟩ := hsecond s₂ h₂
  obtain ⟨s₃, h₃⟩ := hnext s₂ (.insert [1, 2] w 5011)
  obtain ⟨hexact, hfourth⟩ := hthird s₃ h₃
  obtain ⟨s₄, h₄⟩ := hnext s₃ (.insert [3, 4] [7] 12)
  have hsized₃ : WellSized s₃ := wellSized_step (wellSized_step (wellSized_step hsized h₁) h₂) h₃
  have haddress := (offsetsExact_step hsized₃ hexact h₄).mp (hfourth s₄ h₄)
  have hone := hempty.step h₁ (by decide) (by omega) (by rw [hv, dataHeaderSize])
  have htwo := hone.step h₂ (by rw [hv, dataHeaderSize]; decide) (by omega) (by rw [hv, dataHeaderSize])
  have hthree := htwo.step h₃ (by rw [hv, dataHeaderSize]; decide) (by omega) (by rw [hw, dataHeaderSize])
  have hpoint := hthree.2.1.symm.trans_lt (haddress (hthree.reaches (.inr rfl)) (by decide))
  rw [hv, hw, dataHeaderSize] at hpoint
  omega

theorem offsets_alias : ¬Always (step fun _ _ => 5) OffsetsExact (create 4096 8)
    [.insert [1, 2] (List.replicate 2147479541 0) 2147479552,
      .insert [1, 2] (List.replicate 2147479541 0) 2147479552,
      .insert [1, 2] (List.replicate 5000 0) 5011, .insert [3, 4] [7] 12] :=
  not_offsetsExact_of_length List.length_replicate List.length_replicate

end TracedDS

end FawnKV.Fawn
