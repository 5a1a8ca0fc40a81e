import FawnKV.Fawn.ShortWrites
import Mathlib.Algebra.Order.BigOperators.Group.Finset
import Mathlib.Data.Finset.Card

/-! The counters of a FAWN-DS store against the keys it holds, and the inserts it refuses. -/
namespace FawnKV.Fawn

open ByteFile OpenAddressing Transition

namespace FawnDS

variable {hashes : Hashes} {ds : FawnDS} {t : Nat → Slot Bytes (Nat × Bytes)} {key data k : Bytes}
  {moved i : Nat} {c : LogCall} {calls : List LogCall}

/-- The key of the record that an entry points to, when the entry is live. -/
def keyAt (ds : FawnDS) (i : Nat) : Option Bytes :=
  if ds.existsAt i then
    (FawnDSFlash.readIntoHeader ds.datastore (ds.entry i).offset.toNat).map Prod.snd
  else none

/-- The keys with a live entry. -/
def keysPresent (ds : FawnDS) : Finset Bytes :=
  (Finset.range ds.header.hashtableSize.toNat).biUnion fun i => (ds.keyAt i).toFinset

/-- The header counts the keys present. -/
def CountsKeys (ds : FawnDS) : Prop :=
  (ds.header.numberElements - ds.header.deletedElements).toNat = ds.keysPresent.card

instance : Decidable ds.CountsKeys := inferInstanceAs (Decidable (_ = _))

/-- Every slot of the key's windows holds a live entry of another key. -/
def Blocked (hashes : Hashes) (ds : FawnDS) (key : Bytes) : Prop :=
  ∀ i ∈ ds.path hashes key, ∃ k ∈ ds.keyAt i, k ≠ key

instance : Decidable (Blocked hashes ds key) := inferInstanceAs (Decidable (∀ i ∈ _, ∃ k ∈ _, _))

/-- An insert that returns false has no slot to take, or its write of the log fails. -/
def RefusesRightly (hashes : Hashes) (ds : FawnDS) : LogCall → Prop
  | .insert key data moved => (ds.insertUpTo hashes key data moved).1 = false →
      Blocked hashes ds key ∨
        Reaches hashes ds key ∧ moved < dataHeaderSize + key.length + data.length
  | .delete _ _ _ => True

/-- An insert that counts a new object is of a key without a live entry. -/
def AddsOnce (hashes : Hashes) (ds : FawnDS) : LogCall → Prop
  | .insert key data moved => ds.header.numberElements ≠ ds.header.hashtableSize →
      dataHeaderSize + key.length + data.length ≤ moved →
      (ds.findHashIndexInsert hashes key).map Prod.snd = some true → key ∉ ds.keysPresent
  | .delete _ _ _ => True

instance : DecidablePred (RefusesRightly hashes ds)
  | .insert _ _ _ => inferInstanceAs (Decidable (_ → _))
  | .delete _ _ _ => inferInstanceAs (Decidable True)

instance : DecidablePred (AddsOnce hashes ds)
  | .insert _ _ _ => inferInstanceAs (Decidable (_ → _ → _ → _))
  | .delete _ _ _ => inferInstanceAs (Decidable True)

/-- The count is at the table size only for keys that have no slot to take. -/
def FullForKey (hashes : Hashes) (ds : FawnDS) : LogCall → Prop
  | .insert key _ _ => ds.header.numberElements = ds.header.hashtableSize → Blocked hashes ds key
  | .delete _ _ _ => True

/-! What the table shows of the keys. -/

theorem Table.keyAt_eq_some (h : Table hashes ds.logged t) :
    ds.keyAt i = some k ↔ ∃ p, t i = .live k p := by
  have hi := h.slots_of_logged i
  cases hs : t i with
  | empty =>
    rw [hs] at hi
    have hvalid : ds.valid i = false := hi
    simp [keyAt, existsAt, hvalid]
  | tombstone =>
    rw [hs] at hi
    simp [keyAt, existsAt, hi.1, hi.2]
  | live k' p =>
    rw [hs] at hi
    obtain ⟨hvalid, hdeleted, -, hoffset, hrecord⟩ := hi
    simp [keyAt, existsAt, hvalid, hdeleted, hoffset, hrecord.readIntoHeader_insert]

/-- The keys present are those that a search finds. -/
theorem Table.mem_keysPresent (h : Table hashes ds.logged t) :
    k ∈ ds.keysPresent ↔ (lookup (ds.path hashes) t k).isSome := by
  have hreach : Reachable (ds.path hashes) t := h.reach
  simp only [keysPresent, Finset.mem_biUnion, Finset.mem_range, Option.mem_toFinset, Option.mem_def]
  constructor
  · rintro ⟨i, -, hi⟩
    obtain ⟨p, hp⟩ := h.keyAt_eq_some.mp hi
    exact lookup_isSome_of_live hreach hp
  · intro hsome
    rw [lookup_isSome hreach] at hsome
    obtain ⟨i, hi⟩ := Option.isSome_iff_exists.mp hsome
    exact ⟨i, h.path_lt (find_mem hi), h.keyAt_eq_some.mpr (find_holds hi)⟩

theorem Table.mem_keysPresent_iff_find (h : Table hashes ds.logged t) :
    k ∈ ds.keysPresent ↔ (ds.findHashIndex hashes k).isSome := by
  rw [h.mem_keysPresent, h.logged_findHashIndex]
  exact lookup_isSome h.reach

/-- A key takes at least one slot. -/
theorem card_keysPresent_le (ds : FawnDS) : ds.keysPresent.card ≤ ds.header.hashtableSize.toNat := by
  have hone : ∀ i ∈ Finset.range ds.header.hashtableSize.toNat, (ds.keyAt i).toFinset.card ≤ 1 := by
    intro i _
    cases ds.keyAt i with
    | none => exact Nat.zero_le 1
    | some k => exact Nat.le_refl 1
  have hcard := Finset.card_biUnion_le_card_mul _ _ 1 hone
  rwa [Finset.card_range, Nat.mul_one] at hcard

theorem Table.blocked_iff (h : Table hashes ds.logged t) :
    Blocked hashes ds key ↔ findInsert t key (ds.path hashes key) = none := by
  rw [findInsert_eq_none_iff]
  constructor
  · intro hblocked i hi
    obtain ⟨k, hk, hne⟩ := hblocked i hi
    obtain ⟨p, hp⟩ := h.keyAt_eq_some.mp hk
    exact ⟨k, p, hp, hne⟩
  · intro hlive i hi
    obtain ⟨k, p, hp, hne⟩ := hlive i hi
    exact ⟨k, h.keyAt_eq_some.mpr ⟨p, hp⟩, hne⟩

/-! What a call does to the table, to the keys and to their count. -/

theorem Table.insertAt_of_logged (h : Table hashes ds.logged t)
    (hfind : findInsert t key (ds.path hashes key) = some i) (newObj : Bool)
    (hpoint : ds.header.dataInsertionPoint < 2 ^ 32) (hfits : LogCall.Fits (.insert key data moved)) :
    Table hashes (ds.insertAt i newObj key data).logged
      (Function.update t i (.live key (ds.header.dataInsertionPoint, data))) := by
  rw [logged_insertAt h.insertionPoint_le]
  exact h.insertAt hfind newObj hpoint hfits.1 hfits.2

theorem Table.keysPresent_insertAt (h : Table hashes ds.logged t)
    (hfind : findInsert t key (ds.path hashes key) = some i) (newObj : Bool)
    (hpoint : ds.header.dataInsertionPoint < 2 ^ 32) (hfits : LogCall.Fits (.insert key data moved)) :
    (ds.insertAt i newObj key data).keysPresent = Insert.insert key ds.keysPresent := by
  ext k
  rw [(h.insertAt_of_logged hfind newObj hpoint hfits).mem_keysPresent, Finset.mem_insert, h.mem_keysPresent]
  change (lookup (ds.path hashes) _ k).isSome ↔ _
  by_cases hk : k = key
  · subst k
    simp [lookup_insert_self hfind]
  · simp [lookup_insert_ne hfind hk, hk]

/-- A delete that returns true takes its key from those present, whatever copies it marks. -/
theorem Table.delete_of_logged (h : Table hashes ds.logged t) {movedKey : Nat}
    (hok : (ds.call hashes (.delete key moved movedKey)).1 = true) :
    let ds' := (ds.call hashes (.delete key moved movedKey)).2
    (∃ t', Table hashes ds'.logged t') ∧ key ∈ ds.keysPresent ∧
      ds'.keysPresent = ds.keysPresent.erase key ∧
      ds'.header.numberElements = ds.header.numberElements ∧
      ds'.header.deletedElements = ds.header.deletedElements + 1 := by
  intro ds'
  obtain ⟨htrue, hlogged⟩ := (h.call_logged _).1 hok
  obtain ⟨hiff, -, hdelete⟩ := h.deleteWith true key
  rw [deleteWith_true] at hiff hdelete
  obtain ⟨t', htable, -, hheader, -, -, hlookup⟩ := hdelete htrue
  rw [show (ds.logged.delete hashes key).2 = ds'.logged from hlogged.symm] at htable hheader
  have hlog : ds'.header = (ds.logDelete key).header := hheader
  have hpath : ds'.path hashes = ds.path hashes := path_eq (congrArg DbHeader.hashtableSize hlog) hashes
  refine ⟨⟨t', htable⟩, h.mem_keysPresent.mpr (hiff.mp htrue), ?_, by rw [hlog]; rfl, by rw [hlog]; rfl⟩
  ext k
  have hk : lookup (ds.path hashes) t' k = if k = key then none else lookup (ds.path hashes) t k := hlookup k
  rw [htable.mem_keysPresent, Finset.mem_erase, h.mem_keysPresent, hpath, hk]
  by_cases hk : k = key
  · simp [hk]
  · simp only [if_neg hk]
    exact (and_iff_right hk).symm

/-- The bytes behind the insertion point aside, the store shows a table. -/
def Shown (hashes : Hashes) (ds : FawnDS) : Prop := ∃ t, Table hashes ds.logged t

theorem keysPresent_of_logged {ds' : FawnDS} (h : Shown hashes ds) (hsame : ds'.logged = ds.logged) :
    Shown hashes ds' ∧ ds'.keysPresent = ds.keysPresent ∧ ds'.header = ds.header := by
  obtain ⟨t, htable⟩ := h
  have htable' : Table hashes ds'.logged t := by
    rw [hsame]
    exact htable
  have hheader : ds'.logged.header = ds.logged.header := congrArg FawnDS.header hsame
  have hpath : ds'.path hashes = ds.path hashes := path_eq (congrArg DbHeader.hashtableSize hheader) hashes
  refine ⟨⟨t, htable'⟩, ?_, hheader⟩
  ext k
  rw [htable.mem_keysPresent, htable'.mem_keysPresent, hpath]

theorem shown_call (h : Shown hashes ds) (hfits : c.Fits) (haddress : Addresses hashes ds c) :
    Shown hashes (ds.call hashes c).2 := by
  obtain ⟨t, htable⟩ := h
  cases hok : (ds.call hashes c).1 with
  | false => exact (keysPresent_of_logged ⟨t, htable⟩ ((htable.call_logged c).2 hok)).1
  | true =>
    cases c with
    | insert key data moved =>
      rcases insertUpTo_cases hashes ds key data moved with ⟨f, hcall, -⟩ |
        ⟨i, newObj, hcall, hfind, hreach, hlong⟩
      · simp [call, hcall] at hok
      · simp only [call, hcall]
        have hslot := htable.findInsert_of_logged hfind
        exact ⟨_, htable.insertAt_of_logged hslot newObj (haddress hreach hlong) hfits⟩
    | delete key moved movedKey => exact (htable.delete_of_logged hok).1

/-- One more object and one more key, or one more object and no more keys. -/
theorem countsKeys_add {number deleted : UInt64} {keys : Finset Bytes}
    (hcount : (number - deleted).toNat = keys.card) (hbound : (Insert.insert key keys).card < 2 ^ 64) :
    (number + 1 - deleted).toNat = (Insert.insert key keys).card ↔ key ∉ keys := by
  have hnumber := number.toNat_lt
  have hdeleted := deleted.toNat_lt
  rw [UInt64.toNat_sub] at hcount ⊢
  rw [UInt64.toNat_add, UInt64.toNat_one]
  by_cases hk : key ∈ keys
  · rw [Finset.insert_eq_of_mem hk] at hbound ⊢
    simp only [hk, not_true_eq_false, iff_false]
    omega
  · rw [Finset.card_insert_of_notMem hk] at hbound ⊢
    simp only [hk, not_false_eq_true, iff_true]
    omega

theorem countsKeys_sub {number deleted : UInt64} {keys : Finset Bytes}
    (hcount : (number - deleted).toNat = keys.card) (hk : key ∈ keys) :
    (number - (deleted + 1)).toNat = (keys.erase key).card := by
  have hnumber := number.toNat_lt
  have hdeleted := deleted.toNat_lt
  have hpos := Finset.card_pos.mpr ⟨key, hk⟩
  rw [UInt64.toNat_sub] at hcount ⊢
  rw [UInt64.toNat_add, UInt64.toNat_one, Finset.card_erase_of_mem hk]
  omega

/-- The count stays right exactly when no object is counted for a key that is there. -/
theorem countsKeys_call (h : Shown hashes ds) (hfits : c.Fits) (haddress : Addresses hashes ds c)
    (hcount : CountsKeys ds) : CountsKeys (ds.call hashes c).2 ↔ AddsOnce hashes ds c := by
  obtain ⟨t, htable⟩ := h
  have hfailed : (ds.call hashes c).1 = false → CountsKeys (ds.call hashes c).2 := by
    intro hok
    obtain ⟨-, hkeys, hheader⟩ := keysPresent_of_logged ⟨t, htable⟩ ((htable.call_logged c).2 hok)
    rw [CountsKeys, hkeys, hheader]
    exact hcount
  cases c with
  | insert key data moved =>
    rcases insertUpTo_cases hashes ds key data moved with
      ⟨f, hcall, -, hshort⟩ | ⟨i, newObj, hcall, hfind, hreach, hlong⟩
    · refine iff_of_true (hfailed (by simp [call, hcall])) ?_
      intro hroom hlong hnew
      obtain ⟨r, hr, -⟩ := Option.map_eq_some_iff.mp hnew
      exact absurd hlong (Nat.not_le.mpr (hshort ⟨hroom, by simp [hr]⟩))
    · simp only [call, hcall, AddsOnce, hfind, Option.map_some, Option.some.injEq]
      have hslot := htable.findInsert_of_logged hfind
      have hkeys := htable.keysPresent_insertAt hslot newObj (haddress hreach hlong) hfits
      rw [CountsKeys, hkeys]
      cases newObj with
      | true =>
        have hbound : (Insert.insert key ds.keysPresent).card < 2 ^ 64 := by
          rw [← hkeys]
          exact Nat.lt_of_le_of_lt (card_keysPresent_le _) (UInt64.toNat_lt _)
        simp only [hreach.1, hlong, ne_eq, not_false_eq_true, forall_const]
        exact countsKeys_add hcount hbound
      | false =>
        have hpresent : key ∈ ds.keysPresent := by
          obtain ⟨p, hp⟩ := live_of_oldObj htable.slots_of_logged hfind
          exact htable.mem_keysPresent.mpr (lookup_isSome_of_live htable.reach hp)
        rw [Finset.insert_eq_of_mem hpresent]
        exact iff_of_true hcount fun _ _ h => by cases h
  | delete key moved movedKey =>
    refine iff_of_true ?_ trivial
    cases hok : (ds.call hashes (.delete key moved movedKey)).1 with
    | false => exact hfailed hok
    | true =>
      obtain ⟨-, hpresent, hkeys, hnumber, hdeleted⟩ := htable.delete_of_logged hok
      rw [CountsKeys, hkeys, hnumber, hdeleted]
      exact countsKeys_sub hcount hpresent

/-- An insert is refused rightly exactly when a full count meets a key without a slot. -/
theorem refusesRightly_iff (h : Shown hashes ds) (c : LogCall) :
    RefusesRightly hashes ds c ↔ FullForKey hashes ds c := by
  obtain ⟨t, htable⟩ := h
  cases c with
  | delete key moved movedKey => exact Iff.rfl
  | insert key data moved =>
    constructor
    · intro hright hfull
      have hfalse : (ds.insertUpTo hashes key data moved).1 = false := by simp [insertUpTo, hfull]
      rcases hright hfalse with hblocked | ⟨⟨hroom, -⟩, -⟩
      · exact hblocked
      · exact absurd hfull hroom
    · intro hright hfalse
      by_cases hfull : ds.header.numberElements = ds.header.hashtableSize
      · exact .inl (hright hfull)
      · rcases insertUpTo_cases hashes ds key data moved with ⟨f, -, -, hshort⟩ | ⟨i, newObj, hcall, -⟩
        · cases hfind : ds.findHashIndexInsert hashes key with
          | none =>
            rw [htable.logged_findHashIndexInsert, Option.map_eq_none_iff] at hfind
            exact .inl (htable.blocked_iff.mpr hfind)
          | some r =>
            have hreach : Reaches hashes ds key := ⟨hfull, by simp [hfind]⟩
            exact .inr ⟨hreach, hshort hreach⟩
        · simp [hcall] at hfalse

/-- What a call needs in order to keep the accounts: a free slot is taken for a new key only, and a full
count only stops keys without a slot. -/
def KeepsAccounts (hashes : Hashes) (ds : FawnDS) (c : LogCall) : Prop :=
  AddsOnce hashes ds c ∧ FullForKey hashes ds c

instance : DecidablePred (FullForKey hashes ds)
  | .insert _ _ _ => inferInstanceAs (Decidable (_ → _))
  | .delete _ _ _ => inferInstanceAs (Decidable True)

instance : DecidablePred (KeepsAccounts hashes ds) := fun _ => inferInstanceAs (Decidable (_ ∧ _))

theorem shown_create (headerSize : Nat) {size : UInt64} {n : Nat} (hn : 3 ≤ n) (hsize : size.toNat = 2 ^ n) :
    Shown hashes (create headerSize size) := by
  have hlogged : (create headerSize size).logged = create headerSize size := by
    have hstore : (create headerSize size).logged.datastore = (create headerSize size).datastore := by
      simp [logged, create]
    exact congrArg (fun f => { create headerSize size with datastore := f }) hstore
  refine ⟨fun _ => .empty, ?_⟩
  rw [hlogged]
  exact table_create headerSize hn hsize

theorem countsKeys_create (headerSize : Nat) (size : UInt64) : CountsKeys (create headerSize size) := by
  have hkeys : (create headerSize size).keysPresent = ∅ := by
    ext k
    simp [keysPresent, keyAt, existsAt_create]
  rw [CountsKeys, hkeys, Finset.card_empty]
  exact congrArg UInt64.toNat (UInt64.sub_self 0)

/-- Over any run of calls whose records lie where 32 bits address them: the header counts the keys present
in every state, and inserts are refused only for want of a slot or of a write, exactly when every insert
that counts a new object is of a new key and none meets a full count while its key has a slot. -/
theorem occupancy_iff (hashes : Hashes) (headerSize : Nat) (size : UInt64) (n : Nat) (hn : 3 ≤ n)
    (hsize : size.toNat = 2 ^ n) (calls : List LogCall) (hfits : ∀ c ∈ calls, c.Fits)
    (haddress : Meets (callStep hashes) (Addresses hashes) (create headerSize size) calls) :
    Always (callStep hashes) CountsKeys (create headerSize size) calls ∧
      Meets (callStep hashes) (RefusesRightly hashes) (create headerSize size) calls ↔
    Meets (callStep hashes) (KeepsAccounts hashes) (create headerSize size) calls := by
  have hassume := (meets_of_forall_mem hfits (create headerSize size)).and haddress
  have hshown : Shown hashes (create headerSize size) := shown_create headerSize hn hsize
  have hinv : ∀ s c s', callStep hashes s c = some s' → c.Fits ∧ Addresses hashes s c →
      Shown hashes s → Shown hashes s' := by
    intro s c s' hs hc h
    cases hs
    exact shown_call h hc.1 hc.2
  obtain ⟨s', hrun, -⟩ := exists_run_of_meets (I := fun _ => True)
    (fun _ _ _ _ => ⟨_, rfl, trivial⟩) hassume trivial
  have hcounts : Always (callStep hashes) CountsKeys (create headerSize size) calls ↔
      Meets (callStep hashes) (AddsOnce hashes) (create headerSize size) calls := by
    refine always_iff_meets_of_assuming hinv ?_ hrun hassume hshown (countsKeys_create headerSize size)
    intro s c s' hs hc h hcount
    cases hs
    exact countsKeys_call h hc.1 hc.2 hcount
  have hrefuses : Meets (callStep hashes) (RefusesRightly hashes) (create headerSize size) calls ↔
      Meets (callStep hashes) (FullForKey hashes) (create headerSize size) calls :=
    meets_iff_of_assuming hinv (fun _ c _ h => refusesRightly_iff h c) hassume hshown
  exact (and_congr hcounts hrefuses).trans meets_and.symm

/-- Two keys in one window; one is deleted, its slot is left alone, and the other is overwritten in place. -/
theorem occupancy_iff_inPlace :
    let calls : List LogCall := [.insert [1, 2] [7] 12, .insert [3, 2] [8] 5, .insert [3, 2] [8] 12,
      .delete [3, 2] 9 2, .insert [1, 2] [9] 12]
    Always (callStep fun _ _ => 5) CountsKeys (create 0 8) calls ∧
      Meets (callStep fun _ _ => 5) (RefusesRightly fun _ _ => 5) (create 0 8) calls :=
  (occupancy_iff (fun _ _ => 5) 0 8 3 (by decide) (by decide) _ (by decide) (by decide +kernel)).mpr
    (by decide +kernel)

/-- A key overwritten through the tombstone before it is counted twice, and eight inserts of one key that is
deleted each time leave an empty table of eight slots that refuses it. -/
theorem occupancy_wrong :
    (¬Always (callStep fun _ _ => 5) CountsKeys (create 0 8)
      [.insert [1, 2] [7] 12, .insert [3, 2] [8] 12, .delete [1, 2] 9 2, .insert [3, 2] [9] 12]) ∧
    ¬Meets (callStep fun _ _ => 5) (RefusesRightly fun _ _ => 5) (create 0 8)
      ((List.replicate 8 [.insert [1, 2] [7] 12, .delete [1, 2] 9 2]).flatten ++ [.insert [1, 2] [7] 12]) := by
  constructor
  · intro h
    have hlast := always_last rfl h
    revert hlast
    decide +kernel
  · decide +kernel

end FawnDS

end FawnKV.Fawn
