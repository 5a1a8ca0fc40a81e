import FawnKV.Silt.BackStores

/-! `Contains` and `Length` of `FawnDS_Combi` beside `Get`. -/
namespace FawnKV.Silt

namespace FawnDSSF

/-- `Length`, from what `Get` of the key returns. -/
def lengthOf (got : FawnDSReturn × Value) : FawnDSReturn × Nat := (got.1, got.2.length)

/-- `Contains`, from the same: after the check of the key every failure is a key that is not found. -/
def containsOf (keyLen : Nat) (key : Value) (got : FawnDSReturn × Value) : FawnDSReturn :=
  if key.length = 0 then .invalidKey
  else if keyLen ≠ 0 ∧ keyLen ≠ key.length then .invalidKey
  else if (lengthOf got).1 = .ok then .ok
  else .keyNotFound

end FawnDSSF

namespace FawnDSSFOrderedTrie

def containsOf (got : FawnDSReturn × Value) : FawnDSReturn := got.1

/-- The length is the configured one, whatever `Contains` returns. -/
def lengthOf (dataLen : Nat) (got : FawnDSReturn × Value) : FawnDSReturn × Nat := (containsOf got, dataLen)

end FawnDSSFOrderedTrie

namespace FawnDSCombi

open Transition

section Queries

variable {F M B : Type} (c : Config) (ch : Children F M B)

/-- What the stores answer to a `Get`, in the order of the search; the last stage, of one store, is one. -/
def answers (s : State F M B) (key : Value) : List (FawnDSReturn × Value) :=
  s.stage0.map (fun p => ch.getFront p.2 key) ++ s.stage1.map (fun m => ch.getMiddle m key) ++
    [getLoop (s.stage2.map fun b => ch.getBack b key)]

def containsLoop : List FawnDSReturn → FawnDSReturn
  | [] => .keyNotFound
  | ret :: rets => if ret ≠ .keyNotFound then ret else containsLoop rets

def contains (s : State F M B) (key : Value) : FawnDSReturn :=
  if c.keyLen ≠ key.length then .invalidKey
  else containsLoop (s.stage0.map (fun p => FawnDSSF.containsOf c.keyLen key (ch.getFront p.2 key)) ++
    s.stage1.map (fun m => FawnDSSF.containsOf c.keyLen key (ch.getMiddle m key)) ++
    s.stage2.map fun b => FawnDSSFOrderedTrie.containsOf (ch.getBack b key))

/-- The length is written by every store that is asked; the last one stays. -/
def lengthLoop : Nat → List (FawnDSReturn × Nat) → FawnDSReturn × Nat
  | len, [] => (.keyNotFound, len)
  | _, r :: rs => if r.1 ≠ .keyNotFound then r else lengthLoop r.2 rs

/-- `len` is what the caller's variable holds. -/
def length (s : State F M B) (key : Value) (len : Nat) : FawnDSReturn × Nat :=
  if c.keyLen ≠ key.length then (.invalidKey, len)
  else lengthLoop len (s.stage0.map (fun p => FawnDSSF.lengthOf (ch.getFront p.2 key)) ++
    s.stage1.map (fun m => FawnDSSF.lengthOf (ch.getMiddle m key)) ++
    s.stage2.map fun b => FawnDSSFOrderedTrie.lengthOf c.dataLen (ch.getBack b key))

/-- The three queries agree on the key. -/
structure Agree (s : State F M B) (key : Value) : Prop where
  contains_iff : contains c ch s key = .ok ↔ (get c ch s key).1 = .ok
  length_iff : ∀ len, (length c ch s key len).1 = .ok ↔ (get c ch s key).1 = .ok
  size : ∀ len, (get c ch s key).1 = .ok → (length c ch s key len).2 = (get c ch s key).2.length

/-- The first answer that is not `KEY_NOT_FOUND` is no value (it is the `KEY_DELETED` of a tombstone), and an
older store has a value. -/
def Shadowed : List (FawnDSReturn × Value) → Prop
  | [] => False
  | r :: rs => if r.1 = .keyNotFound then Shadowed rs else r.1 ≠ .ok ∧ ∃ x ∈ rs, x.1 = .ok

instance decidableShadowed : ∀ rs, Decidable (Shadowed rs)
  | [] => inferInstanceAs (Decidable False)
  | r :: rs =>
    have := decidableShadowed rs
    inferInstanceAs (Decidable (if r.1 = .keyNotFound then Shadowed rs
      else r.1 ≠ .ok ∧ ∃ x ∈ rs, x.1 = .ok))

end Queries

section Loops

variable {rs rs' : List (FawnDSReturn × Value)}

theorem getLoop_append (rs rs' : List (FawnDSReturn × Value)) :
    getLoop (rs ++ [getLoop rs']) = getLoop (rs ++ rs') := by
  induction rs with
  | nil =>
    rw [List.nil_append, List.nil_append, getLoop]
    split
    · rfl
    · rename_i hcode
      exact ((getLoop_cases rs').resolve_right fun h => hcode h.2).symm
  | cons r rs ih => rw [List.cons_append, List.cons_append, getLoop, getLoop, ih]

/-- `Get` returns a value that is under no other answer. -/
theorem getLoop_ok_iff : (getLoop rs).1 = .ok ↔ (∃ r ∈ rs, r.1 = .ok) ∧ ¬Shadowed rs := by
  induction rs with
  | nil => simp [getLoop]
  | cons r rs ih =>
    rw [getLoop, Shadowed]
    by_cases hcode : r.1 = .keyNotFound
    · have hne : r.1 ≠ .ok := by
        rw [hcode]
        decide
      rw [if_neg (not_not.mpr hcode), if_pos hcode, ih, List.exists_mem_cons_iff, or_iff_right hne]
    · rw [if_pos hcode, if_neg hcode]
      by_cases hok : r.1 = .ok
      · exact iff_of_true hok ⟨⟨r, List.mem_cons_self, hok⟩, fun h => h.1 hok⟩
      · refine iff_of_false hok fun h => ?_
        obtain ⟨⟨x, hx, hxok⟩, hshadow⟩ := h
        rcases List.mem_cons.mp hx with rfl | hx
        · exact hok hxok
        · exact hshadow ⟨hok, x, hx, hxok⟩

/-- What is shadowed is a value. -/
theorem exists_ok_of_shadowed (h : Shadowed rs) : ∃ r ∈ rs, r.1 = .ok := by
  induction rs with
  | nil => exact h.elim
  | cons r rs ih =>
    rw [Shadowed] at h
    split at h
    · obtain ⟨x, hx, hok⟩ := ih h
      exact ⟨x, List.mem_cons_of_mem r hx, hok⟩
    · obtain ⟨-, x, hx, hok⟩ := h
      exact ⟨x, List.mem_cons_of_mem r hx, hok⟩

/-- A store whose `Contains` only says yes or no never ends the loop with a no. -/
theorem containsLoop_append {rets : List FawnDSReturn} (h : ∀ ret ∈ rets, ret = .ok ∨ ret = .keyNotFound)
    (rets' : List FawnDSReturn) :
    containsLoop (rets ++ rets') = .ok ↔ .ok ∈ rets ∨ containsLoop rets' = .ok := by
  induction rets with
  | nil => simp
  | cons ret rets ih =>
    have hrest := ih fun ret' hret' => h ret' (List.mem_cons_of_mem ret hret')
    rw [List.cons_append, containsLoop]
    rcases h ret List.mem_cons_self with rfl | rfl
    · simp
    · simpa using hrest

/-- The `Contains` of the tries returns the code of their `Get`. -/
theorem containsLoop_codes (rs : List (FawnDSReturn × Value)) :
    containsLoop (rs.map Prod.fst) = (getLoop rs).1 := by
  induction rs with
  | nil => rfl
  | cons r rs ih =>
    rw [List.map_cons, containsLoop, getLoop, ih]
    split <;> rfl

/-- Both loops stop at the same store. -/
theorem lengthLoop_eq {l : List ((FawnDSReturn × Value) × Nat)} (len : Nat) :
    ∃ n, lengthLoop len (l.map fun e => (e.1.1, e.2)) = ((getLoop (l.map Prod.fst)).1, n) ∧
      ((getLoop (l.map Prod.fst)).1 = .ok → (getLoop (l.map Prod.fst), n) ∈ l) := by
  induction l generalizing len with
  | nil => exact ⟨len, rfl, nofun⟩
  | cons e l ih =>
    rw [List.map_cons, List.map_cons, lengthLoop, getLoop]
    by_cases hcode : e.1.1 = .keyNotFound
    · obtain ⟨n, heq, hmem⟩ := ih e.2
      rw [if_neg (not_not.mpr hcode), if_neg (not_not.mpr hcode)]
      exact ⟨n, heq, fun hok => List.mem_cons_of_mem e (hmem hok)⟩
    · rw [if_pos hcode, if_pos hcode]
      exact ⟨e.2, rfl, fun _ => List.mem_cons_self⟩

end Loops

section Tries

variable {F M B : Type} {c : Config} {node : TrieNode} {ch : Children F M B} {uninit : Nat → UInt8}
  {s t : State F M FawnDSSFOrderedTrie} {l : Label} {k : Value}

/-- No call of a trie changes its configuration. -/
theorem config_putBack (t : FawnDSSFOrderedTrie) (key data : Value) :
    ((overTries c.toLengths node ch).putBack t key data).2.config = t.config := by
  simp only [overTries]
  rw [FawnDSSFOrderedTrie.put]
  split_ifs
  · rfl
  · rfl
  · rfl
  · cases t.index.insert key with
    | none => rfl
    | some r =>
      obtain ⟨taken, index⟩ := r
      cases taken <;> rfl

theorem config_flushBack (t : FawnDSSFOrderedTrie) :
    ((overTries c.toLengths node ch).flushBack t).config = t.config := by
  simp only [overTries]
  rw [FawnDSSFOrderedTrie.flush]
  split_ifs
  · rfl
  · cases t.index.flush <;> rfl

theorem config_createBack (size : Nat) :
    ((overTries c.toLengths node ch).createBack size).config = node.config c.toLengths size := by
  simp only [overTries]
  rw [FawnDSSFOrderedTrie.create]
  split_ifs <;> rfl

theorem config_buildBack {size : Nat} {puts : List (Value × Value)} {b : FawnDSSFOrderedTrie}
    (h : buildBack (overTries c.toLengths node ch) size puts = some b) :
    b.config = node.config c.toLengths size := by
  have hfold : ∀ (puts : List (Value × Value)) (t t' : FawnDSSFOrderedTrie),
      puts.foldlM (assertPut (overTries c.toLengths node ch)) t = some t' → t'.config = t.config := by
    intro puts
    induction puts with
    | nil =>
      intro t t' h
      cases h
      rfl
    | cons e puts ih =>
      intro t t' h
      rw [List.foldlM_cons] at h
      obtain ⟨u, hu, hrest⟩ := Option.bind_eq_some_iff.mp h
      have hput : ((overTries c.toLengths node ch).putBack t e.1 e.2).2.config = t.config :=
        config_putBack t e.1 e.2
      rw [assertPut] at hu
      split at hu
      · rename_i t'' heq
        cases hu
        rw [heq] at hput
        exact (ih u t' hrest).trans hput
      · cases hu
  rw [buildBack] at h
  obtain ⟨t, ht, rfl⟩ := Option.map_eq_some_iff.mp h
  rw [config_flushBack, hfold puts _ t ht, config_createBack]

theorem length_of_scan {t : FawnDSSFOrderedTrie} (count i : Nat)
    (hok : (FawnDSSFOrderedTrie.scan t k 0 i count).1 = .ok) :
    ((FawnDSSFOrderedTrie.scan t k 0 i count).2.getD []).length = t.config.dataLen := by
  induction count generalizing i with
  | zero => cases hok
  | succ count ih =>
    rw [FawnDSSFOrderedTrie.scan] at hok ⊢
    cases hkey : FawnDSSFOrderedTrie.dataStoreGet t.dataStore i 0 t.config.keyLen with
    | mk ret retKey =>
      rw [hkey] at hok
      cases ret <;> simp only [reduceCtorEq] at hok ⊢
      split_ifs at hok ⊢
      · exact ih (i + 1) hok
      · cases hdata : FawnDSSFOrderedTrie.dataStoreGet t.dataStore i t.config.keyLen t.config.dataLen with
        | mk ret data =>
          rw [hdata] at hok
          cases ret <;> simp only [reduceCtorEq] at hok ⊢
          split_ifs at hok
          exact not_not.mp ‹_›

/-- The values of a trie have the configured length, whatever its index says. -/
theorem length_of_getBack {t : FawnDSSFOrderedTrie} (k : Value)
    (hok : ((overTries c.toLengths node ch).getBack t k).1 = .ok) :
    ((overTries c.toLengths node ch).getBack t k).2.length = t.config.dataLen := by
  simp only [overTries] at hok ⊢
  cases hget : FawnDSSFOrderedTrie.get t k 0 with
  | none =>
    rw [hget] at hok
    cases hok
  | some r =>
    rw [hget] at hok
    rw [FawnDSSFOrderedTrie.get] at hget
    split_ifs at hget
    · cases hget
      cases hok
    · cases hget
      cases hok
    · cases hget
      cases hok
    · obtain ⟨baseIdx, -, rfl⟩ := Option.map_eq_some_iff.mp hget
      exact length_of_scan _ _ hok

/-- In every state of a run the back store has the configured length of values. -/
theorem backs_run {ls : List Label}
    (hs : run (step c (overTries c.toLengths node ch) uninit) (create (overTries c.toLengths node ch)) ls =
      some s) : Backs (fun b => b.config.dataLen = c.dataLen) s := by
  refine run_invariant (fun u l v hstep h => ?_) hs ⟨(fun b hb => by cases hb), fun b n hb => by cases hb⟩
  by_cases hl : l = .mergeRun
  · subst hl
    unfold step at hstep
    split at hstep
    · cases hstep
    simp only [mergeRun] at hstep
    repeat' split at hstep
    all_goals try cases hstep
    · exact ⟨h.stage2, h.merged⟩
    · rename_i b hbuild
      refine ⟨h.stage2, fun b' n hb' => ?_⟩
      cases hb'
      rw [config_buildBack hbuild]
      rfl
    · exact ⟨h.stage2, h.merged⟩
    · exact ⟨h.stage2, h.merged⟩
  · exact backs_step hl hstep h

end Tries

section Agreement

variable {F M B : Type} {c : Config} {ch : Children F M B} {s : State F M B} {k : Value}

theorem get_eq (hk : k.length = c.keyLen) : get c ch s k = getLoop (answers ch s k) := by
  rw [get, if_neg (not_ne_iff.mpr hk.symm), answers, getLoop_append]

/-- `Contains` says yes when any store has a value. -/
theorem contains_ok_iff (hpos : 0 < c.keyLen) (hk : k.length = c.keyLen) :
    contains c ch s k = .ok ↔ ∃ r ∈ answers ch s k, r.1 = .ok := by
  let newer := s.stage0.map (fun p => ch.getFront p.2 k) ++ s.stage1.map fun m => ch.getMiddle m k
  have hcode : ∀ got, FawnDSSF.containsOf c.keyLen k got = if got.1 = .ok then .ok else .keyNotFound := by
    intro got
    rw [FawnDSSF.containsOf, if_neg (by omega), if_neg (fun h => h.2 hk.symm)]
    rfl
  have hrets : s.stage0.map (fun p => FawnDSSF.containsOf c.keyLen k (ch.getFront p.2 k)) ++
      s.stage1.map (fun m => FawnDSSF.containsOf c.keyLen k (ch.getMiddle m k)) =
      newer.map fun got => if got.1 = .ok then .ok else .keyNotFound := by
    simp only [newer, List.map_append, List.map_map, Function.comp_def, hcode]
  have hbacks : s.stage2.map (fun b => FawnDSSFOrderedTrie.containsOf (ch.getBack b k)) =
      (s.stage2.map fun b => ch.getBack b k).map Prod.fst := by
    rw [List.map_map]
    rfl
  rw [contains, if_neg (not_ne_iff.mpr hk.symm), hrets, hbacks, containsLoop_append, containsLoop_codes]
  · have hmem : (FawnDSReturn.ok ∈ newer.map fun got => if got.1 = .ok then .ok else .keyNotFound) ↔
        ∃ r ∈ newer, r.1 = .ok := by
      rw [List.mem_map]
      refine exists_congr fun r => and_congr_right fun _ => ?_
      by_cases hok : r.1 = .ok <;> simp [hok]
    rw [hmem, answers]
    constructor
    · rintro (⟨r, hr, hok⟩ | hok)
      · exact ⟨r, List.mem_append_left _ hr, hok⟩
      · exact ⟨_, List.mem_append_right _ (List.mem_singleton_self _), hok⟩
    · rintro ⟨r, hr, hok⟩
      rcases List.mem_append.mp hr with hr | hr
      · exact .inl ⟨r, hr, hok⟩
      · rw [List.mem_singleton] at hr
        exact .inr (hr ▸ hok)
  · intro ret hret
    obtain ⟨r, -, rfl⟩ := List.mem_map.mp hret
    split
    · exact .inl rfl
    · exact .inr rfl

/-- `Length` returns the code of `Get`, and the size of its value where the back store has values of the
configured length. -/
theorem length_get (hk : k.length = c.keyLen)
    (hback : ∀ b ∈ s.stage2, (ch.getBack b k).1 = .ok → (ch.getBack b k).2.length = c.dataLen) (len : Nat) :
    (length c ch s k len).1 = (get c ch s k).1 ∧
      ((get c ch s k).1 = .ok → (length c ch s k len).2 = (get c ch s k).2.length) := by
  let l : List ((FawnDSReturn × Value) × Nat) :=
    s.stage0.map (fun p => (ch.getFront p.2 k, (ch.getFront p.2 k).2.length)) ++
      s.stage1.map (fun m => (ch.getMiddle m k, (ch.getMiddle m k).2.length)) ++
      s.stage2.map fun b => (ch.getBack b k, c.dataLen)
  have hanswers : getLoop (l.map Prod.fst) = get c ch s k := by
    rw [get, if_neg (not_ne_iff.mpr hk.symm)]
    simp only [l, List.map_append, List.map_map, Function.comp_def]
  have hlengths : length c ch s k len = lengthLoop len (l.map fun e => (e.1.1, e.2)) := by
    rw [length, if_neg (not_ne_iff.mpr hk.symm)]
    simp only [l, List.map_append, List.map_map, Function.comp_def]
    rfl
  obtain ⟨n, heq, hmem⟩ := lengthLoop_eq (l := l) len
  rw [hanswers] at heq hmem
  rw [hlengths, heq]
  refine ⟨rfl, fun hok => ?_⟩
  rcases List.mem_append.mp (hmem hok) with hmem | hmem
  · rcases List.mem_append.mp hmem with hmem | hmem
    · obtain ⟨p, -, hp⟩ := List.mem_map.mp hmem
      rw [← (Prod.mk.inj hp).1]
      exact (Prod.mk.inj hp).2.symm
    · obtain ⟨m, -, hm⟩ := List.mem_map.mp hmem
      rw [← (Prod.mk.inj hm).1]
      exact (Prod.mk.inj hm).2.symm
  · obtain ⟨b, hb, heq'⟩ := List.mem_map.mp hmem
    obtain ⟨hget, hn⟩ := Prod.mk.inj heq'
    rw [← hget] at hok ⊢
    exact hn.symm.trans (hback b hb hok).symm

/-- In every state of a run over back stores that are tries, the three queries agree on a key exactly if no
answer of a store other than a value is above an older value of the key: `Contains` of a log does not stop at
a tombstone. -/
theorem queries_agree_iff (c : Config) (node : TrieNode) (ch : Children F M B) (uninit : Nat → UInt8)
    (hpos : 0 < c.keyLen) (ls : List Label) (s : State F M FawnDSSFOrderedTrie)
    (hs : run (step c (overTries c.toLengths node ch) uninit) (create (overTries c.toLengths node ch)) ls =
      some s) (k : Value) (hk : k.length = c.keyLen) :
    Agree c (overTries c.toLengths node ch) s k ↔ ¬Shadowed (answers (overTries c.toLengths node ch) s k) := by
  have hback : ∀ b ∈ s.stage2, ((overTries c.toLengths node ch).getBack b k).1 = .ok →
      ((overTries c.toLengths node ch).getBack b k).2.length = c.dataLen :=
    fun b hb hok => (length_of_getBack k hok).trans ((backs_run hs).stage2 b hb)
  have hcontains : contains c (overTries c.toLengths node ch) s k = .ok ↔ _ := contains_ok_iff hpos hk
  have hget : (getLoop (answers (overTries c.toLengths node ch) s k)).1 = .ok ↔ _ := getLoop_ok_iff
  rw [← get_eq hk] at hget
  constructor
  · intro hagree hshadow
    have hok := hagree.contains_iff.mp (hcontains.mpr (exists_ok_of_shadowed hshadow))
    exact (hget.mp hok).2 hshadow
  · intro hshadow
    refine ⟨?_, fun len => ?_, fun len => (length_get hk hback len).2⟩
    · rw [hcontains, hget]
      exact ⟨fun hok => ⟨hok, hshadow⟩, And.left⟩
    · rw [(length_get hk hback len).1]

/-- The stores of keys without data, with a trie behind them. -/
def keyStores : Children (FawnDSSF HashTableCuckoo.Seeded FileStore) Middle FawnDSSFOrderedTrie :=
  overTries keysOnly.toLengths smallNode keptStores

theorem keyStores_eq : keyStores = overTries keysOnly.toLengths smallNode
    (siltStores sweptTable keysOnly true (fun _ => 0) oneBucket oneBucketTags fun _ _ => 0) := by
  rw [keyStores, keptStores_eq]

/-- A key of the older of two front stores, and one that was deleted and has no older value. -/
theorem queries_agree_deleted : ∃ s,
    run (step keysOnly keyStores fun _ => 0) (create keyStores) (fiveKeys ++ [.delete [6, 0, 0, 0]]) = some s ∧
    (get keysOnly keyStores s [1, 0, 0, 0]).1 = .ok ∧ Agree keysOnly keyStores s [1, 0, 0, 0] ∧
    (get keysOnly keyStores s [6, 0, 0, 0]).1 = .keyDeleted ∧ Agree keysOnly keyStores s [6, 0, 0, 0] := by
  have hobserved : (run (step keysOnly keyStores fun _ => 0) (create keyStores)
      (fiveKeys ++ [.delete [6, 0, 0, 0]])).map (fun s =>
        ((get keysOnly keyStores s [1, 0, 0, 0]).1, decide (Shadowed (answers keyStores s [1, 0, 0, 0])),
          (get keysOnly keyStores s [6, 0, 0, 0]).1, decide (Shadowed (answers keyStores s [6, 0, 0, 0])))) =
      some (.ok, false, .keyDeleted, false) := by
    rw [keyStores_eq]
    decide +kernel
  obtain ⟨s, hs, heq⟩ := Option.map_eq_some_iff.mp hobserved
  simp only [Prod.mk.injEq, decide_eq_false_iff_not] at heq
  obtain ⟨hfound, hfree, hdeleted, hfree'⟩ := heq
  have hagree := queries_agree_iff keysOnly smallNode keptStores (fun _ => 0) (by decide) _ s hs
  exact ⟨s, hs, hfound, (hagree [1, 0, 0, 0] rfl).mpr hfree, hdeleted, (hagree [6, 0, 0, 0] rfl).mpr hfree'⟩

/-- A key of the first of two front stores is deleted in the second: `Contains` still returns `OK`. -/
theorem contains_deleted_key : ∃ s,
    run (step keysOnly keyStores fun _ => 0) (create keyStores) (fiveKeys ++ [.delete [1, 0, 0, 0]]) = some s ∧
    s.log.map Prod.snd = List.replicate 6 .ok ∧ contains keysOnly keyStores s [1, 0, 0, 0] = .ok ∧
    (get keysOnly keyStores s [1, 0, 0, 0]).1 = .keyDeleted ∧ ¬Agree keysOnly keyStores s [1, 0, 0, 0] := by
  have hobserved : (run (step keysOnly keyStores fun _ => 0) (create keyStores)
      (fiveKeys ++ [.delete [1, 0, 0, 0]])).map (fun s =>
        (s.log.map Prod.snd, contains keysOnly keyStores s [1, 0, 0, 0],
          (get keysOnly keyStores s [1, 0, 0, 0]).1)) = some (List.replicate 6 .ok, .ok, .keyDeleted) := by
    rw [keyStores_eq]
    decide +kernel
  obtain ⟨s, hs, heq⟩ := Option.map_eq_some_iff.mp hobserved
  simp only [Prod.mk.injEq] at heq
  obtain ⟨hlog, hcontains, hget⟩ := heq
  refine ⟨s, hs, hlog, hcontains, hget, fun hagree => ?_⟩
  have hok := hagree.contains_iff.mp hcontains
  rw [hget] at hok
  cases hok

end Agreement

end FawnDSCombi

end FawnKV.Silt
