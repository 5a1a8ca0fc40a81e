import FawnKV.Silt.KeptLog

/-! Calls of `FawnDS_Combi` that fail, and the conversions and merges after them. -/
namespace FawnKV.Silt.FawnDSCombi

open Transition
open HashTableCuckoo (Seeded)
open FawnDSSF (FrontInv TombMap)

/-- A middle store: of records reorganised for a table without offsets, or of a copied table and the
log that was kept. -/
inductive Middle where
  | tags (s : FawnDSSF TagTable FileStore)
  | offsets (s : FawnDSSF Seeded FileStore)

namespace Middle

variable (uninit : Nat → UInt8)

def get (key : Value) : Middle → Option (Except FawnDSReturn Value)
  | tags s => FawnDSSF.get TagTable.hashTable (FileStore.dataStore uninit) s key 0 FawnDSSF.maxLen
  | offsets s => FawnDSSF.get HashTableCuckoo.hashTable (FileStore.dataStore uninit) s key 0 FawnDSSF.maxLen

def records : Middle → Option (List Record)
  | tags s => FawnDSSF.records uninit s
  | offsets s => FawnDSSF.records uninit s

/-- `ConvertTo` of a front store, to a store just created. -/
def convert (c : Lengths) (keep : Bool) (t₀ : HashTableCuckoo) (n₀ : TagTable) (draws : Nat → Nat → Nat)
    (f : FawnDSSF Seeded FileStore) : Option (FawnDSReturn × Middle) :=
  if keep then
    let r := f.convertKeep (FawnDSSF.create c.keyLen c.dataLen ⟨t₀, draws⟩).store
    some (r.1, offsets r.2)
  else (f.convertTo uninit (FawnDSSF.create c.keyLen c.dataLen n₀).store).map fun r => (r.1, tags r.2)

end Middle

/-- The search ends with an answer other than `KEY_NOT_FOUND`, or with no data. -/
theorem getLoop_cases (rs : List (FawnDSReturn × Value)) :
    getLoop rs = (.keyNotFound, []) ∨ getLoop rs ∈ rs ∧ (getLoop rs).1 ≠ .keyNotFound := by
  induction rs with
  | nil => exact .inl rfl
  | cons r rs ih =>
    rw [getLoop]
    split
    · rename_i hcode
      exact .inr ⟨List.mem_cons_self, hcode⟩
    · exact ih.imp_right fun h => ⟨List.mem_cons_of_mem r h.1, h.2⟩

theorem entryOf_of_keyDeleted {r : FawnDSReturn × Value} (h : r.1 = .keyDeleted) : entryOf r = some none := by
  obtain ⟨code, v⟩ := r
  obtain rfl : code = .keyDeleted := h
  rfl

section Hidden

variable {F M B : Type} {c : Config} {ch : Children F M B} {uninit : Nat → UInt8}
  {s t : State F M B} {l : Label}
  {k : Value}

/-- What a middle store lists of a key and its `Get` does not find, a newer store hides. -/
structure Hides (c : Config) (ch : Children F M B) (s : State F M B) : Prop where
  converted : ∀ n, s.convertPc = .converted n → ∀ k, k.length = c.keyLen → Unseen ch k s.stage0.dropLast →
    entryOf (ch.getMiddle n k) = recordsEntry (ch.enumerateMiddle n) k
  listed : ∀ k, k.length = c.keyLen → Unseen ch k s.stage0 → Listed ch k s.stage1

theorem Listed.take {stores : List M} (h : Listed ch k stores) (n : Nat) : Listed ch k (stores.take n) := by
  induction stores generalizing n with
  | nil =>
    rw [List.take_nil]
    trivial
  | cons m stores ih =>
    cases n with
    | zero => trivial
    | succ n => exact ⟨h.1, fun hnone => ih (h.2 hnone) n⟩

/-- An entry of a front store stays when the store is written. -/
theorem unseen_front {a : Nat} {f f' : F} {rest : List (Nat × F)}
    (hback : entryOf (ch.getFront f' k) = none → entryOf (ch.getFront f k) = none)
    (h : Unseen ch k ((a, f') :: rest)) : Unseen ch k ((a, f) :: rest) := by
  intro p hp
  rcases List.mem_cons.mp hp with rfl | hp
  · exact hback (h (a, f') List.mem_cons_self)
  · exact h p (List.mem_cons_of_mem _ hp)

theorem unseen_dropLast_front {a : Nat} {f f' : F} {rest : List (Nat × F)}
    (hback : entryOf (ch.getFront f' k) = none → entryOf (ch.getFront f k) = none)
    (h : Unseen ch k ((a, f') :: rest).dropLast) : Unseen ch k ((a, f) :: rest).dropLast := by
  cases rest with
  | nil => exact nofun
  | cons p rest => exact unseen_front hback h

theorem FrontLaws.unseen_put {f : F} (h : FrontLaws c.toLengths ch f) {key v : Value}
    (hkey : key.length = c.keyLen)
    (hv : v.length = c.dataLen) (hk : k.length = c.keyLen)
    (hnone : entryOf (ch.getFront (ch.putFront f key v).2 k) = none) : entryOf (ch.getFront f k) = none := by
  by_cases hok : (ch.putFront f key v).1 = .ok
  · rw [h.put_ok key v hkey hv hok k hk] at hnone
    split at hnone
    · cases hnone
    · exact hnone
  · rw [← h.put_fail key v hkey hv hok k hk]
    exact hnone

theorem FrontLaws.unseen_delete {f : F} (h : FrontLaws c.toLengths ch f) {key : Value}
    (hkey : key.length = c.keyLen)
    (hk : k.length = c.keyLen) (hnone : entryOf (ch.getFront (ch.deleteFront f key).2 k) = none) :
    entryOf (ch.getFront f k) = none := by
  by_cases hok : (ch.deleteFront f key).1 = .ok ∨ (ch.deleteFront f key).1 = .keyNotFound
  · rw [h.delete_ok key hkey hok k hk] at hnone
    split at hnone
    · cases hnone
    · exact hnone
  · rw [← h.delete_fail key hkey hok k hk]
    exact hnone

/-- What the front stores of `s` hide, those of `t` hide. -/
theorem Hides.of_unseen (h : Hides c ch s) (h0 : ∀ k, k.length = c.keyLen → Unseen ch k t.stage0 →
    Unseen ch k s.stage0)
    (hlast : ∀ k, k.length = c.keyLen → Unseen ch k t.stage0.dropLast → Unseen ch k s.stage0.dropLast)
    (h1 : t.stage1 = s.stage1) (hpc : ∀ n, t.convertPc = .converted n → s.convertPc = .converted n) :
    Hides c ch t := by
  refine ⟨fun n hn k hk hunseen => h.converted n (hpc n hn) k hk (hlast k hk hunseen), fun k hk hunseen => ?_⟩
  rw [h1]
  exact h.listed k hk (h0 k hk hunseen)

theorem Hides.of_front (h : Hides c ch s) {a : Nat} {f f' : F} {rest : List (Nat × F)}
    (hs : s.stage0 = (a, f) :: rest) (ht : t.stage0 = (a, f') :: rest)
    (hback : ∀ k, k.length = c.keyLen → entryOf (ch.getFront f' k) = none → entryOf (ch.getFront f k) = none)
    (h1 : t.stage1 = s.stage1) (hpc : t.convertPc = s.convertPc) : Hides c ch t := by
  refine h.of_unseen (fun k hk hunseen => ?_) (fun k hk hunseen => ?_) h1 fun n hn => hpc ▸ hn
  · rw [ht] at hunseen
    rw [hs]
    exact unseen_front (hback k hk) hunseen
  · rw [ht] at hunseen
    rw [hs]
    exact unseen_dropLast_front (hback k hk) hunseen

/-- The converted store takes the place of the front store it was made from. -/
theorem Hides.of_swap (h : Hides c ch s) (hinv : Inv c ch uninit s) {n : M} (hpc : s.convertPc = .converted n)
    (h0 : t.stage0 = s.stage0.dropLast) (h1 : t.stage1 = n :: s.stage1) (hpc' : t.convertPc = .swapped) :
    Hides c ch t := by
  have hconvert := hinv.convert
  simp only [ConvertInv, hpc] at hconvert
  obtain ⟨-, -, -, p, hlast, hsame⟩ := hconvert
  obtain ⟨newer, hstage0⟩ := List.getLast?_eq_some_iff.mp hlast
  refine ⟨fun n' hn' => ?_, fun k hk hunseen => ?_⟩
  · rw [hpc'] at hn'
    cases hn'
  · rw [h0] at hunseen
    rw [h1]
    refine ⟨h.converted n hpc k hk hunseen, fun hnone => h.listed k hk ?_⟩
    rw [hstage0, List.dropLast_concat] at hunseen
    intro q hq
    rw [hstage0] at hq
    rcases List.mem_append.mp hq with hq | hq
    · exact hunseen q hq
    · rw [List.mem_singleton.mp hq, ← hsame k hk]
      exact hnone

/-- A step keeps what is hidden if the store it converts lists nothing that is not found or hidden. -/
theorem hides_step (hl : StageLaws c.toLengths ch s) (hinv : Inv c ch uninit s) (h : Hides c ch s)
    (hconvert : ∀ a f n, l = .convertRun → s.convertPc = .took a → s.stage0.lookup a = some f →
      ch.convertTo f = (.ok, n) → ∀ k, k.length = c.keyLen → Unseen ch k s.stage0.dropLast →
        entryOf (ch.getMiddle n k) = recordsEntry (ch.enumerateMiddle n) k)
    (hstep : step c ch uninit s l = some t) : Hides c ch t := by
  have hhead : ∀ {a f rest}, s.stage0 = (a, f) :: rest → FrontLaws c.toLengths ch f := by
    intro a f rest hs
    exact hl.front (a, f) (by rw [hs]; exact List.mem_cons_self)
  cases stageStep_of_step hstep with
  | kept hkeeps =>
    exact h.of_unseen (fun k _ hunseen => hkeeps.stage0 ▸ hunseen) (fun k _ hunseen => hkeeps.stage0 ▸ hunseen)
      hkeeps.stage1 hkeeps.converted
  | put a f rest call hcall hs h0 h1 hpc =>
    obtain ⟨hkey, hdata⟩ := hinv.calls call hcall
    exact h.of_front hs h0 (fun k hk => (hhead hs).unseen_put hkey hdata hk) h1 hpc
  | deleted a f rest key hkey hs h0 h1 hpc _ =>
    exact h.of_front hs h0 (fun k hk => (hhead hs).unseen_delete hkey hk) h1 hpc
  | created a hs h0 h1 hpc =>
    refine h.of_unseen (fun k _ hunseen => ?_) (fun k _ hunseen => ?_) h1 fun n hn => hpc ▸ hn
    · rw [h0] at hunseen
      exact fun p hp => hunseen p (List.mem_cons_of_mem _ hp)
    · rw [h0, List.dropLast_cons_of_ne_nil hs] at hunseen
      exact fun p hp => hunseen p (List.mem_cons_of_mem _ hp)
  | converted a f n hlabel htook hlookup hok h0 h1 hpc =>
    refine ⟨fun n' hn' k hk hunseen => ?_, fun k hk hunseen => ?_⟩
    · rw [hpc] at hn'
      cases hn'
      rw [h0] at hunseen
      exact hconvert a f n hlabel htook hlookup hok k hk hunseen
    · rw [h0] at hunseen
      rw [h1]
      exact h.listed k hk hunseen
  | swapped n hconverted h0 h1 hpc => exact h.of_swap hinv hconverted h0 h1 hpc
  | merged n h0 h1 hpc =>
    refine ⟨fun n' hn' k hk hunseen => ?_, fun k hk hunseen => ?_⟩
    · rw [h0] at hunseen
      exact h.converted n' (hpc ▸ hn') k hk hunseen
    · rw [h0] at hunseen
      rw [h1]
      exact (h.listed k hk hunseen).take n

end Hidden

section Tombstones

variable {F M B : Type} {c : Config} {ch : Children F M B} {uninit : Nat → UInt8} {s t : State F M B}
  {l : Label} {k : Value}

/-- The first store that has an entry of the key has a tombstone; back stores have none. -/
def Tombstone (ch : Children F M B) (s : State F M B) (k : Value) : Prop :=
  (s.stage0.findSome? fun p => entryOf (ch.getFront p.2 k)).or
    (s.stage1.findSome? fun m => entryOf (ch.getMiddle m k)) = some none

theorem entryOf_eq_tombstone {r : FawnDSReturn × Value} : entryOf r = some none ↔ r.1 = .keyDeleted := by
  obtain ⟨code, v⟩ := r
  cases code <;> simp [entryOf]

theorem get_keyDeleted_iff (hl : StageLaws c.toLengths ch s) (h : Inv c ch uninit s)
    (hk : k.length = c.keyLen) : (get c ch s k).1 = .keyDeleted ↔ Tombstone ch s k := by
  have hback : s.stage2.findSome? (fun b => entryOf (ch.getBack b k)) ≠ some none := by
    intro hnone
    obtain ⟨b, hb, hentry⟩ := List.exists_of_findSome?_eq_some hnone
    obtain ⟨puts, hholds⟩ := h.back b hb
    rw [hholds.get k hk] at hentry
    cases hlookup : puts.lookup k <;> simp [hlookup] at hentry
  rw [← entryOf_eq_tombstone, get, if_neg (not_ne_iff.mpr hk.symm), entryOf_getLoop _ (answered_of_mem hl h hk),
    List.findSome?_append, List.findSome?_append, List.findSome?_map, List.findSome?_map, List.findSome?_map,
    Tombstone, Option.or_eq_some_iff]
  simp only [Function.comp_def, hback, and_false, or_false]

theorem tombstone_front {a : Nat} {f f' : F} {rest : List (Nat × F)} (hs : s.stage0 = (a, f) :: rest)
    (ht : t.stage0 = (a, f') :: rest) (h1 : t.stage1 = s.stage1)
    (hentry : entryOf (ch.getFront f' k) = entryOf (ch.getFront f k) ∨
      ∃ v, entryOf (ch.getFront f' k) = some (some v)) (h : Tombstone ch t k) : Tombstone ch s k := by
  rw [Tombstone, ht, h1, List.findSome?_cons] at h
  rw [Tombstone, hs, List.findSome?_cons]
  rcases hentry with hsame | ⟨v, hv⟩
  · rw [← hsame]
    exact h
  · rw [hv] at h
    cases h

/-- A step that returns no call with `OK` brings no tombstone to light. -/
theorem tombstone_of_step (hmade : MadeLaws c.toLengths ch) (hl : StageLaws c.toLengths ch s)
    (hinv : Inv c ch uninit s) (hstep : step c ch uninit s l = some t)
    (hfails : ∀ op ret, t.log = s.log ++ [(op, ret)] → ret ≠ .ok) (hk : k.length = c.keyLen)
    (h : Tombstone ch t k) : Tombstone ch s k := by
  have hhead : ∀ {a f rest}, s.stage0 = (a, f) :: rest → FrontLaws c.toLengths ch f := by
    intro a f rest hs
    exact hl.front (a, f) (by rw [hs]; exact List.mem_cons_self)
  cases stageStep_of_step hstep with
  | kept hkeeps =>
    rw [Tombstone, hkeeps.stage0, hkeeps.stage1] at h
    exact h
  | put a f rest call hcall hs h0 h1 _ =>
    obtain ⟨hkey, hdata⟩ := hinv.calls call hcall
    refine tombstone_front hs h0 h1 ?_ h
    by_cases hok : (ch.putFront f call.key call.data).1 = .ok
    · rw [(hhead hs).put_ok call.key call.data hkey hdata hok k hk]
      split
      · exact .inr ⟨_, rfl⟩
      · exact .inl rfl
    · exact .inl ((hhead hs).put_fail call.key call.data hkey hdata hok k hk)
  | deleted a f rest key hkey hs h0 h1 _ hlog =>
    refine tombstone_front hs h0 h1 (.inl ?_) h
    refine (hhead hs).delete_fail key hkey (fun hok => hfails _ _ hlog ?_) k hk
    exact if_pos hok
  | created a hs h0 h1 _ =>
    rw [Tombstone, h0, h1, List.findSome?_cons, hmade.create_front k hk] at h
    exact h
  | converted a f n _ _ _ _ h0 h1 _ =>
    rw [Tombstone, h0, h1] at h
    exact h
  | swapped n hpc h0 h1 _ =>
    have hconvert := hinv.convert
    simp only [ConvertInv, hpc] at hconvert
    obtain ⟨-, -, -, p, hlast, hsame⟩ := hconvert
    obtain ⟨newer, hstage0⟩ := List.getLast?_eq_some_iff.mp hlast
    rw [Tombstone, h0, h1, hstage0, List.dropLast_concat, List.findSome?_cons, hsame k hk] at h
    rw [Tombstone, hstage0, List.findSome?_append, List.findSome?_cons, List.findSome?_nil, Option.or_assoc]
    cases hp : entryOf (ch.getFront p.2 k) <;> simpa [hp] using h
  | merged n h0 h1 _ =>
    rw [Tombstone, h0, h1] at h
    rw [Tombstone]
    rcases Option.or_eq_some_iff.mp h with hfront | ⟨hnone, hmiddle⟩
    · rw [hfront, Option.some_or]
    · rw [hnone, Option.none_or, ← List.take_append_drop n s.stage1, List.findSome?_append, hmiddle,
        Option.some_or]

end Tombstones

section Stores

variable {B : Type} {c : Config} {keep : Bool} {uninit : Nat → UInt8} {t₀ : HashTableCuckoo} {n₀ : TagTable}
  {draws : Nat → Nat → Nat} {ch : Children (FawnDSSF Seeded FileStore) Middle B} {f : FawnDSSF Seeded FileStore}
  {m : TombMap} {k v : Value}

/-- The front stores are logs with a table with offsets, the calls of the middle stores return what those
of the stores they are do, and the back store is a sorted map. -/
structure SiltStores (c : Config) (keep : Bool) (uninit : Nat → UInt8) (t₀ : HashTableCuckoo) (n₀ : TagTable)
    (draws : Nat → Nat → Nat) (ch : Children (FawnDSSF Seeded FileStore) Middle B) : Prop where
  fronts : FrontStores c HashTableCuckoo.hashTable uninit ⟨t₀, draws⟩ ch
  convertTo : ∀ f r, Middle.convert uninit c.toLengths keep t₀ n₀ draws f = some r → ch.convertTo f = r
  getMiddle : ∀ n key r, Middle.get uninit key n = some r → ch.getMiddle n key = codeAndData r
  enumerateMiddle : ∀ n recs, Middle.records uninit n = some recs → ch.enumerateMiddle n = recs
  buildBack : ∀ size puts, (puts.Pairwise fun x y => x.1 < y.1) →
    (∀ e ∈ puts, e.1.length = c.keyLen ∧ e.2.length = c.dataLen) →
    ∃ b, buildBack ch size puts = some b ∧ BackHolds c.toLengths ch b puts

theorem codeAndData_answer (e : Option (Option Value)) : codeAndData (FawnDSSF.answer e) = answer e := by
  rcases e with _ | _ | v <;> rfl

variable (hch : SiltStores c keep uninit t₀ n₀ draws ch) (hfour : 4 ≤ c.keyLen)
include hch hfour

theorem getFront_eq (h : FrontInv uninit c.toLengths t₀ f m) (hk : k.length = c.keyLen) :
    ch.getFront f k = answer (m k) := by
  rw [hch.fronts.getFront f k _ (h.get hfour hk), codeAndData_answer]

theorem frontInv_putFront (h : FrontInv uninit c.toLengths t₀ f m) (hid : f.dataStore.nextAppendId < 2 ^ 31)
    (hk : k.length = c.keyLen) (hv : v.length = c.dataLen) :
    FrontInv uninit c.toLengths t₀ (ch.putFront f k v).2 ((FawnDSSF.Op.put k v).apply m
      (ch.putFront f k v).1) := by
  obtain ⟨padding, hlaw⟩ := hch.fronts.putFront f k v
  obtain ⟨ret, f', hput, hinv⟩ := h.put hfour hid hk hv padding
  rw [hlaw _ hput]
  exact hinv

theorem frontInv_deleteFront (h : FrontInv uninit c.toLengths t₀ f m) (hid : f.dataStore.nextAppendId < 2 ^ 31)
    (hk : k.length = c.keyLen) :
    FrontInv uninit c.toLengths t₀ (ch.deleteFront f k).2
      ((FawnDSSF.Op.delete k).apply m (ch.deleteFront f k).1) := by
  obtain ⟨padding, hlaw⟩ := hch.fronts.deleteFront f k
  obtain ⟨ret, f', hdelete, hinv⟩ := h.delete hfour hid hk padding
  rw [hlaw _ hdelete]
  exact hinv

theorem madeLaws (hinv : HashTableCuckoo.Inv ⟨t₀, []⟩) : MadeLaws c.toLengths ch := by
  refine ⟨fun k hk => ?_, hch.buildBack⟩
  rw [hch.fronts.createFront, getFront_eq hch hfour (FawnDSSF.frontInv_create uninit c.toLengths draws hinv) hk]
  rfl

/-- What a conversion makes of a front store with this map. -/
structure Converted (c : Lengths) (keep : Bool) (uninit : Nat → UInt8)
    (ch : Children (FawnDSSF Seeded FileStore) Middle B) (f : FawnDSSF Seeded FileStore) (m : TombMap)
    (n : Middle) : Prop where
  get : ∀ k, k.length = c.keyLen → ch.getMiddle n k = answer (m k)
  wellFormed : ∀ r ∈ ch.enumerateMiddle n, MergeTask.WellFormed c r
  found : ∀ k, m k ≠ none → recordsEntry (ch.enumerateMiddle n) k = m k
  listed : keep = false → ∀ k, recordsEntry (ch.enumerateMiddle n) k = m k
  log : keep = true → FawnDSSF.records uninit f = some (ch.enumerateMiddle n)

theorem convertTo_spec (hconfig : keep = true ∨ c.dataLen ≠ 0) (hn : n₀.maxIndex = t₀.maxIndex)
    (h : FrontInv uninit c.toLengths t₀ f m) :
    ∃ n, ch.convertTo f = (.ok, n) ∧ Converted c.toLengths keep uninit ch f m n := by
  have hkeyLen : c.keyLen ≠ 0 := by omega
  cases keep with
  | true =>
    obtain ⟨n, hconvert, hlen, htable, hstore⟩ := h.convertKeep draws
    obtain ⟨recs, hlog, hrecs, hwf, hfound⟩ := h.kept_lists hkeyLen hlen hstore
    have henum : ch.enumerateMiddle (.offsets n) = recs := hch.enumerateMiddle (.offsets n) recs hrecs
    refine ⟨.offsets n, hch.convertTo f _ ?_, ?_, ?_, ?_, nofun, fun _ => ?_⟩
    · rw [Middle.convert, if_pos rfl, hconvert]
    · intro k hk
      have hget : FawnDSSF.get HashTableCuckoo.hashTable (FileStore.dataStore uninit) n k 0 FawnDSSF.maxLen =
          FawnDSSF.get HashTableCuckoo.hashTable (FileStore.dataStore uninit) f k 0 FawnDSSF.maxLen :=
        FawnDSSF.get_of_table_eq (hlen.trans h.keyLen.symm) htable hstore k 0 FawnDSSF.maxLen
      rw [h.get hfour hk] at hget
      rw [hch.getMiddle (.offsets n) k _ hget, codeAndData_answer]
    · rw [henum]
      exact hwf
    · rw [henum]
      exact hfound
    · rw [henum]
      exact hlog
  | false =>
    have hdataLen : c.dataLen ≠ 0 := hconfig.resolve_left Bool.false_ne_true
    obtain ⟨n, hconvert, hget, recs, hrecs, hlists⟩ := h.reorganized hkeyLen hdataLen hn
    have henum : ch.enumerateMiddle (.tags n) = recs := hch.enumerateMiddle (.tags n) recs hrecs
    refine ⟨.tags n, hch.convertTo f _ ?_, ?_, ?_, ?_, fun _ => ?_, nofun⟩
    · rw [Middle.convert, if_neg Bool.false_ne_true, hconvert, Option.map_some]
    · intro k hk
      have hsame := hget k 0 FawnDSSF.maxLen
      rw [h.get hfour hk] at hsame
      rw [hch.getMiddle (.tags n) k _ hsame, codeAndData_answer]
    · rw [henum]
      exact hlists.wellFormed
    · rw [henum]
      exact fun k _ => hlists.entry k
    · rw [henum]
      exact hlists.entry

theorem frontLaws (hconfig : keep = true ∨ c.dataLen ≠ 0) (hn : n₀.maxIndex = t₀.maxIndex)
    (h : FrontInv uninit c.toLengths t₀ f m) (hid : f.dataStore.nextAppendId < 2 ^ 31) :
    FrontLaws c.toLengths ch f := by
  obtain ⟨n, hconvert, hconverted⟩ := convertTo_spec hch hfour hconfig hn h
  refine ⟨?_, ?_, ?_, ?_, ?_, ?_, ?_⟩
  · intro k hk
    rw [getFront_eq hch hfour h hk]
    exact answered_answer _
  · intro k v hk hv hok k' hk'
    rw [getFront_eq hch hfour (frontInv_putFront hch hfour h hid hk hv) hk', getFront_eq hch hfour h hk',
      entryOf_answer, entryOf_answer, hok, FawnDSSF.Op.apply, if_pos rfl, Function.update_apply]
  · intro k v hk hv hfail k' hk'
    rw [getFront_eq hch hfour (frontInv_putFront hch hfour h hid hk hv) hk', getFront_eq hch hfour h hk',
      FawnDSSF.Op.apply, if_neg hfail]
  · intro k hk hok k' hk'
    rw [getFront_eq hch hfour (frontInv_deleteFront hch hfour h hid hk) hk', getFront_eq hch hfour h hk',
      entryOf_answer, entryOf_answer, FawnDSSF.Op.apply, if_pos hok, Function.update_apply]
  · intro k hk hfail k' hk'
    rw [getFront_eq hch hfour (frontInv_deleteFront hch hfour h hid hk) hk', getFront_eq hch hfour h hk',
      FawnDSSF.Op.apply, if_neg hfail]
  · rw [hconvert]
  · intro k hk
    rw [hconvert, hconverted.get k hk, getFront_eq hch hfour h hk]

end Stores

section Runs

variable {B : Type} {c : Config} {keep : Bool} {uninit : Nat → UInt8} {t₀ : HashTableCuckoo} {n₀ : TagTable}
  {draws : Nat → Nat → Nat} {ch : Children (FawnDSSF Seeded FileStore) Middle B}
  {s t : State (FawnDSSF Seeded FileStore) Middle B} {l : Label} {k : Value}

/-- The front store that the step converts. -/
def State.converting {F M B : Type} (s : State F M B) (l : Label) : Option F :=
  match l, s.convertPc with
  | .convertRun, .took a => s.stage0.lookup a
  | _, _ => none

/-- Every record in the log of a front store whose key `Get` does not find there has its key in a newer
front store. -/
def LogHidden (uninit : Nat → UInt8) (ch : Children (FawnDSSF Seeded FileStore) Middle B)
    (s : State (FawnDSSF Seeded FileStore) Middle B) (f : FawnDSSF Seeded FileStore) : Prop :=
  ∀ recs ∈ FawnDSSF.records uninit f, ∀ r ∈ recs, (ch.getFront f r.key).1 = .keyNotFound →
    ∃ p ∈ s.stage0.dropLast, (ch.getFront p.2 r.key).1 ≠ .keyNotFound

/-- The log of no front store gets `2 ^ 31` long, and a conversion that keeps the log has nothing in it
that would come to light. -/
structure Safe (c : Config) (keep : Bool) (uninit : Nat → UInt8)
    (ch : Children (FawnDSSF Seeded FileStore) Middle B) (s : State (FawnDSSF Seeded FileStore) Middle B)
    (l : Label) : Prop where
  ids : ∀ t ∈ step c ch uninit s l, FrontIdsBelow t
  hidden : keep = true → ∀ f ∈ s.converting l, LogHidden uninit ch s f

instance (s : State (FawnDSSF Seeded FileStore) Middle B) (f : FawnDSSF Seeded FileStore) :
    Decidable (LogHidden uninit ch s f) :=
  inferInstanceAs (Decidable (∀ recs ∈ FawnDSSF.records uninit f, ∀ r ∈ recs,
    (ch.getFront f r.key).1 = .keyNotFound → ∃ p ∈ s.stage0.dropLast, (ch.getFront p.2 r.key).1 ≠ .keyNotFound))

instance (s : State (FawnDSSF Seeded FileStore) Middle B) : Decidable (FrontIdsBelow s) :=
  inferInstanceAs (Decidable (∀ f ∈ s.fronts, f.dataStore.nextAppendId < 2 ^ 31))

instance (s : State (FawnDSSF Seeded FileStore) Middle B) (l : Label) :
    Decidable (Safe c keep uninit ch s l) :=
  decidable_of_iff ((∀ t ∈ step c ch uninit s l, FrontIdsBelow t) ∧
    (keep = true → ∀ f ∈ s.converting l, LogHidden uninit ch s f))
    ⟨fun h => ⟨h.1, h.2⟩, fun h => ⟨h.ids, h.hidden⟩⟩

structure MiddleInv (c : Config) (keep : Bool) (ch : Children
  (FawnDSSF Seeded FileStore) Middle B) (n : Middle) :
    Prop where
  laws : MiddleLaws c.toLengths ch n
  listed : keep = false → ∀ k, k.length = c.keyLen →
    entryOf (ch.getMiddle n k) = recordsEntry (ch.enumerateMiddle n) k
  noTombstone : c.dataLen ≠ 0 → ∀ k, k.length = c.keyLen → entryOf (ch.getMiddle n k) ≠ some none

/-- What holds in every state of a safe run. -/
structure SiltInv (c : Config) (keep : Bool) (uninit : Nat → UInt8) (t₀ : HashTableCuckoo)
    (ch : Children (FawnDSSF Seeded FileStore) Middle B) (s : State (FawnDSSF Seeded FileStore) Middle B) :
    Prop where
  inv : Inv c ch uninit s
  ids : FrontIdsBelow s
  fronts : ∀ f ∈ s.fronts, ∃ m, FrontInv uninit c.toLengths t₀ f m
  middles : ∀ n ∈ s.stage1, MiddleInv c keep ch n
  converted : ∀ n, s.convertPc = .converted n → MiddleInv c keep ch n
  hides : Hides c ch s

theorem middleInv_of_converted {f : FawnDSSF Seeded FileStore} {m : TombMap} {n : Middle}
    (hm : FrontInv uninit c.toLengths t₀ f m) (h : Converted c.toLengths keep uninit ch f m n) :
    MiddleInv c keep ch n := by
  refine ⟨⟨fun k hk => ?_, h.wellFormed⟩, fun hkeep k hk => ?_, fun hne k hk => ?_⟩
  · rw [h.get k hk]
    exact answered_answer _
  · rw [h.get k hk, entryOf_answer]
    exact (h.listed hkeep k).symm
  · rw [h.get k hk, entryOf_answer]
    exact hm.noTombstone hne k

variable (hch : SiltStores c keep uninit t₀ n₀ draws ch)
include hch

theorem siltInv_create (hinv : HashTableCuckoo.Inv ⟨t₀, []⟩) (hmade : MadeLaws c.toLengths ch) :
    SiltInv c keep uninit t₀ ch (create ch) := by
  have hcreate : ∀ f ∈ (create ch).fronts, f = (FawnDSSF.create c.keyLen c.dataLen ⟨t₀, draws⟩).store := by
    intro f hf
    rw [← hch.fronts.createFront]
    simpa [State.fronts, create] using hf
  refine ⟨create_inv hmade, fun f hf => ?_, fun f hf => ?_, fun n hn => ?_, fun n hn => ?_, fun n hn => ?_,
    fun _ _ _ => trivial⟩
  · rw [hcreate f hf]
    exact Nat.two_pow_pos 31
  · rw [hcreate f hf]
    exact ⟨_, FawnDSSF.frontInv_create uninit c.toLengths draws hinv⟩
  · cases hn
  · cases hn
  · cases hn

variable (hfour : 4 ≤ c.keyLen)
include hfour

theorem SiltInv.fronts_step (h : SiltInv c keep uninit t₀ ch s) (hinv : HashTableCuckoo.Inv ⟨t₀, []⟩)
    (hstep : step c ch uninit s l = some t) : ∀ f ∈ t.fronts, ∃ m, FrontInv uninit c.toLengths t₀ f m := by
  intro f hf
  cases fromFront_step hstep f hf with
  | kept hmem => exact h.fronts f hmem
  | created heq =>
    rw [heq, hch.fronts.createFront]
    exact ⟨_, FawnDSSF.frontInv_create uninit c.toLengths draws hinv⟩
  | put g call hmem hcall heq =>
    obtain ⟨m, hm⟩ := h.fronts g hmem
    obtain ⟨hkey, hdata⟩ := h.inv.calls call hcall
    rw [heq]
    exact ⟨_, frontInv_putFront hch hfour hm (h.ids g hmem) hkey hdata⟩
  | deleted g key hmem hkey heq =>
    obtain ⟨m, hm⟩ := h.fronts g hmem
    rw [heq]
    exact ⟨_, frontInv_deleteFront hch hfour hm (h.ids g hmem) hkey⟩

/-- With data of some length no key has a tombstone. -/
theorem SiltInv.get_ne_keyDeleted (h : SiltInv c keep uninit t₀ ch s) (hdataLen : c.dataLen ≠ 0)
    (hk : k.length = c.keyLen) : (get c ch s k).1 ≠ .keyDeleted := by
  have hnone : ∀ r ∈ s.stage0.map (fun p => ch.getFront p.2 k) ++ s.stage1.map (fun n => ch.getMiddle n k) ++
      s.stage2.map (fun b => ch.getBack b k), entryOf r ≠ some none := by
    intro r hr
    rcases List.mem_append.mp hr with hr | hr
    · rcases List.mem_append.mp hr with hr | hr
      · obtain ⟨p, hp, rfl⟩ := List.mem_map.mp hr
        obtain ⟨m, hm⟩ := h.fronts p.2 (List.mem_map_of_mem hp)
        rw [getFront_eq hch hfour hm hk, entryOf_answer]
        exact hm.noTombstone hdataLen k
      · obtain ⟨n, hn, rfl⟩ := List.mem_map.mp hr
        exact (h.middles n hn).noTombstone hdataLen k hk
    · obtain ⟨b, hb, rfl⟩ := List.mem_map.mp hr
      obtain ⟨puts, hholds⟩ := h.inv.back b hb
      rw [hholds.get k hk]
      cases puts.lookup k <;> exact nofun
  intro hcode
  rw [get, if_neg (not_ne_iff.mpr hk.symm)] at hcode
  rcases getLoop_cases _ with hloop | ⟨hmem, -⟩
  · rw [hloop] at hcode
    cases hcode
  · exact hnone _ hmem (entryOf_of_keyDeleted hcode)

variable (hconfig : keep = true ∨ c.dataLen ≠ 0) (hindex : n₀.maxIndex = t₀.maxIndex)
include hconfig hindex

theorem SiltInv.stages (h : SiltInv c keep uninit t₀ ch s) : StageLaws c.toLengths ch s := by
  refine ⟨fun p hp => ?_, fun n hn => (h.middles n hn).laws, h.hides.listed⟩
  have hmem : p.2 ∈ s.fronts := List.mem_map_of_mem hp
  obtain ⟨m, hm⟩ := h.fronts p.2 hmem
  exact frontLaws hch hfour hconfig hindex hm (h.ids p.2 hmem)

/-- What a converted store lists and does not find was not found before the conversion either. -/
theorem listed_of_converted (h : SiltInv c keep uninit t₀ ch s) {f : FawnDSSF Seeded FileStore} {m : TombMap}
    {n : Middle} (hm : FrontInv uninit c.toLengths t₀ f m) (hn : Converted c.toLengths keep uninit ch f m n)
    (hhidden : keep = true → LogHidden uninit ch s f) (hk : k.length = c.keyLen)
    (hunseen : Unseen ch k s.stage0.dropLast) :
    entryOf (ch.getMiddle n k) = recordsEntry (ch.enumerateMiddle n) k := by
  rw [hn.get k hk, entryOf_answer]
  cases hkeep : keep with
  | false => exact (hn.listed hkeep k).symm
  | true =>
    by_cases hfound : m k = none
    · rw [hfound]
      refine (FawnDSSF.recordsEntry_eq_none fun r hr heq => ?_).symm
      subst heq
      have hcode : (ch.getFront f r.key).1 = .keyNotFound := by
        rw [getFront_eq hch hfour hm hk, hfound]
        rfl
      obtain ⟨p, hp, hseen⟩ := hhidden hkeep _ (hn.log hkeep) r hr hcode
      have hmem : p ∈ s.stage0 := List.dropLast_subset _ hp
      have hanswered := ((h.stages hch hfour hconfig hindex).front p hmem).answered r.key hk
      exact hseen ((entryOf_eq_none hanswered).mp (hunseen p hp))
    · exact (hn.found k hfound).symm

/-- The front store that a conversion works on, and what it makes of it. -/
theorem SiltInv.converts (h : SiltInv c keep uninit t₀ ch s) {a : Nat}
    {f : FawnDSSF Seeded FileStore} {n : Middle}
    (hlookup : s.stage0.lookup a = some f) (hconvert : ch.convertTo f = (.ok, n)) :
    ∃ m, FrontInv uninit c.toLengths t₀ f m ∧ Converted c.toLengths keep uninit ch f m n := by
  obtain ⟨newer, older, hstage0, -⟩ := List.lookup_eq_some_iff.mp hlookup
  have hmem : f ∈ s.fronts := by
    rw [State.fronts, hstage0]
    exact List.mem_map_of_mem (List.mem_append_right newer List.mem_cons_self)
  obtain ⟨m, hm⟩ := h.fronts f hmem
  obtain ⟨n', hn', hconverted⟩ := convertTo_spec hch hfour hconfig hindex hm
  rw [hconvert] at hn'
  cases hn'
  exact ⟨m, hm, hconverted⟩

theorem siltInv_step (hinv : HashTableCuckoo.Inv ⟨t₀, []⟩) (hmade : MadeLaws c.toLengths ch)
    (hstep : step c ch uninit s l = some t) (hsafe : Safe c keep uninit ch s l)
      (h : SiltInv c keep uninit t₀ ch s) :
    SiltInv c keep uninit t₀ ch t := by
  have hl := h.stages hch hfour hconfig hindex
  have hhides : Hides c ch t := by
    refine hides_step hl h.inv h.hides (fun a f n hlabel htook hlookup hok k hk hunseen => ?_) hstep
    obtain ⟨m, hm, hn⟩ := h.converts hch hfour hconfig hindex hlookup hok
    have hconverting : f ∈ s.converting l := by
      simp only [hlabel, State.converting, htook]
      exact hlookup
    exact listed_of_converted hch hfour hconfig hindex h hm hn
      (fun hkeep => hsafe.hidden hkeep f hconverting) hk
      hunseen
  have hmiddles : (∀ n ∈ t.stage1, MiddleInv c keep ch n) ∧ ∀ n, t.convertPc = .converted n →
      MiddleInv c keep ch n := by
    cases stageStep_of_step hstep with
    | kept hkeeps => exact ⟨hkeeps.stage1 ▸ h.middles, fun n hn => h.converted n (hkeeps.converted n hn)⟩
    | put _ _ _ _ _ _ _ h1 hpc => exact ⟨h1 ▸ h.middles, hpc ▸ h.converted⟩
    | deleted _ _ _ _ _ _ _ h1 hpc _ => exact ⟨h1 ▸ h.middles, hpc ▸ h.converted⟩
    | created _ _ _ h1 hpc => exact ⟨h1 ▸ h.middles, hpc ▸ h.converted⟩
    | converted a f n _ _ hlookup hok _ h1 hpc =>
      obtain ⟨m, hm, hn⟩ := h.converts hch hfour hconfig hindex hlookup hok
      refine ⟨h1 ▸ h.middles, fun n' hn' => ?_⟩
      rw [hpc] at hn'
      cases hn'
      exact middleInv_of_converted hm hn
    | swapped n hconverted _ h1 hpc =>
      refine ⟨fun n' hn' => ?_, fun n' hn' => ?_⟩
      · rw [h1] at hn'
        rcases List.mem_cons.mp hn' with rfl | hn'
        · exact h.converted n' hconverted
        · exact h.middles n' hn'
      · rw [hpc] at hn'
        cases hn'
    | merged _ _ h1 hpc =>
      refine ⟨fun n hn => h.middles n ?_, hpc ▸ h.converted⟩
      rw [h1] at hn
      exact List.mem_of_mem_take hn
  exact ⟨step_inv hmade hl h.inv hstep, hsafe.ids t hstep, h.fronts_step hch hfour hinv hstep,
    hmiddles.1, hmiddles.2, hhides⟩

theorem siltInv_run (hinv : HashTableCuckoo.Inv ⟨t₀, []⟩) {labels : List Label}
    (hrun : run (step c ch uninit) s labels = some t)
    (hsafe : Meets (step c ch uninit) (Safe c keep uninit ch) s labels) (h : SiltInv c keep uninit t₀ ch s) :
    SiltInv c keep uninit t₀ ch t :=
  run_invariant_of_meets
    (fun _ _ _ => siltInv_step hch hfour hconfig hindex hinv (madeLaws hch hfour hinv)) hrun hsafe h

/-- Nor does a run of which no call returns `OK`. -/
theorem tombstone_of_run (hinv : HashTableCuckoo.Inv ⟨t₀, []⟩) {labels : List Label}
    (hrun : run (step c ch uninit) s labels = some t)
    (hsafe : Meets (step c ch uninit) (Safe c keep uninit ch) s labels) (h : SiltInv c keep uninit t₀ ch s) :
    ∃ new, t.log = s.log ++ new ∧ ((∀ e ∈ new, e.2 ≠ .ok) →
      ∀ k, k.length = c.keyLen → Tombstone ch t k → Tombstone ch s k) := by
  have hmade := madeLaws hch hfour hinv
  induction labels generalizing s with
  | nil =>
    cases hrun
    exact ⟨[], (List.append_nil _).symm, fun _ _ _ => id⟩
  | cons l labels ih =>
    obtain ⟨u, hstep, hrest⟩ := run_cons_eq_some.mp hrun
    obtain ⟨first, hfirst⟩ := log_append hstep
    obtain ⟨new, hnew, hback⟩ := ih hrest (hsafe.2 u hstep)
      (siltInv_step hch hfour hconfig hindex hinv hmade hstep hsafe.1 h)
    refine ⟨first ++ new, by rw [hnew, hfirst, List.append_assoc], fun hfails k hk htomb => ?_⟩
    have hlater := hback (fun e he => hfails e (List.mem_append_right first he)) k hk htomb
    refine tombstone_of_step hmade (h.stages hch hfour hconfig hindex) h.inv hstep (fun op ret hlog => ?_) hk
      hlater
    rw [hfirst, List.append_cancel_left_eq] at hlog
    exact hfails (op, ret) (by rw [hlog]; simp)

/-- Two states whose calls that returned `OK` are the same give the same answer where neither has a
tombstone. -/
theorem get_eq_of_lastOk (hs : SiltInv c keep uninit t₀ ch s) (ht : SiltInv c keep uninit t₀ ch t)
    (hlog : lastOk t.log k = lastOk s.log k) (hbefore : (get c ch s k).1 ≠ .keyDeleted)
    (hafter : (get c ch t k).1 ≠ .keyDeleted) : get c ch t k = get c ch s k := by
  by_cases hk : k.length = c.keyLen
  · have hs' := get_answers (hs.stages hch hfour hconfig hindex) hs.inv hk
    have ht' := get_answers (ht.stages hch hfour hconfig hindex) ht.inv hk
    rw [hlog] at ht'
    cases hvalue : lastOk s.log k with
    | some v =>
      rw [hvalue] at hs' ht'
      exact Eq.trans ht' hs'.symm
    | none =>
      rw [hvalue] at hs' ht'
      have hnotFound : ∀ u, Answers (get c ch u k) none → (get c ch u k).1 ≠ .keyDeleted →
          get c ch u k = (.keyNotFound, []) := by
        intro u hans hne
        have hcode := Or.resolve_left hans hne
        rw [get, if_neg (not_ne_iff.mpr hk.symm)] at hcode ⊢
        exact (getLoop_cases _).resolve_right fun hfound => hfound.2 hcode
      rw [hnotFound t ht' hafter, hnotFound s hs' hbefore]
  · rw [get, get, if_pos (Ne.symm hk), if_pos (Ne.symm hk)]

end Runs

/-- The two tables of one size. -/
theorem created_tables {size : Int} {t₀ : HashTableCuckoo} {n₀ : TagTable} (hsize : 4 ≤ size)
    (htable : HashTableCuckoo.create size = .ok t₀) (htags : TagTable.create size = .ok n₀) :
    HashTableCuckoo.Inv ⟨t₀, []⟩ ∧ n₀.maxIndex = t₀.maxIndex := by
  obtain ⟨t', hcreate, hinv⟩ := HashTableCuckoo.inv_create hsize
  rw [htable] at hcreate
  cases hcreate
  rw [FawnDSSF.create_tags htable] at htags
  cases htags
  exact ⟨hinv, rfl⟩

/-- The background tasks return no call, however many steps they take. -/
theorem background_run_log {F M B : Type} {c : Config} {ch : Children F M B} {uninit : Nat → UInt8}
    {s t : State F M B} {tasks : List Label} (htasks : ∀ l ∈ tasks, l.isConvert = true ∨ l.isMerge = true)
    (hrun : run (step c ch uninit) s tasks = some t) : t.log = s.log := by
  have hkeep : ∀ u l v, step c ch uninit u l = some v → (l.isConvert = true ∨ l.isMerge = true) →
      u.log = s.log → v.log = s.log := by
    intro u l v hstep hl hu
    rw [background_log hl hstep, hu]
  exact run_invariant_of_meets (t := t) hkeep hrun (meets_of_forall_mem htasks s) rfl

/-- In every safe run a call that fails leaves no trace: once it has returned, conversions and merges
change no answer; a merge drops tombstones, which only stores without data have. What a middle store lists of
a key and its `Get` does not find, a newer store hides; a store that was reorganised lists what its `Get`
finds. -/
theorem failed_calls_leave_no_trace {B : Type} (c : Config) (keep : Bool) (size : Int) (t₀ : HashTableCuckoo)
    (n₀ : TagTable) (uninit : Nat → UInt8) (draws : Nat → Nat → Nat)
    (ch : Children (FawnDSSF Seeded FileStore) Middle B) (hsize : 4 ≤ size)
    (htable : HashTableCuckoo.create size = .ok t₀) (htags : TagTable.create size = .ok n₀)
    (hfour : 4 ≤ c.keyLen) (hconfig : keep = true ∨ c.dataLen ≠ 0)
    (hch : SiltStores c keep uninit t₀ n₀ draws ch) (labels : List Label)
    (s : State (FawnDSSF Seeded FileStore) Middle B)
    (hrun : run (step c ch uninit) (create ch) labels = some s)
    (hsafe : Meets (step c ch uninit) (Safe c keep uninit ch) (create ch) labels) :
    (∀ k, k.length = c.keyLen → Unseen ch k s.stage0 → Listed ch k s.stage1) ∧
    (keep = false → ∀ n ∈ s.stage1, ∀ k, k.length = c.keyLen →
      entryOf (ch.getMiddle n k) = recordsEntry (ch.enumerateMiddle n) k) ∧
    ∀ call t op ret tasks u, run (step c ch uninit) s call = some t → t.log = s.log ++ [(op, ret)] →
      ret ≠ .ok → (∀ l ∈ tasks, l.isConvert = true ∨ l.isMerge = true) →
      run (step c ch uninit) t tasks = some u → Meets (step c ch uninit) (Safe c keep uninit ch) s call →
      Meets (step c ch uninit) (Safe c keep uninit ch) t tasks →
      ∀ k, c.dataLen ≠ 0 ∨ (get c ch s k).1 ≠ .keyDeleted → get c ch u k = get c ch s k := by
  obtain ⟨hinv, hindex⟩ := created_tables hsize htable htags
  have hs := siltInv_run hch hfour hconfig hindex hinv hrun hsafe
    (siltInv_create hch hinv (madeLaws hch hfour hinv))
  refine ⟨hs.hides.listed, fun hkeep n hn => (hs.middles n hn).listed hkeep, ?_⟩
  intro call t op ret tasks u hcall hlog hret htasks htask hsafe₁ hsafe₂ k hdeleted
  have ht := siltInv_run hch hfour hconfig hindex hinv hcall hsafe₁ hs
  have hu := siltInv_run hch hfour hconfig hindex hinv htask hsafe₂ ht
  have hlast : lastOk u.log k = lastOk s.log k := by
    rw [background_run_log htasks htask, hlog, lastOk_append_fail hret]
  by_cases hk : k.length = c.keyLen
  · have hu' := get_keyDeleted_iff (hu.stages hch hfour hconfig hindex) hu.inv hk
    have hs' := get_keyDeleted_iff (hs.stages hch hfour hconfig hindex) hs.inv hk
    have hbefore : (get c ch s k).1 ≠ .keyDeleted :=
      hdeleted.elim (fun hdataLen => hs.get_ne_keyDeleted hch hfour hdataLen hk) id
    refine get_eq_of_lastOk hch hfour hconfig hindex hs hu hlast hbefore fun hafter => hbefore (hs'.mpr ?_)
    obtain ⟨first, hfirst, hback⟩ := tombstone_of_run hch hfour hconfig hindex hinv hcall hsafe₁ hs
    obtain ⟨new, hnew, hback'⟩ := tombstone_of_run hch hfour hconfig hindex hinv htask hsafe₂ ht
    rw [hlog, List.append_cancel_left_eq] at hfirst
    rw [background_run_log htasks htask] at hnew
    obtain rfl : new = [] := List.append_right_eq_self.mp hnew.symm
    refine hback (fun e he => ?_) k hk (hback' (fun e he => by cases he) k hk (hu'.mp hafter))
    rw [← hfirst, List.mem_singleton] at he
    exact he ▸ hret
  · rw [get, get, if_pos (Ne.symm hk), if_pos (Ne.symm hk)]

section Examples

/-- The table with `Find` written as a filter over the ways of the two buckets. -/
def sweptTable : HashTable Seeded (Nat × Nat) :=
  { HashTableCuckoo.hashTable with
    find := fun s key =>
      if key.length < 4 ∨ s.table.maxIndex = 0 then none
      else some ((((List.range' 4 8).map (HashTableCuckoo.IteratorElem.ofCursor key)).filter fun it =>
        it.isMatch s.table).map fun it => ((it.currentIndex s.table, it.way),
          ByteFile.leBytes 4 (it.data s.table))) }

theorem hashTable_eq_sweptTable : HashTableCuckoo.hashTable = sweptTable := by
  have hfind : HashTableCuckoo.hashTable.find = sweptTable.find := by
    funext s key
    by_cases hshort : key.length < 4 ∨ s.table.maxIndex = 0
    · rw [HashTableCuckoo.find_none hshort]
      exact (if_pos hshort).symm
    · have hkey : key.length ≠ 0 := by omega
      have hlimit : (HashTableCuckoo.IteratorElem.ofCursor key 3).limit s.table = Cuckoo.numHash := if_pos hkey
      rw [HashTableCuckoo.find_some hshort, HashTableCuckoo.candidates, HashTableCuckoo.IteratorElem.find_eq,
        HashTableCuckoo.IteratorElem.yields_ofCursor s.table key 8 3 (by rw [hlimit]; rfl)]
      exact (if_neg hshort).symm
  exact congrArg (fun find => { HashTableCuckoo.hashTable with find }) hfind

/-- Stores that answer as the calls return, over a back store that is a list. -/
def siltStores (T : HashTable Seeded (Nat × Nat)) (c : Config) (keep : Bool) (uninit : Nat → UInt8)
    (t₀ : HashTableCuckoo) (n₀ : TagTable) (draws : Nat → Nat → Nat) :
    Children (FawnDSSF Seeded FileStore) Middle (List (Value × Value)) where
  createFront := (FawnDSSF.create c.keyLen c.dataLen ⟨t₀, draws⟩).store
  putFront f key data := (FawnDSSF.put T (FileStore.dataStore uninit) f 0 key data).getD (.error, f)
  deleteFront f key := (FawnDSSF.delete T (FileStore.dataStore uninit) f 0 key).getD (.error, f)
  getFront f key :=
    codeAndData ((FawnDSSF.get T (FileStore.dataStore uninit) f key 0 FawnDSSF.maxLen).getD (.error .error))
  convertTo f := (Middle.convert uninit c.toLengths keep t₀ n₀ draws f).getD (.error, .offsets f)
  getMiddle n key := codeAndData ((n.get uninit key).getD (.error .error))
  enumerateMiddle n := (n.records uninit).getD []
  createBack := (refStores c.toLengths 0).createBack
  putBack := (refStores c.toLengths 0).putBack
  flushBack := (refStores c.toLengths 0).flushBack
  getBack := (refStores c.toLengths 0).getBack
  enumerateBack := (refStores c.toLengths 0).enumerateBack

theorem siltStores_laws (c : Config) (keep : Bool) (uninit : Nat → UInt8) (t₀ : HashTableCuckoo) (n₀ : TagTable)
    (draws : Nat → Nat → Nat) : SiltStores c keep uninit t₀ n₀ draws
      (siltStores HashTableCuckoo.hashTable c keep uninit t₀ n₀ draws) := by
  refine ⟨⟨rfl, fun f key data => ⟨0, fun r hr => ?_⟩, fun f key => ⟨0, fun r hr => ?_⟩, fun f key r hr => ?_⟩,
    fun f r hr => ?_, fun n key r hr => ?_, fun n recs hr => ?_, fun size puts hsorted hlengths => ?_⟩
  · simp only [siltStores, hr, Option.getD_some]
  · simp only [siltStores, hr, Option.getD_some]
  · simp only [siltStores, hr, Option.getD_some]
  · simp only [siltStores, hr, Option.getD_some]
  · simp only [siltStores, hr, Option.getD_some]
  · simp only [siltStores, hr, Option.getD_some]
  · exact ⟨puts, buildBack_refStores c.toLengths 0 size puts hsorted,
      rfl, hsorted, hlengths, fun _ _ => answered_answer _, fun _ _ => entryOf_answer _⟩

/-- A table of one bucket, in both layouts. -/
def oneBucket : HashTableCuckoo := { maxIndex := 1, slots := List.replicate 4 ⟨0, 0⟩, currentEntries := 0 }

def oneBucketTags : TagTable := { maxIndex := 1, tags := List.replicate 4 0, currentEntries := 0 }

/-- Such stores, with conversions that keep the data store. -/
def keptStores : Children (FawnDSSF Seeded FileStore) Middle (List (Value × Value)) :=
  siltStores HashTableCuckoo.hashTable keysOnly true (fun _ => 0) oneBucket oneBucketTags fun _ _ => 0

theorem keptStores_eq : keptStores =
    siltStores sweptTable keysOnly true (fun _ => 0) oneBucket oneBucketTags fun _ _ => 0 := by
  rw [keptStores, hashTable_eq_sweptTable]

def putKey (i : UInt8) : List Label := [.put [i, 0, 0, 0] [], .putTry 0]

/-- A `Put` that finds the front store full and makes a new one. -/
def putKeyNew (i : UInt8) (addr : Nat) : List Label :=
  [.put [i, 0, 0, 0] [], .putTry 0, .putUpgrade 0 addr, .putTry 0]

def convertOne : List Label := [.convertTake, .convertRun, .convertSwap, .convertFinish]

/-- Four keys fill a front store, and the fifth is in its log too when it comes into the next one. -/
def fiveKeys : List Label := putKey 1 ++ putKey 2 ++ putKey 3 ++ putKey 4 ++ putKeyNew 5 1

/-- A `Put` of a key of five bytes fails, and the full store is converted: the record of the fifth key
in its log is hidden. -/
theorem failed_calls_leave_no_trace_fiveKeys : ∃ s t u,
    run (step keysOnly keptStores fun _ => 0) (create keptStores) fiveKeys = some s ∧
    run (step keysOnly keptStores fun _ => 0) s [.put [1, 0, 0, 0, 0] []] = some t ∧
    run (step keysOnly keptStores fun _ => 0) t convertOne = some u ∧
    ∀ i ∈ ([1, 2, 3, 4, 5] : List UInt8), get keysOnly keptStores s [i, 0, 0, 0] = (.ok, []) ∧
      get keysOnly keptStores u [i, 0, 0, 0] = (.ok, []) := by
  have hobserved : ((run (step keysOnly keptStores fun _ => 0) (create keptStores) fiveKeys).bind fun s =>
      (run (step keysOnly keptStores fun _ => 0) s [.put [1, 0, 0, 0, 0] []]).bind fun t =>
      (run (step keysOnly keptStores fun _ => 0) t convertOne).map fun _ =>
        (decide (t.log = s.log ++ [(.put [1, 0, 0, 0, 0] [], .invalidKey)]),
          decide (Meets (step keysOnly keptStores fun _ => 0) (Safe keysOnly true (fun _ => 0) keptStores) s
            [.put [1, 0, 0, 0, 0] []]),
          decide (Meets (step keysOnly keptStores fun _ => 0) (Safe keysOnly true (fun _ => 0) keptStores) t
            convertOne),
          decide (∀ i ∈ ([1, 2, 3, 4, 5] : List UInt8), get keysOnly keptStores s [i, 0, 0, 0] = (.ok, [])))) =
        some (true, true, true, true) := by
    rw [keptStores_eq]
    decide +kernel
  have hsafe : Meets (step keysOnly keptStores fun _ => 0) (Safe keysOnly true (fun _ => 0) keptStores)
      (create keptStores) fiveKeys := by
    rw [keptStores_eq]
    decide +kernel
  obtain ⟨s, hs, hrest⟩ := Option.bind_eq_some_iff.mp hobserved
  obtain ⟨t, ht, hrest⟩ := Option.bind_eq_some_iff.mp hrest
  obtain ⟨u, hu, hrest⟩ := Option.map_eq_some_iff.mp hrest
  simp only [Prod.mk.injEq, decide_eq_true_eq] at hrest
  obtain ⟨hlog, hsafe₁, hsafe₂, hfound⟩ := hrest
  have h := failed_calls_leave_no_trace keysOnly true 4 oneBucket oneBucketTags (fun _ => 0) (fun _ _ => 0)
    keptStores (by decide) rfl rfl (by decide) (.inl rfl) (siltStores_laws _ _ _ _ _ _) fiveKeys s hs hsafe
  refine ⟨s, t, u, hs, ht, hu, fun i hi => ⟨hfound i hi, ?_⟩⟩
  rw [h.2.2 [.put [1, 0, 0, 0, 0] []] t _ _ convertOne u ht hlog (by decide) (by decide) hu hsafe₁ hsafe₂
    [i, 0, 0, 0] (.inr (by rw [hfound i hi]; decide))]
  exact hfound i hi

/-- What the sorter has taken before a merge. -/
def State.sorted {F M B : Type} (s : State F M B) : Option (Nat × Sorter × Nat × Nat) :=
  match s.mergePc with
  | .sorted n (some sorter) numAdds numDels => some (n, sorter, numAdds, numDels)
  | _ => none

deriving instance DecidableEq for Sorter

/-- After a merge of all middle stores into no back store, a key is not found that no front store has
and whose last record is a tombstone. -/
theorem get_merged {F M B : Type} {c : Config} {ch : Children F M B} {uninit : Nat → UInt8} {s : State F M B}
    {recs : List Record} {sorter : Sorter} {numAdds numDels : Nat} {k : Value} (hmade : MadeLaws c.toLengths ch)
    (hrunning : s.aborted = false) (htask : s.mergeTaskRunning = true) (h2 : s.stage2 = [])
    (hsorted : s.sorted = some (s.stage1.length, sorter, numAdds, numDels))
    (hwf : ∀ r ∈ recs, MergeTask.WellFormed c.toLengths r)
    (htake : MergeTask.Taking c.toLengths sorter (recs.map (MergeTask.entry c.toLengths uninit)))
    (hk : k.length = c.keyLen) (hfront : ∀ p ∈ s.stage0, (ch.getFront p.2 k).1 = .keyNotFound)
    (hlast : MergeTask.rightBiased recs [] k = none) :
    ∃ u, run (step c ch uninit) s [.mergeRun, .mergeSwap, .mergeFinish] = some u ∧
      get c ch u k = (.keyNotFound, []) := by
  have hpc : s.mergePc = .sorted s.stage1.length (some sorter) numAdds numDels := by
    rw [State.sorted] at hsorted
    split at hsorted
    · cases hsorted
      assumption
    · cases hsorted
  have hempty : ∀ e ∈ (none : Option (List (Value × Value))).getD [], e.1.length < 2 ^ 31 := nofun
  obtain ⟨merged, hmerge, hpairwise, hlookup, -, -⟩ := MergeTask.merge_spec hwf htake hempty List.Pairwise.nil
    s.backStoreSize numAdds numDels
  have hlengths : ∀ e ∈ merged.puts, e.1.length = c.keyLen ∧ e.2.length = c.dataLen :=
    rightBiased_lengths hwf (by simp) hpairwise hlookup
  obtain ⟨b, hbuild, hb⟩ := hmade.build_back merged.maxNewBackStoreSize merged.puts hpairwise hlengths
  let merging : State F M B :=
    { s with backStoreSize := merged.backStoreSize, mergePc := .merged b s.stage1.length }
  let swapped : State F M B := { merging with stage1 := [], stage2 := [b], mergePc := .swapped }
  have hmerging : step c ch uninit s .mergeRun = some merging := by
    simp [step, hrunning, mergeRun, hpc, h2, hmerge, hbuild, merging]
  have hswapped : step c ch uninit merging .mergeSwap = some swapped := by
    simp [step, hrunning, mergeSwap, merging, swapped]
  have hfinished : step c ch uninit swapped .mergeFinish =
      some { swapped with mergeTaskRunning := false, mergePc := .idle } := by
    simp [step, hrunning, mergeFinish, htask, merging, swapped]
  refine ⟨_, run_cons_eq_some.mpr ⟨_, hmerging, run_cons_eq_some.mpr ⟨_, hswapped,
    run_cons_eq_some.mpr ⟨_, hfinished, rfl⟩⟩⟩, ?_⟩
  have hback : (ch.getBack b k).1 = .keyNotFound := by
    refine (entryOf_eq_none (hb.answered k hk)).mp ?_
    rw [hb.get k hk, hlookup k, Option.getD_none, hlast]
    rfl
  have hall : ∀ r ∈ s.stage0.map (fun p => ch.getFront p.2 k) ++ [] ++ [ch.getBack b k],
      r.1 = .keyNotFound := by
    intro r hr
    rcases List.mem_append.mp hr with hr | hr
    · rw [List.append_nil] at hr
      obtain ⟨p, hp, rfl⟩ := List.mem_map.mp hr
      exact hfront p hp
    · rw [List.mem_singleton.mp hr]
      exact hback
  rw [get, if_neg (not_ne_iff.mpr hk.symm)]
  exact (getLoop_cases _).resolve_right fun hfound => hfound.2 (hall _ hfound.1)

/-- The second front store is full too. -/
def eightKeys : List Label := fiveKeys ++ putKey 6 ++ putKey 7 ++ putKey 8

/-- Two conversions, and the records of both stores go to the sorter. -/
def convertAndSort : List Label :=
  convertOne ++ convertOne ++ [.mergeStart, .mergePick, .mergeSort, .mergePick, .mergeSort, .mergePick]

/-- The logs of the two stores: the fifth key is in both, and the record that was refused last is a
tombstone. -/
def logged : List Record :=
  ([1, 2, 3, 4, 5, 5, 6, 7, 8] : List UInt8).map (fun i => ⟨[i, 0, 0, 0], false, []⟩) ++
    [⟨[1, 0, 0, 0], true, []⟩, ⟨[9, 0, 0, 0], false, []⟩]

theorem keptStores_made : MadeLaws keysOnly.toLengths keptStores := by
  obtain ⟨t, hcreate, hinv⟩ := HashTableCuckoo.inv_create (show (4 : Int) ≤ 4 by decide)
  obtain rfl : oneBucket = t := by
    have hbucket : HashTableCuckoo.create 4 = .ok oneBucket := rfl
    rw [hbucket] at hcreate
    cases hcreate
    rfl
  exact madeLaws (siltStores_laws keysOnly true _ oneBucket oneBucketTags _) (by decide) hinv

/-- The `Delete` of the first key comes to a full front store and fails, and its tombstone stays in the
log. The `Put` of a ninth key makes a third front store; then a `Put` of a key of five bytes fails, and the
other two stores are converted and merged. The first key was found before, and is not found any more. -/
theorem failed_delete_comes_to_light : ∃ s₁ s₂ s t u,
    run (step keysOnly keptStores fun _ => 0) (create keptStores) eightKeys = some s₁ ∧
    run (step keysOnly keptStores fun _ => 0) s₁ [.delete [1, 0, 0, 0]] = some s₂ ∧
    s₂.log = s₁.log ++ [(.delete [1, 0, 0, 0], .insufficientSpace)] ∧
    run (step keysOnly keptStores fun _ => 0) s₂ (putKeyNew 9 2) = some s ∧
    run (step keysOnly keptStores fun _ => 0) s [.put [0, 0, 0, 0, 0] []] = some t ∧
    t.log = s.log ++ [(.put [0, 0, 0, 0, 0] [], .invalidKey)] ∧
    run (step keysOnly keptStores fun _ => 0) t (convertAndSort ++ [.mergeRun, .mergeSwap, .mergeFinish]) =
      some u ∧
    (∀ l ∈ convertAndSort ++ [.mergeRun, .mergeSwap, .mergeFinish], l.isConvert = true ∨ l.isMerge = true) ∧
    get keysOnly keptStores s₁ [1, 0, 0, 0] = (.ok, []) ∧ get keysOnly keptStores s [1, 0, 0, 0] = (.ok, []) ∧
    get keysOnly keptStores u [1, 0, 0, 0] = (.keyNotFound, []) := by
  have hobserved : ((run (step keysOnly keptStores fun _ => 0) (create keptStores) eightKeys).bind fun s₁ =>
      (run (step keysOnly keptStores fun _ => 0) s₁ [.delete [1, 0, 0, 0]]).bind fun s₂ =>
      (run (step keysOnly keptStores fun _ => 0) s₂ (putKeyNew 9 2)).bind fun s =>
      (run (step keysOnly keptStores fun _ => 0) s [.put [0, 0, 0, 0, 0] []]).bind fun t =>
      (run (step keysOnly keptStores fun _ => 0) t convertAndSort).map fun v =>
        decide ((s₂.log = s₁.log ++ [(.delete [1, 0, 0, 0], .insufficientSpace)] ∧
          t.log = s.log ++ [(.put [0, 0, 0, 0, 0] [], .invalidKey)] ∧
          get keysOnly keptStores s₁ [1, 0, 0, 0] = (.ok, []) ∧
            get keysOnly keptStores s [1, 0, 0, 0] = (.ok, [])) ∧
          v.aborted = false ∧ v.mergeTaskRunning = true ∧ v.stage2 = [] ∧
          v.sorted = some (v.stage1.length, ⟨true, false, 4, 1, logged.map Record.key,
            logged.map (MergeTask.combinedData keysOnly.toLengths fun _ => 0), []⟩, 10, 1) ∧
          ∀ p ∈ v.stage0, (keptStores.getFront p.2 [1, 0, 0, 0]).1 = .keyNotFound)) = some true := by
    rw [keptStores_eq]
    decide +kernel
  obtain ⟨s₁, hs₁, hrest⟩ := Option.bind_eq_some_iff.mp hobserved
  obtain ⟨s₂, hs₂, hrest⟩ := Option.bind_eq_some_iff.mp hrest
  obtain ⟨s, hs, hrest⟩ := Option.bind_eq_some_iff.mp hrest
  obtain ⟨t, ht, hrest⟩ := Option.bind_eq_some_iff.mp hrest
  obtain ⟨v, hv, hrest⟩ := Option.map_eq_some_iff.mp hrest
  obtain ⟨⟨hlog₁, hlog₂, hget₁, hget₂⟩, hrunning, htask, h2, hsorted, hfronts⟩ := of_decide_eq_true hrest
  have hwf : ∀ r ∈ logged, MergeTask.WellFormed keysOnly.toLengths r := by
    intro r hr
    have hlengths : ∀ r ∈ logged, r.key.length = 4 ∧ r.data.length = 0 := by decide
    obtain ⟨hkey, hdata⟩ := hlengths r hr
    exact ⟨hkey, hdata.le, fun _ => hdata⟩
  have htake : MergeTask.Taking keysOnly.toLengths ⟨true, false, 4, 1, logged.map Record.key,
      logged.map (MergeTask.combinedData keysOnly.toLengths fun _ => 0), []⟩
      (logged.map (MergeTask.entry keysOnly.toLengths fun _ => 0)) :=
    ⟨⟨rfl, rfl, rfl, rfl, rfl, by decide⟩, rfl, rfl⟩
  obtain ⟨u, hu, hget⟩ := get_merged (k := [1, 0, 0, 0]) keptStores_made hrunning htask h2 hsorted hwf htake rfl
    hfronts (by decide)
  refine ⟨s₁, s₂, s, t, u, hs₁, hs₂, hlog₁, hs, ht, hlog₂, ?_, by decide, hget₁, hget₂, hget⟩
  rw [run_append, hv]
  exact hu

end Examples

end FawnKV.Silt.FawnDSCombi
