import FawnKV.Cindex.IndexCreation
import FawnKV.Silt.FailedCalls
import FawnKV.Silt.OrderedTrie

/-! `FawnDS_Combi` over the stores it is configured with; the tries of the last stage are seen as the lists
that they enumerate. -/
namespace FawnKV.Silt.FawnDSCombi

open Cindex Transition
open HashTableCuckoo (Seeded)
open FawnDSSFOrderedTrie (Represents Building SharePrefix)

section Lists

variable {F M B B' : Type}

/-- The same front and middle stores, over back stores that are lists. -/
def overLists (c : Lengths) (ch : Children F M B) : Children F M (List (Value × Value)) :=
  { ch with
    createBack := (refStores c 0).createBack
    putBack := (refStores c 0).putBack
    flushBack := (refStores c 0).flushBack
    getBack := (refStores c 0).getBack
    enumerateBack := (refStores c 0).enumerateBack }

def MergePc.mapBack (g : B → B') : MergePc M B → MergePc M B'
  | .idle => .idle
  | .sorting n sorter numAdds numDels => .sorting n sorter numAdds numDels
  | .picked store n sorter numAdds numDels => .picked store n sorter numAdds numDels
  | .sorted n sorter numAdds numDels => .sorted n sorter numAdds numDels
  | .merged back n => .merged (g back) n
  | .swapped => .swapped

/-- The state with every back store replaced. -/
def State.mapBack (g : B → B') (s : State F M B) : State F M B' :=
  { s with stage2 := s.stage2.map g, mergePc := s.mergePc.mapBack g }

variable {c : Config} {ch : Children F M B} {uninit : Nat → UInt8} {s t : State F M B} {l : Label}
  (g : B → List (Value × Value))

theorem step_overLists (hl : l ≠ .mergeRun) :
    step c (overLists c.toLengths ch) uninit (s.mapBack g) l =
      (step c ch uninit s l).map (State.mapBack g) := by
  unfold step
  by_cases habort : s.aborted = true
  · rw [if_pos habort, if_pos (show (s.mapBack g).aborted = true from habort)]
    rfl
  rw [if_neg habort, if_neg (show ¬(s.mapBack g).aborted = true from habort)]
  cases l with
  | put key data =>
    simp only [put, State.mapBack, State.return]
    split
    · rfl
    split <;> rfl
  | putTry i =>
    rcases hcall : s.calls[i]? with _ | ⟨key, data, _ | front⟩
    · simp [putTry, State.mapBack, hcall]
    · rcases h0 : s.stage0 with _ | ⟨⟨a, f⟩, rest⟩
      · simp [putTry, State.mapBack, hcall, h0]
      · simp only [putTry, State.mapBack, State.return, overLists, hcall, h0]
        split <;> rfl
    · simp [putTry, State.mapBack, hcall]
  | putUpgrade i addr =>
    rcases hcall : s.calls[i]? with _ | ⟨key, data, _ | front⟩
    · simp [putUpgrade, State.mapBack, hcall]
    · simp [putUpgrade, State.mapBack, hcall]
    · rcases h0 : s.stage0 with _ | ⟨⟨a, f⟩, rest⟩
      · simp [putUpgrade, State.mapBack, hcall, h0]
      · simp only [putUpgrade, State.mapBack, overLists, hcall, h0]
        split_ifs <;> rfl
  | delete key =>
    by_cases hkey : c.keyLen ≠ key.length
    · simp only [delete, if_pos hkey]
      rfl
    · rcases h0 : s.stage0 with _ | ⟨⟨a, f⟩, rest⟩ <;>
        simp only [delete, if_neg hkey, State.mapBack, h0] <;> rfl
  | convertTake =>
    cases hpc : s.convertPc <;> rcases htasks : s.convertTasks with _ | n <;>
      rcases hlast : s.stage0.getLast? with _ | ⟨a, f⟩ <;>
      simp only [convertTake, State.mapBack, State.abort, hpc, htasks, hlast] <;>
      first | rfl | (split_ifs <;> rfl)
  | convertRun =>
    rcases hpc : s.convertPc with _ | a | m | _
    · simp only [convertRun, State.mapBack, hpc]
      rfl
    · rcases hlookup : s.stage0.lookup a with _ | f
      · simp only [convertRun, State.mapBack, State.abort, hpc, hlookup]
        rfl
      · rcases hconvert : ch.convertTo f with ⟨ret, m⟩
        simp only [convertRun, State.mapBack, State.abort, overLists, hpc, hlookup, hconvert]
        cases ret <;> rfl
    · simp only [convertRun, State.mapBack, hpc]
      rfl
    · simp only [convertRun, State.mapBack, hpc]
      rfl
  | convertSwap =>
    cases hpc : s.convertPc <;> simp only [convertSwap, State.mapBack, hpc] <;>
      first | rfl | (split_ifs <;> rfl)
  | convertFinish =>
    cases hpc : s.convertPc <;> simp only [convertFinish, State.mapBack, State.abort, hpc] <;>
      first | rfl | (split_ifs <;> rfl)
  | mergeStart =>
    cases hpc : s.mergePc <;> rcases htasks : s.mergeTasks with _ | n <;>
      simp only [mergeStart, State.mapBack, MergePc.mapBack, State.abort, hpc, htasks] <;>
      first | rfl | (split_ifs <;> rfl)
  | mergePick =>
    rcases hpc : s.mergePc with _ | ⟨n, sorter, a, d⟩ | _ | _ | _ | _ <;>
      try (simp only [mergePick, State.mapBack, MergePc.mapBack, hpc]; rfl)
    rcases hstore : s.stage1[s.stage1.length - 1 - n]? with _ | m <;>
      simp only [mergePick, State.mapBack, MergePc.mapBack, State.abort, hpc, hstore] <;> split_ifs <;> rfl
  | mergeSort =>
    rcases hpc : s.mergePc with _ | _ | ⟨m, n, sorter, a, d⟩ | _ | _ | _ <;>
      try (simp only [mergeSort, State.mapBack, MergePc.mapBack, hpc]; rfl)
    rcases hsort : MergeTask.sort c.toLengths uninit sorter (ch.enumerateMiddle m) a d with _ | r <;>
      simp only [mergeSort, State.mapBack, MergePc.mapBack, State.abort, overLists, hpc, hsort] <;> rfl
  | mergeRun => exact absurd rfl hl
  | mergeSwap =>
    cases hpc : s.mergePc <;> simp only [mergeSwap, State.mapBack, MergePc.mapBack, hpc] <;> rfl
  | mergeFinish =>
    cases hpc : s.mergePc <;> simp only [mergeFinish, State.mapBack, MergePc.mapBack, State.abort, hpc] <;>
      first | rfl | (split_ifs <;> rfl)

/-- What a merge builds when it runs. -/
def State.merging (c : Config) (ch : Children F M B) (s : State F M B) (merged : MergeTask.Merged) : Prop :=
  ∃ n sorter numAdds numDels, s.mergePc = .sorted n sorter numAdds numDels ∧
    MergeTask.merge c.toLengths (s.stage2.head?.map ch.enumerateBack) sorter s.backStoreSize numAdds numDels =
      some merged

/-- The back store built lists the merged entries and finds them as the list does. -/
structure Lists (c : Config) (ch : Children F M B) (b : B) (puts : List (Value × Value)) : Prop where
  enumerate : ch.enumerateBack b = puts
  get : ∀ k, k.length = c.keyLen → ch.getBack b k = answer ((puts.lookup k).map some)

/-- A merge that runs builds a back store of the merged entries. -/
def Builds (c : Config) (ch : Children F M B) (s : State F M B) : Prop :=
  ∀ merged, s.merging c ch merged → (merged.puts.Pairwise fun x y => x.1 < y.1) ∧
    ∃ b, buildBack ch merged.maxNewBackStoreSize merged.puts = some b ∧ Lists c ch b merged.puts

theorem head_mapBack (s : State F M B) :
    (s.mapBack ch.enumerateBack).stage2.head?.map (overLists c.toLengths ch).enumerateBack =
      s.stage2.head?.map ch.enumerateBack := by
  rw [State.mapBack, List.head?_map]
  exact congrFun Option.map_id _

theorem mergeRun_overLists (hbuild : Builds c ch s) :
    mergeRun c (overLists c.toLengths ch) (s.mapBack ch.enumerateBack) =
      (mergeRun c ch s).map (State.mapBack ch.enumerateBack) := by
  rcases hpc : s.mergePc with _ | _ | _ | ⟨n, sorter, a, d⟩ | _ | _ <;>
    try (simp only [mergeRun, State.mapBack, MergePc.mapBack, hpc]; rfl)
  have hhead : (s.stage2.map ch.enumerateBack).head?.map (overLists c.toLengths ch).enumerateBack =
      s.stage2.head?.map ch.enumerateBack := head_mapBack s
  by_cases hlength : 1 < s.stage2.length
  · simp only [mergeRun, State.mapBack, MergePc.mapBack, State.abort, hpc, List.length_map, if_pos hlength]
    rfl
  cases hmerge : MergeTask.merge c.toLengths (s.stage2.head?.map ch.enumerateBack) sorter s.backStoreSize
    a d with
  | none =>
    simp only [mergeRun, State.mapBack, MergePc.mapBack, State.abort, hpc, List.length_map, if_neg hlength,
      hhead, hmerge]
    rfl
  | some merged =>
    obtain ⟨hsorted, b, hb, hlists⟩ := hbuild merged ⟨n, sorter, a, d, hpc, hmerge⟩
    have hlist : buildBack (overLists c.toLengths ch) merged.maxNewBackStoreSize merged.puts =
        some merged.puts :=
      buildBack_refStores c.toLengths 0 merged.maxNewBackStoreSize merged.puts hsorted
    simp only [mergeRun, State.mapBack, MergePc.mapBack, State.abort, hpc, List.length_map, if_neg hlength,
      hhead, hmerge, hb, hlist, Option.map_some, hlists.enumerate]

theorem mapBack_congr {g g' : B → B'} : s.mapBack g = s.mapBack g' ↔
    (∀ b ∈ s.stage2, g b = g' b) ∧ ∀ b n, s.mergePc = .merged b n → g b = g' b := by
  constructor
  · intro h
    refine ⟨List.map_inj_left.mp (congrArg State.stage2 h), fun b n hpc => ?_⟩
    have hmapped : s.mergePc.mapBack g = s.mergePc.mapBack g' := congrArg State.mergePc h
    rw [hpc] at hmapped
    exact (MergePc.merged.inj hmapped).1
  · rintro ⟨h2, hmerged⟩
    have hpc : s.mergePc.mapBack g = s.mergePc.mapBack g' := by
      cases hpc : s.mergePc with
      | merged b n => simp only [MergePc.mapBack, hmerged b n hpc]
      | _ => rfl
    rw [State.mapBack, State.mapBack, List.map_inj_left.mpr h2, hpc]

/-- What holds of all back stores. -/
structure Backs (P : B → Prop) (s : State F M B) : Prop where
  stage2 : ∀ b ∈ s.stage2, P b
  merged : ∀ b n, s.mergePc = .merged b n → P b

/-- Only a merge makes a back store: the other steps do the same whatever the back stores are. -/
theorem backs_step {P : B → Prop} (hl : l ≠ .mergeRun) (hstep : step c ch uninit s l = some t) (h : Backs P s) :
    Backs P t := by
  classical
  let g : B → List (Value × Value) := fun b => if P b then [] else [([], [])]
  have hg : ∀ b, g b = [] ↔ P b := fun b => by
    by_cases hb : P b <;> simp [g, hb]
  have hsame : s.mapBack g = s.mapBack fun _ => [] :=
    mapBack_congr.mpr ⟨fun b hb => (hg b).mpr (h.stage2 b hb), fun b n hpc => (hg b).mpr (h.merged b n hpc)⟩
  have hmapped : (step c ch uninit s l).map (State.mapBack g) =
      (step c ch uninit s l).map (State.mapBack fun _ => []) := by
    rw [← step_overLists g hl, ← step_overLists _ hl, hsame]
  rw [hstep] at hmapped
  obtain ⟨h2, hmerged⟩ := mapBack_congr.mp (Option.some.inj hmapped)
  exact ⟨fun b hb => (hg b).mp (h2 b hb), fun b n hpc => (hg b).mp (hmerged b n hpc)⟩

/-- Every back store finds what it lists. -/
abbrev BackLists (c : Config) (ch : Children F M B) : State F M B → Prop :=
  Backs fun b => Lists c ch b (ch.enumerateBack b)

theorem backLists_mergeRun (hbuild : Builds c ch s) (hstep : mergeRun c ch s = some t) (h : BackLists c ch s) :
    BackLists c ch t := by
  rw [mergeRun] at hstep
  split at hstep
  case h_2 => cases hstep
  case h_1 n sorter a d hpc =>
    split at hstep
    · cases hstep
      exact ⟨h.stage2, h.merged⟩
    split at hstep
    case h_2 =>
      cases hstep
      exact ⟨h.stage2, h.merged⟩
    case h_1 merged hmerge =>
      obtain ⟨-, b, hb, hlists⟩ := hbuild merged ⟨n, sorter, a, d, hpc, hmerge⟩
      rw [hb] at hstep
      cases hstep
      refine ⟨h.stage2, fun b' n' hb' => ?_⟩
      cases hb'
      rw [hlists.enumerate]
      exact hlists

/-- Over lists the store takes the same step. -/
theorem mapBack_step (hbuild : l = .mergeRun → Builds c ch s) (hstep : step c ch uninit s l = some t)
    (h : BackLists c ch s) :
    step c (overLists c.toLengths ch) uninit (s.mapBack ch.enumerateBack) l =
      some (t.mapBack ch.enumerateBack) ∧ BackLists c ch t := by
  by_cases hl : l = .mergeRun
  · subst hl
    have hrun : s.aborted = false := by
      by_contra habort
      rw [step, if_pos (by simpa using habort)] at hstep
      cases hstep
    have hrun' : (s.mapBack ch.enumerateBack).aborted = false := hrun
    simp only [step, hrun, hrun', Bool.false_eq_true, if_false] at hstep ⊢
    rw [mergeRun_overLists (hbuild rfl), hstep]
    exact ⟨rfl, backLists_mergeRun (hbuild rfl) hstep h⟩
  · rw [step_overLists _ hl, hstep]
    exact ⟨rfl, backs_step hl hstep h⟩

/-- And it gives the same answers. -/
theorem get_mapBack (h : BackLists c ch s) (k : Value) :
    get c (overLists c.toLengths ch) (s.mapBack ch.enumerateBack) k = get c ch s k := by
  by_cases hk : k.length = c.keyLen
  · have hbacks : (s.stage2.map ch.enumerateBack).map (fun b => (overLists c.toLengths ch).getBack b k) =
        s.stage2.map fun b => ch.getBack b k := by
      rw [List.map_map]
      exact List.map_congr_left fun b hb => ((h.stage2 b hb).get k hk).symm
    rw [get, get, if_neg (not_not.mpr hk.symm), if_neg (not_not.mpr hk.symm)]
    exact congrArg (fun backs => getLoop (_ ++ _ ++ backs)) hbacks
  · rw [get, get, if_pos (Ne.symm hk), if_pos (Ne.symm hk)]

theorem merging_mapBack {merged : MergeTask.Merged} (h : s.merging c ch merged) :
    (s.mapBack ch.enumerateBack).merging c (overLists c.toLengths ch) merged := by
  obtain ⟨n, sorter, a, d, hpc, hmerge⟩ := h
  refine ⟨n, sorter, a, d, ?_, ?_⟩
  · rw [State.mapBack, hpc]
    rfl
  · rw [head_mapBack]
    exact hmerge

/-- The merged entries are sorted, and of the lengths of the configuration. -/
theorem merging_puts (hl : StageLaws c.toLengths ch s) (h : Inv c ch uninit s) {merged : MergeTask.Merged}
    (hmerging : s.merging c ch merged) : (merged.puts.Pairwise fun x y => x.1 < y.1) ∧
      ∀ e ∈ merged.puts, e.1.length = c.keyLen ∧ e.2.length = c.dataLen := by
  obtain ⟨n, sorter, a, d, hpc, hmerge⟩ := hmerging
  have hinv := h.merge
  simp only [MergeInv, hpc] at hinv
  obtain ⟨-, -, hpos, -, htake, hsome⟩ := hinv
  obtain ⟨sr, rfl⟩ := Option.isSome_iff_exists.mp (hsome hpos)
  rw [Option.getD_some] at htake
  obtain ⟨hsorted, hlengths, -⟩ := backEntries_holds h
  have hkeys : ∀ e ∈ backEntries ch s.stage2, e.1.length < 2 ^ 31 := by
    intro e he
    rw [(hlengths e he).1]
    exact c.keyLen_lt
  have hwf := recordsOf_wellFormed (hl.oldest n)
  obtain ⟨merged', hmerge', hsorted', hget, -, -⟩ :=
    MergeTask.merge_spec hwf htake hkeys hsorted s.backStoreSize a d
  cases hmerge.symm.trans hmerge'
  exact ⟨hsorted', rightBiased_lengths hwf hlengths hsorted' hget⟩

end Lists

section Tries

/-- The node `child::store2`; `child::size` is set for every merge. -/
structure TrieNode where
  keysPerBlock : Nat
  bucketSize : Nat
  skipBits : Nat
  keysPerBlock_pos : 1 ≤ keysPerBlock
  bucketSize_ge : 2 ≤ bucketSize

def TrieNode.config (node : TrieNode) (c : Lengths) (size : Nat) : TrieConfig :=
  ⟨c.keyLen, c.dataLen, node.keysPerBlock, size, node.bucketSize, node.skipBits⟩

/-- The same front and middle stores, over back stores that are tries; a call that fails an assertion
answers `ERROR`. -/
def overTries {F M B : Type} (c : Lengths) (node : TrieNode) (ch : Children F M B) :
    Children F M FawnDSSFOrderedTrie :=
  { ch with
    createBack := fun size =>
      match FawnDSSFOrderedTrie.create (node.config c size) with
      | .ok t => t
      | .error _ => ⟨node.config c size, BucketingIndex.create 0 0 1 0 0 0, [], 0⟩
    putBack := fun t key data => (FawnDSSFOrderedTrie.put t key data).getD (.error, t)
    flushBack := fun t => ((FawnDSSFOrderedTrie.flush t).map Prod.snd).getD t
    getBack := fun t key =>
      ((FawnDSSFOrderedTrie.get t key 0).map fun r => (r.1, r.2.getD [])).getD (.error, [])
    enumerateBack := FawnDSSFOrderedTrie.enumerate }

variable {F M : Type} {c : Config} {node : TrieNode} {ch : Children F M FawnDSSFOrderedTrie} {size n : Nat}
  {config : TrieConfig} {t : FawnDSSFOrderedTrie} {acc puts : List (Value × Value)} {k : Value}

/-- The back stores are `FawnDS_SF_Ordered_Trie` stores; of a call that fails an assertion, or divides by zero,
nothing is said. -/
structure BackTries (c : Config) (node : TrieNode) (ch : Children F M FawnDSSFOrderedTrie) : Prop where
  createBack : ∀ size r t, BucketingIndex.createChecked size node.bucketSize = .ok r →
    FawnDSSFOrderedTrie.create (node.config c.toLengths size) = .ok t → ch.createBack size = t
  putBack : ∀ t key data r, FawnDSSFOrderedTrie.put t key data = some r → ch.putBack t key data = r
  flushBack : ∀ t r, FawnDSSFOrderedTrie.flush t = some r → ch.flushBack t = r.2
  getBack : ∀ t key r, FawnDSSFOrderedTrie.get t key 0 = some r → ch.getBack t key = (r.1, r.2.getD [])
  enumerateBack : ch.enumerateBack = FawnDSSFOrderedTrie.enumerate

/-- The index can be made for so many keys, and these are keys that it takes. -/
structure Indexed (c : Config) (node : TrieNode) (size : Nat) (puts : List (Value × Value)) : Prop where
  created : ∃ r, BucketingIndex.createChecked size node.bucketSize = .ok r
  bits : node.skipBits + (node.config c.toLengths size).bucketBits ≤ 8 * c.keyLen
  few : puts.length < 2 ^ 63
  share : SharePrefix (node.config c.toLengths size) puts

/-- Fewer keys than a bucket holds are estimated as one bucket. -/
theorem bucketBits_max (node : TrieNode) (c : Lengths) (size : Nat) :
    (node.config c (max size node.bucketSize)).bucketBits = (node.config c size).bucketBits := by
  have hpos := node.bucketSize_ge
  rcases Nat.lt_or_ge size node.bucketSize with hlt | hge
  · rw [TrieConfig.bucketBits, TrieConfig.bucketBits]
    simp only [TrieNode.config, Nat.max_eq_right hlt.le, Nat.div_self (show 0 < node.bucketSize by omega),
      Nat.div_eq_of_lt hlt]
    rw [BucketingIndex.bucketBitsLoop_eq, BucketingIndex.bucketBitsLoop_eq]
    simp
  · rw [Nat.max_eq_left hge]

theorem scan_config (t : FawnDSSFOrderedTrie) (n : Nat) (key : Value) (offset i count : Nat) :
    FawnDSSFOrderedTrie.scan { t with config := { t.config with size := n } } key offset i count =
      FawnDSSFOrderedTrie.scan t key offset i count := by
  induction count generalizing i with
  | zero => rfl
  | succ count ih =>
    simp only [FawnDSSFOrderedTrie.scan, ih]

/-- No call reads the estimate. -/
theorem get_config (t : FawnDSSFOrderedTrie) (n : Nat) (key : Value) (offset : Nat) :
    FawnDSSFOrderedTrie.get { t with config := { t.config with size := n } } key offset =
      FawnDSSFOrderedTrie.get t key offset := by
  simp only [FawnDSSFOrderedTrie.get, scan_config]

theorem valid_config (node : TrieNode) (hkeyLen : 1 ≤ c.keyLen) (hdataLen : 1 ≤ c.dataLen)
    (hbits : node.skipBits + (node.config c.toLengths size).bucketBits ≤ 8 * c.keyLen) :
    (node.config c.toLengths (max size node.bucketSize)).Valid :=
  ⟨hkeyLen, hdataLen, node.keysPerBlock_pos, node.bucketSize_ge, Nat.le_max_right _ _,
    by rw [bucketBits_max]; exact hbits⟩

theorem create_indexed (node : TrieNode) (hkeyLen : 1 ≤ c.keyLen) (hdataLen : 1 ≤ c.dataLen)
    (hbits : node.skipBits + (node.config c.toLengths size).bucketBits ≤ 8 * c.keyLen) :
    ∃ t, FawnDSSFOrderedTrie.create (node.config c.toLengths size) = .ok t ∧
      Building (node.config c.toLengths size) t [] := by
  have hkey : (node.config c.toLengths size).keyLen ≠ 0 := Nat.ne_of_gt hkeyLen
  have hdata : (node.config c.toLengths size).dataLen ≠ 0 := Nat.ne_of_gt hdataLen
  have hblock : (node.config c.toLengths size).keysPerBlock ≠ 0 := Nat.ne_of_gt node.keysPerBlock_pos
  have hbucket : (node.config c.toLengths size).bucketSize ≠ 0 :=
    Nat.ne_of_gt (Nat.lt_of_lt_of_le Nat.two_pos node.bucketSize_ge)
  have hbits' : node.skipBits + (node.config c.toLengths size).bucketBits ≤ c.keyLen * 8 := by omega
  rw [FawnDSSFOrderedTrie.create, if_neg hkey, if_neg hdata, if_neg hblock, if_neg hbucket]
  refine ⟨_, rfl, ⟨rfl, by simp, BucketingIndex.holds_create hbits', rfl, rfl⟩, .inl rfl, ?_⟩
  show (0 == 2 ^ (node.config c.toLengths size).bucketBits) = false
  rw [beq_eq_false_iff_ne]
  exact (Nat.two_pow_pos _).ne

variable (hch : BackTries c node ch)
include hch

/-- The puts of a merge are all taken. -/
theorem puts_building (h : Building (node.config c.toLengths size) t acc)
    (hsorted : (acc ++ puts).Pairwise fun x y => x.1 < y.1)
    (hlengths : ∀ e ∈ acc ++ puts, e.1.length = c.keyLen ∧ e.2.length = c.dataLen)
    (hshare : SharePrefix (node.config c.toLengths size) (acc ++ puts)) (hfew : (acc ++ puts).length < 2 ^ 63) :
    ∃ t', puts.foldlM (assertPut ch) t = some t' ∧
      Building (node.config c.toLengths size) t' (acc ++ puts) := by
  induction puts generalizing t acc with
  | nil =>
    rw [List.append_nil]
    exact ⟨t, rfl, h⟩
  | cons p puts ih =>
    have hp : p ∈ acc ++ p :: puts := List.mem_append_right _ List.mem_cons_self
    obtain ⟨hkey, hdata⟩ := hlengths p hp
    have hless : ∀ q ∈ acc, q.1 < p.1 := fun q hq =>
      (List.pairwise_append.mp hsorted).2.2 q hq p List.mem_cons_self
    obtain ⟨r, t', hput, hbuilding, hret, -⟩ := @FawnDSSFOrderedTrie.put_spec _ _ _ p.1 p.2 h
      (fun q hq _ => hshare q (List.mem_append_left _ hq) p hp
        (hlengths q (List.mem_append_left _ hq)).1 hkey)
      (by rw [List.length_append, List.length_cons] at hfew; omega)
    obtain rfl := (hret hkey hdata).1.mpr hless
    rw [FawnDSSFOrderedTrie.accept, if_pos ⟨hkey, hdata, hless⟩] at hbuilding
    rw [List.append_cons] at hsorted hlengths hshare hfew ⊢
    obtain ⟨t'', hfold, hdone⟩ := ih hbuilding hsorted hlengths hshare hfew
    refine ⟨t'', ?_, hdone⟩
    have hassert : assertPut ch t p = some t' := by
      rw [assertPut, hch.putBack t p.1 p.2 _ hput]
    rw [List.foldlM_cons, hassert]
    exact hfold

/-- A trie finds what it lists. -/
theorem lists_of_represents (hkeyLen : 1 ≤ c.keyLen) (hdataLen : 1 ≤ c.dataLen)
    (hbits : node.skipBits + (node.config c.toLengths size).bucketBits ≤ 8 * c.keyLen)
    (h : Represents (node.config c.toLengths size) t puts) (hfin : t.index.finalized = true) :
    Lists c ch t puts := by
  constructor
  · rw [hch.enumerateBack]
    exact FawnDSSFOrderedTrie.enumerate_spec h hfin
  · intro k hk
    let big : FawnDSSFOrderedTrie :=
      { t with config := { t.config with size := max size node.bucketSize } }
    have hconfig : big.config = node.config c.toLengths (max size node.bucketSize) := by
      show { t.config with size := max size node.bucketSize } = _
      rw [h.config_eq]
      rfl
    have hbig : Represents (node.config c.toLengths (max size node.bucketSize)) big puts :=
      ⟨hconfig, h.sized, h.holds, h.records, by rw [bucketBits_max]; exact h.params⟩
    obtain ⟨hfound, habsent⟩ := @FawnDSSFOrderedTrie.get_spec _ _ _ k hbig
      (valid_config node hkeyLen hdataLen hbits) hfin hk
    rw [get_config] at hfound habsent
    cases hlookup : puts.lookup k with
    | some v =>
      obtain ⟨before, after, rfl, -⟩ := List.lookup_eq_some_iff.mp hlookup
      rw [hch.getBack t k _ (hfound v (List.mem_append_right _ List.mem_cons_self))]
      rfl
    | none =>
      rw [hch.getBack t k _ (habsent fun p hp heq => ?_)]
      · rfl
      · have hne := List.lookup_eq_none_iff.mp hlookup p hp
        simp [heq] at hne

theorem buildBack_indexed (hkeyLen : 1 ≤ c.keyLen) (hdataLen : 1 ≤ c.dataLen) (h : Indexed c node size puts)
    (hsorted : puts.Pairwise fun x y => x.1 < y.1)
    (hlengths : ∀ e ∈ puts, e.1.length = c.keyLen ∧ e.2.length = c.dataLen) :
    ∃ b, buildBack ch size puts = some b ∧ Lists c ch b puts := by
  obtain ⟨r, hr⟩ := h.created
  obtain ⟨t₀, hcreate, h₀⟩ := create_indexed node hkeyLen hdataLen h.bits
  obtain ⟨t, hfold, ht⟩ := puts_building hch h₀ hsorted hlengths h.share h.few
  obtain ⟨t', hflush, ht', hfin⟩ := FawnDSSFOrderedTrie.flush_represents ht
  refine ⟨t', ?_, lists_of_represents hch hkeyLen hdataLen h.bits ht' hfin⟩
  rw [buildBack, hch.createBack size r t₀ hr hcreate, hfold, Option.map_some, hch.flushBack t _ hflush]

end Tries

section Runs

variable {c : Config} {keep : Bool} {uninit : Nat → UInt8} {t₀ : HashTableCuckoo} {n₀ : TagTable}
  {draws : Nat → Nat → Nat} {node : TrieNode}
  {ch : Children (FawnDSSF Seeded FileStore) Middle FawnDSSFOrderedTrie}
  {s t : State (FawnDSSF Seeded FileStore) Middle FawnDSSFOrderedTrie} {l : Label}

/-- The front and middle stores are logs with hash tables, and the back stores are tries. -/
structure TrieStores (c : Config) (keep : Bool) (uninit : Nat → UInt8) (t₀ : HashTableCuckoo) (n₀ : TagTable)
    (draws : Nat → Nat → Nat) (node : TrieNode)
    (ch : Children (FawnDSSF Seeded FileStore) Middle FawnDSSFOrderedTrie) : Prop where
  fronts : FrontStores c HashTableCuckoo.hashTable uninit ⟨t₀, draws⟩ ch
  convertTo : ∀ f r, Middle.convert uninit c.toLengths keep t₀ n₀ draws f = some r → ch.convertTo f = r
  getMiddle : ∀ n key r, Middle.get uninit key n = some r → ch.getMiddle n key = codeAndData r
  enumerateMiddle : ∀ n recs, Middle.records uninit n = some recs → ch.enumerateMiddle n = recs
  backs : BackTries c node ch

/-- The step is safe, and a merge is of keys that the index takes. -/
structure Mergeable (c : Config) (keep : Bool) (uninit : Nat → UInt8) (node : TrieNode)
    (ch : Children (FawnDSSF Seeded FileStore) Middle FawnDSSFOrderedTrie)
    (s : State (FawnDSSF Seeded FileStore) Middle FawnDSSFOrderedTrie) (l : Label) : Prop where
  safe : Safe c keep uninit ch s l
  indexed : l = .mergeRun → ∀ merged, s.merging c ch merged →
    Indexed c node merged.maxNewBackStoreSize merged.puts

theorem TrieStores.siltStores (hch : TrieStores c keep uninit t₀ n₀ draws node ch) :
    SiltStores c keep uninit t₀ n₀ draws (overLists c.toLengths ch) where
  fronts := ⟨hch.fronts.createFront, hch.fronts.putFront, hch.fronts.deleteFront, hch.fronts.getFront⟩
  convertTo := hch.convertTo
  getMiddle := hch.getMiddle
  enumerateMiddle := hch.enumerateMiddle
  buildBack size puts hsorted hlengths := ⟨puts, buildBack_refStores c.toLengths 0 size puts hsorted,
    rfl, hsorted, hlengths, fun _ _ => answered_answer _, fun _ _ => entryOf_answer _⟩

/-- What holds in every state of a run: over lists it is the state of a safe run, and the tries find what they
list. -/
structure TrieInv (c : Config) (keep : Bool) (uninit : Nat → UInt8) (t₀ : HashTableCuckoo)
    (ch : Children (FawnDSSF Seeded FileStore) Middle FawnDSSFOrderedTrie)
    (s : State (FawnDSSF Seeded FileStore) Middle FawnDSSFOrderedTrie) : Prop where
  silt : SiltInv c keep uninit t₀ (overLists c.toLengths ch) (s.mapBack ch.enumerateBack)
  lists : BackLists c ch s

variable (hch : TrieStores c keep uninit t₀ n₀ draws node ch) (hfour : 4 ≤ c.keyLen) (hdataLen : c.dataLen ≠ 0)
  (hindex : n₀.maxIndex = t₀.maxIndex) (hinv : HashTableCuckoo.Inv ⟨t₀, []⟩)
include hch hfour

include hinv in
theorem trieInv_create : TrieInv c keep uninit t₀ ch (create ch) := by
  refine ⟨siltInv_create hch.siltStores hinv (madeLaws hch.siltStores hfour hinv), fun b hb => ?_,
    fun b n hb => ?_⟩
  · cases hb
  · cases hb

include hdataLen hindex

theorem TrieInv.stages (h : TrieInv c keep uninit t₀ ch s) :
    StageLaws c.toLengths (overLists c.toLengths ch) (s.mapBack ch.enumerateBack) :=
  h.silt.stages hch.siltStores hfour (.inr hdataLen) hindex

theorem TrieInv.builds (h : TrieInv c keep uninit t₀ ch s)
    (hindexed : ∀ merged, s.merging c ch merged → Indexed c node merged.maxNewBackStoreSize merged.puts) :
    Builds c ch s := by
  intro merged hmerging
  obtain ⟨hsorted, hlengths⟩ :=
    merging_puts (h.stages hch hfour hdataLen hindex) h.silt.inv (merging_mapBack hmerging)
  exact ⟨hsorted, buildBack_indexed hch.backs (by omega) (Nat.one_le_iff_ne_zero.mpr hdataLen)
    (hindexed merged hmerging) hsorted hlengths⟩

include hinv

theorem trieInv_step (hstep : step c ch uninit s l = some t) (hmergeable : Mergeable c keep uninit node ch s l)
    (h : TrieInv c keep uninit t₀ ch s) : TrieInv c keep uninit t₀ ch t := by
  obtain ⟨hmapped, hlists⟩ := mapBack_step
    (fun hl => h.builds hch hfour hdataLen hindex (hmergeable.indexed hl)) hstep h.lists
  have hsafe : Safe c keep uninit (overLists c.toLengths ch) (s.mapBack ch.enumerateBack) l := by
    refine ⟨fun u hu => ?_, hmergeable.safe.hidden⟩
    obtain rfl : t.mapBack ch.enumerateBack = u := Option.some.inj (hmapped.symm.trans hu)
    exact hmergeable.safe.ids t hstep
  exact ⟨siltInv_step hch.siltStores hfour (.inr hdataLen) hindex hinv (madeLaws hch.siltStores hfour hinv)
    hmapped hsafe h.silt, hlists⟩

theorem trieInv_run {labels : List Label} (hrun : run (step c ch uninit) s labels = some t)
    (hmergeable : Meets (step c ch uninit) (Mergeable c keep uninit node ch) s labels)
    (h : TrieInv c keep uninit t₀ ch s) : TrieInv c keep uninit t₀ ch t :=
  run_invariant_of_meets (fun _ _ _ => trieInv_step hch hfour hdataLen hindex hinv) hrun hmergeable h

end Runs

/-- The whole store is a map: in every run of calls, conversions and merges, in any order, each `Get` returns
what the last `Put` or `Delete` of its key that returned `OK` left. -/
theorem silt_store_refines_map (c : Config) (keep : Bool) (size : Int) (t₀ : HashTableCuckoo) (n₀ : TagTable)
    (uninit : Nat → UInt8) (draws : Nat → Nat → Nat) (node : TrieNode)
    (ch : Children (FawnDSSF Seeded FileStore) Middle FawnDSSFOrderedTrie) (hsize : 4 ≤ size)
    (htable : HashTableCuckoo.create size = .ok t₀) (htags : TagTable.create size = .ok n₀)
    (hfour : 4 ≤ c.keyLen) (hdataLen : c.dataLen ≠ 0)
    (hch : TrieStores c keep uninit t₀ n₀ draws node ch) (labels : List Label)
    (s : State (FawnDSSF Seeded FileStore) Middle FawnDSSFOrderedTrie)
    (hrun : run (step c ch uninit) (create ch) labels = some s)
    (hmergeable : Meets (step c ch uninit) (Mergeable c keep uninit node ch) (create ch) labels) :
    s.aborted = false ∧ ∀ k, k.length = c.keyLen → Answers (get c ch s k) (lastOk s.log k) := by
  obtain ⟨hinv, hindex⟩ := created_tables hsize htable htags
  have h := trieInv_run hch hfour hdataLen hindex hinv hrun hmergeable
    (trieInv_create hch hfour hinv)
  refine ⟨h.silt.inv.running, fun k hk => ?_⟩
  rw [← get_mapBack h.lists k]
  exact get_answers (h.stages hch hfour hdataLen hindex) h.silt.inv hk

section Examples

/-- Stores that answer as the calls return. -/
def trieStores (T : HashTable Seeded (Nat × Nat)) (c : Config) (keep : Bool) (uninit : Nat → UInt8)
    (t₀ : HashTableCuckoo) (n₀ : TagTable) (draws : Nat → Nat → Nat) (node : TrieNode) :
    Children (FawnDSSF Seeded FileStore) Middle FawnDSSFOrderedTrie :=
  overTries c.toLengths node (siltStores T c keep uninit t₀ n₀ draws)

theorem trieStores_laws (c : Config) (keep : Bool) (uninit : Nat → UInt8) (t₀ : HashTableCuckoo) (n₀ : TagTable)
    (draws : Nat → Nat → Nat) (node : TrieNode) : TrieStores c keep uninit t₀ n₀ draws node
      (trieStores HashTableCuckoo.hashTable c keep uninit t₀ n₀ draws node) := by
  have hsilt := siltStores_laws c keep uninit t₀ n₀ draws
  refine ⟨⟨rfl, hsilt.fronts.putFront, hsilt.fronts.deleteFront, hsilt.fronts.getFront⟩, hsilt.convertTo,
    hsilt.getMiddle, hsilt.enumerateMiddle, fun size r t _ ht => ?_, fun t key data r hr => ?_,
    fun t r hr => ?_, fun t key r hr => ?_, rfl⟩
  · simp only [trieStores, overTries, ht]
  · simp only [trieStores, overTries, hr, Option.getD_some]
  · simp only [trieStores, overTries, hr, Option.map_some, Option.getD_some]
  · simp only [trieStores, overTries, hr, Option.map_some, Option.getD_some]

/-- Keys of four bytes and values of one byte. -/
def fourBytes : Config :=
  { smallConfig with
    toLengths :=
      { keyLen := 4
        dataLen := 1
        keyLen_lt := keysOnly.keyLen_lt
        dataLen_lt := smallConfig.dataLen_lt } }

theorem smallNode_keysPerBlock : 1 ≤ 1 := Nat.le_refl 1

theorem smallNode_bucketSize : 2 ≤ 2 := Nat.le_refl 2

def smallNode : TrieNode := ⟨1, 2, 0, smallNode_keysPerBlock, smallNode_bucketSize⟩

def tries : Children (FawnDSSF Seeded FileStore) Middle FawnDSSFOrderedTrie :=
  trieStores HashTableCuckoo.hashTable fourBytes true (fun _ => 0) oneBucket oneBucketTags (fun _ _ => 0)
    smallNode

theorem tries_eq : tries =
    trieStores sweptTable fourBytes true (fun _ => 0) oneBucket oneBucketTags (fun _ _ => 0) smallNode := by
  rw [tries, hashTable_eq_sweptTable]

def putPair (i v : UInt8) : List Label := [.put [i, 0, 0, 0] [v], .putTry 0]

/-- Four keys fill a front store, and the fifth is in its log too when it comes into the next one. The full
store is converted with its log, and the records go to the sorter. -/
def pairsSorted : List Label :=
  putPair 1 11 ++ putPair 2 12 ++ putPair 3 13 ++ putPair 4 14 ++ putPair 5 15 ++
    [.putUpgrade 0 1, .putTry 0] ++ convertOne ++ [.mergeStart, .mergePick, .mergeSort, .mergePick]

def pairsSorter : Sorter :=
  ⟨true, false, 4, 2, [[1, 0, 0, 0], [2, 0, 0, 0], [3, 0, 0, 0], [4, 0, 0, 0], [5, 0, 0, 0]],
    [[0, 11], [0, 12], [0, 13], [0, 14], [0, 15]], []⟩

def pairsPut : List (Value × Value) :=
  [([1, 0, 0, 0], [11]), ([2, 0, 0, 0], [12]), ([3, 0, 0, 0], [13]), ([4, 0, 0, 0], [14]),
    ([5, 0, 0, 0], [15])]

deriving instance DecidableEq for MergeTask.Merged
deriving instance DecidableEq for Label

theorem merge_pairsSorter :
    MergeTask.merge fourBytes.toLengths none (some pairsSorter) 0 5 0 = some ⟨5, pairsPut, 5, 0, 5⟩ := by
  have hsorted : (pairsSorter.refs ++ List.range pairsSorter.keyArray.length).mergeSort
      (fun i j => !Sorter.ordering pairsSorter.keyArray j i) = [0, 1, 2, 3, 4] :=
    List.mergeSort_of_pairwise (by decide)
  have hflush : pairsSorter.flush =
      (.ok, { pairsSorter with inputEnded := true, refs := [0, 1, 2, 3, 4] }) := by
    rw [Sorter.flush, hsorted]
    rfl
  rw [MergeTask.merge, hflush]
  decide +kernel

theorem mergePc_of_sorted {F M B : Type} {s : State F M B} {n numAdds numDels : Nat} {sorter : Sorter}
    (h : s.sorted = some (n, sorter, numAdds, numDels)) :
    s.mergePc = .sorted n (some sorter) numAdds numDels := by
  rw [State.sorted] at h
  split at h
  · cases h
    assumption
  · cases h

theorem indexed_pairsPut : Indexed fourBytes smallNode 5 pairsPut := by
  refine ⟨?_, by decide +kernel, by decide, fun _ _ _ _ _ _ i hi => absurd hi (Nat.not_lt_zero i)⟩
  have hclog : Nat.clog 2 (5 / smallNode.bucketSize) = 1 := by decide +kernel
  obtain ⟨t, -, hcreate, -⟩ := @BucketingIndex.createChecked_ok 5 smallNode.bucketSize (by decide)
    (by rw [hclog]; decide) (by rw [hclog]; decide)
  exact ⟨_, hcreate⟩

/-- The records are merged into a trie, and are found there. -/
theorem silt_store_refines_map_pairs : ∃ u,
    run (step fourBytes tries fun _ => 0) (create tries)
      (pairsSorted ++ [.mergeRun, .mergeSwap, .mergeFinish]) = some u ∧
    u.stage1.length = 0 ∧ u.stage2.length = 1 ∧ get fourBytes tries u [2, 0, 0, 0] = (.ok, [12]) := by
  have hobserved : ((run (step fourBytes tries fun _ => 0) (create tries) pairsSorted).map fun s =>
      decide ((s.aborted = false ∧ s.mergeTaskRunning = true ∧ s.stage1.length = 1 ∧ s.stage2.length = 0 ∧
        s.sorted = some (1, pairsSorter, 5, 0) ∧ s.backStoreSize = 0 ∧ FrontIdsBelow s ∧
        lastOk s.log [2, 0, 0, 0] = some [12]) ∧
          Meets (step fourBytes tries fun _ => 0) (Safe fourBytes true (fun _ => 0) tries) (create tries)
            pairsSorted)) = some true := by
    rw [tries_eq]
    decide +kernel
  obtain ⟨s, hs, hrest⟩ := Option.map_eq_some_iff.mp hobserved
  obtain ⟨⟨hrunning, htask, h1, h2, hsorted, hsize, hids, hlast⟩, hsafe⟩ := of_decide_eq_true hrest
  have hpc := mergePc_of_sorted hsorted
  have h2 : s.stage2 = [] := List.eq_nil_of_length_eq_zero h2
  obtain ⟨b, hbuild⟩ := Option.isSome_iff_exists.mp
    (show (buildBack tries 5 pairsPut).isSome = true by decide +kernel)
  let merging : State (FawnDSSF Seeded FileStore) Middle FawnDSSFOrderedTrie :=
    { s with backStoreSize := 5, mergePc := .merged b 1 }
  let swapped : State (FawnDSSF Seeded FileStore) Middle FawnDSSFOrderedTrie :=
    { merging with stage1 := s.stage1.take (s.stage1.length - 1), stage2 := [b], mergePc := .swapped }
  let finished : State (FawnDSSF Seeded FileStore) Middle FawnDSSFOrderedTrie :=
    { swapped with mergeTaskRunning := false, mergePc := .idle }
  have hmerging : step fourBytes tries (fun _ => 0) s .mergeRun = some merging := by
    simp [step, hrunning, mergeRun, hpc, h2, hsize, merge_pairsSorter, hbuild, merging]
  have hswapped : step fourBytes tries (fun _ => 0) merging .mergeSwap = some swapped := by
    simp [step, hrunning, mergeSwap, merging, swapped]
  have hfinished : step fourBytes tries (fun _ => 0) swapped .mergeFinish = some finished := by
    simp [step, hrunning, mergeFinish, htask, h1, merging, swapped, finished]
  have hmerge : run (step fourBytes tries fun _ => 0) s [.mergeRun, .mergeSwap, .mergeFinish] = some finished :=
    run_cons_eq_some.mpr ⟨_, hmerging, run_cons_eq_some.mpr ⟨_, hswapped,
      run_cons_eq_some.mpr ⟨_, hfinished, rfl⟩⟩⟩
  have hrun : run (step fourBytes tries fun _ => 0) (create tries)
      (pairsSorted ++ [.mergeRun, .mergeSwap, .mergeFinish]) = some finished := by
    rw [run_append, hs]
    exact hmerge
  have hmeets : Meets (step fourBytes tries fun _ => 0) (Mergeable fourBytes true (fun _ => 0) smallNode tries)
      (create tries) (pairsSorted ++ [.mergeRun, .mergeSwap, .mergeFinish]) := by
    have hprefix : Meets (step fourBytes tries fun _ => 0) (fun _ l => l ≠ .mergeRun) (create tries)
        pairsSorted :=
      meets_of_forall_mem (by decide) _
    refine meets_append hs ((hsafe.and hprefix).imp fun u l h => ⟨h.1, fun hl => absurd hl h.2⟩) ?_
    have hids' : ∀ {u v : State (FawnDSSF Seeded FileStore) Middle FawnDSSFOrderedTrie} {l : Label},
        step fourBytes tries (fun _ => 0) u l = some v → FrontIdsBelow v →
        ∀ w ∈ step fourBytes tries (fun _ => 0) u l, FrontIdsBelow w := by
      intro u v l hstep hv w hw
      rw [hstep] at hw
      cases hw
      exact hv
    refine Meets.cons hmerging ⟨⟨hids' hmerging hids, ?_⟩, ?_⟩
      (Meets.cons hswapped ⟨⟨hids' hswapped hids, ?_⟩, fun hl => by cases hl⟩
        (Meets.cons hfinished ⟨⟨hids' hfinished hids, ?_⟩, fun hl => by cases hl⟩ trivial))
    · exact fun _ f hf => by cases hf
    · rintro - merged ⟨n, sorter, a, d, hpc', hmerged⟩
      rw [hpc] at hpc'
      cases hpc'
      rw [h2, hsize] at hmerged
      cases merge_pairsSorter.symm.trans hmerged
      exact indexed_pairsPut
    · exact fun _ f hf => by cases hf
    · exact fun _ f hf => by cases hf
  obtain ⟨-, hmap⟩ := silt_store_refines_map fourBytes true 4 oneBucket oneBucketTags (fun _ => 0)
    (fun _ _ => 0) smallNode tries (by decide) rfl rfl (by decide) (by decide) (trieStores_laws _ _ _ _ _ _ _) _
    finished hrun hmeets
  refine ⟨finished, hrun, ?_, rfl, ?_⟩
  · simp [finished, swapped, h1]
  · have hans := hmap [2, 0, 0, 0] rfl
    rw [show lastOk finished.log [2, 0, 0, 0] = some [12] from hlast] at hans
    exact hans

end Examples

end FawnKV.Silt.FawnDSCombi
