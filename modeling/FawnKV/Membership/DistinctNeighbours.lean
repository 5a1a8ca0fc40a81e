import FawnKV.Membership.RingOrder

/-! The searches of the manager for the nearest virtual nodes of another machine. -/
namespace FawnKV.Membership

open Fawn RingWalk

/-- What a search comes to: it returns a pointer, of which `none` is null, or it follows the end iterator. -/
inductive Search (P : Type) where
  | returned (vn : Option (VirtualNode P))
  | followedEnd

section Searches

variable {P : Type} (val : P → Node) (nodeList : List (VirtualNode P))

/-- The test of both searches. -/
def otherIP (currIP : Data) (v : VirtualNode P) : Bool := decide ((val v.n).ip ≠ currIP)

/-- The inner loop of `getDistinctPredecessor`, with the iterator at `j`; `none` where the fuel is used up. The
`j--` after the round that finds the node, which may step back from `begin()`, is left out: nothing reads `j`
behind it. -/
def distinctBackward (currIP : Data) (i : Nat) : Nat → Nat → Option (Search P)
  | 0, _ => none
  | fuel + 1, j =>
    if j = i then some (.returned none)
    else
      match nodeList[j]? with
      | none => some .followedEnd
      | some v =>
        if otherIP val currIP v then some (.returned (some v))
        else distinctBackward currIP i fuel ((if j = 0 then nodeList.length else j) - 1)

/-- The inner loop of `getDistinctSuccessor`. It follows the iterator before it compares it with the end. -/
def distinctForward (currIP : Data) (i : Nat) : Nat → Nat → Option (Search P)
  | 0, _ => none
  | fuel + 1, j =>
    if j = i then some (.returned none)
    else
      match nodeList[j]? with
      | none => some .followedEnd
      | some v =>
        if otherIP val currIP v then some (.returned (some v))
        else if j = nodeList.length then
          match nodeList[0]? with
          | none => some .followedEnd
          | some w => if otherIP val currIP w then some (.returned
            (some w)) else distinctForward currIP i fuel 1
        else distinctForward currIP i fuel (j + 1)

/-- The outer loop of both, which goes on until a virtual node is found. -/
def distinctFrom (inner : Nat → VirtualNode P → Option (Search P)) (vn : SizedDbid) :
    Nat → List (VirtualNode P) → Option (Search P)
  | _, [] => some (.returned none)
  | i, v :: rest =>
    if v.id.value = vn.value then
      match inner i v with
      | some (.returned none) => distinctFrom inner vn (i + 1) rest
      | r => r
    else distinctFrom inner vn (i + 1) rest

def getDistinctPredecessor (fuel : Nat) (vn : SizedDbid) : Option (Search P) :=
  distinctFrom (fun i v => distinctBackward val nodeList (val v.n).ip i fuel
    ((if i = 0 then nodeList.length else i) - 1)) vn 0 nodeList

def getDistinctSuccessor (fuel : Nat) (vn : SizedDbid) : Option (Search P) :=
  distinctFrom (fun i v => distinctForward val nodeList (val v.n).ip i fuel
    (if i + 1 = nodeList.length then 0 else i + 1)) vn 0 nodeList

/-- The search ends with the first of the virtual nodes on the way whose address is not that of `v`, or with
null where all virtual nodes have that address. -/
structure Nearest (way : List (VirtualNode P)) (v : VirtualNode P)
  (search : Nat → Option (Search P)) : Prop where
  finds : ∀ fuel, nodeList.length ≤ fuel →
    search fuel = some (.returned (way.find? (otherIP val (val v.n).ip)))
  null_iff : way.find? (otherIP val (val v.n).ip) = none ↔ ∀ u ∈ nodeList, ∀ w ∈ nodeList,
    (val u.n).ip = (val w.n).ip

/-- The virtual nodes after position `i`, around the ring and clockwise. -/
def others (i : Nat) : List (VirtualNode P) := walk nodeList (i + 1) (nodeList.length - 1)

variable {val nodeList} {v : VirtualNode P} {i j : Nat}

theorem walk_round (hv : nodeList[i]? = some v) : v :: others nodeList i = nodeList.rotate i := by
  obtain ⟨hi, -⟩ := List.getElem?_eq_some_iff.mp hv
  have hlen : nodeList.length = nodeList.length - 1 + 1 := by omega
  rw [← walk_length, others]
  conv => rhs; rw [hlen]
  rw [walk_succ (by rw [Nat.mod_eq_of_lt hi]; exact hv)]

theorem others_eq (hv : nodeList[i]? = some v) : others nodeList i = nodeList.drop (i + 1) ++
    nodeList.take i := by
  obtain ⟨hi, rfl⟩ := List.getElem?_eq_some_iff.mp hv
  have hround := walk_round hv
  rw [List.rotate_eq_drop_append_take (Nat.le_of_lt hi), List.drop_eq_getElem_cons hi] at hround
  exact (List.cons.inj hround).2

/-- Only virtual nodes with the address of `v` are on the way exactly if all have one address. -/
theorem find_others_eq_none (hv : nodeList[i]? = some v) :
    (others nodeList i).find? (otherIP val (val v.n).ip) = none ↔
      ∀ u ∈ nodeList, ∀ w ∈ nodeList, (val u.n).ip = (val w.n).ip := by
  have hmem : ∀ u, u ∈ nodeList ↔ u = v ∨ u ∈ others nodeList i := by
    intro u
    rw [← List.mem_cons, walk_round hv, List.mem_rotate]
  rw [List.find?_eq_none]
  constructor
  · intro h
    have hsame : ∀ u ∈ nodeList, (val u.n).ip = (val v.n).ip := by
      intro u hu
      rcases (hmem u).mp hu with rfl | hu
      · rfl
      · simpa [otherIP] using h u hu
    exact fun u hu w hw => (hsame u hu).trans (hsame w hw).symm
  · intro h u hu
    have hsame := h u ((hmem u).mpr (.inr hu)) v (List.mem_of_getElem? hv)
    simp [otherIP, hsame]

theorem distinctFrom_absent {inner : Nat → VirtualNode P → Option (Search P)} {vn : SizedDbid} (k : Nat)
    {l : List (VirtualNode P)} (h : ∀ u ∈ l, u.id.value ≠ vn.value) :
    distinctFrom inner vn k l = some (.returned none) := by
  induction l generalizing k with
  | nil => rfl
  | cons u rest ih =>
    rw [distinctFrom, if_neg (h u List.mem_cons_self)]
    exact ih (k + 1) fun w hw => h w (List.mem_cons_of_mem u hw)

/-- The outer loop comes to the inner one for one virtual node only. -/
theorem distinctFrom_eq {inner : Nat → VirtualNode P → Option (Search P)} (k : Nat) {l : List (VirtualNode P)}
    (hinc : Increasing l) (hv : l[i]? = some v) : distinctFrom inner v.id k l = inner (k + i) v := by
  induction l generalizing k i with
  | nil => cases hv
  | cons u rest ih =>
    obtain ⟨hu, hrest⟩ := List.pairwise_cons.mp hinc
    cases i with
    | zero =>
      cases hv
      have habsent : ∀ w ∈ rest, w.id.value ≠ v.id.value := by
        intro w hw heq
        have hlt := (Dbid.lessThan_value _ _).mp (hu w hw)
        rw [Dbid.value_inj.mp heq] at hlt
        exact lt_irrefl _ hlt
      rw [distinctFrom, if_pos rfl, distinctFrom_absent (k + 1) habsent]
      split
      · rename_i hnone
        exact hnone.symm
      · rfl
    | succ i =>
      have hmem := List.mem_of_getElem? hv
      rw [List.getElem?_cons_succ] at hv
      have hne : u.id.value ≠ v.id.value := by
        intro heq
        have hlt := (Dbid.lessThan_value _ _).mp (hu v (List.mem_of_getElem? hv))
        rw [Dbid.value_inj.mp heq] at hlt
        exact lt_irrefl _ hlt
      rw [distinctFrom, if_neg hne, ih (k + 1) hrest hv, Nat.add_right_comm, Nat.add_assoc]

/-- The way back from `d` steps after position `i`. -/
theorem distinctBackward_eq {currIP : Data} {d fuel : Nat} (hi : i < nodeList.length) (hd : d < nodeList.length)
    (hfuel : d < fuel) :
    distinctBackward val nodeList currIP i fuel ((i + d) % nodeList.length) =
      some (.returned ((walk nodeList (i + 1) d).reverse.find? (otherIP val currIP))) := by
  induction d generalizing fuel with
  | zero =>
    obtain ⟨fuel, rfl⟩ : ∃ k, fuel = k + 1 := ⟨fuel - 1, by omega⟩
    have hsame : (i + 0) % nodeList.length = i := Nat.mod_eq_of_lt hi
    rw [distinctBackward, if_pos hsame]
    rfl
  | succ d ih =>
    obtain ⟨fuel, rfl⟩ : ∃ k, fuel = k + 1 := ⟨fuel - 1, by omega⟩
    obtain ⟨u, hu⟩ := exists_at (List.ne_nil_of_length_pos (Nat.zero_lt_of_lt hi)) (i + 1 + d)
    have hindex : i + (d + 1) = i + 1 + d := by omega
    have hne : ¬(i + 1 + d) % nodeList.length = i := by
      intro heq
      rcases Nat.lt_or_ge (i + 1 + d) nodeList.length with hin | hout
      · rw [Nat.mod_eq_of_lt hin] at heq
        omega
      · rw [Nat.mod_eq_sub_mod hout, Nat.mod_eq_of_lt (by omega)] at heq
        omega
    -- one step back, over the beginning of the list
    have hback : (if (i + 1 + d) % nodeList.length = 0 then nodeList.length else
        (i + 1 + d) % nodeList.length) - 1 =
        (i + d) % nodeList.length := by
      rcases Nat.lt_or_ge (i + 1 + d) nodeList.length with hin | hout
      · rw [Nat.mod_eq_of_lt hin, Nat.mod_eq_of_lt (by omega), if_neg (by omega)]
        omega
      · rw [Nat.mod_eq_sub_mod hout, Nat.mod_eq_of_lt (by omega)]
        split
        · rw [Nat.mod_eq_of_lt (by omega)]
          omega
        · rw [Nat.mod_eq_sub_mod (by omega), Nat.mod_eq_of_lt (by omega)]
          omega
    rw [hindex, distinctBackward, if_neg hne, hu, walk_concat hu, List.reverse_concat, List.find?_cons]
    simp only
    by_cases hother : otherIP val currIP u = true
    · rw [if_pos hother, hother]
    · rw [if_neg hother, Bool.eq_false_iff.mpr hother, hback, ih (by omega) (by omega)]

/-- Behind the virtual node itself the search only stops at another address, or at the end. -/
theorem distinctForward_behind {currIP : Data} {fuel : Nat} (hij : i < j) (hj : j ≤ nodeList.length)
    (hfuel : nodeList.length - j < fuel) :
    distinctForward val nodeList currIP i fuel j =
      match (nodeList.drop j).find? (otherIP val currIP) with
      | some s => some (.returned (some s))
      | none => some .followedEnd := by
  induction hk : nodeList.length - j generalizing j fuel with
  | zero =>
    obtain ⟨fuel, rfl⟩ : ∃ k, fuel = k + 1 := ⟨fuel - 1, by omega⟩
    have hend : nodeList.length ≤ j := by omega
    rw [distinctForward, if_neg (by omega), List.getElem?_eq_none hend, List.drop_eq_nil_of_le hend]
    rfl
  | succ k ih =>
    obtain ⟨fuel, rfl⟩ : ∃ k, fuel = k + 1 := ⟨fuel - 1, by omega⟩
    have hlt : j < nodeList.length := by omega
    rw [distinctForward, if_neg (by omega), List.getElem?_eq_getElem hlt, List.drop_eq_getElem_cons hlt,
      List.find?_cons]
    simp only
    by_cases hother : otherIP val currIP nodeList[j] = true
    · rw [if_pos hother, hother]
    · rw [if_neg hother, Bool.eq_false_iff.mpr hother, if_neg (by omega)]
      exact ih (Nat.lt_succ_of_lt hij) hlt (by omega) (by omega)

/-- Before it the search comes to the virtual node itself. -/
theorem distinctForward_before {currIP : Data} {fuel : Nat} (hi : i < nodeList.length) (hji : j ≤ i)
    (hfuel : i - j < fuel) :
    distinctForward val nodeList currIP i fuel j =
      some (.returned (((nodeList.take i).drop j).find? (otherIP val currIP))) := by
  induction hk : i - j generalizing j fuel with
  | zero =>
    obtain ⟨fuel, rfl⟩ : ∃ k, fuel = k + 1 := ⟨fuel - 1, by omega⟩
    rw [distinctForward, if_pos (by omega), List.drop_eq_nil_of_le (by rw [List.length_take]; omega)]
    rfl
  | succ k ih =>
    obtain ⟨fuel, rfl⟩ : ∃ k, fuel = k + 1 := ⟨fuel - 1, by omega⟩
    have hlt : j < (nodeList.take i).length := by rw [List.length_take]; omega
    have hj : j < nodeList.length := by omega
    rw [distinctForward, if_neg (by omega), List.getElem?_eq_getElem hj, List.drop_eq_getElem_cons hlt,
      List.find?_cons, List.getElem_take]
    simp only
    by_cases hother : otherIP val currIP nodeList[j] = true
    · rw [if_pos hother, hother]
    · rw [if_neg hother, Bool.eq_false_iff.mpr hother, if_neg (by omega)]
      exact ih (by omega) (by omega) (by omega)

theorem getDistinctPredecessor_eq (hinc : Increasing nodeList) (hv : nodeList[i]? = some v) {fuel : Nat}
    (hfuel : nodeList.length ≤ fuel) :
    getDistinctPredecessor val nodeList fuel v.id =
      some (.returned ((others nodeList i).reverse.find? (otherIP val (val v.n).ip))) := by
  obtain ⟨hi, -⟩ := List.getElem?_eq_some_iff.mp hv
  have hstart : (if i = 0 then nodeList.length else i) - 1 = (i + (nodeList.length - 1)) % nodeList.length := by
    split
    · rw [Nat.mod_eq_of_lt (by omega)]
      omega
    · rw [Nat.mod_eq_sub_mod (by omega), Nat.mod_eq_of_lt (by omega)]
      omega
  rw [getDistinctPredecessor, distinctFrom_eq 0 hinc hv]
  simp only [Nat.zero_add]
  rw [hstart, distinctBackward_eq hi (by omega) (by omega)]
  rfl

/-- The last virtual node of the list, or one with another address behind it. -/
def SuccessorHolds (val : P → Node) (nodeList : List (VirtualNode P)) (i : Nat) (v : VirtualNode P) : Prop :=
  i + 1 = nodeList.length ∨ ∃ w ∈ nodeList.drop (i + 1), (val w.n).ip ≠ (val v.n).ip

theorem getDistinctSuccessor_of_holds (hinc : Increasing nodeList) (hv : nodeList[i]? = some v)
    (hholds : SuccessorHolds val nodeList i v) {fuel : Nat} (hfuel : nodeList.length ≤ fuel) :
    getDistinctSuccessor val nodeList fuel v.id =
      some (.returned ((others nodeList i).find? (otherIP val (val v.n).ip))) := by
  obtain ⟨hi, -⟩ := List.getElem?_eq_some_iff.mp hv
  rw [getDistinctSuccessor, distinctFrom_eq 0 hinc hv, others_eq hv, List.find?_append]
  simp only [Nat.zero_add]
  by_cases hlast : i + 1 = nodeList.length
  · rw [if_pos hlast, distinctForward_before hi (Nat.zero_le i) (by omega), List.drop_zero, hlast,
      List.drop_length]
    rfl
  · obtain ⟨w, hw, hother⟩ := hholds.resolve_left hlast
    rw [if_neg hlast, distinctForward_behind (Nat.lt_succ_self i) hi (by omega)]
    cases hfind : (nodeList.drop (i + 1)).find? (otherIP val (val v.n).ip) with
    | none => exact absurd (decide_eq_true hother) (List.find?_eq_none.mp hfind w hw)
    | some s => rfl

theorem getDistinctSuccessor_of_not_holds (hinc : Increasing nodeList) (hv : nodeList[i]? = some v)
    (hholds : ¬SuccessorHolds val nodeList i v) {fuel : Nat} (hfuel : nodeList.length ≤ fuel) :
    getDistinctSuccessor val nodeList fuel v.id = some .followedEnd := by
  obtain ⟨hi, -⟩ := List.getElem?_eq_some_iff.mp hv
  have hlast : ¬i + 1 = nodeList.length := fun hlast => hholds (.inl hlast)
  rw [getDistinctSuccessor, distinctFrom_eq 0 hinc hv]
  simp only [Nat.zero_add]
  rw [if_neg hlast, distinctForward_behind (Nat.lt_succ_self i) hi (by omega)]
  cases hfind : (nodeList.drop (i + 1)).find? (otherIP val (val v.n).ip) with
  | none => rfl
  | some s =>
    have hother := List.find?_some hfind
    exact absurd (.inr ⟨s, List.mem_of_find?_eq_some hfind, of_decide_eq_true hother⟩) hholds

/-- The search for a predecessor finds the nearest virtual node of another machine, and the one for a
successor does exactly if the virtual node is the last of the list or has one of another machine behind it.
-/
theorem distinct_neighbours (val : P → Node) (nodeList : List (VirtualNode P))
    (hinc : Increasing nodeList) (i : Nat)
    (v : VirtualNode P) (hv : nodeList[i]? = some v) :
    Nearest val nodeList (others nodeList i).reverse v
      (fun fuel => getDistinctPredecessor val nodeList fuel v.id) ∧
      (Nearest val nodeList (others nodeList i) v (fun fuel => getDistinctSuccessor val nodeList fuel v.id) ↔
        SuccessorHolds val nodeList i v) := by
  have hnull : (others nodeList i).find? (otherIP val (val v.n).ip) = none ↔ _ := find_others_eq_none hv
  refine ⟨⟨fun fuel hfuel => getDistinctPredecessor_eq hinc hv hfuel, ?_⟩, fun hnearest => ?_, fun hholds => ?_⟩
  · rw [List.find?_eq_none] at hnull ⊢
    simp only [List.mem_reverse]
    exact hnull
  · by_contra hnot
    have hfound := hnearest.finds nodeList.length (Nat.le_refl _)
    simp only [getDistinctSuccessor_of_not_holds hinc hv hnot (Nat.le_refl _)] at hfound
    cases hfound
  · exact ⟨fun fuel hfuel => getDistinctSuccessor_of_holds hinc hv hholds hfuel, hnull⟩

end Searches

section Machines

/-- Three virtual nodes, the last two of one machine. -/
def twoMachines : List (VirtualNode Node) :=
  [.new ⟨[98], 2⟩ (.init [3]), .new ⟨[97], 1⟩ (.init [5]), .new ⟨[97], 1⟩ (.init [9])]

theorem twoMachines_increasing : Increasing twoMachines := by
  refine .cons (fun v hv => ?_) (.cons (fun v hv => ?_) (List.pairwise_singleton _ _))
  · rcases List.mem_cons.mp hv with rfl | hv
    · decide
    · cases List.mem_singleton.mp hv
      decide
  · cases List.mem_singleton.mp hv
    decide

/-- The last of them is found a successor over the end of the list. -/
theorem distinct_neighbours_last :
    Nearest id twoMachines (others twoMachines 2) (.new ⟨[97], 1⟩ (.init [9]))
      (fun fuel => getDistinctSuccessor id twoMachines fuel (.init (SizedDbid.init [9]).value)) :=
  (distinct_neighbours id twoMachines twoMachines_increasing 2
    (.new ⟨[97], 1⟩ (.init [9])) rfl).2.mpr (.inl rfl)

/-- From the one before it, the search follows the end iterator. -/
theorem distinctSuccessor_followedEnd :
    getDistinctSuccessor id twoMachines 3 (.init [5]) = some .followedEnd ∧
      ¬Nearest id twoMachines (others twoMachines 1) (.new ⟨[97], 1⟩ (.init [5]))
        (fun fuel => getDistinctSuccessor id twoMachines fuel (.init [5])) := by
  have hend : getDistinctSuccessor id twoMachines 3 (.init [5]) = some .followedEnd := by rfl
  refine ⟨hend, fun hnearest => ?_⟩
  have hfound := hnearest.finds 3 (Nat.le_refl _)
  simp only [hend] at hfound
  cases hfound

end Machines

end FawnKV.Membership
