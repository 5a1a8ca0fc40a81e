import FawnKV.Membership.Join

/-! The marks of ranges that a joining virtual node is the tail of, until its messages have come back. -/
namespace FawnKV.Membership

open Fawn RingWalk Transition

section Operations

/-- A message that is on its way, with the number of its range; the joiner is the tail of the first range. -/
structure Outstanding where
  message : FlushSplit
  range : Nat

structure JoinRun where
  manager : JoinManager
  pending : List Outstanding

inductive JoinLabel where
  | join (vid ip : Data) (port : Int)
  | complete (k : Nat)

namespace JoinRun

/-- A join to a ring with nodes, or the return of a message to the manager. -/
def step (s : JoinRun) : JoinLabel → Option JoinRun
  | .join vid ip port =>
    if s.manager.nodeList = [] ∨ s.manager.numJoinedPhyNodes = 0 then none
    else
      match s.manager.vnodeJoin vid ip port with
      | .ok (m, msgs) => some { manager := m, pending := s.pending ++ msgs.mapIdx fun i msg => ⟨msg, i⟩ }
      | .error _ => none
  | .complete k =>
    match s.pending[k]? with
    | some o => some { manager := s.manager.flushSplit o.message.vid, pending := s.pending.eraseIdx k }
    | none => none

/-- A virtual node became the tail of the range that ends at `v`, and the message for that range is on its
way. -/
def TailPending (s : JoinRun) (v : Data) : Prop := ∃ o ∈ s.pending, o.range = 0 ∧ o.message.endKey = v

/-- The marks are those of such ranges. -/
def Marked (s : JoinRun) : Prop := ∀ v : Data, s.manager.vidTemptailMap[v]? = some true ↔ s.TailPending v

/-- Chains of one node; a joiner with an id of the whole length, which has no message on its way. -/
def Clearable (s : JoinRun) : JoinLabel → Prop
  | .join vid _ _ => s.manager.replicaGroupSize = 1 ∧ vid.length = dbidLength ∧ ∀ o ∈ s.pending,
    o.message.vid ≠ vid
  | .complete _ => True

/-- A ring with nodes, without marks and without messages on their way. -/
structure Quiet (s : JoinRun) : Prop where
  no_pending : s.pending = []
  no_marks : ∀ v : Data, s.manager.vidTemptailMap[v]? ≠ some true

end JoinRun

end Operations

section Steps

variable {s t : JoinRun} {vid ip : Data} {port : Int}

/-- What a message says of the window of its join. -/
theorem rangeMessage_inv {m : Members} {window : List (VirtualNode Nat)} {i : Nat} {msg : FlushSplit}
    (h : m.rangeMessage vid ip port window i = .ok msg) :
    msg.vid = vid ∧ window[i + 1]?.map (·.id.value) = some msg.endKey := by
  unfold Members.rangeMessage at h
  split at h
  · rename_i first second rest hdrop
    have hsecond : window[i + 1]? = some second := by
      rw [← List.getElem?_drop, hdrop]
      rfl
    split at h
    · cases h
    · split at h
      · cases h
      · cases h
        exact ⟨rfl, by rw [hsecond]; rfl⟩
  · cases h

/-- What a join adds: the mark of `u`, and its messages, of which the first is for the range that ends at
`u`. -/
structure Joins (s : JoinRun) (vid u : Data) (msgs : List FlushSplit) (t : JoinRun) : Prop where
  marks_eq : t.manager.vidTemptailMap = s.manager.vidTemptailMap.insert u true
  pending_eq : t.pending = s.pending ++ msgs.mapIdx fun i msg => ⟨msg, i⟩
  size_eq : t.manager.replicaGroupSize = s.manager.replicaGroupSize
  length_eq : msgs.length = s.manager.replicaGroupSize.toNat
  vid_eq : ∀ msg ∈ msgs, msg.vid = vid
  endKey_eq : ∀ msg, msgs[0]? = some msg → msg.endKey = u
  own_range : s.manager.replicaGroupSize = 1 → u = (Dbid.init vid).value
  other_range : 1 < s.manager.replicaGroupSize.toNat → ∃ v ∈ s.manager.nodeList, u = v.id.value

/-- The second entry of the window is the joiner, or a predecessor where chains are longer. -/
theorem joinWindow_second {m : Members} {joiner : Nat} {v : VirtualNode Nat} (hne : m.nodeList ≠ [])
    (h : (m.joinWindow vid joiner)[1]? = some v) :
    (m.replicaGroupSize = 1 → v.id.value = (Dbid.init vid).value) ∧
      (1 < m.replicaGroupSize.toNat → v ∈ m.nodeList) := by
  obtain ⟨preds, heq, hlen, hall⟩ := pushPredecessors_append hne m.replicaGroupSize.toNat (.init vid) []
  rw [joinWindow_eq, heq, List.append_nil] at h
  constructor
  · intro hone
    have hlen' : preds.length = 1 := by rw [hlen, hone]; rfl
    rw [List.getElem?_append_right (by omega), hlen'] at h
    cases h
    exact congrArg Dbid.value (new_toDbid joiner (.init vid))
  · intro hmore
    rw [List.getElem?_append_left (by omega)] at h
    exact hall v (List.mem_of_getElem? h)

theorem step_join (h : s.step (.join vid ip port) = some t) : ∃ u msgs, Joins s vid u msgs t := by
  unfold JoinRun.step at h
  simp only at h
  split at h
  · cases h
  · rename_i hring
    obtain ⟨hne, hjoined⟩ := not_or.mp hring
    split at h
    · rename_i m msgs hjoin
      cases h
      obtain ⟨-, hmsgs, v, hv, rfl⟩ := (vnodeJoin_iff hjoined).mp hjoin
      obtain ⟨hnodes, hsize, hmarks⟩ := s.manager.toMembers.createNode_kept ip port
      obtain ⟨hlen, hall⟩ := mapM_range_inv hmsgs
      have hrange : ∀ (i : Nat) (msg : FlushSplit), msgs[i]? = some msg → msg.vid = vid ∧
          ((s.manager.joining ip port).1.joinWindow vid (s.manager.joining ip port).2)[i + 1]?.map
            (·.id.value) =
            some msg.endKey := fun i msg hmsg => rangeMessage_inv (hall i msg hmsg)
      obtain ⟨hown, hother⟩ :=
          joinWindow_second (by rw [JoinManager.joining, Manager.createNode, hnodes]; exact hne) hv
      refine ⟨v.id.value, msgs, ?_, rfl, hsize, hlen.trans (congrArg UInt32.toNat hsize), ?_, ?_, ?_, ?_⟩
      · exact congrArg (fun marks : StringMap Bool => marks.insert v.id.value true) hmarks
      · intro msg hmsg
        obtain ⟨i, hi, rfl⟩ := List.mem_iff_getElem.mp hmsg
        exact (hrange i _ (List.getElem?_eq_getElem hi)).1
      · intro msg hmsg
        have hend := (hrange 0 msg hmsg).2
        rw [hv] at hend
        exact (Option.some.inj hend).symm
      · exact fun hone => hown (hsize.trans hone)
      · intro hmore
        refine ⟨v, ?_, rfl⟩
        rw [← hnodes]
        exact hother (by rw [JoinManager.joining, Manager.createNode, hsize]; exact hmore)
    · cases h

theorem step_complete {k : Nat} (h : s.step (.complete k) = some t) :
    ∃ o, s.pending[k]? = some o ∧ t.pending = s.pending.eraseIdx k ∧
      t.manager.vidTemptailMap = s.manager.vidTemptailMap.insert o.message.vid false ∧
      t.manager.replicaGroupSize = s.manager.replicaGroupSize := by
  unfold JoinRun.step at h
  simp only at h
  split at h
  · rename_i o ho
    cases h
    exact ⟨o, ho, rfl, rfl, rfl⟩
  · cases h

theorem getElem?_insert_mark (map : StringMap Bool) (u v : Data) (b : Bool) :
    (map.insert u b)[v]? = if u = v then some b else map[v]? := by
  rw [Std.TreeMap.getElem?_insert]
  simp only [Std.compare_eq_iff_eq]

end Steps

section Runs

variable {s t : JoinRun} {l : JoinLabel}

/-- Every message on its way is for the range that ends at its joiner, and no joiner has two of them. -/
structure OwnRanges (s : JoinRun) : Prop where
  marked : s.Marked
  own : ∀ o ∈ s.pending, o.range = 0 ∧ o.message.endKey = o.message.vid
  distinct : (s.pending.map fun o => o.message.vid).Nodup

theorem ownRanges_join {vid ip : Data} {port : Int} (h : OwnRanges s) (hc : s.Clearable (.join vid ip port))
    (hstep : s.step (.join vid ip port) = some t) : OwnRanges t := by
  obtain ⟨hone, hlen, hnew⟩ := hc
  obtain ⟨u, msgs, hjoins⟩ := step_join hstep
  have hu : u = vid := (hjoins.own_range hone).trans (init_value_of_length hlen)
  subst hu
  obtain ⟨msg, rfl⟩ : ∃ msg, msgs = [msg] := List.length_eq_one_iff.mp (by rw [hjoins.length_eq, hone]; rfl)
  have hvid := hjoins.vid_eq msg List.mem_cons_self
  have hend := hjoins.endKey_eq msg rfl
  have hpending : t.pending = s.pending ++ [⟨msg, 0⟩] := hjoins.pending_eq
  refine ⟨fun v => ?_, fun o ho => ?_, ?_⟩
  · rw [hjoins.marks_eq, getElem?_insert_mark, JoinRun.TailPending, hpending]
    by_cases hv : u = v
    · rw [if_pos hv]
      exact ⟨fun _ => ⟨⟨msg, 0⟩, List.mem_append_right _ List.mem_cons_self, rfl, hend.trans hv⟩, fun _ => rfl⟩
    · rw [if_neg hv, h.marked v]
      constructor
      · rintro ⟨o, ho, hrest⟩
        exact ⟨o, List.mem_append_left _ ho, hrest⟩
      · rintro ⟨o, ho, hzero, hov⟩
        rcases List.mem_append.mp ho with ho | ho
        · exact ⟨o, ho, hzero, hov⟩
        · cases List.mem_singleton.mp ho
          exact absurd (hend.symm.trans hov) hv
  · rw [hpending] at ho
    rcases List.mem_append.mp ho with ho | ho
    · exact h.own o ho
    · cases List.mem_singleton.mp ho
      exact ⟨rfl, hend.trans hvid.symm⟩
  · rw [hpending, List.map_append, List.map_singleton]
    refine List.nodup_append.mpr ⟨h.distinct, List.nodup_singleton _, ?_⟩
    rintro a ha b hb rfl
    obtain ⟨o, ho, hov⟩ := List.mem_map.mp ha
    exact hnew o ho (hov.trans ((List.mem_singleton.mp hb).trans hvid))

theorem ownRanges_complete {k : Nat} (h : OwnRanges s) (hstep : s.step (.complete k) = some t) :
    OwnRanges t := by
  obtain ⟨o, ho, hpending, hmarks, -⟩ := step_complete hstep
  obtain ⟨hk, rfl⟩ := List.getElem?_eq_some_iff.mp ho
  have hperm := List.getElem_cons_eraseIdx_perm hk
  -- what is left has no message of this joiner
  have hleft : ∀ o' ∈ s.pending.eraseIdx k, o'.message.vid ≠ s.pending[k].message.vid := by
    have hnodup := (hperm.map fun o => o.message.vid).nodup_iff.mpr h.distinct
    rw [List.map_cons, List.nodup_cons] at hnodup
    intro o' ho' hsame
    exact hnodup.1 (hsame ▸ List.mem_map_of_mem ho')
  have hother : ∀ o' ∈ s.pending, o'.message.vid ≠ s.pending[k].message.vid → o' ∈ s.pending.eraseIdx k := by
    intro o' ho' hne
    rcases List.mem_cons.mp (hperm.mem_iff.mpr ho') with rfl | hin
    · exact absurd rfl hne
    · exact hin
  refine ⟨fun v => ?_, fun o' ho' => ?_, ?_⟩
  · rw [hmarks, getElem?_insert_mark, JoinRun.TailPending, hpending]
    by_cases hv : s.pending[k].message.vid = v
    · rw [if_pos hv]
      refine ⟨fun hfalse => (nomatch hfalse), ?_⟩
      rintro ⟨o', ho', -, hov⟩
      have hown := h.own o' (List.mem_of_mem_eraseIdx ho')
      exact absurd (hown.2.symm.trans (hov.trans hv.symm)) (hleft o' ho')
    · rw [if_neg hv, h.marked v]
      constructor
      · rintro ⟨o', ho', hzero, hov⟩
        refine ⟨o', hother o' ho' fun hsame => hv ?_, hzero, hov⟩
        rw [← hsame, ← (h.own o' ho').2, hov]
      · rintro ⟨o', ho', hrest⟩
        exact ⟨o', List.mem_of_mem_eraseIdx ho', hrest⟩
  · rw [hpending] at ho'
    exact h.own o' (List.mem_of_mem_eraseIdx ho')
  · rw [hpending]
    exact h.distinct.sublist ((List.eraseIdx_sublist _ _).map _)

theorem ownRanges_step (hstep : s.step l = some t) (hc : s.Clearable l) (h : OwnRanges s) : OwnRanges t := by
  cases l with
  | join vid ip port => exact ownRanges_join h hc hstep
  | complete k => exact ownRanges_complete h hstep

theorem ownRanges_quiet (h : s.Quiet) : OwnRanges s := by
  refine ⟨fun v => ⟨fun hv => absurd hv (h.no_marks v), ?_⟩, ?_, ?_⟩
  · rintro ⟨o, ho, -⟩
    rw [h.no_pending] at ho
    cases ho
  · rw [h.no_pending]
    exact fun o ho => (nomatch ho)
  · rw [h.no_pending]
    exact List.nodup_nil

/-- Messages that come back clear the ids of their joiners only. -/
theorem mark_kept {u vid : Data} (hu : u ≠ vid) (hstep : s.step l = some t) (hl : ∃ k, l = .complete k)
    (h : s.manager.vidTemptailMap[u]? = some true ∧ ∀ o ∈ s.pending, o.message.vid = vid) :
    t.manager.vidTemptailMap[u]? = some true ∧ ∀ o ∈ t.pending, o.message.vid = vid := by
  obtain ⟨k, rfl⟩ := hl
  obtain ⟨o, ho, hpending, hmarks, -⟩ := step_complete hstep
  have hvid := h.2 o (List.mem_of_getElem? ho)
  refine ⟨?_, fun o' ho' => h.2 o' ?_⟩
  · rw [hmarks, getElem?_insert_mark, if_neg (by rw [hvid]; exact hu.symm)]
    exact h.1
  · rw [hpending] at ho'
    exact List.mem_of_mem_eraseIdx ho'

/-- A join from a quiet state with a mark that is not for the joiner's own id, and whatever comes back of it. -/
theorem mark_left {vid u : Data} {msgs : List FlushSplit} {ls : List JoinLabel} {r : JoinRun}
    (hquiet : s.Quiet) (hjoins : Joins s vid u msgs r) (hu : u ≠ vid)
    (hls : ∀ l ∈ ls, ∃ k, l = JoinLabel.complete k) (hrun : run JoinRun.step r ls = some t) :
    t.manager.vidTemptailMap[u]? = some true := by
  have hstart : r.manager.vidTemptailMap[u]? = some true ∧ ∀ o ∈ r.pending, o.message.vid = vid := by
    refine ⟨by rw [hjoins.marks_eq, getElem?_insert_mark, if_pos rfl], ?_⟩
    rw [hjoins.pending_eq, hquiet.no_pending, List.nil_append]
    intro o ho
    obtain ⟨i, hi, rfl⟩ := List.mem_mapIdx.mp ho
    exact hjoins.vid_eq _ (List.getElem_mem hi)
  exact (run_invariant_of_meets (fun _ _ _ => mark_kept hu) hrun (meets_of_forall_mem hls r) hstart).1

/-- With chains of one node and ids of the whole length, the marks are right in every state of a run. With
longer chains, or another length, a join of a new id leaves a mark behind, in whatever order its messages
come back. -/
theorem temptail_marks (s : JoinRun) (hquiet : s.Quiet) :
    (∀ ls, Meets JoinRun.step JoinRun.Clearable s ls →
      Always JoinRun.step
        (fun t => t.Marked ∧ (t.pending = [] → ∀ v : Data, t.manager.vidTemptailMap[v]? ≠ some true)) s ls) ∧
    ∀ vid ip port (ls : List JoinLabel) t, (∀ v ∈ s.manager.nodeList, v.id.value ≠ vid) →
      1 < s.manager.replicaGroupSize.toNat ∨ s.manager.replicaGroupSize = 1 ∧ vid.length ≠ dbidLength →
      (∀ l ∈ ls, ∃ k, l = JoinLabel.complete k) → run JoinRun.step s (.join vid ip port :: ls) = some t →
        ∃ v : Data, t.manager.vidTemptailMap[v]? = some true := by
  constructor
  · intro ls hc
    refine always_of_meets (fun _ _ _ => ownRanges_step) (fun t ht => ⟨ht.marked, fun hempty v hv => ?_⟩) hc
      (ownRanges_quiet hquiet)
    obtain ⟨o, ho, -⟩ := (ht.marked v).mp hv
    rw [hempty] at ho
    cases ho
  · intro vid ip port ls t hnew hfail hls hrun
    obtain ⟨r, hjoin, hrun⟩ := run_cons_eq_some.mp hrun
    obtain ⟨u, msgs, hjoins⟩ := step_join hjoin
    refine ⟨u, mark_left hquiet hjoins ?_ hls hrun⟩
    rcases hfail with hmore | ⟨hone, hlen⟩
    · obtain ⟨v, hv, rfl⟩ := hjoins.other_range hmore
      exact hnew v hv
    · rw [hjoins.own_range hone]
      intro hsame
      exact hlen ((congrArg List.length hsame).symm.trans (Dbid.init vid).length_eq)

/-- One virtual node and no messages. -/
def oneNode (R : UInt32) : JoinRun :=
  { manager := { oneJoined with replicaGroupSize := R }, pending := [] }

theorem oneNode_quiet (R : UInt32) : (oneNode R).Quiet := by
  refine ⟨rfl, fun v hv => ?_⟩
  have hnone : (oneNode R).manager.vidTemptailMap[v]? = none := Std.TreeMap.getElem?_emptyc
  rw [hnone] at hv
  cases hv

def joinerVid : Data := 80 :: List.replicate 19 0

/-- A join to a chain of one node, whose message comes back. -/
theorem temptail_marks_single : ∃ t, run JoinRun.step (oneNode 1)
    [.join joinerVid [98] 2, .complete 0] = some t ∧
    Always JoinRun.step
      (fun t => t.Marked ∧ (t.pending = [] → ∀ v : Data, t.manager.vidTemptailMap[v]? ≠ some true)) (oneNode 1)
        [.join joinerVid [98] 2, .complete 0] := by
  have hrun : (run JoinRun.step (oneNode 1) [.join joinerVid [98] 2, .complete 0]).isSome = true :=
      by decide +kernel
  obtain ⟨t, ht⟩ := Option.isSome_iff_exists.mp hrun
  refine ⟨t, ht, (temptail_marks (oneNode 1) (oneNode_quiet 1)).1 _
    ⟨⟨rfl, by decide, fun o ho => (nomatch ho)⟩, ?_⟩⟩
  exact fun r _ => ⟨trivial, fun _ _ => trivial⟩

/-- With chains of two nodes, both messages come back and the range of the predecessor stays marked. -/
theorem temptail_mark_stays : (oneNode 2).Quiet ∧
    ∃ t, run JoinRun.step (oneNode 2) [.join joinerVid [98] 2, .complete 0, .complete 0] = some t ∧
      t.pending = [] ∧
      ¬t.Marked := by
  have hrun : (run JoinRun.step (oneNode 2) [.join joinerVid [98] 2, .complete 0, .complete 0]).map
      (fun t => (t.pending.length, t.manager.vidTemptailMap[16 :: List.replicate 19 (0 : UInt8)]?)) =
        some (0, some true) := by decide +kernel
  obtain ⟨t, ht, hvalue⟩ := Option.map_eq_some_iff.mp hrun
  rw [Prod.mk.injEq] at hvalue
  have hempty := List.length_eq_zero_iff.mp hvalue.1
  refine ⟨oneNode_quiet 2, t, ht, hempty, fun hmarked => ?_⟩
  obtain ⟨o, ho, -⟩ := (hmarked _).mp hvalue.2
  rw [hempty] at ho
  cases ho

end Runs

end FawnKV.Membership
