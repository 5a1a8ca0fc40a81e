import Mathlib.Data.List.Pairwise
import Mathlib.Logic.Function.Basic
import FawnKV.Lib.Transition
import FawnKV.Chain.Node

/-! Concurrent put handlers in a chain: application, numbering and forwarding are separate steps. -/
namespace FawnKV.Chain

open IntervalDb

/-- A put handler that has released `dbLock` and has yet to forward its put; `sequence` is its
number once it has one. -/
structure Handler (K V : Type) where
  msg : PutMessage K V
  sequence : Option Nat

/-- A node with its handlers, in the order in which they released `dbLock`, and the numbers of the
puts it has applied. -/
structure Site (K V : Type) where
  db : IntervalDb K V
  appliedSeqs : List Nat
  handlers : List (Handler K V)

/-- Node `0` is the head; `links j` is what is on its way to node `j` from the node before. -/
structure ChainState (K V : Type) where
  sites : Nat → Site K V
  links : Nat → List (PutMessage K V)

inductive ChainStep (K V : Type) where
  | request (op : Operation K V) (continuation : Nat)
  | receive (j : Nat)
  | number (j i : Nat)
  | send (j i : Nat)

variable {K V : Type}

namespace Site

def init (memory : Nat) : Site K V := { db := .init memory, appliedSeqs := [], handlers := [] }

/-- The part of the handler under `dbLock`; the tail has no more to do for the chain. -/
def accept (site : Site K V) (m : PutMessage K V) : Site K V :=
  { db := site.db.applyPut m
    appliedSeqs := site.appliedSeqs ++ [m.seq]
    handlers := if m.hops - 1 = 0 then site.handlers
      else site.handlers ++
        [{ msg := m, sequence := if m.seq % 2 ^ 32 = 0 then none else some (m.seq % 2 ^ 32) }] }

def number (site : Site K V) (i : Nat) : Option (Site K V) :=
  match site.handlers[i]? with
  | some ⟨msg, none⟩ =>
    some { site with
      db := (site.db.assignSequence msg.seq).2
      handlers := site.handlers.set i ⟨msg, some (site.db.assignSequence msg.seq).1⟩ }
  | _ => none

def send (site : Site K V) (i : Nat) : Option (PutMessage K V × Site K V) :=
  match site.handlers[i]? with
  | some ⟨msg, some seq⟩ =>
    some (forward msg seq, { site with handlers := site.handlers.eraseIdx i })
  | _ => none

end Site

namespace ChainState

def initial (memory : Nat → Nat) : ChainState K V :=
  { sites := fun j => .init (memory j), links := fun _ => [] }

/-- A step in a chain of `n` nodes. The connection from the predecessor is served by one thread, so
its messages are applied in the order in which they arrive. -/
def step (n : Nat) (s : ChainState K V) : ChainStep K V → Option (ChainState K V)
  | .request op continuation =>
    let m := { op, hops := n, ackhops := n, continuation, seq := 0 }
    some { s with sites := Function.update s.sites 0 ((s.sites 0).accept m) }
  | .receive j =>
    if 0 < j ∧ j < n then
      match s.links j with
      | m :: rest =>
        some
          { sites := Function.update s.sites j ((s.sites j).accept m)
            links := Function.update s.links j rest }
      | [] => none
    else none
  | .number j i =>
    if j < n then
      ((s.sites j).number i).map fun site => { s with sites := Function.update s.sites j site }
    else none
  | .send j i =>
    if j < n then
      ((s.sites j).send i).map fun r =>
        { sites := Function.update s.sites j r.2
          links := Function.update s.links (j + 1) (s.links (j + 1) ++ [r.1]) }
    else none

/-- Every message has been delivered and every handler is done. -/
def Quiet (n : Nat) (s : ChainState K V) : Prop :=
  ∀ j < n, s.links j = [] ∧ (s.sites j).handlers = []

/-- A node numbers and forwards puts in the order in which it applied them, and its counter has not
come back to zero. -/
def InOrder (s : ChainState K V) : ChainStep K V → Prop
  | .number j i =>
    (∀ h ∈ (s.sites j).handlers.take i, h.sequence.isSome) ∧ (s.sites j).db.sequence ≠ 0
  | .send _ i => i = 0
  | _ => True

end ChainState

section Edge

variable {n j i : Nat} {a a' b b' : Site K V} {link : List (PutMessage K V)} {m : PutMessage K V}

/-- The numbers that have left a node or are about to, oldest first. -/
def flow (a : Site K V) (link : List (PutMessage K V)) (b : Site K V) : List Nat :=
  b.appliedSeqs ++ link.map PutMessage.seq ++ a.handlers.filterMap Handler.sequence

/-- The head's counter is above all numbers it has given, and the handlers without a number are
the last ones. -/
structure Numbered (a : Site K V) (numbers : List Nat) : Prop where
  increasing : numbers.Pairwise (· < ·)
  below : a.db.sequence = 0 ∨ ∀ x ∈ numbers, x < a.db.sequence
  counter : a.db.sequence < 2 ^ 32
  unnumbered : ∀ h ∈ a.handlers, h.sequence = none → h.msg.seq = 0
  last : a.handlers.Pairwise fun h h' => h'.sequence.isSome → h.sequence.isSome

/-- What holds between node `j` and the next one, with the link between them. -/
structure Edge (n j : Nat) (a : Site K V) (link : List (PutMessage K V)) (b : Site K V) : Prop where
  ops : a.db.siltds = b.db.siltds ++ link.map PutMessage.op ++ a.handlers.map fun h => h.msg.op
  seqs : 0 < j → a.appliedSeqs = flow a link b ∧ ∀ h ∈ a.handlers, h.sequence.isSome
  head : j = 0 → Numbered a (flow a link b)
  inLink : ∀ m ∈ link, m.hops = (n : Int) - (j + 1) ∧ 0 < m.seq ∧ m.seq < 2 ^ 32
  inHandler : ∀ h ∈ a.handlers, h.msg.hops = (n : Int) - j ∧ ∀ v ∈ h.sequence, 0 < v ∧ v < 2 ^ 32

theorem edge_receive (h : Edge n j a (m :: link) b) : Edge n j a link (b.accept m) := by
  have hflow : flow a link (b.accept m) = flow a (m :: link) b := by
    simp [flow, Site.accept]
  constructor
  · rw [h.ops]
    simp [Site.accept, applyPut_siltds]
  · intro hj
    rw [hflow]
    exact h.seqs hj
  · intro hj
    rw [hflow]
    exact h.head hj
  · intro m' hm'
    exact h.inLink m' (List.mem_cons_of_mem m hm')
  · exact h.inHandler

/-- A put without a number waits behind the handlers that are there. -/
theorem Numbered.accept {numbers : List Nat} (h : Numbered a numbers) (hseq : m.seq = 0)
    (hhandlers : (a.accept m).handlers = a.handlers ++ [⟨m, none⟩]) : Numbered (a.accept m) numbers := by
  refine ⟨h.increasing, ?_, ?_, ?_, ?_⟩
  · simp only [Site.accept, applyPut_sequence]
    exact h.below
  · simp only [Site.accept, applyPut_sequence]
    exact h.counter
  · rw [hhandlers]
    intro x hx hnone
    rcases List.mem_append.mp hx with hold | hnew
    · exact h.unnumbered x hold hnone
    · rw [List.mem_singleton.mp hnew]
      exact hseq
  · rw [hhandlers, List.pairwise_append]
    refine ⟨h.last, List.pairwise_singleton _ _, fun x _ y hy hsome => ?_⟩
    rw [List.mem_singleton.mp hy] at hsome
    cases hsome

theorem edge_accept (h : Edge n j a link b) (hj : j + 1 < n) (hhops : m.hops = (n : Int) - j)
    (hhead : j = 0 → m.seq = 0) (hseq : 0 < j → 0 < m.seq ∧ m.seq < 2 ^ 32) :
    Edge n j (a.accept m) link b := by
  have hnot : ¬m.hops - 1 = 0 := by omega
  have hhandlers : (a.accept m).handlers = a.handlers ++
      [{ msg := m, sequence := if m.seq % 2 ^ 32 = 0 then none else some (m.seq % 2 ^ 32) }] :=
    if_neg hnot
  constructor
  · rw [hhandlers]
    simp [Site.accept, applyPut_siltds, h.ops]
  · intro hpos
    obtain ⟨hlow, hhigh⟩ := hseq hpos
    obtain ⟨happlied, hall⟩ := h.seqs hpos
    have hmod : m.seq % 2 ^ 32 = m.seq := Nat.mod_eq_of_lt hhigh
    rw [flow] at happlied
    constructor
    · rw [flow, hhandlers, hmod, if_neg (by omega)]
      simp [Site.accept, happlied]
    · intro x hx
      rw [hhandlers, hmod, if_neg (by omega)] at hx
      rcases List.mem_append.mp hx with hold | hnew
      · exact hall x hold
      · rw [List.mem_singleton.mp hnew]
        rfl
  · intro hzero
    have hseq0 := hhead hzero
    have hnone : (a.accept m).handlers = a.handlers ++ [⟨m, none⟩] := by
      rw [hhandlers, hseq0]
      rfl
    have hflow : flow (a.accept m) link b = flow a link b := by
      rw [flow, flow, hnone]
      simp
    rw [hflow]
    exact (h.head hzero).accept hseq0 hnone
  · exact h.inLink
  · rw [hhandlers]
    intro x hx
    rcases List.mem_append.mp hx with hold | hnew
    · exact h.inHandler x hold
    · rw [List.mem_singleton.mp hnew]
      refine ⟨hhops, fun v hv => ?_⟩
      simp only at hv
      split at hv
      · cases hv
      · cases hv
        exact ⟨by omega, Nat.mod_lt _ (by decide)⟩

/-- The node after the link only has to keep what it has applied. -/
theorem edge_right (h : Edge n j a link b) (hsiltds : b'.db.siltds = b.db.siltds)
    (hseqs : b'.appliedSeqs = b.appliedSeqs) : Edge n j a link b' := by
  have hflow : flow a link b' = flow a link b := by rw [flow, flow, hseqs]
  exact ⟨by rw [hsiltds]; exact h.ops, by rw [hflow]; exact h.seqs, by rw [hflow]; exact h.head,
    h.inLink, h.inHandler⟩

theorem send_zero {r : PutMessage K V × Site K V} (h : a.send 0 = some r) :
    ∃ msg sequence rest, a.handlers = ⟨msg, some sequence⟩ :: rest ∧
      r = (forward msg sequence, { a with handlers := rest }) := by
  unfold Site.send at h
  cases hh : a.handlers with
  | nil =>
    rw [hh] at h
    cases h
  | cons x rest =>
    obtain ⟨msg, sequence⟩ := x
    rw [hh] at h
    cases sequence with
    | none => cases h
    | some v =>
      cases h
      exact ⟨msg, v, rest, rfl, rfl⟩

/-- Forwarding the oldest put moves its number from the handlers to the link. -/
theorem edge_send {r : PutMessage K V × Site K V} (h : Edge n j a link b) (hsend : a.send 0 = some r) :
    Edge n j r.2 (link ++ [r.1]) b := by
  obtain ⟨msg, v, rest, hhandlers, rfl⟩ := send_zero hsend
  have hflow : flow { a with handlers := rest } (link ++ [forward msg v]) b = flow a link b := by
    rw [flow, flow, hhandlers]
    simp [forward]
  have hin := h.inHandler ⟨msg, some v⟩ (by rw [hhandlers]; exact List.mem_cons_self)
  have hsub : ∀ x ∈ rest, x ∈ a.handlers := by
    intro x hx
    rw [hhandlers]
    exact List.mem_cons_of_mem _ hx
  constructor
  · rw [h.ops, hhandlers]
    simp [forward]
  · intro hpos
    rw [hflow]
    exact ⟨(h.seqs hpos).1, fun x hx => (h.seqs hpos).2 x (hsub x hx)⟩
  · intro hzero
    have hnum := h.head hzero
    rw [hflow]
    refine ⟨hnum.increasing, hnum.below, hnum.counter, fun x hx => hnum.unnumbered x (hsub x hx), ?_⟩
    have hlast := hnum.last
    rw [hhandlers] at hlast
    exact (List.pairwise_cons.mp hlast).2
  · intro m hm
    rcases List.mem_append.mp hm with hold | hnew
    · exact h.inLink m hold
    · rw [List.mem_singleton.mp hnew]
      have hhops : msg.hops = (n : Int) - j := hin.1
      refine ⟨?_, hin.2 v rfl⟩
      simp only [forward]
      omega
  · exact fun x hx => h.inHandler x (hsub x hx)

theorem number_some (h : a.number i = some a') :
    ∃ before msg after, a.handlers = before ++ ⟨msg, none⟩ :: after ∧ before.length = i ∧
      a' = { a with
        db := (a.db.assignSequence msg.seq).2
        handlers := before ++ ⟨msg, some (a.db.assignSequence msg.seq).1⟩ :: after } := by
  unfold Site.number at h
  split at h
  · rename_i msg hi
    obtain ⟨hlt, hget⟩ := List.getElem?_eq_some_iff.mp hi
    cases h
    refine ⟨a.handlers.take i, msg, a.handlers.drop (i + 1), ?_, by simp; omega, ?_⟩
    · rw [← hget, List.getElem_cons_drop, List.take_append_drop]
    · rw [List.set_eq_take_append_cons_drop, if_pos hlt]
  · cases h

variable {before after : List (Handler K V)} {msg : PutMessage K V} {v : Nat}

/-- A handler after one is numbered is an old one or the numbered one. -/
theorem mem_of_number {x : Handler K V} (hx : x ∈ before ++ ⟨msg, some v⟩ :: after) :
    x ∈ before ++ ⟨msg, none⟩ :: after ∨ x = ⟨msg, some v⟩ := by
  rcases List.mem_append.mp hx with hx | hx
  · exact .inl (List.mem_append_left _ hx)
  · rcases List.mem_cons.mp hx with hx | hx
    · exact .inr hx
    · exact .inl (List.mem_append_right _ (List.mem_cons_of_mem _ hx))

/-- The handlers behind one without a number have none. -/
theorem Numbered.none_after {numbers : List Nat} (h : Numbered a numbers)
    (hhandlers : a.handlers = before ++ ⟨msg, none⟩ :: after) : after.filterMap Handler.sequence = [] := by
  have hlast := h.last
  rw [hhandlers, List.pairwise_append, List.pairwise_cons] at hlast
  obtain ⟨-, ⟨hafter, -⟩, -⟩ := hlast
  refine List.filterMap_eq_nil_iff.mpr fun x hx => ?_
  by_contra hsome
  have := hafter x hx (Option.isSome_iff_ne_none.mpr hsome)
  cases this

/-- The first handler without a number gets the counter, which goes on. -/
theorem Numbered.number {numbers : List Nat} (h : Numbered a numbers)
    (hhandlers : a.handlers = before ++ ⟨msg, none⟩ :: after) (hbefore : ∀ x ∈ before, x.sequence.isSome)
    (hcounter : a.db.sequence ≠ 0) :
    Numbered { a with
      db := { a.db with sequence := (a.db.sequence + 1) % 2 ^ 32 }
      handlers := before ++ ⟨msg, some a.db.sequence⟩ :: after } (numbers ++ [a.db.sequence]) := by
  have hbelow : ∀ x ∈ numbers, x < a.db.sequence := h.below.resolve_left hcounter
  have hlt := h.counter
  have hlast := h.last
  rw [hhandlers, List.pairwise_append, List.pairwise_cons] at hlast
  obtain ⟨hlb, ⟨-, hla⟩, -⟩ := hlast
  refine ⟨?_, ?_, Nat.mod_lt _ (by decide), ?_, ?_⟩
  · rw [List.pairwise_append]
    refine ⟨h.increasing, List.pairwise_singleton _ _, fun x hx y hy => ?_⟩
    rw [List.mem_singleton.mp hy]
    exact hbelow x hx
  · by_cases hwrap : a.db.sequence + 1 = 2 ^ 32
    · left
      show (a.db.sequence + 1) % 2 ^ 32 = 0
      rw [hwrap, Nat.mod_self]
    · right
      intro x hx
      show x < (a.db.sequence + 1) % 2 ^ 32
      rw [Nat.mod_eq_of_lt (by omega)]
      rcases List.mem_append.mp hx with hx | hx
      · have := hbelow x hx
        omega
      · rw [List.mem_singleton.mp hx]
        omega
  · intro x hx hxnone
    rcases mem_of_number hx with hold | rfl
    · exact h.unnumbered x (hhandlers ▸ hold) hxnone
    · cases hxnone
  · rw [List.pairwise_append, List.pairwise_cons]
    exact ⟨hlb, ⟨fun _ _ _ => rfl, hla⟩, fun x hx _ _ _ => hbefore x hx⟩

/-- The oldest handler without a number gets one above all before. -/
theorem edge_number (h : Edge n j a link b) (hnumber : a.number i = some a')
    (hord : ∀ x ∈ a.handlers.take i, x.sequence.isSome) (hcounter : a.db.sequence ≠ 0) :
    Edge n j a' link b := by
  obtain ⟨before, msg, after, hhandlers, rfl, rfl⟩ := number_some hnumber
  have hmem : (⟨msg, none⟩ : Handler K V) ∈ a.handlers := by
    rw [hhandlers]
    exact List.mem_append_right _ List.mem_cons_self
  have hzero : j = 0 := by
    by_contra hpos
    have := (h.seqs (Nat.pos_of_ne_zero hpos)).2 _ hmem
    cases this
  have hnum := h.head hzero
  have hassign : a.db.assignSequence msg.seq =
      (a.db.sequence, { a.db with sequence := (a.db.sequence + 1) % 2 ^ 32 }) := by
    rw [assignSequence, hnum.unnumbered _ hmem rfl]
    rfl
  have hbefore : ∀ x ∈ before, x.sequence.isSome := by
    rw [hhandlers, List.take_left] at hord
    exact hord
  rw [hassign]
  simp only
  constructor
  · show a.db.siltds = _
    rw [h.ops, hhandlers]
    simp
  · intro hpos
    omega
  · intro _
    have hflow : flow { a with
        db := { a.db with sequence := (a.db.sequence + 1) % 2 ^ 32 }
        handlers := before ++ ⟨msg, some a.db.sequence⟩ :: after } link b =
        flow a link b ++ [a.db.sequence] := by
      simp [flow, hhandlers, List.filterMap_append, hnum.none_after hhandlers]
    rw [hflow]
    exact hnum.number hhandlers hbefore hcounter
  · exact h.inLink
  · intro x hx
    rcases mem_of_number hx with hold | rfl
    · exact h.inHandler x (hhandlers ▸ hold)
    · refine ⟨(h.inHandler _ hmem).1, fun v hv => ?_⟩
      cases hv
      exact ⟨Nat.pos_of_ne_zero hcounter, hnum.counter⟩

end Edge

namespace ChainState

section Agreement

variable {n : Nat} {s t : ChainState K V} {l : ChainStep K V} {ls : List (ChainStep K V)}

def Inv (n : Nat) (s : ChainState K V) : Prop :=
  ∀ j, j + 1 < n → Edge n j (s.sites j) (s.links (j + 1)) (s.sites (j + 1))

theorem inv_initial (n : Nat) (memory : Nat → Nat) : Inv n (initial memory : ChainState K V) := by
  intro j hj
  constructor
  · rfl
  · intro _
    exact ⟨rfl, fun h hh => absurd hh List.not_mem_nil⟩
  · intro _
    exact ⟨List.Pairwise.nil, .inr (by simp [initial, flow, Site.init]), Nat.one_lt_two_pow (by decide),
      fun h hh => absurd hh List.not_mem_nil, List.Pairwise.nil⟩
  · intro m hm
    exact absurd hm List.not_mem_nil
  · intro h hh
    exact absurd hh List.not_mem_nil

/-- What a step changes at node `k` and on the link to the next node. -/
theorem inv_update (h : Inv n s) {k : Nat} {site : Site K V} {links : Nat → List (PutMessage K V)}
    (hlinks : ∀ j, j ≠ k → j + 1 ≠ k → links (j + 1) = s.links (j + 1))
    (hnext : k + 1 < n → Edge n k site (links (k + 1)) (s.sites (k + 1)))
    (hprev : ∀ j, j + 1 = k → k < n → Edge n j (s.sites j) (links k) site) :
    Inv n ⟨Function.update s.sites k site, links⟩ := by
  intro j hj
  by_cases hjk : j = k
  · subst hjk
    simp only [Function.update_self]
    rw [Function.update_of_ne (by omega)]
    exact hnext hj
  · simp only
    rw [Function.update_of_ne hjk]
    by_cases hjk' : j + 1 = k
    · subst hjk'
      rw [Function.update_self]
      exact hprev j rfl hj
    · rw [Function.update_of_ne hjk', hlinks j hjk hjk']
      exact h j hj

theorem number_frame {a a' : Site K V} {i : Nat} (h : a.number i = some a') :
    a'.db.siltds = a.db.siltds ∧ a'.appliedSeqs = a.appliedSeqs := by
  obtain ⟨before, msg, after, -, -, rfl⟩ := number_some h
  refine ⟨?_, rfl⟩
  show (a.db.assignSequence msg.seq).2.siltds = _
  unfold assignSequence
  split <;> rfl

theorem inv_step (hstep : step n s l = some t) (hord : InOrder s l) (h : Inv n s) : Inv n t := by
  cases l with
  | request op continuation =>
    cases hstep
    refine inv_update h (fun _ _ _ => rfl) (fun hn => ?_) (fun j hj => absurd hj (by omega))
    exact edge_accept (h 0 hn) hn (by simp) (fun _ => rfl) (fun hpos => absurd hpos (by omega))
  | receive j =>
    unfold step at hstep
    simp only at hstep
    split at hstep
    · rename_i hj
      split at hstep
      · rename_i m rest hlink
        cases hstep
        obtain ⟨k, rfl⟩ : ∃ k, j = k + 1 := ⟨j - 1, by omega⟩
        have hedge := h k hj.2
        rw [hlink] at hedge
        have hin := hedge.inLink m List.mem_cons_self
        refine inv_update h (fun j _ hne => Function.update_of_ne hne _ _) (fun hn => ?_)
          (fun j hj' _ => ?_)
        · rw [Function.update_of_ne (by omega)]
          exact edge_accept (h (k + 1) hn) hn (by rw [hin.1]; rfl) (fun h0 => absurd h0 (by omega))
            (fun _ => hin.2)
        · obtain rfl : j = k := by omega
          rw [Function.update_self]
          exact edge_receive hedge
      · cases hstep
    · cases hstep
  | number j i =>
    unfold step at hstep
    simp only at hstep
    split at hstep
    · obtain ⟨site, hsite, rfl⟩ := Option.map_eq_some_iff.mp hstep
      obtain ⟨hsiltds, hseqs⟩ := number_frame hsite
      refine inv_update h (fun _ _ _ => rfl) (fun hn => ?_) (fun k hk hn => ?_)
      · exact edge_number (h j hn) hsite hord.1 hord.2
      · subst hk
        exact edge_right (h k hn) hsiltds hseqs
    · cases hstep
  | send j i =>
    obtain rfl : i = 0 := hord
    unfold step at hstep
    simp only at hstep
    split at hstep
    · obtain ⟨r, hr, rfl⟩ := Option.map_eq_some_iff.mp hstep
      refine inv_update h (fun k hk _ => Function.update_of_ne (by omega) _ _) (fun hn => ?_)
        (fun k hk hn => ?_)
      · rw [Function.update_self]
        exact edge_send (h j hn) hr
      · subst hk
        obtain ⟨msg, v, rest, -, rfl⟩ := send_zero hr
        rw [Function.update_of_ne (by omega)]
        exact edge_right (h k hn) rfl rfl
    · cases hstep

theorem siltds_eq (h : Inv n s) (hquiet : Quiet n s) {j : Nat} (hj : j < n) :
    (s.sites j).db.siltds = (s.sites 0).db.siltds := by
  induction j with
  | zero => rfl
  | succ j ih =>
    have hops := (h j hj).ops
    rw [(hquiet (j + 1) hj).1, (hquiet j (by omega)).2] at hops
    simp only [List.map_nil, List.append_nil] at hops
    exact hops.symm.trans (ih (by omega))

theorem appliedSeqs_increasing (h : Inv n s) {j : Nat} (hj : j + 1 < n) :
    (s.sites (j + 1)).appliedSeqs.Pairwise (· < ·) := by
  have hbefore : ∀ k, (s.sites (k + 1)).appliedSeqs.Sublist
      (flow (s.sites k) (s.links (k + 1)) (s.sites (k + 1))) := by
    intro k
    rw [flow, List.append_assoc]
    exact List.sublist_append_left _ _
  induction j with
  | zero => exact ((h 0 hj).head rfl).increasing.sublist (hbefore 0)
  | succ j ih =>
    have hseqs := ((h (j + 1) hj).seqs (by omega)).1
    refine List.Pairwise.sublist (hbefore (j + 1)) ?_
    rw [← hseqs]
    exact ih (by omega)

/-- When every node numbers and forwards in the order of application, all nodes of the chain agree
once it is quiet, and the numbers a node applies grow. -/
theorem chain_agreement [DecidableEq K] (n : Nat) (memory : Nat → Nat) (ls : List (ChainStep K V))
    (hrun : Transition.run (step n) (initial memory) ls = some s)
    (hord : Transition.Meets (step n) InOrder (initial memory) ls) :
    (Quiet n s → ∀ j < n, ∀ key, (s.sites j).db.get key = (s.sites 0).db.get key) ∧
      ∀ j, 0 < j → j < n → (s.sites j).appliedSeqs.Pairwise (· < ·) := by
  have h : Inv n s := Transition.run_invariant_of_meets
    (fun _ _ _ hstep hc hs => inv_step hstep hc hs) hrun hord (inv_initial n memory)
  constructor
  · intro hquiet j hj key
    rw [IntervalDb.get, siltds_eq h hquiet hj]
    rfl
  · intro j hpos hj
    obtain ⟨k, rfl⟩ : ∃ k, j = k + 1 := ⟨j - 1, by omega⟩
    exact appliedSeqs_increasing h hj

theorem chain_agreement_two_writers : ∃ s : ChainState Nat Nat,
    Transition.run (step 2) (initial fun _ => 0)
      [.request ⟨7, 70, false⟩ 1, .request ⟨7, 71, false⟩ 2, .number 0 0, .send 0 0, .number 0 0,
        .send 0 0, .receive 1, .receive 1] = some s ∧
    (∀ key, (s.sites 1).db.get key = (s.sites 0).db.get key) ∧
    (s.sites 1).appliedSeqs.Pairwise (· < ·) := by
  refine ⟨_, rfl, ?_⟩
  have h := chain_agreement (K := Nat) (V := Nat) 2 (fun _ => 0)
    [.request ⟨7, 70, false⟩ 1, .request ⟨7, 71, false⟩ 2, .number 0 0, .send 0 0, .number 0 0,
      .send 0 0, .receive 1, .receive 1] rfl
    (.cons rfl trivial <| .cons rfl trivial <| .cons rfl ⟨by simp, by decide⟩ <| .cons rfl rfl <|
      .cons rfl ⟨by simp, by decide⟩ <| .cons rfl rfl <| .cons rfl trivial <| .cons rfl trivial trivial)
  refine ⟨h.1 (fun j hj => ?_) 1 (by decide), h.2 1 (by decide) (by decide)⟩
  match j, hj with
  | 0, _ => exact ⟨rfl, rfl⟩
  | 1, _ => exact ⟨rfl, rfl⟩

/-- Two writers of one key: the second to apply is the first to be numbered and sent. -/
theorem chain_disagreement_two_writers : ∃ s : ChainState Nat Nat,
    Transition.run (step 2) (initial fun _ => 0)
      [.request ⟨7, 70, false⟩ 1, .request ⟨7, 71, false⟩ 2, .number 0 1, .send 0 1, .number 0 0,
        .send 0 0, .receive 1, .receive 1] = some s ∧
    Quiet 2 s ∧ (s.sites 0).db.get 7 = some 71 ∧ (s.sites 1).db.get 7 = some 70 := by
  refine ⟨_, rfl, fun j hj => ?_, rfl, rfl⟩
  match j, hj with
  | 0, _ => exact ⟨rfl, rfl⟩
  | 1, _ => exact ⟨rfl, rfl⟩

end Agreement

end ChainState

end FawnKV.Chain
