import Mathlib.Data.List.Nodup
import FawnKV.FrontEnd.Handler

/-! When the responses of the front end reach the clients and the requests they are for. -/
namespace FawnKV.FrontEnd

open Transition
open Chain (toUInt32)

section Numbers

variable {n c d : Nat}

/-- A server-side continuation in the 32 bits of a callback. -/
theorem toUInt32_bmod (n : Nat) : toUInt32 ((n : Int).bmod (2 ^ 64)) = n % 2 ^ 32 := by
  rw [toUInt32, Int.bmod]
  split <;> omega

theorem bmod_of_lt (h : n < 2 ^ 63) : (n : Int).bmod (2 ^ 64) = n := by
  rw [Int.bmod]
  split <;> omega

/-- Two clients less than `2 ^ 32` apart have different numbers. -/
theorem bmod_ne (hlt : c < d) (hclose : d < c + 2 ^ 32) :
    (d : Int).bmod (2 ^ 32) ≠ (c : Int).bmod (2 ^ 32) := by
  rw [Int.bmod, Int.bmod]
  split <;> split <;> omega

theorem bmod_succ (n m : Nat) : ((n : Int).bmod m + 1).bmod m = ((n + 1 : Nat) : Int).bmod m := by
  rw [Int.bmod_add_bmod, Int.natCast_succ]

/-- The places of a list that has got one more element. -/
theorem getElem?_concat_cases {α : Type} {l : List α} {a b : α} (h : (l ++ [a])[n]? = some b) :
    l[n]? = some b ∨ n = l.length ∧ b = a := by
  rcases Nat.lt_trichotomy n l.length with hlt | heq | hgt
  · rw [List.getElem?_append_left hlt] at h
    exact .inl h
  · rw [heq, List.getElem?_concat_length] at h
    exact .inr ⟨heq, (Option.some.inj h).symm⟩
  · rw [List.getElem?_eq_none (by rw [List.length_append]; exact hgt)] at h
    cases h

end Numbers

namespace System

/-- Every response is the only one to its request, and goes to the client of the request with its
continuation. -/
structure Right (s : System) : Prop where
  once : (s.delivered.map Delivery.request).Nodup
  matching : ∀ d ∈ s.delivered, ∃ i, s.issued[d.request]? = some i ∧ d.response.client = i.request.client ∧
    d.response.continuation = i.request.continuation

/-- No number of 32 bits comes back that is still in use: neither that of a client, nor that of a request. -/
def InRange (s : System) : Event → Prop
  | .connect => True
  | .request r => s.cids.length ≤ r.client + 2 ^ 32
  | .respond n _ => n < 2 ^ 32 ∧ s.issued.length ≤ n + 2 ^ 32

/-- The back end answers a request once. -/
def FirstReply (s : System) : Event → Prop
  | .respond n reply => reply.stale = false → n ∉ s.delivered.map Delivery.request
  | _ => True

instance (s : System) (e : Event) : Decidable (s.InRange e) :=
  match e with
  | .connect => isTrue trivial
  | .request r => inferInstanceAs (Decidable (s.cids.length ≤ r.client + 2 ^ 32))
  | .respond n _ => inferInstanceAs (Decidable (n < 2 ^ 32 ∧ s.issued.length ≤ n + 2 ^ 32))

instance (s : System) (e : Event) : Decidable (s.FirstReply e) :=
  match e with
  | .connect => isTrue trivial
  | .request _ => isTrue trivial
  | .respond n reply => inferInstanceAs (Decidable (reply.stale = false → n ∉ s.delivered.map Delivery.request))

/-- The numbers of the clients and of the requests. -/
structure Numbered (s : System) : Prop where
  clients : s.cids.length = s.handler.clients.length
  clientID : s.handler.clientID = (s.cids.length : Int).bmod (2 ^ 32)
  cid : ∀ (c : Nat) cid, s.cids[c]? = some cid → cid = (c : Int).bmod (2 ^ 32)
  known : ∀ c < s.cids.length, s.cids.length ≤ c + 2 ^ 32 → s.handler.getClient
    ((c : Int).bmod (2 ^ 32)) = some c
  reqNumber : s.handler.reqNumber = (s.issued.length : Int).bmod (2 ^ 64)
  sent : ∀ (n : Nat) i k, s.issued[n]? = some i → i.sent = some k → k = (n : Int).bmod (2 ^ 64)
  answered : ∀ d ∈ s.delivered, d.request < s.issued.length

/-- Request `n` is found in both maps until it is answered. -/
structure Recorded (s : System) (n : Nat) (i : Issued) : Prop where
  client : s.handler.reqClientMap[n]? = some i.request.client
  continuation : n ∉ s.delivered.map Delivery.request → ∃ data,
    s.handler.clients[i.request.client]? = some data ∧
    data.reqContMap[(n : Int)]? = some i.request.continuation

/-- So it is for every request that was sent on, until the numbers come back. -/
def AllRecorded (s : System) : Prop :=
  ∀ (n : Nat) i, s.issued[n]? = some i → i.sent.isSome → n < 2 ^ 32 →
    s.issued.length ≤ n + 2 ^ 32 → s.Recorded n i

section Steps

variable {s t : System} {n : Nat}

theorem numbered_connect (h : s.Numbered) (hstep : s.step .connect = some t) : t.Numbered := by
  cases hstep
  refine ⟨?_, ?_, ?_, ?_, h.reqNumber, h.sent, h.answered⟩
  · simp only [Handler.init, List.length_append, List.length_singleton, h.clients]
  · simp only [Handler.init, h.clientID, bmod_succ, List.length_append, List.length_singleton]
  · intro c cid hc
    rcases getElem?_concat_cases hc with hold | ⟨rfl, rfl⟩
    · exact h.cid c cid hold
    · exact h.clientID
  · intro c hc hrange
    rw [List.length_append, List.length_singleton] at hc hrange
    simp only [Handler.getClient, Handler.init, Std.TreeMap.getElem?_insert, Std.compare_eq_iff_eq, h.clientID]
    rcases Nat.lt_or_ge c s.cids.length with hlt | hge
    · rw [if_neg (bmod_ne hlt (by omega))]
      exact h.known c hlt (by omega)
    · have hlast : c = s.cids.length := by omega
      rw [hlast, if_pos rfl, h.clients]

theorem numbered_request {r : ClientRequest} (h : s.Numbered) (hstep : s.step (.request r) = some t) :
    t.Numbered := by
  have hsent : ∀ {k : Option Int}, (∀ c, k = some c → c = s.handler.reqNumber) →
      ∀ (n : Nat) i c, (s.issued ++ [⟨r, k⟩])[n]? = some i → i.sent = some c → c = (n : Int).bmod (2 ^ 64) := by
    intro k hk n i c hi hc
    rcases getElem?_concat_cases hi with hold | ⟨rfl, rfl⟩
    · exact h.sent n i c hold hc
    · rw [hk c hc, h.reqNumber]
  have hnext : (s.handler.reqNumber + 1).bmod (2 ^ 64) = ((s.issued.length + 1 : Nat) : Int).bmod (2 ^ 64) := by
    rw [h.reqNumber, bmod_succ]
  obtain ⟨cid, cd, -, -, ⟨key, value, -, -, rfl⟩ | ⟨-, rfl⟩⟩ := step_request hstep
  · refine ⟨h.clients, h.clientID, h.cid, h.known, ?_, hsent fun c hc => (nomatch hc), fun d hd => ?_⟩
    · rw [List.length_append]
      exact hnext
    · rw [List.length_append, List.length_singleton]
      rcases List.mem_append.mp hd with hold | hnew
      · exact Nat.lt_succ_of_lt (h.answered d hold)
      · cases List.mem_singleton.mp hnew
        exact Nat.lt_succ_self _
  · refine ⟨?_, h.clientID, h.cid, h.known, ?_, hsent fun c hc => (Option.some.inj hc).symm, fun d hd => ?_⟩
    · rw [h.clients]
      exact (List.length_modify _ _ _).symm
    · rw [List.length_append]
      exact hnext
    · rw [List.length_append]
      exact Nat.lt_succ_of_lt (h.answered d hd)

theorem numbered_respond {reply : Reply} (h : s.Numbered) (hstep : s.step (.respond n reply) = some t) :
    t.Numbered := by
  obtain ⟨i, k, hi, -, ⟨-, rfl⟩ | ⟨-, cd, data, value, -, -, rfl⟩⟩ := step_respond hstep
  · exact h
  · refine ⟨?_, h.clientID, h.cid, h.known, h.reqNumber, h.sent, fun d hd => ?_⟩
    · rw [h.clients]
      exact List.length_set.symm
    · rcases List.mem_append.mp hd with hold | hnew
      · exact h.answered d hold
      · cases List.mem_singleton.mp hnew
        exact (List.getElem?_eq_some_iff.mp hi).1

theorem numbered_step {e : Event} (h : s.Numbered) (hstep : s.step e = some t) : t.Numbered := by
  cases e with
  | connect => exact numbered_connect h hstep
  | request r => exact numbered_request h hstep
  | respond n reply => exact numbered_respond h hstep

theorem allRecorded_connect (h : s.AllRecorded) (hstep : s.step .connect = some t) : t.AllRecorded := by
  cases hstep
  intro n i hi hsent hn hrange
  obtain ⟨hclient, hcont⟩ := h n i hi hsent hn hrange
  refine ⟨hclient, fun hnew => ?_⟩
  obtain ⟨data, hdata, hget⟩ := hcont hnew
  exact ⟨data, List.getElem?_append_left (List.getElem?_eq_some_iff.mp hdata).1 ▸ hdata, hget⟩

/-- The client that asks is the one that is found by its number. -/
theorem client_of_request {r : ClientRequest} {cid : Int} {cd : Nat} (h : s.Numbered)
    (hrange : s.InRange (.request r))
    (hcid : s.cids[r.client]? = some cid) (hcd : s.handler.getClient cid = some cd) :
    cd = r.client ∧ ∃ data, s.handler.clients[r.client]? = some data := by
  have hlt := (List.getElem?_eq_some_iff.mp hcid).1
  rw [h.cid r.client cid hcid, h.known r.client hlt hrange] at hcd
  exact ⟨(Option.some.inj hcd).symm, _, List.getElem?_eq_getElem (h.clients ▸ hlt)⟩

theorem allRecorded_request {r : ClientRequest} (h : s.Numbered) (hrange : s.InRange (.request r))
    (hall : s.AllRecorded)
    (hstep : s.step (.request r) = some t) : t.AllRecorded := by
  obtain ⟨cid, cd, hcid, hcd, ⟨key, value, -, -, rfl⟩ | ⟨-, rfl⟩⟩ := step_request hstep
  · intro n i hi hsent hn hlen
    rw [List.length_append, List.length_singleton] at hlen
    rcases getElem?_concat_cases hi with hold | ⟨-, rfl⟩
    · obtain ⟨hclient, hcont⟩ := hall n i hold hsent hn (by omega)
      refine ⟨hclient, fun hnew => hcont fun hmem => hnew ?_⟩
      rw [List.map_append]
      exact List.mem_append_left _ hmem
    · cases hsent
  · obtain ⟨rfl, data, hdata⟩ := client_of_request h hrange hcid hcd
    intro n i hi hsent hn hlen
    rw [List.length_append, List.length_singleton] at hlen
    rcases getElem?_concat_cases hi with hold | ⟨rfl, rfl⟩
    · -- the numbers of the new request are not those of the old one
      have hlt := (List.getElem?_eq_some_iff.mp hold).1
      have hnum : s.handler.reqNumber = s.issued.length := by rw [h.reqNumber, bmod_of_lt (by omega)]
      have hkey : toUInt32 s.handler.reqNumber ≠ n := by
        rw [h.reqNumber, toUInt32_bmod]
        omega
      obtain ⟨hclient, hcont⟩ := hall n i hold hsent hn (by omega)
      refine ⟨?_, fun hnew => ?_⟩
      · simp only [Handler.record, Handler.nextRequest, Std.TreeMap.getElem?_insert, Std.compare_eq_iff_eq,
          if_neg hkey, hclient]
      · obtain ⟨old, hold, hget⟩ := hcont hnew
        simp only [Handler.record, Handler.nextRequest, List.getElem?_modify, hold]
        refine ⟨_, rfl, ?_⟩
        split
        · have hother : s.handler.reqNumber ≠ (n : Int) := by omega
          simp only [ClientData.addContinuation, Std.TreeMap.getElem?_insert, Std.compare_eq_iff_eq,
            if_neg hother, hget]
        · exact hget
    · have hnum : s.handler.reqNumber = s.issued.length := by rw [h.reqNumber, bmod_of_lt (by omega)]
      have hkey : toUInt32 s.handler.reqNumber = s.issued.length := by
        rw [h.reqNumber, toUInt32_bmod]
        omega
      refine ⟨?_, fun _ => ?_⟩
      · simp only [Handler.record, Handler.nextRequest, hkey, Std.TreeMap.getElem?_insert_self]
      · simp only [Handler.record, Handler.nextRequest, List.getElem?_modify, hdata, if_true]
        refine ⟨_, rfl, ?_⟩
        simp only [ClientData.addContinuation, hnum, Std.TreeMap.getElem?_insert_self]

/-- A callback forgets one continuation. -/
theorem getElem?_removeContinuation {data : ClientData} {k m : Int} (hne : k ≠ m) :
    ((data.getContinuation k).2.removeContinuation k).reqContMap[m]? = data.reqContMap[m]? := by
  simp only [ClientData.getContinuation, ClientData.removeContinuation, Std.TreeMap.getElem?_erase,
    Std.TreeMap.getElem?_insertIfNew, Std.compare_eq_iff_eq, hne, false_and, if_false]

theorem allRecorded_respond {reply : Reply} (h : s.Numbered) (hrange : s.InRange (.respond n reply))
    (hall : s.AllRecorded) (hstep : s.step (.respond n reply) = some t) : t.AllRecorded := by
  obtain ⟨i, k, hi, hk, ⟨-, rfl⟩ | ⟨-, cd, data, value, hcd, hdata, rfl⟩⟩ := step_respond hstep
  · exact hall
  · have hkey : toUInt32 k = n := by
      rw [h.sent n i k hi hk, toUInt32_bmod, Nat.mod_eq_of_lt hrange.1]
    intro m j hj hsent hm hlen
    obtain ⟨hclient, hcont⟩ := hall m j hj hsent hm hlen
    refine ⟨hclient, fun hnew => ?_⟩
    rw [List.map_append, List.mem_append, not_or] at hnew
    have hother : ((toUInt32 k : Nat) : Int) ≠ m := by
      rw [hkey]
      intro heq
      exact hnew.2 (List.mem_singleton.mpr (Int.ofNat.inj heq).symm)
    obtain ⟨old, hold, hget⟩ := hcont hnew.1
    by_cases hsame : cd = j.request.client
    · subst hsame
      rw [hdata] at hold
      cases hold
      refine ⟨_, List.getElem?_set_self (List.getElem?_eq_some_iff.mp hdata).1, ?_⟩
      rw [getElem?_removeContinuation hother, hget]
    · exact ⟨old, (List.getElem?_set_ne hsame).trans hold, hget⟩

theorem allRecorded_step {e : Event} (h : s.Numbered) (hrange : s.InRange e) (hall : s.AllRecorded)
    (hstep : s.step e = some t) : t.AllRecorded := by
  cases e with
  | connect => exact allRecorded_connect hall hstep
  | request r => exact allRecorded_request h hrange hall hstep
  | respond n reply => exact allRecorded_respond h hrange hall hstep

end Steps

section Responses

variable {s t : System} {n : Nat}

/-- More requests do not change what was delivered. -/
theorem matching_append (h : s.Right) (more : List Issued) {d : Delivery} (hd : d ∈ s.delivered) :
    ∃ i, (s.issued ++ more)[d.request]? = some i ∧ d.response.client = i.request.client ∧
      d.response.continuation = i.request.continuation := by
  obtain ⟨i, hi, hmatch⟩ := h.matching d hd
  exact ⟨i, (List.getElem?_append_left (List.getElem?_eq_some_iff.mp hi).1).trans hi, hmatch⟩

theorem once_concat (h : s.Right) {d : Delivery} (hnew : d.request ∉ s.delivered.map Delivery.request) :
    ((s.delivered ++ [d]).map Delivery.request).Nodup := by
  rw [List.map_append, List.map_singleton]
  refine List.nodup_append.mpr ⟨h.once, List.nodup_singleton _, ?_⟩
  rintro m hm m' hm' rfl
  rw [List.mem_singleton.mp hm'] at hm
  exact hnew hm

/-- What a client asks for is answered at once and rightly, or not yet. -/
theorem right_request {r : ClientRequest} (h : s.Numbered) (hrange : s.InRange (.request r)) (hright : s.Right)
    (hstep : s.step (.request r) = some t) : t.Right := by
  obtain ⟨cid, cd, hcid, hcd, ⟨key, value, -, -, rfl⟩ | ⟨-, rfl⟩⟩ := step_request hstep
  · obtain ⟨rfl, -⟩ := client_of_request h hrange hcid hcd
    constructor
    · refine once_concat hright fun hmem => ?_
      obtain ⟨d, hd, heq⟩ := List.mem_map.mp hmem
      exact absurd heq (Nat.ne_of_lt (h.answered d hd))
    · intro d hd
      rcases List.mem_append.mp hd with hold | hnew
      · exact matching_append hright _ hold
      · cases List.mem_singleton.mp hnew
        exact ⟨_, List.getElem?_concat_length, rfl, rfl⟩
  · exact ⟨hright.once, fun d hd => matching_append hright _ hd⟩

/-- The first answer of the back end goes to the client that asked, and a second one is one too many. -/
theorem right_respond_iff {reply : Reply} (h : s.Numbered) (hrange : s.InRange (.respond n reply))
    (hall : s.AllRecorded) (hright : s.Right) (hstep : s.step (.respond n reply) = some t) :
    t.Right ↔ s.FirstReply (.respond n reply) := by
  obtain ⟨i, k, hi, hk, ⟨hstale, rfl⟩ | ⟨hcurrent, cd, data, value, hcd, hdata, rfl⟩⟩ := step_respond hstep
  · refine ⟨fun _ hcurrent => ?_, fun _ => hright⟩
    rw [hstale] at hcurrent
    cases hcurrent
  · have hkey : toUInt32 k = n := by
      rw [h.sent n i k hi hk, toUInt32_bmod, Nat.mod_eq_of_lt hrange.1]
    constructor
    · intro ht _ hmem
      have honce := ht.once
      rw [List.map_append] at honce
      exact (List.nodup_append.mp honce).2.2 n hmem n (List.mem_singleton_self n) rfl
    · intro hfirst
      have hnew := hfirst hcurrent
      obtain ⟨hclient, hcont⟩ := hall n i hi (Option.isSome_of_eq_some hk) hrange.1 hrange.2
      obtain ⟨data', hdata', hget⟩ := hcont hnew
      rw [hkey, hclient] at hcd
      cases hcd
      rw [hdata] at hdata'
      cases hdata'
      constructor
      · exact once_concat hright hnew
      · intro d hd
        rcases List.mem_append.mp hd with hold | hlast
        · exact hright.matching d hold
        · cases List.mem_singleton.mp hlast
          refine ⟨i, hi, rfl, ?_⟩
          simp only [hkey, ClientData.getContinuation, Std.TreeMap.getD_eq_getD_getElem?, hget,
            Option.getD_some]

theorem right_step_iff {e : Event} (h : s.Numbered) (hrange : s.InRange e) (hall : s.AllRecorded)
    (hright : s.Right)
    (hstep : s.step e = some t) : t.Right ↔ s.FirstReply e := by
  cases e with
  | connect =>
    cases hstep
    exact ⟨fun _ => trivial, fun _ => ⟨hright.once, hright.matching⟩⟩
  | request r => exact ⟨fun _ => trivial, fun _ => right_request h hrange hright hstep⟩
  | respond n reply => exact right_respond_iff h hrange hall hright hstep

theorem numbered_start (cache : Option Cache) : (start cache).Numbered where
  clients := rfl
  clientID := Int.zero_bmod.symm
  cid := fun _ _ hc => nomatch hc
  known := fun _ hc => absurd hc (Nat.not_lt_zero _)
  reqNumber := Int.zero_bmod.symm
  sent := fun _ _ _ hi => nomatch hi
  answered := fun _ hd => absurd hd List.not_mem_nil

/-- While no number of 32 bits comes back, the responses are right exactly as long as the back end answers
nothing twice. -/
theorem responses_reach_requests (cache : Option Cache) (es : List Event) (s : System)
    (hrun : run step (start cache) es = some s) (hrange : Meets step InRange (start cache) es) :
    Always step Right (start cache) es ↔ Meets step FirstReply (start cache) es := by
  refine always_iff_meets_of_assuming (I := fun s => s.Numbered ∧ s.AllRecorded) ?_ ?_ hrun hrange
    ⟨numbered_start cache, fun _ _ hi => nomatch hi⟩ ⟨List.nodup_nil, fun _ hd => absurd hd List.not_mem_nil⟩
  · rintro s e t hstep hrange ⟨h, hall⟩
    exact ⟨numbered_step h hstep, allRecorded_step h hrange hall hstep⟩
  · rintro s e t hstep hrange ⟨h, hall⟩ hright
    exact right_step_iff h hrange hall hright hstep

/-- Two clients, and the back end answers the second first. -/
theorem responses_reach_requests_two :
    let es : List Event := [.connect, .connect, .request ⟨0, 5, .put [1] [9]⟩, .request ⟨1, 5, .remove [2]⟩,
      .respond 1 .remove, .respond 0 .put]
    ∃ s, run step (start none) es = some s ∧
      s.delivered.map (fun d => (d.response.client, d.response.continuation)) = [(1, 5), (0, 5)] ∧
      Always step Right (start none) es := by
  refine ⟨_, rfl, rfl, (responses_reach_requests none _ _ rfl ?_).mpr ?_⟩
  · exact .cons rfl trivial (.cons rfl trivial (.cons rfl (by decide) (.cons rfl (by decide)
      (.cons rfl (by decide) (.cons rfl (by decide) trivial)))))
  · exact .cons rfl trivial (.cons rfl trivial (.cons rfl trivial (.cons rfl trivial
      (.cons rfl (by decide) (.cons rfl (by decide) trivial)))))

/-- The second answer to a request goes to its client as one to a request with the continuation `0`. -/
theorem response_delivered_twice :
    ∃ s, run step (start none) [.connect, .request ⟨0, 5, .put [1] [9]⟩, .respond 0 .put,
      .respond 0 .put] = some s ∧
      s.delivered.map (fun d => (d.response.client, d.response.continuation)) =
        [(0, 5), (0, 0)] ∧ ¬s.Right := by
  refine ⟨_, rfl, rfl, fun hright => ?_⟩
  exact absurd hright.once (by decide)

end Responses

end System

end FawnKV.FrontEnd
