import FawnKV.FrontEnd.Handler

/-! When what the front end answers from its cache is what the clients stored last. -/
namespace FawnKV.FrontEnd

open Fawn FawnKV.Membership Transition

section Expected

variable {ops : List ClientOp} {key other value : Data}

/-- What a request does to the value that is stored for exactly this key. -/
def ClientOp.effect (key : Data) (stored : Option Data) : ClientOp → Option Data
  | .put key' value => if key' = key then some value else stored
  | .get _ => stored
  | .remove key' => if key' = key then none else stored

/-- The value of the latest put of exactly this key, if no remove of it came after. -/
def current (ops : List ClientOp) (key : Data) : Option Data := ops.foldl (ClientOp.effect key) none

/-- The latest put of a key with these first bytes, with its value. -/
def lastPut (ops : List ClientOp) (bytes : Data) : Option (Data × Data) :=
  ops.foldl
    (fun last op =>
      match op with
      | .put key value => if key.take dbidLength = bytes then some (key, value) else last
      | _ => last) none

theorem current_concat (op : ClientOp) : current (ops ++ [op]) key = op.effect key (current ops key) := by
  rw [current, List.foldl_append]
  rfl

theorem lastPut_put : lastPut (ops ++ [.put key value]) other =
    if key.take dbidLength = other then some (key, value) else lastPut ops other := by
  rw [lastPut, List.foldl_append]
  rfl

theorem lastPut_get : lastPut (ops ++ [.get key]) other = lastPut ops other := by
  rw [lastPut, List.foldl_append]
  rfl

theorem lastPut_remove : lastPut (ops ++ [.remove key]) other = lastPut ops other := by
  rw [lastPut, List.foldl_append]
  rfl

/-- The key that was put has the bytes. -/
theorem take_of_lastPut (h : lastPut ops other = some (key, value)) : key.take dbidLength = other := by
  induction ops using List.reverseRecOn with
  | nil => cases h
  | append_singleton ops op ih =>
    cases op with
    | put key' value' =>
      rw [lastPut_put] at h
      split at h
      · rename_i hbytes
        cases h
        exact hbytes
      · exact ih h
    | get key' => exact ih (lastPut_get ▸ h)
    | remove key' => exact ih (lastPut_remove ▸ h)

end Expected

namespace System

def ops (s : System) : List ClientOp := s.issued.map fun i => i.request.op

/-- Every answer from the cache is the value that was stored for the key when it was asked for. -/
def CacheRight (s : System) : Prop :=
  ∀ d ∈ s.delivered, d.cached = true → ∃ key value,
    s.ops[d.request]? = some (.get key) ∧ d.response.value = some value ∧
      current (s.ops.take d.request) key = some value

/-- A key is removed only while it is not in the cache; it is looked up only while it is not there, or was
itself put last of the keys with its first bytes. -/
def CacheSafe (s : System) : Event → Prop
  | .request ⟨_, _, .get key⟩ => s.handler.lookup key = none ∨ ∃ value,
    lastPut s.ops (key.take dbidLength) = some (key, value)
  | .request ⟨_, _, .remove key⟩ => s.handler.lookup key = none
  | _ => True

/-- The cache has the value of the latest put of a key with the same first bytes. -/
def CacheFollows (s : System) : Prop :=
  ∀ key value, s.handler.lookup key = some value → ∃ key', lastPut s.ops
    (key.take dbidLength) = some (key', value)

/-- What the cache has was not removed since it was put. -/
def NotRemoved (s : System) : Prop :=
  ∀ key value key', s.handler.lookup key = some value → lastPut s.ops (key.take dbidLength) = some
    (key', value) →
    current s.ops key' = some value

section Steps

variable {s t : System} {r : ClientRequest} {key value : Data}

theorem lookup_congr {h h' : Handler} (hcache : h.cache = h'.cache) (key : Data) :
    h.lookup key = h'.lookup key := by
  rw [Handler.lookup, Handler.lookup, hcache]

theorem lookup_cacheAfter_put {h h' : Handler} (hcache : h'.cache = h.cacheAfter (.put key value))
    {other v : Data}
    (hhit : h'.lookup other = some v) :
    key.take dbidLength = other.take dbidLength ∧ v = value ∨
      key.take dbidLength ≠ other.take dbidLength ∧ h.lookup other = some v := by
  rw [Handler.lookup, hcache, Handler.cacheAfter] at hhit
  rw [Handler.lookup, ← actualDataStr_init, ← actualDataStr_init]
  cases hc : h.cache with
  | none =>
    rw [hc] at hhit
    cases hhit
  | some c =>
    rw [hc] at hhit
    by_cases hsame : (SizedDbid.init key).actualDataStr = (SizedDbid.init other).actualDataStr
    · refine .inl ⟨hsame, Option.some.inj ?_⟩
      rw [← Cache.lookup_insert_self c (.init key) value, Cache.lookup_congr hsame]
      exact hhit.symm
    · exact .inr ⟨hsame, Cache.lookup_of_insert hsame hhit⟩

/-- A request is noted, and the cache changes with a put. -/
theorem ops_request (hstep : s.step (.request r) = some t) :
    t.ops = s.ops ++ [r.op] ∧ t.handler.cache = s.handler.cacheAfter r.op := by
  obtain ⟨cid, cd, -, -, ⟨key, value, hop, -, rfl⟩ | ⟨-, rfl⟩⟩ := step_request hstep
  · rw [ops, ops, List.map_append, hop]
    exact ⟨congrArg (_ ++ [·]) hop, rfl⟩
  · rw [ops, ops, List.map_append]
    exact ⟨rfl, rfl⟩

/-- What a get is answered from the cache. -/
theorem delivered_request (hstep : s.step (.request r) = some t) :
    (∃ key value a, r.op = .get key ∧ s.handler.lookup key = some value ∧ a.value = some value ∧
        t.delivered = s.delivered ++ [⟨s.ops.length, a, true⟩]) ∨
      (∀ key, r.op = .get key → s.handler.lookup key = none) ∧ t.delivered = s.delivered := by
  obtain ⟨cid, cd, -, -, ⟨key, value, hop, hhit, rfl⟩ | ⟨hmiss, rfl⟩⟩ := step_request hstep
  · refine .inl ⟨key, value, ⟨cd, some value, r.continuation⟩, hop, hhit, rfl, ?_⟩
    rw [ops, List.length_map]
  · exact .inr ⟨hmiss, rfl⟩

/-- The other steps go past the cache. -/
theorem step_unasked {e : Event} (hstep : s.step e = some t) (he : ∀ r, e ≠ .request r) :
    t.handler.cache = s.handler.cache ∧ t.ops = s.ops ∧
      ∀ d ∈ t.delivered, d.cached = true → d ∈ s.delivered := by
  cases e with
  | connect =>
    cases hstep
    exact ⟨rfl, rfl, fun d hd _ => hd⟩
  | request r => exact absurd rfl (he r)
  | respond n reply =>
    obtain ⟨i, continuation, -, -, ⟨-, rfl⟩ | ⟨-, cd, data, value, -, -, rfl⟩⟩ := step_respond hstep
    · exact ⟨rfl, rfl, fun d hd _ => hd⟩
    · refine ⟨rfl, rfl, fun d hd hcached => ?_⟩
      rcases List.mem_append.mp hd with hold | hnew
      · exact hold
      · cases List.mem_singleton.mp hnew
        cases hcached

end Steps

section Runs

variable {s t : System} {e : Event}

theorem cacheFollows_step (hstep : s.step e = some t) (h : s.CacheFollows) : t.CacheFollows := by
  intro key value hhit
  by_cases he : ∃ r, e = .request r
  · obtain ⟨r, rfl⟩ := he
    obtain ⟨hops, hcache⟩ := ops_request hstep
    rw [hops]
    cases hop : r.op with
    | put key' value' =>
      rw [hop] at hcache
      rw [lastPut_put]
      rcases lookup_cacheAfter_put hcache hhit with ⟨hsame, rfl⟩ | ⟨hne, hold⟩
      · exact ⟨key', if_pos hsame⟩
      · rw [if_neg hne]
        exact h key value hold
    | get key' =>
      rw [hop] at hcache
      rw [lastPut_get]
      exact h key value (lookup_congr hcache key ▸ hhit)
    | remove key' =>
      rw [hop] at hcache
      rw [lastPut_remove]
      exact h key value (lookup_congr hcache key ▸ hhit)
  · obtain ⟨hcache, hops, -⟩ := step_unasked hstep fun r hr => he ⟨r, hr⟩
    rw [hops]
    exact h key value (lookup_congr hcache key ▸ hhit)

theorem lookup_of_take {h : Handler} {key other : Data} (hsame : key.take dbidLength = other.take dbidLength) :
    h.lookup key = h.lookup other := by
  have hstr : (SizedDbid.init key).actualDataStr = (SizedDbid.init other).actualDataStr := by
    rw [actualDataStr_init, actualDataStr_init, hsame]
  rw [Handler.lookup, Handler.lookup]
  cases h.cache with
  | none => rfl
  | some c => exact Cache.lookup_congr hstr

theorem notRemoved_step (hstep : s.step e = some t) (hsafe : s.CacheSafe e) (h : s.NotRemoved) :
    t.NotRemoved := by
  intro key value key' hhit hlast
  by_cases he : ∃ r, e = .request r
  · obtain ⟨⟨client, continuation, op⟩, rfl⟩ := he
    obtain ⟨hops, hcache⟩ := ops_request hstep
    rw [hops] at hlast
    rw [hops, current_concat]
    cases op with
    | put put putValue =>
      rw [lastPut_put] at hlast
      rcases lookup_cacheAfter_put hcache hhit with ⟨hsame, rfl⟩ | ⟨hne, hold⟩
      · rw [if_pos hsame] at hlast
        cases hlast
        exact if_pos rfl
      · rw [if_neg hne] at hlast
        have hother : put ≠ key' := fun heq => hne (heq ▸ take_of_lastPut hlast)
        exact (if_neg hother).trans (h key value key' hold hlast)
    | get got =>
      rw [lastPut_get] at hlast
      exact h key value key' (lookup_congr hcache key ▸ hhit) hlast
    | remove removed =>
      rw [lastPut_remove] at hlast
      have hold : s.handler.lookup key = some value := lookup_congr hcache key ▸ hhit
      -- a key that is removed is not in the cache
      have hother : removed ≠ key' := by
        rintro rfl
        have hmiss : s.handler.lookup removed = none := hsafe
        rw [lookup_of_take (take_of_lastPut hlast), hold] at hmiss
        cases hmiss
      exact (if_neg hother).trans (h key value key' hold hlast)
  · obtain ⟨hcache, hops, -⟩ := step_unasked hstep fun r hr => he ⟨r, hr⟩
    rw [hops] at hlast ⊢
    exact h key value key' (lookup_congr hcache key ▸ hhit) hlast

/-- More requests do not change what was answered. -/
theorem cacheRight_of_prefix (hextends : s.ops <+: t.ops) (h : s.CacheRight) {d : Delivery}
    (hd : d ∈ s.delivered)
    (hcached : d.cached = true) : ∃ key value, t.ops[d.request]? = some (.get key) ∧
      d.response.value = some value ∧
      current (t.ops.take d.request) key = some value := by
  obtain ⟨key, value, hop, hvalue, hcurrent⟩ := h d hd hcached
  have hlt := (List.getElem?_eq_some_iff.mp hop).1
  obtain ⟨more, hmore⟩ := hextends
  refine ⟨key, value, ?_, hvalue, ?_⟩
  · rw [← hmore, List.getElem?_append_left hlt, hop]
  · rw [← hmore, List.take_append_of_le_length (Nat.le_of_lt hlt), hcurrent]

section Get

variable {client : Nat} {continuation : Int} {key value : Data}

theorem ops_get (hstep : s.step (.request ⟨client, continuation, .get key⟩) = some t) :
    t.ops[s.ops.length]? = some (.get key) ∧ t.ops.take s.ops.length = s.ops := by
  obtain ⟨hops, -⟩ := ops_request hstep
  rw [hops, List.getElem?_concat_length, List.take_left]
  exact ⟨rfl, rfl⟩

/-- An answer from the cache is right only if it is the current value. -/
theorem current_of_cacheRight_get (hstep : s.step (.request ⟨client, continuation, .get key⟩) = some t)
    (hright : t.CacheRight) (hhit : s.handler.lookup key = some value) : current s.ops key = some value := by
  obtain ⟨hlast, htake⟩ := ops_get hstep
  rcases delivered_request hstep with ⟨key', value', a, hop, hhit', hvalue, hdelivered⟩ | ⟨hmiss, -⟩
  · cases hop
    rw [hhit] at hhit'
    cases hhit'
    obtain ⟨key'', value'', hget, hvalue', hcurrent⟩ := hright ⟨s.ops.length, a, true⟩
      (hdelivered ▸ List.mem_append_right _ (List.mem_singleton_self _)) rfl
    rw [hlast] at hget
    rw [hvalue] at hvalue'
    cases hget
    cases hvalue'
    rw [htake] at hcurrent
    exact hcurrent
  · rw [hmiss key rfl] at hhit
    cases hhit

theorem cacheRight_get (hstep : s.step (.request ⟨client, continuation, .get key⟩) = some t) (h : s.CacheRight)
    (hcurrent : ∀ value, s.handler.lookup key = some value → current s.ops key =
      some value) : t.CacheRight := by
  obtain ⟨hlast, htake⟩ := ops_get hstep
  have hextends : s.ops <+: t.ops := ⟨_, (ops_request hstep).1.symm⟩
  intro d hd hcached
  rcases delivered_request hstep with ⟨key', value, a, hop, hhit, hvalue, hdelivered⟩ | ⟨-, hdelivered⟩
  · cases hop
    rcases List.mem_append.mp (hdelivered ▸ hd) with hold | hnew
    · exact cacheRight_of_prefix hextends h hold hcached
    · cases List.mem_singleton.mp hnew
      exact ⟨key, value, hlast, hvalue, htake.symm ▸ hcurrent value hhit⟩
  · exact cacheRight_of_prefix hextends h (hdelivered ▸ hd) hcached

end Get

/-- The answers stay right with a step that is safe. -/
theorem cacheRight_step (hstep : s.step e = some t) (hsafe : s.CacheSafe e) (hfollows : s.CacheFollows)
    (hkept : s.NotRemoved) (h : s.CacheRight) : t.CacheRight := by
  by_cases he : ∃ r, e = .request r
  · obtain ⟨⟨client, continuation, op⟩, rfl⟩ := he
    have hextends : s.ops <+: t.ops := ⟨_, (ops_request hstep).1.symm⟩
    have hother : (∀ key, op ≠ .get key) → t.CacheRight := by
      intro hop d hd hcached
      rcases delivered_request hstep with ⟨key, -, -, hget, -⟩ | ⟨-, hdelivered⟩
      · exact absurd hget (hop key)
      · exact cacheRight_of_prefix hextends h (hdelivered ▸ hd) hcached
    cases op with
    | put key value => exact hother fun _ hop => nomatch hop
    | remove key => exact hother fun _ hop => nomatch hop
    | get key =>
      refine cacheRight_get hstep h fun value hhit => ?_
      rcases hsafe with hmiss | ⟨value', hlast⟩
      · rw [hmiss] at hhit
        cases hhit
      · obtain ⟨key', hput⟩ := hfollows key value hhit
        rw [hlast] at hput
        cases hput
        exact hkept key value key hhit hlast
  · obtain ⟨-, hops, hdelivered⟩ := step_unasked hstep fun r hr => he ⟨r, hr⟩
    intro d hd hcached
    exact cacheRight_of_prefix (hops ▸ List.prefix_refl _) h (hdelivered d hd hcached) hcached

theorem cacheFollows_start (m : Nat) : (start (some (.new m))).CacheFollows := by
  intro key value hhit
  have hmiss : (start (some (.new m))).handler.lookup key = none := Cache.lookup_new m (.init key)
  rw [hmiss] at hhit
  cases hhit

theorem notRemoved_start (m : Nat) : (start (some (.new m))).NotRemoved := by
  intro key value key' hhit
  have hmiss : (start (some (.new m))).handler.lookup key = none := Cache.lookup_new m (.init key)
  rw [hmiss] at hhit
  cases hhit

/-- The cache answers with what is stored as long as no key in it is removed and no other key with the same
first bytes is looked up. A remove of a key in the cache makes the next get of it wrong; a get of another
key with the same first bytes is wrong but for a value that is stored for both. -/
theorem cache_coherence (m : Nat) :
    (∀ es, Meets step CacheSafe (start (some (.new m))) es → Always step CacheRight
      (start (some (.new m))) es) ∧
    ∀ es s, run step (start (some (.new m))) es = some s → ∀ key value, s.handler.lookup key = some value →
      (∀ r r' t, r.op = .remove key → r'.op = .get key → run step s [.request r, .request r'] = some t →
        ¬t.CacheRight) ∧
      (∀ r t, r.op = .get key → step s (.request r) = some t → t.CacheRight → current s.ops key = some value ∧
        ∃ key', lastPut s.ops (key.take dbidLength) = some (key', value)) := by
  constructor
  · intro es hsafe
    refine always_of_meets (I := fun s => s.CacheFollows ∧ s.NotRemoved ∧ s.CacheRight) ?_
      (fun s h => h.2.2) hsafe
      ⟨cacheFollows_start m, notRemoved_start m, fun d hd => absurd hd List.not_mem_nil⟩
    rintro s e t hstep hsafe ⟨hfollows, hkept, hright⟩
    exact ⟨cacheFollows_step hstep hfollows, notRemoved_step hstep hsafe hkept,
      cacheRight_step hstep hsafe hfollows hkept hright⟩
  · intro es s hrun key value hhit
    have hfollows : s.CacheFollows :=
      run_invariant (fun s e t hstep => cacheFollows_step hstep) hrun (cacheFollows_start m)
    constructor
    · rintro ⟨client, continuation, op⟩ ⟨client', continuation', op'⟩ t rfl rfl hrun' hright
      obtain ⟨u, hremove, hget⟩ := run_cons_eq_some.mp hrun'
      obtain ⟨t', hget, hend⟩ := run_cons_eq_some.mp hget
      cases hend
      obtain ⟨hops, hcache⟩ := ops_request hremove
      have hcurrent := current_of_cacheRight_get hget hright (lookup_congr hcache key ▸ hhit)
      rw [hops, current_concat, ClientOp.effect, if_pos rfl] at hcurrent
      cases hcurrent
    · rintro ⟨client, continuation, op⟩ t rfl hget hright
      exact ⟨current_of_cacheRight_get hget hright hhit, hfollows key value hhit⟩

theorem cache_coherence_hit :
    let es : List Event := [.connect, .request ⟨0, 5, .put [1] [9]⟩, .request ⟨0, 6, .get [1]⟩]
    ∃ t, run step (start (some (.new 1))) es = some t ∧
      t.delivered.map (fun d => (d.cached, d.response.value)) = [(true, some [9])] ∧
      Always step CacheRight (start (some (.new 1))) es := by
  refine ⟨_, rfl, rfl, (cache_coherence 1).1 _ ?_⟩
  exact .cons rfl trivial (.cons rfl trivial (.cons rfl (.inr ⟨[9], rfl⟩) trivial))

/-- A key is removed and still answered from the cache; and so is a key that was never put. -/
theorem cache_answers_stale :
    (∃ t, run step (start (some (.new 1)))
        [.connect, .request ⟨0, 5, .put [1] [9]⟩, .request ⟨0, 6, .remove [1]⟩,
          .request ⟨0, 7, .get [1]⟩] = some t ∧
      ¬t.CacheRight) ∧
    ∃ t, run step (start (some (.new 1)))
        [.connect, .request ⟨0, 5, .put (.replicate 20 1) [9]⟩,
          .request ⟨0, 6, .get (.replicate 21 1)⟩] = some t ∧
      ¬t.CacheRight := by
  refine ⟨⟨_, rfl, fun hright => ?_⟩, ⟨_, rfl, fun hright => ?_⟩⟩
  · obtain ⟨key, value, hop, -, hcurrent⟩ := hright _ (List.mem_singleton_self _) rfl
    cases hop
    cases hcurrent
  · obtain ⟨key, value, hop, -, hcurrent⟩ := hright _ (List.mem_singleton_self _) rfl
    cases hop
    cases hcurrent

end Runs

end System

end FawnKV.FrontEnd
