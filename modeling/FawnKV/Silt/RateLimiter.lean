import FawnKV.Lib.Transition
import Mathlib.Tactic.Linarith
import Mathlib.Tactic.Ring

/-! The rate limiter: tokens for every whole interval that has passed, up to a maximum. A run is cut short where
a number of it does not fit in an `int64_t`, and where no reading of the clock is left. -/
namespace FawnKV.Silt

open Transition

def int64 (x : Int) : Option Int := if -9223372036854775808 ≤ x ∧ x < 9223372036854775808 then some x else none

/-- Division of C++, which rounds towards zero. -/
def quotient64 (a b : Int) : Option Int := if b = 0 then none else int64 (a.tdiv b)

theorem int64_eq_some {x y : Int} (h : int64 x = some y) : y = x := by
  rw [int64] at h
  split at h
  · exact (Option.some.inj h).symm
  · cases h

theorem quotient64_eq_some {a b y : Int} (h : quotient64 a b = some y) : y = a.tdiv b := by
  rw [quotient64] at h
  split at h
  · cases h
  · exact int64_eq_some h

structure RateLimiter where
  tokens : Int
  maxTokens : Int
  newTokensPerInterval : Int
  nsPerInterval : Int
  minRetryIntervalNs : Int
  lastTime : Int
deriving DecidableEq

namespace RateLimiter

def new (initialTokens maxTokens newTokensPerInterval nsPerInterval minRetryIntervalNs start : Int) :
    RateLimiter where
  tokens := initialTokens
  maxTokens := maxTokens
  newTokensPerInterval := newTokensPerInterval
  nsPerInterval := nsPerInterval
  minRetryIntervalNs := minRetryIntervalNs
  lastTime := start

variable (l : RateLimiter)

def addTokens (newTokens : Int) : Option RateLimiter := do
  let tokens ← int64 (l.tokens + newTokens)
  some { l with tokens }

def updateTokens (currentTime : Int) : Option RateLimiter := do
  let elapsed ← int64 (currentTime - l.lastTime)
  let newIntervals ← quotient64 elapsed l.nsPerInterval
  if newIntervals < 0 then
    -- someone else consumed too much intervals
    some l
  else
    let consumed ← int64 (newIntervals * l.nsPerInterval)
    let lastTime ← int64 (l.lastTime + consumed)
    let l := { l with lastTime }
    let newTokens ← int64 (newIntervals * l.newTokensPerInterval)
    let sum ← int64 (newTokens + l.tokens)
    if l.maxTokens < sum then
      let newTokens ← int64 (l.maxTokens - l.tokens)
      -- below zero, the token number is maxed out
      if newTokens < 0 then some l else l.addTokens newTokens
    else l.addTokens newTokens

def tryRemoveTokens (v currentTime : Int) : Option (RateLimiter × Bool) := do
  let l ← l.updateTokens currentTime
  let extraTokensRequired ← int64 (v - l.tokens)
  if extraTokensRequired ≤ 0 then
    let tokens ← int64 (l.tokens - v)
    some ({ l with tokens }, true)
  else some (l, false)

/-- How long `remove_tokens` sleeps before it looks at the clock again. -/
def minimumNs (extraTokensRequired : Int) : Option Int := do
  let product ← int64 (extraTokensRequired * l.nsPerInterval)
  let minimum ← quotient64 product l.newTokensPerInterval
  some (if minimum < l.minRetryIntervalNs then l.minRetryIntervalNs else minimum)

/-- What is left after `remove_tokens`: the limiter, whether the tokens are removed (else the call still
sleeps), the last reading of the clock, and the readings to come. -/
structure Removal where
  limiter : RateLimiter
  granted : Bool
  now : Int
  clock : List Int

/-- The loop of `remove_tokens`, which reads the clock in every round. -/
def removeTokens (l : RateLimiter) (v now : Int) : List Int → Option Removal
  | [] => some ⟨l, false, now, []⟩
  | currentTime :: clock => do
    let l ← l.updateTokens currentTime
    let extraTokensRequired ← int64 (v - l.tokens)
    if extraTokensRequired ≤ 0 then
      let tokens ← int64 (l.tokens - v)
      some ⟨{ l with tokens }, true, currentTime, clock⟩
    else
      let _ ← l.minimumNs extraTokensRequired
      l.removeTokens v currentTime clock

section Spec

variable {l l' l₀ : RateLimiter} {v t now granted : Int} {clock : List Int} {ok : Bool} {r : Removal}

/-- Whole intervals are taken from the clock, and for each of them at most its tokens are added; none is added
above the maximum. -/
theorem updateTokens_spec (hns : 0 < l.nsPerInterval) (hnew : 0 < l.newTokensPerInterval) (hle : l.lastTime ≤ t)
    (h : l.updateTokens t = some l') :
    ∃ k tokens, 0 ≤ k ∧ l' = { l with tokens := tokens, lastTime := l.lastTime + k * l.nsPerInterval } ∧
      l.lastTime + k * l.nsPerInterval ≤ t ∧ l.tokens ≤ tokens ∧
      tokens ≤ l.tokens + k * l.newTokensPerInterval ∧ (tokens ≤ l.maxTokens ∨ tokens = l.tokens) := by
  simp only [updateTokens, Option.bind_eq_bind, Option.bind_eq_some_iff] at h
  obtain ⟨elapsed, helapsed, k, hk, h⟩ := h
  rw [int64_eq_some helapsed] at hk
  have hdiv := quotient64_eq_some hk
  rw [Int.tdiv_eq_ediv_of_nonneg (by omega)] at hdiv
  have hpos : 0 ≤ k := by
    rw [hdiv]
    exact Int.ediv_nonneg (by omega) (by omega)
  have hconsumed : k * l.nsPerInterval ≤ t - l.lastTime := by
    rw [hdiv]
    exact Int.ediv_mul_le _ (by omega)
  have hadded : 0 ≤ k * l.newTokensPerInterval := Int.mul_nonneg hpos (by omega)
  rw [if_neg (by omega)] at h
  simp only [Option.bind_eq_some_iff] at h
  obtain ⟨consumed, hc, lastTime, hlast, newTokens, hn, sum, hsum, h⟩ := h
  obtain rfl := int64_eq_some hc
  obtain rfl := int64_eq_some hlast
  obtain rfl := int64_eq_some hn
  obtain rfl := int64_eq_some hsum
  split at h
  · simp only [Option.bind_eq_some_iff] at h
    obtain ⟨rest, hrest, h⟩ := h
    obtain rfl := int64_eq_some hrest
    split at h
    · cases h
      exact ⟨k, l.tokens, hpos, rfl, by omega, Int.le_refl _, by omega, .inr rfl⟩
    · simp only [addTokens, Option.bind_eq_bind, Option.bind_eq_some_iff] at h
      obtain ⟨tokens, htokens, h⟩ := h
      obtain rfl := int64_eq_some htokens
      cases h
      exact ⟨k, _, hpos, rfl, by omega, by omega, by omega, .inl (by omega)⟩
  · simp only [addTokens, Option.bind_eq_bind, Option.bind_eq_some_iff] at h
    obtain ⟨tokens, htokens, h⟩ := h
    obtain rfl := int64_eq_some htokens
    cases h
    exact ⟨k, _, hpos, rfl, by omega, by omega, by omega, .inl (by omega)⟩

/-- Beside the limiter that the run started with. What has been granted and what is left was there at the start
or came with one of the intervals that are taken from the clock. -/
structure Sound (l₀ l : RateLimiter) (now granted : Int) : Prop where
  same : l = { l₀ with tokens := l.tokens, lastTime := l.lastTime }
  intervals : ∃ k, 0 ≤ k ∧ l.lastTime = l₀.lastTime + k * l₀.nsPerInterval ∧
    l.tokens + granted ≤ l₀.tokens + k * l₀.newTokensPerInterval
  not_ahead : l.lastTime ≤ now
  tokens_le : l.tokens ≤ max l₀.tokens l₀.maxTokens
  nonneg : 0 ≤ l₀.tokens → 0 ≤ l.tokens
  paid : granted = 0 ∨ 0 ≤ l.tokens

theorem Sound.start (l : RateLimiter) : Sound l l l.lastTime 0 :=
  ⟨rfl, ⟨0, Int.le_refl 0, by omega, by omega⟩, Int.le_refl _, Int.le_max_left _ _, id, .inl rfl⟩

theorem Sound.updateTokens (h : Sound l₀ l now granted) (hns : 0 < l₀.nsPerInterval)
    (hnew : 0 < l₀.newTokensPerInterval) (hle : now ≤ t) (hupdate : l.updateTokens t = some l') :
    Sound l₀ l' t granted := by
  obtain ⟨k, hk, hlast, hbound⟩ := h.intervals
  have hsame := h.same
  have hmax := h.tokens_le
  have hahead := h.not_ahead
  have hnonneg := h.nonneg
  have hpaid := h.paid
  have hnsEq : l.nsPerInterval = l₀.nsPerInterval := by rw [hsame]
  have hnewEq : l.newTokensPerInterval = l₀.newTokensPerInterval := by rw [hsame]
  have hmaxEq : l.maxTokens = l₀.maxTokens := by rw [hsame]
  obtain ⟨n, tokens, hn, rfl, hclock, hge, hadded, hcap⟩ :=
    updateTokens_spec (hnsEq ▸ hns) (hnewEq ▸ hnew) (Int.le_trans hahead hle) hupdate
  rw [hnewEq] at hadded
  rw [hmaxEq] at hcap
  refine ⟨?_, ⟨k + n, by omega, ?_, ?_⟩, hclock, ?_, fun h0 => ?_, ?_⟩
  · rw [hsame]
  · dsimp only
    rw [hnsEq, hlast, Int.add_mul, Int.add_assoc]
  · rw [Int.add_mul]
    dsimp only
    omega
  · dsimp only
    omega
  · exact Int.le_trans (hnonneg h0) hge
  · dsimp only
    omega

theorem Sound.grant (h : Sound l₀ l now granted) (hv : 0 ≤ v) (henough : v ≤ l.tokens) :
    Sound l₀ { l with tokens := l.tokens - v } now (granted + v) := by
  obtain ⟨k, hk, hlast, hbound⟩ := h.intervals
  have hmax := h.tokens_le
  refine ⟨?_, ⟨k, hk, hlast, ?_⟩, h.not_ahead, ?_, fun _ => ?_, .inr ?_⟩
  · rw [h.same]
  · dsimp only
    omega
  · dsimp only
    omega
  · exact Int.sub_nonneg_of_le henough
  · exact Int.sub_nonneg_of_le henough

theorem Sound.tryRemoveTokens (h : Sound l₀ l now granted) (hns : 0 < l₀.nsPerInterval)
    (hnew : 0 < l₀.newTokensPerInterval) (hv : 0 ≤ v) (hle : now ≤ t)
    (htry : l.tryRemoveTokens v t = some (l', ok)) : Sound l₀ l' t (if ok then granted + v else granted) := by
  simp only [RateLimiter.tryRemoveTokens, Option.bind_eq_bind, Option.bind_eq_some_iff] at htry
  obtain ⟨m, hupdate, extra, hextra, htry⟩ := htry
  obtain rfl := int64_eq_some hextra
  have hm := h.updateTokens hns hnew hle hupdate
  split at htry
  · simp only [Option.bind_eq_some_iff] at htry
    obtain ⟨tokens, htokens, htry⟩ := htry
    obtain rfl := int64_eq_some htokens
    cases htry
    exact hm.grant hv (by omega)
  · cases htry
    exact hm

/-- A round of the loop does what `try_remove_tokens` does, and sleeps if that fails. -/
theorem removeTokens_cons (h : l.removeTokens v now (t :: clock) = some r) :
    ∃ l' ok, l.tryRemoveTokens v t = some (l', ok) ∧
      (ok = true ∧ r = ⟨l', true, t, clock⟩ ∨ ok = false ∧ l'.removeTokens v t clock = some r) := by
  simp only [RateLimiter.removeTokens, Option.bind_eq_bind, Option.bind_eq_some_iff] at h
  obtain ⟨m, hupdate, extra, hextra, h⟩ := h
  simp only [RateLimiter.tryRemoveTokens, Option.bind_eq_bind, hupdate, hextra, Option.bind_some]
  split at h
  · rename_i henough
    simp only [Option.bind_eq_some_iff] at h
    obtain ⟨tokens, htokens, h⟩ := h
    rw [if_pos henough, htokens]
    cases h
    exact ⟨_, true, rfl, .inl ⟨rfl, rfl⟩⟩
  · rename_i henough
    simp only [Option.bind_eq_some_iff] at h
    obtain ⟨minimum, -, h⟩ := h
    rw [if_neg henough]
    exact ⟨m, false, rfl, .inr ⟨rfl, h⟩⟩

theorem Sound.removeTokens (h : Sound l₀ l now granted) (hns : 0 < l₀.nsPerInterval)
    (hnew : 0 < l₀.newTokensPerInterval) (hv : 0 ≤ v) (hclock : (now :: clock).Pairwise (· ≤ ·))
    (hremove : l.removeTokens v now clock = some r) :
    Sound l₀ r.limiter r.now (if r.granted then granted + v else granted) ∧
      (r.now :: r.clock).Pairwise (· ≤ ·) := by
  induction clock generalizing l now with
  | nil =>
    cases hremove
    exact ⟨h, hclock⟩
  | cons t clock ih =>
    obtain ⟨hnow, hrest⟩ := List.pairwise_cons.mp hclock
    obtain ⟨m, ok, htry, hcase⟩ := removeTokens_cons hremove
    have hm := h.tryRemoveTokens hns hnew hv (hnow t List.mem_cons_self) htry
    obtain ⟨rfl, rfl⟩ | ⟨rfl, hsleep⟩ := hcase
    · exact ⟨hm, hrest⟩
    · exact ih hm hrest hsleep

end Spec

inductive Call where
  | removeTokens (v : Int)
  | tryRemoveTokens (v : Int)

def Call.amount : Call → Int
  | removeTokens v | tryRemoveTokens v => v

/-- The limiter, the last reading of the clock and those to come, and the tokens granted so far. -/
structure System where
  limiter : RateLimiter
  now : Int
  clock : List Int
  granted : Int
deriving DecidableEq

def step (s : System) : Call → Option System
  | .removeTokens v => do
    let r ← s.limiter.removeTokens v s.now s.clock
    some ⟨r.limiter, r.now, r.clock, if r.granted then s.granted + v else s.granted⟩
  | .tryRemoveTokens v =>
    match s.clock with
    | [] => none
    | currentTime :: clock => do
      let r ← s.limiter.tryRemoveTokens v currentTime
      some ⟨r.1, currentTime, clock, if r.2 then s.granted + v else s.granted⟩

def start (l : RateLimiter) (clock : List Int) : System := ⟨l, l.lastTime, clock, 0⟩

/-- The clock does not go back, and the limiter is beside the one of the start. -/
structure Inv (l₀ : RateLimiter) (s : System) : Prop where
  sound : Sound l₀ s.limiter s.now s.granted
  clock : (s.now :: s.clock).Pairwise (· ≤ ·)

section Runs

variable {l l₀ : RateLimiter} {s t : System} {op : Call} {ops : List Call} {clock : List Int}

theorem inv_step (hns : 0 < l₀.nsPerInterval) (hnew : 0 < l₀.newTokensPerInterval)
    (hstep : step s op = some t) (hv : 0 ≤ op.amount) (h : Inv l₀ s) : Inv l₀ t := by
  obtain ⟨hsound, hclock⟩ := h
  cases op with
  | removeTokens v =>
    simp only [step, Option.bind_eq_bind, Option.bind_eq_some_iff] at hstep
    obtain ⟨r, hremove, hstep⟩ := hstep
    cases hstep
    obtain ⟨hr, hrest⟩ := hsound.removeTokens hns hnew hv hclock hremove
    exact ⟨hr, hrest⟩
  | tryRemoveTokens v =>
    simp only [step] at hstep
    split at hstep
    · cases hstep
    · rename_i currentTime clock heq
      simp only [Option.bind_eq_bind, Option.bind_eq_some_iff] at hstep
      obtain ⟨r, htry, hstep⟩ := hstep
      cases hstep
      rw [heq] at hclock
      obtain ⟨hnow, hrest⟩ := List.pairwise_cons.mp hclock
      exact ⟨hsound.tryRemoveTokens hns hnew hv (hnow currentTime List.mem_cons_self) htry, hrest⟩

/-- Whatever calls are made, in every state that they reach, also while a call sleeps: the run up to there is
the one with the readings made so far. -/
theorem granted_le (hns : 0 < l.nsPerInterval) (hnew : 0 < l.newTokensPerInterval)
    (hclock : (l.lastTime :: clock).Pairwise (· ≤ ·)) (hv : ∀ op ∈ ops, 0 ≤ op.amount)
    (h : run step (start l clock) ops = some t) :
    t.granted ≤ max 0 (l.tokens + l.newTokensPerInterval * ((t.now - l.lastTime) / l.nsPerInterval)) ∧
      t.limiter.tokens ≤ max l.tokens l.maxTokens ∧ (0 ≤ l.tokens → 0 ≤ t.limiter.tokens) ∧
      (∃ k, 0 ≤ k ∧ t.limiter.lastTime = l.lastTime + k * l.nsPerInterval) ∧ t.limiter.lastTime ≤ t.now := by
  have hmeets : Meets step (fun _ op => 0 ≤ Call.amount op) (start l clock) ops := meets_of_forall_mem hv _
  have hfinal : Inv l t :=
    run_invariant_of_meets (fun s op t hstep hv hs => inv_step hns hnew hstep hv hs) h hmeets ⟨.start l, hclock⟩
  have hsound := hfinal.sound
  obtain ⟨k, hk, hlast, hbound⟩ := hsound.intervals
  have hpaid := hsound.paid
  refine ⟨?_, hsound.tokens_le, hsound.nonneg, ⟨k, hk, hlast⟩, hsound.not_ahead⟩
  have hreach : k ≤ (t.now - l.lastTime) / l.nsPerInterval := by
    rw [Int.le_ediv_iff_mul_le hns]
    have hahead := hsound.not_ahead
    omega
  have hcredit := Int.mul_le_mul_of_nonneg_right hreach (Int.le_of_lt hnew)
  rw [Int.mul_comm (_ / _)] at hcredit
  omega

theorem granted_le_removal :
    ∃ t, run step (start (.new 0 5 2 10 1 100) [103, 125]) [.removeTokens 3] = some t ∧
      t.granted ≤ max 0 (0 + 2 * ((t.now - 100) / 10)) := by
  have hrun : run step (start (.new 0 5 2 10 1 100) [103, 125]) [.removeTokens 3] =
      some ⟨⟨1, 5, 2, 10, 1, 120⟩, 125, [], 3⟩ := by decide
  exact ⟨_, hrun, (granted_le (by decide) (by decide) (by decide) (by decide) hrun).1⟩

/-- The first interval is not over, and the limiter starts below zero. -/
theorem granted_below_zero :
    ∃ t, run step (start (.new (-1) 5 2 10 1 100) [103]) [.tryRemoveTokens 0] = some t ∧
      ¬t.granted ≤ -1 + 2 * ((t.now - 100) / 10) :=
  ⟨⟨⟨-1, 5, 2, 10, 1, 100⟩, 103, [], 0⟩, by decide, by decide⟩

end Runs

end RateLimiter

end FawnKV.Silt
