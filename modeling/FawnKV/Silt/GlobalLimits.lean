import FawnKV.Silt.RateLimiter

/-! `GlobalLimits`, and when a call of its rate limiters returns. -/
namespace FawnKV.Silt

open Transition

namespace RateLimiter

section Waiting

variable {l l' : RateLimiter} {v t now : Int} {clock : List Int} {r : Removal}

/-- The tokens there are at a reading of the clock: those of all whole intervals since, up to the maximum,
unless there were more than that before. -/
theorem updateTokens_tokens (hns : 0 < l.nsPerInterval) (hnew : 0 < l.newTokensPerInterval)
    (hle : l.lastTime ≤ t) (h : l.updateTokens t = some l') :
    l' = { l with
      tokens := max l.tokens
        (min l.maxTokens (l.tokens + (t - l.lastTime) / l.nsPerInterval * l.newTokensPerInterval))
      lastTime := l.lastTime + (t - l.lastTime) / l.nsPerInterval * l.nsPerInterval } := by
  simp only [updateTokens, Option.bind_eq_bind, Option.bind_eq_some_iff] at h
  obtain ⟨elapsed, helapsed, k, hk, h⟩ := h
  rw [int64_eq_some helapsed] at hk
  have hdiv := quotient64_eq_some hk
  rw [Int.tdiv_eq_ediv_of_nonneg (by omega)] at hdiv
  have hpos : 0 ≤ k := by
    rw [hdiv]
    exact Int.ediv_nonneg (by omega) (by omega)
  have hadded : 0 ≤ k * l.newTokensPerInterval := Int.mul_nonneg hpos (by omega)
  rw [if_neg (by omega)] at h
  simp only [Option.bind_eq_some_iff] at h
  obtain ⟨consumed, hc, lastTime, hlast, newTokens, hn, sum, hsum, h⟩ := h
  obtain rfl := int64_eq_some hc
  obtain rfl := int64_eq_some hlast
  obtain rfl := int64_eq_some hn
  obtain rfl := int64_eq_some hsum
  rw [← hdiv]
  generalize k * l.newTokensPerInterval = added at hadded h hn hsum
  split at h
  · simp only [Option.bind_eq_some_iff] at h
    obtain ⟨rest, hrest, h⟩ := h
    obtain rfl := int64_eq_some hrest
    split at h
    · cases h
      have htokens : max l.tokens (min l.maxTokens (l.tokens + added)) = l.tokens := by omega
      rw [htokens]
    · simp only [addTokens, Option.bind_eq_bind, Option.bind_eq_some_iff] at h
      obtain ⟨tokens, htokens, h⟩ := h
      obtain rfl := int64_eq_some htokens
      cases h
      have htokens : max l.tokens (min l.maxTokens (l.tokens + added)) =
          l.tokens + (l.maxTokens - l.tokens) := by
        omega
      rw [htokens]
  · simp only [addTokens, Option.bind_eq_bind, Option.bind_eq_some_iff] at h
    obtain ⟨tokens, htokens, h⟩ := h
    obtain rfl := int64_eq_some htokens
    cases h
    have htokens : max l.tokens (min l.maxTokens (l.tokens + added)) = l.tokens + added := by omega
    rw [htokens]

/-- There are tokens enough at the reading: `v` are there already, or `v` is at most the maximum and they come
with the intervals up to it. -/
def Enough (l : RateLimiter) (v t : Int) : Prop :=
  v ≤ l.tokens ∨
    v ≤ l.maxTokens ∧ v ≤ l.tokens + (t - l.lastTime) / l.nsPerInterval * l.newTokensPerInterval

theorem tryRemoveTokens_iff (hns : 0 < l.nsPerInterval) (hnew : 0 < l.newTokensPerInterval)
    (hle : l.lastTime ≤ t) {ok : Bool} (h : l.tryRemoveTokens v t = some (l', ok)) :
    ok = true ↔ Enough l v t := by
  simp only [tryRemoveTokens, Option.bind_eq_bind, Option.bind_eq_some_iff] at h
  obtain ⟨m, hm, extra, hextra, h⟩ := h
  obtain rfl := int64_eq_some hextra
  have htokens := congrArg RateLimiter.tokens (updateTokens_tokens hns hnew hle hm)
  dsimp only at htokens
  unfold Enough
  split at h
  · simp only [Option.bind_eq_some_iff] at h
    obtain ⟨tokens, -, h⟩ := h
    cases h
    exact iff_of_true rfl (by omega)
  · cases h
    exact iff_of_false Bool.noConfusion (by omega)

/-- A reading that is not enough changes nothing about those after it. -/
theorem enough_after {u : Int} (hns : 0 < l.nsPerInterval) (hnew : 0 < l.newTokensPerInterval)
    (hle : l.lastTime ≤ t) (h : l.tryRemoveTokens v t = some (l', false)) :
    l'.nsPerInterval = l.nsPerInterval ∧ l'.newTokensPerInterval = l.newTokensPerInterval ∧ l'.lastTime ≤ t ∧
      (Enough l' v u ↔ Enough l v u) := by
  have hnot : ¬Enough l v t := fun he => Bool.noConfusion ((tryRemoveTokens_iff hns hnew hle h).mpr he)
  simp only [tryRemoveTokens, Option.bind_eq_bind, Option.bind_eq_some_iff] at h
  obtain ⟨m, hm, extra, hextra, h⟩ := h
  split at h
  · simp only [Option.bind_eq_some_iff] at h
    obtain ⟨tokens, -, h⟩ := h
    cases h
  · cases h
    obtain rfl := updateTokens_tokens hns hnew hle hm
    have hclock := Int.ediv_mul_le (t - l.lastTime) (show l.nsPerInterval ≠ 0 by omega)
    refine ⟨rfl, rfl, by dsimp only; omega, ?_⟩
    have hsplit : (u - l.lastTime) / l.nsPerInterval = (u - (l.lastTime + (t - l.lastTime) / l.nsPerInterval *
        l.nsPerInterval)) / l.nsPerInterval + (t - l.lastTime) / l.nsPerInterval := by
      rw [← Int.add_mul_ediv_right _ _ (show l.nsPerInterval ≠ 0 by omega)]
      congr 1
      omega
    have hadded : 0 ≤ (t - l.lastTime) / l.nsPerInterval * l.newTokensPerInterval :=
      Int.mul_nonneg (Int.ediv_nonneg (by omega) (by omega)) (by omega)
    unfold Enough at hnot ⊢
    rw [hsplit, Int.add_mul]
    dsimp only
    generalize (t - l.lastTime) / l.nsPerInterval * l.newTokensPerInterval = added at hnot hadded ⊢
    generalize (u - _) / l.nsPerInterval * l.newTokensPerInterval = later
    omega

theorem granted_iff (hns : 0 < l.nsPerInterval) (hnew : 0 < l.newTokensPerInterval)
    (hlast : l.lastTime ≤ now) (hclock : (now :: clock).Pairwise (· ≤ ·))
    (h : l.removeTokens v now clock = some r) : r.granted = true ↔ ∃ t ∈ clock, Enough l v t := by
  induction clock generalizing l now with
  | nil =>
    cases h
    simp
  | cons t clock ih =>
    obtain ⟨hnow, hrest⟩ := List.pairwise_cons.mp hclock
    have hle : l.lastTime ≤ t := Int.le_trans hlast (hnow t List.mem_cons_self)
    obtain ⟨m, ok, htry, hcase⟩ := removeTokens_cons h
    have hfirst := tryRemoveTokens_iff hns hnew hle htry
    rw [List.exists_mem_cons_iff]
    obtain ⟨rfl, rfl⟩ | ⟨rfl, hsleep⟩ := hcase
    · exact ⟨fun _ => .inl (hfirst.mp rfl), fun _ => rfl⟩
    · have hafter (u : Int) := enough_after (u := u) hns hnew hle htry
      obtain ⟨hsame, hsame', hbefore, -⟩ := hafter t
      have hnot : ¬Enough l v t := fun he => Bool.noConfusion (hfirst.mpr he)
      rw [ih (hsame ▸ hns) (hsame' ▸ hnew) hbefore hrest hsleep, or_iff_right hnot]
      exact exists_congr fun u => and_congr_right fun _ => (hafter u).2.2.2

/-- Whatever calls came before, a call of `remove_tokens` returns exactly when it comes to a reading at which
there are tokens enough. -/
theorem removeTokens_returns_iff (l : RateLimiter) (clock : List Int) (ops : List Call) (t : System) (v : Int)
    (r : Removal) (hns : 0 < l.nsPerInterval) (hnew : 0 < l.newTokensPerInterval)
    (hclock : (l.lastTime :: clock).Pairwise (· ≤ ·)) (hops : ∀ op ∈ ops, 0 ≤ op.amount)
    (hrun : run step (start l clock) ops = some t) (h : t.limiter.removeTokens v t.now t.clock = some r) :
    r.granted = true ↔ ∃ u ∈ t.clock, Enough t.limiter v u := by
  have hmeets : Meets step (fun _ op => 0 ≤ Call.amount op) (start l clock) ops := meets_of_forall_mem hops _
  have hinv : Inv l t :=
    run_invariant_of_meets (fun s op t hstep hv hs => inv_step hns hnew hstep hv hs) hrun hmeets
      ⟨.start l, hclock⟩
  have hsame := hinv.sound.same
  refine granted_iff ?_ ?_ hinv.sound.not_ahead hinv.clock h
  · rw [hsame]
    exact hns
  · rw [hsame]
    exact hnew

theorem removeTokens_returns_iff_second :
    ∃ t r, run step (start (.new 0 5 2 10 1 100) [103, 125, 126, 147]) [.removeTokens 3] = some t ∧
      t.limiter.removeTokens 4 t.now t.clock = some r ∧
      (r.granted = true ↔ ∃ u ∈ t.clock, Enough t.limiter 4 u) := by
  have hrun : run step (start (.new 0 5 2 10 1 100) [103, 125, 126, 147]) [.removeTokens 3] =
      some ⟨⟨1, 5, 2, 10, 1, 120⟩, 125, [126, 147], 3⟩ := by decide
  have hremove : (⟨1, 5, 2, 10, 1, 120⟩ : RateLimiter).removeTokens 4 125 [126, 147] =
      some ⟨⟨1, 5, 2, 10, 1, 140⟩, true, 147, []⟩ := rfl
  exact ⟨_, _, hrun, hremove, removeTokens_returns_iff _ _ _ _ 4 _ (by decide) (by decide) (by decide)
    (by decide) hrun hremove⟩

end Waiting

end RateLimiter

structure GlobalLimits where
  disabled : Int
  convertRateLimiter : RateLimiter
  mergeRateLimiter : RateLimiter

namespace GlobalLimits

/-- The body of `set_convert_rate` and of `set_merge_rate`. -/
def setRate (l : RateLimiter) (v : Int) : Option RateLimiter := do
  let tokens ← quotient64 v 100
  let nsPerInterval ← quotient64 1000000000 v
  some { l with tokens, maxTokens := tokens, nsPerInterval }

def setConvertRate (g : GlobalLimits) (v : Int) : Option GlobalLimits := do
  let convertRateLimiter ← setRate g.convertRateLimiter v
  some { g with convertRateLimiter }

def setMergeRate (g : GlobalLimits) (v : Int) : Option GlobalLimits := do
  let mergeRateLimiter ← setRate g.mergeRateLimiter v
  some { g with mergeRateLimiter }

def create (start : Int) : Option GlobalLimits := do
  let limiter := RateLimiter.new 0 1000000000 1 1 1000 start
  let g ← setConvertRate ⟨0, limiter, limiter⟩ 1000000000
  g.setMergeRate 1000000000

def enabled (g : GlobalLimits) : Bool := g.disabled == 0

def disable (g : GlobalLimits) : GlobalLimits := { g with disabled := g.disabled + 1 }

def enable (g : GlobalLimits) : GlobalLimits :=
  { g with disabled := if g.disabled - 1 < 0 then g.disabled - 1 + 1 else g.disabled - 1 }

/-- The calls that the tasks and `Flush` make. -/
inductive Call where
  | removeConvertTokens
  | removeMergeTokens
  | disable
  | enable

/-- The limits, the last reading of the clock and those to come. -/
structure System where
  limits : GlobalLimits
  now : Int
  clock : List Int

def step (s : System) : Call → Option System
  | .removeConvertTokens =>
    if s.limits.enabled then do
      let r ← s.limits.convertRateLimiter.removeTokens 1 s.now s.clock
      some ⟨{ s.limits with convertRateLimiter := r.limiter }, r.now, r.clock⟩
    else some s
  | .removeMergeTokens =>
    if s.limits.enabled then do
      let r ← s.limits.mergeRateLimiter.removeTokens 1 s.now s.clock
      some ⟨{ s.limits with mergeRateLimiter := r.limiter }, r.now, r.clock⟩
    else some s
  | .disable => some { s with limits := s.limits.disable }
  | .enable => some { s with limits := s.limits.enable }

/-- A limiter whose rate was set to `v`. -/
structure Rated (v : Int) (l : RateLimiter) (now : Int) : Prop where
  nsPerInterval : l.nsPerInterval = 1000000000 / v
  newTokensPerInterval : l.newTokensPerInterval = 1
  maxTokens : l.maxTokens = v / 100
  nonneg : 0 ≤ l.tokens
  tokens_le : l.tokens ≤ v / 100
  not_ahead : l.lastTime ≤ now

structure Inv (convertRate mergeRate : Int) (s : System) : Prop where
  convert : Rated convertRate s.limits.convertRateLimiter s.now
  merge : Rated mergeRate s.limits.mergeRateLimiter s.now
  clock : (s.now :: s.clock).Pairwise (· ≤ ·)

section Runs

variable {v convertRate mergeRate now : Int} {l l' : RateLimiter} {clock : List Int} {s t : System}

theorem Rated.mono {later : Int} (h : Rated v l now) (hle : now ≤ later) : Rated v l later :=
  { h with not_ahead := Int.le_trans h.not_ahead hle }

theorem rated_setRate (hpos : 0 < v) (hv : v ≤ 1000000000) (hnew : l.newTokensPerInterval = 1)
    (hlast : l.lastTime ≤ now) (h : setRate l v = some l') : Rated v l' now := by
  simp only [setRate, Option.bind_eq_bind, Option.bind_eq_some_iff] at h
  obtain ⟨tokens, htokens, ns, hns, h⟩ := h
  have htokens := quotient64_eq_some htokens
  have hns := quotient64_eq_some hns
  rw [Int.tdiv_eq_ediv_of_nonneg (by omega)] at htokens hns
  cases h
  exact ⟨hns, hnew, htokens, by dsimp only; omega, by dsimp only; omega, hlast⟩

theorem create_limiters {start : Int} {g : GlobalLimits} (h : create start = some g) :
    g.convertRateLimiter.newTokensPerInterval = 1 ∧ g.mergeRateLimiter.newTokensPerInterval = 1 ∧
      g.convertRateLimiter.lastTime ≤ start ∧ g.mergeRateLimiter.lastTime ≤ start := by
  cases h
  exact ⟨rfl, rfl, Int.le_refl start, Int.le_refl start⟩

theorem interval_pos (hpos : 0 < v) (hv : v ≤ 1000000000) (h : Rated v l now) : 0 < l.nsPerInterval := by
  have hone : 1 ≤ 1000000000 / v := (Int.le_ediv_iff_mul_le hpos).mpr (by omega)
  rw [h.nsPerInterval]
  exact hone

theorem now_le_removal {r : RateLimiter.Removal} (hclock : (now :: clock).Pairwise (· ≤ ·))
    (h : l.removeTokens v now clock = some r) : now ≤ r.now := by
  induction clock generalizing l now with
  | nil =>
    cases h
    exact Int.le_refl now
  | cons u clock ih =>
    obtain ⟨hnow, hrest⟩ := List.pairwise_cons.mp hclock
    have hu := hnow u List.mem_cons_self
    obtain ⟨m, ok, -, hcase⟩ := RateLimiter.removeTokens_cons h
    obtain ⟨-, rfl⟩ | ⟨-, hsleep⟩ := hcase
    · exact hu
    · exact Int.le_trans hu (ih hrest hsleep)

theorem rated_removeTokens {r : RateLimiter.Removal} (hpos : 0 < v) (hv : v ≤ 1000000000) (h : Rated v l now)
    (hclock : (now :: clock).Pairwise (· ≤ ·)) (hremove : l.removeTokens 1 now clock = some r) :
    Rated v r.limiter r.now ∧ (r.now :: r.clock).Pairwise (· ≤ ·) := by
  have hstart : RateLimiter.Sound l l now 0 :=
    ⟨rfl, ⟨0, Int.le_refl 0, by omega, by omega⟩, h.not_ahead, Int.le_max_left _ _, id, .inl rfl⟩
  obtain ⟨hsound, hrest⟩ := hstart.removeTokens (interval_pos hpos hv h)
    (h.newTokensPerInterval ▸ Int.one_pos) (by decide) hclock hremove
  have hle := hsound.tokens_le
  have htokens := h.tokens_le
  rw [h.maxTokens] at hle
  have hsame := hsound.same
  refine ⟨⟨?_, ?_, ?_, hsound.nonneg h.nonneg, by omega, hsound.not_ahead⟩, hrest⟩
  · rw [hsame]
    exact h.nsPerInterval
  · rw [hsame]
    exact h.newTokensPerInterval
  · rw [hsame]
    exact h.maxTokens

theorem inv_step {call : Call} (hconvert : 0 < convertRate ∧ convertRate ≤ 1000000000)
    (hmerge : 0 < mergeRate ∧ mergeRate ≤ 1000000000) (hstep : step s call = some t)
    (h : Inv convertRate mergeRate s) : Inv convertRate mergeRate t := by
  cases call with
  | removeConvertTokens =>
    rw [step] at hstep
    split at hstep
    · obtain ⟨r, hremove, hstep⟩ := Option.bind_eq_some_iff.mp hstep
      cases hstep
      obtain ⟨hrated, hclock⟩ := rated_removeTokens hconvert.1 hconvert.2 h.convert h.clock hremove
      exact ⟨hrated, h.merge.mono (now_le_removal h.clock hremove), hclock⟩
    · cases hstep
      exact h
  | removeMergeTokens =>
    rw [step] at hstep
    split at hstep
    · obtain ⟨r, hremove, hstep⟩ := Option.bind_eq_some_iff.mp hstep
      cases hstep
      obtain ⟨hrated, hclock⟩ := rated_removeTokens hmerge.1 hmerge.2 h.merge h.clock hremove
      exact ⟨h.convert.mono (now_le_removal h.clock hremove), hrated, hclock⟩
    · cases hstep
      exact h
  | disable =>
    cases hstep
    exact ⟨h.convert, h.merge, h.clock⟩
  | enable =>
    cases hstep
    exact ⟨h.convert, h.merge, h.clock⟩

/-- A waiting call for one token gets it within an interval, unless the rate is so low that the limiter can
have no token at all. -/
theorem rated_returns_iff {r : RateLimiter.Removal} (hpos : 0 < v) (hv : v ≤ 1000000000) (h : Rated v l now)
    (hclock : (now :: clock).Pairwise (· ≤ ·)) (hremove : l.removeTokens 1 now clock = some r)
    (hlater : ∃ u ∈ clock, l.lastTime + 1000000000 / v ≤ u) : r.granted = true ↔ 100 ≤ v := by
  have hns := interval_pos hpos hv h
  have hmax := h.maxTokens
  have hnonneg := h.nonneg
  have hle := h.tokens_le
  rw [RateLimiter.granted_iff hns (h.newTokensPerInterval ▸ Int.one_pos) h.not_ahead hclock hremove]
  constructor
  · rintro ⟨u, -, henough⟩
    unfold RateLimiter.Enough at henough
    omega
  · intro hrate
    obtain ⟨u, hu, hinterval⟩ := hlater
    have hone : 1 ≤ (u - l.lastTime) / l.nsPerInterval := by
      rw [Int.le_ediv_iff_mul_le hns, h.nsPerInterval]
      omega
    refine ⟨u, hu, .inr ⟨by omega, ?_⟩⟩
    rw [h.newTokensPerInterval]
    omega

end Runs

/-- Whatever calls came before: with both rates at most `10 ^ 9`, the next call for a token that comes to a
reading one interval on returns, exactly when the rate is at least 100. -/
theorem tokens_come_iff (start convertRate mergeRate : Int) (clock : List Int) (calls : List Call)
    (g₀ g₁ g : GlobalLimits) (t : System) (r : RateLimiter.Removal)
    (hcreate : create start = some g₀) (hsetConvert : g₀.setConvertRate convertRate = some g₁)
    (hsetMerge : g₁.setMergeRate mergeRate = some g) (hconvert : 0 < convertRate ∧ convertRate ≤ 1000000000)
    (hmerge : 0 < mergeRate ∧ mergeRate ≤ 1000000000) (hclock : (start :: clock).Pairwise (· ≤ ·))
    (hrun : run step ⟨g, start, clock⟩ calls = some t) :
    ((∃ u ∈ t.clock, t.limits.mergeRateLimiter.lastTime + 1000000000 / mergeRate ≤ u) →
        t.limits.mergeRateLimiter.removeTokens 1 t.now t.clock = some r →
        (r.granted = true ↔ 100 ≤ mergeRate)) ∧
      ((∃ u ∈ t.clock, t.limits.convertRateLimiter.lastTime + 1000000000 / convertRate ≤ u) →
        t.limits.convertRateLimiter.removeTokens 1 t.now t.clock = some r →
        (r.granted = true ↔ 100 ≤ convertRate)) := by
  obtain ⟨hnew, hnew', hlast, hlast'⟩ := create_limiters hcreate
  simp only [setConvertRate, Option.bind_eq_bind, Option.bind_eq_some_iff] at hsetConvert
  obtain ⟨convert, hsetConvert, heq⟩ := hsetConvert
  cases heq
  simp only [setMergeRate, Option.bind_eq_bind, Option.bind_eq_some_iff] at hsetMerge
  obtain ⟨merge, hsetMerge, heq⟩ := hsetMerge
  cases heq
  have hstart : Inv convertRate mergeRate
      ⟨{ g₀ with convertRateLimiter := convert, mergeRateLimiter := merge }, start, clock⟩ :=
    ⟨rated_setRate hconvert.1 hconvert.2 hnew hlast hsetConvert,
      rated_setRate hmerge.1 hmerge.2 hnew' hlast' hsetMerge, hclock⟩
  have ht : Inv convertRate mergeRate t := run_invariant (fun _ _ _ => inv_step hconvert hmerge) hrun hstart
  exact ⟨fun hlater hremove => rated_returns_iff hmerge.1 hmerge.2 ht.merge ht.clock hremove hlater,
    fun hlater hremove => rated_returns_iff hconvert.1 hconvert.2 ht.convert ht.clock hremove hlater⟩

/-- A rate of 50 for merges: the call for a token is never granted. -/
theorem tokens_come_iff_slow :
    ∃ g₀ g₁ g t r, create 0 = some g₀ ∧ g₀.setConvertRate 1000 = some g₁ ∧ g₁.setMergeRate 50 = some g ∧
      run step ⟨g, 0, [5, 30000000]⟩ [.disable, .enable, .removeConvertTokens] = some t ∧
      t.limits.mergeRateLimiter.removeTokens 1 t.now t.clock = some r ∧
      (r.granted = true ↔ (100 : Int) ≤ 50) := by
  refine ⟨_, _, _, _, _, rfl, rfl, rfl, rfl, rfl, ?_⟩
  exact (tokens_come_iff 0 1000 50 [5, 30000000] [.disable, .enable, .removeConvertTokens] _ _ _ _ _ rfl rfl rfl
    (by decide) (by decide) (by decide) rfl).1 ⟨30000000, List.mem_cons_self, by decide⟩ rfl

end GlobalLimits

end FawnKV.Silt
