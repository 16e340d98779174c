import Remudero.Cash.Allowance

/-! # The bill of a request

`openWeightUsageUsd` and `foundryClaudeUsageUsd` of `lib/worker-provider.ts`: the dollars of the measured
usage of one request, in exact rationals over the price tables.  A table row has a rate and may have a
second one for long contexts; the usage selects it by the prompt tokens that were billed, the reservation by
the bytes of the request, and each mixes its own input rates.

A row `Covers` its bills when no input rate of any tier is above the reservation's, in the same tier or in
the dearer one, and no output rate falls from the short to the long one.  Every row of the tables does
(`covers_priced`), so a reservation bounds the bill of its request (`reservation_bounds_bill`). -/

namespace Remudero.Cash

open Remudero.Lib

/-! ### Rates -/

/-- The rates of one tier. -/
structure OpenWeightRate where
  inputUsdPerMillion : ℚ
  outputUsdPerMillion : ℚ
  cachedInputUsdPerMillion : Option ℚ
  cacheWriteUsdPerMillion : Option ℚ
  reservationInputUsdPerMillion : Option ℚ

def LongContextPrice.rate (l : LongContextPrice) : OpenWeightRate :=
  ⟨l.inputUsdPerMillion, l.outputUsdPerMillion, l.cachedInputUsdPerMillion, l.cacheWriteUsdPerMillion,
    l.reservationInputUsdPerMillion⟩

namespace OpenWeightPrice

variable (price : OpenWeightPrice)

def rate : OpenWeightRate :=
  ⟨price.inputUsdPerMillion, price.outputUsdPerMillion, price.cachedInputUsdPerMillion, price.cacheWriteUsdPerMillion,
    price.reservationInputUsdPerMillion⟩

/-- `price.longContext && tokens > price.longContext.thresholdInputTokens ? price.longContext : price`. -/
def rateFor (tokens : ℤ) : OpenWeightRate :=
  match price.longContext with
  | some l => if l.thresholdInputTokens < tokens then l.rate else price.rate
  | none => price.rate

/-- What the reservation takes for an input token in a tier. -/
def reservationRate (rate : OpenWeightRate) : ℚ :=
  (rate.reservationInputUsdPerMillion.or price.reservationInputUsdPerMillion).getD rate.inputUsdPerMillion

end OpenWeightPrice

/-! ### Usage -/

/-- Dollars for the measured usage of one request; `promptTokens` has the cached and the written ones. -/
def openWeightUsageUsd (deployment : Text) (promptTokens completionTokens cacheReadTokens cacheCreationTokens : ℤ) :
    Except AllowanceError Usd := do
  match ← openWeightPriceFor deployment with
  | none => pure ⊤
  | some price =>
      let rate := price.rateFor promptTokens
      let cached := min promptTokens (max 0 cacheReadTokens)
      let written := min (promptTokens - cached) (max 0 cacheCreationTokens)
      pure (((promptTokens - cached - written : ℤ) * rate.inputUsdPerMillion +
        cached * rate.cachedInputUsdPerMillion.getD rate.inputUsdPerMillion +
        written * rate.cacheWriteUsdPerMillion.getD rate.inputUsdPerMillion +
        completionTokens * rate.outputUsdPerMillion) / 1000000 : ℚ)

def foundryClaudeCacheReadUsdPerMillion : List (Text × ℚ) :=
  [("claude-opus-5-5".toList, 2 / 10), ("claude-sonnet-5-5".toList, 1 / 10)]

structure FoundryClaudeUsage where
  inputTokens : ℕ
  outputTokens : ℕ
  cacheReadInputTokens : Option ℕ
  cacheCreationInputTokens : Option ℕ

/-- All the tokens of the prompt. -/
def FoundryClaudeUsage.promptTokens (usage : FoundryClaudeUsage) : ℕ :=
  usage.inputTokens + usage.cacheReadInputTokens.getD 0 + usage.cacheCreationInputTokens.getD 0

/-- The rate of a cache read of a Foundry Claude deployment. -/
def cacheReadRate (deployment : Text) (rate : OpenWeightRate) : ℚ :=
  (rate.cachedInputUsdPerMillion.or (foundryClaudeCacheReadUsdPerMillion.lookup deployment)).getD
    rate.inputUsdPerMillion

def foundryClaudeUsageUsd (deployment : Text) (usage : FoundryClaudeUsage) : Except AllowanceError Usd := do
  match ← openWeightPriceFor deployment with
  | none => pure ⊤
  | some price =>
      let rate := price.rateFor usage.promptTokens
      pure ((usage.inputTokens * rate.inputUsdPerMillion +
        usage.cacheReadInputTokens.getD 0 * cacheReadRate deployment rate +
        usage.cacheCreationInputTokens.getD 0 * rate.reservationInputUsdPerMillion.getD rate.inputUsdPerMillion +
        usage.outputTokens * rate.outputUsdPerMillion) / 1000000 : ℚ)

/-! ### Rows that cover their bills -/

/-- The input rates that a bill may use in a tier. -/
def inputRates (deployment : Text) (rate : OpenWeightRate) : List ℚ :=
  [rate.inputUsdPerMillion, rate.cachedInputUsdPerMillion.getD rate.inputUsdPerMillion,
    rate.cacheWriteUsdPerMillion.getD rate.inputUsdPerMillion, cacheReadRate deployment rate,
    rate.reservationInputUsdPerMillion.getD rate.inputUsdPerMillion]

/-- A bill at `low` is within a reservation at `high`. -/
def Within (deployment : Text) (price : OpenWeightPrice) (low high : OpenWeightRate) : Prop :=
  (∀ r ∈ inputRates deployment low, r ≤ price.reservationRate high) ∧
    low.outputUsdPerMillion ≤ high.outputUsdPerMillion ∧ 0 ≤ price.reservationRate high ∧ 0 ≤ low.outputUsdPerMillion

/-- The tiers of a row, each with itself and with the dearer one. -/
def Covers (deployment : Text) (price : OpenWeightPrice) : Prop :=
  Within deployment price price.rate price.rate ∧
    ∀ l ∈ price.longContext, Within deployment price l.rate l.rate ∧ Within deployment price price.rate l.rate

instance (deployment : Text) (price : OpenWeightPrice) (low high : OpenWeightRate) :
    Decidable (Within deployment price low high) := inferInstanceAs (Decidable (_ ∧ _))

instance (deployment : Text) (price : OpenWeightPrice) : Decidable (Covers deployment price) :=
  inferInstanceAs (Decidable (_ ∧ _))

theorem covers_tables : ∀ row ∈ openWeightPrices ++ foundryClaudePrices, Covers row.1 row.2 := by
  decide +kernel

theorem mem_of_lookup {α β : Type*} [BEq α] [LawfulBEq α] {a : α} {b : β} {l : List (α × β)}
    (h : l.lookup a = some b) : (a, b) ∈ l := by
  induction l with
  | nil => cases h
  | cons e l ih =>
      rw [List.lookup_cons] at h
      split at h
      · next heq =>
          cases h
          rw [eq_of_beq heq]
          exact List.mem_cons_self
      · exact List.mem_cons_of_mem _ (ih h)

theorem covers_priced {deployment : Text} {price : OpenWeightPrice}
    (h : openWeightPriceFor deployment = .ok (some price)) : Covers deployment price := by
  unfold openWeightPriceFor at h
  split at h
  · next found hfound =>
      cases h
      refine covers_tables (deployment, price) (List.mem_append.mpr ?_)
      split_ifs at hfound
      · exact .inr (mem_of_lookup hfound)
      · exact .inl (mem_of_lookup hfound)
  · split_ifs at h
    cases h

/-- More tokens are never in a cheaper tier. -/
theorem Covers.within {deployment : Text} {price : OpenWeightPrice} (h : Covers deployment price) {tokens ceiling : ℤ}
    (hle : tokens ≤ ceiling) : Within deployment price (price.rateFor tokens) (price.rateFor ceiling) := by
  unfold OpenWeightPrice.rateFor
  cases hlong : price.longContext with
  | none => exact h.1
  | some l =>
      obtain ⟨hlonger, hacross⟩ := h.2 l (by rw [hlong]; rfl)
      dsimp only
      split_ifs with htokens hceiling hceiling
      · exact hlonger
      · omega
      · exact hacross
      · exact h.1

/-- Tokens at rates of the low tier cost no more than as many at the reservation's. -/
theorem Within.bill_le {deployment : Text} {price : OpenWeightPrice} {low high : OpenWeightRate}
    (h : Within deployment price low high) {a b c d ceiling : ℤ} {x y z : ℚ} (hx : x ∈ inputRates deployment low)
    (hy : y ∈ inputRates deployment low) (hz : z ∈ inputRates deployment low) (ha : 0 ≤ a) (hb : 0 ≤ b) (hc : 0 ≤ c)
    (hd : 0 ≤ d) (hprompt : a + b + c ≤ ceiling) (hcompletion : (d : ℚ) ≤ maxCompletionTokens) :
    (a * x + b * y + c * z + d * low.outputUsdPerMillion) / 1000000 ≤
      (ceiling * price.reservationRate high + maxCompletionTokens * high.outputUsdPerMillion) / 1000000 := by
  obtain ⟨hinput, houtput, hreserve, hlow⟩ := h
  set rho := price.reservationRate high
  have hax : (a : ℚ) * x ≤ a * rho := mul_le_mul_of_nonneg_left (hinput x hx) (by exact_mod_cast ha)
  have hby : (b : ℚ) * y ≤ b * rho := mul_le_mul_of_nonneg_left (hinput y hy) (by exact_mod_cast hb)
  have hcz : (c : ℚ) * z ≤ c * rho := mul_le_mul_of_nonneg_left (hinput z hz) (by exact_mod_cast hc)
  have hsum : ((a : ℚ) + b + c) * rho ≤ ceiling * rho :=
    mul_le_mul_of_nonneg_right (by exact_mod_cast hprompt) hreserve
  have hout : (d : ℚ) * low.outputUsdPerMillion ≤ maxCompletionTokens * high.outputUsdPerMillion :=
    mul_le_mul hcompletion houtput hlow (le_trans (by exact_mod_cast hd) hcompletion)
  refine div_le_div_of_nonneg_right ?_ (by norm_num)
  calc (a : ℚ) * x + b * y + c * z + d * low.outputUsdPerMillion
      ≤ a * rho + b * rho + c * rho + maxCompletionTokens * high.outputUsdPerMillion :=
        add_le_add (add_le_add (add_le_add hax hby) hcz) hout
    _ = (a + b + c) * rho + maxCompletionTokens * high.outputUsdPerMillion := by ring
    _ ≤ ceiling * rho + maxCompletionTokens * high.outputUsdPerMillion := add_le_add hsum (le_refl _)

/-! ### The reservation -/

theorem openWeightReservationUsd_of_priced {deployment : Text} {price : OpenWeightPrice}
    (h : openWeightPriceFor deployment = .ok (some price)) (bytes : ℕ) (extra : ℤ) :
    let ceiling : ℤ := bytes + max 0 extra
    openWeightReservationUsd deployment bytes extra =
      .ok (((ceiling * price.reservationRate (price.rateFor ceiling) +
        maxCompletionTokens * (price.rateFor ceiling).outputUsdPerMillion) / 1000000 : ℚ) : Usd) := by
  intro ceiling
  have hceiling : (bytes : ℤ) + max 0 extra = ceiling := rfl
  unfold openWeightReservationUsd OpenWeightPrice.rateFor OpenWeightPrice.reservationRate
  rw [h, hceiling]
  show (match price.longContext.filter fun l => decide (l.thresholdInputTokens < ceiling) with
    | some rate => _
    | none => _) = _
  cases hlong : price.longContext with
  | none =>
      simp only [OpenWeightPrice.rate, Option.or_self]
      rfl
  | some l =>
      by_cases hthreshold : l.thresholdInputTokens < ceiling
      · simp only [Option.filter, hthreshold, if_true]
        rfl
      · simp only [Option.filter, hthreshold, if_false, OpenWeightPrice.rate, Option.or_self]
        rfl

/-- The reservation of a request bounds its bill, by either formula and whatever the split of its prompt. -/
theorem reservation_bounds_bill (deployment : Text) {price : OpenWeightPrice}
    (h : openWeightPriceFor deployment = .ok (some price)) (bytes : ℕ) (extra : ℤ) :
    ∃ reserved : ℚ, openWeightReservationUsd deployment bytes extra = .ok (reserved : Usd) ∧
      (∀ promptTokens completionTokens cacheReadTokens cacheCreationTokens : ℕ,
        (promptTokens : ℤ) ≤ bytes + extra → (completionTokens : ℚ) ≤ maxCompletionTokens →
        ∃ usd : ℚ, openWeightUsageUsd deployment promptTokens completionTokens cacheReadTokens cacheCreationTokens =
          .ok (usd : Usd) ∧ usd ≤ reserved) ∧
      ∀ usage : FoundryClaudeUsage, (usage.promptTokens : ℤ) ≤ bytes + extra →
        (usage.outputTokens : ℚ) ≤ maxCompletionTokens →
        ∃ usd : ℚ, foundryClaudeUsageUsd deployment usage = .ok (usd : Usd) ∧ usd ≤ reserved := by
  have hcovers := covers_priced h
  refine ⟨_, openWeightReservationUsd_of_priced h bytes extra, ?_, ?_⟩
  · intro prompt completion read created hprompt hcompletion
    refine ⟨_, by rw [openWeightUsageUsd, h]; rfl, ?_⟩
    have hceiling : (prompt : ℤ) ≤ bytes + max 0 extra := by omega
    refine (hcovers.within hceiling).bill_le ?_ ?_ ?_ ?_ ?_ ?_ ?_ ?_ ?_
    · simp [inputRates]
    · simp [inputRates]
    · simp [inputRates]
    · omega
    · omega
    · omega
    · omega
    · omega
    · exact_mod_cast hcompletion
  · intro usage hprompt hcompletion
    have hceiling : (usage.promptTokens : ℤ) ≤ bytes + max 0 extra := by omega
    have hbill := (hcovers.within hceiling).bill_le (a := usage.inputTokens) (b := usage.cacheReadInputTokens.getD 0)
      (c := usage.cacheCreationInputTokens.getD 0) (d := usage.outputTokens)
      (x := (price.rateFor usage.promptTokens).inputUsdPerMillion)
      (y := cacheReadRate deployment (price.rateFor usage.promptTokens))
      (z := (price.rateFor usage.promptTokens).reservationInputUsdPerMillion.getD
        (price.rateFor usage.promptTokens).inputUsdPerMillion)
      (by simp [inputRates]) (by simp [inputRates]) (by simp [inputRates]) (Int.natCast_nonneg _)
      (Int.natCast_nonneg _) (Int.natCast_nonneg _) (Int.natCast_nonneg _)
      (by simpa [FoundryClaudeUsage.promptTokens] using hceiling) (by exact_mod_cast hcompletion)
    refine ⟨_, by rw [foundryClaudeUsageUsd, h]; rfl, ?_⟩
    exact_mod_cast hbill

/-- A long request to a deployment with a long-context tier. -/
theorem reservation_bounds_bill_long :
    ∃ reserved : ℚ, openWeightReservationUsd "gpt-6.1-sol".toList 300000 0 = .ok (reserved : Usd) ∧
      ∃ usd : ℚ, openWeightUsageUsd "gpt-6.1-sol".toList 272001 8000 1000 2000 = .ok (usd : Usd) ∧ usd ≤ reserved := by
  have hprice : openWeightPriceFor "gpt-6.1-sol".toList = .ok (some ⟨2, 10, some (1 / 10), some (5 / 2), some (5 / 2),
      some ⟨272000, 4, 15, some (2 / 10), some 5, some 5⟩⟩) := rfl
  obtain ⟨reserved, hreserved, husage, -⟩ := reservation_bounds_bill "gpt-6.1-sol".toList hprice 300000 0
  exact ⟨reserved, hreserved, husage 272001 8000 1000 2000 (by norm_num) (by norm_num [maxCompletionTokens])⟩

end Remudero.Cash
