import Legroom.Lib.Python.Money

/-!
# Prices of tokens

What a request saved or cost, at the prices of its model.  The prices are those of the
LiteLLM package, which is a parameter; without it, and for a model that it does not price,
there is one price for all models.
-/

namespace Legroom.SavingsTracker

open Python

/-- The prices of a model, as far as they are known. -/
structure ModelCost where
  inputCostPerToken : Option ℚ≥0
  outputCostPerToken : Option ℚ≥0
  cacheReadInputTokenCost : Option ℚ≥0
  cacheCreationInputTokenCost : Option ℚ≥0

structure Litellm where
  /-- `cost_per_token` does not raise. -/
  prices : Text → Bool
  /-- `model_cost.get(model, {})` -/
  modelCost : Text → ModelCost

def fallbackInputCostPerToken : ℚ≥0 := 3 / 1000000
def fallbackOutputCostPerToken : ℚ≥0 := 15 / 1000000

def prefixes : List (Text × Text) :=
  [("claude-", "anthropic/"), ("gpt-", "openai/"), ("o1-", "openai/"), ("o3-", "openai/"),
    ("o4-", "openai/"), ("gemini-", "google/")].map fun entry => (text entry.1, text entry.2)

/-- The name under which the model is priced. -/
def resolveLitellmModel (litellm : Litellm) (model : Text) : Text :=
  if litellm.prices model then model
  else
    match prefixes.find? fun entry => entry.1.isPrefixOf model with
    | some entry => if litellm.prices (entry.2 ++ model) then entry.2 ++ model else model
    | none => model

section

variable (litellm : Option Litellm)

def modelCostOf (litellm : Litellm) (model : Text) : ModelCost :=
  litellm.modelCost (resolveLitellmModel litellm model)

/-- Tokens at one price of the model, or at the price for all models. -/
def priced (price : ModelCost → Option ℚ≥0) (fallback : ℚ≥0) (model : Text) (tokens : ℕ) : ℚ≥0 :=
  if tokens = 0 then 0
  else tokens * ((litellm.bind fun litellm => price (modelCostOf litellm model)).getD fallback)

def estimateCompressionSavingsUsd (model : Text) (tokensSaved : ℕ) : ℚ≥0 :=
  priced litellm ModelCost.inputCostPerToken fallbackInputCostPerToken model tokensSaved

def estimateOutputSavingsUsd (model : Text) (tokensSaved : ℕ) : ℚ≥0 :=
  priced litellm ModelCost.outputCostPerToken fallbackOutputCostPerToken model tokensSaved

/-- The discount on tokens that are read from the cache. -/
def estimateCacheSavingsUsd (model : Text) (cacheReadTokens : ℕ) : ℚ≥0 :=
  if cacheReadTokens = 0 then 0
  else
    match litellm with
    | none => cacheReadTokens * fallbackInputCostPerToken
    | some litellm =>
        let info := modelCostOf litellm model
        match info.inputCostPerToken with
        | none => 0
        | some price => cacheReadTokens * (price - info.cacheReadInputTokenCost.getD price)

/-- The segments are charged where there are any, and else the input as a whole. -/
def estimateInputCostUsd (model : Text) (inputTokens cacheRead cacheWrite uncached : ℕ) : ℚ≥0 :=
  let useBreakdown := 0 < cacheRead + cacheWrite + uncached
  let chargeable := if useBreakdown then cacheRead + cacheWrite + uncached else inputTokens
  if chargeable = 0 then 0
  else
    match litellm with
    | none => chargeable * fallbackInputCostPerToken
    | some litellm =>
        let info := modelCostOf litellm model
        match info.inputCostPerToken with
        | none => chargeable * fallbackInputCostPerToken
        | some price =>
            if useBreakdown then
              cacheRead * info.cacheReadInputTokenCost.getD price +
                cacheWrite * info.cacheCreationInputTokenCost.getD price + uncached * price
            else inputTokens * price

theorem priced_zero (price : ModelCost → Option ℚ≥0) (fallback : ℚ≥0) (model : Text) :
    priced litellm price fallback model 0 = 0 := by
  rw [priced, if_pos rfl]

end

end Legroom.SavingsTracker
