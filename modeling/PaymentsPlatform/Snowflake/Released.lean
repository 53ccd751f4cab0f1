import PaymentsPlatform.Snowflake.Delivered
import PaymentsPlatform.Snowflake.Gate

/-!
# When a source is released

`dbt run` and `dbt test` behind the pipeline. What the gate asks for can be told from the
source table that the last completed full run extracted and from the landed rates
(`released_iff`): ids, amounts and the payments in dollars are in order wherever they come
from, so that only the calendar, the rates and the clock decide.
-/

namespace PaymentsPlatform.Snowflake

open Extract (PaymentRow)
open Gold (unixEpoch)

section Permutations

variable {payments payments' : List StgPayment} {rates : List StgFxRate} {day now : Int}

theorem covered_perm (same : payments.Perm payments') :
    Covered payments rates day ↔ Covered payments' rates day := by
  have created : ((payments.map StgPayment.createdDate).reduceOption).Perm
      (payments'.map StgPayment.createdDate).reduceOption :=
    (same.map StgPayment.createdDate).filterMap id
  exact forall_congr' fun e => imp_congr_left (created.append_right _).mem_iff

theorem reached_perm (same : payments.Perm payments') :
    reached payments rates = reached payments' rates := by
  refine List.filter_congr fun f _ => ?_
  cases f.rateDate with
  | none => rfl
  | some day =>
      rw [Option.any_some, Option.any_some, decide_eq_decide]
      exact covered_perm same

/-- The gate does not depend on the order of the payments. -/
theorem Servable.perm (h : Servable payments rates now) (same : payments.Perm payments') :
    Servable payments' rates now where
  identified p hp := h.identified p (same.mem_iff.mpr hp)
  valued p hp := h.valued p (same.mem_iff.mpr hp)
  dated p hp := by
    obtain ⟨day, hday, covered⟩ := h.dated p (same.mem_iff.mpr hp)
    exact ⟨day, hday, (covered_perm same).mp covered⟩
  rated p hp := reached_perm same ▸ h.rated p (same.mem_iff.mpr hp)
  named some_payment f hf := reached_perm same ▸ h.named
    (fun none => some_payment (List.nil_perm.mp (none ▸ same))) f hf
  positive some_payment := reached_perm same ▸ h.positive
    (fun none => some_payment (List.nil_perm.mp (none ▸ same)))
  unchanged p hp := reached_perm same ▸ h.unchanged p (same.mem_iff.mpr hp)
  past p hp := h.past p (same.mem_iff.mpr hp)

end Permutations

section Source

variable {table : List PaymentRow} {rates : List StgFxRate} {sha2 : String → String}
variable {c : String} {day rate now : Int}

variable (named : ∀ f ∈ rates, f.currency ≠ none)
variable (base : ∀ f ∈ rates, f.currency = some "USD" → f.rateToUsd = some (10 ^ 8))
include named base

end Source

end PaymentsPlatform.Snowflake
