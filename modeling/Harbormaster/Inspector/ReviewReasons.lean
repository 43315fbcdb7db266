import Harbormaster.Inspector.Dispatch
import Harbormaster.Inspector.SurplusPrices

/-! # Reasons for a review

The reasons and the score of an arrival are computed apart. Evidence that raises no
question by itself may still fall short of a dispatch together, and then nothing
is said about why the arrival is held.
-/

namespace Harbormaster.Inspector

open Ordered Rounding

variable (runtime : Runtime) (arithmetic : Arithmetic) {thresholds : Thresholds}
variable {attribution : Attribution} {valueDate : Resolution} {mappings : List Mapping}
variable {domain : Domain}

section Evidence

variable (client date coverage : ℚ)

/-- Client, date and columns in their weights, in units of the fourth decimal. -/
def evidence : ℚ :=
  10 ^ 4 * (weightClient * client + weightValueDate * date + weightMapping * coverage)

/-- A number of thousandths, or of other parts of one. -/
def Part (parts : Nat) (value : ℚ) : Prop := ∃ n : Nat, n ≤ parts ∧ value = n / parts

variable {client date coverage}

-- at a half the doubles fall short
example : evidence (99 / 100) (70 / 100) (8615 / 10000) = 8500 - 1 / 2 ∧
    roundHalfEven (weighted .double (double (99 / 100)) (double (70 / 100))
      (double (8615 / 10000)) * 10 ^ 4) = 8499 := by
  decide +kernel

end Evidence

/-! ## What the stages produce -/

end Harbormaster.Inspector
