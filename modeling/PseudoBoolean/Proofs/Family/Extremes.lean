import PseudoBoolean.Proofs.Family.Drawn
import PseudoBoolean.Proofs.Family.Uniform
import PseudoBoolean.Proofs.Linear.Extremes

/-!
The degrees that a random family draws.

With distinct variables the left-hand side takes every subset sum of the coefficients, so its least
value is the sum of the negative ones and its greatest the sum of the positive ones. The degree is
drawn from these bounds and one further on either side:

    low - 1     low    ...    high     high + 1

So a normalized main constraint is seen to be infeasible just at the ends, at the lower one only if
it is an equality (`Instance.IsWithin.isTriviallyUnsat`).
-/

namespace PseudoBoolean

open Family (lowest highest IsRandom Drawable)

/-! ### Subset sums -/

namespace Family
variable (c : Int64) (rest : List Int64)

end Family

namespace SubsetSum

end SubsetSum

/-! ### Left-hand sides -/

namespace Instance
variable {i : Instance} (hr : ∀ x ∈ i.vars, x.InRange) (hdup : i.vars.Nodup)
include hr hdup

end Instance

namespace Family
variable {label family : String} {magnitude : Int64} {i : Instance} {n : UInt32}

end Family

end PseudoBoolean
