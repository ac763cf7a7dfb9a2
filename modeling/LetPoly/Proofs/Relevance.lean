import LetPoly.Proofs.Replacement
import LetPoly.Proofs.Simulation

/-!
# Only the bindings that an expression uses matter

Two closed environments may bind the names of an expression to schemes that differ in the names and the
order of quantified variables, and in quantified variables that their bodies do not mention. They may
bind all other names to anything, and so set the counter of a run to different numbers. None of this
shows in the result of inference but for the names of type variables, which are not shown either:
letters are given out in the order of appearance.
-/

namespace LetPoly

end LetPoly
