import Mathlib

/-!
# Subtraction of doubles

A double less another one is the double plus the negation of the other, also for infinities,
signed zeros and what is not a number. A negation changes nothing but the sign bit, so nothing
is rounded, and from there on the sum and the difference are computed alike.
-/

namespace Formula.Double

open Float.Model.UnpackedFloat
open Float.Model (Format UnpackedFloat)

-- ---------------------------------------------------------------------------
-- Unpacked doubles
-- ---------------------------------------------------------------------------

end Formula.Double
