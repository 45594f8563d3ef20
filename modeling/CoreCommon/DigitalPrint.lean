import CoreCommon.DigitalExpr
import CoreCommon.DigitalRemainder
import CoreCommon.NumberText

/-! Printing a `Digital`: tens are divided off the whole part, and multiplied into what is behind
the point. An integer is printed as its numeral when every division by ten guesses well. -/
namespace CoreCommon.Digital
open NumberText Words

/-! ### Printing -/

/-- `digits.front()` -/
def front (x : Digital) : Except DivFault UInt16 :=
  match x.digits with
  | [] => .error (.fault .undefined)
  | d :: _ => .ok d

section remainder
variable {y : Digital} {s t : DivisionResult} {l : Option UInt16} {round last : Bool} {e : ℤ}

end remainder

/-! ### Division by ten -/

section ten
variable {x r : Digital} {n : ℕ}

end ten

/-! ### Numerals -/

section numeral
variable {x : Digital} {fuel : ℕ}

end numeral

end CoreCommon.Digital
