import CoreCommon.Fault
import CoreCommon.Words

/-! Numbers of any precision as 16-bit digits from the one at `2 ^ (16 * exponent)` down, in
complement form when negative. The `int` exponent is taken as unbounded. -/
namespace CoreCommon
open Words

structure Digital where
  negative : Bool
  exponent : ℤ
  digits : List UInt16
  deriving DecidableEq, Repr

namespace Digital

/-- The number represented. -/
def val (x : Digital) : ℚ :=
  ∑ i : Fin x.digits.length, (x.digits[i].toNat : ℚ) * 2 ^ (16 * (x.exponent - i)) -
    if x.negative then 2 ^ (16 * (x.exponent + 1)) else 0

/-! ### Construction -/

/-- What is left when leading digits `c` are skipped, but for the last digit. -/
def strip (c : UInt16) : List UInt16 → List UInt16
  | d :: d' :: l => if d = c then strip c (d' :: l) else d :: d' :: l
  | l => l

def trim (x : Digital) : Digital :=
  let front := strip (if x.negative then 65535 else 0) x.digits
  ⟨x.negative, x.exponent - (x.digits.length - front.length : ℕ), (strip 0 front.reverse).reverse⟩

/-- `Digital(uint64_t x, bool neg)`, which passes on `x < 0` in place of `neg`. -/
def ofUInt64 (x : UInt64) : Digital :=
  trim ⟨false, 3, [(x >>> 48).toUInt16, (x >>> 32).toUInt16, (x >>> 16).toUInt16, x.toUInt16]⟩

/-! ### Addition -/

/-- `digits.back()` of no digits is undefined. -/
def back (x : Digital) : Run UInt16 :=
  match x.digits.getLast? with
  | some d => .ok d
  | none => .error .undefined

/-- Digits on the left up to exponent `e`, a sign digit only if the last digit is not zero, and
on the right down to `end_`. -/
def pad (x : Digital) (e end_ : ℤ) : Run Digital := do
  let x ← if x.exponent < e then
      if x.negative then do
        let b ← x.back
        .ok { x with
          exponent := e
          digits := List.replicate (e - x.exponent).toNat (if 0 < b then 65535 else 0) ++ x.digits }
      else .ok { x with
        exponent := e, digits := List.replicate (e - x.exponent).toNat 0 ++ x.digits }
    else .ok x
  let otherOffset := (x.exponent - end_ + 1).toNat
  .ok { x with digits := x.digits ++ List.replicate (otherOffset - x.digits.length) 0 }

/-- The loop above a nonnegative operand. -/
def increment : Bool → Bool → List UInt16 → List UInt16 × Bool × Bool
  | carry, allZero, d :: ds =>
    if carry then
      let r := increment (d + 1 = 0) allZero ds
      ((d + 1) :: r.1, r.2)
    else (d :: ds, carry, allZero)
  | carry, allZero, [] => ([], carry, allZero)

/-- The loop above a negative operand, which takes one from every digit. -/
def decrement : Bool → Bool → List UInt16 → List UInt16 × Bool × Bool
  | carry, allZero, d :: ds =>
    let r := decrement (carry || d - 1 < 65535) (allZero && d - 1 = 0) ds
    ((d - 1) :: r.1, r.2)
  | carry, allZero, [] => ([], carry, allZero)

/-- The digits from the lowest place of the operand `other` up, with the carry out of them and
the flag `all_zero`. -/
def addDigits (otherNegative : Bool) :
    Bool → Bool → List UInt16 → List UInt16 → List UInt16 × Bool × Bool
  | carry, allZero, d :: ds, o :: other =>
    let d' := d + (o + carry.toUInt16)
    let r := addDigits otherNegative (if carry then d' ≤ o else d' < o) (allZero && d' = 0) ds other
    (d' :: r.1, r.2)
  | carry, allZero, ds, _ =>
    if otherNegative then decrement carry allZero ds else increment carry allZero ds

/-- What the signs and the carry out of the highest digit make of the sum. -/
def settle (x : Digital) (otherNegative carry allZero : Bool) : Digital :=
  if carry then
    if x.negative ≠ otherNegative then { x with negative := false }
    else if !x.negative then { x with exponent := x.exponent + 1, digits := 1 :: x.digits }
    else if allZero then { x with exponent := x.exponent + 1, digits := [65535] }
    else x
  else if otherNegative then
    if !x.negative then { x with negative := true }
    else { x with exponent := x.exponent + 1, digits := 65534 :: x.digits }
  else x

/-- `operator+`, on a copy. -/
def add (x other : Digital) : Run Digital := do
  let x ← x.pad other.exponent (other.exponent - other.digits.length + 1)
  let n := (x.exponent - other.exponent).toNat + other.digits.length
  let r := addDigits other.negative false true (x.digits.take n).reverse other.digits.reverse
  let sum : Digital := { x with digits := r.1.reverse ++ x.digits.drop n }
  .ok (sum.settle other.negative r.2.1 r.2.2).trim

/-! ### Negation -/

/-- From the lowest digit up: zeros stay, the first other digit is negated and turns the sign. -/
def negateLoop : Bool → Bool → List UInt16 → List UInt16 × Bool
  | carry, negative, d :: ds =>
    if carry && d ≠ 0 then
      let r := negateLoop false (!negative) ds
      ((-d) :: r.1, r.2)
    else
      let r := negateLoop carry negative ds
      ((if carry then d else ~~~d) :: r.1, r.2)
  | _, negative, [] => ([], negative)

def negate (x : Digital) : Digital :=
  let r := negateLoop true x.negative x.digits.reverse
  { x with negative := r.2, digits := r.1.reverse }

/-- `operator-`. -/
def sub (x other : Digital) : Run Digital := x.add other.negate

/-! ### Comparison -/

inductive CmpType
  | greater
  | geq
  | eq
  deriving DecidableEq, Repr

/-- The loop over the digits of two numbers with equally many. -/
def cmpDigits (negative : Bool) (t : CmpType) : List UInt16 → List UInt16 → Bool
  | a :: l, b :: m =>
    if b < a then t ≠ .eq && !negative
    else if a < b then t ≠ .eq && negative
    else cmpDigits negative t l m
  | _, _ => t = .geq || t = .eq

/-- The second test of the exponents is the first one again. -/
def cmp (x other : Digital) (t : CmpType) : Bool :=
  if x.negative ≠ other.negative then t ≠ .eq && other.negative
  else if x.exponent > other.exponent then t ≠ .eq && !x.negative
  else if other.exponent < x.exponent then t ≠ .eq && x.negative
  else if x.digits.length > other.digits.length then t ≠ .eq && !x.negative
  else if x.digits.length < other.digits.length then t ≠ .eq && x.negative
  else cmpDigits x.negative t x.digits other.digits

def gt (x other : Digital) : Bool := x.cmp other .greater
def ge (x other : Digital) : Bool := x.cmp other .geq
def lt (x other : Digital) : Bool := !x.cmp other .geq
def le (x other : Digital) : Bool := !x.cmp other .greater
def eq (x other : Digital) : Bool := x.cmp other .eq
def ne (x other : Digital) : Bool := !x.cmp other .eq

end Digital
end CoreCommon
