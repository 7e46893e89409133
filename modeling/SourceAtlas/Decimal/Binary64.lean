/-!
# Finite binary fractions of double precision

A double is a sign, a whole number below `2 ^ 53` and a power of two that is at
least `2 ^ (-1074)`. Everything is computed on whole numbers: `ofRatio?` takes the
double nearest to a ratio, with ties to the even side, and products and quotients
are rounded ratios.

A decimal is read in two roundings: the digits first, then one product or
quotient with a power of ten. Both steps are exact for short decimals with small
exponents, so those are read to the nearest double.
-/

namespace SourceAtlas

/-- A finite double: `mantissa * 2 ^ exponent`, with its sign. -/
structure Binary64 where
  negative : Bool
  mantissa : Nat
  exponent : Int
  deriving DecidableEq, Inhabited, Repr

namespace Binary64

def minExponent : Int := -1074

def maxExponent : Int := 971

/-- The whole number nearest to a ratio; a half goes to the even neighbour. -/
def roundRatio (num den : Nat) : Nat :=
  let q := num / den
  let r := num % den
  if 2 * r < den then q
  else if den < 2 * r then q + 1
  else if q % 2 = 0 then q else q + 1

/-- The ratio `num / den / 2 ^ e`, as numerator and denominator. -/
def scaleDown (num den : Nat) (e : Int) : Nat × Nat :=
  if 0 ≤ e then (num, den * Nat.pow 2 e.toNat) else (num * Nat.pow 2 (-e).toNat, den)

/-- The double without sign nearest to a ratio, as mantissa and exponent; `none`
when it would be greater than every double. -/
def nearest? (num den : Nat) : Option (Nat × Int) :=
  if num = 0 then some (0, minExponent)
  else
    let guess : Int := (Nat.log2 num : Int) - (Nat.log2 den : Int) - 53
    let low := max guess minExponent
    let (n, d) := scaleDown num den low
    let e := if n / d < Nat.pow 2 53 then low else low + 1
    let (n, d) := scaleDown num den e
    let m := roundRatio n d
    let (m, e) := if m = Nat.pow 2 53 then (Nat.pow 2 52, e + 1) else (m, e)
    if maxExponent < e then none else some (m, e)

def ofRatio? (negative : Bool) (num den : Nat) : Option Binary64 :=
  (nearest? num den).map fun (m, e) => ⟨negative, m, e⟩

def zero (negative : Bool) : Binary64 := ⟨negative, 0, minExponent⟩

def isZero (x : Binary64) : Bool := x.mantissa == 0

def ratio (x : Binary64) : Nat × Nat :=
  scaleDown x.mantissa 1 (-x.exponent)

/-- The rounded product; `none` when it is too great. -/
def mul? (x y : Binary64) : Option Binary64 :=
  let (a, b) := x.ratio
  let (c, d) := y.ratio
  ofRatio? (x.negative != y.negative) (a * c) (b * d)

/-- The rounded quotient by a double that is not zero; `none` when it is too
great. -/
def div? (x y : Binary64) : Option Binary64 :=
  let (a, b) := x.ratio
  let (c, d) := y.ratio
  ofRatio? (x.negative != y.negative) (a * d) (b * c)

/-- The greatest power of ten that is a double is `10 ^ 308`. -/
def maxPower : Nat := 308

/-- The double nearest to a power of ten up to `10 ^ 308`. -/
def power? (k : Nat) : Option Binary64 :=
  ofRatio? false (Nat.pow 10 k) 1

/-- A double divided by `10 ^ k`, by `10 ^ 308` at a time. -/
def divPower? (x : Binary64) (k : Nat) : Option Binary64 :=
  if _h : k ≤ maxPower then (power? k).bind x.div?
  else if x.isZero then some x
  else ((power? maxPower).bind x.div?).bind fun y => y.divPower? (k - maxPower)
termination_by k
decreasing_by
  have : 0 < maxPower := by decide
  omega

/-- The double read for `digits * 10 ^ e`; `none` when it is too great. -/
def ofDecimal? (negative : Bool) (digits : Nat) (e : Int) : Option Binary64 :=
  (ofRatio? negative digits 1).bind fun x =>
    if e < 0 then x.divPower? (-e).toNat
    else if x.isZero then some x
    else if (maxPower : Int) < e then none
    else (power? e.toNat).bind x.mul?

end Binary64

end SourceAtlas
