import SourceAtlas.Decimal.Binary64
/-!
# The shortest decimal of a double

A double stands for all decimals that are nearer to it than to its neighbours,
those half-way between included when its mantissa is even. `shortest` looks for
the least number of digits with which one of them can be written and takes the
one nearest to the double.

`render` then decides how the digits are written: positionally, always with a
point, from `10 ^ (-5)` up to below `10 ^ 16`, and with an exponent outside.
-/

namespace SourceAtlas

namespace Binary64

/-- The decimals that stand for a double, as bounds over a common denominator:
the least, the value itself, the greatest, the denominator, and whether the
bounds themselves stand for it. -/
structure Interval where
  low : Nat
  value : Nat
  high : Nat
  den : Nat
  closed : Bool

def interval (x : Binary64) : Interval :=
  let m := x.mantissa
  let below := if m = Nat.pow 2 52 ∧ minExponent < x.exponent then 4 * m - 1 else 4 * m - 2
  let unit := scaleDown 1 1 (2 - x.exponent)
  ⟨below * unit.1, 4 * m * unit.1, (4 * m + 2) * unit.1, unit.2, m % 2 == 0⟩

/-- Whether `num / den` stands for the double. -/
def Interval.holds (i : Interval) (num den : Nat) : Bool :=
  let low := i.low * den
  let high := i.high * den
  let here := num * i.den
  if i.closed then low ≤ here && here ≤ high else low < here && here < high

/-- The decimal exponent `k` of a positive ratio, with `10 ^ (k - 1) ≤ num / den`
and `num / den < 10 ^ k`. -/
def decimalExponent (num den : Nat) : Int :=
  let shift : Nat := 400
  ((Nat.toDigits 10 (num * Nat.pow 10 shift / den)).length : Int) - shift

/-- The decimals with `10 ^ e` as the weight of their last digit that are next to
the double and stand for it, the nearest of them. -/
def onGrid? (i : Interval) (e : Int) : Option Nat :=
  let (weightNum, weightDen) := if 0 ≤ e then (Nat.pow 10 e.toNat, 1) else (1, Nat.pow 10 (-e).toNat)
  let lower := i.value * weightDen / (i.den * weightNum)
  let fits (n : Nat) : Bool := i.holds (n * weightNum) weightDen
  let twice := 2 * i.value * weightDen
  let middle := (2 * lower + 1) * (i.den * weightNum)
  match fits lower, fits (lower + 1) with
  | true, true =>
      if twice < middle then some lower
      else if middle < twice then some (lower + 1)
      else if lower % 2 = 0 then some lower else some (lower + 1)
  | true, false => some lower
  | false, true => some (lower + 1)
  | false, false => none

/-- The digits and the exponent of the shortest decimal `digits * 10 ^ exponent`
that stands for a double other than zero. -/
def shortest (x : Binary64) : Nat × Int :=
  let i := x.interval
  let k := decimalExponent i.value i.den
  let found := (List.range 17).findSome? fun n =>
    let e := k - (n + 1 : Nat)
    (onGrid? i e).map fun digits => (digits, e)
  found.getD (0, 0)

/-- The digits without the zeros they end with, and the exponent they then
have. -/
def dropZeros : List Char → Int → List Char × Int
  | '0' :: digits, e => dropZeros digits (e + 1)
  | digits, e => (digits, e)

/-- How digits with the decimal point after the first `point` of them are
written. -/
def place (digits : List Char) (point : Int) : List Char :=
  let count : Int := digits.length
  if point ≤ -5 ∨ 16 < point then
    let power := point - 1
    let sign := if power < 0 then '-' else '+'
    let head := match digits with
      | [] => []
      | [d] => [d]
      | d :: rest => d :: '.' :: rest
    head ++ ['e', sign] ++ Nat.toDigits 10 power.natAbs
  else if point ≤ 0 then
    ['0', '.'] ++ List.replicate (-point).toNat '0' ++ digits
  else if count ≤ point then
    digits ++ List.replicate (point - count).toNat '0' ++ ['.', '0']
  else
    digits.take point.toNat ++ ['.'] ++ digits.drop point.toNat

def render (x : Binary64) : String :=
  let sign := if x.negative then ['-'] else []
  if x.isZero then String.ofList (sign ++ ['0', '.', '0'])
  else
    let (n, e) := x.shortest
    let (reversed, e) := dropZeros (Nat.toDigits 10 n).reverse e
    let digits := reversed.reverse
    String.ofList (sign ++ place digits (digits.length + e))

theorem place_ne_nil (digits : List Char) (point : Int) : place digits point ≠ [] := by
  unfold place
  dsimp only
  split
  · simp
  · split
    · simp
    · split <;> simp

/-- Every double is written with some character. -/
theorem toList_render_ne_nil (x : Binary64) : x.render.toList ≠ [] := by
  unfold render
  generalize x.shortest = found
  obtain ⟨n, e⟩ := found
  dsimp only
  generalize dropZeros (Nat.toDigits 10 n).reverse e = dropped
  obtain ⟨reversed, e'⟩ := dropped
  dsimp only
  split
  · rw [String.toList_ofList]
    exact List.append_ne_nil_of_right_ne_nil _ (List.cons_ne_nil _ _)
  · rw [String.toList_ofList]
    exact List.append_ne_nil_of_right_ne_nil _ (place_ne_nil _ _)

end Binary64

end SourceAtlas
