/-!
# Writing floats in decimal

A float is written with the least number of digits that read back to it. All arithmetic is on natural
numbers, and so is that of the remainder, which is exact for the same reason.
-/

/-!
## The parts of a binary float

A finite float is `mantissa * 2 ^ exponent` with a sign. `magnitude` reads these parts off the
bits; the interval of reals that round to the float reaches halfway to its neighbours, and the
neighbour below a power of two is only half as far away.
-/

namespace Stencil.Decimal

/-- The magnitude `mantissa * 2 ^ exponent` and whether the gap below it is narrow. -/
structure Magnitude where
  mantissa : Nat
  exponent : Int
  narrow : Bool
  deriving DecidableEq, Repr

/-- The sign bit of a float, set also for the negative zero. -/
def isNegative (x : Float) : Bool := x.toBits >>> 63 == 1

/-- The magnitude of a finite float. -/
def magnitude (x : Float) : Magnitude :=
  let bits := x.toBits
  let fraction := (bits &&& 0xFFFFFFFFFFFFF).toNat
  let biased := ((bits >>> 52) &&& 0x7FF).toNat
  if biased == 0 then ⟨fraction, -1074, false⟩
  else ⟨fraction + Nat.pow 2 52, (biased : Int) - 1075, fraction == 0 && biased > 1⟩

/-!
## The remainder

Both numbers are multiples of one power of two, so their remainder is a remainder of integers and is
exact.
-/

/-- The magnitude of the remainder of two finite floats, the second not zero. -/
def finiteRemainder (x y : Float) : Float :=
  let a := magnitude x
  let b := magnitude y
  let low := min a.exponent b.exponent
  let r := (a.mantissa * Nat.pow 2 (a.exponent - low).toNat) %
    (b.mantissa * Nat.pow 2 (b.exponent - low).toNat)
  Float.scaleB (Float.ofNat r) low

/-- The remainder of floats; the quotient is cut toward zero, so the remainder has the sign of the
dividend. -/
def remainder (x y : Float) : Float :=
  if x.isNaN || y.isNaN || x.isInf || y == 0.0 then Float.ofBits 0x7FF8000000000000
  else if y.isInf then x
  else
    let r := finiteRemainder x y
    if isNegative x then -r else r

/-!
## The fewest digits that read back

A float is written with the least number of significant decimal digits that still round to it; of two
such decimals, with the nearer. All arithmetic is on natural numbers: the value, the ends of its
rounding interval and a decimal are compared by cross-multiplication.
-/

/-- The number `digits * 10 ^ exponent`. -/
structure Numeral where
  digits : Nat
  exponent : Int
  deriving DecidableEq, Repr

/-- A positive float over a common denominator, with the ends of the interval that rounds to it. -/
structure Interval where
  low : Nat
  value : Nat
  high : Nat
  denominator : Nat
  closed : Bool

/-- The rounding interval of a magnitude, in quarters of its last place. -/
def Magnitude.interval (m : Magnitude) : Interval :=
  let up := (m.exponent - 2).toNat
  let down := (2 - m.exponent).toNat
  let scale := Nat.pow 2 up
  let value := 4 * m.mantissa * scale
  ⟨value - (if m.narrow then scale else 2 * scale), value, value + 2 * scale, Nat.pow 2 down,
    m.mantissa % 2 == 0⟩

/-- The decimal lies in the interval. -/
def Interval.admits (i : Interval) (d : Numeral) : Bool :=
  let scaled := d.digits * Nat.pow 10 d.exponent.toNat * i.denominator
  let ten := Nat.pow 10 (-d.exponent).toNat
  if i.closed then i.low * ten ≤ scaled && scaled ≤ i.high * ten
  else i.low * ten < scaled && scaled < i.high * ten

/-- Whether the value is nearer to `d` than to the next decimal of the same exponent; half way it is
not. -/
def Interval.nearer (i : Interval) (d : Numeral) : Bool :=
  let ten := Nat.pow 10 (-d.exponent).toNat
  2 * i.value * ten < (2 * d.digits + 1) * Nat.pow 10 d.exponent.toNat * i.denominator

/-- The least `k` below `limit` with `num * 10 ^ k ≥ den`, counted from `k`. -/
def leadingZeros (num den : Nat) : Nat → Nat → Nat
  | 0, k => k
  | limit + 1, k => if num ≥ den then k else leadingZeros (num * 10) den limit (k + 1)

/-- The power of ten just above the value: the least `k` with `value < 10 ^ k`. -/
def Interval.scale (i : Interval) : Int :=
  let whole := i.value / i.denominator
  if whole > 0 then ((Nat.toDigits 10 whole).length : Int)
  else 1 - (leadingZeros i.value i.denominator 400 0 : Int)

/-- The decimal of exponent `e` that reads back, the nearer one if both neighbours do. -/
def Interval.onGrid (i : Interval) (e : Int) : Option Numeral :=
  let below := i.value * Nat.pow 10 (-e).toNat / (i.denominator * Nat.pow 10 e.toNat)
  let a : Numeral := ⟨below, e⟩
  let b : Numeral := ⟨below + 1, e⟩
  match i.admits a, i.admits b with
  | true, true => some (if i.nearer a then a else b)
  | true, false => some a
  | false, true => some b
  | false, false => none

/-- The decimal without the zeros at the end of its digits; a bound on the digits comes along. -/
def Numeral.strip : Nat → Numeral → Numeral
  | 0, d => d
  | limit + 1, d =>
    if d.digits > 0 && d.digits % 10 == 0 then strip limit ⟨d.digits / 10, d.exponent + 1⟩ else d

def Magnitude.shortest (m : Magnitude) : Numeral :=
  let i := m.interval
  let k := i.scale
  let found := (List.range 17).findSome? (fun n => i.onGrid (k - (n + 1 : Nat)))
  (found.getD (if m.exponent ≥ 0 then ⟨m.mantissa * Nat.pow 2 m.exponent.toNat, 0⟩
    else ⟨m.mantissa * Nat.pow 5 (-m.exponent).toNat, m.exponent⟩)).strip 400

/-!
## Laying out a decimal

A notation fixes where positional writing ends and how the exponent is written. The digits come from
the shortest decimal of the float.
-/

structure Notation where
  /-- Magnitudes from `10 ^ ceiling` on are written with an exponent. -/
  ceiling : Int
  /-- Whether a whole number keeps one zero after the point. -/
  keepPoint : Bool
  /-- What stands before an exponent. -/
  mark : String
  /-- The texts of the values that are not finite. -/
  notANumber : String
  infinity : String

def zeros (n : Nat) : List Char := List.replicate n '0'

/-- Digits with the point after the first `point` of them, filled up with zeros. -/
def positional (keepPoint : Bool) (digits : List Char) (point : Int) : List Char :=
  if point ≤ 0 then
    "0.".toList ++ zeros (-point).toNat ++ digits
  else
    let whole := digits.take point.toNat ++ zeros (point.toNat - digits.length)
    let fraction := digits.drop point.toNat
    if fraction.isEmpty then whole ++ (if keepPoint then ".0".toList else [])
    else whole ++ '.' :: fraction

/-- One digit before the point, the others after it, and the exponent. -/
def scientific (mark : String) (digits : List Char) (exponent : Int) : List Char :=
  let exponentText := (toString exponent).toList
  match digits with
  | [] => []
  | [d] => d :: (mark.toList ++ exponentText)
  | d :: ds => d :: '.' :: (ds ++ mark.toList ++ exponentText)

/-- The text of a float that is finite and not negative. -/
def Notation.finite (n : Notation) (x : Float) : List Char :=
  let m := magnitude x
  if m.mantissa == 0 then (if n.keepPoint then "0.0".toList else ['0'])
  else
    let d := m.shortest
    let digits := Nat.toDigits 10 d.digits
    let point := digits.length + d.exponent
    if point > n.ceiling then scientific n.mark digits (point - 1)
    else positional n.keepPoint digits point

def Notation.write (n : Notation) (x : Float) : String :=
  if x.isNaN then n.notANumber
  else
    let body := if x.isInf then n.infinity.toList else n.finite x
    String.ofList (if isNegative x then '-' :: body else body)

/-- Floats in templates: positional below `10 ^ 16`, always with a point, and beyond that with a
signed exponent. -/
def display : Notation := ⟨16, true, "e+", "nan", "inf"⟩

end Stencil.Decimal
