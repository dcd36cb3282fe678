/-!
# Reading decimals

The float nearest to a decimal. A decimal that is far outside the range of floats is settled before
any power of ten is computed.
-/
namespace Stencil.Decimal

/-- The value of a list of decimal digits. -/
def natOfDigits (cs : List Char) : Nat := cs.foldl (fun n c => 10 * n + (c.toNat - 48)) 0

/-- The float nearest to `digits * 10 ^ exponent`. -/
def toFloat (digits : Nat) (exponent : Int) : Float :=
  if digits = 0 then 0.0
  else
    let size := ((Nat.toDigits 10 digits).length : Int) + exponent
    if size > 400 then Float.ofBits 0x7FF0000000000000
    else if size < -400 then 0.0
    else if exponent < 0 then Float.ofScientific digits true (-exponent).toNat
    else Float.ofScientific digits false exponent.toNat

/-- The exponent part of a number: a mark, perhaps a sign, and digits to the end. -/
def readExponent (cs : List Char) : Option Int :=
  let (negative, digits) := match cs with
    | '-' :: ds => (true, ds)
    | '+' :: ds => (false, ds)
    | ds => (false, ds)
  if digits.isEmpty || !digits.all Char.isDigit then none
  else
    let n : Int := natOfDigits digits
    some (if negative then -n else n)

/-- The float of an unsigned decimal: digits with perhaps a point, at least one digit in all, then
perhaps an exponent. -/
def readUnsigned (cs : List Char) : Option Float :=
  let whole := cs.takeWhile Char.isDigit
  let rest := cs.dropWhile Char.isDigit
  let fraction := match rest with
    | '.' :: ds => ds.takeWhile Char.isDigit
    | _ => []
  let rest := match rest with
    | '.' :: ds => ds.dropWhile Char.isDigit
    | ds => ds
  if whole.isEmpty && fraction.isEmpty then none
  else
    let exponent := match rest with
      | [] => some 0
      | 'e' :: ds => readExponent ds
      | 'E' :: ds => readExponent ds
      | _ => none
    exponent.map (fun e => toFloat (natOfDigits (whole ++ fraction)) (e - fraction.length))

/-- The float of a text: a decimal with perhaps a sign, or one of the names of the values that are
not finite, in any case. -/
def read (cs : List Char) : Option Float :=
  let (negative, body) := match cs with
    | '-' :: ds => (true, ds)
    | '+' :: ds => (false, ds)
    | ds => (false, ds)
  let name := String.ofList (body.map Char.toLower)
  let value :=
    if name = "inf" ∨ name = "infinity" then some (Float.ofBits 0x7FF0000000000000)
    else if name = "nan" then some (Float.ofBits 0x7FF8000000000000)
    else readUnsigned body
  value.map (fun x => if negative then -x else x)

end Stencil.Decimal
