import Jade.Decimal.Shortest

/-!
# Decimals with a set number of digits

A binary fraction is written with a given number of digits after the point, or with a given number
of digits in all. The exact value is rounded once, and a tie goes to the even digit.
-/

namespace Jade.Fixed

def padDigits (width : Nat) (n : Nat) : List Char :=
  let ds := Shortest.digitChars n
  List.replicate (width - ds.length) '0' ++ ds

/-- A ratio with so many digits after the point. -/
def fixed (num den places : Nat) (point : Bool := false) : String :=
  let n := Binary64.roundDiv (num * Nat.pow 10 places) den
  let ds := padDigits (places + 1) n
  let whole := ds.take (ds.length - places)
  let rest := ds.drop (ds.length - places)
  String.ofList whole ++
    (if rest.isEmpty then (if point then "." else "") else "." ++ String.ofList rest)

/-- The digits of a ratio, so many in all, and the exponent of the first of them. -/
def significant (num den count : Nat) : List Char × Int :=
  if num = 0 then (List.replicate count '0', 0)
  else
    let k := Shortest.scale num den
    let e := k - count
    let n := if 0 ≤ e then Binary64.roundDiv num (den * Nat.pow 10 e.toNat)
      else Binary64.roundDiv (num * Nat.pow 10 (-e).toNat) den
    let ds := Shortest.digitChars n
    -- Rounding up may have given one digit more.
    if count < ds.length then (ds.take count, k) else (ds, k - 1)

/-- A ratio with one digit before the point, so many after it, and an exponent. -/
def exponential (num den places : Nat) (point : Bool := false) : String :=
  let (ds, e) := significant num den (places + 1)
  let rest := ds.drop 1
  String.ofList (ds.take 1) ++
    (if rest.isEmpty then (if point then "." else "") else "." ++ String.ofList rest) ++
    Shortest.exponentText e

def dropZeros (ds : List Char) : List Char := (ds.reverse.dropWhile (· == '0')).reverse

/-- A ratio with so many digits in all: with an exponent if it is below `-4` or not below the number
of digits. Zeros at the end are dropped unless they are asked for. -/
def general (num den digits : Nat) (keepZeros : Bool := false) : String :=
  let count := max digits 1
  let (ds, e) := significant num den count
  if e < -4 || count ≤ e then
    let rest := if keepZeros then ds.drop 1 else dropZeros (ds.drop 1)
    String.ofList (ds.take 1) ++ (if rest.isEmpty then "" else "." ++ String.ofList rest) ++
      Shortest.exponentText e
  else
    let places := (count - 1 - e).toNat
    let text := fixed num den places
    if keepZeros || places = 0 then text
    else
      let cs := dropZeros text.toList
      String.ofList (if cs.getLast? == some '.' then cs.dropLast else cs)

end Jade.Fixed
