import Jade.Decimal.Binary

/-!
# Shortest decimals

A binary fraction is written with the fewest digits that read back as the same word, and among those
with the digits nearest to it. The numbers that read back as a word lie between the halves of the
ways to its neighbours; the ends belong to it if its significand is even.
-/

namespace Jade

namespace Shortest

def digitChars (n : Nat) : List Char := (toString n).toList

/-- The numbers that read back as a word, as numerators over one denominator. -/
structure Interval where
  /-- Half of the way to the next smaller word. -/
  low : Nat
  /-- The number itself. -/
  value : Nat
  /-- Half of the way to the next larger word. -/
  high : Nat
  /-- The denominator. -/
  den : Nat
  /-- Whether the ends read back too. -/
  closed : Bool
  deriving Repr

/-- The interval of the word `m * 2 ^ q`. Below a power of two the gap is half as wide. -/
def Interval.of (m : Nat) (q : Int) : Interval :=
  let narrow := m == Nat.pow 2 52 && q != -1074
  let unit := if 0 ≤ q - 2 then Nat.pow 2 (q - 2).toNat else 1
  let den := if 0 ≤ q - 2 then 1 else Nat.pow 2 (2 - q).toNat
  { low := (if narrow then 4 * m - 1 else 4 * m - 2) * unit
    value := 4 * m * unit
    high := (4 * m + 2) * unit
    den
    closed := m % 2 == 0 }

/-- Whether the ratio `num / den` reads back. -/
def Interval.contains (i : Interval) (num den : Nat) : Bool :=
  let x := num * i.den
  if i.closed then i.low * den ≤ x && x ≤ i.high * den
  else i.low * den < x && x < i.high * den

/-- The least `k` with `num / den < 10 ^ k`, for a positive ratio. -/
def scale (num den : Nat) : Int :=
  if den ≤ num then (digitChars (num / den)).length
  else
    -- The inverse of the ratio, rounded up, has the number of zeros after the point.
    1 - (digitChars ((den + num - 1) / num - 1)).length

/-- The candidate with `n` digits, if one reads back: the nearer neighbour on the grid of that many
digits. -/
def candidate? (i : Interval) (k : Int) (n : Nat) : Option Nat :=
  let e := k - n
  -- The grid as a ratio.
  let up := if 0 ≤ e then Nat.pow 10 e.toNat else 1
  let down := if 0 ≤ e then 1 else Nat.pow 10 (-e).toNat
  let num := i.value * down
  let den := i.den * up
  let below := num / den
  let above := below + 1
  let belowFits := i.contains (below * up) down
  let aboveFits := i.contains (above * up) down
  match belowFits, aboveFits with
  | false, false => none
  | true, false => some below
  | false, true => some above
  | true, true => some (Binary64.roundDiv num den)

/-- The first candidate from `n` digits on, with the power of ten that it counts. Seventeen digits
always read back; a search that ends without a candidate gives the value cut at its last grid. -/
def search (i : Interval) (k : Int) : Nat → Nat → Nat × Int
  | 0, n => (i.value * Nat.pow 10 n / i.den, -n)
  | fuel + 1, n =>
    match candidate? i k n with
    | some found => (found, k - n)
    | none => search i k fuel (n + 1)

/-- The digits of the positive word `m * 2 ^ q` without zeros at the end, and the place of the
point, counted from before the first digit. -/
def digits (m : Nat) (q : Int) : List Char × Int :=
  let i := Interval.of m q
  let (found, e) := search i (scale i.value i.den) 17 1
  let all := digitChars found
  ((all.reverse.dropWhile (· == '0')).reverse, all.length + e)

/-- An exponent of at least two digits with its sign. -/
def exponentText (e : Int) : String :=
  let n := toString e.natAbs
  (if e < 0 then "e-" else "e+") ++ (if n.length < 2 then "0" ++ n else n)

/-- Digits with a point at a place, and one more zero after the point if nothing stands there. -/
def positional (ds : List Char) (place : Int) : String :=
  if place ≤ 0 then "0." ++ String.ofList (List.replicate (-place).toNat '0' ++ ds)
  else
    let n := place.toNat
    let before := ds.take n ++ List.replicate (n - ds.length) '0'
    let after := ds.drop n
    String.ofList before ++ "." ++ (if after.isEmpty then "0" else String.ofList after)

/-- Digits with a point after the first and an exponent. -/
def scientific (ds : List Char) (place : Int) : String :=
  let after := ds.drop 1
  String.ofList (ds.take 1) ++ (if after.isEmpty then "" else "." ++ String.ofList after) ++
    exponentText (place - 1)

/-- Digits with a point: positional from `0.0001` on and up to sixteen digits before the point. -/
def layout (ds : List Char) (place : Int) : String :=
  if -4 < place && place ≤ 16 then positional ds place else scientific ds place

end Shortest

def Binary64.text (x : Binary64) : String :=
  match x.decode with
  | .nan => "nan"
  | .infinite negative => if negative then "-inf" else "inf"
  | .finite negative m q =>
    let body :=
      if m = 0 then "0.0"
      else
        let (ds, place) := Shortest.digits m q
        Shortest.layout ds place
    if negative then "-" ++ body else body

end Jade
