/-!
# Binary fractions

Numbers with a fraction are kept as 64-bit binary words: a sign, an exponent and a significand of 53
bits. Their exact values are ratios of integers, and every ratio has a nearest word. Sums, products
and quotients of words are those of the hardware.
-/

namespace Jade

/-- A binary fraction of 64 bits. -/
structure Binary64 where
  bits : UInt64
  deriving DecidableEq, Repr, Inhabited

namespace Binary64

/-- What a word stands for. -/
inductive Meaning where
  | nan
  | infinite (negative : Bool)
  | finite (negative : Bool) (m : Nat) (q : Int)
  deriving DecidableEq, Repr

def decode (x : Binary64) : Meaning :=
  let n := x.bits.toNat
  let negative := Nat.pow 2 63 ≤ n
  let exponent : Nat := n / Nat.pow 2 52 % Nat.pow 2 11
  let fraction : Nat := n % Nat.pow 2 52
  if exponent = 2047 then
    if fraction = 0 then .infinite negative else .nan
  else if exponent = 0 then .finite negative fraction (-1074)
  else .finite negative (Nat.pow 2 52 + fraction) ((exponent : Int) - 1075)

def ofNatBits (n : Nat) : Binary64 := ⟨n.toUInt64⟩

def signBits (negative : Bool) : Nat := if negative then Nat.pow 2 63 else 0

def infinity (negative : Bool) : Binary64 := ofNatBits (signBits negative + 2047 * Nat.pow 2 52)

def nan : Binary64 := ofNatBits (2047 * Nat.pow 2 52 + Nat.pow 2 51)

def zero (negative : Bool) : Binary64 := ofNatBits (signBits negative)

/-- A quotient rounded to the nearest integer, a tie to the even one. -/
def roundDiv (num den : Nat) : Nat :=
  let q := num / den
  let r := num % den
  if 2 * r < den then q else if den < 2 * r then q + 1 else if q % 2 = 0 then q else q + 1

/-- A ratio divided by a power of two, as a ratio. -/
def scaled (num den : Nat) (q : Int) : Nat × Nat :=
  if 0 ≤ q then (num, den * Nat.pow 2 q.toNat) else (num * Nat.pow 2 (-q).toNat, den)

/-- The exponent of the last bit of a positive ratio's significand, before rounding. -/
def lastBit (num den : Nat) : Int :=
  let q : Int := (num.log2 : Int) - den.log2 - 52
  let (a, b) := scaled num den q
  let q := if a / b < Nat.pow 2 52 then q - 1 else q
  max q (-1074)

/-- The word nearest to a ratio, of two equally near ones the even one; infinity if the ratio is
beyond all finite words. -/
def ofRatio (negative : Bool) (num den : Nat) : Binary64 :=
  if num = 0 || den = 0 then zero negative
  else
    let q := lastBit num den
    let (a, b) := scaled num den q
    let m := roundDiv a b
    let word := if m < Nat.pow 2 52 then m else ((q + 1075).toNat - 1) * Nat.pow 2 52 + m
    if 2047 * Nat.pow 2 52 ≤ word then infinity negative else ofNatBits (signBits negative + word)

def ofInt (n : Int) : Binary64 := ofRatio (n < 0) n.natAbs 1

def toRatio? (x : Binary64) : Option (Int × Nat) :=
  match x.decode with
  | .finite negative m q =>
    let (num, den) := scaled m 1 (-q)
    some (if negative then -(num : Int) else num, den)
  | _ => none

/-- Whether the word stands for a finite number. -/
def isFinite (x : Binary64) : Bool := x.toRatio?.isSome

def isNaN (x : Binary64) : Bool := x.decode == .nan

def toFloat (x : Binary64) : Float := Float.ofBits x.bits

def ofFloat (x : Float) : Binary64 := ⟨x.toBits⟩

def add (x y : Binary64) : Binary64 := ofFloat (x.toFloat + y.toFloat)

def sub (x y : Binary64) : Binary64 := ofFloat (x.toFloat - y.toFloat)

def mul (x y : Binary64) : Binary64 := ofFloat (x.toFloat * y.toFloat)

def div (x y : Binary64) : Binary64 := ofFloat (x.toFloat / y.toFloat)

def neg (x : Binary64) : Binary64 := ⟨x.bits ^^^ 0x8000000000000000⟩

/-- Whether the number is zero, of either sign. -/
def isZero (x : Binary64) : Bool := x.bits == 0 || x.bits == 0x8000000000000000

def isNegative (x : Binary64) : Bool := Nat.pow 2 63 ≤ x.bits.toNat

/-- The integer part of a finite number, toward zero. -/
def trunc? (x : Binary64) : Option Int :=
  x.toRatio?.map fun (num, den) => Int.tdiv num den

/-- How two words compare: not at all if one is no number. -/
def compare? (x y : Binary64) : Option Ordering :=
  match x.decode, y.decode with
  | .nan, _ | _, .nan => none
  | .infinite a, .infinite b => some (if a == b then .eq else if a then .lt else .gt)
  | .infinite a, _ => some (if a then .lt else .gt)
  | _, .infinite b => some (if b then .gt else .lt)
  | .finite .., .finite .. =>
    match x.toRatio?, y.toRatio? with
    | some (a, b), some (c, d) => some (compare (a * d) (c * b))
    | _, _ => none

/-- How a word compares with an integer, exactly. -/
def compareInt? (x : Binary64) (n : Int) : Option Ordering :=
  match x.decode with
  | .nan => none
  | .infinite negative => some (if negative then .lt else .gt)
  | .finite .. => x.toRatio?.map fun (num, den) => compare num (n * den)

end Binary64

end Jade
