import Jade.Decimal.Binary

/-!
# Reading decimals

A decimal is read as a ratio of integers and then rounded once, so the result is the word nearest to
what was written.
-/

namespace Jade

/-- A decimal as written: `digits * 10 ^ exponent`. -/
structure Decimal where
  digits : Nat
  exponent : Int
  deriving DecidableEq, Repr

namespace Decimal

def ofDigits (ds : List Char) : Nat :=
  ds.foldl (fun n c => 10 * n + (c.toNat - '0'.toNat)) 0

/-- The word nearest to a decimal. Beyond every word it is not computed in full. -/
def toBinary (d : Decimal) : Binary64 :=
  let width : Int := (toString d.digits).length
  if d.digits = 0 then Binary64.zero false
  else if 400 < width + d.exponent then Binary64.infinity false
  else if width + d.exponent < -400 then Binary64.zero false
  else if 0 ≤ d.exponent then Binary64.ofRatio false (d.digits * Nat.pow 10 d.exponent.toNat) 1
  else Binary64.ofRatio false d.digits (Nat.pow 10 (-d.exponent).toNat)

/-- Digits in which single underscores may stand between two digits, and the rest. -/
def digitRun : List Char → List Char × List Char
  | '_' :: c :: cs =>
    if c.isDigit then
      let (ds, rest) := digitRun cs
      (c :: ds, rest)
    else ([], '_' :: c :: cs)
  | c :: cs =>
    if c.isDigit then
      let (ds, rest) := digitRun cs
      (c :: ds, rest)
    else ([], c :: cs)
  | [] => ([], [])

def digitsAt (cs : List Char) : List Char × List Char :=
  if cs.head?.any Char.isDigit then digitRun cs else ([], cs)

/-- The exponent after `e`, if one is written there. -/
def exponentAt : List Char → Option (Int × List Char)
  | c :: cs =>
    if c == 'e' || c == 'E' then
      let (negative, cs) := match cs with
        | '-' :: r => (true, r)
        | '+' :: r => (false, r)
        | r => (false, r)
      match digitsAt cs with
      | ([], _) => none
      | (ds, rest) =>
        let n : Int := ofDigits ds
        some (if negative then -n else n, rest)
    else none
  | [] => none

/-- The longest decimal at the start of a text; whether it has a point or an exponent; and the
rest. -/
def scan? (cs : List Char) : Option (Decimal × Bool × List Char) :=
  let (before, rest) := digitsAt cs
  let (after, pointed, rest) := match rest with
    | '.' :: r =>
      let (ds, r') := digitsAt r
      if before.isEmpty && ds.isEmpty then ([], false, rest) else (ds, true, r')
    | _ => ([], false, rest)
  if before.isEmpty && after.isEmpty then none
  else
    let n := ofDigits (before ++ after)
    match exponentAt rest with
    | some (e, rest) => some (⟨n, e - after.length⟩, true, rest)
    | none => some (⟨n, -after.length⟩, pointed, rest)

end Decimal

/-- A text that is a decimal with an optional sign, or the name of a special word. -/
def Binary64.read? (s : String) : Option Binary64 :=
  let (negative, body) := match s.toList with
    | '-' :: cs => (true, cs)
    | '+' :: cs => (false, cs)
    | cs => (false, cs)
  let positive :=
    if body == "inf".toList then some (Binary64.infinity false)
    else if body == "nan".toList then some Binary64.nan
    else match Decimal.scan? body with
      | some (d, _, []) => some d.toBinary
      | _ => none
  positive.map fun x => if negative then x.neg else x

end Jade
