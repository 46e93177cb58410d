/-!
# Tables of code points

A class of characters is given by the lengths of its runs: the code points outside the class and
inside it by turns, from zero on. Most lengths are small, so the tables are texts with a letter for
each of these.
-/

namespace Jade

/-- Whether `n` lies in the class with the given runs. -/
def inRuns : List Nat → Nat → Bool
  | out :: own :: runs, n => if n < out + own then out ≤ n else inRuns runs (n - (out + own))
  | _, _ => false

/-- Lengths in a text, after the digits of one: the letters from `a` to `z` and from `A` to `Z` are
those from 1 to 52, and after a number in digits there is a blank. -/
def runsFrom (n : Nat) : List Char → List Nat
  | [] => []
  | c :: cs =>
    if c.isDigit then runsFrom (10 * n + (c.toNat - '0'.toNat)) cs
    else if c == ' ' then n :: runsFrom 0 cs
    else if c.isLower then (c.toNat - 'a'.toNat + 1) :: runsFrom 0 cs
    else (c.toNat - 'A'.toNat + 27) :: runsFrom 0 cs

def runsOf (lines : List String) : List Nat := lines.flatMap fun s => runsFrom 0 s.toList

end Jade
