/-!
# Blanks

White space in the sense of the template language: the ASCII controls from tab to carriage return,
the four information separators, and the spaces and line separators of Unicode. Trimming and
splitting at blanks use this class throughout.
-/

namespace Jade

/-- White space: any separator of words or lines. -/
def isBlank (c : Char) : Bool :=
  let n := c.toNat
  (0x09 ≤ n && n ≤ 0x0d) || (0x1c ≤ n && n ≤ 0x20) || n == 0x85 || n == 0xa0 || n == 0x1680 ||
    (0x2000 ≤ n && n ≤ 0x200a) || n == 0x2028 || n == 0x2029 || n == 0x202f || n == 0x205f ||
    n == 0x3000

def trimStartBy (p : Char → Bool) (cs : List Char) : List Char := cs.dropWhile p

def trimEndBy (p : Char → Bool) (cs : List Char) : List Char := (cs.reverse.dropWhile p).reverse

/-- Drop the leading and the trailing characters of a class. -/
def trimBy (p : Char → Bool) (cs : List Char) : List Char := trimEndBy p (trimStartBy p cs)

/-- A text without the characters of a class at its ends. -/
def stripBy (p : Char → Bool) (s : String) : String := String.ofList (trimBy p s.toList)

def strip (s : String) : String := stripBy isBlank s

def stripStart (s : String) : String := String.ofList (trimStartBy isBlank s.toList)

/-- A text without quotes of either kind at its ends. -/
def stripQuotes (s : String) : String := stripBy (fun c => c == '"' || c == '\'') s

/-- The runs of other characters between blanks; `run` holds the current run, reversed. -/
def wordsFrom (run : List Char) : List Char → List (List Char)
  | [] => if run.isEmpty then [] else [run.reverse]
  | c :: cs =>
    if isBlank c then
      if run.isEmpty then wordsFrom [] cs else run.reverse :: wordsFrom [] cs
    else wordsFrom (c :: run) cs

/-- The words of a text: its maximal runs of characters other than blanks. -/
def words (s : String) : List String := (wordsFrom [] s.toList).map String.ofList

end Jade
