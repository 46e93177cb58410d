/-!
# Cutting and replacing

Texts cut at a separator, and occurrences of one text replaced by another. Occurrences are found
from left to right and do not overlap.
-/

namespace Jade

/-- The pieces between the occurrences of `sep`; `run` holds the current piece, reversed. -/
def splitCharFrom (sep : Char) (run : List Char) : List Char → List (List Char)
  | [] => [run.reverse]
  | c :: cs =>
    if c = sep then run.reverse :: splitCharFrom sep [] cs else splitCharFrom sep (c :: run) cs

/-- The pieces of a text between the occurrences of a character: always one more than there are
occurrences. -/
def splitAtChar (sep : Char) (s : String) : List String :=
  (splitCharFrom sep [] s.toList).map String.ofList

/-- The rest of `cs` after `start`, if `cs` begins with it. -/
def stripPrefix? : List Char → List Char → Option (List Char)
  | [], cs => some cs
  | _ :: _, [] => none
  | p :: ps, c :: cs => if p = c then stripPrefix? ps cs else none

theorem stripPrefix?_append (start cs : List Char) :
    stripPrefix? start (start ++ cs) = some cs := by
  induction start with
  | nil => rfl
  | cons p ps ih => simp [stripPrefix?, ih]

theorem eq_append_of_stripPrefix? {start cs rest : List Char}
    (h : stripPrefix? start cs = some rest) : cs = start ++ rest := by
  induction start generalizing cs with
  | nil => simpa [stripPrefix?] using h
  | cons p ps ih =>
    cases cs with
    | nil => simp [stripPrefix?] at h
    | cons c cs =>
      by_cases hpc : p = c
      · simp only [stripPrefix?, hpc, if_true] at h
        simp [hpc, ih h]
      · simp [stripPrefix?, hpc] at h

/-- The pieces between occurrences of `sep`, reading at most `fuel` characters. -/
def splitTextFrom (sep : List Char) : Nat → List Char → List Char → List (List Char)
  | 0, run, cs => [run.reverse ++ cs]
  | _ + 1, run, [] => [run.reverse]
  | fuel + 1, run, c :: cs =>
    match stripPrefix? sep (c :: cs) with
    | some rest => run.reverse :: splitTextFrom sep fuel [] rest
    | none => splitTextFrom sep fuel (c :: run) cs

/-- The pieces of a text between the occurrences of a separator that is not empty. -/
def splitAtText (sep s : String) : List String :=
  (splitTextFrom sep.toList (s.length + 1) [] s.toList).map String.ofList

def joinWith (sep : String) (pieces : List String) : String := sep.intercalate pieces

/-- The same text `n` times. -/
def repeatText (n : Nat) (s : String) : String := String.join (List.replicate n s)

end Jade
