import Jade.Decimal.Shortest
import Jade.Text.Quoted
import Jade.Text.Split
import Jade.Value

/-!
# Values as text

A value has two texts: one for output, in which a text stands for itself, and one for the members of
a container, in which texts are quoted.
-/

namespace Jade.Value

def bracketed (left right : String) (parts : List String) : String :=
  left ++ joinWith ", " parts ++ right

/-- A tuple's members; one member alone has a comma after it. -/
def tupleText (parts : List String) : String :=
  match parts with
  | [one] => "(" ++ one ++ ",)"
  | _ => bracketed "(" ")" parts

mutual

def inside : Value → String
  | none => "None"
  | bool b => if b then "True" else "False"
  | int n => toString n
  | float x => x.text
  | text s => quoted s
  | bytes bs => quotedBytes bs
  | list xs => bracketed "[" "]" (insideAll xs)
  | tuple xs => tupleText (insideAll xs)
  | dict ps => bracketed "\x7b" "\x7d" (insidePairs ": " ps)
  | ordered ps => "odict.odict(" ++ bracketed "[" "]" (insideTuples ps) ++ ")"
  | pairs ps => "dict_items(" ++ bracketed "[" "]" (insideTuples ps) ++ ")"
  | stream _ => "<list_iterator object>"
  | html _ => "<Html object>"
  | undefined _ => "Undefined"
  | counter _ => "<Counter object>"
  | range a b c =>
    "range(" ++ toString a ++ ", " ++ toString b ++
      (if c = 1 then "" else ", " ++ toString c) ++ ")"
  | thing _ shown => shown

def insideAll : List Value → List String
  | [] => []
  | v :: vs => inside v :: insideAll vs

/-- The texts of pairs with something between key and value. -/
def insidePairs (between : String) : List (Value × Value) → List String
  | [] => []
  | (k, v) :: ps => (inside k ++ between ++ inside v) :: insidePairs between ps

def insideTuples : List (Value × Value) → List String
  | [] => []
  | (k, v) :: ps => tupleText [inside k, inside v] :: insideTuples ps

end

def display : Value → String
  | text s => s
  | undefined _ => ""
  | v => v.inside

end Jade.Value
