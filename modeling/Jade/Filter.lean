import Jade.Node
import Jade.Text.Blank
import Jade.Text.Split
import Jade.Text.Upper
import Jade.Value.Text

/-!
# Filters

A filter replaces a block of a template by text. It takes the lines of a text block together with
the attributes written beside its name, or the nodes of a block.
-/

namespace Jade

/-- A filter. -/
inductive Filter where
  | ofText (f : String → List (String × Value) → String)
  | ofNodes (f : List Node → String)

namespace Filter

def cdata : Filter := .ofText fun text _ => "<![CDATA[\n" ++ text ++ "\n]]>"

/-! ## Filters to be registered by name -/

/-- The characters up to the next star, and what follows it; both runs are not empty and the first
does not begin or end with a blank. -/
def emphasis? (cs : List Char) : Option (List Char × List Char) :=
  let inner := cs.takeWhile (· ≠ '*')
  match cs.drop inner.length with
  | _ :: rest =>
    if inner.isEmpty || inner.head?.any isBlank || inner.getLast?.any isBlank then none
    else some (inner, rest)
  | [] => none

/-- A line with every part between two stars emphasised, reading at most `fuel` characters. -/
def emphasised : Nat → List Char → List Char
  | 0, cs => cs
  | _ + 1, [] => []
  | fuel + 1, '*' :: cs =>
    match emphasis? cs with
    | some (inner, rest) => "<em>".toList ++ inner ++ "</em>".toList ++ emphasised fuel rest
    | none => '*' :: emphasised fuel cs
  | fuel + 1, c :: cs => c :: emphasised fuel cs

/-- A paragraph, or a heading if it begins with up to six hash marks. -/
def paragraph (s : String) : String :=
  let level := (s.toList.takeWhile (· == '#')).length
  let body (t : String) : String := String.ofList (emphasised t.length t.toList)
  if 0 < level && level ≤ 6 then
    let tag := "h" ++ toString level
    "<" ++ tag ++ ">" ++ body (strip (String.ofList (s.toList.drop level))) ++ "</" ++ tag ++ ">"
  else "<p>" ++ body s ++ "</p>"

/-- Paragraphs and headings with emphasis, divided by empty lines. -/
def paragraphs : Filter := .ofText fun text _ =>
  joinWith "\n" (((splitAtText "\n\n" text).map strip |>.filter (· ≠ "")).map paragraph)

def upper : Filter := .ofText fun text _ => Jade.upper text

def bracket : Filter := .ofText fun text _ => "[" ++ text ++ "]"

/-- Text with its attributes after a bar, in the order of their names. -/
def listing : Filter := .ofText fun text attrs =>
  let sorted := attrs.mergeSort fun a b => a.1 < b.1 || a.1 == b.1
  text ++ "|" ++ joinWith "," (sorted.map fun (k, v) => k ++ "=" ++ v.display)

def count : Filter := .ofNodes fun nodes => "<" ++ toString nodes.length ++ ">"

end Filter

end Jade
