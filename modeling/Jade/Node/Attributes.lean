import Jade.Node
import Jade.Text.Split
import Jade.Value.Compare

/-!
# Attributes of a tag

A tag collects attributes as they are written. Before it is written itself, fixed values get double
quotes around them, the words for truth values become such, and classes are joined into one
attribute at the end if all of them are fixed.
-/

namespace Jade

/-- A text without the quotes around it, if it starts and ends with the same quote. A text that
starts with a quote and ends otherwise is given back as it is, marked by `none`. -/
def unquote? (cs : List Char) : Option (List Char) :=
  match cs with
  | [] => some []
  | c :: rest =>
    if c == '"' || c == '\'' then
      if cs.getLast? == some c then some rest.dropLast else none
    else some cs

/-- A fixed value with double quotes in place of its own, or without any. Anything but a text, the
empty text and an unclosed quotation are given back as they are. -/
def quoteFixed (v : Value) (bare : Bool := false) : Value :=
  match v with
  | .text s =>
    if s.isEmpty then v
    else match unquote? s.toList with
      | none => v
      | some cs =>
        let inner := String.ofList cs
        .text (if bare then inner else "\"" ++ inner ++ "\"")
  | _ => v

namespace Attribute

/-- Whether two attributes are equal, their values by what they stand for. -/
def same (a b : Attribute) : Bool := a.name == b.name && a.val.same b.val && a.fixed == b.fixed

/-- An attribute as it is written: a fixed value is quoted, and the words for truth values become
such. -/
def settle (a : Attribute) : Attribute :=
  let val := if a.fixed then quoteFixed a.val else a.val
  match val with
  | .text "True" => { a with val := .bool true, fixed := true }
  | .text "False" | .text "None" => { a with val := .bool false, fixed := true }
  | _ => { a with val }

def isClass (a : Attribute) : Bool := a.name == "class"

end Attribute

namespace Tag

def setAttribute (t : Tag) (name : String) (val : Value) (fixed : Bool := true) : Tag :=
  { t with entries := t.entries ++ [{ name, val, fixed }] }

/-- The value of the first attribute with a name. -/
def getAttribute (t : Tag) (name : String) : Option Value :=
  (t.entries.find? fun a => a.name == name).map Attribute.val

/-- Remove an attribute that stands at a place: the first one before it that is equal to it, else
the attribute itself, which need not be equal to itself. -/
def removeAt (i : Nat) (a : Attribute) (entries : List Attribute) : List Attribute :=
  entries.eraseIdx ((entries.take i).findIdx a.same)

/-- Walk through the attributes and remove each that has the name. The walk goes on by place, so
the attribute after a removed one is passed over. -/
def removeFrom (name : String) : Nat → Nat → List Attribute → List Attribute
  | 0, _, entries => entries
  | fuel + 1, i, entries =>
    match entries[i]? with
    | none => entries
    | some a =>
      removeFrom name fuel (i + 1) (if a.name == name then removeAt i a entries else entries)

def removeAttribute (t : Tag) (name : String) : Tag :=
  { t with entries := removeFrom name t.entries.length 0 t.entries }

/-- The text of a fixed class between its quotes. -/
def classText (a : Attribute) : Except Fault String :=
  match a.val with
  | .text s => .ok (String.ofList (s.toList.drop 1).dropLast)
  | _ => .error .wrongType

/-- Classes joined into one attribute if all are fixed, else all of them as computed ones. -/
def joinClasses (classes : List Attribute) : Except Fault (List Attribute) :=
  if classes.isEmpty then .ok []
  else if classes.all Attribute.fixed then do
    let names ← classes.mapM classText
    return [{ name := "class", val := .text ("\"" ++ joinWith " " names ++ "\""), fixed := true }]
  else .ok (classes.map fun a => { a with fixed := false })

/-- The attributes to write: all but the classes in order, then the classes. -/
def attributes (t : Tag) : Except Fault (List Attribute) := do
  let settled := t.entries.map Attribute.settle
  let classes ← joinClasses (settled.filter Attribute.isClass)
  return settled.filter (fun a => !a.isClass) ++ classes

end Tag

end Jade
