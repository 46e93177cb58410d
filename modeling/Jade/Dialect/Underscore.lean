import Jade.Dialect.Plain
import Jade.Markup

/-!
# Underscore templates

Underscore templates are scripts with markup in between, so blocks are opened and closed by braces.
Attributes are computed when the template is written, as far as that can be done without any names;
the others are left to the script.
-/

namespace Jade.Forms

/-- The value of an expression that needs no names, or a script that writes the expression. -/
def computedValue (expr : String) : Value :=
  match ((Script.evalText {} expr).run.run {} : Except Fault Script.Object × Script.Store) with
  | (.ok o, store) => store.snapshot o
  | (.error _, _) => .text ("<%= " ++ quotedBytes expr.toUTF8.toList ++ " %>")

/-- The value of an attribute: what is fixed stands for itself, an expression for what `compute`
makes of it, and anything else for the name. -/
def attributeValue {m : Type → Type} [Monad m] (compute : String → m Value) (a : Attribute) :
    m Value :=
  if a.fixed then pure a.val
  else match a.val with
    | .text expr => compute expr
    | _ => pure (.text a.name)

/-- The values that classes are made of: a list counts with all its members. -/
def classMembers : Value → List Value
  | .list vs => vs
  | v => [v]

/-- All attributes with values, one after the other, with the classes joined at the end. -/
def writeParams (params : List (String × Value)) (classes : List Value) : Emit Unit := do
  let params := params ++
    (if classes.isEmpty then []
     else [("class", .text (joinWith " " (classes.map Value.display)))])
  let terse := (← get).terse
  unless params.isEmpty do
    let parts ← params.mapM fun (k, v) => (writeParam (.text k) v terse : Except Fault Value)
    Emit.push (" " ++ joinWith " " (parts.map Value.display))

/-- The attributes of a tag in an Underscore template; an absent or false value is left out. -/
def scriptAttributes (attrs : List Attribute) : Emit Unit := do
  let value (a : Attribute) : Value := Id.run (attributeValue (fun e => pure (computedValue e)) a)
  let params := (attrs.filter (·.name ≠ "class")).map fun a => (a.name, value a)
  writeParams (params.filter fun (_, v) => !(v.isNone || v.isBool false))
    ((attrs.filter (·.name == "class")).flatMap fun a => classMembers (value a))

/-- The head of a conditional in an Underscore template. -/
def scriptHead (word sentence : String) : Option String :=
  match word with
  | "if" => some ("if (" ++ sentence ++ ")")
  | "unless" => some ("if (!" ++ sentence ++ ")")
  | "elif" => some ("\x7d else if (" ++ sentence ++ ")")
  | "else" => some "\x7d else"
  | _ => none

/-- Code in an Underscore template: a statement with content opens a brace, which is closed if the
writer has to. -/
def scriptCode (s : Setup) (source : String) (buffer escape : Bool) (body : Option (Emit Unit)) :
    Emit Unit := do
  if buffer then
    Emit.push ("<%" ++ (if escape then "=" else "-") ++ " " ++ stripStart source ++ " %>")
  else Emit.push ("<% " ++ source)
  match body with
  | some body =>
    Emit.push " \x7b %>"
    body
    if !buffer && s.autoclose.contains (codeWord source) then Emit.push "<% \x7d %>"
  | none => unless buffer do Emit.push "; %>"

/-- A loop in an Underscore template. Loops are numbered, and a template without numbers for its
loops cannot have any. -/
def scriptEach (subject : String) (keys : List String) (body : Emit Unit) : Emit Unit := do
  match (← get).counter with
  | none => throw .noSuchMember
  | some n =>
    modify fun e => { e with counter := some (n + 1) }
    let i := "_i_" ++ toString n
    let len := "_len_" ++ toString n
    Emit.push ("<% for (" ++ i ++ " = 0, " ++ len ++ " = " ++ subject ++ ".length; " ++
      i ++ " < " ++ len ++ "; " ++ i ++ "++) \x7b ")
    let member := subject ++ "[" ++ i ++ "]"
    match keys with
    | [] => pure ()
    | [k] => Emit.push (k ++ " = " ++ member ++ ";")
    | _ =>
      all (keys.mapIdx fun j k => Emit.push (k ++ " = " ++ member ++ "[" ++ toString j ++ "];"))
    Emit.push " %>"
    body
    Emit.push "<% \x7d %>"

def underscore (s : Setup) : Forms :=
  { plain s with
    interpolate := fun _ text => pure (fill (fun e => "<%= " ++ e ++ " %>") text)
    attributes := scriptAttributes
    assignment := fun name value => Emit.put ("<% var " ++ name ++ " = " ++ value ++ "; %>")
    code := scriptCode s
    each := scriptEach
    conditional := conditionalForm scriptHead (fun h => "\n<% " ++ h ++ " \x7b %>")
      "\n<% \x7d %>\n" }

end Jade.Forms
