import Jade.Emitter
import Jade.Interpolation
import Jade.Text.Blank

/-!
# Forms of a dialect

Dialects agree on tags, text and comments and differ in how they write everything that has to do
with control, variables and attributes. A dialect is given by a record of actions, one for each such
construct. Where a construct has content, its action is given an action that writes the content and
decides where it goes.
-/

namespace Jade

/-- How a dialect writes its constructs. -/
structure Forms where
  /-- What every template begins with. -/
  opening : String := ""
  /-- A text with its markers replaced, where expressions may be escaped. -/
  interpolate : (escape : Bool) → String → Emit String
  /-- What writes the value of an expression, escaped or not. -/
  output : String → (escape : Bool) → String
  /-- The call that writes attributes when the page is rendered. -/
  attributeCall : String → String
  /-- Attributes that have to be computed. -/
  computed : List Attribute → Emit Unit
  /-- All attributes of a tag. -/
  attributes : List Attribute → Emit Unit
  /-- A named block: its name, its mode and what writes its content. -/
  namedBlock : (name mode : String) → Emit Unit → Emit Unit
  /-- A mixin: its name, its arguments, whether it is called, its content and what writes that. -/
  mixin : (name args : String) → (call : Bool) → Option (Node × Emit Unit) → Emit Unit
  /-- An assignment. -/
  assignment : (name value : String) → Emit Unit
  /-- The template that this one extends. -/
  parent : (path : String) → Emit Unit
  /-- A template to include. -/
  inclusion : (path : String) → Emit Unit
  /-- Code: its source, whether its value is written and escaped, and what writes its content. -/
  code : (source : String) → (buffer escape : Bool) → Option (Emit Unit) → Emit Unit
  /-- A loop: what it runs over, its variables, and what writes its content. -/
  each : (subject : String) → (keys : List String) → Emit Unit → Emit Unit
  /-- A conditional: its word, its sentence, what writes its content, and the alternatives. -/
  conditional : (word sentence : String) → Option (Emit Unit) → List (Emit Unit) → Emit Unit

namespace Forms

/-! ## Attributes -/

/-- Attributes that are left to a call in the rendered page: pairs of names and expressions, with
all classes as one pair at the end. -/
def computedAttributes (call : String → String) (attrs : List Attribute) : Emit Unit := do
  let terse := (← get).terse
  let others := (attrs.filter (·.name ≠ "class")).map fun a =>
    "('" ++ a.name ++ "',(" ++ a.val.display ++ "))"
  let classes := (attrs.filter (·.name == "class")).map fun a => "(" ++ a.val.display ++ ")"
  let pairs := others ++
    (if classes.isEmpty then [] else ["('class', (" ++ joinWith " , " classes ++ "))"])
  let params := (if terse then ["terse=True"] else []) ++
    (if pairs.isEmpty then [] else ["attrs=[" ++ joinWith ", " pairs ++ "]"])
  unless params.isEmpty do Emit.push (call (joinWith ", " params))

/-- One attribute that is written into the template itself. -/
def givenAttribute (s : Setup) (output : String → String) (a : Attribute) : Emit Unit :=
  match a.val with
  | .text v =>
    if s.useRuntime || a.fixed then Emit.push (" " ++ a.name ++ "=" ++ v)
    else Emit.push (" " ++ a.name ++ "=\"" ++ output v ++ "\"")
  | .bool true => do
    if (← get).terse then Emit.push (" " ++ a.name)
    else Emit.push (" " ++ a.name ++ "=\"" ++ a.name ++ "\"")
  | _ => pure ()

/-- All attributes of a tag: those to be computed are collected until one comes that can be written
at once. -/
def attributeRun (s : Setup) (output : String → String) (computed : List Attribute → Emit Unit) :
    List Attribute → List Attribute → Emit Unit
  | waiting, [] => unless waiting.isEmpty do computed waiting
  | waiting, a :: rest =>
    if (!s.useRuntime && a.name ≠ "class") || a.fixed then do
      unless waiting.isEmpty do computed waiting
      givenAttribute s output a
      attributeRun s output computed [] rest
    else attributeRun s output computed (waiting ++ [a]) rest

def attributeList (s : Setup) (output : String → String) (computed : List Attribute → Emit Unit)
    (attrs : List Attribute) : Emit Unit :=
  attributeRun s output computed [] attrs

/-- The same forms with another way to write variables and attributes. -/
def withAttributes (f : Forms) (s : Setup) (output : String → Bool → String)
    (call : String → String) : Forms :=
  { f with
    output
    attributeCall := call
    computed := computedAttributes call
    attributes := attributeList s (output · false) (computedAttributes call) }

/-! ## Common shapes -/

def codeWord (source : String) : String :=
  String.ofList ((strip source).toList.takeWhile (· ≠ ' '))

/-- Code with its content: a value or a statement, the content, and what closes the statement if the
writer has to. -/
def codeForm (s : Setup) (value : String → Bool → String) (statement close : String → String)
    (source : String) (buffer escape : Bool) (body : Option (Emit Unit)) : Emit Unit := do
  if buffer then Emit.push (value (stripStart source) escape) else Emit.push (statement source)
  if let some body := body then
    body
    unless buffer do
      let word := codeWord source
      if s.autoclose.contains word then Emit.push (close word)

/-- The head of a conditional in most dialects. -/
def conditionHead (word sentence : String) : Option String :=
  match word with
  | "if" => some ("if " ++ sentence)
  | "unless" => some ("if not " ++ sentence)
  | "elif" => some ("elif " ++ sentence)
  | "else" => some "else"
  | _ => none

def all : List (Emit Unit) → Emit Unit
  | [] => pure ()
  | act :: rest => do
    act
    all rest

/-- A conditional with its content and alternatives. Alternatives without content before them are
not written. Only the words that open a chain close it. -/
def conditionalForm (head : String → String → Option String) (statement : String → String)
    (close : String) (word sentence : String) (body : Option (Emit Unit))
    (next : List (Emit Unit)) : Emit Unit := do
  match head word sentence with
  | none => throw .noSuchKey
  | some h =>
    Emit.push (statement h)
    if let some body := body then
      body
      all next
    if word == "if" || word == "unless" then Emit.push close

/-- Something between an opening and a closing text. -/
def between (start stop : String) (body : Emit Unit) : Emit Unit := do
  Emit.put start
  body
  Emit.put stop

/-- A loop between pieces that open and close it. -/
def eachForm (start stop : String) (body : Emit Unit) : Emit Unit := do
  Emit.push start
  body
  Emit.push stop

def needed (content : Option (Node × Emit Unit)) : Emit Unit :=
  match content with
  | some (_, body) => body
  | none => throw .noSuchMember

end Forms

end Jade
