import Jade.Script.Eval
import Jade.Text.Blank
import Jade.Text.Digit
import Jade.Text.Split

/-!
# Macro tags

The tags that written Django templates use for mixins, assignments and attributes. A tag is read
when a template is made and rendered later, when there is a context of variables. A macro has
parameters by place and parameters by name, which have defaults; using it sets them in the context
of the page, one after the other.

How a tag is cut into parts, what an argument stands for in a context and which macros another
template has is up to the engine that renders the page. Nothing is known of it here; there may be
simple ones.
-/

namespace Jade

open Script

/-- The variables of a page. -/
structure Context where
  names : Names := {}
  store : Store := {}
  deriving Repr, Inhabited

namespace Context

def set (c : Context) (name : String) (o : Object) : Context :=
  { c with names := c.names.set name o }

def setValue (c : Context) (name : String) (v : Value) : Context :=
  let (o, store) := c.store.load v
  { names := c.names.set name o, store }

/-- All variables with their values, in the order of their names. -/
def sorted (c : Context) : List (String × Value) :=
  (c.names.entries.map fun (k, o) => (k, c.store.snapshot o)).mergeSort
    fun a b => decide (a.1 ≤ b.1)

def listing (c : Context) : String :=
  joinWith " " (c.sorted.map fun (k, v) => k ++ "=" ++ v.display)

end Context

/-- A macro. -/
structure Macro where
  name : String
  params : List String
  defaults : Table String String
  body : Context → String

/-- What a tag becomes. -/
inductive MacroTag where
  /-- The definition of a macro. -/
  | definition (m : Macro)
  /-- The use of a macro with arguments by place and by name. -/
  | call (m : Macro) (args : List String) (named : Table String String)
  /-- The macros of another template. -/
  | loaded
  /-- An assignment. -/
  | assignment (source : String)
  /-- Attributes, which cannot be computed here. -/
  | attributes (source : String)

/-- What tags leave to the engine of the page. -/
structure TagEngine where
  /-- The parts of a tag. -/
  split : String → List String
  /-- What an argument stands for in a context. -/
  resolve : Context → String → Object
  /-- The macros of another template. -/
  macrosOf : String → Except Fault (List Macro)

namespace TagEngine

/-- The object of an argument that is no variable: a text between quotes, or a number. -/
def literal? (arg : String) : Option Object :=
  match arg.toList with
  | q :: rest =>
    if (q == '"' || q == '\'') && rest.getLast? == some q then
      some (.text (String.ofList rest.dropLast))
    else (decimalNumber? 0 (q :: rest)).map fun n => .int n
  | [] => none

/-- A simple engine: tags are cut at blanks, an argument is a literal or else a variable, which is
an empty text if it is not set, and every template has the same macros. -/
def simple (macros : List Macro) : TagEngine where
  split := words
  resolve c arg := (literal? arg).getD ((c.names.get? arg).getD (.text ""))
  macrosOf _ := .ok macros

end TagEngine

/-- What a template knows while it is made. -/
structure Library where
  macros : Table String Macro := {}

instance : Inhabited Library := ⟨{}⟩

namespace Macro

/-- Arguments by place and by name: an equals sign divides a name from its value, and commas at the
end of an argument are dropped. -/
def arguments : List String → Except Fault (List String × List (String × String))
  | [] => .ok ([], [])
  | a :: rest => do
    let a := String.ofList (trimEndBy (· == ',') a.toList)
    match splitAtChar '=' a with
    | [_] =>
      let (args, named) ← arguments rest
      return (a :: args, named)
    | [name, value] =>
      let (args, named) ← arguments rest
      return (args, (name, value) :: named)
    | _ => throw .badValue

/-- The name of a macro and what follows it in a tag. -/
def nameAndRest (g : TagEngine) (contents : String) : Except Fault (String × List String) :=
  match g.split contents with
  | _ :: name :: rest => .ok (name, rest)
  | _ => .error ((words contents).head?.elim .noSuchPosition .macroNameMissing)

/-- What follows the first blank of a tag, or all of it. -/
def afterBlank (contents : String) : String :=
  match contents.toList.dropWhile (· ≠ ' ') with
  | _ :: rest => String.ofList rest
  | [] => contents

def unquoted (s : String) : Except Fault String :=
  match s.toList with
  | q :: rest =>
    .ok (if (q == '"' || q == '\'') && s.toList.getLast? == some q then String.ofList rest.dropLast
      else s)
  | [] => .error .noSuchPosition

/-- The macros of the template that a tag names. -/
def askedFor (g : TagEngine) (contents : String) : Except Fault (List Macro) :=
  match g.split contents with
  | [_, file] => do g.macrosOf (← unquoted file)
  | _ => .error .badValue

end Macro

/-- The tags. -/
inductive MacroTagKind where
  | define
  | use
  | load
  | assign
  | attributes
  deriving DecidableEq, Repr, Inhabited

namespace Library

/-- A tag with these contents, read; a macro that it defines has the given body. -/
def read (g : TagEngine) (l : Library) (kind : MacroTagKind) (contents : String)
    (body : Context → String) : Except Fault MacroTag × Library :=
  match kind with
  | .define =>
    match (do
      let (name, rest) ← Macro.nameAndRest g contents
      let (params, defaults) ← Macro.arguments rest
      return ({ name, params, defaults := .ofPairs defaults, body } : Macro)) with
    | .error e => (.error e, l)
    | .ok m => (.ok (.definition m), { l with macros := l.macros.set m.name m })
  | .use =>
    (do
      let (name, rest) ← Macro.nameAndRest g contents
      match l.macros.get? name with
      | none => throw (.macroUndefined name)
      | some m =>
        let (args, named) ← Macro.arguments rest
        return .call m args (.ofPairs named), l)
  | .load =>
    match Macro.askedFor g contents with
    | .error e => (.error e, l)
    | .ok ms => (.ok .loaded, { l with macros := ms.foldl (fun t m => t.set m.name m) l.macros })
  | .assign => (.ok (.assignment (Macro.afterBlank contents)), l)
  | .attributes => (.ok (.attributes (Macro.afterBlank contents)), l)

def forget (l : Library) : Library := { l with macros := {} }

end Library

namespace MacroTag

/-- The context with the parameters by place set one after the other. -/
def setParams (g : TagEngine) (c : Context) : List String → List String → Context
  | [], _ => c
  | p :: ps, [] => setParams g (c.set p (.text "")) ps []
  | p :: ps, a :: args => setParams g (c.set p (g.resolve c a)) ps args

/-- The context with the parameters by name set one after the other. -/
def setNamed (g : TagEngine) (named : Table String String) (c : Context) :
    List (String × String) → Context
  | [] => c
  | (name, default) :: rest =>
    setNamed g named (c.set name (g.resolve c ((named.get? name).getD default))) rest

/-- The context in which truth values have names. -/
def withTruth (c : Context) : Context := (c.set "false" (.bool false)).set "true" (.bool true)

/-- The context with the variables that an assignment sets. -/
def assign (c : Context) (source : String) : Except Fault Unit × Context :=
  let c := withTruth c
  let scope : Scope := { locals := .own c.names }
  let (result, store) := (evalText scope ("dict(" ++ source ++ ")")).run.run c.store
  let c := { c with store }
  match result with
  | .error e => (.error e, c)
  | .ok (.dict place) =>
    (.ok (), (store.table place).foldl (fun c (k, o) => match k with
      | .text name => c.set name o
      | _ => c) c)
  | .ok _ => (.error .wrongType, c)

def render (g : TagEngine) (c : Context) : MacroTag → Except Fault String × Context
  | .definition _ => (.ok "", c)
  | .loaded => (.ok "", c)
  | .call m args named =>
    let c := setNamed g named (setParams g c m.params args) m.defaults.entries
    (.ok (m.body c), c)
  | .assignment source =>
    let (result, c) := assign c source
    (result.map fun _ => "", c)
  | .attributes _ => (.ok "", withTruth c)

end MacroTag

end Jade
