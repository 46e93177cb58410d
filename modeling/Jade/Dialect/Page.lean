import Jade.Dialect.Underscore
import Jade.Emitter.Walk
import Jade.Iteration

/-!
# Pages

A template can be rendered at once: its scripts are run while it is written. An expression that
fails has no value, but a failing statement is a fault. Loops and calls of mixins open a scope of
their own, which is left when they are done.

A list may grow while a loop runs through it, and mixins may call each other, so a page need not
have an end. The machine that renders it runs out of memory then, or of room for calls; how much it
has of both is given here by two numbers, `Emit.loopLimit` and `Forms.callLimit`.
-/

namespace Jade

namespace Emit

/-! ## Scripts -/

def script {α : Type} (act : Script.Eval α) : Emit α := do
  let e ← get
  let (result, store) := act.run.run e.page.store
  set { e with page := { e.page with store } }
  (result : Except Fault α)

/-- The object of an expression, or none if it fails. -/
def evaluate (expr : String) : Emit Script.Object := do
  modify fun e => { e with page := e.page.ready expr }
  let scope := (← get).page.scope
  try script (Script.evalText scope expr) catch _ => pure .none

def valueOf (expr : String) : Emit Value := do
  let o ← evaluate expr
  script (Script.Eval.snapshot o)

/-- Run statements; names that they bind are local. -/
def execute (source : String) : Emit Unit := do
  modify fun e => { e with page := e.page.ready source }
  let e ← get
  let (result, scope, store) := (Script.runText source).run.run (e.page.scope, e.page.store)
  set { e with page := { e.page with locals := scope.locals, store } }
  (result : Except Fault Unit)

/-- Run an action in a scope that has further local names. The scope is left when the action is
done, but not after a fault. -/
def inScope (names : List (String × Script.Object)) (act : Emit Unit) : Emit Unit := do
  let { locals, outer, store, .. } := (← get).page
  let (inner, store) := locals.copy store names
  modify fun e =>
    { e with page := { e.page with locals := inner, outer := locals :: outer, store } }
  act
  modify fun e => { e with page := { e.page with locals, outer } }

/-! ## Loops -/

/-- What is left of a loop. What is in the store is looked up again for every member. -/
inductive Cursor where
  /-- A list in the store, from an index on. -/
  | list (place index : Nat)
  /-- A stream in the store. -/
  | stream (place : Nat)
  /-- A table in the store from an index on, by its keys or by its pairs. It had so many pairs when
  the loop began. -/
  | table (keys : Bool) (place size index : Nat)
  /-- Members that cannot change. -/
  | fixed (os : List Script.Object)

def next (c : Cursor) : Script.Eval (Option (Script.Object × Cursor)) := do
  match c with
  | .list place index =>
    return ((← get).get place)[index]?.map fun o => (o, .list place (index + 1))
  | .stream place =>
    match (← get).get place with
    | [] => return none
    | o :: rest =>
      modify fun s => s.set place rest
      return some (o, .stream place)
  | .table keys place size index =>
    let os := (← get).get place
    if os.length = size then
      return os[index]?.map fun o =>
        (if keys then (o.pair?.map Prod.fst).getD o else o, .table keys place size (index + 1))
    else throw .changed
  | .fixed [] => return none
  | .fixed (o :: os) => return some (o, .fixed os)

def numbered (n : Numbering) (index : Nat) (o : Script.Object) : Script.Eval Script.Object :=
  match n with
  | .plain => return o
  | .extended => do return .tuple ((← Script.members o) ++ [.int index])
  | .paired => return .tuple [o, .int index]

/-- How many members are left of a loop as things stand now. -/
def left (c : Cursor) : Script.Eval Nat := do
  match c with
  | .list place index => return ((← get).get place).length - index
  | .stream place => return ((← get).get place).length
  | .table _ _ size index => return size - index
  | .fixed os => return os.length

/-- How many members a list may gain while a loop runs through it; a loop that still goes on is
taken to be endless. -/
def loopLimit : Nat := 1000000

def loopFrom (n : Numbering) (act : Script.Object → Emit Unit) : Nat → Nat → Cursor → Emit Unit
  | 0, _, _ => throw .endless
  | fuel + 1, index, c => do
    match ← script (next c) with
    | none => pure ()
    | some (o, c) =>
      act (← script (numbered n index o))
      loopFrom n act fuel (index + 1) c

/-- A loop from its first member on, which decides how members and indices are combined. -/
def loopStart (keys : Nat) (act : Script.Object → Emit Unit) (c : Cursor) : Emit Unit := do
  match ← script (next c) with
  | none => pure ()
  | some (head, c) =>
    let first : Value ← match head with
      | .stream _ _ => pure (.stream [])
      | _ => script (Script.Eval.snapshot head)
    let n := numberingOf first keys
    let turns ← script (left c)
    act (← script (numbered n 0 head))
    loopFrom n act (loopLimit + turns) 1 c

/-- An action for each member of an object, for a loop with so many variables. A table is run
through by its keys. -/
def loop (o : Script.Object) (keys : Nat) (act : Script.Object → Emit Unit) : Emit Unit :=
  match o with
  | .dict place => do
    let size := (← script (Script.Eval.cell place)).length
    loopFrom .plain act (loopLimit + size) 0 (.table true place size 0)
  | .pairs place => do
    let size := (← script (Script.Eval.cell place)).length
    loopStart keys act (.table false place size 0)
  | .list place => loopStart keys act (.list place 0)
  | .stream _ place => loopStart keys act (.stream place)
  | _ => do loopStart keys act (.fixed (← script (Script.members o)))

/-- The names that a member of a loop is bound to: its own first members if there are several
names. -/
def bindings (keys : List String) (o : Script.Object) :
    Script.Eval (List (String × Script.Object)) :=
  match keys with
  | [] => throw .noSuchPosition
  | [k] => return [(k, o)]
  | _ => do return keys.zip (← Script.firstMembers keys.length o)

end Emit

namespace Forms

open Emit

/-- A text in which what opens and closes tags is escaped. -/
def escapeMarkup (s : String) : String :=
  String.ofList (s.toList.flatMap fun
    | '&' => "&amp;".toList
    | '<' => "&lt;".toList
    | '>' => "&gt;".toList
    | c => [c])

def paramNames (args : String) : List String := (splitAtChar ',' args).map strip

/-- Whether the content of a conditional is written. -/
def chosen (word : String) (o : Script.Object) : Emit Bool :=
  match word with
  | "if" | "elsif" => script (Script.truthy o)
  | "unless" => do return !(← script (Script.truthy o))
  | "else" => return true
  | _ => throw .noSuchKey

/-- The values of computed attributes and of classes, from left to right. A true value stands for
itself, values equal to none or false are left out, and others are escaped. -/
def pageParams : List Attribute → Emit (List (String × Value) × List Value)
  | [] => return ([], [])
  | a :: rest => do
    let v ← attributeValue valueOf a
    if a.name == "class" then
      let (params, classes) ← pageParams rest
      return (params, classMembers v ++ classes)
    else if v.isBool true then
      let (params, classes) ← pageParams rest
      return ((a.name, v) :: params, classes)
    else if v.isNone || v.same (.bool false) then pageParams rest
    else
      let text ← (escape v : Except Fault String)
      let (params, classes) ← pageParams rest
      return ((a.name, .text text) :: params, classes)

def pageAttributes (attrs : List Attribute) : Emit Unit := do
  let (params, classes) ← pageParams attrs
  writeParams params classes

/-- Code of a page: its value is written, its content is written, and a statement without content is
run. -/
def pageCode (source : String) (buffer escape : Bool) (body : Option (Emit Unit)) : Emit Unit := do
  if buffer then
    let v ← valueOf (localised (stripStart source))
    if escape then push (escapeMarkup v.display) else pushValue v
  match body with
  | some body => body
  | none => unless buffer do execute (stripStart source)

def pageEach (subject : String) (keys : List String) (body : Emit Unit) : Emit Unit := do
  loop (← evaluate subject) keys.length fun o => do
    inScope (← script (bindings keys o)) body

/-- A conditional of a page: its content, or else its alternatives. -/
def pageConditional (word sentence : String) (body : Option (Emit Unit)) (next : List (Emit Unit)) :
    Emit Unit := do
  let o ← if sentence.isEmpty then pure (.bool false) else evaluate sentence
  if ← chosen word o then
    match body with
    | some body => body
    | none => do
      before false
      throw .noSuchMember
  else all next

/-- Call a mixin: its parameters are bound to the first members of the arguments' value. -/
def callMixin (render : Node → Emit Unit) (name args : String) : Emit Unit := do
  match (← get).page.mixins.get? name with
  | none => throw .noSuchKey
  | some m =>
    let values ← if args.isEmpty then pure []
      else script (Script.firstMembers m.params.length (← evaluate args))
    inScope (m.params.zip values) (render m.content)

/-- The forms of a page, where `render` writes what a mixin holds. -/
def pageWith (s : Setup) (render : Node → Emit Unit) : Forms :=
  { plain s with
    interpolate := fun _ => fillM fun e => do return (← valueOf e).display
    computed := pageAttributes
    attributes := attributeList s ((plain s).output · false) pageAttributes
    mixin := fun name args _ content =>
      match content with
      | some (n, _) => modify fun e =>
        let mixin : Mixin := { params := paramNames args, content := n }
        { e with page := { e.page with mixins := e.page.mixins.set name mixin } }
      | none => callMixin render name args
    assignment := fun name value => do
      let o ← evaluate value
      modify fun e =>
        let (globals, store) := e.page.globals.set e.page.store name o
        { e with page := { e.page with globals, store } }
    parent := fun _ => throw (.notSupported "")
    inclusion := fun _ => throw (.notSupported "")
    code := pageCode
    each := pageEach
    conditional := pageConditional }

/-- The forms of a page whose mixins call each other at most so deeply. -/
def page (s : Setup) : Nat → Forms
  | 0 => pageWith s fun _ => throw .tooDeep
  | depth + 1 => pageWith s fun n => inside s (page s depth) n

/-- How deeply mixins of a page may call each other. -/
def callLimit : Nat := 200

end Forms

end Jade
