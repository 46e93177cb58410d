import Jade.Script.Builtins
import Jade.Script.Grammar
import Jade.Table

/-!
# Running scripts

An expression is evaluated in a scope: names are looked up among the local ones, then the global
ones, then what every script knows. Statements bind local names.

A script may ask for a scope itself and then change it as a table. So the names of a scope are a
table of the store from the moment on where a script could have asked for it; before that, they are
kept on their own, where only bindings change them.
-/

namespace Jade.Script

abbrev Names := Table String Object

/-! ## Scopes -/

/-- What a name stands for among the pairs of a table. -/
def nameIn (name : String) : List (Object × Object) → Option Object
  | [] => none
  | (.text k, o) :: rest => if k == name then some o else nameIn name rest
  | _ :: rest => nameIn name rest

def bindIn (name : String) (o : Object) : List (Object × Object) → List (Object × Object)
  | [] => [(.text name, o)]
  | (.text k, o') :: rest =>
    if k == name then (.text k, o) :: rest else (.text k, o') :: bindIn name o rest
  | p :: rest => p :: bindIn name o rest

/-- The names of a scope. -/
inductive Frame where
  /-- Names that can only be looked up and bound. -/
  | own (names : Names)
  /-- A table of the store. -/
  | shared (place : Nat)
  deriving Repr, Inhabited

namespace Frame

def names (s : Store) : Frame → List (String × Object)
  | .own names => names.entries
  | .shared place => (s.table place).filterMap fun (k, o) =>
    match k with
    | .text name => some (name, o)
    | _ => none

def get? (s : Store) (name : String) : Frame → Option Object
  | .own names => names.get? name
  | .shared place => nameIn name (s.table place)

def set (s : Store) (name : String) (o : Object) : Frame → Frame × Store
  | .own names => (.own (names.set name o), s)
  | .shared place => (.shared place, s.setTable place (bindIn name o (s.table place)))

def copy (s : Store) (further : List (String × Object)) : Frame → Frame × Store
  | .own names => (.own (further.foldl (fun t (k, o) => t.set k o) names), s)
  | .shared place =>
    let pairs := further.foldl (fun ps (k, o) => bindIn k o ps) (s.table place)
    let (place, s) := s.alloc (pairs.map Object.ofPair)
    (.shared place, s)

def share (s : Store) : Frame → Frame × Store
  | .own names =>
    let (place, s) := s.alloc (names.entries.map fun (k, o) => .ofPair (.text k, o))
    (.shared place, s)
  | .shared place => (.shared place, s)

end Frame

/-- The names that a script sees. -/
structure Scope where
  locals : Frame := .own {}
  globals : Frame := .own {}
  deriving Repr, Inhabited

def Scope.lookup (scope : Scope) (s : Store) (name : String) : Except Fault Object :=
  match scope.locals.get? s name with
  | some o => .ok o
  | none =>
    match scope.globals.get? s name with
    | some o => .ok o
    | none =>
      if builtinFunctions.contains name || builtinTypes.contains name then .ok (.builtin name)
      else .error (.unbound name)

/-- The functions that look at scopes themselves. -/
def scopeFunctions : List String := ["dir", "eval", "exec", "globals", "locals", "vars"]

/-- Whether a script may get hold of a scope itself: it names a function that looks at scopes, or
has a sign for bindings inside of expressions. -/
def mayHold (source : String) : Bool :=
  occursIn [':', '='] source.toList ||
    ((lexemes (stripStart source)).toOption.getD []).any fun l =>
      match l with
      | .name w => scopeFunctions.contains w
      | _ => false

/-- The names that a function without arguments gives as a table. -/
def Scope.frame? (scope : Scope) : String → Option Frame
  | "locals" | "vars" => some scope.locals
  | "globals" => some scope.globals
  | _ => none

def callIn (scope : Scope) (f : Object) (args : List Object) (named : Named) : Eval Object :=
  match f, args with
  | .builtin name, [] =>
    match scope.frame? name with
    | some (.shared place) => do
      noNamed named
      return .dict place
    | _ => callObject f args named
  | _, _ => callObject f args named

/-! ## Expressions -/

def binary (op : BinaryOp) (l r : Object) : Eval Object :=
  match op, l with
  | .mod, .text s => formatText s r
  | _, _ => arithmetic op l r

/-- An operator of an assignment: a list or a table on the left is changed itself. -/
def inPlace (op : BinaryOp) (l r : Object) : Eval Object := do
  match op, l with
  | .add, .list place =>
    let os ← members r
    Eval.setCell place ((← Eval.cell place) ++ os)
    return l
  | .mul, .list place =>
    let some n := r.int? | throw .wrongType
    Eval.setCell place (← repeatList n (← Eval.cell place))
    return l
  | .bitOr, .dict place =>
    putAll place (← pairsIn r)
    return l
  | _, _ => binary op l r

mutual

def eval (scope : Scope) : Expr → Eval Object
  | .const v => do
    let (o, s) := (← get).load v
    set s
    return o
  | .name s => do (scope.lookup (← get) s : Except Fault _)
  | .list es => do Eval.newList (← evalAll scope es)
  | .tuple es => do return .tuple (← evalAll scope es)
  | .dict ps => do tableOf (← evalPairs scope ps)
  | .unary op e => do
    let o ← eval scope e
    (unaryArithmetic op o : Except Fault _)
  | .binary op l r => do
    let l ← eval scope l
    let r ← eval scope r
    binary op l r
  | .both l r => do
    let o ← eval scope l
    if ← truthy o then eval scope r else return o
  | .either l r => do
    let o ← eval scope l
    if ← truthy o then return o else eval scope r
  | .negation e => do return .bool (!(← truthy (← eval scope e)))
  | .compare first rest => do evalChain scope first (← eval scope first) rest
  | .choice cond yes no => do
    if ← truthy (← eval scope cond) then eval scope yes else eval scope no
  | .member e name => do
    let o ← eval scope e
    (memberOf o name : Except Fault _)
  | .index e i => do
    let o ← eval scope e
    let i ← eval scope i
    indexObject o i
  | .slice e start stop step => do
    let o ← eval scope e
    let start ← evalOption scope start
    let stop ← evalOption scope stop
    let step ← evalOption scope step
    sliceObject o start stop step
  | .call f args named => do
    let f ← eval scope f
    let args ← evalAll scope args
    let named ← evalNamed scope named
    callIn scope f args named

def evalAll (scope : Scope) : List Expr → Eval (List Object)
  | [] => return []
  | e :: es => do
    let o ← eval scope e
    return o :: (← evalAll scope es)

def evalPairs (scope : Scope) : List (Expr × Expr) → Eval (List Object)
  | [] => return []
  | (k, v) :: ps => do
    let k ← eval scope k
    let v ← eval scope v
    return .ofPair (k, v) :: (← evalPairs scope ps)

def evalNamed (scope : Scope) : List (String × Expr) → Eval Named
  | [] => return []
  | (k, e) :: ps => do
    let o ← eval scope e
    return (k, o) :: (← evalNamed scope ps)

/-- The object of an expression that may be left out. -/
def evalOption (scope : Scope) : Option Expr → Eval Object
  | none => return .none
  | some e => eval scope e

/-- The comparisons that follow the object `left` of the expression `before`; the first that does
not hold ends the chain. -/
def evalChain (scope : Scope) (before : Expr) (left : Object) :
    List (CompareOp × Expr) → Eval Object
  | [] => return .bool true
  | (op, e) :: rest => do
    let right ← eval scope e
    let holds ← if before.sameObject e && op = .same then pure true
      else if before.sameObject e && op = .notSame then pure false
      else compareObjects op left right
    if holds then evalChain scope e right rest else return .bool false

end

/-! ## Statements -/

/-- Actions of statements on the scope and the store. What was bound before a fault stays bound. -/
abbrev Exec (α : Type) := ExceptT Fault (StateM (Scope × Store)) α

namespace Exec

/-- An action on the store, in the scope as it is now. -/
def lift {α : Type} (act : Scope → Eval α) : Exec α := do
  let (scope, s) ← get
  let (result, s) := (act scope).run.run s
  set (scope, s)
  (result : Except Fault α)

def bindName (name : String) (o : Object) : Exec Unit :=
  modify fun (scope, s) =>
    let (locals, s) := scope.locals.set s name o
    ({ scope with locals }, s)

end Exec

mutual

def bindTarget (o : Object) : Target → Exec Unit
  | .name s => Exec.bindName s o
  | .tuple ts => do
    let os ← Exec.lift fun _ => members o
    if os.length = ts.length then bindTargets os ts else throw .badValue
  | .index e i => do
    let container ← Exec.lift (eval · e)
    let i ← Exec.lift (eval · i)
    Exec.lift fun _ => setItem container i o
  | .member e => do
    let _ ← Exec.lift (eval · e)
    throw .noSuchMember

def bindTargets : List Object → List Target → Exec Unit
  | o :: os, t :: ts => do
    bindTarget o t
    bindTargets os ts
  | _, _ => return ()

end

def bindEach (o : Object) : List Target → Exec Unit
  | [] => return ()
  | t :: ts => do
    bindTarget o t
    bindEach o ts

def runOne : Statement → Exec Unit
  | .expr e => do
    let _ ← Exec.lift (eval · e)
  | .assign targets e => do bindEach (← Exec.lift (eval · e)) targets
  | .update (.name s) op e => do
    let old ← Exec.lift (eval · (.name s))
    let new ← Exec.lift (eval · e)
    Exec.bindName s (← Exec.lift fun _ => inPlace op old new)
  | .update (.index e' i) op e => do
    let container ← Exec.lift (eval · e')
    let i ← Exec.lift (eval · i)
    let old ← Exec.lift fun _ => indexObject container i
    let new ← Exec.lift (eval · e)
    let o ← Exec.lift fun _ => inPlace op old new
    Exec.lift fun _ => setItem container i o
  | .update target _ _ => bindTarget .none target
  | .pass => return ()

def run : List Statement → Exec Unit
  | [] => return ()
  | st :: rest => do
    runOne st
    run rest

def evalText (scope : Scope) (s : String) : Eval Object := do
  let e ← (readExpression s : Except Fault _)
  eval scope e

def runText (s : String) : Exec Unit := do run (← (readStatements s : Except Fault _))

end Jade.Script
