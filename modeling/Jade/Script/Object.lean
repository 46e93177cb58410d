import Jade.Value

/-!
# Objects of scripts

While a script runs, lists and tables can be changed and streams can be taken from, and every name
for such a thing sees the change. So they live in a store and objects refer to them by place. All
other objects are plain data.
-/

namespace Jade.Script

/-- An object. -/
inductive Object where
  /-- The absent object. -/
  | none
  /-- A truth value. -/
  | bool (b : Bool)
  /-- An integer. -/
  | int (n : Int)
  /-- A binary fraction. -/
  | float (x : Binary64)
  /-- A text. -/
  | text (s : String)
  /-- Bytes. -/
  | bytes (bs : List UInt8)
  /-- A list in the store. -/
  | list (place : Nat)
  /-- A tuple. -/
  | tuple (items : List Object)
  /-- A table in the store. -/
  | dict (place : Nat)
  /-- A range of integers. -/
  | range (start stop step : Int)
  /-- The pairs of a table in the store. -/
  | pairs (place : Nat)
  /-- A stream in the store, with the name of its kind. -/
  | stream (kind : String) (place : Nat)
  /-- Something that every script knows by name. -/
  | builtin (name : String)
  /-- An operation of an object. -/
  | method (self : Object) (name : String)
  /-- A value from outside that scripts do not look into. -/
  | foreign (v : Value)
  deriving Repr, Inhabited

/-- The store: the members of lists, the pairs of tables and what is left of streams. -/
structure Store where
  cells : Array (List Object) := #[]
  deriving Repr, Inhabited

/-- The two members of an object that is a pair. -/
def Object.pair? : Object → Option (Object × Object)
  | .tuple [k, v] => some (k, v)
  | _ => Option.none

def Object.ofPair (p : Object × Object) : Object := .tuple [p.1, p.2]

/-- What a place of the store is seen as. -/
inductive Shape where
  | list
  | dict
  | pairs
  deriving DecidableEq, Repr

def pairOf? : Value → Option (Value × Value)
  | .tuple [k, v] => some (k, v)
  | _ => none

def Shape.ofMembers (vs : List Value) : Shape → Value
  | .list => .list vs
  | .dict => .dict (vs.filterMap pairOf?)
  | .pairs => .pairs (vs.filterMap pairOf?)

def Shape.mark : Shape → Value
  | .list => .thing "list" "[...]"
  | .dict => .thing "dict" "\x7b...\x7d"
  | .pairs => .thing "dict_items" "..."

abbrev Eval (α : Type) := ExceptT Fault (StateM Store) α

def builtinFunctions : List String :=
  ["abs", "aiter", "all", "anext", "any", "ascii", "bin", "breakpoint", "callable", "chr",
   "compile", "delattr", "dir", "divmod", "eval", "exec", "format", "getattr", "globals", "hasattr",
   "hash", "hex", "id", "input", "isinstance", "issubclass", "iter", "len", "locals", "max", "min",
   "next", "oct", "open", "ord", "pow", "print", "repr", "round", "setattr", "sorted", "sum",
   "vars"]

def builtinTypes : List String :=
  ["bool", "bytearray", "bytes", "classmethod", "complex", "dict", "enumerate", "filter", "float",
   "frozenset", "int", "list", "map", "memoryview", "object", "property", "range", "reversed",
   "set", "slice", "staticmethod", "str", "super", "tuple", "type", "zip"]

def builtinValue (name : String) : Value :=
  if builtinTypes.contains name then .thing "type" ("<class '" ++ name ++ "'>")
  else .thing "builtin_function_or_method" ("<built-in function " ++ name ++ ">")

namespace Store

def get (s : Store) (place : Nat) : List Object := s.cells.getD place []

def set (s : Store) (place : Nat) (items : List Object) : Store :=
  { s with cells := s.cells.setIfInBounds place items }

def table (s : Store) (place : Nat) : List (Object × Object) :=
  (s.get place).filterMap Object.pair?

def setTable (s : Store) (place : Nat) (pairs : List (Object × Object)) : Store :=
  s.set place (pairs.map Object.ofPair)

def alloc (s : Store) (items : List Object) : Nat × Store :=
  (s.cells.size, { s with cells := s.cells.push items })

/-! ## Objects as values -/

mutual

/-- An object as a value, where `expand` gives what is at a place. -/
def snapshotWith (expand : Shape → Nat → Value) : Object → Value
  | .none => .none
  | .bool b => .bool b
  | .int n => .int n
  | .float x => .float x
  | .text t => .text t
  | .bytes bs => .bytes bs
  | .list place => expand .list place
  | .tuple os => .tuple (snapshotAll expand os)
  | .dict place => expand .dict place
  | .range a b c => .range a b c
  | .pairs place => expand .pairs place
  | .stream kind _ => .thing kind ("<" ++ kind ++ " object>")
  | .builtin name => builtinValue name
  | .method _ name => .thing "builtin_function_or_method" ("<built-in method " ++ name ++ ">")
  | .foreign v => v

def snapshotAll (expand : Shape → Nat → Value) : List Object → List Value
  | [] => []
  | o :: os => snapshotWith expand o :: snapshotAll expand os

end

/-- What is at a place as a value, where something inside itself is only marked. `path` holds the
places on the way to it. -/
def snapshotCell (s : Store) : Nat → List Nat → Shape → Nat → Value
  | 0, _, shape, _ => shape.mark
  | fuel + 1, path, shape, place =>
    if path.contains place then shape.mark
    else shape.ofMembers (snapshotAll (snapshotCell s fuel (place :: path)) (s.get place))

def snapshot (s : Store) (o : Object) : Value :=
  snapshotWith (snapshotCell s (s.cells.size + 1) []) o

/-! ## Values as objects -/

mutual

/-- A value as an object; its lists and tables get places of their own. -/
def load (s : Store) : Value → Object × Store
  | .none => (.none, s)
  | .bool b => (.bool b, s)
  | .int n => (.int n, s)
  | .float x => (.float x, s)
  | .text t => (.text t, s)
  | .bytes bs => (.bytes bs, s)
  | .list vs =>
    let (os, s) := loadAll s vs
    let (place, s) := s.alloc os
    (.list place, s)
  | .tuple vs =>
    let (os, s) := loadAll s vs
    (.tuple os, s)
  | .dict ps =>
    let (os, s) := loadPairs s ps
    let (place, s) := s.alloc os
    (.dict place, s)
  | .pairs ps =>
    let (os, s) := loadPairs s ps
    let (place, s) := s.alloc os
    (.pairs place, s)
  | .range a b c => (.range a b c, s)
  | .stream vs =>
    let (os, s) := loadAll s vs
    let (place, s) := s.alloc os
    (.stream "list_iterator" place, s)
  | v => (.foreign v, s)

def loadAll (s : Store) : List Value → List Object × Store
  | [] => ([], s)
  | v :: vs =>
    let (o, s) := load s v
    let (os, s) := loadAll s vs
    (o :: os, s)

def loadPairs (s : Store) : List (Value × Value) → List Object × Store
  | [] => ([], s)
  | (k, v) :: ps =>
    let (k, s) := load s k
    let (v, s) := load s v
    let (os, s) := loadPairs s ps
    (.ofPair (k, v) :: os, s)

end

end Store

namespace Eval

def snapshot (o : Object) : Eval Value := return (← get).snapshot o

def alloc (items : List Object) : Eval Nat := do
  let (place, s) := (← get).alloc items
  set s
  return place

def newList (items : List Object) : Eval Object := return .list (← alloc items)

def newStream (kind : String) (items : List Object) : Eval Object :=
  return .stream kind (← alloc items)

def cell (place : Nat) : Eval (List Object) := return (← get).get place

def setCell (place : Nat) (items : List Object) : Eval Unit := modify fun s => s.set place items

def table (place : Nat) : Eval (List (Object × Object)) := return (← get).table place

def setTable (place : Nat) (pairs : List (Object × Object)) : Eval Unit :=
  modify fun s => s.setTable place pairs

end Eval

end Jade.Script
