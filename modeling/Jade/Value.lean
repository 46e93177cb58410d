import Jade.Decimal.Binary
import Jade.Fault

/-!
# Values

What expressions and the helper functions of templates work with: numbers, texts, sequences, tables
and a few things that are known only by what they offer. Values are plain data; a list that a
template changes lives in the store of the script that changes it.
-/

namespace Jade

/-- A value. -/
inductive Value where
  /-- The absent value. -/
  | none
  /-- A truth value. -/
  | bool (b : Bool)
  /-- An integer. -/
  | int (n : Int)
  /-- A binary fraction. -/
  | float (x : Binary64)
  /-- A text. -/
  | text (s : String)
  /-- Bytes. -/
  | bytes (bs : List UInt8)
  /-- A list. -/
  | list (items : List Value)
  /-- A tuple. -/
  | tuple (items : List Value)
  /-- A table in order of insertion. -/
  | dict (pairs : List (Value × Value))
  /-- A table whose keys have an order of their own. -/
  | ordered (pairs : List (Value × Value))
  /-- Values that are there to be taken once. -/
  | stream (items : List Value)
  /-- Something that knows its own markup. -/
  | html (markup : String)
  /-- A name that a template environment knows nothing of. -/
  | undefined (name : String)
  /-- Something that counts up from a number. -/
  | counter (n : Int)
  /-- The integers from `start` up to but without `stop`. -/
  | range (start stop step : Int)
  /-- The pairs of a table. -/
  | pairs (of : List (Value × Value))
  /-- Something known by the name of its kind and the text that shows it. -/
  | thing (kind shown : String)
  deriving Repr, Inhabited, BEq

namespace Value

/-- How many integers there are from `start` to `stop` in steps. -/
def rangeSize (start stop step : Int) : Nat :=
  if 0 < step then ((stop - start + step - 1) / step).toNat
  else if step < 0 then ((start - stop - step - 1) / (-step)).toNat
  else 0

/-- The integers from `start` to `stop` in steps. -/
def rangeMembers (start stop step : Int) : List Int :=
  (List.range (rangeSize start stop step)).map fun (i : Nat) => start + step * i

def pair (p : Value × Value) : Value := .tuple [p.1, p.2]

/-- Whether a value is this truth value itself; a number that is equal to it is not. -/
def isBool (b : Bool) : Value → Bool
  | bool c => c == b
  | _ => false

def isNone : Value → Bool
  | none => true
  | _ => false

/-- Whether a value counts as true: all but the absent value, zeros and what is empty. -/
def truthy : Value → Bool
  | none | undefined _ => false
  | bool b => b
  | int n => n != 0
  | float x => !x.isZero
  | text s => !s.isEmpty
  | bytes bs => !bs.isEmpty
  | list xs | tuple xs => !xs.isEmpty
  | dict ps | ordered ps | pairs ps => !ps.isEmpty
  | range a b c => rangeSize a b c != 0
  | stream _ | html _ | counter _ | thing _ _ => true

/-- The values that a value runs through, if it can be run through. -/
def members? : Value → Option (List Value)
  | text s => some (s.toList.map fun c => .text (String.singleton c))
  | bytes bs => some (bs.map fun b => .int b.toNat)
  | list xs | tuple xs | stream xs => some xs
  | dict ps | ordered ps => some (ps.map Prod.fst)
  | pairs ps => some (ps.map pair)
  | range a b c => some ((rangeMembers a b c).map .int)
  | undefined _ => some []
  | none | bool _ | int _ | float _ | html _ | counter _ | thing _ _ => Option.none

/-- The values that a value runs through; a fault if it cannot be run through. -/
def members (v : Value) : Except Fault (List Value) :=
  match v.members? with
  | some vs => .ok vs
  | Option.none => .error .wrongType

/-- The number of members, if a value has one before it is run through. -/
def size? : Value → Option Nat
  | text s => some s.length
  | bytes bs => some bs.length
  | list xs | tuple xs => some xs.length
  | dict ps | ordered ps | pairs ps => some ps.length
  | range a b c => some (rangeSize a b c)
  | undefined _ => some 0
  | none | bool _ | int _ | float _ | stream _ | html _ | counter _ | thing _ _ => Option.none

def isText : Value → Bool
  | text _ => true
  | _ => false

def isMapping : Value → Bool
  | dict _ | ordered _ => true
  | _ => false

/-- Whether the value runs through members and is no text. -/
def isIterable (v : Value) : Bool := !v.isText && v.members?.isSome

def kind : Value → String
  | none => "NoneType"
  | bool _ => "bool"
  | int _ => "int"
  | float _ => "float"
  | text _ => "str"
  | bytes _ => "bytes"
  | list _ => "list"
  | tuple _ => "tuple"
  | dict _ => "dict"
  | ordered _ => "odict"
  | stream _ => "list_iterator"
  | html _ => "Html"
  | undefined _ => "Undefined"
  | counter _ => "Counter"
  | range _ _ _ => "range"
  | pairs _ => "dict_items"
  | thing k _ => k

end Value

end Jade
