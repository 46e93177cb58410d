import Jade.Decimal.Reader
import Jade.Script.Format
import Jade.Sort
import Jade.Text.Blank
import Jade.Text.Digit
import Jade.Text.Split
import Jade.Text.Upper

/-!
# What every script knows

Functions that every script can call by name, and the operations of texts, tables and lists.
-/

namespace Jade.Script

abbrev Named := List (String × Object)

def noNamed (named : Named) : Eval Unit := do
  unless named.isEmpty do throw .wrongType

/-- The arguments by name, of which only some are known. -/
def onlyNamed (known : List String) (named : Named) : Eval Unit := do
  unless named.all fun (k, _) => known.contains k do throw .wrongType

/-! ## Reading integers -/

/-- The value of a digit in any base up to thirty-six. -/
def digitValue? (c : Char) : Option Nat :=
  if 'a' ≤ c && c ≤ 'z' then some (c.toNat - 'a'.toNat + 10)
  else if 'A' ≤ c && c ≤ 'Z' then some (c.toNat - 'A'.toNat + 10)
  else decimalDigit? c

/-- All characters as digits of a base, with single underscores between digits. -/
def allDigits? (base : Nat) (acc : Nat) : List Char → Option Nat
  | [] => some acc
  | '_' :: c :: cs =>
    (digitValue? c).bind fun d => if d < base then allDigits? base (base * acc + d) cs else none
  | c :: cs =>
    (digitValue? c).bind fun d => if d < base then allDigits? base (base * acc + d) cs else none

/-- A text as an integer in a base: blanks around it and a sign are allowed. -/
def readInt? (base : Nat) (s : String) : Option Int :=
  let cs := trimBy isBlank s.toList
  let (negative, cs) := match cs with
    | '-' :: r => (true, r)
    | '+' :: r => (false, r)
    | r => (false, r)
  let marked (m : Char) := match cs with
    | '0' :: c :: r => if c.toLower == m then r else cs
    | _ => cs
  let cs := if base = 16 then marked 'x' else if base = 8 then marked 'o'
    else if base = 2 then marked 'b' else cs
  if cs.isEmpty || cs.head? == some '_' then none
  else (allDigits? base 0 cs).map fun n => if negative then -(n : Int) else n

def toInt (o : Object) : Except Fault Int :=
  match o with
  | .bool b => .ok (if b then 1 else 0)
  | .int n => .ok n
  | .float x =>
    match x.trunc? with
    | some n => .ok n
    | none => if x.isNaN then .error .badValue else .error .overflow
  | .text s =>
    match readInt? 10 s with
    | some n => .ok n
    | none => .error .badValue
  | .bytes bs =>
    match readInt? 10 (String.ofList (bs.map fun b => Char.ofNat b.toNat)) with
    | some n => .ok n
    | none => .error .badValue
  | _ => .error .wrongType

/-- The call of `int`. -/
def callInt (args : List Object) : Except Fault Object :=
  match args with
  | [] => .ok (.int 0)
  | [o] => return .int (← toInt o)
  | [o, base] =>
    match base.int? with
    | none => .error .wrongType
    | some b =>
      if b = 0 || (2 ≤ b && b ≤ 36) then
        match o with
        | .text s =>
          match readInt? (if b = 0 then 10 else b.toNat) s with
          | some n => .ok (.int n)
          | none => .error .badValue
        | _ => .error .wrongType
      else .error .badValue
  | _ => .error .wrongType

/-! ## Sequences -/

def sizeOf? (o : Object) : Eval Nat := do
  match (← Eval.snapshot o).size? with
  | some n => return n
  | none => throw .wrongType

/-- The call of `range`. -/
def callRange (args : List Object) : Except Fault Object :=
  match args.map Object.int? with
  | [some b] => .ok (.range 0 b 1)
  | [some a, some b] => .ok (.range a b 1)
  | [some a, some b, some c] => if c = 0 then .error .badValue else .ok (.range a b c)
  | _ => .error .wrongType

def addAll (acc : Object) : List Object → Eval Object
  | [] => return acc
  | o :: os => do addAll (← arithmetic .add acc o) os

def numbered (start : Int) : List Object → List Object
  | [] => []
  | o :: os => .tuple [.int start, o] :: numbered (start + 1) os

/-- Tuples of the first, second, … members of sequences, as long as all have one. -/
def zipLists (lists : List (List Object)) : Nat → List Object
  | 0 => []
  | fuel + 1 =>
    if lists.isEmpty || lists.any List.isEmpty then []
    else .tuple (lists.filterMap List.head?) :: zipLists (lists.map List.tail) fuel

def membersOfAll : List Object → Eval (List (List Object))
  | [] => return []
  | o :: os => do
    let xs ← members o
    return xs :: (← membersOfAll os)

def namedPairs (named : Named) : List Object := named.map fun (k, v) => .ofPair (.text k, v)

/-- The call of `dict`. -/
def callDict (args : List Object) (named : Named) : Eval Object := do
  match args with
  | [] => tableOf (namedPairs named)
  | [o] => tableOf ((← pairsIn o) ++ namedPairs named)
  | _ => throw .wrongType

def displayText (o : Object) : Eval String := return (← Eval.snapshot o).display

/-- The call of `str`. -/
def callStr (args : List Object) : Eval Object := do
  match args with
  | [] => return .text ""
  | [o] => return .text (← displayText o)
  | .bytes bs :: _ =>
    match String.fromUTF8? (ByteArray.mk bs.toArray) with
    | some s => return .text s
    | none => throw .undecodable
  | _ => throw .wrongType

def callPlain (name : String) (args : List Object) (named : Named) : Eval Object := do
  match name, args with
  | "len", [o] =>
    noNamed named
    return .int (← sizeOf? o)
  | "str", _ =>
    noNamed named
    callStr args
  | "int", _ =>
    noNamed named
    (callInt args : Except Fault _)
  | "list", [] =>
    noNamed named
    Eval.newList []
  | "list", [o] =>
    noNamed named
    Eval.newList (← members o)
  | "tuple", [] =>
    noNamed named
    return .tuple []
  | "tuple", [o] =>
    noNamed named
    return .tuple (← members o)
  | "bool", [] =>
    noNamed named
    return .bool false
  | "bool", [o] =>
    noNamed named
    return .bool (← truthy o)
  | "repr", [o] =>
    noNamed named
    return .text (← Eval.snapshot o).inside
  | "abs", [o] =>
    noNamed named
    match o.number? with
    | some (.int n) => return .int n.natAbs
    | some (.float x) => return .float (if x.isNegative then x.neg else x)
    | none => throw .wrongType
  | "range", _ =>
    noNamed named
    (callRange args : Except Fault _)
  | "sum", [o] =>
    onlyNamed ["start"] named
    addAll ((named.lookup "start").getD (.int 0)) (← members o)
  | "sum", [o, start] =>
    noNamed named
    match start with
    | .text _ | .bytes _ => throw .wrongType
    | _ => addAll start (← members o)
  | "enumerate", [o] =>
    onlyNamed ["start"] named
    match ((named.lookup "start").getD (.int 0)).int? with
    | some n => Eval.newStream "enumerate" (numbered n (← members o))
    | none => throw .wrongType
  | "enumerate", [o, start] =>
    noNamed named
    match start.int? with
    | some n => Eval.newStream "enumerate" (numbered n (← members o))
    | none => throw .wrongType
  | "zip", _ =>
    onlyNamed ["strict"] named
    let lists ← membersOfAll args
    Eval.newStream "zip" (zipLists lists ((lists.map List.length).foldl max 0))
  | "dict", _ => callDict args named
  | _, _ => throw .wrongType

/-! ## Order -/

/-- The objects that decide the order: results of a function, or the objects themselves. -/
def sortKeys (key : Object) : List Object → Eval (List (Value × Object))
  | [] => return []
  | o :: os => do
    let k ← match key with
      | .none => pure o
      | .builtin name => callPlain name [o] []
      | _ => throw .wrongType
    let v ← Eval.snapshot k
    return (v, o) :: (← sortKeys key os)

def sortedMembers (o : Object) (named : Named) : Eval Object := do
  onlyNamed ["key", "reverse"] named
  let keyed ← sortKeys ((named.lookup "key").getD .none) (← members o)
  let falling ← match named.lookup "reverse" with
    | some r => truthy r
    | none => pure false
  let done ← (sorted (fun a b => Value.holds .lt a.1 b.1) falling keyed : Except Fault _)
  Eval.newList (done.map Prod.snd)

/-- The first of the objects that no other one beats. -/
def extreme (op : Value.Comparison) (best : Value × Object) :
    List (Value × Object) → Except Fault Object
  | [] => .ok best.2
  | x :: xs => do
    if ← Value.holds op x.1 best.1 then extreme op x xs else extreme op best xs

/-- The smallest or the largest of several objects, or of the members of one. -/
def callExtreme (op : Value.Comparison) (args : List Object) (named : Named) : Eval Object := do
  onlyNamed ["key", "default"] named
  let os ← match args with
    | [] => throw .wrongType
    | [o] => members o
    | os => if (named.lookup "default").isSome then throw .wrongType else pure os
  match ← sortKeys ((named.lookup "key").getD .none) os with
  | [] =>
    match named.lookup "default" with
    | some o => return o
    | none => throw .badValue
  | x :: xs => (extreme op x xs : Except Fault _)

def callBuiltin (name : String) (args : List Object) (named : Named) : Eval Object := do
  match name, args with
  | "sorted", [o] => sortedMembers o named
  | "min", _ => callExtreme .lt args named
  | "max", _ => callExtreme .gt args named
  | _, _ => callPlain name args named

/-! ## Operations of objects -/

def memberOf (o : Object) (name : String) : Except Fault Object :=
  let known := match o with
    | .text _ => ["upper", "strip", "split", "join"]
    | .dict _ => ["get", "items", "update", "setdefault", "copy"]
    | .list _ => ["append", "extend", "insert", "pop", "clear", "copy"]
    | _ => []
  if known.contains name then .ok (.method o name) else .error .noSuchMember

/-- The texts among objects that have to be texts. -/
def allTexts : List Object → Except Fault (List String)
  | [] => .ok []
  | .text s :: os => return s :: (← allTexts os)
  | _ => .error .wrongType

/-- The words of a text, with at most so many cuts; the last piece keeps its blanks inside. -/
def wordsAtMost : Nat → List Char → List String
  | 0, cs =>
    let rest := cs.dropWhile isBlank
    if rest.isEmpty then [] else [String.ofList (trimEndBy isBlank rest)]
  | n + 1, cs =>
    let rest := cs.dropWhile isBlank
    if rest.isEmpty then []
    else
      let (word, rest) := rest.span fun c => !isBlank c
      String.ofList word :: wordsAtMost n rest

/-- Pieces with those after the first `n` joined again. -/
def piecesAtMost (sep : String) (n : Nat) (pieces : List String) : List String :=
  let rest := pieces.drop n
  pieces.take n ++ (if rest.isEmpty then [] else [joinWith sep rest])

/-- A text cut at blanks or at a separator, with a largest number of cuts unless negative. -/
def splitText (s : String) (sep : Object) (cuts : Int) : Except Fault (List String) :=
  match sep with
  | .none => .ok (if cuts < 0 then words s else wordsAtMost cuts.toNat s.toList)
  | .text sep =>
    if sep.isEmpty then .error .badValue
    else
      let pieces := splitAtText sep s
      .ok (if cuts < 0 then pieces else piecesAtMost sep cuts.toNat pieces)
  | _ => .error .wrongType

def argument (args : List Object) (named : Named) (i : Nat) (name : String) (default : Object) :
    Object :=
  (args[i]?).getD ((named.lookup name).getD default)

/-- What is stored under a key of the table at a place, or a default. -/
def getOr (place : Nat) (k default : Object) : Eval Object := do
  requireKey k
  return (← lookupKey k (← Eval.table place)).getD default

/-- What is stored under a key of the table at a place; if it is nothing yet, a default is. -/
def setDefault (place : Nat) (k default : Object) : Eval Object := do
  requireKey k
  match ← lookupKey k (← Eval.table place) with
  | some v => return v
  | none =>
    put place k default
    return default

def popAt (place : Nat) (i : Int) : Eval Object := do
  let os ← Eval.cell place
  let o ← (elementAt os i : Except Fault _)
  Eval.setCell place (os.eraseIdx (← (indexIn os.length i : Except Fault _)))
  return o

def callText (s : String) (name : String) (args : List Object) (named : Named) : Eval Object := do
  match name, args with
  | "upper", [] =>
    noNamed named
    return .text (upper s)
  | "strip", [] | "strip", [.none] =>
    noNamed named
    return .text (strip s)
  | "strip", [.text chars] =>
    noNamed named
    return .text (stripBy (fun c => chars.toList.contains c) s)
  | "split", _ =>
    onlyNamed ["sep", "maxsplit"] named
    if 2 < args.length then throw .wrongType
    match (argument args named 1 "maxsplit" (.int (-1))).int? with
    | none => throw .wrongType
    | some cuts =>
      let pieces ← (splitText s (argument args named 0 "sep" .none) cuts : Except Fault _)
      Eval.newList (pieces.map .text)
  | "join", [o] =>
    noNamed named
    return .text (joinWith s (← (allTexts (← members o) : Except Fault _)))
  | _, _ => throw .wrongType

def callTable (place : Nat) (name : String) (args : List Object) (named : Named) :
    Eval Object := do
  match name, args with
  | "get", [k] =>
    noNamed named
    getOr place k .none
  | "get", [k, default] =>
    noNamed named
    getOr place k default
  | "items", [] =>
    noNamed named
    return .pairs place
  | "update", [] =>
    putAll place (namedPairs named)
    return .none
  | "update", [o] =>
    putAll place ((← pairsIn o) ++ namedPairs named)
    return .none
  | "setdefault", [k] =>
    noNamed named
    setDefault place k .none
  | "setdefault", [k, default] =>
    noNamed named
    setDefault place k default
  | "copy", [] =>
    noNamed named
    return .dict (← Eval.alloc (← Eval.cell place))
  | _, _ => throw .wrongType

def callList (place : Nat) (name : String) (args : List Object) : Eval Object := do
  match name, args with
  | "append", [o] =>
    Eval.setCell place ((← Eval.cell place) ++ [o])
    return .none
  | "extend", [o] =>
    let os ← members o
    Eval.setCell place ((← Eval.cell place) ++ os)
    return .none
  | "insert", [i, o] =>
    let some n := i.int? | throw .wrongType
    let os ← Eval.cell place
    Eval.setCell place (os.insertIdx (clampBound os.length 0 os.length 0 (some n)).toNat o)
    return .none
  | "pop", [] => popAt place (-1)
  | "pop", [i] =>
    let some n := i.int? | throw .wrongType
    popAt place n
  | "clear", [] =>
    Eval.setCell place []
    return .none
  | "copy", [] => Eval.newList (← Eval.cell place)
  | _, _ => throw .wrongType

def callMethod (self : Object) (name : String) (args : List Object) (named : Named) :
    Eval Object :=
  match self with
  | .text s => callText s name args named
  | .dict place => callTable place name args named
  | .list place => do
    noNamed named
    callList place name args
  | _ => throw .wrongType

def callObject (f : Object) (args : List Object) (named : Named) : Eval Object :=
  match f with
  | .builtin name => callBuiltin name args named
  | .method self name => callMethod self name args named
  | _ => throw .wrongType

end Jade.Script
