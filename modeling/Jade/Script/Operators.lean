import Jade.Script.Expr
import Jade.Script.Object
import Jade.Value.Compare

/-!
# Operators of scripts

Arithmetic on numbers, where integers are unbounded and mix with binary fractions; concatenation and
repetition of sequences; comparisons, membership, indices and slices.
-/

namespace Jade.Script

open Value (Number Comparison)

/-! ## Numbers -/

def Object.number? : Object → Option Number
  | .bool b => some (.int (if b then 1 else 0))
  | .int n => some (.int n)
  | .float x => some (.float x)
  | _ => Option.none

def Object.int? : Object → Option Int
  | .bool b => some (if b then 1 else 0)
  | .int n => some n
  | _ => Option.none

/-- A number as a binary fraction; an integer beyond all of them is a fault. -/
def toBinary : Number → Except Fault Binary64
  | .float x => .ok x
  | .int n =>
    let x := Binary64.ofInt n
    if x.isFinite then .ok x else .error .overflow

/-- The quotient of two integers, rounded once. -/
def divideInts (a b : Int) : Except Fault Binary64 :=
  if b = 0 then .error .divisionByZero
  else
    let x := Binary64.ofRatio ((a < 0) != (b < 0)) a.natAbs b.natAbs
    if x.isFinite then .ok x else .error .overflow

/-- The quotient rounded down and the remainder of two binary fractions, each rounded once from its
exact value. A zero takes the sign that the exact result would have next to it. -/
def floorDivMod (x y : Binary64) : Binary64 × Binary64 :=
  match x.toRatio?, y.toRatio? with
  | some (a, b), some (c, d) =>
    let num := a * d
    let den := c * b
    let q := Int.fdiv num den
    -- The remainder over the common denominator.
    let r := num - q * den
    let quotient :=
      if q = 0 then Binary64.zero (x.isNegative != y.isNegative) else Binary64.ofInt q
    let remainder :=
      if r = 0 then Binary64.zero y.isNegative
      else Binary64.ofRatio (r < 0) r.natAbs (b * d)
    (quotient, remainder)
  | some (a, _), none =>
    if y.isNaN then (Binary64.nan, Binary64.nan)
    else if a = 0 || (decide (a < 0)) == y.isNegative then (Binary64.zero false, x)
    else (Binary64.ofInt (-1), y)
  | none, _ => (Binary64.nan, Binary64.nan)

/-- The largest exponent for which a power is worked out. -/
def largestExponent : Int := 1000000

def powInts (a b : Int) : Except Fault Object :=
  if largestExponent < b then .error .overflow
  else if 0 ≤ b then .ok (.int (Int.pow a b.toNat))
  else if a = 0 then .error .divisionByZero
  else do
    let x ← toBinary (.int a)
    let y ← toBinary (.int b)
    return .float (Binary64.ofFloat (Float.pow x.toFloat y.toFloat))

/-- Bits of two integers combined, in two's complement of enough width. -/
def bitwise (f : Nat → Nat → Nat) (a b : Int) : Int :=
  let width := max a.natAbs.log2 b.natAbs.log2 + 2
  let wrap (n : Int) : Nat := (n % (Nat.pow 2 width : Nat)).toNat
  let r := f (wrap a) (wrap b) % Nat.pow 2 width
  if r < Nat.pow 2 (width - 1) then r else (r : Int) - (Nat.pow 2 width : Nat)

def intArithmetic (op : BinaryOp) (a b : Int) : Except Fault Object :=
  match op with
  | .add => .ok (.int (a + b))
  | .sub => .ok (.int (a - b))
  | .mul => .ok (.int (a * b))
  | .div => return .float (← divideInts a b)
  | .floorDiv => if b = 0 then .error .divisionByZero else .ok (.int (Int.fdiv a b))
  | .mod => if b = 0 then .error .divisionByZero else .ok (.int (Int.fmod a b))
  | .pow => powInts a b
  | .bitOr => .ok (.int (bitwise Nat.lor a b))
  | .bitAnd => .ok (.int (bitwise Nat.land a b))
  | .bitXor => .ok (.int (bitwise Nat.xor a b))
  | .shiftLeft =>
    if b < 0 then .error .badValue
    else if largestExponent < b then .error .overflow
    else .ok (.int (a * Int.pow 2 b.toNat))
  | .shiftRight =>
    if b < 0 then .error .badValue
    else if largestExponent < b then .ok (.int (if a < 0 then -1 else 0))
    else .ok (.int (Int.fdiv a (Nat.pow 2 b.toNat : Nat)))

def floatArithmetic (op : BinaryOp) (x y : Binary64) : Except Fault Object :=
  match op with
  | .add => .ok (.float (x.add y))
  | .sub => .ok (.float (x.sub y))
  | .mul => .ok (.float (x.mul y))
  | .div => if y.isZero then .error .divisionByZero else .ok (.float (x.div y))
  | .floorDiv => if y.isZero then .error .divisionByZero else .ok (.float (floorDivMod x y).1)
  | .mod => if y.isZero then .error .divisionByZero else .ok (.float (floorDivMod x y).2)
  | .pow => .ok (.float (Binary64.ofFloat (Float.pow x.toFloat y.toFloat)))
  | _ => .error .wrongType

def numberArithmetic (op : BinaryOp) : Number → Number → Except Fault Object
  | .int a, .int b => intArithmetic op a b
  | a, b => do floatArithmetic op (← toBinary a) (← toBinary b)

/-- A sign before a number, or all its bits turned. -/
def unaryArithmetic (op : UnaryOp) (o : Object) : Except Fault Object :=
  match o.number?, op with
  | some (.int n), .plus => .ok (.int n)
  | some (.int n), .minus => .ok (.int (-n))
  | some (.int n), .invert => .ok (.int (-n - 1))
  | some (.float x), .plus => .ok (.float x)
  | some (.float x), .minus => .ok (.float x.neg)
  | _, _ => .error .wrongType

/-! ## Sequences -/

/-- The largest number of members that is worked out at once. -/
def largestSize : Nat := 10000000

/-- What an object runs through; a stream is used up. -/
def members : Object → Eval (List Object)
  | .text s => return s.toList.map fun c => .text (String.singleton c)
  | .bytes bs => return bs.map fun b => .int b.toNat
  | .list place => Eval.cell place
  | .tuple os => return os
  | .dict place => return (← Eval.table place).map Prod.fst
  | .range a b c =>
    if largestSize < Value.rangeSize a b c then throw .overflow
    else return (Value.rangeMembers a b c).map .int
  | .pairs place => Eval.cell place
  | .stream _ place => do
    let os ← Eval.cell place
    Eval.setCell place []
    return os
  | _ => throw .wrongType

/-- The first members that an object runs through; a stream keeps all others. -/
def firstMembers (n : Nat) : Object → Eval (List Object)
  | .stream _ place => do
    let os ← Eval.cell place
    Eval.setCell place (os.drop n)
    return os.take n
  | o => do return (← members o).take n

def truthy (o : Object) : Eval Bool := return (← Eval.snapshot o).truthy

def requireKey (o : Object) : Eval Unit := do
  unless (← Eval.snapshot o).mayBeKey do throw .wrongType

def equal (a b : Object) : Eval Bool := return (← Eval.snapshot a).same (← Eval.snapshot b)

def lookupKey (k : Object) : List (Object × Object) → Eval (Option Object)
  | [] => return none
  | (k', v) :: rest => do if ← equal k' k then return some v else lookupKey k rest

/-- Store an object under a key; the first of equal keys stays. -/
def storeKey (k v : Object) : List (Object × Object) → Eval (List (Object × Object))
  | [] => return [(k, v)]
  | (k', v') :: rest => do
    if ← equal k' k then return (k', v) :: rest else return (k', v') :: (← storeKey k v rest)

/-- Store an object under a key of the table at a place. -/
def put (place : Nat) (k v : Object) : Eval Unit := do
  requireKey k
  Eval.setTable place (← storeKey k v (← Eval.table place))

/-- The two members of an object that has to be a pair. -/
def pairMembers (o : Object) : Eval (Object × Object) := do
  match ← members o with
  | [k, v] => return (k, v)
  | _ => throw .badValue

/-- Store pairs one after the other in the table at a place. -/
def putAll (place : Nat) : List Object → Eval Unit
  | [] => return ()
  | o :: os => do
    let (k, v) ← pairMembers o
    put place k v
    putAll place os

/-- A new table of pairs, stored one after the other. -/
def tableOf (os : List Object) : Eval Object := do
  let place ← Eval.alloc []
  putAll place os
  return .dict place

/-- What is stored in a table that is made from the object: the pairs of a table, or the members of
anything else. -/
def pairsIn : Object → Eval (List Object)
  | .dict place => Eval.cell place
  | o => members o

def repeatList {α : Type} (n : Int) (xs : List α) : Eval (List α) :=
  if xs.isEmpty then return []
  else if largestSize < n.toNat * xs.length then throw .overflow
  else return (List.replicate n.toNat xs).flatten

def repeatObject (o : Object) (n : Int) : Eval Object := do
  match o with
  | .text s => return .text (String.ofList (← repeatList n s.toList))
  | .bytes bs => return .bytes (← repeatList n bs)
  | .list place => Eval.newList (← repeatList n (← Eval.cell place))
  | .tuple os => return .tuple (← repeatList n os)
  | _ => throw .wrongType

/-- An operator with two operands, but for texts with values put in. -/
def arithmetic (op : BinaryOp) (l r : Object) : Eval Object := do
  match l.number?, r.number? with
  | some a, some b =>
    match op, l, r with
    | .bitOr, .bool p, .bool q => return .bool (p || q)
    | .bitAnd, .bool p, .bool q => return .bool (p && q)
    | .bitXor, .bool p, .bool q => return .bool (p != q)
    | _, _, _ => (numberArithmetic op a b : Except Fault _)
  | _, _ =>
    match op, l, r with
    | .add, .text a, .text b => return .text (a ++ b)
    | .add, .bytes a, .bytes b => return .bytes (a ++ b)
    | .add, .list a, .list b => Eval.newList ((← Eval.cell a) ++ (← Eval.cell b))
    | .add, .tuple a, .tuple b => return .tuple (a ++ b)
    | .bitOr, .dict a, .dict b => tableOf ((← Eval.cell a) ++ (← Eval.cell b))
    | .mul, _, _ =>
      match l.int?, r.int? with
      | none, some n => repeatObject l n
      | some n, none => repeatObject r n
      | _, _ => throw .wrongType
    | _, _, _ => throw .wrongType

/-! ## Comparisons -/

/-- Whether the characters occur in others, one after the other. -/
def occursIn (part : List Char) : List Char → Bool
  | [] => part.isEmpty
  | c :: cs => part.isPrefixOf (c :: cs) || occursIn part cs

/-- Whether bytes occur in others, one after the other. -/
def bytesOccurIn (part : List UInt8) : List UInt8 → Bool
  | [] => part.isEmpty
  | c :: cs => part.isPrefixOf (c :: cs) || bytesOccurIn part cs

/-- Whether one of the objects is equal to another one. -/
def anyEqual (o : Object) : List Object → Eval Bool
  | [] => return false
  | x :: xs => do if ← equal x o then return true else anyEqual o xs

def contains (container o : Object) : Eval Bool := do
  match container, o with
  | .text s, .text part => return occursIn part.toList s.toList
  | .text _, _ => throw .wrongType
  | .bytes bs, .bytes part => return bytesOccurIn part bs
  | .bytes bs, _ =>
    match o.int? with
    | some n => if 0 ≤ n && n < 256 then return bs.contains n.toNat.toUInt8 else throw .badValue
    | none => throw .wrongType
  | .dict place, _ =>
    requireKey o
    return (← lookupKey o (← Eval.table place)).isSome
  | .range a b c, .int n =>
    return if 0 < c then a ≤ n && n < b && (n - a) % c = 0
      else b < n && n ≤ a && (a - n) % (-c) = 0
  | _, _ => anyEqual o (← members container)

/-- Whether two objects are the very same. Small integers and texts are the same if they are
equal. -/
def identical : Object → Object → Bool
  | .none, .none => true
  | .bool a, .bool b => a == b
  | .int a, .int b => a == b && -5 ≤ a && a ≤ 256
  | .text a, .text b => a == b
  | .list a, .list b => a == b
  | .dict a, .dict b => a == b
  | .stream _ a, .stream _ b => a == b
  | .builtin a, .builtin b => a == b
  | .tuple [], .tuple [] => true
  | _, _ => false

def compareObjects (op : CompareOp) (l r : Object) : Eval Bool := do
  let ordered (c : Comparison) : Eval Bool := do
    (Value.holds c (← Eval.snapshot l) (← Eval.snapshot r) : Except Fault _)
  match op with
  | .eq => equal l r
  | .ne => return !(← equal l r)
  | .lt => ordered .lt
  | .le => ordered .le
  | .gt => ordered .gt
  | .ge => ordered .ge
  | .within => contains r l
  | .notWithin => return !(← contains r l)
  | .same => return identical l r
  | .notSame => return !identical l r

/-! ## Parts -/

/-- The element at an index, counted from the end if negative. -/
def elementAt {α : Type} (xs : List α) (i : Int) : Except Fault α :=
  let j := if i < 0 then i + xs.length else i
  if j < 0 then .error .noSuchPosition
  else match xs[j.toNat]? with
    | some x => .ok x
    | none => .error .noSuchPosition

def indexObject (o i : Object) : Eval Object := do
  match o with
  | .dict place =>
    requireKey i
    match ← lookupKey i (← Eval.table place) with
    | some v => return v
    | none => throw .noSuchKey
  | .text s =>
    let some n := i.int? | throw .wrongType
    return .text (String.singleton (← (elementAt s.toList n : Except Fault _)))
  | .bytes bs =>
    let some n := i.int? | throw .wrongType
    return .int (← (elementAt bs n : Except Fault _)).toNat
  | .list place =>
    let some n := i.int? | throw .wrongType
    (elementAt (← Eval.cell place) n : Except Fault _)
  | .tuple os =>
    let some n := i.int? | throw .wrongType
    (elementAt os n : Except Fault _)
  | .range a b c =>
    let some n := i.int? | throw .wrongType
    let size := Value.rangeSize a b c
    let n := if n < 0 then n + size else n
    if 0 ≤ n && n < size then return .int (a + c * n) else throw .noSuchPosition
  | _ => throw .wrongType

/-- The place of an index in a sequence of a size, counted from the end if negative. -/
def indexIn (size : Nat) (i : Int) : Except Fault Nat :=
  let j := if i < 0 then i + size else i
  if 0 ≤ j && j < size then .ok j.toNat else .error .noSuchPosition

/-- Replace what stands at an index or under a key. -/
def setItem (o i v : Object) : Eval Unit := do
  match o with
  | .dict place => put place i v
  | .list place =>
    let some n := i.int? | throw .wrongType
    let os ← Eval.cell place
    Eval.setCell place (os.set (← (indexIn os.length n : Except Fault _)) v)
  | _ => throw .wrongType

/-- A bound of a slice moved into the range from `low` to `high`. -/
def clampBound (size low high : Int) (default : Int) : Option Int → Int
  | none => default
  | some i =>
    let i := if i < 0 then i + size else i
    if i < low then low else if high < i then high else i

/-- The places that a slice takes from a sequence of a size, as a range from the first place up to
but without the second, for a step other than zero. -/
def sliceRange (size : Nat) (start stop : Option Int) (step : Int) : Int × Int :=
  if 0 < step then
    (clampBound size 0 size 0 start, clampBound size 0 size size stop)
  else
    (clampBound size (-1) (size - 1) (size - 1) start, clampBound size (-1) (size - 1) (-1) stop)

def pick {α : Type} (xs : List α) (a b step : Int) : List α :=
  (Value.rangeMembers a b step).filterMap fun i => xs[i.toNat]?

def sliceBound? : Object → Except Fault (Option Int)
  | .none => .ok none
  | o =>
    match o.int? with
    | some n => .ok (some n)
    | none => .error .wrongType

def sliceObject (o start stop step : Object) : Eval Object := do
  let bounds (size : Nat) : Eval (Int × Int × Int) := do
    let step := (← (sliceBound? step : Except Fault _)).getD 1
    let start ← (sliceBound? start : Except Fault _)
    let stop ← (sliceBound? stop : Except Fault _)
    if step = 0 then throw .badValue
    let (a, b) := sliceRange size start stop step
    return (a, b, step)
  match o with
  | .text s =>
    let (a, b, step) ← bounds s.length
    return .text (String.ofList (pick s.toList a b step))
  | .bytes bs =>
    let (a, b, step) ← bounds bs.length
    return .bytes (pick bs a b step)
  | .list place =>
    let os ← Eval.cell place
    let (a, b, step) ← bounds os.length
    Eval.newList (pick os a b step)
  | .tuple os =>
    let (a, b, step) ← bounds os.length
    return .tuple (pick os a b step)
  | .range first last stride =>
    let (a, b, step) ← bounds (Value.rangeSize first last stride)
    return .range (first + stride * a) (first + stride * b) (stride * step)
  | _ => throw .wrongType

end Jade.Script
