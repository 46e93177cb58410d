import Jade.Value

/-!
# Comparing values

Values are equal if they stand for the same: numbers of any type by their exact value, sequences
member by member, tables by their pairs in any order. Numbers, texts, bytes and sequences of the
same type are also ordered; to order anything else is a fault.
-/

namespace Jade.Value

/-- A number among the values: an integer or a binary fraction. -/
inductive Number where
  /-- An integer; truth values count as one or zero. -/
  | int (n : Int)
  /-- A binary fraction. -/
  | float (x : Binary64)
  deriving DecidableEq, Repr

def number? : Value → Option Number
  | bool b => some (.int (if b then 1 else 0))
  | int n => some (.int n)
  | float x => some (.float x)
  | _ => Option.none

/-- How two numbers compare, exactly; not at all if one of them is no number. -/
def Number.compare? : Number → Number → Option Ordering
  | .int a, .int b => some (compare a b)
  | .int a, .float y => (y.compareInt? a).map Ordering.swap
  | .float x, .int b => x.compareInt? b
  | .float x, .float y => x.compare? y

/-- Whether two values that are no containers are equal. -/
def sameLeaf (v w : Value) : Bool :=
  match v.number?, w.number? with
  | some a, some b => a.compare? b == some .eq
  | _, _ =>
    match v, w with
    | none, none => true
    | text a, text b => a == b
    | bytes a, bytes b => a == b
    | undefined _, undefined _ => true
    | range a b c, range a' b' c' =>
      let n := rangeSize a b c
      n == rangeSize a' b' c' && (n == 0 || (a == a' && (n == 1 || c == c')))
    | thing k s, thing k' s' => k == k' && s == s'
    | _, _ => false

mutual

def same : Value → Value → Bool
  | list xs, list ys => sameAll xs ys
  | tuple xs, tuple ys => sameAll xs ys
  | dict ps, dict qs => ps.length == qs.length && samePairs ps qs
  | dict ps, ordered qs => ps.length == qs.length && samePairs ps qs
  | ordered ps, dict qs => ps.length == qs.length && samePairs ps qs
  | ordered ps, ordered qs => sameItems ps qs
  | v, w => sameLeaf v w

/-- Whether two sequences are equal member by member. -/
def sameAll : List Value → List Value → Bool
  | [], [] => true
  | v :: vs, w :: ws => same v w && sameAll vs ws
  | _, _ => false

/-- Whether each pair has an equal one in a table. -/
def samePairs : List (Value × Value) → List (Value × Value) → Bool
  | [], _ => true
  | (k, v) :: ps, qs => (qs.any fun q => same k q.1 && same v q.2) && samePairs ps qs

def sameItems : List (Value × Value) → List (Value × Value) → Bool
  | [], [] => true
  | (k, v) :: ps, (k', v') :: qs => same k k' && same v v' && sameItems ps qs
  | _, _ => false

end

/-- A comparison of order. -/
inductive Comparison where
  | lt
  | le
  | gt
  | ge
  deriving DecidableEq, Repr

/-- Whether a comparison holds of things in this order. -/
def Comparison.accepts : Comparison → Ordering → Bool
  | .lt, o => o == .lt
  | .le, o => o != .gt
  | .gt, o => o == .gt
  | .ge, o => o != .lt

def compareChars : List Char → List Char → Ordering
  | [], [] => .eq
  | [], _ :: _ => .lt
  | _ :: _, [] => .gt
  | a :: as, b :: bs => (compare a.toNat b.toNat).then (compareChars as bs)

def compareBytes : List UInt8 → List UInt8 → Ordering
  | [], [] => .eq
  | [], _ :: _ => .lt
  | _ :: _, [] => .gt
  | a :: as, b :: bs => (compare a.toNat b.toNat).then (compareBytes as bs)

/-- Whether a comparison holds of two values that are no sequences. -/
def holdsLeaf (op : Comparison) (v w : Value) : Except Fault Bool :=
  match v.number?, w.number? with
  | some a, some b => .ok ((a.compare? b).any op.accepts)
  | _, _ =>
    match v, w with
    | text a, text b => .ok (op.accepts (compareChars a.toList b.toList))
    | bytes a, bytes b => .ok (op.accepts (compareBytes a b))
    | _, _ => .error .wrongType

mutual

def holds (op : Comparison) : Value → Value → Except Fault Bool
  | list xs, list ys => holdsAll op xs ys
  | tuple xs, tuple ys => holdsAll op xs ys
  | v, w => holdsLeaf op v w

/-- Whether a comparison holds of two sequences: it is decided at the first place where they differ,
else by their lengths. -/
def holdsAll (op : Comparison) : List Value → List Value → Except Fault Bool
  | v :: vs, w :: ws => if same v w then holdsAll op vs ws else holds op v w
  | vs, ws => .ok (op.accepts (compare vs.length ws.length))

end

mutual

/-- Whether a value can be a key of a table: it and all its members never change. -/
def mayBeKey : Value → Bool
  | list _ | dict _ | ordered _ | pairs _ => false
  | tuple xs => mayBeKeys xs
  | _ => true

def mayBeKeys : List Value → Bool
  | [] => true
  | v :: vs => mayBeKey v && mayBeKeys vs

end

end Jade.Value
