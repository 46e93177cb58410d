import Jade.Decimal.Fixed
import Jade.Decimal.Reader
import Jade.Script.Operators
import Jade.Text.Printable
import Jade.Value.Text

/-!
# Texts with values put in

A text may hold places that begin with a percent sign: how a value is written there is said by
flags, a width, a precision and a letter. Values come from a tuple in order, from a table by name,
or are a single object.
-/

namespace Jade.Script

/-- A width or a precision. -/
inductive Extent where
  | none
  | given (n : Nat)
  | fromArgs
  deriving DecidableEq, Repr

/-- A place for a value. -/
structure Placeholder where
  /-- The name of the value, if it comes from a table. -/
  key : Option String := none
  /-- The flags as written. -/
  flags : List Char := []
  /-- The least number of characters. -/
  width : Extent := .none
  /-- The number of digits, or the largest number of characters. -/
  precision : Extent := .none
  /-- The letter. -/
  letter : Char
  deriving Repr

/-- A piece of a text. -/
inductive FormatPiece where
  | char (c : Char)
  | place (p : Placeholder)
  deriving Repr

/-- The name in parentheses, which may themselves be nested, and the rest. -/
def keyName : Nat → List Char → List Char → Option (String × List Char)
  | _, _, [] => none
  | depth, acc, c :: cs =>
    if c == '(' then keyName (depth + 1) (c :: acc) cs
    else if c == ')' then
      match depth with
      | 0 => some (String.ofList acc.reverse, cs)
      | d + 1 => keyName d (c :: acc) cs
    else keyName depth (c :: acc) cs

def extent (default : Extent) : List Char → Extent × List Char
  | '*' :: cs => (.fromArgs, cs)
  | cs =>
    match cs.span Char.isDigit with
    | ([], rest) => (default, rest)
    | (ds, rest) => (.given (Decimal.ofDigits ds), rest)

/-- A place after its percent sign, and the rest. -/
def placeholderAt (cs : List Char) : Except Fault (Placeholder × List Char) := do
  let (key, cs) ← match cs with
    | '(' :: rest =>
      match keyName 0 [] rest with
      | some (name, rest) => pure (some name, rest)
      | none => throw .badValue
    | _ => pure (none, cs)
  let (flags, cs) := cs.span fun c => "-+ #0".contains c
  let (width, cs) := extent .none cs
  let (precision, cs) := match cs with
    | '.' :: rest => extent (.given 0) rest
    | _ => (.none, cs)
  let cs := match cs with
    | c :: rest => if c == 'h' || c == 'l' || c == 'L' then rest else cs
    | [] => cs
  match cs with
  | letter :: rest => return ({ key, flags, width, precision, letter }, rest)
  | [] => throw .badValue

/-- The pieces of a text, reading at most so many. -/
def placeholders : Nat → List Char → List (Except Fault FormatPiece)
  | 0, _ => []
  | _ + 1, [] => []
  | fuel + 1, '%' :: cs =>
    match placeholderAt cs with
    | .ok (p, rest) => .ok (.place p) :: placeholders fuel rest
    | .error e => [.error e]
  | fuel + 1, c :: cs => .ok (.char c) :: placeholders fuel cs

/-! ## Writing a value -/

/-- Characters filled up to a width: on the right, with zeros after the sign, or on the left. -/
def fill (p : Placeholder) (width : Nat) (sign body : String) (zeros : Bool) : String :=
  let missing := width - (sign.length + body.length)
  if p.flags.contains '-' then sign ++ body ++ String.ofList (List.replicate missing ' ')
  else if zeros && p.flags.contains '0' then
    sign ++ String.ofList (List.replicate missing '0') ++ body
  else String.ofList (List.replicate missing ' ') ++ sign ++ body

def signText (p : Placeholder) (negative : Bool) : String :=
  if negative then "-" else if p.flags.contains '+' then "+"
  else if p.flags.contains ' ' then " " else ""

/-- The integer for a letter that writes integers; other numbers may be cut. -/
def formatInt (cut : Bool) (o : Object) : Except Fault Int :=
  match o.number? with
  | some (.int n) => .ok n
  | some (.float x) =>
    if cut then
      match x.trunc? with
      | some n => .ok n
      | none => if x.isNaN then .error .badValue else .error .overflow
    else .error .wrongType
  | none => .error .wrongType

/-- An integer in a base, with a mark in front if the flags ask for it. -/
def integerText (p : Placeholder) (width : Nat) (precision : Option Nat) (base : Nat)
    (mark : String) (upper : Bool) (n : Int) : String :=
  let ds := Nat.toDigits base n.natAbs
  let ds := List.replicate (precision.getD 0 - ds.length) '0' ++ ds
  let body := String.ofList ds
  let body := if upper then body.toUpper else body
  let mark := if p.flags.contains '#' then mark else ""
  fill p width (signText p (n < 0) ++ mark) body true

def fractionText (p : Placeholder) (width : Nat) (precision : Option Nat) (x : Binary64) : String :=
  let lower := p.letter.toLower
  let alt := p.flags.contains '#'
  let digits := precision.getD 6
  let body := match x.toRatio? with
    | none => if x.isNaN then "nan" else "inf"
    | some (num, den) =>
      if lower == 'f' then Fixed.fixed num.natAbs den digits alt
      else if lower == 'e' then Fixed.exponential num.natAbs den digits alt
      else Fixed.general num.natAbs den digits alt
  let body := if p.letter.isUpper then body.toUpper else body
  fill p width (signText p (x.isNegative && !x.isNaN)) body true

/-- A text in which only ASCII stands for itself. -/
def asciiOnly (s : String) : String :=
  String.ofList (s.toList.flatMap fun c => if c.toNat < 128 then [c] else numberEscape c)

def writeValue (p : Placeholder) (width : Nat) (precision : Option Nat) (o : Object) :
    Eval String := do
  let cutTo (s : String) : String := match precision with
    | some n => String.ofList (s.toList.take n)
    | none => s
  match p.letter with
  | 's' => return fill p width "" (cutTo (← Eval.snapshot o).display) false
  | 'r' => return fill p width "" (cutTo (← Eval.snapshot o).inside) false
  | 'a' => return fill p width "" (cutTo (asciiOnly (← Eval.snapshot o).inside)) false
  | 'd' | 'i' | 'u' =>
    return integerText p width precision 10 "" false (← (formatInt true o : Except Fault _))
  | 'x' =>
    return integerText p width precision 16 "0x" false (← (formatInt false o : Except Fault _))
  | 'X' =>
    return integerText p width precision 16 "0X" true (← (formatInt false o : Except Fault _))
  | 'o' =>
    return integerText p width precision 8 "0o" false (← (formatInt false o : Except Fault _))
  | 'e' | 'E' | 'f' | 'F' | 'g' | 'G' =>
    match o.number? with
    | some n => return fractionText p width precision (← (toBinary n : Except Fault _))
    | none => throw .wrongType
  | 'c' =>
    match o with
    | .text s => if s.length = 1 then return fill p width "" s false else throw .wrongType
    | _ =>
      match o.int? with
      | some n =>
        if 0 ≤ n && n < 0x110000 then
          return fill p width "" (String.singleton (Char.ofNat n.toNat)) false
        else throw .overflow
      | none => throw .wrongType
  | _ => throw .badValue

/-! ## All places -/

/-- Where values come from: those of a tuple that are left, or a single object that was used or not;
and a table for places with names. -/
structure FormatArgs where
  left : List Object
  table : Option Object

def FormatArgs.next (a : FormatArgs) : Except Fault (Object × FormatArgs) :=
  match a.left with
  | o :: left => .ok (o, { a with left })
  | [] => .error .wrongType

/-- The number for a width or a precision. A negative width means the other side. -/
def takeExtent (a : FormatArgs) : Extent → Except Fault (Option Int × FormatArgs)
  | .none => .ok (none, a)
  | .given n => .ok (some n, a)
  | .fromArgs => do
    let (o, a) ← a.next
    match o with
    | .int n => return (some n, a)
    | .bool b => return (some (if b then 1 else 0), a)
    | _ => throw .wrongType

def writePlace (a : FormatArgs) (p : Placeholder) : Eval (String × FormatArgs) := do
  let named ← match p.key with
    | none => pure none
    | some key =>
      match a.table with
      | none => throw .wrongType
      | some table => some <$> indexObject table (.text key)
  let a := if named.isSome then { a with left := [] } else a
  let (width, a) ← (takeExtent a p.width : Except Fault _)
  let (precision, a) ← (takeExtent a p.precision : Except Fault _)
  let p := if width.any (· < 0) then { p with flags := '-' :: p.flags } else p
  let width := (width.map Int.natAbs).getD 0
  let precision := precision.map Int.toNat
  if p.letter == '%' then return ("%", a)
  let (o, a) ← match named with
    | some o => pure (o, a)
    | none => (a.next : Except Fault _)
  return (← writeValue p width precision o, a)

/-- Write the pieces of a text one after the other. -/
def writePieces (a : FormatArgs) (acc : String) :
    List (Except Fault FormatPiece) → Eval (String × FormatArgs)
  | [] => return (acc, a)
  | .error e :: _ => throw e
  | .ok (.char c) :: rest => writePieces a (acc.push c) rest
  | .ok (.place p) :: rest => do
    let (s, a) ← writePlace a p
    writePieces a (acc ++ s) rest

/-- Whether names can be looked up in an object. -/
def holdsNames : Object → Bool
  | .dict _ | .list _ | .bytes _ | .range _ _ _ => true
  | _ => false

/-- A text with values put in. Values that are left over are a fault, unless names can be looked up
in them. -/
def formatText (s : String) (arg : Object) : Eval Object := do
  let a : FormatArgs := match arg with
    | .tuple os => { left := os, table := none }
    | _ => { left := [arg], table := if holdsNames arg then some arg else none }
  let (out, a) ← writePieces a "" (placeholders (s.length + 1) s.toList)
  if !a.left.isEmpty && a.table.isNone then throw .wrongType
  return .text out

end Jade.Script
