import Jade.Script.Expr
import Jade.Script.Lexeme

/-!
# Grammar of scripts

Expressions are read by recursive descent, operators by the climbing of their ranks. The descent is
bounded by the number of lexemes: each level of brackets passes a fixed number of rules.
-/

namespace Jade.Script

abbrev Rule (α : Type) := StateT (List Lexeme) (Except Fault) α

/-- The words with a role of their own, which cannot be names. -/
def keywords : List String :=
  ["False", "None", "True", "and", "as", "assert", "async", "await", "break", "class", "continue",
   "def", "del", "elif", "else", "except", "finally", "for", "from", "global", "if", "import", "in",
   "is", "lambda", "nonlocal", "not", "or", "pass", "raise", "return", "try", "while", "with",
   "yield"]

namespace Rule

def peek : Rule (Option Lexeme) := return (← get).head?

def skip : Rule Unit := modify List.tail

def fail {α : Type} : Rule α := throw .malformed

def accept (l : Lexeme) : Rule Bool := do
  if (← peek) == some l then
    skip
    return true
  else return false

def expect (l : Lexeme) : Rule Unit := do
  unless ← accept l do fail

def acceptOp (o : String) : Rule Bool := accept (.op o)

def expectOp (o : String) : Rule Unit := expect (.op o)

def acceptWord (w : String) : Rule Bool := accept (.name w)

end Rule

open Rule

/-- An operator with two operands and its rank; higher ranks bind tighter. -/
def binaryOp? : String → Option (Nat × BinaryOp)
  | "|" => some (1, .bitOr)
  | "^" => some (2, .bitXor)
  | "&" => some (3, .bitAnd)
  | "<<" => some (4, .shiftLeft)
  | ">>" => some (4, .shiftRight)
  | "+" => some (5, .add)
  | "-" => some (5, .sub)
  | "*" => some (6, .mul)
  | "/" => some (6, .div)
  | "//" => some (6, .floorDiv)
  | "%" => some (6, .mod)
  | _ => none

def compareOp : Rule (Option CompareOp) := do
  match ← get with
  | .op "==" :: _ => skip; return some .eq
  | .op "!=" :: _ => skip; return some .ne
  | .op "<" :: _ => skip; return some .lt
  | .op "<=" :: _ => skip; return some .le
  | .op ">" :: _ => skip; return some .gt
  | .op ">=" :: _ => skip; return some .ge
  | .name "in" :: _ => skip; return some .within
  | .name "not" :: .name "in" :: rest =>
    set rest
    return some .notWithin
  | .name "is" :: .name "not" :: rest =>
    set rest
    return some .notSame
  | .name "is" :: _ => skip; return some .same
  | _ => return none

/-- Whether the next lexeme cannot start an expression, so that a list ends before it. -/
def endsList : Option Lexeme → Bool
  | none | some .newline => true
  | some (.op o) => [")", "]", "\x7d", "=", ";", ":"].contains o
  | _ => false

def joinTexts (acc : String) : List Lexeme → Except Fault (String × List Lexeme)
  | .text s :: rest => joinTexts (acc ++ s) rest
  | .bytes _ :: _ => .error .malformed
  | rest => .ok (acc, rest)

def joinBytes (acc : List UInt8) : List Lexeme → Except Fault (List UInt8 × List Lexeme)
  | .bytes bs :: rest => joinBytes (acc ++ bs) rest
  | .text _ :: _ => .error .malformed
  | rest => .ok (acc, rest)

mutual

def expression : Nat → Rule Expr
  | 0 => fail
  | n + 1 => do
    let yes ← disjunction n
    if ← acceptWord "if" then
      let cond ← disjunction n
      expect (.name "else")
      return .choice cond yes (← expression n)
    else return yes

/-- Operands joined by `or`. -/
def disjunction : Nat → Rule Expr
  | 0 => fail
  | n + 1 => do
    let left ← conjunction n
    if ← acceptWord "or" then return .either left (← disjunction n) else return left

/-- Operands joined by `and`. -/
def conjunction : Nat → Rule Expr
  | 0 => fail
  | n + 1 => do
    let left ← inversion n
    if ← acceptWord "and" then return .both left (← conjunction n) else return left

def inversion : Nat → Rule Expr
  | 0 => fail
  | n + 1 => do
    if ← acceptWord "not" then return .negation (← inversion n)
    else
      let first ← operation n 1
      match ← comparisons n with
      | [] => return first
      | rest => return .compare first rest

def comparisons : Nat → Rule (List (CompareOp × Expr))
  | 0 => fail
  | n + 1 => do
    match ← compareOp with
    | none => return []
    | some op =>
      let operand ← operation n 1
      return (op, operand) :: (← comparisons n)

def operation : Nat → Nat → Rule Expr
  | 0, _ => fail
  | n + 1, rank => do operationRest n rank (← factor n)

/-- The operators of at least a rank that follow an operand. -/
def operationRest : Nat → Nat → Expr → Rule Expr
  | 0, _, _ => fail
  | n + 1, rank, left => do
    match ← peek with
    | some (.op o) =>
      match binaryOp? o with
      | some (r, op) =>
        if rank ≤ r then
          skip
          let right ← operation n (r + 1)
          operationRest n rank (.binary op left right)
        else return left
      | none => return left
    | _ => return left

def factor : Nat → Rule Expr
  | 0 => fail
  | n + 1 => do
    if ← acceptOp "-" then return .unary .minus (← factor n)
    else if ← acceptOp "+" then return .unary .plus (← factor n)
    else if ← acceptOp "~" then return .unary .invert (← factor n)
    else
      let base ← primaryRest n (← atom n)
      if ← acceptOp "**" then return .binary .pow base (← factor n) else return base

/-- Members, indices and calls that follow an operand. -/
def primaryRest : Nat → Expr → Rule Expr
  | 0, _ => fail
  | n + 1, e => do
    if ← acceptOp "." then
      match ← peek with
      | some (.name s) =>
        if keywords.contains s then fail
        else
          skip
          primaryRest n (.member e s)
      | _ => fail
    else if ← acceptOp "[" then
      let indexed ← subscript n e
      expectOp "]"
      primaryRest n indexed
    else if ← acceptOp "(" then
      let (args, named) ← arguments n
      expectOp ")"
      primaryRest n (.call e args named)
    else return e

/-- What stands between the brackets of an index or a slice. -/
def subscript : Nat → Expr → Rule Expr
  | 0, _ => fail
  | n + 1, e => do
    let start ← if (← peek) == some (.op ":") then pure none else some <$> expressions n
    if ← acceptOp ":" then
      let stop ← sliceBound n
      let step ← if ← acceptOp ":" then sliceBound n else pure none
      return .slice e start stop step
    else match start with
      | some i => return .index e i
      | none => fail

def sliceBound : Nat → Rule (Option Expr)
  | 0 => fail
  | n + 1 => do
    if endsList (← peek) then return none else return some (← expression n)

/-- The arguments of a call: by place, then by name. -/
def arguments : Nat → Rule (List Expr × List (String × Expr))
  | 0 => fail
  | n + 1 => do
    match ← get with
    | .op ")" :: _ => return ([], [])
    | .name s :: .op "=" :: rest =>
      if keywords.contains s then fail
      set rest
      let value ← expression n
      let more ← moreArguments n
      if !more.1.isEmpty || more.2.any (·.1 == s) then fail
      return ([], (s, value) :: more.2)
    | _ =>
      let value ← expression n
      let more ← moreArguments n
      return (value :: more.1, more.2)

def moreArguments : Nat → Rule (List Expr × List (String × Expr))
  | 0 => fail
  | n + 1 => do
    if ← acceptOp "," then arguments n else return ([], [])

/-- One expression, or several with commas as a tuple. -/
def expressions : Nat → Rule Expr
  | 0 => fail
  | n + 1 => do
    let first ← expression n
    if ← acceptOp "," then return .tuple (first :: (← items n)) else return first

/-- Expressions with commas between them and maybe one at the end. -/
def items : Nat → Rule (List Expr)
  | 0 => fail
  | n + 1 => do
    if endsList (← peek) then return []
    else
      let first ← expression n
      if ← acceptOp "," then return first :: (← items n) else return [first]

def entries : Nat → Rule (List (Expr × Expr))
  | 0 => fail
  | n + 1 => do
    if endsList (← peek) then return []
    else
      let k ← expression n
      expectOp ":"
      let v ← expression n
      if ← acceptOp "," then return (k, v) :: (← entries n) else return [(k, v)]

/-- A constant, a name, or something in brackets. -/
def atom : Nat → Rule Expr
  | 0 => fail
  | n + 1 => do
    match ← peek with
    | some (.int k) =>
      skip
      return .const (.int k)
    | some (.float x) =>
      skip
      return .const (.float x)
    | some (.text _) =>
      let (s, rest) ← (joinTexts "" (← get) : Except Fault _)
      set rest
      return .const (.text s)
    | some (.bytes _) =>
      let (bs, rest) ← (joinBytes [] (← get) : Except Fault _)
      set rest
      return .const (.bytes bs)
    | some (.name s) =>
      skip
      match s with
      | "None" => return .const .none
      | "True" => return .const (.bool true)
      | "False" => return .const (.bool false)
      | _ => if keywords.contains s then fail else return .name s
    | some (.op "(") =>
      skip
      if ← acceptOp ")" then return .tuple []
      else
        let e ← expressions n
        expectOp ")"
        return e
    | some (.op "[") =>
      skip
      let es ← items n
      expectOp "]"
      return .list es
    | some (.op "\x7b") =>
      skip
      let ps ← entries n
      expectOp "\x7d"
      return .dict ps
    | _ => fail

end

def levels (ls : List Lexeme) : Nat := 20 * (ls.length + 1)

/-! ## Statements -/

/-- The operator of an assignment that combines. -/
def updateOp? : String → Option BinaryOp
  | "+=" => some .add
  | "-=" => some .sub
  | "*=" => some .mul
  | "/=" => some .div
  | "//=" => some .floorDiv
  | "%=" => some .mod
  | "**=" => some .pow
  | "|=" => some .bitOr
  | "&=" => some .bitAnd
  | "^=" => some .bitXor
  | "<<=" => some .shiftLeft
  | ">>=" => some .shiftRight
  | _ => none

mutual

def asTarget : Expr → Except Fault Target
  | .name s => .ok (.name s)
  | .tuple es | .list es => return .tuple (← asTargets es)
  | .index e i => .ok (.index e i)
  | .member e _ => .ok (.member e)
  | _ => .error .malformed

def asTargets : List Expr → Except Fault (List Target)
  | [] => .ok []
  | e :: es => return (← asTarget e) :: (← asTargets es)

end

/-- The rest of an assignment, after the expressions read so far, latest first. -/
def assignment (levels : Nat) : Nat → List Expr → Rule Statement
  | 0, _ => fail
  | n + 1, read => do
    if ← acceptOp "=" then assignment levels n ((← expressions levels) :: read)
    else match read with
      | [] => fail
      | [e] => return .expr e
      | value :: targets => return .assign (← (asTargets targets.reverse : Except Fault _)) value

def statement (levels : Nat) : Rule Statement := do
  if ← acceptWord "pass" then return .pass
  let first ← expressions levels
  match (← peek).bind fun l => match l with | .op o => updateOp? o | _ => none with
  | some op =>
    skip
    match ← (asTarget first : Except Fault _) with
    | .tuple _ => fail
    | target => return .update target op (← expressions levels)
  | none => assignment levels levels [first]

/-- Statements with semicolons or line ends between them. -/
def statements (levels : Nat) : Nat → Rule (List Statement)
  | 0 => fail
  | n + 1 => do
    match ← peek with
    | none => return []
    | some .newline =>
      skip
      statements levels n
    | _ =>
      let first ← statement levels
      match ← peek with
      | none => return [first]
      | some .newline =>
        skip
        return first :: (← statements levels n)
      | some (.op ";") =>
        skip
        if (← peek) == some (.op ";") then fail
        return first :: (← statements levels n)
      | _ => fail

/-- A text that is one expression; blanks before it do not count. -/
def readExpression (s : String) : Except Fault Expr := do
  let ls ← lexemes (String.ofList (s.toList.dropWhile fun c => c == ' ' || c == '\t'))
  let (e, rest) ← (expressions (levels ls)).run ls
  if rest.all (· == .newline) then return e else throw .malformed

def readStatements (s : String) : Except Fault (List Statement) := do
  let ls ← lexemes s
  let (found, _) ← (statements (levels ls) (ls.length + 1)).run ls
  return found

end Jade.Script
