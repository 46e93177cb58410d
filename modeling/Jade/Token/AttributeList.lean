import Jade.Text.Blank
import Jade.Text.Split
import Jade.Token

/-!
# Attribute lists

The text between the parentheses of a tag is read character by character. The state knows whether a
name or a value is being read and which brackets or quotes are open; a separator outside of them
ends an attribute. A value is fixed if it is made of quoted text and digits only.
-/

namespace Jade

/-- The index of the closing delimiter that balances the opening ones before it, where delimiters in
quotes count too; zero if there is none. The counts are of the delimiters seen so far. -/
def closingIndexFrom (opening closing : String) (index opened closed : Nat) : List Char → Nat
  | [] => 0
  | c :: cs =>
    if String.singleton c == opening then
      closingIndexFrom opening closing (index + 1) (opened + 1) closed cs
    else if String.singleton c == closing then
      if closed + 1 = opened then index
      else closingIndexFrom opening closing (index + 1) opened (closed + 1) cs
    else closingIndexFrom opening closing (index + 1) opened closed cs

/-- The index of the closing delimiter that balances the opening ones before it, or zero. -/
def closingIndex (opening closing : String) (cs : List Char) : Nat :=
  closingIndexFrom opening closing 0 0 0 cs

namespace AttributeList

/-- What is being read. -/
inductive Mode where
  | key
  | quotedKey
  | value
  | expr
  | array
  | object
  | string
  deriving DecidableEq, Repr, Inhabited

def Mode.holdsSeparators : Mode → Bool
  | expr | array | object | string => true
  | key | quotedKey | value => false

/-- Whether a value read in this mode is computed. -/
def Mode.isComputed : Mode → Bool
  | expr | array | object => true
  | key | quotedKey | value | string => false

/-- What was read so far. -/
structure State where
  /-- What is being read, innermost first; outside of all it is a name. -/
  within : List Mode := []
  /-- The name of the current attribute. -/
  key : String := ""
  /-- The value of the current attribute. -/
  val : String := ""
  /-- The quote that opened the last quoted text of the value. -/
  quote : String := ""
  /-- Whether the value is fixed so far. -/
  fixedSoFar : Bool := true
  /-- The attributes that are complete. -/
  table : Table String AttrText := {}
  /-- The names of the complete attributes with fixed values. -/
  fixed : List String := []
  deriving Repr, Inhabited

def State.mode (s : State) : Mode := s.within.headD .key

def State.push (s : State) (m : Mode) : State := { s with within := m :: s.within }

def State.pop (s : State) : State := { s with within := s.within.tail }

def State.addKey (s : State) (c : Char) : State := { s with key := s.key.push c }

def State.addVal (s : State) (c : Char) : State := { s with val := s.val.push c }

/-- A piece of text before a closing brace with its interpolation, if it has one, written as a sum
of quoted texts. -/
def interpolatePiece? (quote piece : String) : Option String :=
  match splitAtText "#\x7b" piece with
  | before :: after@(_ :: _) =>
    let inner := joinWith "#\x7b" after
    if inner.isEmpty then none else some (before ++ quote ++ "+" ++ inner ++ "+" ++ quote)
  | _ => none

/-- Pieces of text between closing braces with their interpolations written as sums, and whether
there were any. -/
def interpolatePieces (quote : String) : List String → String × Bool
  | [] => ("", false)
  | [last] => (last, false)
  | piece :: rest =>
    let (tail, found) := interpolatePieces quote rest
    match interpolatePiece? quote piece with
    | some sum => (sum ++ tail, true)
    | none => (piece ++ "\x7d" ++ tail, found)

/-- A value with its interpolations written as sums of quoted texts, and whether there were any. -/
def interpolate (quote val : String) : String × Bool :=
  interpolatePieces quote (splitAtChar '\x7d' val)

def addFixed (fixed : List String) (name : String) : List String :=
  if fixed.contains name then fixed else fixed ++ [name]

/-- End an attribute at a separator. Nothing happens to an empty name but that its value is
trimmed. A mark at the end of a name declares a computed value fixed. -/
def State.finish (s : State) : State :=
  let s := { s.push .key with val := strip s.val, key := strip s.key }
  if s.key.isEmpty then s
  else
    let marked := !s.fixedSoFar && s.key.endsWith "!"
    let key := stripQuotes (if marked then String.ofList s.key.toList.dropLast else s.key)
    let fixedSoFar := s.fixedSoFar || marked
    if s.val.isEmpty then
      { s with
        table := s.table.set key .flag
        fixed := if fixedSoFar then addFixed s.fixed key else s.fixed
        key := "", val := "", quote := "", fixedSoFar := true }
    else
      let (val, found) := interpolate s.quote s.val
      { s with
        table := s.table.set key (.expr val)
        fixed := if fixedSoFar && !found then addFixed s.fixed key else s.fixed
        key := "", val := "", quote := "", fixedSoFar := true }

/-- Whether a character ends an attribute, or would outside of brackets and quotes. A blank does so
after a value that stands alone. -/
def State.isSeparator (s : State) (c : Char) : Bool :=
  c == ',' || c == '\n' ||
    (c == ' ' && s.mode == .value && s.within.length == 1 && !(strip s.val).isEmpty)

/-- Read an equals sign, which is written `real`. -/
def State.equals (s : State) (real : Char) : State :=
  match s.mode with
  | .quotedKey => s.addKey real
  | .value | .expr | .array | .string | .object => s.addVal real
  | .key => s.push .value

def State.quoteMark (s : State) (c : Char) : State :=
  match s.mode with
  | .key => s.push .quotedKey
  | .quotedKey => s.pop
  | .string => (if s.quote == String.singleton c then s.pop else s).addVal c
  | _ => { (s.push .string).addVal c with quote := String.singleton c }

def State.plain (s : State) (c : Char) : State :=
  let stays := s.mode == .key || s.mode == .string || c.isDigit
  let s : State := { s with fixedSoFar := s.fixedSoFar && stays }
  if s.mode == .key || s.mode == .quotedKey then s.addKey c else s.addVal c

/-- Read one character; with `colons`, a colon counts as an equals sign. -/
def step (colons : Bool) (s : State) (real : Char) : State :=
  let c := if colons && real == ':' then '=' else real
  let s : State := { s with fixedSoFar := s.fixedSoFar && !s.mode.isComputed }
  if s.isSeparator c then
    if s.mode.holdsSeparators then s.addVal c else s.finish
  else if c == '=' then s.equals real
  else if c == '(' then
    (if s.mode == .value || s.mode == .expr then s.push .expr else s).addVal c
  else if c == ')' then
    (if s.mode == .value || s.mode == .expr then s.pop else s).addVal c
  else if c == '\x7b' then (if s.mode == .value then s.push .object else s).addVal c
  else if c == '\x7d' then (if s.mode == .object then s.pop else s).addVal c
  else if c == '[' then (if s.mode == .value then s.push .array else s).addVal c
  else if c == ']' then (if s.mode == .array then s.pop else s).addVal c
  else if c == '"' || c == '\'' then s.quoteMark c
  else s.plain c

/-- Read the text between the parentheses; its end separates too. -/
def read (colons : Bool) (cs : List Char) : State :=
  (cs ++ [',']).foldl (step colons) {}

end AttributeList

/-- An attribute list in parentheses: its token and the rest. A list that never closes is read as
empty, and only its opening parenthesis is taken. -/
def Rules.attrs? (colons : Bool) (cs : List Char) : Option (Token.Body × List Char) :=
  match cs with
  | '(' :: _ =>
    let index := closingIndex "(" ")" cs
    let done := AttributeList.read colons ((cs.take index).drop 1)
    some (.attrs done.table done.fixed, cs.drop (index + 1))
  | _ => none

end Jade
