import Jade.Token.Rules
import Jade.Token.AttributeList

/-!
# Sources

A template that is being read: the characters left, the line, the indentations that are open and the
tokens that were read ahead. A source gives one token after the other. Reading a token may fail, and
what was read until then stays read.
-/

namespace Jade

/-- What the lines of a template are indented with. -/
inductive IndentStyle where
  | tabs
  | spaces
  deriving DecidableEq, Repr, Inhabited

/-- A template that is being read. -/
structure Source where
  /-- The characters left. -/
  rest : List Char
  /-- The current line, from one. -/
  line : Nat := 1
  /-- The widths of the open indentations, innermost first. -/
  indents : List Nat := []
  /-- Tokens that were read ahead. -/
  stash : List Token := []
  /-- Tokens that come before those still to read. -/
  deferred : List Token := []
  /-- What lines are indented with, from the first indented line on. -/
  style : Option IndentStyle := none
  /-- Whether lines are plain text. -/
  pipeless : Bool := false
  /-- Whether a colon may stand between the name and the value of an attribute. -/
  colons : Bool := false
  deriving Repr, Inhabited

namespace Source

def joinLineEnds : List Char → List Char
  | [] => []
  | '\r' :: '\n' :: cs => '\n' :: joinLineEnds cs
  | '\r' :: cs => '\n' :: joinLineEnds cs
  | c :: cs => c :: joinLineEnds cs

def ofText (s : String) (colons : Bool := false) : Source :=
  { rest := joinLineEnds s.toList, colons }

def ofBytes (bytes : ByteArray) (colons : Bool := false) : Except Fault Source :=
  match String.fromUTF8? bytes with
  | some s => .ok (ofText s colons)
  | none => .error .undecodable

def tok (s : Source) (body : Token.Body) : Token := { body, line := s.line }

def scan (form : Rules.Form) (s : Source) : Option Token × Source :=
  match form s.rest with
  | some (body, rest) => (some (s.tok body), { s with rest })
  | none => (none, s)

/-! ## Layout -/

/-- The width of the indentation after a line end, and what it shows about the style. The first
indentation decides whether tabs or blanks count. -/
def measure (style : Option IndentStyle) (cs : List Char) : Nat × Option IndentStyle :=
  let tabs := (cs.takeWhile (· == '\t')).length
  let spaces := (cs.takeWhile (· == ' ')).length
  match style with
  | some .tabs => (tabs, style)
  | some .spaces => (spaces, style)
  | none =>
    if tabs ≠ 0 then (tabs, some .tabs)
    else if spaces ≠ 0 then (spaces, some .spaces)
    else (0, none)

/-- What a line of some width does to the open indentations. -/
def enter (s : Source) (width : Nat) : Except Fault Token × Source :=
  match s.indents.takeWhile (width < ·) with
  | _ :: more =>
    (.ok (s.tok .outdent),
      { s with
        indents := s.indents.dropWhile (width < ·)
        stash := s.stash ++ more.map fun _ => s.tok .outdent })
  | [] =>
    if width ≠ 0 && s.indents.head? ≠ some width then
      (.ok (s.tok (.indent width)), { s with indents := width :: s.indents })
    else (.ok (s.tok .newline), s)

/-- Read a line end and the indentation after it. Of several levels that end at once, all but one
outdent are stashed. -/
def lineEnd (s : Source) (cs : List Char) : Except Fault Token × Source :=
  let (width, style) := measure s.style cs
  let s := { s with rest := cs.drop width, line := s.line + 1, style }
  match s.rest with
  | [] => (.ok (s.tok .newline), s)
  | c :: _ =>
    if c == ' ' || c == '\t' then (.error .mixedIndentation, s)
    else if c == '\n' then (.ok (s.tok .newline), s)
    else s.enter width

/-- What follows the last character: an outdent for every open indentation, then the end. -/
def atEnd (s : Source) : Token × Source :=
  match s.indents with
  | _ :: indents => (s.tok .outdent, { s with indents })
  | [] => (s.tok .eos, s)

def textLine (s : Source) : Token × Source :=
  let (content, rest) := Rules.restOfLine s.rest
  (s.tok (.text (String.ofList content)), { s with rest })

/-! ## Tags -/

/-- Read the name of a tag. A colon at its end is a token of its own, and something has to follow
it. -/
def scanTag (s : Source) : Except Fault (Option Token) × Source :=
  match Rules.tag? s.rest with
  | none => (.ok none, s)
  | some (name, rest) =>
    if name.endsWith ":" then
      let after := rest.dropWhile Rules.isSpace
      let token := s.tok (.tag (String.ofList name.toList.dropLast))
      let s := { s with rest := after, deferred := s.deferred ++ [s.tok .colon] }
      if after.isEmpty then (.error .endOfSource, s) else (.ok (some token), s)
    else (.ok (some (s.tok (.tag name))), { s with rest })

def scanForms (forms : List Rules.Form) (s : Source) : Option Token × Source :=
  s.scan (Rules.firstOf forms)

def inLine (s : Source) : Except Fault Token × Source :=
  match s.scanForms Rules.beforeTag with
  | (some token, s) => (.ok token, s)
  | (none, s) =>
    match s.scanTag with
    | (.error e, s) => (.error e, s)
    | (.ok (some token), s) => (.ok token, s)
    | (.ok none, s) =>
      match s.scanForms (Rules.afterTag ++ [Rules.attrs? s.colons] ++ Rules.afterAttrs) with
      | (some token, s) => (.ok token, s)
      | (none, s) => (.error .endOfSource, s)

/-! ## Tokens in order -/

/-- Pass over lines that hold nothing but blanks, unless lines are plain text. -/
def skipBlankLines (s : Source) : Source :=
  if s.pipeless then s else { s with rest := Rules.dropBlankLines s.rest }

def fresh (s : Source) : Except Fault Token × Source :=
  match s.rest with
  | [] => (.ok s.atEnd.1, s.atEnd.2)
  | '\n' :: cs => s.lineEnd cs
  | _ => if s.pipeless then (.ok s.textLine.1, s.textLine.2) else s.inLine

def next (s : Source) : Except Fault Token × Source :=
  match s.deferred with
  | token :: deferred => (.ok token, { s with deferred })
  | [] => s.skipBlankLines.fresh

def advance (s : Source) : Except Fault Token × Source :=
  match s.stash with
  | token :: stash => (.ok token, { s with stash })
  | [] => s.next

def fetch : Nat → Source → Except Fault Unit × Source
  | 0, s => (.ok (), s)
  | n + 1, s =>
    match s.next with
    | (.error e, s) => (.error e, s)
    | (.ok token, s) => fetch n { s with stash := s.stash ++ [token] }

/-- The token at a place among those read ahead, counted from the end if negative. -/
def stashedAt (s : Source) (i : Int) : Except Fault Token :=
  let j := if i < 0 then i + s.stash.length else i
  if j < 0 then .error .noSuchPosition
  else match s.stash[j.toNat]? with
    | some token => .ok token
    | none => .error .noSuchPosition

/-- The token `n` places ahead, where the next one is the first. It stays to be read. -/
def lookahead (n : Int) (s : Source) : Except Fault Token × Source :=
  match s.fetch (n - s.stash.length).toNat with
  | (.error e, s) => (.error e, s)
  | (.ok _, s) => (s.stashedAt (n - 1), s)

/-- Drop characters; a negative number keeps that many at the end. -/
def drop (n : Int) (s : Source) : Source :=
  if n < 0 then { s with rest := s.rest.drop (s.rest.length - (-n).toNat) }
  else { s with rest := s.rest.drop n.toNat }

def defer (token : Token) (s : Source) : Source := { s with deferred := s.deferred ++ [token] }

/-! ## Single forms -/

/-- A form that can be tried by itself. -/
inductive Scanner where
  /-- The end of the source. -/
  | eos
  /-- Lines that hold nothing but blanks, and the token after them. -/
  | blank
  /-- A line of plain text. -/
  | pipelessText
  /-- The name of a tag. -/
  | tag
  /-- An attribute list. -/
  | attrs
  /-- A line end and its indentation. -/
  | layout
  /-- Any other form. -/
  | form (f : Rules.Form)

def Scanner.run : Scanner → Source → Except Fault (Option Token) × Source
  | eos, s => if s.rest.isEmpty then (.ok (some s.atEnd.1), s.atEnd.2) else (.ok none, s)
  | blank, s =>
    if s.pipeless then (.ok none, s)
    else match Rules.blankLine? s.rest with
      | none => (.ok none, s)
      | some rest =>
        let (result, s) := next { s with rest }
        (result.map some, s)
  | pipelessText, s =>
    if s.pipeless then
      match s.rest with
      | [] => (.error .endOfSource, s)
      | '\n' :: _ => (.ok none, s)
      | _ => (.ok (some s.textLine.1), s.textLine.2)
    else (.ok none, s)
  | tag, s => s.scanTag
  | attrs, s =>
    if s.rest.isEmpty then (.error .endOfSource, s)
    else
      let (token, s) := s.scan (Rules.attrs? s.colons)
      (.ok token, s)
  | layout, s =>
    match s.rest with
    | '\n' :: cs =>
      let (result, s) := s.lineEnd cs
      (result.map some, s)
    | _ => (.ok none, s)
  | form f, s =>
    let (token, s) := s.scan f
    (.ok token, s)

end Source

end Jade
