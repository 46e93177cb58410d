import Jade.Token.Rules

/-!
# Patterns

The forms of the template language as bare patterns. A pattern gives its first part, where it has
one, and the characters after the match, and knows nothing of the token that is made of it.
-/

namespace Jade

/-- A form of the template language as a bare pattern. -/
inductive Pattern where
  /-- A line end of another system; sources hold none. -/
  | foreignLineEnd
  /-- A comment; its first part is the dash. -/
  | comment
  /-- The name of a tag. -/
  | tag
  /-- A filter. -/
  | filter
  /-- A document type. -/
  | doctype
  /-- An id. -/
  | id
  /-- A class. -/
  | className
  /-- Text after a bar. -/
  | string
  /-- Text. -/
  | text
  /-- The template that this one extends. -/
  | parent
  /-- A named block to prepend. -/
  | prepend
  /-- A named block to append. -/
  | append
  /-- A named block; its first part is all after the keyword. -/
  | block
  /-- The place for content. -/
  | yield
  /-- A template to include. -/
  | inclusion
  /-- An assignment; its first part are the words that open it. -/
  | assignment
  /-- The definition of a mixin. -/
  | mixin
  /-- A call of a mixin. -/
  | call
  /-- A conditional. -/
  | conditional
  /-- Lines that hold nothing but blanks. -/
  | blank
  /-- A loop; its first part are the variables as written. -/
  | each
  /-- Code; its first part are the marks. -/
  | code
  /-- An interpolation. -/
  | interpolation
  /-- A quote. -/
  | quote
  /-- A line end and tabs. -/
  | tabs
  /-- A line end and blanks. -/
  | spaces
  /-- A colon. -/
  | colon
  deriving DecidableEq, Repr

namespace Pattern

def part : Option (String × List Char) → Option (Option String × List Char) :=
  Option.map fun (s, rest) => (some s, rest)

/-- An interpolation: an expression in braces after a hash. -/
def interpolation? : List Char → Option (String × List Char)
  | '#' :: '\x7b' :: cs =>
    match Rules.run? (· != '\x7d') cs with
    | some (inner, _ :: rest) => some (inner, rest)
    | _ => none
  | _ => none

/-- The first part of a match at the start, where the pattern has one, and the rest. -/
def first? (p : Pattern) (cs : List Char) : Option (Option String × List Char) :=
  match p with
  | foreignLineEnd => none
  | comment => (Rules.comment? cs).map fun (hidden, _, rest) =>
    (if hidden then some "-" else none, rest)
  | tag => part (Rules.tag? cs)
  | filter => part (Rules.filter? cs)
  | doctype => Rules.doctype? cs
  | id => part (Rules.id? cs)
  | className => part (Rules.className? cs)
  | string => part (Rules.string? cs)
  | text => part (Rules.text? cs)
  | parent => part (Rules.parent? cs)
  | prepend => part (Rules.keyword? "prepend" cs)
  | append => part (Rules.keyword? "append" cs)
  | block => (Rules.block? cs).map fun (_, _, rest) =>
    (some (String.ofList ((cs.take (cs.length - rest.length)).drop 5)), rest)
  | yield => (Rules.yield? cs).map fun rest => (none, rest)
  | inclusion => part (Rules.inclusion? cs)
  | assignment => (Rules.assignment? cs).map fun (mark, _, _, rest) => (mark, rest)
  | mixin => (Rules.mixin? cs).map fun (name, _, rest) => (some name, rest)
  | call => (Rules.call? cs).map fun (name, _, rest) => (some name, rest)
  | conditional => (Rules.conditional? cs).map fun (word, _, rest) => (some word, rest)
  | blank => (Rules.blankLine? cs).map fun rest => (none, rest.drop 1)
  | each => (Rules.each? cs).map fun (keys, _, rest) => (some keys, rest)
  | code => (Rules.code? cs).map fun (marks, _, rest) => (some marks, rest)
  | interpolation => part (interpolation? cs)
  | quote =>
    match cs with
    | '"' :: rest | '\'' :: rest => some (none, rest)
    | _ => none
  | tabs =>
    match cs with
    | '\n' :: rest =>
      let (run, rest) := rest.span (· == '\t')
      some (some (String.ofList run), rest.dropWhile Rules.isSpace)
    | _ => none
  | spaces =>
    match cs with
    | '\n' :: rest =>
      let (run, rest) := rest.span Rules.isSpace
      some (some (String.ofList run), rest)
    | _ => none
  | colon => (Rules.colon? cs).map fun rest => (none, rest)

/-- The form that makes a token of a given kind from the first part of a match. -/
def form (p : Pattern) (kind : String) : Rules.Form := fun cs =>
  (p.first? cs).map fun (val, rest) => (.custom kind val, rest)

end Pattern

end Jade
