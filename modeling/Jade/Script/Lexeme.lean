import Jade.Decimal.Reader
import Jade.Fault
import Jade.Text.Identifier
import Jade.Text.Split

/-!
# Lexemes of scripts

Expressions and statements inside a template are written in a small scripting language. Its text is
cut into names, numbers, quoted texts, operators and line ends; inside brackets a line end counts as
a blank.
-/

namespace Jade.Script

/-- A lexeme. -/
inductive Lexeme where
  | name (s : String)
  | int (n : Nat)
  | float (x : Binary64)
  | text (s : String)
  | bytes (bs : List UInt8)
  | op (s : String)
  | newline
  deriving DecidableEq, Repr, Inhabited

/-! ## Quoted texts -/

def hexValue? (c : Char) : Option Nat :=
  if c.isDigit then some (c.toNat - '0'.toNat)
  else if 'a' ≤ c && c ≤ 'f' then some (c.toNat - 'a'.toNat + 10)
  else if 'A' ≤ c && c ≤ 'F' then some (c.toNat - 'A'.toNat + 10)
  else none

/-- A number of exactly `n` hexadecimal digits. -/
def hexNumber? : Nat → Nat → List Char → Option (Nat × List Char)
  | 0, acc, cs => some (acc, cs)
  | _ + 1, _, [] => none
  | n + 1, acc, c :: cs => (hexValue? c).bind fun d => hexNumber? n (16 * acc + d) cs

/-- A number of at most `n` octal digits. -/
def octalNumber : Nat → Nat → List Char → Nat × List Char
  | 0, acc, cs => (acc, cs)
  | _ + 1, acc, [] => (acc, [])
  | n + 1, acc, c :: cs =>
    if '0' ≤ c && c ≤ '7' then octalNumber n (8 * acc + (c.toNat - '0'.toNat)) cs
    else (acc, c :: cs)

def shortEscape? : Char → Option Nat
  | '\\' => some 0x5c
  | '\'' => some 0x27
  | '"' => some 0x22
  | 'a' => some 7
  | 'b' => some 8
  | 't' => some 9
  | 'n' => some 10
  | 'v' => some 11
  | 'f' => some 12
  | 'r' => some 13
  | _ => none

/-- The code points of the text between quotes; `wide` allows escapes beyond a byte. An unknown
escape stands for itself. -/
def unescape (wide : Bool) : Nat → List Char → Option (List Nat)
  | 0, _ => some []
  | _ + 1, [] => some []
  | fuel + 1, '\\' :: '\n' :: cs => unescape wide fuel cs
  | fuel + 1, '\\' :: c :: cs =>
    let hex (n : Nat) :=
      match hexNumber? n 0 cs with
      | some (v, rest) =>
        if v < 0x110000 && !(0xd800 ≤ v && v < 0xe000) then
          (unescape wide fuel rest).map (v :: ·)
        else none
      | none => none
    match shortEscape? c with
    | some v => (unescape wide fuel cs).map (v :: ·)
    | none =>
      if '0' ≤ c && c ≤ '7' then
        let (v, rest) := octalNumber 3 0 (c :: cs)
        (unescape wide fuel rest).map (v :: ·)
      else if c == 'x' then hex 2
      else if wide && c == 'u' then hex 4
      else if wide && c == 'U' then hex 8
      else if wide && c == 'N' then none
      else (unescape wide fuel cs).map (fun vs => 0x5c :: c.toNat :: vs)
  | fuel + 1, c :: cs => (unescape wide fuel cs).map (c.toNat :: ·)

/-- The characters up to a closing quote, as written, and the rest. A backslash keeps the character
after it from closing; a line may end only in a text with tripled quotes. -/
def quotedBody (quote : Char) (tripled : Bool) (acc : List Char) :
    List Char → Option (List Char × List Char)
  | [] => none
  | ['\\'] => none
  | '\\' :: c :: cs => quotedBody quote tripled (c :: '\\' :: acc) cs
  | c :: cs =>
    if c == quote then
      if tripled then
        match stripPrefix? [quote, quote] cs with
        | some rest => some (acc.reverse, rest)
        | none => quotedBody quote tripled (c :: acc) cs
      else some (acc.reverse, cs)
    else if c == '\n' && !tripled then none
    else quotedBody quote tripled (c :: acc) cs

/-- What a word before a quote says about the quoted text. -/
structure QuoteMark where
  /-- Whether it stands for bytes. -/
  bytes : Bool
  /-- Whether backslashes stand for themselves. -/
  raw : Bool

def quoteMark? (word : String) : Option QuoteMark :=
  match word.toLower with
  | "" | "u" => some ⟨false, false⟩
  | "r" => some ⟨false, true⟩
  | "b" => some ⟨true, false⟩
  | "br" | "rb" => some ⟨true, true⟩
  | _ => none

def quotedAt (mark : QuoteMark) (cs : List Char) : Option (Lexeme × List Char) :=
  match cs with
  | [] => none
  | quote :: cs =>
    let (tripled, cs) := match stripPrefix? [quote, quote] cs with
      | some rest => (true, rest)
      | none => (false, cs)
    match quotedBody quote tripled [] cs with
    | none => none
    | some (body, rest) =>
      let points := if mark.raw then some (body.map Char.toNat)
        else unescape (!mark.bytes) (body.length + 1) body
      match points with
      | none => none
      | some ps =>
        if mark.bytes then
          if body.all (·.toNat < 128) then some (.bytes (ps.map Nat.toUInt8), rest) else none
        else some (.text (String.ofList (ps.map Char.ofNat)), rest)

/-! ## Numbers -/

/-- The words that may follow a number without a blank. -/
def wordsAfterNumber : List String := ["and", "else", "for", "if", "in", "is", "or", "not"]

/-- Whether a number may end before these characters. -/
def mayEndNumber (cs : List Char) : Bool :=
  !cs.head?.any isIdentRest ||
    wordsAfterNumber.any fun w => (stripPrefix? w.toList cs).isSome

/-- Digits of a base with single underscores between them, and the rest. -/
def baseDigits (base : Nat) : Nat → List Char → Nat × List Char
  | acc, '_' :: c :: cs =>
    match hexValue? c with
    | some d => if d < base then baseDigits base (base * acc + d) cs else (acc, '_' :: c :: cs)
    | none => (acc, '_' :: c :: cs)
  | acc, c :: cs =>
    match hexValue? c with
    | some d => if d < base then baseDigits base (base * acc + d) cs else (acc, c :: cs)
    | none => (acc, c :: cs)
  | acc, [] => (acc, [])

/-- A number in another base after its mark; at least one digit has to follow. -/
def basedNumber? (base : Nat) (cs : List Char) : Option (Lexeme × List Char) :=
  let body := match cs with
    | '_' :: rest => rest
    | _ => cs
  if body.head?.any fun c => (hexValue? c).any (· < base) then
    let (n, rest) := baseDigits base 0 body
    if mayEndNumber rest then some (.int n, rest) else none
  else none

/-- A number at the start of the characters. An integer has no zeros in front. -/
def number? (cs : List Char) : Option (Lexeme × List Char) :=
  match cs with
  | '0' :: 'x' :: rest | '0' :: 'X' :: rest => basedNumber? 16 rest
  | '0' :: 'o' :: rest | '0' :: 'O' :: rest => basedNumber? 8 rest
  | '0' :: 'b' :: rest | '0' :: 'B' :: rest => basedNumber? 2 rest
  | _ =>
    match Decimal.scan? cs with
    | none => none
    | some (d, fraction, rest) =>
      if !mayEndNumber rest then none
      else if fraction then some (.float d.toBinary, rest)
      else if cs.head? == some '0' && d.digits != 0 then none
      else some (.int d.digits, rest)

/-! ## All lexemes -/

def operators : List String :=
  ["**=", "//=", ">>=", "<<=", "...",
   "==", "!=", "<=", ">=", "//", "**", "<<", ">>", "->", ":=", "+=", "-=", "*=", "/=", "%=", "|=",
   "&=", "^=", "@=",
   "+", "-", "*", "/", "%", "|", "&", "^", "~", "<", ">", "=", "(", ")", "[", "]", "\x7b", "\x7d",
   ",", ":", ";", ".", "@"]

/-- The operator at the start of the characters. -/
def operator? (cs : List Char) : Option (String × List Char) :=
  operators.findSome? fun o => (stripPrefix? o.toList cs).map fun rest => (o, rest)

def depthAfter (depth : Nat) (o : String) : Nat :=
  if ["(", "[", "\x7b"].contains o then depth + 1
  else if [")", "]", "\x7d"].contains o then depth - 1
  else depth

def isInnerBlank (c : Char) : Bool := c == ' ' || c == '\t' || c == '\x0c'

/-- The start of a line: blanks may not stand before a lexeme. -/
def lineStart? (cs : List Char) : Option (List Char) :=
  let rest := cs.dropWhile isInnerBlank
  match rest with
  | [] => some []
  | c :: _ => if c == '\n' || c == '#' || rest.length == cs.length then some rest else none

/-- The lexeme at the start of the characters, and the rest. -/
def lexeme? (cs : List Char) : Option (Lexeme × List Char) :=
  match cs with
  | [] => none
  | c :: rest =>
    if c.isDigit || (c == '.' && rest.head?.any Char.isDigit) then number? cs
    else if c == '"' || c == '\'' then quotedAt ⟨false, false⟩ cs
    else if isIdentStart c then
      let (word, rest) := cs.span isIdentRest
      let word := String.ofList word
      match rest with
      | '"' :: _ | '\'' :: _ =>
        match quoteMark? word with
        | some mark => quotedAt mark rest
        | none => some (.name word, rest)
      | _ => some (.name word, rest)
    else (operator? cs).map fun (o, rest) => (.op o, rest)

/-- The lexemes of the characters, inside `depth` brackets; `begun` says whether the line holds any
so far. -/
def lexemesFrom : Nat → Nat → Bool → List Char → Option (List Lexeme)
  | 0, _, _, _ => none
  | _ + 1, _, _, [] => some []
  | fuel + 1, depth, begun, c :: cs =>
    if isInnerBlank c then lexemesFrom fuel depth begun cs
    else if c == '#' then lexemesFrom fuel depth begun (cs.dropWhile (· != '\n'))
    else if c == '\\' && cs.head? == some '\n' then lexemesFrom fuel depth begun (cs.drop 1)
    else if c == '\n' then
      if 0 < depth then lexemesFrom fuel depth begun cs
      else match lineStart? cs with
        | none => none
        | some rest =>
          (lexemesFrom fuel depth false rest).map fun ls => if begun then .newline :: ls else ls
    else match lexeme? (c :: cs) with
      | none => none
      | some (l, rest) =>
        let depth := match l with
          | .op o => depthAfter depth o
          | _ => depth
        (lexemesFrom fuel depth true rest).map (l :: ·)

def lexemes (s : String) : Except Fault (List Lexeme) :=
  let found := (lineStart? s.toList).bind fun cs =>
    lexemesFrom (2 * cs.length + 2) 0 false cs
  match found with
  | some ls => .ok ls
  | none => .error .malformed

end Jade.Script
