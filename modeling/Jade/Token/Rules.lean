import Jade.Text.Blank
import Jade.Text.Split
import Jade.Text.Word
import Jade.Token

/-!
# Recognisers for the parts of a line

One recogniser per form of the template language. Each takes the characters left to read and gives
what it recognised together with the characters after it, or nothing. A form that could be read in
several ways is read with its leading parts as long as possible.
-/

namespace Jade.Rules

/-! ## Shared parts -/

/-- A blank in the narrow sense: only this one separates the parts of a line. -/
def isSpace (c : Char) : Bool := c == ' '

def inLine (c : Char) : Bool := c != '\n'

def isNamePart (c : Char) : Bool := isWord c || c == '-'

/-- The characters up to the end of the line, and the rest. -/
def restOfLine (cs : List Char) : List Char × List Char := cs.span inLine

/-- A run of one or more characters of a class. -/
def run? (p : Char → Bool) (cs : List Char) : Option (String × List Char) :=
  match cs.span p with
  | ([], _) => none
  | (run, rest) => some (String.ofList run, rest)

/-- The text after a keyword: one or more blanks, then the rest of the line, which is not empty. If
only blanks follow, the last of several is the text. -/
def argument? : List Char → Option (String × List Char)
  | ' ' :: cs =>
    let body := cs.dropWhile isSpace
    match run? inLine body with
    | some found => some found
    | none => if cs.head? == some ' ' then some (" ", body) else none
  | _ => none

def keyword? (word : String) (cs : List Char) : Option (String × List Char) :=
  (stripPrefix? word.toList cs).bind argument?

/-- Arguments in parentheses after any number of blanks, up to the last closing parenthesis of the
line. -/
def arguments? (cs : List Char) : Option (String × List Char) :=
  match cs.dropWhile isSpace with
  | '(' :: r =>
    let (content, after) := restOfLine r
    let tail := content.reverse.takeWhile (· ≠ ')')
    if tail.length < content.length then
      some (String.ofList (content.take (content.length - tail.length - 1)), tail.reverse ++ after)
    else none
  | _ => none

/-- Shorten a run that is given reversed, one character at a time, until `f` accepts what is left of
it and what follows. The run is never empty. -/
def findSplit {α : Type} (f : List Char → List Char → Option α) :
    List Char → List Char → Option α
  | [], _ => none
  | c :: run, rest =>
    match f (c :: run) rest with
    | some a => some a
    | none => findSplit f run (c :: rest)

/-- The rest after a dash and blanks, which may open a control line. -/
def afterDash : List Char → List Char
  | '-' :: cs => cs.dropWhile isSpace
  | cs => cs

/-! ## Layout -/

/-- The last line end of a run of lines that hold nothing but blanks; `keep` is
the last one seen. -/
def lastLineEnd (keep : List Char) : List Char → List Char
  | ' ' :: cs => lastLineEnd keep cs
  | '\n' :: cs => lastLineEnd ('\n' :: cs) cs
  | _ => keep

/-- Pass over lines that hold nothing but blanks, up to the line end before the next other line. -/
def dropBlankLines : List Char → List Char
  | '\n' :: cs => lastLineEnd ('\n' :: cs) cs
  | cs => cs

/-- A line end followed by a line that holds nothing but blanks: the rest from the second line end
on. -/
def blankLine? : List Char → Option (List Char)
  | '\n' :: cs =>
    match cs.dropWhile isSpace with
    | '\n' :: rest => some ('\n' :: rest)
    | _ => none
  | _ => none

/-! ## Parts of a tag -/

/-- The name of a tag: a word character, then word characters, hyphens and colons. -/
def tag? : List Char → Option (String × List Char)
  | c :: cs =>
    if isWord c then run? (fun d => isNamePart d || d == ':') (c :: cs) else none
  | [] => none

/-- An `#id`. -/
def id? : List Char → Option (String × List Char)
  | '#' :: cs => run? isNamePart cs
  | _ => none

/-- A `.class`. -/
def className? : List Char → Option (String × List Char)
  | '.' :: cs => run? isNamePart cs
  | _ => none

def colon? : List Char → Option (List Char)
  | ':' :: cs => some (cs.dropWhile isSpace)
  | _ => none

def text? (cs : List Char) : Option (String × List Char) := run? inLine cs

/-- Text after a bar and at most one blank. If the blank is all there is, it is the text. -/
def string? : List Char → Option (String × List Char)
  | '|' :: ' ' :: cs =>
    match run? inLine cs with
    | some found => some found
    | none => some (" ", cs)
  | '|' :: cs => run? inLine cs
  | _ => none

/-! ## Control lines -/

/-- The word `yield` and the blanks after it. -/
def yield? (cs : List Char) : Option (List Char) :=
  (stripPrefix? "yield".toList cs).map (·.dropWhile isSpace)

/-- A document type: `!!!` or `doctype`, blanks, and its name if the line goes on. -/
def doctype? (cs : List Char) : Option (Option String × List Char) :=
  match (stripPrefix? "!!!".toList cs).or (stripPrefix? "doctype".toList cs) with
  | none => none
  | some rest =>
    let body := rest.dropWhile isSpace
    match run? inLine body with
    | some (name, rest) => some (some name, rest)
    | none => some (none, body)

def parent? (cs : List Char) : Option (String × List Char) :=
  (keyword? "extends" cs).or (keyword? "extend" cs)

/-- A way in which a named block joins the block of the same name, and the blanks after it. -/
def blockMode? (cs : List Char) : Option (String × List Char) :=
  ["prepend", "append"].findSome? fun mode =>
    match stripPrefix? mode.toList cs with
    | some (' ' :: rest) => some (mode, rest.dropWhile isSpace)
    | _ => none

/-- A named block: its mode and its name, which may be empty. A block without a name takes the line
end with it. -/
def block? (cs : List Char) : Option (String × String × List Char) :=
  match stripPrefix? "block".toList cs with
  | some (' ' :: rest) =>
    let body := rest.dropWhile isSpace
    let (mode, body) := (blockMode? body).getD ("replace", body)
    let (name, rest) := restOfLine body
    some (mode, String.ofList name, rest)
  | some ('\n' :: rest) => some ("replace", "", rest)
  | _ => none

def inclusion? (cs : List Char) : Option (String × List Char) := keyword? "include" cs

/-- A name and the arguments after it, if there are any. -/
def nameArguments? (cs : List Char) : Option (String × Option String × List Char) :=
  match run? isNamePart cs with
  | none => none
  | some (name, rest) =>
    match arguments? rest with
    | some (args, rest) => some (name, some args, rest)
    | none => some (name, none, rest)

def mixin? (cs : List Char) : Option (String × Option String × List Char) :=
  match stripPrefix? "mixin".toList cs with
  | some (' ' :: rest) => nameArguments? (rest.dropWhile isSpace)
  | _ => none

def call? : List Char → Option (String × Option String × List Char)
  | '+' :: cs => nameArguments? cs
  | _ => none

/-- The words of conditionals in the order in which they are tried. -/
def conditionalWords : List String := ["if", "unless", "else if", "elif", "else"]

/-- A conditional: a word that ends where it stands, and the rest of the line. -/
def conditional? (cs : List Char) : Option (String × String × List Char) :=
  conditionalWords.findSome? fun word =>
    match stripPrefix? word.toList (afterDash cs) with
    | none => none
    | some rest =>
      if rest.head?.any isWord then none
      else
        let (sentence, after) := restOfLine rest
        some (word, String.ofList sentence, after)

/-- The word `in` with blanks around it, and the rest of the line. -/
def inClause? : List Char → Option (String × List Char)
  | ' ' :: cs => keyword? "in" (cs.dropWhile isSpace)
  | _ => none

/-- A character that may stand among the variables of a loop. -/
def isLoopPart (c : Char) : Bool := isWord c || c == ',' || c == ' '

/-- The variables of a loop as written, what it runs over, and the rest. The variables take as much
as they can. -/
def loop? (cs : List Char) : Option (String × String × List Char) :=
  let (run, rest) := cs.span isLoopPart
  findSplit (fun keys rest => (inClause? rest).map fun (code, rest) =>
    (String.ofList keys.reverse, code, rest)) run.reverse rest

/-- A loop: `each` or `for`, its variables as written, and what it runs over. -/
def each? (cs : List Char) : Option (String × String × List Char) :=
  let cs := afterDash cs
  match (stripPrefix? "each".toList cs).or (stripPrefix? "for".toList cs) with
  | none => none
  | some rest =>
    let (spaces, rest) := rest.span isSpace
    findSplit (fun _ rest => loop? rest) spaces rest

/-- The words `- var` that may open an assignment, with the blanks after them. -/
def varMark? : List Char → Option (String × List Char)
  | '-' :: cs =>
    match run? isBlank cs with
    | none => none
    | some (before, rest) =>
      match (stripPrefix? "var".toList rest).bind (run? isBlank) with
      | none => none
      | some (after, rest) => some ("-" ++ before ++ "var" ++ after, rest)
  | _ => none

/-- The value of an assignment: after blanks, all up to a semicolon or the end of the line. If there
is nothing but blanks, the last of them is the value. -/
def assigned? (cs : List Char) : Option (String × List Char) :=
  let body := cs.dropWhile isSpace
  match run? (fun c => c != ';' && c != '\n') body with
  | some found => some found
  | none => if cs.head? == some ' ' then some (" ", body) else none

/-- The rest after the semicolon that may end an assignment and the blanks after it. -/
def afterSemicolon : List Char → List Char
  | ';' :: cs => cs.dropWhile isSpace
  | cs => cs

/-- An assignment: the words that open it, the name, and the value. -/
def assignment? (cs : List Char) : Option (Option String × String × String × List Char) :=
  let start := if cs.head? == some '-' then (varMark? cs).map fun (m, r) => (some m, r)
    else some (none, cs)
  match start with
  | none => none
  | some (mark, rest) =>
    match run? isWord rest with
    | some (name, ' ' :: rest) =>
      match rest.dropWhile isSpace with
      | '=' :: rest => (assigned? rest).map fun (value, rest) =>
        (mark, name, value, afterSemicolon rest)
      | _ => none
    | _ => none

def filter? : List Char → Option (String × List Char)
  | ':' :: cs => run? isWord cs
  | _ => none

/-- Code: the marks that open it and the rest of the line, which is not empty. -/
def code? : List Char → Option (String × String × List Char)
  | '!' :: '=' :: cs => (run? inLine cs).map fun (s, r) => ("!=", s, r)
  | '=' :: cs => (run? inLine cs).map fun (s, r) => ("=", s, r)
  | '-' :: cs => (run? inLine cs).map fun (s, r) => ("-", s, r)
  | _ => none

/-- A comment: whether a dash keeps it out of the output, and its text. -/
def comment? (cs : List Char) : Option (Bool × String × List Char) :=
  match cs.dropWhile isSpace with
  | '/' :: '/' :: '-' :: rest =>
    let (content, rest) := restOfLine rest
    some (true, String.ofList content, rest)
  | '/' :: '/' :: rest =>
    let (content, rest) := restOfLine rest
    some (false, String.ofList content, rest)
  | _ => none

/-! ## The order of the forms -/

/-- The variables of a loop, cut at the commas. -/
def loopKeys (keys : String) : List String := (splitAtChar ',' keys).map strip

abbrev Form := List Char → Option (Token.Body × List Char)

def form (f : List Char → Option (String × List Char)) (body : String → Token.Body) : Form :=
  fun cs => (f cs).map fun (s, rest) => (body s, rest)

def yieldForm : Form := fun cs => (yield? cs).map fun rest => (.yield, rest)

def doctypeForm : Form := fun cs => (doctype? cs).map fun (name, rest) => (.doctype name, rest)

def blockForm : Form := fun cs =>
  (block? cs).map fun (mode, name, rest) => (.block mode name, rest)

def mixinForm : Form := fun cs => (mixin? cs).map fun (name, args, rest) => (.mixin name args, rest)

def callForm : Form := fun cs => (call? cs).map fun (name, args, rest) => (.call name args, rest)

def conditionalForm : Form := fun cs =>
  (conditional? cs).map fun (word, sentence, rest) => (.conditional word sentence, rest)

def eachForm : Form := fun cs =>
  (each? cs).map fun (keys, code, rest) => (.each (loopKeys keys) code, rest)

def assignmentForm : Form := fun cs =>
  (assignment? cs).map fun (_, name, value, rest) => (.assignment name value, rest)

/-- The control lines that are tried before a tag, in order. -/
def beforeTag : List Form :=
  [yieldForm, doctypeForm, form parent? .parent, form (keyword? "append") (.block "append"),
   form (keyword? "prepend") (.block "prepend"), blockForm, form inclusion? .inclusion, mixinForm,
   callForm, conditionalForm, eachForm, assignmentForm]

def codeForm : Form := fun cs =>
  (code? cs).map fun (marks, source, rest) => (.code source (marks != "-") (marks == "="), rest)

def commentForm : Form := fun cs =>
  (comment? cs).map fun (hidden, content, rest) => (.comment content (!hidden), rest)

/-- The forms that are tried after a tag and before attributes, in order. -/
def afterTag : List Form :=
  [form filter? .filter, codeForm, form id? .id, form className? .className]

def colonForm : Form := fun cs => (colon? cs).map fun rest => (.colon, rest)

def afterAttrs : List Form :=
  [commentForm, colonForm, form string? .string, form text? .text]

def firstOf (forms : List Form) (cs : List Char) : Option (Token.Body × List Char) :=
  forms.findSome? fun f => f cs

end Jade.Rules
