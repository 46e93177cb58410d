import Jade.Node.Attributes
import Jade.Source

/-!
# Reading nodes

A reader builds the tree of a template from the tokens of its source by recursive descent. Every
form starts with a token of its own kind. The descent is bounded by the size of the source: each
form takes at least one token, but for a tag that waits for nodes to filter, on which reading never
ends.
-/

namespace Jade

/-- A template that is being read into a tree. -/
structure Reader where
  /-- The tokens to come. -/
  source : Source
  /-- The name of the file, for messages. -/
  file : Option String := none
  /-- The indentation of the outermost text block that is open. -/
  spaces : Option Nat := none
  /-- The number of open contexts. -/
  contexts : Nat := 1
  /-- Whether another template is to be read in place of this one. -/
  extending : Bool := false
  deriving Repr, Inhabited

/-- An action that reads and may fail; what it read stays read. -/
abbrev Parse (α : Type) := ExceptT Fault (StateM Reader) α

/-- What is left to read: characters, tokens read ahead and open indentations. Every token but the
last one makes it smaller. -/
def Source.size (s : Source) : Nat :=
  s.rest.length + s.stash.length + s.deferred.length + s.indents.length

namespace Reader

/-! ## Tokens -/

def onSource {α : Type} (f : Source → Except Fault α × Source) : Parse α :=
  ExceptT.mk fun r =>
    let (result, source) := f r.source
    (result, { r with source })

def changeSource (f : Source → Source) : Parse Unit :=
  modify fun r => { r with source := f r.source }

def advance : Parse Token := onSource Source.advance

def lookahead (n : Int) : Parse Token := onSource (Source.lookahead n)

def peek : Parse Token := lookahead 1

def peekKind : Parse String := return (← peek).kind

def lineNow : Parse Nat := return (← get).source.line

def budget : Parse Nat := return (← get).source.size + 1

/-- Take tokens, one less than `n`. -/
def skipTokens : Nat → Parse Unit
  | 0 => pure ()
  | n + 1 => do
    let _ ← advance
    skipTokens n

/-- Take tokens, one less than `n`. -/
def skip (n : Int) : Parse Unit := skipTokens (n - 1).toNat

def expect (kind : String) : Parse Token := do
  let found ← peekKind
  if found == kind then advance
  else throw (.expected kind found (← get).file (← lineNow))

def accept (kind : String) : Parse (Option Token) := do
  if (← peekKind) == kind then return some (← advance) else return none

/-- Take a token that has to be of a kind, and give what it holds. -/
def expectBody {α : Type} (kind : String) (f : Token.Body → Option α) : Parse α := do
  let token ← expect kind
  match f token.body with
  | some a => return a
  | none => throw (.expected kind token.kind (← get).file (← lineNow))

def skipNewlines : Nat → Parse Unit
  | 0 => throw .endless
  | n + 1 => do
    if (← peekKind) == "newline" then
      let _ ← advance
      skipNewlines n

def setPipeless (on : Bool) : Parse Unit := changeSource fun s => { s with pipeless := on }

/-! ## Text -/

def textNode : Parse Node := do
  let s ← expectBody "text" fun | .text s => some s | _ => none
  return .text [s] (← lineNow)

def stringNode : Parse Node := do
  let s ← expectBody "string" fun | .string s => some s | _ => none
  return .string [s] (← lineNow)

/-- The parts of a text block up to the token that ends it, whose kind is told by `look`. Deeper
lines are a block of their own, read by `inner`. -/
def textParts (look : Parse String) (inner : Parse (List String)) (indent : String) :
    Nat → List String → Parse (List String)
  | 0, _ => throw .endless
  | n + 1, parts => do
    match (← look) with
    | "outdent" => return parts
    | "newline" =>
      let _ ← advance
      textParts look inner indent n (parts ++ ["\n"])
    | "indent" =>
      let deeper ← inner
      textParts look inner indent n (parts ++ ["\n"] ++ deeper ++ ["\n"])
    | _ =>
      match (← advance).text? with
      | some s => textParts look inner indent n (parts ++ [indent ++ s])
      | none => throw .wrongType

/-- The parts of a text block. Lines are indented by what they are deeper than the outermost text
block. -/
def textBlockParts (look : Parse String) : Nat → Parse (List String)
  | 0 => throw .endless
  | fuel + 1 => do
    let width ← expectBody "indent" fun | .indent w => some w | _ => none
    modify fun r => { r with spaces := some (r.spaces.getD width) }
    let outer := (← get).spaces.getD width
    let parts ← textParts look (textBlockParts look fuel) (repeatText (width - outer) " ")
      (← budget) []
    if (← get).spaces == some width then modify fun r => { r with spaces := none }
    let _ ← expect "outdent"
    return parts

/-- A text block, where the kinds of its tokens are told by `look`. -/
def textBlockBy (look : Parse String) : Parse Node := do
  let line ← lineNow
  let parts ← textBlockParts look (← budget)
  return .text parts line

def textBlock : Parse Node := textBlockBy peekKind

/-! ## Forms -/

/-- Forms up to a token of a kind, with line ends between them. -/
def many (stop : String) (self : Parse Node) : Nat → List Node → Parse (List Node)
  | 0, _ => throw .endless
  | n + 1, nodes => do
    let kind ← peekKind
    if kind == stop then return nodes
    else if kind == "newline" then
      let _ ← advance
      many stop self n nodes
    else
      let node ← self
      many stop self n (nodes ++ [node])

/-- The forms of an indented block, and the line on which it was expected. -/
def indented (self : Parse Node) : Parse (List Node × Nat) := do
  let line ← lineNow
  let _ ← expect "indent"
  let nodes ← many "outdent" self (← budget) []
  let _ ← expect "outdent"
  return (nodes, line)

def block (self : Parse Node) : Parse Node := do
  let (nodes, line) ← indented self
  return .block nodes line false

def blockIfAny (self : Parse Node) : Parse (Option Node) := do
  if (← peekKind) == "indent" then return some (← block self) else return none

/-- A form after a colon, or an indented block. -/
def blockExpansion (self : Parse Node) : Parse Node := do
  if (← peekKind) == ":" then
    let _ ← advance
    return Node.seq [← self]
  else block self

def assignment : Parse Node := do
  let (name, value) ← expectBody "assignment" fun | .assignment n v => some (n, v) | _ => none
  return .assignment name value

/-- The place of the first token ahead that is no line end, from `i` on. -/
def afterNewlines : Nat → Int → Parse Int
  | 0, _ => throw .endless
  | n + 1, i => do
    if (← lookahead i).kind == "newline" then afterNewlines n (i + 1) else return i

/-- Code, and the block under it if there is one. -/
def code (self : Parse Node) : Parse Node := do
  let (source, buffer, escape) ← expectBody "code" fun
    | .code s b e => some (s, b, e)
    | _ => none
  let line ← lineNow
  let i ← afterNewlines (← budget) 1
  if (← lookahead i).kind == "indent" then
    skip (i - 1)
    return .code source buffer escape (some (← block self)) line
  else return .code source buffer escape none line

/-- A comment, and the block under it if there is one. -/
def comment (self : Parse Node) : Parse Node := do
  let (content, buffer) ← expectBody "comment" fun | .comment c b => some (c, b) | _ => none
  match ← blockIfAny self with
  | some nodes => return .blockComment content buffer (some nodes) (← lineNow)
  | none => return .comment content buffer (← lineNow)

def doctype : Parse Node := do
  let name ← expectBody "doctype" fun | .doctype n => some n | _ => none
  return .doctype name (← lineNow)

/-- The attributes of a filter from a table of attributes. -/
def filterAttrs (table : Table String AttrText) : FilterAttrs where
  ordered := true
  pairs := table.toList.map fun
    | (k, .flag) => (k, .bool true)
    | (k, .expr s) => (k, .text s)

/-- The attributes of a filter, if they are next. -/
def acceptFilterAttrs : Parse (Option FilterAttrs) := do
  match ← accept "attrs" with
  | some { body := .attrs table _, .. } => return some (filterAttrs table)
  | _ => return none

/-- A filter for a text block, which is read by `text`. -/
def filterBy (text : Parse Node) : Parse Node := do
  let name ← expectBody "filter" fun | .filter n => some n | _ => none
  let attrs ← acceptFilterAttrs
  setPipeless true
  let content ← text
  setPipeless false
  return .filter name attrs (some content) (← lineNow)

def filter : Parse Node := filterBy textBlock

/-- A filter for a block of nodes, written like a tag with a colon. -/
def treeFilter (self : Parse Node) : Parse Node := do
  let name ← expectBody "tag" fun | .tag n => some n | _ => none
  let attrs ← acceptFilterAttrs
  let _ ← expect ":"
  let content ← block self
  return .filter name attrs (some content) (← lineNow)

def each (self : Parse Node) : Parse Node := do
  let (keys, subject) ← expectBody "each" fun | .each ks c => some (ks, c) | _ => none
  let line ← lineNow
  return .each subject keys (some (← block self)) line

/-- The alternatives that follow a conditional, each read by `one`. -/
def alternatives (one : Parse Node) (word : String) : Nat → List Node → Parse (List Node)
  | 0, _ => throw .endless
  | n + 1, next => do
    match (← peek).body with
    | .conditional word' _ =>
      if Node.mayFollow word next word' then
        let node ← one
        alternatives one word n (next ++ [node])
      else return next
    | _ => return next

def conditionalChain (self : Parse Node) : Nat → Parse Node
  | 0 => throw .endless
  | fuel + 1 => do
    let (word, sentence) ← expectBody "conditional" fun
      | .conditional w s => some (w, s)
      | _ => none
    let line ← lineNow
    let content ← block self
    let next ← alternatives (conditionalChain self fuel) word (← budget) []
    return .conditional word sentence (some content) next line

def conditional (self : Parse Node) : Parse Node := do conditionalChain self (← budget)

def parent : Parse Node := do
  let path ← expectBody "extends" fun | .parent p => some p | _ => none
  return .parent (stripQuotes path)

def call (self : Parse Node) : Parse Node := do
  let (name, args) ← expectBody "call" fun | .call n a => some (n, a) | _ => none
  return .mixin name (args.getD "") (← blockIfAny self) true

/-- A definition of a mixin, or a call of it if no block follows. -/
def mixin (self : Parse Node) : Parse Node := do
  let (name, args) ← expectBody "mixin" fun | .mixin n a => some (n, a) | _ => none
  let content ← blockIfAny self
  return .mixin name (args.getD "") content content.isNone

/-- A named block; without content of its own it holds an empty piece of markup. -/
def namedBlock (self : Parse Node) : Parse Node := do
  let (mode, name) ← expectBody "block" fun | .block m n => some (m, n) | _ => none
  if (← peekKind) == "indent" then
    let (nodes, line) ← indented self
    return .codeBlock (strip name) mode nodes line
  else return .codeBlock (strip name) mode [Node.ofLiteral ""] none

def inclusion : Parse Node := do
  let path ← expectBody "include" fun | .inclusion p => some p | _ => none
  return .inclusion (strip path)

/-! ## Tags -/

def addAttrs (tag : Tag) (table : Table String AttrText) (fixed : List String) : Tag :=
  table.toList.foldl (fun tag (name, val) =>
    tag.setAttribute name (match val with | .flag => .bool true | .expr s => .text s)
      (fixed.contains name)) tag

/-- The ids, classes and attribute lists after the name of a tag. -/
def tagHead : Nat → Tag → Parse Tag
  | 0, _ => throw .endless
  | n + 1, tag => do
    match (← peek).body with
    | .id s =>
      let _ ← advance
      tagHead n (tag.setAttribute "id" (.text ("\"" ++ s ++ "\"")))
    | .className s =>
      let _ ← advance
      tagHead n (tag.setAttribute "class" (.text ("\"" ++ s ++ "\"")))
    | .attrs table fixed =>
      let _ ← advance
      tagHead n (addAttrs tag table fixed)
    | _ => return tag

/-- Whether a tag is followed by a colon and an indented block. -/
def isPending : Parse Bool := do
  let i : Int := if (← lookahead 2).kind == "attrs" then 3 else 2
  if (← lookahead i).kind == ":" then return (← lookahead (i + 1)).kind == "indent"
  else return false

/-- Whether the content of a script is plain text: unless its type says otherwise. -/
def scriptIsText (tag : Tag) : Parse Bool := do
  match tag.getAttribute "type" with
  | some (.text s) => return s.isEmpty || stripQuotes s == "text/javascript"
  | some (.bool true) => throw .noSuchMember
  | _ => return true

/-- What stands on the line of a tag after its head. -/
structure OnLine where
  code : Option Node := none
  text : Option Node := none
  content : List Node := []

/-- What stands on the line of a tag after its head. -/
def onLine (self : Parse Node) : Parse OnLine := do
  match (← peekKind) with
  | "string" => return { text := some (← stringNode) }
  | "text" => return { text := some (← textNode) }
  | "code" => return { code := some (← code self) }
  | ":" =>
    let _ ← advance
    return { content := [← self] }
  | _ => return {}

/-- The end of a tag: its block, if there is one. -/
def tagBlock (text self : Parse Node) (line : Nat) (head : Tag) (rest : OnLine) : Parse Node := do
  if (← peekKind) == "indent" then
    if head.textOnly then
      setPipeless true
      let content ← text
      setPipeless false
      return .tag head rest.code rest.text content line
    else
      let (nodes, _) ← indented self
      return .tag head rest.code rest.text (Node.seq (rest.content ++ nodes)) line
  else return .tag head rest.code rest.text (Node.seq rest.content) line

def tagRest (text self : Parse Node) (name : String) (line : Nat) (head : Tag)
    (dot inline : Bool) : Parse Node := do
  let rest ← onLine self
  skipNewlines (← budget)
  let plain := dot || name == "script" || name == "style"
  let textOnly ← if name == "script" && !dot then scriptIsText head else pure plain
  tagBlock text self line { head with textOnly, inline } rest

def tagAfterHead (text self : Parse Node) (name : String) (line : Nat) (head : Tag) :
    Parse Node := do
  let mark := (← peek).text?
  let dot := mark == some "."
  let inline := mark == some "<"
  if dot || inline then
    let _ ← advance
  tagRest text self name line head dot inline

def tagBy (text self : Parse Node) : Parse Node := do
  if ← isPending then return .pending
  let name := (← advance).text?.getD "None"
  let line ← lineNow
  let head ← tagHead (← budget) { name }
  tagAfterHead text self name line head

def tag (self : Parse Node) : Parse Node := tagBy textBlock self

/-! ## Any form -/

/-- Read a form by the kind of the next token; text blocks are read by `text`, and forms inside it
by `self`. An id or a class without a tag belongs to a `div`. -/
def formBy (text self : Parse Node) : Parse Node := do
  let kind ← peekKind
  match kind with
  | "yield" =>
    let _ ← advance
    return .block [] none true
  | "id" | "class" =>
    let token ← advance
    changeSource fun s => (s.defer (s.tok (.tag "div"))).defer token
    self
  | "string" => stringNode
  | "text" => textNode
  | "assignment" => assignment
  | "code" => code self
  | "comment" => comment self
  | "doctype" => doctype
  | "filter" => filterBy text
  | "each" => each self
  | "conditional" => conditional self
  | "extends" => parent
  | "call" => call self
  | "mixin" => mixin self
  | "block" => namedBlock self
  | "include" => inclusion
  | "tag" => tagBy text self
  | _ => throw (.unexpected kind (← get).file (← lineNow))

/-- Read a form; forms inside it are read by `self`. -/
def form (self : Parse Node) : Parse Node := formBy textBlock self

/-- Read a form by `one`, which is told how to read the forms inside it, going at most so deep. -/
def within (one : Parse Node → Parse Node) : Nat → Parse Node
  | 0 => throw .endless
  | depth + 1 => one (within one depth)

/-- Read a form by `one`. -/
def expressionBy (one : Parse Node → Parse Node) : Parse Node := do within one (2 * (← budget))

def expression : Parse Node := expressionBy form

/-- Open a context, which is never possible, or close one. -/
def context (opening : Bool) : Parse Unit := do
  if opening then throw .noSuchMember
  else match (← get).contexts with
    | 0 => throw .noSuchPosition
    | n + 1 => modify fun r => { r with contexts := n }

/-- Read a whole template whose forms are read by `self`. -/
def templateBy (self : Parse Node) : Parse Node := do
  let line ← lineNow
  let nodes ← many "eos" self (← budget) []
  if (← get).extending then
    context true
  return .block nodes line false

def template : Parse Node := templateBy expression

def ofSource (source : Source) (file : Option String) : Reader := { source, file }

end Reader

def parse (source : Source) (file : Option String) : Except Fault Node :=
  (Reader.template.run.run (Reader.ofSource source file)).1

end Jade
