import Jade.Emitter.Forms
import Jade.Node.Attributes

/-!
# Writing nodes

A tree is written from left to right by recursion on it. Tags, text, comments and filters are
written in the same way in all dialects; everything else is left to the forms of the dialect.
-/

namespace Jade.Emit

def isTag : Node → Bool
  | .tag .. => true
  | _ => false

/-- A line break, if piped text stands before anything but a tag. -/
def before (isTag : Bool) : Emit Unit := do
  if (← get).inString && !isTag then
    put "\n"
    modify fun e => { e with inString := false }

def tagText (n : Node) : Except Fault String :=
  match n.nodes? with
  | none => .error .noSuchMember
  | some [] => .error .noSuchPosition
  | some (.bare s :: _) => .ok (stripStart s)
  | some _ => .error .noSuchMember

def onlyText (head : Tag) (content : Node) : Except Fault Bool :=
  if head.textOnly then .ok true
  else match content.nodes? with
    | some nodes => .ok nodes.isEmpty
    | none => .error .noSuchMember

/-- The start of a tag: the document type before the first `html` tag, a new line for what is not
inline, and the name. -/
def openTag (s : Setup) (head : Tag) : Emit Unit := do
  modify fun e => { e with indents := e.indents + 1 }
  unless (← get).hasTag do
    if !(← get).hasDoctype && head.name == "html" then doctype s none
    modify fun e => { e with hasTag := true }
  let inline := s.inlineTags.contains head.name
  if s.pretty && !inline && !head.inline then line ((← get).indents - 1)
  if inline || head.inline then modify fun e => { e with inString := false }
  put ("<" ++ head.name)

/-- The end of a tag, on a new line unless it is inline or holds only text. -/
def closeTag (s : Setup) (head : Tag) (textOnly : Bool) : Emit Unit := do
  if s.pretty && !s.inlineTags.contains head.name && !textOnly then line ((← get).indents - 1)
  put ("</" ++ head.name ++ ">")

def blockText : Option Node → Except Fault String
  | some (.text parts _) | some (.string parts _) => .ok (String.join parts)
  | _ => .error .noSuchMember

def filter (s : Setup) (f : Forms) (name : String) (attrs : Option FilterAttrs)
    (content : Option Node) : Emit Unit := do
  let nodes := match content with
    | some n => if n.isBlock then n.nodes? else none
    | none => none
  match s.filters.get? name, nodes with
  | none, some _ => throw (.unknownTreeFilter name)
  | none, none => throw (.unknownFilter name)
  | some (.ofNodes g), some nodes => push (g nodes)
  | some (.ofText _), some _ => throw .wrongType
  | some chosen, none =>
    let text ← f.interpolate true (← (blockText content : Except Fault _))
    match chosen with
    | .ofText g =>
      put (g text (Table.storeIn "filename" s.filename ((attrs.map FilterAttrs.pairs).getD [])))
    | .ofNodes _ => throw .wrongType

def comment (s : Setup) (content : String) : Emit Unit := do
  if s.pretty then line (← get).indents
  put ("<!--" ++ content ++ "-->")

/-- Whether the head of a comment makes it conditional. -/
def isConditional (head : String) : Bool := (strip head).startsWith "if"

/-- The text that opens a comment with a block. -/
def openComment (head : String) : String :=
  if isConditional head then "<!--[" ++ strip head ++ "]>" else "<!--" ++ head

/-- The text that closes a comment with a block. -/
def closeComment (head : String) : String :=
  if isConditional head then "<![endif]-->" else "-->"

mutual

def node (s : Setup) (f : Forms) : Node → Emit Unit
  | .block ns _ _ => nodes s f ns
  | .codeBlock name mode ns _ => f.namedBlock name mode (nodes s f ns)
  | .tag head codePart textPart content _ => do
    openTag s head
    let closed := s.selfClosing.contains head.name && !(← get).xml
    f.attributes (← (head.attributes : Except Fault _))
    put (if !(← get).terse && closed then "/>" else ">")
    unless closed do
      codeOf s f codePart
      if let some t := textPart then
        put (← f.interpolate true (← (tagText t : Except Fault _)))
      let textOnly ← (onlyText head content : Except Fault _)
      modify fun e => { e with inString := false }
      before (isTag content)
      node s f content
      closeTag s head textOnly
    modify fun e => { e with indents := e.indents - 1 }
  | .text parts _ => do
    put (← f.interpolate false (String.join parts))
    if s.pretty then put "\n"
  | .string parts _ => do
    put (← f.interpolate true (String.join parts))
    modify fun e => { e with inString := true }
  | .code source buffer escape content _ => f.code source buffer escape (optional s f content)
  | .comment content buffer _ => if buffer then comment s content else pure ()
  | .blockComment head buffer content _ => do
    if buffer then
      put (openComment head)
      required s f content
      put (closeComment head)
  | .doctype name _ => doctype s (some name)
  | .each subject keys content _ => f.each subject keys (required s f content)
  | .assignment name value => f.assignment name value
  | .mixin name args content call => f.mixin name args call (inner s f content)
  | .parent path => f.parent path
  | .inclusion path => f.inclusion path
  | .conditional word sentence content next _ =>
    f.conditional word sentence (optional s f content) (chain s f next)
  | .filter name attrs content _ => filter s f name attrs content
  | .literal content => put content
  | .bare _ => throw .noSuchMember
  | .pending => throw .noSuchMember

def nodes (s : Setup) (f : Forms) : List Node → Emit Unit
  | [] => pure ()
  | n :: ns => do
    before (isTag n)
    node s f n
    nodes s f ns

def optional (s : Setup) (f : Forms) : Option Node → Option (Emit Unit)
  | none => none
  | some n => some do
    before (isTag n)
    node s f n

def required (s : Setup) (f : Forms) : Option Node → Emit Unit
  | none => do
    before false
    throw .noSuchMember
  | some n => do
    before (isTag n)
    node s f n

/-- The content of a mixin and what writes the nodes in it. -/
def inner (s : Setup) (f : Forms) : Option Node → Option (Node × Emit Unit)
  | none => none
  | some n => some (n, inside s f n)

def inside (s : Setup) (f : Forms) : Node → Emit Unit
  | .block ns _ _ => nodes s f ns
  | .codeBlock _ _ ns _ => nodes s f ns
  | .text parts _ => unless parts.isEmpty do before false; throw .noSuchMember
  | .string parts _ => unless parts.isEmpty do before false; throw .noSuchMember
  | _ => throw .noSuchMember

/-- What writes the alternatives of a conditional. -/
def chain (s : Setup) (f : Forms) : List Node → List (Emit Unit)
  | [] => []
  | .conditional word sentence content next _ :: ns =>
    f.conditional word sentence (optional s f content) (chain s f next) :: chain s f ns
  | _ :: ns => throw .noSuchMember :: chain s f ns

def codeOf (s : Setup) (f : Forms) : Option Node → Emit Unit
  | none => pure ()
  | some (.code source buffer escape content _) =>
    f.code source buffer escape (optional s f content)
  | some _ => throw .noSuchMember

end

/-- Write a node, after a line break if piped text stands before it. -/
def visit (s : Setup) (f : Forms) (n : Node) : Emit Unit := do
  before (isTag n)
  node s f n

def template (s : Setup) (f : Forms) (root : Node) : Emit Unit := do
  push f.opening
  visit s f root

end Jade.Emit
