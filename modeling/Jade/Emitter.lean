import Jade.Session
import Jade.Text.Path

/-!
# Emitters

While a template is written, output is collected in pieces together with what decides about layout:
the depth of tags and of mixins, the document type, and whether text has just been written. Text
that is `put` joins the piece before it if that was put too; what is `push`ed is a piece of its own.
Whether a text may join is not seen from the piece but from a count that was taken when it was put,
and the text joins a copy of the piece, which then takes its place.
-/

namespace Jade

/-- A piece of output. Only rendering a page can bring about one that is no text. -/
inductive Piece where
  | text (s : String)
  | value (v : Value)
  deriving Repr, Inhabited

def Piece.ofValue : Value → Piece
  | .text s => .text s
  | v => .value v

theorem Piece.mark_le_nil : (-1 : Int) ≤ ([] : List Piece).length := by decide

theorem Piece.mark_ne_nil (h : (-1 : Int) = ([] : List Piece).length) :
    ∃ rest, ([] : List Piece) = .text "" :: rest := by cases h

/-- Output in pieces. -/
structure Buffer where
  /-- The pieces so far, the last one first. -/
  pieces : List Piece := []
  /-- A copy of the piece that was put last. -/
  shadow : String := ""
  /-- How many pieces there were when it had been put; -1 if none was. -/
  mark : Int := -1
  /-- No piece is taken away. -/
  bound : mark ≤ pieces.length := by exact Piece.mark_le_nil
  /-- If no piece has come since, the copy is that of the last piece. -/
  sound : mark = pieces.length → ∃ rest, pieces = .text shadow :: rest := by
    exact Piece.mark_ne_nil
  deriving Repr

instance : Inhabited Buffer := ⟨{}⟩

namespace Buffer

/-- Add a text to the piece that was put last, if no piece has come since. -/
def put (s : String) (b : Buffer) : Buffer :=
  if b.mark = b.pieces.length then
    let shadow := b.shadow ++ s
    { pieces := .text shadow :: b.pieces.tail, shadow, mark := b.mark
      bound := Int.le_trans b.bound (by simp only [List.length_cons, List.length_tail]; omega)
      sound := fun _ => ⟨_, rfl⟩ }
  else
    { pieces := .text s :: b.pieces, shadow := s, mark := b.pieces.length + 1
      bound := Int.le_refl _
      sound := fun _ => ⟨_, rfl⟩ }

def push (p : Piece) (b : Buffer) : Buffer :=
  { b with
    pieces := p :: b.pieces
    bound := Int.le_trans b.bound (by simp only [List.length_cons]; omega)
    sound := fun h => absurd (h ▸ b.bound) (by simp only [List.length_cons]; omega) }

end Buffer

/-- The state while a template is written. -/
structure Emitter extends Buffer where
  /-- The document type. -/
  doctype : Option String := none
  /-- Whether attributes and tags are written in the short form. -/
  terse : Bool := false
  /-- Whether the document is XML, in which no tag is closed at once. -/
  xml : Bool := false
  /-- The depth of tags. -/
  indents : Int := 0
  /-- The depth of mixins. -/
  mixing : Int := 0
  /-- Whether a piped text was the last to be written. -/
  inString : Bool := false
  /-- Whether a tag has been written. -/
  hasTag : Bool := false
  /-- Whether a document type has been written. -/
  hasDoctype : Bool := false
  /-- The number of the next loop, if loops are numbered. -/
  counter : Option Int := none
  /-- What scripts of the page have defined. -/
  page : Page := {}
  deriving Repr, Inhabited

/-- Actions that write and may fail. What was written before a fault stays. -/
abbrev Emit := ExceptT Fault (StateM Emitter)

namespace Emitter

/-- Add a text to the piece before it, if that was put too. -/
def put (s : String) (e : Emitter) : Emitter := { e with toBuffer := e.toBuffer.put s }

def push (p : Piece) (e : Emitter) : Emitter := { e with toBuffer := e.toBuffer.push p }

/-- The text of a piece; a value that is no text cannot be written. -/
def pieceText : Piece → Except Fault String
  | .text s => .ok s
  | .value _ => .error .wrongType

def result (e : Emitter) : Except Fault String := do
  return String.join (← e.pieces.reverse.mapM pieceText)

/-- Choose a document type by name. Only some names bring the short form. -/
def setDoctype (s : Setup) (name : Option String) (e : Emitter) : Emitter :=
  let key := match name with
    | some n => if n.isEmpty then "default" else n
    | none => "default"
  let doctype := (s.doctypes.get? key).getD ("<!DOCTYPE " ++ key ++ ">")
  { e with doctype := some doctype, terse := name == some "5" || name == some "html"
           xml := doctype.startsWith "<?xml" }

end Emitter

namespace Emit

/-- Add a text to the piece before it, if that was put too. -/
def put (s : String) : Emit Unit := modify (Emitter.put s)

def push (s : String) : Emit Unit := modify (Emitter.push (.text s))

def pushValue (v : Value) : Emit Unit := modify (Emitter.push (.ofValue v))

def line (depth : Int) : Emit Unit := put ("\n" ++ repeatText depth.toNat "  ")

/-- Run an action one level of mixins deeper. A fault leaves the depth as it is. -/
def deeper (act : Emit Unit) : Emit Unit := do
  modify fun e => { e with mixing := e.mixing + 1 }
  act
  modify fun e => { e with mixing := e.mixing - 1 }

/-- Write the document type, after choosing one if the template names one or none is chosen. -/
def doctype (s : Setup) (name : Option (Option String)) : Emit Unit := do
  if let some name := name then
    let given := name.filter (!·.isEmpty)
    if given.isSome || !(← get).doctype.any (!·.isEmpty) then
      modify (Emitter.setDoctype s (some (given.getD "default")))
  if let some d := (← get).doctype then
    unless d.isEmpty do put d
  modify fun e => { e with hasDoctype := true }

end Emit

/-! ## Names and paths in templates -/

/-- A path with the extension that templates have, unless its file name has a dot. -/
def Setup.path (s : Setup) (path : String) : String :=
  if (Path.fileName path).contains '.' then path else path ++ s.extension

/-- An expression in which an underscore and a blank before a text stand for its localised form. -/
def localised (expr : String) : String :=
  match expr.toList with
  | '_' :: ' ' :: rest => "_(\"" ++ String.ofList rest ++ "\")"
  | _ => expr

end Jade
