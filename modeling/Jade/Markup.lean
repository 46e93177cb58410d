import Jade.Text.Split
import Jade.Value.Compare
import Jade.Value.Flatten
import Jade.Value.Text

/-!
# Markup of values

What a rendered template does with values: characters with a meaning in markup are escaped, nested
classes are flattened, and attributes are written with their values.
-/

namespace Jade

/-! ## Escaping -/

/-- The characters with a meaning in markup and how they are written. Each of the others is written
with an ampersand, so this one is replaced first. -/
def entities : List (Char × String) :=
  [('&', "&amp;"), ('<', "&lt;"), ('>', "&gt;"), ('"', "&quot;"), ('\'', "&#39;")]

/-- A text with every occurrence of a character replaced. -/
@[irreducible] def replaceChar (c : Char) (text s : String) : String :=
  String.ofList (s.toList.flatMap fun d => if d = c then text.toList else [d])

/-- A text in which every character with a meaning in markup is escaped, one kind of character after
the other. -/
def escapeText (s : String) : String :=
  entities.foldl (fun s (c, text) => replaceChar c text s) s

/-- A value as text in markup. What knows its own markup is not escaped; bytes have none. -/
def escape : Value → Except Fault String
  | .html markup => .ok markup
  | .bytes _ => .error .wrongType
  | v => .ok (escapeText v.display)

/-! ## Flattening -/

/-- Values with the members of lists and tuples in the place of these. -/
def flattenItems (vs : List Value) : Except Fault (List Value) := Flattening.run { items := vs }

/-- The two members of a value that has to be a pair. -/
def asPair (v : Value) : Except Fault (Value × Value) := do
  match ← v.members with
  | [k, w] => return (k, w)
  | _ => throw .badValue

/-- A table from values that have to be pairs; a later pair replaces the value of an equal key. -/
def tableOf : List (Value × Value) → List Value → Except Fault (List (Value × Value))
  | table, [] => .ok table
  | table, v :: vs => do
    let (k, w) ← asPair v
    if k.mayBeKey then tableOf (store k w table) vs else throw .wrongType
where
  /-- Store a value under a key. -/
  store (k w : Value) : List (Value × Value) → List (Value × Value)
    | [] => [(k, w)]
    | (k', w') :: rest => if k'.same k then (k', w) :: rest else (k', w') :: store k w rest

def asByte : Value → Except Fault UInt8
  | .int n => if 0 ≤ n && n < 256 then .ok n.toNat.toUInt8 else .error .badValue
  | _ => .error .wrongType

/-- A sequence with all nested ones spliced in, as a value of the type it had. -/
def flatten (v : Value) : Except Fault Value := do
  let flat ← flattenItems (← v.members)
  match v with
  | .list _ => return .list flat
  | .tuple _ => return .tuple flat
  | .text _ => return .text (Value.list flat).inside
  | .bytes _ => return .bytes (← flat.mapM asByte)
  | .dict _ => return .dict (← tableOf [] flat)
  | .ordered _ => return .ordered (← tableOf [] flat)
  | .undefined name => return .undefined name
  | _ => throw .wrongType

/-! ## Attributes -/

/-- A value as text, where a tuple has to have one member. -/
def placeText : Value → Except Fault String
  | .tuple [v] => .ok v.display
  | .tuple _ => .error .wrongType
  | v => .ok v.display

/-- The value of a class: what a sequence holds, with blanks between. -/
def classValue (v : Value) : Except Fault Value := do
  match v.nested? with
  | some vs => return .text (joinWith " " ((← flattenItems vs).map Value.display))
  | none => return v

/-- One attribute with its value. An absent or false value has none; a true one is written by the
name alone if `terse`, else by the name twice. -/
def writeAttribute (terse skipUndefined : Bool) (k v : Value) : Except Fault (Option String) := do
  match v with
  | .none | .bool false => return none
  | .bool true =>
    if terse then return some (← placeText k)
    else return some (k.display ++ "=\"" ++ (← escape k) ++ "\"")
  | .undefined _ =>
    if skipUndefined then return none
    else return some (k.display ++ "=\"\"")
  | _ =>
    let shown ← (if k.same (.text "class") then classValue v else pure v) >>= escape
    return some (k.display ++ "=\"" ++ shown ++ "\"")

/-- Attributes with their values, each after a blank. With `skipUndefined`, names that the
environment knows nothing of are left out. -/
def writeAttributes (attrs : Value) (terse : Bool := false) (skipUndefined : Bool := false) :
    Except Fault String := do
  if attrs.truthy then
    let parts ← (← attrs.members).mapM fun entry => do
      let (k, v) ← asPair entry
      writeAttribute terse skipUndefined k v
    return joinWith " " ("" :: parts.filterMap id)
  else return ""

/-- One attribute as a value: its name alone if `terse` and the value is true or the name itself,
else the name and the value, unescaped. -/
def writeParam (key value : Value) (terse : Bool := false) : Except Fault Value :=
  if terse && (key.same value || value.isBool true) then .ok key
  else match value with
    | .bytes bs =>
      match String.fromUTF8? (ByteArray.mk bs.toArray) with
      | some s => .ok (.text (key.display ++ "=\"" ++ s ++ "\""))
      | none => .error .undecodable
    | _ => .ok (.text (key.display ++ "=\"" ++ value.display ++ "\""))

/-- The pairs of a table as attributes, unescaped. -/
def attributePairs : Value → Except Fault String
  | .dict pairs | .ordered pairs =>
    .ok (joinWith " " (pairs.map fun (k, v) => k.display ++ "=\"" ++ v.display ++ "\""))
  | _ => .error .noSuchMember

end Jade
