import Jade.Emitter.Forms

/-!
# The plain dialect

The dialect that all others vary: statements stand between a brace with a percent sign, variables
between delimiters that can be chosen, and helpers of the rendered page have names of their own.
-/

namespace Jade

def statement (s : String) : String := "\x7b% " ++ s ++ " %\x7d"

namespace Forms

/-- A named block with the parent's content before or after its own. -/
def blockForm (start stop super : String) (early late : String) (mode : String)
    (body : Emit Unit) : Emit Unit := do
  Emit.put start
  if mode == early then Emit.put super
  body
  if mode == late then Emit.put super
  Emit.put stop

def plain (s : Setup) : Forms :=
  let output (expr : String) (escape : Bool) : String :=
    s.variableStart ++ localised expr ++ (if escape then "|escape" else "") ++ s.variableEnd
  let call (args : String) : String :=
    s.variableStart ++ "__pyjade_attrs(" ++ args ++ ")" ++ s.variableEnd
  { interpolate := fun escape text => pure <| fill
      (fun e => s.variableStart ++ e ++ (if escape then "|escape" else "") ++ s.variableEnd) text
    output
    attributeCall := call
    computed := computedAttributes call
    attributes := attributeList s (output · false) (computedAttributes call)
    namedBlock := fun name => blockForm (statement ("block " ++ name)) (statement "endblock")
      (s.variableStart ++ "super()" ++ s.variableEnd) "prepend" "append"
    mixin := fun name args _ content =>
      match content with
      | some (_, body) =>
        between (statement ("macro " ++ name ++ "(" ++ args ++ ")")) (statement "endmacro") body
      | none => throw .badValue
    assignment := fun name value => Emit.put (statement ("set " ++ name ++ " = " ++ value))
    parent := fun path => Emit.put (statement ("extends \"" ++ s.path path ++ "\""))
    inclusion := fun path => Emit.put (statement ("include \"" ++ s.path path ++ "\""))
    code := codeForm s output statement fun word => statement ("end" ++ word)
    each := fun subject keys => eachForm
      (statement ("for " ++ joinWith "," keys ++ " in " ++ subject ++ "|__pyjade_iter:" ++
        toString keys.length))
      (statement "endfor")
    conditional := conditionalForm conditionHead statement (statement "endif") }

end Forms

end Jade
