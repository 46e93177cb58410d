import Jade.Dialect.Tornado

/-!
# Django templates

Django leaves assignments, mixins and attributes to tags of their own. A mixin cannot be called with
a block.
-/

namespace Jade.Forms

def django (s : Setup) : Forms :=
  let base := (plain s).withAttributes s (plain s).output fun args =>
    statement ("__pyjade_attrs " ++ args)
  { base with
    namedBlock := fun name => blockForm (statement ("block " ++ name)) (statement "endblock")
      (doubleBraces "block.super") "append" "prepend"
    mixin := fun name args call content => Emit.deeper do
      if !call then
        between (statement ("__pyjade_kwacro " ++ name ++ " " ++ args))
          (statement "end__pyjade_kwacro") (needed content)
      else if content.isSome then
        throw (.notSupported "The mixin blocks are not supported yet.")
      else Emit.put (statement ("__pyjade_usekwacro " ++ name ++ " " ++ args))
    assignment := fun name value =>
      Emit.put (statement ("__pyjade_set " ++ name ++ " = " ++ value))
    code := codeForm s
      (fun expr escape => doubleBraces (localised expr ++ (if escape then "|force_escape" else "")))
      statement fun word => statement ("end" ++ word) }

end Jade.Forms
