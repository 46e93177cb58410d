import Jade.Dialect.Plain

/-!
# Tornado templates

Tornado closes everything with one word, has no mixins, and leaves escaping to a helper.
-/

namespace Jade.Forms

/-- An expression of a template between double braces. -/
def doubleBraces (expr : String) : String := "\x7b\x7b" ++ expr ++ "\x7d\x7d"

/-- An expression of a Tornado template that is escaped. -/
def escapeCall (expr : String) : String := doubleBraces ("__pyjade_escape(" ++ expr ++ ")")

def tornado (s : Setup) : Forms :=
  let base := (plain s).withAttributes s (plain s).output fun args =>
    doubleBraces ("__pyjade_attrs(" ++ args ++ ")")
  { base with
    opening := statement "autoescape None"
    interpolate := fun _ text => pure (fill escapeCall text)
    namedBlock := fun name => blockForm (statement ("block " ++ name)) (statement "end")
      (doubleBraces "super()") "append" "prepend"
    mixin := fun _ _ _ _ => throw (.notSupported "mixin")
    code := codeForm s
      (fun expr escape =>
        if escape then escapeCall (localised expr) else doubleBraces (localised expr))
      statement fun word => statement ("end" ++ word)
    each := fun subject keys => eachForm
      (statement ("for " ++ joinWith "," keys ++ " in __pyjade_iter(" ++ subject ++ "," ++
        toString keys.length ++ ")"))
      (statement "end")
    conditional := conditionalForm conditionHead statement (statement "end") }

end Jade.Forms
