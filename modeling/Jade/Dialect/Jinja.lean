import Jade.Dialect.Plain

/-!
# Jinja templates

Jinja has calls with a block. Inside of a mixin, a named block stands for the block of the caller,
and callers at a greater depth are told apart by number.
-/

namespace Jade.Forms

/-- The name of the caller at a depth of mixins. -/
def callerName (depth : Int) : String :=
  if 1 < depth then "__pyjade_caller_" ++ toString depth else "caller"

def jinja (s : Setup) : Forms :=
  { plain s with
    namedBlock := fun name mode body => do
      let depth := (← get).mixing
      if 0 < depth then
        let caller := callerName depth
        Emit.put (statement ("if " ++ caller) ++ s.variableStart ++ " " ++ caller ++ "() " ++
          s.variableEnd ++ statement "endif")
      else
        blockForm (statement ("block " ++ name)) (statement "endblock")
          (s.variableStart ++ "super()" ++ s.variableEnd) "append" "prepend" mode body
    mixin := fun name args call content => Emit.deeper do
      let applied := name ++ "(" ++ args ++ ")"
      if !call then
        between (statement ("macro " ++ applied)) (statement "endmacro") (needed content)
      else match content with
        | some (_, body) =>
          let depth := (← get).mixing
          if 1 < depth then
            Emit.put (statement ("set __pyjade_caller_" ++ toString depth ++ "=caller"))
          between (statement ("call " ++ applied)) (statement "endcall") body
        | none => Emit.put (s.variableStart ++ applied ++ s.variableEnd)
    each := fun subject keys => eachForm
      (statement ("for " ++ joinWith "," keys ++ " in __pyjade_iter(" ++ subject ++ "," ++
        toString keys.length ++ ")"))
      (statement "endfor") }

end Jade.Forms
