import Jade.Dialect.Plain

/-!
# Mako templates

Mako writes variables after a dollar sign, blocks and definitions as tags, and control lines that
begin with a percent sign.
-/

namespace Jade.Forms

def dollar (expr : String) : String := "$\x7b" ++ expr ++ "\x7d"

def controlLine (s : String) : String := "\\\n% " ++ s ++ "\n"

def mako (s : Setup) : Forms :=
  let output (expr : String) (escape : Bool) : String :=
    dollar (expr ++ (if escape then "| h" else "| n"))
  let base := (plain s).withAttributes s output fun args =>
    dollar ("__pyjade_attrs(" ++ args ++ ", undefined=Undefined)")
  { base with
    opening := "# -*- coding: utf-8 -*-\n" ++
      "<%! from pyjade.runtime import attrs as __pyjade_attrs, " ++
      "iteration as __pyjade_iter\nfrom mako.runtime import Undefined %>"
    interpolate := fun _ text => pure (fill dollar text)
    namedBlock := fun name mode body => do
      if 0 < (← get).mixing then Emit.put (dollar "caller.body() if caller else \"\"")
      else
        blockForm ("<%block name=\"" ++ name ++ "\">") "</%block>"
          (dollar ("parent." ++ name ++ "()")) "append" "prepend" mode body
    mixin := fun name args call content => Emit.deeper do
      let applied := name ++ "(" ++ args ++ ")"
      if !call then between ("<%def name=\"" ++ applied ++ "\">") "</%def>" (needed content)
      else match content with
        | some (_, body) => between ("<%call expr=\"" ++ applied ++ "\">") "</%call>" body
        | none => Emit.put (dollar applied)
    assignment := fun name value => Emit.put ("<% " ++ name ++ " = " ++ value ++ " %>")
    parent := fun path => Emit.put ("<%inherit file=\"" ++ s.path path ++ "\"/>")
    inclusion := fun path => Emit.put ("<%include file=\"" ++ s.path path ++ "\"/>")
    code := codeForm s (fun expr escape => output (localised expr) escape)
      (fun source => "<% " ++ source ++ " %>") fun word => "</%" ++ word ++ ">"
    each := fun subject keys => eachForm
      (controlLine ("for " ++ joinWith "," keys ++ " in __pyjade_iter(" ++ subject ++ "," ++
        toString keys.length ++ "):"))
      (controlLine "endfor")
    conditional := conditionalForm conditionHead (fun h => controlLine (h ++ ":"))
      (controlLine "endif") }

end Jade.Forms
