import Jade.Proofs.Dialect.Alike
import Jade.Proofs.Emitter.Brackets
import Jade.Proofs.Emitter.Depth

/-!
# Elements and directives of Jinja templates

In a Jinja template, elements and directives are opened and closed by the nodes of the tree. The
table `Node.bracket?` has the pieces that a node opens and closes with, and `Node.plan` what a node
does before, between and after them. Plans leave open how the children of a node are written and
what else is done around them, so that a tree can be written by them with a record or without
(`Emit.Hooks`).

What a node is may depend on the state in which it is visited, but can be told before anything of it
is written: what leads to a tag may write a document type, but does not choose one.

## Main results

* `Jade.Emit.node_eq_run` : in a Jinja template, nodes are written by their plans
-/

namespace Jade

open Forms (codeWord conditionHead)

/-- Whether a tag is closed at once. -/
def Emitter.closesAtOnce (s : Setup) (head : Tag) (e : Emitter) : Bool :=
  s.selfClosing.contains head.name && !e.xml

/-! ## Brackets -/

namespace Bracket

/-- An element. -/
def element (name : String) : Bracket := ⟨"<" ++ name, "</" ++ name ++ ">"⟩

/-- A comment with a block. -/
def comment (head : String) : Bracket := ⟨Emit.openComment head, Emit.closeComment head⟩

theorem start_comment (head : String) : (comment head).start = Emit.openComment head := by
  rw [comment]

theorem stop_comment (head : String) : (comment head).stop = Emit.closeComment head := by
  rw [comment]

/-- A directive with its end. -/
def directive (head last : String) : Bracket := ⟨statement head, statement last⟩

/-- A loop. -/
def loop (subject : String) (keys : List String) : Bracket :=
  directive ("for " ++ joinWith "," keys ++ " in __pyjade_iter(" ++ subject ++ "," ++
    toString keys.length ++ ")") "endfor"

/-- Code that is closed by the writer. -/
def code (source : String) : Bracket := directive source ("end" ++ codeWord source)

end Bracket

/-- The bracket of a node in a Jinja template, for the state in which the node is visited. In XML no
tag is closed at once, and within mixins a named block stands for the block of the caller. -/
@[simp] def Node.bracket? (s : Setup) (e : Emitter) : Node → Option Bracket
  | tag head _ _ _ _ => if e.closesAtOnce s head then none else some (.element head.name)
  | blockComment head buffer _ _ => if buffer then some (.comment head) else none
  | codeBlock name _ _ _ =>
    if 0 < e.mixing then none else some (.directive ("block " ++ name) "endblock")
  | mixin name args _ false =>
    some (.directive ("macro " ++ (name ++ "(" ++ args ++ ")")) "endmacro")
  | mixin name args (some _) true =>
    some (.directive ("call " ++ (name ++ "(" ++ args ++ ")")) "endcall")
  | each subject keys _ _ => some (.loop subject keys)
  | conditional word sentence _ _ _ =>
    if word == "if" || word == "unless" then
      (conditionHead word sentence).map fun head => .directive head "endif"
    else none
  | code source false _ (some _) _ =>
    if s.autoclose.contains (codeWord source) then some (.code source) else none
  | _ => none

namespace Emit

/-! ## Tags -/

/-- The attributes of a tag. -/
def tagAttributes (s : Setup) (head : Tag) : Emit Unit := do
  (Forms.jinja s).attributes (← (head.attributes : Except Fault _))

/-- A tag that is closed at once, after all that leads to it. -/
def closedTag (s : Setup) (head : Tag) : Emit Unit := do
  put ("<" ++ head.name)
  tagAttributes s head
  put (if !(← get).terse then "/>" else ">")

/-- A tag that is closed at once, or an element with all that is in it. -/
def tagOrElement (s : Setup) (closed : Bool) (head : Tag) (code text : Option Node)
    (content : Node) : Emit Unit := do
  if closed then closedTag s head
  else
    put ("<" ++ head.name)
    tagAttributes s head
    put ">"
    codeOf s (.jinja s) code
    textOf (.jinja s) text
    let textOnly ← (onlyText head content : Except Fault _)
    modify fun e => { e with inString := false }
    visit s (.jinja s) content
    lineIf s (!s.inlineTags.contains head.name && !textOnly) 1
    put ("</" ++ head.name ++ ">")

theorem put_get (t : String) (k : Emitter → Emit Unit) :
    (do put t; let e ← get; k e) = (do let e ← get; put t; k (e.put t)) := rfl

theorem get_ignored (act : Emit Unit) : (do let _ ← get; act) = act := rfl

/-- Whether a tag is closed at once can be told before all that leads to it. -/
theorem tagLead_get (s : Setup) (head : Tag) (k : Bool → Emit Unit) :
    (do tagLead s head; let e ← get; k (e.closesAtOnce s head)) =
      (do let e ← get; tagLead s head; k (e.closesAtOnce s head)) := by
  refine ExceptT.ext (StateT.ext fun e => ?_)
  show (tagLead s head >>= fun _ => get >>= fun e => k (e.closesAtOnce s head)).run.run e =
    (tagLead s head >>= fun _ => k (e.closesAtOnce s head)).run.run e
  have hxml : Keeps Emitter.xml (tagLead s head) := keeps_tagLead (fun _ _ _ _ _ _ _ => rfl) s head
  rw [Reader.run_bind, Reader.run_bind]
  rcases hrun : (tagLead s head).run.run e with ⟨f | _, e₁⟩
  · rfl
  · show (k (e₁.closesAtOnce s head)).run.run e₁ = (k (e.closesAtOnce s head)).run.run e₁
    rw [Emitter.closesAtOnce, Emitter.closesAtOnce, hxml _ _ _ hrun]

theorem node_tag_jinja (s : Setup) (head : Tag) (code text : Option Node) (content : Node)
    (line : Option Nat) : node s (.jinja s) (.tag head code text content line) = (do
      let e ← get
      tagLead s head
      tagOrElement s (e.closesAtOnce s head) head code text content
      modify fun e => { e with indents := e.indents - 1 }) := by
  rw [← tagLead_get s head fun closed => do
    tagOrElement s closed head code text content
    modify fun e => { e with indents := e.indents - 1 }]
  rw [node_tag, openTag_eq, bind_assoc]
  refine congrArg _ (funext fun _ => ?_)
  rw [put_get]
  refine congrArg _ (funext fun e => ?_)
  rw [← Emitter.closesAtOnce, show (e.put _).closesAtOnce s head = e.closesAtOnce s head from rfl]
  cases e.closesAtOnce s head with
  | true =>
    simp only [tagOrElement, closedTag, tagAttributes, bind_assoc, if_true, Bool.and_true]
  | false =>
    simp only [tagOrElement, tagAttributes, tagInside_eq, Writing.tagEnd, Writing.visit,
      Writing.walk, visit, closeTag_eq, bind_assoc, Bool.and_false, Bool.false_eq_true, if_false,
      get_ignored]

/-- A text that may be left out. -/
def putIf (c : Bool) (text : String) : Emit Unit := if c then put text else pure ()

/-- What stands for the block of the caller. -/
def callerBlock (s : Setup) (depth : Int) : String :=
  statement ("if " ++ Forms.callerName depth) ++ s.variableStart ++ " " ++ Forms.callerName depth ++
    "() " ++ s.variableEnd ++ statement "endif"

/-- What a call within a mixin keeps of the caller. -/
def keepCaller : Emit Unit := do
  let depth := (← get).mixing
  if 1 < depth then put (statement ("set __pyjade_caller_" ++ toString depth ++ "=caller"))

/-! ## Plans -/

/-- A portion of what a node does: something without nodes in it, a child, or what is in a child. -/
inductive Portion where
  | act (act : Emit Unit)
  | child (i : Nat)
  | inside (i : Nat)

/-- What a node does: what leads to it, how the pieces of its bracket are written, what is between
them, and what follows. -/
structure Plan where
  lead : Emit Unit := pure ()
  write : String → Emit Unit := put
  body : List Portion
  trail : Emit Unit := pure ()

/-- What a plan leaves open: how children are written, how what is in them is, and what is done
around the body. -/
structure Hooks (m : Type → Type) where
  child : Nat → m Unit
  inside : Nat → m Unit
  around : (write : String → Emit Unit) → m Unit → m Unit

section Run

variable {m : Type → Type} [Monad m] [MonadLiftT Emit m] (h : Hooks m)

def Portion.run : Portion → m Unit
  | act a => liftM a
  | child i => h.child i
  | inside i => h.inside i

def runAll : List Portion → m Unit
  | [] => pure ()
  | p :: ps => do
    p.run h
    runAll ps

def Plan.run (p : Plan) : m Unit := do
  liftM p.lead
  h.around p.write (runAll h p.body)
  liftM p.trail

theorem runAll_append [LawfulMonad m] (ps qs : List Portion) :
    runAll h (ps ++ qs) = (do runAll h ps; runAll h qs) := by
  induction ps with
  | nil => rw [List.nil_append, runAll, pure_bind]
  | cons p ps ih => rw [List.cons_append, runAll, runAll, ih, bind_assoc]

end Run

/-- Children one after the other, from the child `i` on. -/
def visits (i : Nat) : List Node → List Portion
  | [] => []
  | n :: ns => .act (before (isTag n)) :: .child i :: visits (i + 1) ns

/-- Children that have to be of some kind. -/
def choices (kind : Node → Bool) (i : Nat) : List Node → List Portion
  | [] => []
  | n :: ns =>
    (if kind n then .child i else .act (throw .noSuchMember)) :: choices kind (i + 1) ns

/-- A first child that has to be there. -/
def needs : Option Node → List Portion
  | none => [.act (before false), .act (throw .noSuchMember)]
  | some n => visits 0 [n]

end Emit

open Emit

/-- What is in a node. -/
def Node.contents (s : Setup) : Node → List Portion
  | block ns _ _ | codeBlock _ _ ns _ => visits 0 ns
  | n => [.act (Emit.inside s (.jinja s) n)]

/-- What a node does in a Jinja template, for the state in which it is visited. -/
def Node.plan (s : Setup) (e : Emitter) : Node → Plan
  | block ns _ _ => { body := visits 0 ns }
  | codeBlock _ mode ns _ =>
    let super := s.variableStart ++ "super()" ++ s.variableEnd
    { body :=
        if 0 < e.mixing then [.act (put (callerBlock s e.mixing))]
        else .act (putIf (mode == "append") super) ::
          (visits 0 ns ++ [.act (putIf (mode == "prepend") super)]) }
  | tag head c t content _ =>
    { lead := tagLead s head
      body :=
        if e.closesAtOnce s head then [.act (closedTag s head)]
        else .act (tagAttributes s head) :: .act (put ">") :: (choices isCode 0 c.toList ++
          .act (textOf (.jinja s) t) :: .act (do
            let _ ← (onlyText head content : Except Fault _)
            modify fun e => { e with inString := false }) ::
          (visits (c.toList ++ t.toList).length [content] ++ [.act (do
            let textOnly ← (onlyText head content : Except Fault _)
            lineIf s (!s.inlineTags.contains head.name && !textOnly) 1)]))
      trail := modify fun e => { e with indents := e.indents - 1 } }
  | code source buffer escape content _ =>
    { write := push
      body :=
        (if !buffer && content.isSome && s.autoclose.contains (codeWord source) then []
        else [.act (push (if buffer then (Forms.jinja s).output (stripStart source) escape
          else statement source))]) ++ visits 0 content.toList }
  | blockComment _ buffer content _ => { body := if buffer then needs content else [] }
  | each _ _ content _ => { write := push, body := needs content }
  | mixin name args content call =>
    { lead := do
        modify fun e => { e with mixing := e.mixing + 1 }
        if call && content.isSome then keepCaller
      body := match call, content with
        | true, none =>
          [.act (put (s.variableStart ++ (name ++ "(" ++ args ++ ")") ++ s.variableEnd))]
        | false, none => [.act (throw .noSuchMember)]
        | _, some _ => [.inside 0]
      trail := modify fun e => { e with mixing := e.mixing - 1 } }
  | conditional word sentence content next _ =>
    { write := push
      body := match conditionHead word sentence with
        | none => [.act (throw .noSuchKey)]
        | some head =>
          (if word == "if" || word == "unless" then [] else [.act (push (statement head))]) ++
            (visits 0 content.toList ++
              if content.isSome then choices isConditional 1 next else []) }
  | n => { body := [.act (Emit.node s (.jinja s) n)] }

namespace Emit

/-- The walk: nothing is done around the body but that the pieces of the bracket are written. -/
def Hooks.walk (s : Setup) (n : Node) (b : Option Bracket) : Hooks Emit where
  child i := n.children[i]?.elim (pure ()) (node s (.jinja s))
  inside i := n.children[i]?.elim (pure ()) (Emit.inside s (.jinja s))
  around write body := match b with
    | some b => do
      write b.start
      body
      write b.stop
    | none => body

/-! ## The walk by plans -/

variable {s : Setup} {h : Hooks Emit} {n : Node} {b : Option Bracket}

theorem child_walk {c : Node} {before after : List Node} (hn : n.children = before ++ c :: after) :
    (Hooks.walk s n b).child before.length = node s (.jinja s) c := by
  simp only [Hooks.walk, hn, List.getElem?_append_right (Nat.le_refl _), Nat.sub_self,
    List.getElem?_cons_zero, Option.elim_some]

theorem runAll_visits (s : Setup) (i : Nat) (before ns after : List Node)
    (hn : n.children = before ++ (ns ++ after)) (hi : before.length = i) :
    runAll (.walk s n b) (visits i ns) = nodes s (.jinja s) ns := by
  induction ns generalizing i before with
  | nil => rw [visits, nodes, runAll]
  | cons c ns ih =>
    have hrest := ih (i + 1) (before ++ [c]) (by rw [hn]; simp) (by simp [hi])
    rw [visits, nodes, runAll, runAll, hrest, ← child_walk hn, hi]
    rfl

theorem runAll_choices (s : Setup) (kind : Node → Bool) (i : Nat) (before ns after : List Node)
    (hn : n.children = before ++ (ns ++ after)) (hi : before.length = i) :
    runAll (.walk s n b) (choices kind i ns) =
      Forms.all (ns.map fun n => if kind n then node s (.jinja s) n else throw .noSuchMember) := by
  induction ns generalizing i before with
  | nil => rfl
  | cons c ns ih =>
    have hrest := ih (i + 1) (before ++ [c]) (by rw [hn]; simp) (by simp [hi])
    rw [choices, runAll, hrest, List.map_cons, Forms.all, ← child_walk hn, hi]
    cases kind c <;> rfl

theorem runAll_act (act : Emit Unit) (ps : List Portion) :
    runAll h (.act act :: ps) = (do act; runAll h ps) := rfl

theorem runAll_nil : runAll h [] = pure () := rfl

theorem runAll_children (s : Setup) (ns : List Node) (hn : n.children = ns) :
    runAll (.walk s n b) (visits 0 ns) = nodes s (.jinja s) ns :=
  runAll_visits s 0 [] ns [] (hn.trans (List.append_nil ns).symm) rfl

theorem nodes_singleton (s : Setup) (n : Node) :
    nodes s (.jinja s) [n] = visit s (.jinja s) n := by
  simp only [nodes, visit, bind_pure_unit]

theorem runAll_needs (s : Setup) (c : Option Node) (hn : n.children = c.toList) :
    runAll (.walk s n b) (needs c) = required s (.jinja s) c := by
  cases c with
  | none =>
    rw [needs, required]
    rfl
  | some m =>
    rw [needs, required]
    exact (runAll_children s [m] hn).trans (nodes_singleton s m)

theorem Plan.run_some (p : Plan) (n : Node) (b : Bracket) :
    p.run (.walk s n (some b)) = (do
      p.lead
      p.write b.start
      runAll (.walk s n (some b)) p.body
      p.write b.stop
      p.trail) := by
  simp only [Plan.run, Hooks.walk, bind_assoc]
  rfl

theorem Plan.run_none (p : Plan) (n : Node) :
    p.run (.walk s n none) = (do
      p.lead
      runAll (.walk s n none) p.body
      p.trail) := rfl

/-- The node is written by its plan. -/
def Planned (s : Setup) (n : Node) : Prop :=
  node s (.jinja s) n = (do
    let e ← get
    (n.plan s e).run (.walk s n (n.bracket? s e)))

section Nodes

variable (s) {c : Option Node} {line : Option Nat}

theorem planned_of_forall {n : Node} (h : ∀ e : Emitter, node s (.jinja s) n =
    (n.plan s e).run (.walk s n (n.bracket? s e))) : Planned s n := by
  rw [Planned, ← get_ignored (node s (.jinja s) n)]
  exact congrArg (get >>= ·) (funext h)

theorem planned_codeBlock (name mode : String) (ns : List Node) :
    Planned s (.codeBlock name mode ns line) := by
  rw [Planned, node]
  refine congrArg (get >>= ·) (funext fun e => ?_)
  rw [Node.bracket?, Node.plan]
  by_cases hmixing : 0 < e.mixing
  · simp only [hmixing, if_true]
    rfl
  · simp only [hmixing, if_false, Forms.blockForm, Plan.run_some, putIf, runAll_act, runAll_append,
      runAll_nil, bind_assoc, ite_bind, pure_bind, bind_pure_unit]
    rw [runAll_children s ns rfl]
    rfl

theorem all_code (s : Setup) (code : Option Node) : Forms.all (code.toList.map fun n =>
      if n.isCode then node s (.jinja s) n else throw .noSuchMember) =
    codeOf s (.jinja s) code := by
  cases code with
  | none =>
    rw [codeOf]
    rfl
  | some n =>
    rw [codeOf_some]
    exact bind_pure_unit

theorem planned_tag (head : Tag) (code text : Option Node) (content : Node) :
    Planned s (.tag head code text content line) := by
  rw [Planned, node_tag_jinja]
  refine congrArg (get >>= ·) (funext fun e => ?_)
  rw [Node.bracket?, Node.plan]
  cases e.closesAtOnce s head with
  | true =>
    simp only [if_true, Plan.run_none, tagOrElement, runAll_act, runAll_nil, bind_pure_unit]
  | false =>
    simp only [Bool.false_eq_true, if_false, Plan.run_some, tagOrElement, runAll_act,
      runAll_append, runAll_nil, bind_assoc, bind_pure_unit]
    rw [runAll_choices s _ 0 [] code.toList (text.toList ++ [content]) (List.append_assoc ..) rfl,
      runAll_visits s _ (code.toList ++ text.toList) [content] [] rfl rfl, nodes_singleton,
      all_code]
    cases onlyText head content with
    | error f => rfl
    | ok textOnly => rfl

theorem planned_code (source : String) (buffer escape : Bool) :
    Planned s (.code source buffer escape c line) := by
  refine planned_of_forall s fun e => ?_
  rw [node]
  show Forms.codeForm s (Forms.jinja s).output statement (fun word => statement ("end" ++ word))
    source buffer escape (optional s (.jinja s) c) = _
  cases c with
  | none => cases buffer <;> rfl
  | some n =>
    have hvisit {b} : runAll (.walk s (.code source buffer escape (some n) line) b) (visits 0 [n]) =
        visit s (.jinja s) n := (runAll_children s [n] rfl).trans (nodes_singleton s n)
    have hoptional : optional s (.jinja s) (some n) = some (visit s (.jinja s) n) := by
      rw [optional]
      rfl
    rw [hoptional, Forms.codeForm, Node.plan, Option.toList_some]
    cases buffer with
    | true =>
      simp only [Node.bracket?, Plan.run_none, Bool.not_true, Bool.false_and, Bool.false_eq_true,
        if_true, if_false, List.cons_append, List.nil_append, runAll_act, hvisit, pure_bind,
        bind_pure_unit]
    | false =>
      by_cases hword : s.autoclose.contains (codeWord source) = true
      · simp only [Node.bracket?, hword, Plan.run_some, Bool.not_false, Bool.true_and,
          Option.isSome_some, Bool.false_eq_true, if_true, if_false, List.nil_append, hvisit,
          pure_bind, bind_pure_unit]
        rfl
      · simp only [Node.bracket?, hword, Plan.run_none, Bool.not_false, Bool.true_and,
          Option.isSome_some, Bool.false_eq_true, if_false, List.cons_append, List.nil_append,
          runAll_act, hvisit, pure_bind, bind_pure_unit]

theorem planned_mixin (name args : String) (call : Bool) :
    Planned s (.mixin name args c call) := by
  have hinside {b} (n : Node) : runAll (.walk s (.mixin name args (some n) call) b) [.inside 0] =
      inside s (.jinja s) n := bind_pure_unit
  refine planned_of_forall s fun e => ?_
  rw [node]
  cases c with
  | none => cases call <;> rfl
  | some n =>
    rw [inner]
    cases call with
    | false =>
      simp only [Node.plan, Node.bracket?, Plan.run_some, hinside]
      generalize inside s (.jinja s) n = body
      simp only [Forms.jinja, deeper, Forms.between, Forms.needed, bind_assoc, pure_bind,
        Bool.not_false, Bool.false_and, Bool.false_eq_true, if_true, if_false]
      rfl
    | true =>
      simp only [Node.plan, Node.bracket?, Plan.run_some, hinside]
      generalize inside s (.jinja s) n = body
      simp only [Forms.jinja, deeper, Forms.between, keepCaller, bind_assoc, ite_bind, pure_bind,
        Bool.not_true, Bool.true_and, Option.isSome_some, Bool.false_eq_true, if_true, if_false]
      rfl

theorem planned_conditional (word sentence : String) (next : List Node) :
    Planned s (.conditional word sentence c next line) := by
  refine planned_of_forall s fun e => ?_
  rw [node]
  show Forms.conditionalForm conditionHead statement (statement "endif") word sentence
    (optional s (.jinja s) c) (chain s (.jinja s) next) = _
  have hbranches {b} : runAll (.walk s (.conditional word sentence c next line) b)
      (visits 0 c.toList ++ if c.isSome then choices Node.isConditional 1 next else []) =
        ((optional s (.jinja s) c).elim (pure ()) fun body => do
          body
          Forms.all (chain s (.jinja s) next)) := by
    cases c with
    | none =>
      rw [optional]
      rfl
    | some n =>
      rw [runAll_append, Option.isSome_some, if_pos rfl, chain_eq_map, optional,
        Option.toList_some, runAll_visits s 0 [] [n] next rfl rfl, nodes_singleton,
        runAll_choices s _ 1 [n] next [] (by rw [List.append_nil]; rfl) rfl]
      rfl
  rw [Forms.conditionalForm, Node.plan, Node.bracket?]
  cases conditionHead word sentence with
  | none =>
    simp only [Option.map_none, ite_self]
    rfl
  | some head =>
    by_cases hopens : (word == "if" || word == "unless") = true
    · simp only [hopens, if_true, Option.map_some, Plan.run_some, List.nil_append, hbranches,
        pure_bind, bind_pure_unit]
      cases optional s (.jinja s) c with
      | none => rfl
      | some body =>
        simp only [Option.elim_some, bind_assoc]
        rfl
    · simp only [hopens, if_false, Plan.run_none, Bool.false_eq_true, List.cons_append,
        List.nil_append, runAll_act, hbranches, pure_bind, bind_pure_unit]
      cases optional s (.jinja s) c with
      | none => rfl
      | some body => rfl

end Nodes

/-- **Nodes are written by their plans.** -/
theorem node_eq_run (s : Setup) (n : Node) : node s (.jinja s) n = (do
    let e ← get
    (n.plan s e).run (.walk s n (n.bracket? s e))) := by
  cases n with
  | block ns line yields =>
    refine planned_of_forall s fun e => ?_
    rw [node]
    simp only [Node.plan, Node.bracket?, Plan.run_none, pure_bind, bind_pure_unit]
    rw [runAll_children s ns rfl]
  | codeBlock name mode ns => exact planned_codeBlock s name mode ns
  | tag head code text content => exact planned_tag s head code text content
  | code source buffer escape => exact planned_code s source buffer escape
  | blockComment head buffer content =>
    refine planned_of_forall s fun e => ?_
    rw [node]
    cases buffer with
    | false => rfl
    | true =>
      simp only [Node.plan, Node.bracket?, if_true, Plan.run_some, Bracket.start_comment,
        Bracket.stop_comment, pure_bind, bind_pure_unit]
      rw [runAll_needs s content rfl]
  | each subject keys content =>
    refine planned_of_forall s fun e => ?_
    rw [node]
    simp only [Node.plan, Node.bracket?, Plan.run_some, pure_bind, bind_pure_unit]
    rw [runAll_needs s content rfl]
    rfl
  | mixin name args _ call => exact planned_mixin s name args call
  | conditional word sentence _ next => exact planned_conditional s word sentence next
  | _ =>
    refine planned_of_forall s fun e => ?_
    simp only [Node.plan, Node.bracket?, Plan.run_none, runAll_act, runAll_nil, pure_bind,
      bind_pure_unit]

theorem inside_eq_run (s : Setup) (n : Node) :
    inside s (.jinja s) n = runAll (.walk s n none) (n.contents s) := by
  cases n with
  | block ns | codeBlock _ _ ns =>
    rw [inside]
    exact (runAll_children s ns rfl).symm
  | _ => exact bind_pure_unit.symm

end Emit

end Jade
