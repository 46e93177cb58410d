import Jade.Proofs.Script.Functions
import Jade.Proofs.Table

/-!
# Scripts at other places

An expression has the same object after a motion, with its places moved, and statements bind the
same names. Only the names that occur in a script have to be the same for that, unless a scope is a
table of the store, where all of it counts. Statements bind no names but those that they assign to.

## Main results

* `Jade.Script.moves_eval` : expressions, by recursion on them
* `Jade.Script.moves_evalText` : expressions given as text
* `Jade.Script.executes_runText` : statements given as text
* `Jade.Script.spares_runText` : what statements leave as it is
-/

namespace Jade

namespace Script

variable {m : Motion} {U : String → Prop}

/-! ## Names -/

/-- Names with further ones set, one after the other. -/
def setAll (names : Names) (pairs : List (String × Object)) : Names :=
  pairs.foldl (fun t (k, o) => t.set k o) names

/-- Names that have the objects of others, with their places moved. Only those in `U` count. -/
def Motion.Matches (m : Motion) (U : String → Prop) (names names' : Names) : Prop :=
  ∀ k, U k → names'.get? k = (names.get? k).map m.move

theorem Motion.Matches.set {names names' : Names} (h : m.Matches U names names') (k : String)
    (o : Object) : m.Matches U (names.set k o) (names'.set k (m.move o)) := by
  intro k' hk'
  rw [Table.get?_set, Table.get?_set, h k' hk']
  split
  · rfl
  · rfl

theorem Motion.Matches.setAll {names names' : Names} (h : m.Matches U names names')
    (pairs : List (String × Object)) :
    m.Matches U (setAll names pairs) (setAll names' (pairs.map m.moveNamed)) := by
  induction pairs generalizing names names' with
  | nil => exact h
  | cons p pairs ih => exact ih (h.set p.1 p.2)

theorem Motion.matches_still (names : Names) : Motion.still.Matches U names names := by
  intro k _
  rw [Motion.move_still, Option.map_id, id]

theorem nameIn_move (k : String) (ps : List (Object × Object)) :
    nameIn k (ps.map m.movePair) = (nameIn k ps).map m.move := by
  induction ps with
  | nil => rfl
  | cons p ps ih =>
    obtain ⟨k', o⟩ := p
    cases k' with
    | text t =>
      rw [List.map_cons, Motion.movePair, Motion.move, nameIn, nameIn, ih]
      split <;> rfl
    | tuple os =>
      rw [List.map_cons, Motion.movePair, m.move_tuple]
      exact ih
    | _ => exact ih

theorem bindIn_move (k : String) (o : Object) (ps : List (Object × Object)) :
    bindIn k (m.move o) (ps.map m.movePair) = (bindIn k o ps).map m.movePair := by
  induction ps with
  | nil => rfl
  | cons p ps ih =>
    obtain ⟨k', o'⟩ := p
    cases k' with
    | text t =>
      rw [List.map_cons, Motion.movePair, Motion.move, bindIn, bindIn, ih]
      split <;> rfl
    | tuple os =>
      rw [bindIn, List.map_cons, List.map_cons, ← ih, Motion.movePair, m.move_tuple, bindIn]
      all_goals exact fun _ _ h => nomatch h
    | _ => exact congrArg _ ih

/-- The names of scopes that have the same objects, but for their places. -/
inductive Motion.MatchesFrame (m : Motion) (U : String → Prop) : Frame → Frame → Prop
  | own {names names' : Names} (h : m.Matches U names names') :
    MatchesFrame m U (.own names) (.own names')
  | shared (place : Nat) : MatchesFrame m U (.shared place) (.shared (m.place place))

namespace Motion.MatchesFrame

variable {f f' : Frame} {s s' : Store}

theorem get? (h : m.MatchesFrame U f f') (hs : m.Relates s s') {k : String} (hk : U k) :
    f'.get? s' k = (f.get? s k).map m.move := by
  cases h with
  | own h => exact h k hk
  | shared p =>
    rw [Frame.get?, Frame.get?, hs.table]
    exact nameIn_move k _

theorem set (h : m.MatchesFrame U f f') (hs : m.Relates s s') (k : String) (o : Object) :
    m.MatchesFrame U (f.set s k o).1 (f'.set s' k (m.move o)).1 ∧
      m.Relates (f.set s k o).2 (f'.set s' k (m.move o)).2 := by
  cases h with
  | own h => exact ⟨.own (h.set k o), hs⟩
  | shared p =>
    refine ⟨.shared p, ?_⟩
    rw [Frame.set, Frame.set, hs.table, bindIn_move]
    exact hs.setTable p _

theorem copy (h : m.MatchesFrame U f f') (hs : m.Relates s s') (names : List (String × Object)) :
    m.MatchesFrame U (f.copy s names).1 (f'.copy s' (names.map m.moveNamed)).1 ∧
      m.Relates (f.copy s names).2 (f'.copy s' (names.map m.moveNamed)).2 := by
  cases h with
  | own h => exact ⟨.own (h.setAll names), hs⟩
  | shared p =>
    have hpairs (ps : List (Object × Object)) :
        (names.map m.moveNamed).foldl (fun ps p => bindIn p.1 p.2 ps) (ps.map m.movePair) =
          (names.foldl (fun ps p => bindIn p.1 p.2 ps) ps).map m.movePair := by
      induction names generalizing ps with
      | nil => rfl
      | cons n names ih =>
        rw [List.map_cons, List.foldl_cons, List.foldl_cons, ← ih, ← bindIn_move]
        rfl
    obtain ⟨hplace, hrel⟩ := hs.alloc
      ((names.foldl (fun ps p => bindIn p.1 p.2 ps) (s.table p)).map Object.ofPair)
    rw [m.map_ofPair, ← hpairs, ← hs.table] at hplace hrel
    have hshared := shared (U := U) (m := m) (s.alloc
      ((names.foldl (fun ps p => bindIn p.1 p.2 ps) (s.table p)).map Object.ofPair)).1
    rw [← hplace] at hshared
    exact ⟨hshared, hrel⟩

end Motion.MatchesFrame

theorem Motion.matchesFrame_still (f : Frame) : Motion.still.MatchesFrame U f f := by
  cases f with
  | own names => exact .own (Motion.matches_still names)
  | shared p => exact .shared p

/-- A scope with the same objects, but for their places. -/
structure Motion.MatchesScope (m : Motion) (U : String → Prop) (scope scope' : Scope) : Prop where
  locals : m.MatchesFrame U scope.locals scope'.locals
  globals : m.MatchesFrame U scope.globals scope'.globals

theorem Motion.MatchesScope.lookup {scope scope' : Scope} (h : m.MatchesScope U scope scope')
    {s s' : Store} (hs : m.Relates s s') {k : String} (hk : U k) :
    scope'.lookup s' k = (scope.lookup s k).map m.move := by
  rw [Scope.lookup, Scope.lookup, h.locals.get? hs hk, h.globals.get? hs hk]
  rcases scope.locals.get? s k with _ | o
  · rcases scope.globals.get? s k with _ | o
    · dsimp only [Option.map]
      split
      · rfl
      · rfl
    · rfl
  · rfl

/-! ## Names in scripts -/

mutual

/-- The names in an expression. -/
def Expr.names : Expr → List String
  | .const _ => []
  | .name s => [s]
  | .list es => namesOfAll es
  | .tuple es => namesOfAll es
  | .dict ps => namesOfPairs ps
  | .unary _ e => e.names
  | .binary _ l r => l.names ++ r.names
  | .both l r => l.names ++ r.names
  | .either l r => l.names ++ r.names
  | .negation e => e.names
  | .compare first rest => first.names ++ namesOfChain rest
  | .choice cond yes no => cond.names ++ yes.names ++ no.names
  | .member e _ => e.names
  | .index e i => e.names ++ i.names
  | .slice e start stop step =>
    e.names ++ namesOfOption start ++ namesOfOption stop ++ namesOfOption step
  | .call f args named => f.names ++ namesOfAll args ++ namesOfNamed named

/-- The names in expressions. -/
def Expr.namesOfAll : List Expr → List String
  | [] => []
  | e :: es => e.names ++ namesOfAll es

/-- The names in pairs of expressions. -/
def Expr.namesOfPairs : List (Expr × Expr) → List String
  | [] => []
  | (k, v) :: ps => k.names ++ v.names ++ namesOfPairs ps

/-- The names in arguments by name. -/
def Expr.namesOfNamed : List (String × Expr) → List String
  | [] => []
  | (_, e) :: ps => e.names ++ namesOfNamed ps

/-- The names in an expression that may be left out. -/
def Expr.namesOfOption : Option Expr → List String
  | none => []
  | some e => e.names

/-- The names in comparisons. -/
def Expr.namesOfChain : List (CompareOp × Expr) → List String
  | [] => []
  | (_, e) :: rest => e.names ++ namesOfChain rest

end

mutual

/-- The names that a target looks up. -/
def Target.names : Target → List String
  | .name _ => []
  | .tuple ts => namesOfAll ts
  | .index e i => e.names ++ i.names
  | .member e => e.names

/-- The names that targets look up. -/
def Target.namesOfAll : List Target → List String
  | [] => []
  | t :: ts => t.names ++ namesOfAll ts

end

mutual

/-- The names that a target binds. -/
def Target.binds : Target → List String
  | .name s => [s]
  | .tuple ts => bindsOfAll ts
  | .index _ _ | .member _ => []

/-- The names that targets bind. -/
def Target.bindsOfAll : List Target → List String
  | [] => []
  | t :: ts => t.binds ++ bindsOfAll ts

end

/-- The names that a statement looks up. -/
def Statement.names : Statement → List String
  | .expr e => e.names
  | .assign targets e => e.names ++ Target.namesOfAll targets
  | .update target _ e => target.binds ++ target.names ++ e.names
  | .pass => []

/-- The names that a statement binds. -/
def Statement.binds : Statement → List String
  | .expr _ | .pass => []
  | .assign targets _ => Target.bindsOfAll targets
  | .update target _ _ => target.binds

/-- The names in an expression given as text. -/
def namesIn (source : String) : List String :=
  match readExpression source with
  | .ok e => e.names
  | .error _ => []

/-- The names that statements given as text look up. -/
def namesInStatements (source : String) : List String :=
  match readStatements source with
  | .ok found => found.flatMap Statement.names
  | .error _ => []

/-- The names that statements given as text bind. -/
def boundIn (source : String) : List String :=
  match readStatements source with
  | .ok found => found.flatMap Statement.binds
  | .error _ => []

/-! ## Expressions -/

theorem moves_binary (op : BinaryOp) (l r : Object) :
    Moves m m.move (binary op l r) (binary op (m.move l) (m.move r)) := by
  cases op with
  | mod =>
    cases l with
    | text s => exact moves_formatText s r
    | _ => exact moves_arithmetic .mod _ r
  | _ => exact moves_arithmetic _ l r

theorem moves_inPlace (op : BinaryOp) (l r : Object) :
    Moves m m.move (inPlace op l r) (inPlace op (m.move l) (m.move r)) := by
  cases op with
  | add =>
    cases l with
    | list p =>
      refine (moves_members r).bind fun xs => (moves_cell p).bind fun os => ?_
      rw [← List.map_append]
      exact (moves_setCell p _).next fun _ => moves_pure (Object.list p)
    | _ => exact moves_binary .add _ r
  | mul =>
    cases l with
    | list p =>
      unfold inPlace
      rw [m.int?_move]
      rcases r.int? with _ | n
      · exact moves_throw _
      · exact (moves_cell p).bind fun os => (moves_repeatList m.move n os).bind fun os =>
          (moves_setCell p os).next fun _ => moves_pure (Object.list p)
    | _ => exact moves_binary .mul _ r
  | bitOr =>
    cases l with
    | dict p =>
      exact (moves_pairsIn r).bind fun os => (moves_putAll p os).next fun _ =>
        moves_pure (Object.dict p)
    | _ => exact moves_binary .bitOr _ r
  | _ => exact moves_binary _ l r

theorem moves_load (v : Value) :
    Moves m m.move (do let (o, s) := (← get).load v; set s; return o)
      (do let (o, s) := (← get).load v; set s; return o) := by
  intro s s' h
  obtain ⟨hobject, hstore⟩ := Motion.Relates.load v h
  exact ⟨congrArg Except.ok hobject, hstore⟩

section Expressions

variable {scope scope' : Scope} (hscope : m.MatchesScope U scope scope')

include hscope

-- the recursive calls use it
set_option linter.unusedSectionVars false

theorem moves_lookup {k : String} (hk : U k) :
    Moves m m.move (do (scope.lookup (← get) k : Except Fault _))
      (do (scope'.lookup (← get) k : Except Fault _)) := by
  intro s s' hs
  have hlookup := hscope.lookup hs hk
  exact moves_except hlookup s s' hs

theorem frame?_rel (name : String) :
    Option.Rel (m.MatchesFrame U) (scope.frame? name) (scope'.frame? name) := by
  unfold Scope.frame?
  split
  · exact .some hscope.locals
  · exact .some hscope.locals
  · exact .some hscope.globals
  · exact .none

theorem moves_callIn (f : Object) (args : List Object) (named : Named) :
    Moves m m.move (callIn scope f args named)
      (callIn scope' (m.move f) (args.map m.move) (named.map m.moveNamed)) := by
  have hcall := moves_callObject (m := m) f args named
  cases f with
  | builtin name =>
    cases args with
    | nil =>
      have hframe := frame?_rel hscope name
      show Moves m m.move (callIn scope (.builtin name) [] named)
        (callIn scope' (.builtin name) [] (named.map m.moveNamed))
      unfold callIn
      dsimp only
      revert hframe
      generalize scope.frame? name = g
      generalize scope'.frame? name = g'
      intro hframe
      cases hframe with
      | none => exact hcall
      | some h =>
        cases h with
        | own h => exact hcall
        | shared p => exact moves_plain named (moves_pure (Object.dict p))
    | cons o os => exact hcall
  | tuple os =>
    rw [m.move_tuple] at hcall ⊢
    exact hcall
  | _ => exact hcall

mutual

theorem moves_eval (e : Expr) (h : ∀ k ∈ e.names, U k) :
    Moves m m.move (eval scope e) (eval scope' e) := by
  cases e with rw [eval, eval]
  | const v => exact moves_load v
  | name s => exact moves_lookup hscope (h s (List.mem_singleton.mpr rfl))
  | list es => exact (moves_evalAll es h).bind moves_newList
  | tuple es => exact (moves_evalAll es h).bind fun os => moves_return (m.move_tuple os)
  | dict ps =>
    exact (moves_evalPairs ps h).bind moves_tableOf
  | unary op e => exact (moves_eval e h).bind fun o => moves_except (unaryArithmetic_move op o)
  | binary op l r =>
    rw [Expr.names, List.forall_mem_append] at h
    exact (moves_eval l h.1).bind fun l => (moves_eval r h.2).bind fun r => moves_binary op l r
  | both l r =>
    rw [Expr.names, List.forall_mem_append] at h
    exact (moves_eval l h.1).bind fun o => (moves_truthy o).next fun b =>
      moves_ite (moves_eval r h.2) (moves_pure o)
  | either l r =>
    rw [Expr.names, List.forall_mem_append] at h
    exact (moves_eval l h.1).bind fun o => (moves_truthy o).next fun b =>
      moves_ite (moves_pure o) (moves_eval r h.2)
  | negation e =>
    exact (moves_eval e h).bind fun o => (moves_truthy o).next fun b =>
      moves_pure (Object.bool !b)
  | compare first rest =>
    rw [Expr.names, List.forall_mem_append] at h
    exact (moves_eval first h.1).bind fun o => moves_evalChain first o rest h.2
  | choice cond yes no =>
    rw [Expr.names, List.forall_mem_append, List.forall_mem_append] at h
    exact (moves_eval cond h.1.1).bind fun o => (moves_truthy o).next fun b =>
      moves_ite (moves_eval yes h.1.2) (moves_eval no h.2)
  | member e name => exact (moves_eval e h).bind fun o => moves_except (memberOf_move o name)
  | index e i =>
    rw [Expr.names, List.forall_mem_append] at h
    exact (moves_eval e h.1).bind fun o => (moves_eval i h.2).bind fun i => moves_indexObject o i
  | slice e start stop step =>
    rw [Expr.names, List.forall_mem_append, List.forall_mem_append, List.forall_mem_append] at h
    exact (moves_eval e h.1.1.1).bind fun o =>
      (moves_evalOption start h.1.1.2).bind fun start =>
        (moves_evalOption stop h.1.2).bind fun stop =>
          (moves_evalOption step h.2).bind fun step => moves_sliceObject o start stop step
  | call f args named =>
    rw [Expr.names, List.forall_mem_append, List.forall_mem_append] at h
    refine (moves_eval f h.1.1).bind fun f => ?_
    exact (moves_evalAll args h.1.2).bind fun args =>
      (moves_evalNamed named h.2).bind fun named => moves_callIn hscope f args named

theorem moves_evalAll (es : List Expr) (h : ∀ k ∈ Expr.namesOfAll es, U k) :
    Moves m (List.map m.move) (evalAll scope es) (evalAll scope' es) := by
  cases es with rw [evalAll, evalAll]
  | nil => exact moves_pure []
  | cons e es =>
    rw [Expr.namesOfAll, List.forall_mem_append] at h
    exact (moves_eval e h.1).bind fun o => (moves_evalAll es h.2).bind fun os =>
      moves_pure (o :: os)

theorem moves_evalPairs (ps : List (Expr × Expr)) (h : ∀ k ∈ Expr.namesOfPairs ps, U k) :
    Moves m (List.map m.move) (evalPairs scope ps) (evalPairs scope' ps) := by
  cases ps with rw [evalPairs, evalPairs]
  | nil => exact moves_pure []
  | cons p ps =>
    obtain ⟨k, v⟩ := p
    rw [Expr.namesOfPairs, List.forall_mem_append, List.forall_mem_append] at h
    exact (moves_eval k h.1.1).bind fun k => (moves_eval v h.1.2).bind fun v =>
      (moves_evalPairs ps h.2).bind fun os => moves_return
        (congrArg (· :: os.map m.move) (m.move_ofPair (k, v)))

theorem moves_evalNamed (ps : List (String × Expr)) (h : ∀ k ∈ Expr.namesOfNamed ps, U k) :
    Moves m (List.map m.moveNamed) (evalNamed scope ps) (evalNamed scope' ps) := by
  cases ps with rw [evalNamed, evalNamed]
  | nil => exact moves_pure []
  | cons p ps =>
    obtain ⟨k, e⟩ := p
    rw [Expr.namesOfNamed, List.forall_mem_append] at h
    exact (moves_eval e h.1).bind fun o => (moves_evalNamed ps h.2).bind fun named =>
      moves_pure ((k, o) :: named)

theorem moves_evalOption (e : Option Expr) (h : ∀ k ∈ Expr.namesOfOption e, U k) :
    Moves m m.move (evalOption scope e) (evalOption scope' e) := by
  cases e with rw [evalOption, evalOption]
  | none => exact moves_pure Object.none
  | some e => exact moves_eval e h

theorem moves_evalChain (before : Expr) (left : Object)
    (rest : List (CompareOp × Expr)) (h : ∀ k ∈ Expr.namesOfChain rest, U k) :
    Moves m m.move (evalChain scope before left rest)
      (evalChain scope' before (m.move left) rest) := by
  cases rest with rw [evalChain, evalChain]
  | nil => exact moves_pure (Object.bool true)
  | cons p rest =>
    obtain ⟨op, e⟩ := p
    rw [Expr.namesOfChain, List.forall_mem_append] at h
    refine (moves_eval e h.1).bind fun right => ?_
    extract_lets after after'
    have hafter (holds : Bool) : Moves m m.move (after holds) (after' holds) :=
      moves_ite (moves_evalChain e right rest h.2) (moves_pure (Object.bool false))
    refine moves_ite ((moves_pure true).next hafter) (moves_ite ((moves_pure false).next hafter) ?_)
    exact (moves_compareObjects op left right).next hafter

end

theorem moves_evalText {source : String} (h : ∀ k ∈ namesIn source, U k) :
    Moves m m.move (evalText scope source) (evalText scope' source) := by
  unfold namesIn at h
  unfold evalText
  rcases hread : readExpression source with e | e
  · exact moves_throw _
  · rw [hread] at h
    exact moves_eval hscope e h

end Expressions

/-! ## Statements -/

/-- Two actions of statements that do the same from scopes and stores that are related. -/
def Executes {α β : Type} (m : Motion) (U : String → Prop) (f : α → β) (act : Exec α)
    (act' : Exec β) : Prop :=
  ∀ scope scope' s s', m.MatchesScope U scope scope' → m.Relates s s' →
    let out := act.run.run (scope, s)
    let out' := act'.run.run (scope', s')
    out'.1 = out.1.map f ∧ m.MatchesScope U out.2.1 out'.2.1 ∧ m.Relates out.2.2 out'.2.2

section Exec

variable {α β γ δ : Type} {f : α → β} {g : γ → δ}

theorem executes_pure (a : α) : Executes m U f (pure a) (pure (f a)) :=
  fun _ _ _ _ hscope hs => ⟨rfl, hscope, hs⟩

theorem executes_throw (e : Fault) : Executes m U f (throw e) (throw e) :=
  fun _ _ _ _ hscope hs => ⟨rfl, hscope, hs⟩

theorem Executes.bind {act : Exec α} {act' : Exec β} {k : α → Exec γ} {k' : β → Exec δ}
    (h : Executes m U f act act') (hk : ∀ a, Executes m U g (k a) (k' (f a))) :
    Executes m U g (act >>= k) (act' >>= k') := by
  intro scope scope' s s' hscope hs
  obtain ⟨hresult, hscope, hs⟩ := h scope scope' s s' hscope hs
  rw [Reader.run_bind, Reader.run_bind]
  rcases hrun : act.run.run (scope, s) with ⟨e | a, t⟩
  · rw [hrun] at hresult hscope hs
    rcases hrun' : act'.run.run (scope', s') with ⟨x', t'⟩
    rw [hrun'] at hresult hscope hs
    subst hresult
    exact ⟨rfl, hscope, hs⟩
  · rw [hrun] at hresult hscope hs
    rcases hrun' : act'.run.run (scope', s') with ⟨x', t'⟩
    rw [hrun'] at hresult hscope hs
    subst hresult
    exact hk a _ _ _ _ hscope hs

theorem run_lift (act : Scope → Eval α) (scope : Scope) (s : Store) :
    (Exec.lift act).run.run (scope, s) =
      (((act scope).run.run s).1, scope, ((act scope).run.run s).2) :=
  rfl

theorem executes_lift {act : Scope → Eval α} {act' : Scope → Eval β}
    (h : ∀ scope scope', m.MatchesScope U scope scope' → Moves m f (act scope) (act' scope')) :
    Executes m U f (Exec.lift act) (Exec.lift act') := by
  intro scope scope' s s' hscope hs
  obtain ⟨hresult, hstore⟩ := h scope scope' hscope s s' hs
  rw [run_lift, run_lift]
  exact ⟨hresult, hscope, hstore⟩

theorem executes_store {act : Eval α} {act' : Eval β} (h : Moves m f act act') :
    Executes m U f (Exec.lift fun _ => act) (Exec.lift fun _ => act') :=
  executes_lift fun _ _ _ => h

theorem executes_eval {e : Expr} (h : ∀ k ∈ e.names, U k) :
    Executes m U m.move (Exec.lift (eval · e)) (Exec.lift (eval · e)) :=
  executes_lift fun _ _ hscope => moves_eval hscope e h

end Exec

theorem executes_bindName (k : String) (o : Object) :
    Executes m U id (Exec.bindName k o) (Exec.bindName k (m.move o)) := by
  intro scope scope' s s' hscope hs
  obtain ⟨hlocals, hs⟩ := hscope.locals.set hs k o
  exact ⟨rfl, ⟨hlocals, hscope.globals⟩, hs⟩

mutual

theorem executes_bindTarget (o : Object) (t : Target) (h : ∀ k ∈ t.names, U k) :
    Executes m U id (bindTarget o t) (bindTarget (m.move o) t) := by
  cases t with rw [bindTarget, bindTarget]
  | name k => exact executes_bindName k o
  | tuple ts =>
    refine (executes_store (moves_members o)).bind fun os => ?_
    rw [List.length_map]
    split
    · exact executes_bindTargets os ts h
    · exact executes_throw _
  | index e i =>
    rw [Target.names, List.forall_mem_append] at h
    exact (executes_eval h.1).bind fun c => (executes_eval h.2).bind fun i =>
      executes_store (moves_setItem c i o)
  | member e => exact (executes_eval h).bind fun _ => executes_throw _

theorem executes_bindTargets (os : List Object) (ts : List Target)
    (h : ∀ k ∈ Target.namesOfAll ts, U k) :
    Executes m U id (bindTargets os ts) (bindTargets (os.map m.move) ts) := by
  cases ts with
  | nil => cases os <;> exact executes_pure ()
  | cons t ts =>
    cases os with
    | nil => exact executes_pure ()
    | cons o os =>
      rw [Target.namesOfAll, List.forall_mem_append] at h
      rw [List.map_cons, bindTargets, bindTargets]
      exact (executes_bindTarget o t h.1).bind fun _ => executes_bindTargets os ts h.2

end

theorem executes_bindEach (o : Object) (ts : List Target) (h : ∀ k ∈ Target.namesOfAll ts, U k) :
    Executes m U id (bindEach o ts) (bindEach (m.move o) ts) := by
  induction ts with
  | nil => exact executes_pure ()
  | cons t ts ih =>
    rw [Target.namesOfAll, List.forall_mem_append] at h
    exact (executes_bindTarget o t h.1).bind fun _ => ih h.2

theorem executes_runOne (st : Statement) (h : ∀ k ∈ st.names, U k) :
    Executes m U id (runOne st) (runOne st) := by
  cases st with
  | expr e => exact (executes_eval h).bind fun _ => executes_pure ()
  | assign targets e =>
    rw [Statement.names, List.forall_mem_append] at h
    exact (executes_eval h.1).bind fun o => executes_bindEach o targets h.2
  | update target op e =>
    rw [Statement.names, List.forall_mem_append, List.forall_mem_append] at h
    obtain ⟨⟨hbinds, hnames⟩, he⟩ := h
    cases target with
    | name k =>
      have hk : ∀ k' ∈ (Expr.name k).names, U k' := hbinds
      exact (executes_eval hk).bind fun old => (executes_eval he).bind fun new =>
        (executes_store (moves_inPlace op old new)).bind fun o => executes_bindName k o
    | index e' i =>
      rw [Target.names, List.forall_mem_append] at hnames
      exact (executes_eval hnames.1).bind fun c => (executes_eval hnames.2).bind fun i =>
        (executes_store (moves_indexObject c i)).bind fun old => (executes_eval he).bind fun new =>
          (executes_store (moves_inPlace op old new)).bind fun o =>
            executes_store (moves_setItem c i o)
    | tuple ts => exact executes_bindTarget .none (.tuple ts) hnames
    | member e' => exact executes_bindTarget .none (.member e') hnames
  | pass => exact executes_pure ()

theorem executes_run (sts : List Statement) (h : ∀ st ∈ sts, ∀ k ∈ st.names, U k) :
    Executes m U id (run sts) (run sts) := by
  induction sts with
  | nil => exact executes_pure ()
  | cons st sts ih =>
    rw [List.forall_mem_cons] at h
    exact (executes_runOne st h.1).bind fun _ => ih h.2

/-- **Statements given as text** do the same at other places. -/
theorem executes_runText {source : String} (h : ∀ k ∈ namesInStatements source, U k) :
    Executes m U id (runText source) (runText source) := by
  rw [namesInStatements] at h
  unfold runText
  rcases hread : readStatements source with e | sts
  · exact executes_throw e
  · rw [hread] at h
    exact executes_run sts fun st hst k hk => h k (List.mem_flatMap.mpr ⟨st, hst, hk⟩)

/-! ## What is bound -/

/-- The action leaves alone what some local names stand for, as long as scopes are not in the
store. -/
def Spares {α : Type} (U : String → Prop) (act : Exec α) : Prop :=
  ∀ names globals s, ∃ names', (act.run.run (⟨.own names, globals⟩, s)).2.1 =
    ⟨.own names', globals⟩ ∧ ∀ k, U k → names'.get? k = names.get? k

section Spares

variable {α β : Type}

theorem spares_pure (a : α) : Spares U (pure a) := fun names _ _ => ⟨names, rfl, fun _ _ => rfl⟩

theorem spares_throw (e : Fault) : Spares U (throw e : Exec α) :=
  fun names _ _ => ⟨names, rfl, fun _ _ => rfl⟩

theorem spares_lift (act : Scope → Eval α) : Spares U (Exec.lift act) :=
  fun names _ _ => ⟨names, rfl, fun _ _ => rfl⟩

theorem Spares.bind {act : Exec α} {next : α → Exec β} (h : Spares U act)
    (hnext : ∀ a, Spares U (next a)) : Spares U (act >>= next) := by
  intro names globals s
  obtain ⟨names₁, hscope, hspared⟩ := h names globals s
  rw [Reader.run_bind]
  rcases hrun : act.run.run (⟨.own names, globals⟩, s) with ⟨e | a, scope, s₁⟩
  · rw [hrun] at hscope
    exact ⟨names₁, hscope, hspared⟩
  · rw [hrun] at hscope
    obtain rfl : scope = ⟨.own names₁, globals⟩ := hscope
    obtain ⟨names₂, hscope₂, hspared₂⟩ := hnext a names₁ globals s₁
    exact ⟨names₂, hscope₂, fun k hk => (hspared₂ k hk).trans (hspared k hk)⟩

end Spares

theorem spares_bindName {name : String} (h : ∀ k ∈ [name], ¬ U k) (o : Object) :
    Spares U (Exec.bindName name o) := by
  intro names globals s
  refine ⟨names.set name o, rfl, fun k hk => ?_⟩
  have hne : name ≠ k := fun heq => h name (.head _) (heq ▸ hk)
  exact Table.get?_set_of_ne names hne o

mutual

theorem spares_bindTarget (o : Object) (t : Target) (h : ∀ k ∈ t.binds, ¬ U k) :
    Spares U (bindTarget o t) := by
  cases t with rw [bindTarget]
  | name k' => exact spares_bindName h o
  | tuple ts =>
    refine (spares_lift _).bind fun os => ?_
    split
    · exact spares_bindTargets os ts h
    · exact spares_throw _
  | index e i =>
    exact (spares_lift _).bind fun _ => (spares_lift _).bind fun _ => spares_lift _
  | member e => exact (spares_lift _).bind fun _ => spares_throw _

theorem spares_bindTargets (os : List Object) (ts : List Target)
    (h : ∀ k ∈ Target.bindsOfAll ts, ¬ U k) : Spares U (bindTargets os ts) := by
  cases ts with
  | nil => cases os <;> exact spares_pure ()
  | cons t ts =>
    cases os with
    | nil => exact spares_pure ()
    | cons o os =>
      rw [Target.bindsOfAll, List.forall_mem_append] at h
      rw [bindTargets]
      exact (spares_bindTarget o t h.1).bind fun _ => spares_bindTargets os ts h.2

end

theorem spares_bindEach (o : Object) (ts : List Target) (h : ∀ k ∈ Target.bindsOfAll ts, ¬ U k) :
    Spares U (bindEach o ts) := by
  induction ts with
  | nil => exact spares_pure ()
  | cons t ts ih =>
    rw [Target.bindsOfAll, List.forall_mem_append] at h
    exact (spares_bindTarget o t h.1).bind fun _ => ih h.2

theorem Spares.after_lift {act : Scope → Eval α} {next : α → Exec β} (h : ∀ a, Spares U (next a)) :
    Spares U (Exec.lift act >>= next) :=
  (spares_lift act).bind h

theorem spares_runOne (st : Statement) (h : ∀ k ∈ st.binds, ¬ U k) : Spares U (runOne st) := by
  cases st with
  | expr e => exact .after_lift fun _ => spares_pure ()
  | assign targets e => exact .after_lift fun o => spares_bindEach o targets h
  | update target op e =>
    cases target with
    | name k' =>
      exact .after_lift fun _ => .after_lift fun _ => .after_lift fun o => spares_bindName h o
    | index e' i =>
      exact .after_lift fun _ => .after_lift fun _ => .after_lift fun _ => .after_lift fun _ =>
        .after_lift fun _ => spares_lift _
    | tuple ts => exact spares_bindTarget .none (.tuple ts) h
    | member e' => exact spares_bindTarget .none (.member e') h
  | pass => exact spares_pure ()

theorem spares_run (sts : List Statement) (h : ∀ st ∈ sts, ∀ k ∈ st.binds, ¬ U k) :
    Spares U (run sts) := by
  induction sts with
  | nil => exact spares_pure ()
  | cons st sts ih =>
    rw [List.forall_mem_cons] at h
    exact (spares_runOne st h.1).bind fun _ => ih h.2

/-- **What statements leave as it is.** -/
theorem spares_runText {source : String} (h : ∀ k ∈ boundIn source, ¬ U k) :
    Spares U (runText source) := by
  rw [boundIn] at h
  unfold runText
  rcases hread : readStatements source with e | sts
  · exact spares_throw e
  · rw [hread] at h
    exact spares_run sts fun st hst k hk => h k (List.mem_flatMap.mpr ⟨st, hst, hk⟩)

end Script

end Jade
