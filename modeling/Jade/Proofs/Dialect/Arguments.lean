import Jade.Proofs.Dialect.Scopes

/-!
# Arguments of calls

The arguments of a call are written with commas between them. They are not read one by one: the
whole text is one expression, and the parameters are bound to what its value runs through. With two
arguments or more the expression is a tuple, and what it runs through are the values of the
arguments. A single argument is not a tuple. Then the parameter is bound to the first member of its
value, to nothing if there is none, and a value that has no members is a fault.

## Main results

* `Jade.Script.readExpression_of_readArguments` : arguments as one expression
* `Jade.Emit.rendersIn_call`, `Jade.Emit.RendersIn.unique` : the state of a call
* `Jade.Emit.call_binds_iff` : when all parameters are bound to the values of the arguments
-/

namespace Jade

namespace Script

open Rule

/-! ## Lists of expressions -/

/-- Expressions with commas between them, but none at the end. -/
def listing : Nat → Rule (List Expr)
  | 0 => fail
  | n + 1 => do
    let first ← expression n
    if ← acceptOp "," then return first :: (← listing n) else return [first]

/-- The lexemes of a text; blanks before them do not count. -/
def lexemesAfterBlanks (s : String) : Except Fault (List Lexeme) :=
  lexemes (String.ofList (s.toList.dropWhile fun c => c == ' ' || c == '\t'))

/-- A text that a rule reads to its end. -/
def readWhole {α : Type} (rule : Nat → Rule α) (s : String) : Except Fault α := do
  let ls ← lexemesAfterBlanks s
  let (a, rest) ← (rule (levels ls)).run ls
  if rest.all (· == .newline) then return a else throw .malformed

/-- The expressions that a text lists. -/
def readArguments (s : String) : Except Fault (List Expr) := readWhole listing s

/-- Listed expressions as a single one. -/
def asExpression : List Expr → Expr
  | [e] => e
  | es => .tuple es

namespace Rule

variable {α β : Type} {ls : List Lexeme}

theorem run_bind_eq_ok_iff {r : Rule α} {k : α → Rule β} {p : β × List Lexeme} :
    (r >>= k).run ls = .ok p ↔ ∃ a ls', r.run ls = .ok (a, ls') ∧ (k a).run ls' = .ok p := by
  rw [StateT.run_bind]
  rcases r.run ls with f | ⟨a, ls'⟩
  · constructor
    · intro h
      cases h
    · rintro ⟨_, _, h, -⟩
      cases h
  · refine ⟨fun h => ⟨a, ls', rfl, h⟩, ?_⟩
    rintro ⟨_, _, h, hk⟩
    cases h
    exact hk

theorem run_accept (l : Lexeme) (ls : List Lexeme) :
    (accept l).run ls = .ok (if ls.head? == some l then (true, ls.tail) else (false, ls)) := by
  show (if ls.head? == some l then (do skip; return true : Rule Bool) else pure false).run ls = _
  split
  · rfl
  · rfl

/-- The rule does not succeed on the lexemes. -/
def Refuses (r : Rule α) (ls : List Lexeme) : Prop := ∀ p, r.run ls ≠ .ok p

theorem refuses_fail : Refuses (fail : Rule α) ls := by
  intro p h
  cases h

theorem refuses_of_succ {r : Nat → Rule α} (hzero : r 0 = fail)
    (hsucc : ∀ n, Refuses (r (n + 1)) ls) (n : Nat) : Refuses (r n) ls := by
  cases n with
  | zero =>
    rw [hzero]
    exact refuses_fail
  | succ n => exact hsucc n

theorem Refuses.bind {r : Rule α} (h : Refuses r ls) (k : α → Rule β) : Refuses (r >>= k) ls := by
  intro p hp
  obtain ⟨a, ls', hrun, -⟩ := run_bind_eq_ok_iff.mp hp
  exact h (a, ls') hrun

theorem Refuses.unless {l : Lexeme} {k : Bool → Rule β} (hl : ls.head? ≠ some l)
    (h : Refuses (k false) ls) : Refuses (accept l >>= k) ls := by
  intro p hp
  obtain ⟨a, ls', hrun, hk⟩ := run_bind_eq_ok_iff.mp hp
  rw [run_accept, if_neg (by simpa using hl)] at hrun
  cases hrun
  exact h p hk

end Rule

section Refusals

variable {ls : List Lexeme} (hls : endsList ls.head? = true)

include hls

theorem ne_name_of_endsList (w : String) : ls.head? ≠ some (.name w) := by
  intro h
  rw [h] at hls
  cases hls

theorem ne_op_of_endsList {o : String} (ho : o ∉ [")", "]", "\x7d", "=", ";", ":"]) :
    ls.head? ≠ some (.op o) := by
  intro h
  rw [h] at hls
  exact ho (List.contains_iff_mem.mp hls)

theorem refuses_atom : ∀ n, Refuses (atom n) ls :=
  refuses_of_succ (by rw [atom]) fun n => by
    intro p hp
    rw [atom] at hp
    obtain ⟨a, ls', hpeek, hp⟩ := run_bind_eq_ok_iff.mp hp
    cases hpeek
    split at hp
    case h_9 => cases hp
    all_goals
      rename_i hhead
      rw [hhead] at hls
      simp [endsList] at hls

theorem refuses_factor : ∀ n, Refuses (factor n) ls :=
  refuses_of_succ (by rw [factor]) fun n => by
    rw [factor]
    refine .unless (ne_op_of_endsList hls (by decide)) ?_
    refine .unless (ne_op_of_endsList hls (by decide)) ?_
    refine .unless (ne_op_of_endsList hls (by decide)) ?_
    exact (refuses_atom hls n).bind _

theorem refuses_operation (n rank : Nat) : Refuses (operation n rank) ls :=
  refuses_of_succ (r := (operation · rank)) (by rw [operation]) (fun n => by
    rw [operation]
    exact (refuses_factor hls n).bind _) n

theorem refuses_inversion : ∀ n, Refuses (inversion n) ls :=
  refuses_of_succ (by rw [inversion]) fun n => by
    rw [inversion]
    exact .unless (ne_name_of_endsList hls _) ((refuses_operation hls n 1).bind _)

theorem refuses_conjunction : ∀ n, Refuses (conjunction n) ls :=
  refuses_of_succ (by rw [conjunction]) fun n => by
    rw [conjunction]
    exact (refuses_inversion hls n).bind _

theorem refuses_disjunction : ∀ n, Refuses (disjunction n) ls :=
  refuses_of_succ (by rw [disjunction]) fun n => by
    rw [disjunction]
    exact (refuses_conjunction hls n).bind _

theorem refuses_expression : ∀ n, Refuses (expression n) ls :=
  refuses_of_succ (by rw [expression]) fun n => by
    rw [expression]
    exact (refuses_disjunction hls n).bind _

end Refusals

theorem asExpression_of_ne_nil (e : Expr) {es : List Expr} (h : es ≠ []) :
    asExpression (e :: es) = .tuple (e :: es) := by
  cases es with
  | nil => exact absurd rfl h
  | cons e' es => rfl

/-- What is listed is also read as items, and as one expression. -/
theorem run_listing {n : Nat} {ls rest : List Lexeme} {es : List Expr}
    (h : (listing n).run ls = .ok (es, rest)) :
    es ≠ [] ∧ (items n).run ls = .ok (es, rest) ∧
      (expressions n).run ls = .ok (asExpression es, rest) := by
  induction n generalizing ls es with
  | zero => cases h
  | succ n ih =>
    rw [listing] at h
    obtain ⟨first, ls₁, hfirst, h⟩ := run_bind_eq_ok_iff.mp h
    obtain ⟨comma, ls₂, hcomma, h⟩ := run_bind_eq_ok_iff.mp h
    -- An expression was read, so neither of the other rules takes this for the end of the list.
    have hstart : ¬ endsList ls.head? = true := fun hends =>
      refuses_expression hends n (first, ls₁) hfirst
    have hitems {r : List Expr × List Lexeme}
        (hr : (if comma then (first :: ·) <$> items n else pure [first] : Rule _).run ls₂ = .ok r) :
        (items (n + 1)).run ls = .ok r := by
      rw [items]
      refine run_bind_eq_ok_iff.mpr ⟨ls.head?, ls, rfl, ?_⟩
      rw [if_neg hstart]
      refine run_bind_eq_ok_iff.mpr ⟨first, ls₁, hfirst, ?_⟩
      exact run_bind_eq_ok_iff.mpr ⟨comma, ls₂, hcomma, hr⟩
    have hexpr {r : Expr × List Lexeme}
        (hr : (if comma then (.tuple <| first :: ·) <$> items n else pure first : Rule _).run ls₂ =
          .ok r) : (expressions (n + 1)).run ls = .ok r := by
      rw [expressions]
      refine run_bind_eq_ok_iff.mpr ⟨first, ls₁, hfirst, ?_⟩
      exact run_bind_eq_ok_iff.mpr ⟨comma, ls₂, hcomma, hr⟩
    cases comma with
    | false =>
      cases h
      exact ⟨List.cons_ne_nil _ _, hitems rfl, hexpr rfl⟩
    | true =>
      obtain ⟨more, ls₃, hmore, h⟩ := run_bind_eq_ok_iff.mp h
      cases h
      obtain ⟨hne, hrest, -⟩ := ih hmore
      refine ⟨List.cons_ne_nil _ _, hitems ?_, hexpr ?_⟩
      · rw [if_pos rfl, StateT.run_map, hrest]
        rfl
      · rw [if_pos rfl, StateT.run_map, hrest, asExpression_of_ne_nil first hne]
        rfl

theorem readWhole_eq_ok_iff {α : Type} {rule : Nat → Rule α} {s : String} {a : α} :
    readWhole rule s = .ok a ↔ ∃ ls rest, lexemesAfterBlanks s = .ok ls ∧
      (rule (levels ls)).run ls = .ok (a, rest) ∧ rest.all (· == .newline) = true := by
  unfold readWhole
  rcases lexemesAfterBlanks s with f | ls
  · simp [bind, Except.bind]
  rcases hrun : (rule (levels ls)).run ls with f | ⟨a', rest⟩
  · simp [bind, Except.bind, hrun]
  · by_cases hrest : rest.all (· == .newline) = true
    · simp [bind, Except.bind, hrun, hrest, pure, Except.pure, -List.all_eq_true]
    · simp [bind, Except.bind, hrun, hrest, -List.all_eq_true]

/-- **Arguments are one expression**: the only one if there is one, or else a tuple. -/
theorem readExpression_of_readArguments {s : String} {es : List Expr}
    (h : readArguments s = .ok es) : es ≠ [] ∧ readExpression s = .ok (asExpression es) := by
  obtain ⟨ls, rest, hls, hrun, hrest⟩ := readWhole_eq_ok_iff.mp h
  obtain ⟨hne, -, hexpr⟩ := run_listing hrun
  exact ⟨hne, readWhole_eq_ok_iff.mpr ⟨ls, rest, hls, hexpr, hrest⟩⟩

theorem nameIn_bindIn (k : String) (o : Object) (ps : List (Object × Object)) (k' : String) :
    nameIn k' (bindIn k o ps) = if k = k' then some o else nameIn k' ps := by
  induction ps with
  | nil => simp [bindIn, nameIn]
  | cons p ps ih =>
    obtain ⟨key, o'⟩ := p
    cases key with
    | text t => grind [bindIn, nameIn]
    | _ => exact ih

section Lookups

variable {τ : Type} {g : τ → String → Option Object} {set : τ → String × Object → τ}
  (hset : ∀ t p k, g (set t p) k = if p.1 = k then some p.2 else g t k)

include hset

theorem lookup_foldl_of_not_mem {k : String} {pairs : List (String × Object)}
    (h : k ∉ pairs.map Prod.fst) (t : τ) : g (pairs.foldl set t) k = g t k := by
  induction pairs generalizing t with
  | nil => rfl
  | cons p pairs ih =>
    rw [List.map_cons, List.mem_cons, not_or] at h
    rw [List.foldl_cons, ih h.2, hset, if_neg (Ne.symm h.1)]

/-- A parameter is bound to the object at its position, if there is one, whatever names are kept
in. -/
theorem lookup_foldl_zip {params : List String} (hparams : params.Nodup) (t : τ) (os : List Object)
    {i : Nat} {k : String} (hk : params[i]? = some k) :
    g ((params.zip os).foldl set t) k = os[i]?.or (g t k) := by
  induction params generalizing t os i with
  | nil => cases hk
  | cons k' params ih =>
    obtain ⟨hfirst, hparams⟩ := List.nodup_cons.mp hparams
    cases os with
    | nil => rfl
    | cons o os =>
      rw [List.zip_cons_cons, List.foldl_cons]
      cases i with
      | zero =>
        obtain rfl : k' = k := Option.some.inj hk
        have hrest : k' ∉ (params.zip os).map Prod.fst := fun h => by
          obtain ⟨p, hp, rfl⟩ := List.mem_map.mp h
          exact hfirst (List.of_mem_zip hp).1
        rw [lookup_foldl_of_not_mem hset hrest, hset, if_pos rfl]
        rfl
      | succ i =>
        have hne : k' ≠ k := fun h => hfirst (h ▸ List.mem_of_getElem? hk)
        rw [ih hparams _ os hk, hset, if_neg hne]
        rfl

end Lookups

theorem get?_copy_zip {params : List String} (hparams : params.Nodup) (f : Frame) (s : Store)
    (os : List Object) {i : Nat} {k : String} (hk : params[i]? = some k) :
    (f.copy s (params.zip os)).1.get? (f.copy s (params.zip os)).2 k = os[i]?.or (f.get? s k) := by
  cases f with
  | own names =>
    refine lookup_foldl_zip (g := fun t k => Table.get? t k) (fun t p k' => ?_) hparams names os hk
    rw [Table.get?_set]
    simp only [beq_iff_eq]
  | shared place =>
    have htable (ps : List (Object × Object)) :
        (s.alloc (ps.map Object.ofPair)).2.table (s.alloc (ps.map Object.ofPair)).1 = ps := by
      have hpair : Object.pair? ∘ Object.ofPair = some := rfl
      have hplace : (s.alloc (ps.map Object.ofPair)).1 = s.cells.size := rfl
      rw [Store.table, Store.get_alloc, if_pos hplace, List.filterMap_map, hpair,
        List.filterMap_some]
    refine Eq.trans (congrArg (nameIn k) (htable _)) ?_
    exact lookup_foldl_zip (g := fun ps k => nameIn k ps)
      (fun ps p k' => nameIn_bindIn p.1 p.2 ps k') hparams (s.table place) os hk

theorem length_of_evalAll {scope : Scope} {es : List Expr} {vs : List Object} {st st' : Store}
    (h : (evalAll scope es).run.run st = (.ok vs, st')) : vs.length = es.length := by
  induction es generalizing vs st with
  | nil =>
    rw [evalAll] at h
    cases h
    rfl
  | cons e es ih =>
    rw [evalAll] at h
    obtain ⟨o, st₁, -, h⟩ := Reader.run_bind_eq_ok h
    obtain ⟨os, st₂, hrest, h⟩ := Reader.run_bind_eq_ok h
    cases h
    rw [List.length_cons, List.length_cons, ih hrest]

end Script

namespace Emit

open Forms Script

/-! ## Calls -/

/-- In the state `e` the node is written as its content is in the state `inner`, whatever writes the
content, and then the scope of `e` is back. Scripts of the node may have got hold of it. -/
def RendersIn (s : Setup) (n content : Node) (e inner : Emitter) : Prop :=
  ∀ render : Node → Emit Unit, (node s (pageWith s render) n).run.run e =
    match (render content).run.run inner with
    | (.error f, e₁) => (.error f, e₁)
    | (.ok _, e₁) =>
      (.ok (), { e₁ with page := e₁.page.back (n.expressions.foldl Page.ready e.page) })

variable {s : Setup} {n content : Node} {e inner inner' : Emitter}

/-- There is only one such state: it is where a fault in the content is met. -/
theorem RendersIn.unique (h : RendersIn s n content e inner) (h' : RendersIn s n content e inner') :
    inner = inner' := by
  have hfault := h fun _ => (throw .tooDeep : Emit Unit)
  rw [h' fun _ => (throw .tooDeep : Emit Unit)] at hfault
  exact (congrArg Prod.snd hfault).symm

theorem run_evaluate_ok {expr : String} {x : Expr} {o : Object} {store : Store}
    (hread : readExpression expr = .ok x)
    (heval : (eval (e.page.ready expr).scope x).run.run (e.page.ready expr).store =
      (.ok o, store)) :
    (evaluate expr).run.run e = (.ok o, { e with page := { e.page.ready expr with store } }) := by
  have htext : evalText (e.page.ready expr).scope expr = eval (e.page.ready expr).scope x := by
    rw [evalText, hread]
    rfl
  rw [run_evaluate_eq]
  dsimp only
  rw [Reader.run_tryCatch, run_script, htext, heval]

theorem isEmpty_of_readArguments {args : String} {es : List Expr}
    (h : readArguments args = .ok es) : args.isEmpty = false := by
  rw [Bool.eq_false_iff]
  intro hempty
  have hnone : (readArguments "").toOption.isSome = false := by decide +kernel
  rw [← String.isEmpty_iff.mp hempty, h] at hnone
  cases hnone

section Calls

variable {name args : String} {mixin : Mixin} {es : List Expr} {o : Object} {store : Store}
  (hmixin : e.page.mixins.get? name = some mixin) (hread : readArguments args = .ok es)
  (heval : (eval (e.page.ready args).scope (asExpression es)).run.run (e.page.ready args).store =
    (.ok o, store))

include hmixin hread heval

/-- The value of the arguments is found first, then its first members. -/
theorem run_callMixin (render : Node → Emit Unit) : (callMixin render name args).run.run e =
    (do
      let os ← script (firstMembers mixin.params.length o)
      inScope (mixin.params.zip os) (render mixin.content)).run.run
        { e with page := { e.page.ready args with store } } := by
  rw [callMixin, Reader.run_bind, run_get]
  dsimp only
  rw [hmixin]
  dsimp only
  rw [isEmpty_of_readArguments hread, if_neg Bool.false_ne_true, Reader.run_bind,
    run_evaluate_ok (readExpression_of_readArguments hread).2 heval]

theorem rendersIn_call (call : Bool) {os : List Object} {store' : Store}
    (hmembers : (firstMembers mixin.params.length o).run.run store = (.ok os, store')) :
    RendersIn s (.mixin name args none call) mixin.content e
      { e with page :=
        { e.page.ready args with store := store' }.enter (mixin.params.zip os) } := by
  intro render
  rw [node_call, run_callMixin hmixin hread heval, Reader.run_bind, run_script, hmembers]
  dsimp only
  rw [run_inScope]
  rfl

/-- If the value of the arguments has no members, nothing is rendered. -/
theorem not_rendersIn_call (call : Bool) {f : Fault} {store' : Store}
    (hmembers : (firstMembers mixin.params.length o).run.run store = (.error f, store')) :
    ¬ RendersIn s (.mixin name args none call) mixin.content e inner := by
  intro h
  have hcall := h fun _ => (pure () : Emit Unit)
  rw [node_call, run_callMixin hmixin hread heval, Reader.run_bind, run_script, hmembers] at hcall
  cases hcall

end Calls

/-- Several arguments: their value is the tuple of their values. -/
theorem run_eval_several {scope : Scope} {es : List Expr} {vs : List Object} {st st' : Store}
    (hes : 2 ≤ es.length) (h : (evalAll scope es).run.run st = (.ok vs, st')) :
    (eval scope (asExpression es)).run.run st = (.ok (.tuple vs), st') := by
  match es with
  | first :: second :: rest =>
    rw [asExpression_of_ne_nil first (List.cons_ne_nil second rest), eval, Reader.run_bind, h]
    rfl

theorem run_eval_single {scope : Scope} {x : Expr} {vs : List Object} {st st' : Store}
    (h : (evalAll scope [x]).run.run st = (.ok vs, st')) :
    ∃ v, vs = [v] ∧ (eval scope (asExpression [x])).run.run st = (.ok v, st') := by
  rw [evalAll] at h
  obtain ⟨v, st₁, heval, h⟩ := Reader.run_bind_eq_ok h
  rw [evalAll] at h
  cases h
  exact ⟨v, rfl, heval⟩

/-- The node is rendered in a state where each parameter of the mixin is bound to the object at its
position. -/
def Binds (s : Setup) (n : Node) (mixin : Mixin) (e : Emitter) (vs : List Object) : Prop :=
  ∃ inner, RendersIn s n mixin.content e inner ∧
    ∀ (i : Nat) k, mixin.params[i]? = some k → inner.page.locals.get? inner.page.store k = vs[i]?

section Positions

variable {name args : String} {mixin : Mixin} {es : List Expr} {vs : List Object} {store : Store}
  (hmixin : e.page.mixins.get? name = some mixin) (hparams : mixin.params.Nodup)
  (hread : readArguments args = .ok es)

include hmixin hparams hread

theorem binds_several (hes : 2 ≤ es.length) (hcount : mixin.params.length = es.length)
    (hvalues : (evalAll (e.page.ready args).scope es).run.run (e.page.ready args).store =
      (.ok vs, store)) (call : Bool) :
    Binds s (.mixin name args none call) mixin e vs := by
  have heval := run_eval_several hes hvalues
  have hlength : vs.length = mixin.params.length := by rw [length_of_evalAll hvalues, hcount]
  have hfirst : (firstMembers mixin.params.length (.tuple vs)).run.run store = (.ok vs, store) := by
    show (Except.ok (vs.take mixin.params.length), store) = _
    rw [← hlength, List.take_length]
  refine ⟨_, rendersIn_call hmixin hread heval call hfirst, fun i k hk => ?_⟩
  have hi : i < vs.length := by
    rw [hlength]
    exact (List.getElem?_eq_some_iff.mp hk).1
  refine (get?_copy_zip hparams _ _ vs hk).trans ?_
  rw [List.getElem?_eq_getElem hi]
  rfl

/-- A single parameter is bound to the first member of the value, if there is one. -/
theorem binds_single_iff {v : Object} {k : String} (hk : mixin.params = [k])
    (heval : (eval (e.page.ready args).scope (asExpression es)).run.run (e.page.ready args).store =
      (.ok v, store)) (call : Bool) :
    Binds s (.mixin name args none call) mixin e [v] ↔
      ∃ os store', (members v).run.run store = (.ok os, store') ∧
        os.head?.or ((e.page.ready args).locals.get? store' k) = some v := by
  obtain ⟨store₁, hfirst, hleft⟩ := run_firstMembers mixin.params.length v store
  rcases hmembers : (members v).run.run store with ⟨f | os, store'⟩
  all_goals rw [hmembers] at hfirst hleft
  · refine iff_of_false ?_ ?_
    · rintro ⟨inner, hrenders, -⟩
      exact not_rendersIn_call hmixin hread heval call hfirst hrenders
    · rintro ⟨os, _, hos, -⟩
      cases hos
  have hrenders := rendersIn_call (s := s) hmixin hread heval call hfirst
  have hbound := get?_copy_zip hparams (e.page.ready args).locals store₁
    (os.take mixin.params.length) (i := 0) (k := k) (by rw [hk]; rfl)
  rw [List.getElem?_take_of_lt (by rw [hk]; exact Nat.zero_lt_one), ← List.head?_eq_getElem?]
    at hbound
  -- what is bound before only matters if nothing is left of the value, and then it is the same
  have hbefore : os.head?.or ((e.page.ready args).locals.get? store₁ k) =
      os.head?.or ((e.page.ready args).locals.get? store' k) := by
    cases os with
    | nil => rw [hleft rfl]
    | cons o os => rfl
  rw [hbefore] at hbound
  constructor
  · rintro ⟨inner, hinner, hvalue⟩
    obtain rfl := hrenders.unique hinner
    exact ⟨os, store', rfl, hbound.symm.trans (hvalue 0 k (by rw [hk]; rfl))⟩
  · rintro ⟨_, _, hos, hhead⟩
    cases hos
    refine ⟨_, hrenders, fun i k' hk' => ?_⟩
    rw [hk] at hk'
    obtain ⟨rfl, rfl⟩ : i = 0 ∧ k = k' := by
      cases i with
      | zero => exact ⟨rfl, Option.some.inj hk'⟩
      | succ i => cases hk'
    exact hbound.trans hhead

end Positions

/-- How the values of listed expressions are written. -/
def shownArguments (e : Emitter) (args : String) : Option (List String) := do
  let es ← (readArguments args).toOption
  let (vs, store) := (evalAll e.page.scope es).run.run e.page.store
  return (← vs.toOption).map fun v => (store.snapshot v).display

theorem exists_of_shownArguments {args : String} {shown : List String}
    (h : shownArguments e args = some shown) : ∃ es vs store, readArguments args = .ok es ∧
      (evalAll e.page.scope es).run.run e.page.store = (.ok vs, store) ∧ es.length = shown.length ∧
      vs.map (fun v => (store.snapshot v).display) = shown := by
  rw [shownArguments] at h
  rcases hread : readArguments args with f | es
  · rw [hread] at h
    cases h
  rcases hrun : (evalAll e.page.scope es).run.run e.page.store with ⟨f | vs, store⟩
  · simp [hread, hrun, Except.toOption] at h
  · simp [hread, hrun, Except.toOption] at h
    refine ⟨es, vs, store, rfl, hrun, ?_, h⟩
    rw [← length_of_evalAll hrun, ← h, List.length_map]

/-- The text, if it is the only expression. -/
def onlyText? : List Expr → Option String
  | [.const (.text s)] => some s
  | _ => none

theorem eq_of_onlyText? {es : List Expr} {s : String} (h : onlyText? es = some s) :
    es = [.const (.text s)] := by
  unfold onlyText? at h
  split at h
  · rw [Option.some.inj h]
  · cases h

end Emit

end Jade
