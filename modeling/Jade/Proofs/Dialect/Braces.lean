import Jade.Proofs.Dialect.Hosts
import Jade.Proofs.Emitter.Labels

/-!
# Braces in Underscore templates

In an Underscore template, a line of code with content and each clause of a conditional open a brace
of the script. A conditional closes the brace of its last clause, and each clause after the first
one closes the brace of the one before it. A line of code closes its brace only if it is a statement
and its first word is in a table; in any other case the brace is left open.

The pieces with these braces are labelled here, and each label stands on the very text of its brace
(`BraceMark.text`). A brace has a name, which is the number of pieces before it, so that all names
are different. The braces that are open can then be told by playing the labels back. All of them are
closed in the right order, each one by what has opened it, exactly if all lines of code with content
close theirs and every further clause belongs to a conditional: a brace that is left open is missed
in the end, as can be seen from the number of braces alone.

## Main results

* `Jade.Forms.alike_underscoreBraces` : labels change nothing else
* `Jade.BraceMark.Balanced.replay_iff` : when braces are closed in the right order
* `Jade.Session.underscore_braces_closed_iff` : whole templates
-/

namespace Jade

open Forms (codeWord)

/-- What opens a brace. -/
inductive Bracing where
  /-- A line of code with content, whose value may be written. -/
  | code (source : String) (buffer : Bool)
  /-- A conditional, whose sentence may be negated. -/
  | conditional (negated : Bool) (sentence : String)
  deriving DecidableEq

/-- Whether it is a line of code. -/
def Bracing.isCode : Bracing → Bool
  | .code _ _ => true
  | .conditional _ _ => false

/-- What a piece of a template does to the braces of the script. -/
inductive BraceMark where
  /-- It opens a brace with a name. -/
  | opens (name : Nat) (brace : Bracing)
  /-- No piece: the next one begins another clause of the conditional around it. -/
  | next
  /-- It begins another clause, with a sentence or without: it closes the brace of the conditional
  and opens it again. -/
  | clause (sentence : Option String)
  /-- It closes the brace of a line of code or of a conditional. -/
  | closes (name : Nat) (code : Bool)
  deriving DecidableEq

namespace BraceMark

/-- The text with the braces. -/
def text : BraceMark → String
  | .opens _ (.code _ _) => " \x7b %>"
  | .opens _ (.conditional negated sentence) =>
    "\n<% " ++ ((if negated then "if (!" else "if (") ++ sentence ++ ")") ++ " \x7b %>"
  | .next => ""
  | .clause (some sentence) => "\n<% " ++ ("\x7d else if (" ++ sentence ++ ")") ++ " \x7b %>"
  | .clause none => "\n<% \x7d else \x7b %>"
  | .closes _ true => "<% \x7d %>"
  | .closes _ false => "\n<% \x7d %>\n"

instance labelling : Labelling BraceMark where
  value
    | .opens name (.code source buffer) => .list [.int name, .text source, .bool buffer]
    | .opens name (.conditional negated sentence) =>
      .list [.int name, .bool negated, .text sentence]
    | .next => .none
    | .clause (some sentence) => .text sentence
    | .clause none => .list []
    | .closes name code => .tuple [.int name, .bool code]
  read
    | .list [.int name, .text source, .bool buffer] =>
      some (.opens name.toNat (.code source buffer))
    | .list [.int name, .bool negated, .text sentence] =>
      some (.opens name.toNat (.conditional negated sentence))
    | .none => some .next
    | .text sentence => some (.clause (some sentence))
    | .list [] => some (.clause none)
    | .tuple [.int name, .bool code] => some (.closes name.toNat code)
    | _ => none
  read_value m := by
    rcases m with
      ⟨name, ⟨source, buffer⟩ | ⟨negated, sentence⟩⟩ | _ | ⟨_ | sentence⟩ | ⟨name, code⟩ <;>
      rfl
  Fits m t := t = m.text

/-! ## Playing marks back -/

/-- Braces that are open. -/
inductive Open where
  /-- Their names, each with whether a line of code has opened it, the innermost one first. -/
  | idle (braces : List (Nat × Bool))
  /-- Another clause begins here. The innermost brace is that of a conditional. -/
  | due (name : Nat) (outer : List (Nat × Bool))
  deriving DecidableEq

/-- The open braces. -/
def Open.braces : Open → List (Nat × Bool)
  | .idle bs => bs
  | .due name outer => (name, false) :: outer

/-- Whether another clause begins. -/
def Open.isDue : Open → Bool
  | .idle _ => false
  | .due _ _ => true

/-- The open braces after a piece, if it fits to those before. -/
def step (o : Open) : BraceMark → Option Open
  | .opens name brace => some (.idle ((name, brace.isCode) :: o.braces))
  | .next =>
    match o.braces with
    | (name, false) :: outer => some (.due name outer)
    | _ => none
  | .clause _ => if o.isDue then some (.idle o.braces) else none
  | .closes name code =>
    if o.braces.head? = some (name, code) then some (.idle o.braces.tail) else none

/-- The open braces after some pieces. -/
def replay (o : Open) (ms : List BraceMark) : Option Open := ms.foldlM step o

theorem replay_cons (o : Open) (m : BraceMark) (ms : List BraceMark) :
    replay o (m :: ms) = (step o m).bind (replay · ms) :=
  List.foldlM_cons

theorem replay_append (o : Open) (ms ms' : List BraceMark) :
    replay o (ms ++ ms') = (replay o ms).bind (replay · ms') :=
  List.foldlM_append ..

theorem step_next {o : Open} {name : Nat} {outer : List (Nat × Bool)}
    (h : o.braces = (name, false) :: outer) : step o .next = some (.due name outer) := by
  rw [step, h]

/-- The brace is not left open by what has opened it. -/
def isClosed (s : Setup) : BraceMark → Bool
  | .opens _ (.code source buffer) => !buffer && s.autoclose.contains (codeWord source)
  | _ => true

/-- Whether the piece begins another clause. -/
def isClause : BraceMark → Bool
  | .clause _ => true
  | _ => false

/-- Whether each further clause comes right after the mark of a conditional for it, where the first
piece may come after such a mark or not. -/
def announced (due : Bool) : List BraceMark → Bool
  | [] => true
  | m :: ms => (!m.isClause || due) && announced (m == .next) ms

/-- Whether another clause begins after some pieces. -/
def dueAfter (due : Bool) (ms : List BraceMark) : Bool := ms.foldl (fun _ m => m == .next) due

theorem announced_append (due : Bool) (ms ms' : List BraceMark) :
    announced due (ms ++ ms') = (announced due ms && announced (dueAfter due ms) ms') := by
  induction ms generalizing due with
  | nil => rfl
  | cons m ms ih => rw [List.cons_append, announced, ih, announced, dueAfter, dueAfter,
      List.foldl_cons, Bool.and_assoc]

theorem isDue_of_step {o o' : Open} {m : BraceMark} (h : step o m = some o') :
    (!m.isClause || o.isDue) = true ∧ o'.isDue = (m == .next) := by
  cases m with
  | opens name brace =>
    obtain rfl := Option.some.inj h
    exact ⟨rfl, rfl⟩
  | next =>
    rw [step] at h
    split at h
    · obtain rfl := Option.some.inj h
      exact ⟨rfl, rfl⟩
    · cases h
  | clause sentence =>
    obtain ⟨hdue, rfl⟩ : o.isDue = true ∧ .idle o.braces = o' := by simpa [step] using h
    exact ⟨hdue, rfl⟩
  | closes name code =>
    obtain ⟨-, rfl⟩ : o.braces.head? = some (name, code) ∧ .idle o.braces.tail = o' := by
      simpa [step] using h
    exact ⟨rfl, rfl⟩

theorem isDue_of_replay {ms : List BraceMark} {o o' : Open} (h : replay o ms = some o') :
    announced o.isDue ms = true ∧ o'.isDue = dueAfter o.isDue ms := by
  induction ms generalizing o with
  | nil =>
    obtain rfl : o = o' := Option.some.inj h
    exact ⟨rfl, rfl⟩
  | cons m ms ih =>
    rw [replay_cons] at h
    obtain ⟨o₁, hstep, hrest⟩ := Option.bind_eq_some_iff.mp h
    obtain ⟨hclause, hdue⟩ := isDue_of_step hstep
    obtain ⟨hannounced, hend⟩ := ih hrest
    rw [hdue] at hannounced hend
    exact ⟨by rw [announced, hclause, hannounced]; rfl, hend⟩

/-- How many braces more are open after a piece. -/
def gain : BraceMark → Int
  | .opens .. => 1
  | .closes .. => -1
  | _ => 0

/-- How many braces more are open after some pieces. -/
def gains : List BraceMark → Int
  | [] => 0
  | m :: ms => m.gain + gains ms

theorem gains_append (ms ms' : List BraceMark) : gains (ms ++ ms') = gains ms + gains ms' := by
  induction ms with
  | nil => exact (Int.zero_add _).symm
  | cons m ms ih => rw [List.cons_append, gains, gains, ih, Int.add_assoc]

theorem length_of_step {o o' : Open} {m : BraceMark} (h : step o m = some o') :
    (o'.braces.length : Int) = o.braces.length + m.gain := by
  cases m with
  | opens name brace =>
    obtain rfl := Option.some.inj h
    exact Int.natCast_succ _
  | next =>
    rw [step] at h
    split at h
    · next name outer hbraces =>
      obtain rfl := Option.some.inj h
      rw [hbraces]
      exact (Int.add_zero _).symm
    · cases h
  | clause sentence =>
    obtain ⟨-, rfl⟩ : o.isDue = true ∧ .idle o.braces = o' := by simpa [step] using h
    exact (Int.add_zero _).symm
  | closes name code =>
    obtain ⟨hhead, rfl⟩ : o.braces.head? = some (name, code) ∧ .idle o.braces.tail = o' := by
      simpa [step] using h
    obtain ⟨outer, hbraces⟩ := List.head?_eq_some_iff.mp hhead
    rw [hbraces, List.tail_cons, Open.braces, List.length_cons, gain]
    omega

theorem length_of_replay {ms : List BraceMark} {o o' : Open} (h : replay o ms = some o') :
    (o'.braces.length : Int) = o.braces.length + gains ms := by
  induction ms generalizing o with
  | nil =>
    obtain rfl : o = o' := Option.some.inj h
    exact (Int.add_zero _).symm
  | cons m ms ih =>
    rw [replay_cons] at h
    obtain ⟨o₁, hstep, hrest⟩ := Option.bind_eq_some_iff.mp h
    rw [ih hrest, length_of_step hstep, gains, Int.add_assoc]

/-! ## Braces that are closed in the right order -/

variable {s : Setup} {o : Open} {ms ms' : List BraceMark}

/-- Where the braces in `o` are open, those that are opened are closed in the right order, unless
some are left open, which are missed in the end, or a clause belongs to no conditional. -/
structure BalancedIn (s : Setup) (o : Open) (ms : List BraceMark) : Prop where
  replay : (∀ m ∈ ms, m.isClosed s = true) → announced o.isDue ms = true →
    ∃ o', replay o ms = some o' ∧ o'.braces = o.braces
  gains : gains ms = ms.countP fun m => !m.isClosed s

/-- Braces that are closed in the right order wherever that is, but for those that are left open. -/
def Balanced (s : Setup) (ms : List BraceMark) : Prop := ∀ o, BalancedIn s o ms

/-- The same where the brace of a conditional is the innermost one. -/
def BalancedWithin (s : Setup) (ms : List BraceMark) : Prop :=
  ∀ o name outer, Open.braces o = (name, false) :: outer → BalancedIn s o ms

theorem Balanced.within (h : Balanced s ms) : BalancedWithin s ms := fun o _ _ _ => h o

theorem balancedIn_nil (s : Setup) (o : Open) : BalancedIn s o [] := ⟨fun _ _ => ⟨o, rfl, rfl⟩, rfl⟩

theorem BalancedIn.append (h : BalancedIn s o ms)
    (h' : ∀ o', o'.braces = o.braces → BalancedIn s o' ms') : BalancedIn s o (ms ++ ms') where
  replay hclosed hannounced := by
    rw [announced_append, Bool.and_eq_true] at hannounced
    obtain ⟨o₁, hreplay, hbraces⟩ :=
      h.replay (fun m hm => hclosed m (List.mem_append_left _ hm)) hannounced.1
    rw [← (isDue_of_replay hreplay).2] at hannounced
    obtain ⟨o₂, hreplay', hbraces'⟩ :=
      (h' o₁ hbraces).replay (fun m hm => hclosed m (List.mem_append_right _ hm)) hannounced.2
    refine ⟨o₂, ?_, hbraces'.trans hbraces⟩
    rw [replay_append, hreplay]
    exact hreplay'
  gains := by
    rw [gains_append, List.countP_append, h.gains, (h' o rfl).gains, Int.natCast_add]

instance isTrace_balanced (s : Setup) : Emitter.IsTrace fun _ => Balanced s where
  nil _ o := balancedIn_nil s o
  append h h' o := (h o).append fun o' _ => h' o'

instance isTrace_balancedWithin (s : Setup) : Emitter.IsTrace fun _ => BalancedWithin s where
  nil _ o _ _ _ := balancedIn_nil s o
  append h h' o name outer ho :=
    (h o name outer ho).append fun o' ho' => h' o' name outer (ho'.trans ho)

theorem balancedWithin_next (s : Setup) : BalancedWithin s [.next] := by
  refine fun o name outer ho => ⟨fun _ _ => ⟨.due name outer, ?_, ho.symm⟩, rfl⟩
  rw [replay_cons, step_next ho]
  rfl

theorem BalancedWithin.clause (h : BalancedWithin s ms) (sentence : Option String) :
    Balanced s (.clause sentence :: ms) := by
  refine fun o => ⟨fun hclosed hannounced => ?_, ?_⟩
  · rw [announced, Bool.and_eq_true] at hannounced
    obtain ⟨hdue, hannounced⟩ := hannounced
    cases o with
    | idle bs => cases hdue
    | due name outer =>
      obtain ⟨o', hreplay, hbraces⟩ := (h (.idle ((name, false) :: outer)) name outer rfl).replay
        (fun m hm => hclosed m (List.mem_cons_of_mem _ hm)) hannounced
      exact ⟨o', hreplay, hbraces⟩
  · have hclosed : (!(BraceMark.clause sentence).isClosed s) = false := rfl
    rw [BraceMark.gains, (h (.idle [(0, false)]) 0 [] rfl).gains, List.countP_cons, hclosed]
    exact Int.zero_add _

theorem BalancedIn.around {name : Nat} {brace : Bracing}
    (hbrace : (opens name brace).isClosed s = true)
    (h : ∀ outer, BalancedIn s (.idle ((name, brace.isCode) :: outer)) ms) :
    Balanced s (.opens name brace :: (ms ++ [.closes name brace.isCode])) := by
  refine fun o => ⟨fun hclosed hannounced => ?_, ?_⟩
  · rw [announced, announced_append, Bool.and_eq_true, Bool.and_eq_true] at hannounced
    obtain ⟨o', hreplay, hbraces⟩ :=
      (h o.braces).replay (fun m hm => hclosed m (by simp [hm])) hannounced.2.1
    refine ⟨.idle o.braces, ?_, rfl⟩
    show BraceMark.replay (.idle ((name, brace.isCode) :: o.braces)) (ms ++ _) = _
    rw [replay_append, hreplay]
    show (step o' (.closes name brace.isCode)).bind (BraceMark.replay · []) = _
    rw [step, hbraces, Open.braces, List.head?_cons, if_pos rfl]
    rfl
  · have hend : (!(closes name brace.isCode).isClosed s) = false := rfl
    rw [BraceMark.gains, gains_append, (h []).gains, List.countP_cons, List.countP_append,
      List.countP_singleton, hbrace, hend]
    show (1 : Int) + (_ + -1) = ((_ + 0 + 0 : Nat) : Int)
    omega

theorem Balanced.leftOpen {name : Nat} {brace : Bracing}
    (hbrace : (opens name brace).isClosed s = false) (h : Balanced s ms) :
    Balanced s (.opens name brace :: ms) := by
  refine fun o => ⟨fun hclosed => ?_, ?_⟩
  · rw [hclosed _ List.mem_cons_self] at hbrace
    cases hbrace
  · rw [BraceMark.gains, (h o).gains, List.countP_cons, hbrace]
    exact Int.add_comm _ _

/-- **All braces** are closed in the right order exactly if none is left open and no clause is
without a conditional. -/
theorem Balanced.replay_iff (h : Balanced s ms) : BraceMark.replay (.idle []) ms = some (.idle []) ↔
    (∀ m ∈ ms, m.isClosed s = true) ∧ announced false ms = true := by
  constructor
  · intro hreplay
    have hlength := length_of_replay hreplay
    rw [(h (.idle [])).gains] at hlength
    have hcount : (ms.countP fun m => !m.isClosed s) = 0 := by
      simpa [Open.braces] using hlength.symm
    exact ⟨by simpa [List.countP_eq_zero] using hcount, (isDue_of_replay hreplay).1⟩
  · rintro ⟨hclosed, hannounced⟩
    obtain ⟨o, hreplay, hbraces⟩ := (h (.idle [])).replay hclosed hannounced
    cases o with
    | idle bs =>
      obtain rfl : bs = [] := hbraces
      exact hreplay
    | due name outer => cases hbraces

end BraceMark

/-! ## The dialect with labels -/

namespace Forms

open Emit

/-- Write the braces of a mark, with the mark on them. -/
def mark (m : BraceMark) : Emit Unit := label m m.text

/-- Code in an Underscore template, with labels on its braces. -/
def braceCode (s : Setup) (source : String) (buffer escape : Bool) :
    Option (Emit Unit) → Emit Unit
  | none => scriptCode s source buffer escape none
  | some body => do
    push (if buffer then "<%" ++ (if escape then "=" else "-") ++ " " ++ stripStart source ++ " %>"
      else "<% " ++ source)
    let name := (← get).pieces.length
    mark (.opens name (.code source buffer))
    body
    if !buffer && s.autoclose.contains (codeWord source) then mark (.closes name true)

/-- The content of a clause and the clauses after it, which are announced. -/
def braceClauses (body : Option (Emit Unit)) (next : List (Emit Unit)) : Emit Unit :=
  match body with
  | none => pure ()
  | some body => do
    body
    all (next.map fun act => do mark .next; act)

/-- A conditional with its first clause, or a further clause, with labels on the braces. -/
def braceConditional (word sentence : String) (body : Option (Emit Unit))
    (next : List (Emit Unit)) : Emit Unit :=
  if word == "if" || word == "unless" then do
    let name := (← get).pieces.length
    mark (.opens name (.conditional (word == "unless") sentence))
    braceClauses body next
    mark (.closes name false)
  else if word == "elif" || word == "else" then do
    mark (.clause (if word == "elif" then some sentence else none))
    braceClauses body next
  else throw .noSuchKey

/-- The Underscore dialect with labels on the braces of code and conditionals. -/
def underscoreBraces (s : Setup) : Forms :=
  { underscore s with code := braceCode s, conditional := braceConditional }

/-! Labels change nothing but the output, and there nothing but labels. -/

theorem agree_mark (m : BraceMark) : Agree Emitter.Unlabels (push m.text) (mark m) :=
  (spells_push _).agree_label m

theorem agree_next : Agree Emitter.Unlabels (pure ()) (mark .next) :=
  spells_pure.agree_label BraceMark.next

theorem agree_braceCode (s : Setup) (source : String) (buffer escape : Bool)
    {body body' : Option (Emit Unit)} (h : Option.Rel (Agree Emitter.Unlabels) body body') :
    Agree Emitter.Unlabels (scriptCode s source buffer escape body)
      (braceCode s source buffer escape body') := by
  have hR := Emitter.isBond_unlabels
  cases h with
  | none => exact hR.wide.scriptCode (p := s.pretty) source buffer escape .none
  | @some body body' h =>
    have hrest : Agree Emitter.Unlabels (do
        push " \x7b %>"
        body
        if !buffer && s.autoclose.contains (codeWord source) then push "<% \x7d %>") (do
        let name := (← get).pieces.length
        mark (.opens name (.code source buffer))
        body'
        if !buffer && s.autoclose.contains (codeWord source) then mark (.closes name true)) := by
      refine agree_get_right fun e => (agree_mark (.opens _ (.code source buffer))).bind fun _ => ?_
      exact h.bind fun _ => .ite (agree_mark (.closes _ true)) (agree_pure _)
    cases buffer with
    | true => exact (agree_push hR _).bind fun _ => hrest
    | false => exact (agree_push hR _).bind fun _ => hrest

theorem agree_conditional {word sentence head : String} {m : BraceMark} {act : Emit Unit}
    (hhead : scriptHead word sentence = some head)
    (hm : m.text = "\n<% " ++ head ++ " \x7b %>") {body body' : Option (Emit Unit)}
    {next next' : List (Emit Unit)} (h : Option.Rel (Agree Emitter.Unlabels) body body')
    (h' : List.Forall₂ (Agree Emitter.Unlabels) next next')
    (hend : Agree Emitter.Unlabels
      (if word == "if" || word == "unless" then push "\n<% \x7d %>\n" else pure ()) act) :
    Agree Emitter.Unlabels
      (conditionalForm scriptHead (fun h => "\n<% " ++ h ++ " \x7b %>") "\n<% \x7d %>\n" word
        sentence body next)
      (do mark m; braceClauses body' next'; act) := by
  have hnext : Agree Emitter.Unlabels (all next)
      (all (next'.map fun act => do mark .next; act)) := by
    clear hend
    induction h' with
    | nil => exact agree_pure _
    | cons h _ ih => exact (agree_next.bind fun _ => h).bind fun _ => ih
  simp only [conditionalForm, hhead, ← hm]
  refine (agree_mark m).bind fun _ => ?_
  cases h with
  | none => exact hend
  | some h =>
    rw [braceClauses, bind_assoc]
    exact h.bind fun _ => hnext.bind fun _ => hend

theorem scriptHead_opens {word sentence : String} (h : (word == "if" || word == "unless") = true)
    (name : Nat) : ∃ head, scriptHead word sentence = some head ∧
      (BraceMark.opens name (.conditional (word == "unless") sentence)).text =
        "\n<% " ++ head ++ " \x7b %>" := by
  rcases (Bool.or_eq_true _ _).mp h with hword | hword
  all_goals
    obtain rfl := eq_of_beq hword
    exact ⟨_, rfl, rfl⟩

theorem scriptHead_clause {word sentence : String} (h : (word == "elif" || word == "else") = true) :
    ∃ head, scriptHead word sentence = some head ∧
      (BraceMark.clause (if word == "elif" then some sentence else none)).text =
        "\n<% " ++ head ++ " \x7b %>" := by
  rcases (Bool.or_eq_true _ _).mp h with hword | hword
  all_goals
    obtain rfl := eq_of_beq hword
    exact ⟨_, rfl, rfl⟩

theorem agree_braceConditional (word sentence : String)
    {body body' : Option (Emit Unit)} {next next' : List (Emit Unit)}
    (h : Option.Rel (Agree Emitter.Unlabels) body body')
    (h' : List.Forall₂ (Agree Emitter.Unlabels) next next') :
    Agree Emitter.Unlabels
      (conditionalForm scriptHead (fun h => "\n<% " ++ h ++ " \x7b %>") "\n<% \x7d %>\n" word
        sentence body next)
      (braceConditional word sentence body' next') := by
  unfold braceConditional
  by_cases hopen : (word == "if" || word == "unless") = true
  · rw [if_pos hopen]
    refine agree_get_right fun e => ?_
    obtain ⟨head, hhead, htext⟩ := scriptHead_opens hopen e.pieces.length
    refine agree_conditional hhead htext h h' ?_
    rw [if_pos hopen]
    exact agree_mark (.closes _ false)
  rw [if_neg hopen]
  by_cases hclause : (word == "elif" || word == "else") = true
  · rw [if_pos hclause]
    obtain ⟨head, hhead, htext⟩ := scriptHead_clause hclause
    have hend : Agree Emitter.Unlabels
        (if word == "if" || word == "unless" then push "\n<% \x7d %>\n" else pure ())
        (pure ()) := by
      rw [if_neg hopen]
      exact agree_pure _
    have hagree := agree_conditional hhead htext h h' hend
    rwa [bind_pure_unit] at hagree
  · rw [if_neg hclause]
    have hhead : scriptHead word sentence = none := by
      unfold scriptHead
      split <;> simp_all
    simp only [conditionalForm, hhead]
    exact agree_throw _

theorem alike_underscoreBraces (s : Setup) :
    (underscore s).Alike Emitter.Unlabels (underscoreBraces s) :=
  { matches_underscore Emitter.isBond_unlabels.wide (fun _ => trivial) s s.pretty with
    code := fun source buffer escape _ _ h => agree_braceCode s source buffer escape h
    conditional := fun word sentence _ _ _ _ _ h h' => agree_braceConditional word sentence h h' }

/-! Braces are closed in the right order, but for those that are left open. -/

open BraceMark (Balanced BalancedWithin)

theorem balanced_braceCode (s : Setup) (source : String) (buffer escape : Bool)
    {body body' : Option (Emit Unit)}
    (h : Option.Rel (Movement (Emitter.Labels fun _ => Balanced s) (fun _ => True) Unit) body
      body') :
    Moves (Emitter.Labels fun _ => Balanced s) (braceCode s source buffer escape body) := by
  cases h with
  | none =>
    have hend : ∀ _ : Unit, Moves (Emitter.Labels fun _ => Balanced s)
        (do unless buffer do push "; %>") := fun _ => .ite (moves_pure _) (moves_push _)
    exact .ite ((moves_push _).bind hend) ((moves_push _).bind hend)
  | some h =>
    refine (moves_push _).bind fun _ => moves_labels.mpr fun d => adds_get fun e _ => ?_
    have hbody := moves_labels.mp h d
    by_cases hclosed : (!buffer && s.autoclose.contains (codeWord source)) = true
    · simp only [hclosed, if_true]
      exact adds_between rfl rfl hbody fun hms => .around hclosed fun outer => hms _
    · simp only [hclosed, Bool.false_eq_true, if_false, bind_pure_unit]
      refine adds_seq (adds_label (Q := (· = [_])) rfl rfl) hbody ?_
      rintro _ ms rfl hms
      exact hms.leftOpen (Bool.eq_false_iff.mpr hclosed)

/-- The clauses of a conditional, each with its content, are where its brace is open. -/
theorem balancedWithin_braceClauses (s : Setup)
    {body body' : Option (Emit Unit)} {next next' : List (Emit Unit)}
    (h : Option.Rel (Movement (Emitter.Labels fun _ => Balanced s) (fun _ => True) Unit) body body')
    (h' : List.Forall₂ (Movement (Emitter.Labels fun _ => Balanced s) (fun _ => True) Unit) next
      next') :
    Moves (Emitter.Labels fun _ => BalancedWithin s) (braceClauses body next) := by
  have hwithin {act : Emit Unit} (hact : Moves (Emitter.Labels fun _ => Balanced s) act) :
      Moves (Emitter.Labels fun _ => BalancedWithin s) act :=
    hact.labels_imp Balanced.within
  cases h with
  | none => exact moves_pure _
  | some h =>
    refine (hwithin h).bind fun _ => wide_movement.all (List.forall₂_same.mpr ?_)
    rw [List.forall_mem_map]
    refine fun act hact => Moves.bind ?_ fun _ => hwithin (moves_of_forall₂ h' act hact)
    exact moves_labels.mpr fun d => adds_label rfl (BraceMark.balancedWithin_next s)

theorem balanced_braceConditional (s : Setup) (word sentence : String)
    {body body' : Option (Emit Unit)} {next next' : List (Emit Unit)}
    (h : Option.Rel (Movement (Emitter.Labels fun _ => Balanced s) (fun _ => True) Unit) body body')
    (h' : List.Forall₂ (Movement (Emitter.Labels fun _ => Balanced s) (fun _ => True) Unit) next
      next') :
    Moves (Emitter.Labels fun _ => Balanced s) (braceConditional word sentence body next) := by
  have hclauses := moves_labels.mp (balancedWithin_braceClauses s h h')
  refine .ite (moves_labels.mpr fun d => adds_get fun e _ => ?_)
    (.ite (moves_labels.mpr fun d => ?_) (moves_throw _))
  · exact adds_between rfl rfl (hclauses d) fun hms => .around rfl fun outer => hms _ _ outer rfl
  · refine adds_seq (adds_label (Q := (· = [_])) rfl rfl) (hclauses d) ?_
    rintro _ ms rfl hms
    exact hms.clause _

theorem respects_underscoreBraces (s : Setup) :
    (underscoreBraces s).Respects (Emitter.Labels fun _ => Balanced s) :=
  { matches_underscore wide_movement (fun _ => trivial) s s.pretty with
    code := fun source buffer escape _ _ h => balanced_braceCode s source buffer escape h
    conditional := fun word sentence _ _ _ _ _ h h' =>
      balanced_braceConditional s word sentence h h' }

end Forms

namespace Session

open BraceMark

/-- **Braces that are closed.** Suppose a tree comes out as an Underscore template. With labels on
it, each on the text with its braces, all braces that code and conditionals have opened are closed
in the right order, each one by the line of code or the conditional that has opened it, exactly if
every line of code with content is a statement whose first word is in the table, and every further
clause belongs to a conditional. -/
theorem underscore_braces_closed_iff (s : Session) (o : Options) (root : Node) (out : String)
    (h : (s.write .underscore o root).1 = .ok out) :
    let w := (s.start .underscore o).1
    ∃ e, (Emit.template w.setup (.underscoreBraces w.setup) root).run.run w.emitter = (.ok (), e) ∧
      e.glyphs.flatMap Glyph.plain = glyphsOf out ∧
      (∀ l t, .value (.list [l, .text t]) ∈ e.glyphs →
        ∀ m : BraceMark, Labelling.read l = some m → t = m.text) ∧
      (replay (.idle []) (labels e.glyphs) = some (.idle []) ↔
        (∀ name source buffer, opens name (.code source buffer) ∈ labels e.glyphs →
          buffer = false ∧ w.setup.autoclose.contains (codeWord source) = true) ∧
        announced false (labels e.glyphs) = true) := by
  intro w
  obtain ⟨e, hrun, hplain, hfits, hbalanced⟩ := write_labels (d := .underscore)
    (Forms.alike_underscoreBraces w.setup) (Forms.respects_underscoreBraces w.setup) h
  refine ⟨e, hrun, hplain, hfits, hbalanced.replay_iff.trans (and_congr_left' ⟨?_, ?_⟩)⟩
  · intro hclosed name source buffer hm
    simpa [isClosed] using hclosed _ hm
  · rintro hcode (⟨name, ⟨source, buffer⟩ | _⟩ | _ | _ | _) hm
    · simpa [isClosed] using hcode name source buffer hm
    all_goals rfl

/-- A loop that the table has, around a conditional with three clauses. -/
theorem underscore_braces_closed_iff_loop :
    let w := (({} : Session).start .underscore {}).1
    ∃ root out e,
      parse (.ofText "- for (;;)\n  if a\n    p\n  elif b\n    q\n  else\n    c\n") none =
        .ok root ∧
      (({} : Session).write .underscore {} root).1 = .ok out ∧
      (Emit.template w.setup (.underscoreBraces w.setup) root).run.run w.emitter = (.ok (), e) ∧
      e.glyphs.flatMap Glyph.plain = glyphsOf out ∧
      labels e.glyphs = [opens 2 (.code " for (;;)" false), opens 3 (.conditional false " a"), next,
        clause (some " b"), next, clause none, .closes 3 false, .closes 2 true] ∧
      replay (.idle []) (labels e.glyphs) = some (.idle []) := by
  intro w
  obtain ⟨root, out, hparse, hout, hmarks⟩ := exists_labels .underscore .underscoreBraces
    "- for (;;)\n  if a\n    p\n  elif b\n    q\n  else\n    c\n"
    [opens 2 (.code " for (;;)" false), opens 3 (.conditional false " a"), next, clause (some " b"),
      next, clause none, .closes 3 false, .closes 2 true] (by decide +kernel)
  obtain ⟨e, hrun, hplain, -, hiff⟩ := underscore_braces_closed_iff {} {} root out hout
  rw [hmarks e hrun] at hiff
  refine ⟨root, out, e, hparse, hout, hrun, hplain, hmarks e hrun, ?_⟩
  rw [hmarks e hrun]
  refine hiff.mpr ⟨fun name source buffer hm => ?_, rfl⟩
  obtain ⟨-, rfl, rfl⟩ : name = 2 ∧ source = " for (;;)" ∧ buffer = false := by simpa using hm
  exact ⟨rfl, by decide +kernel⟩

/-- A loop that the table does not have leaves its brace open, and a clause without a conditional
closes a brace that is not there. -/
theorem underscore_brace_left_open :
    let w := (({} : Session).start .underscore {}).1
    ∀ p ∈ [("- while (x)\n  p\n", [opens 2 (.code " while (x)" false)], some (.idle [(2, true)])),
        ("else\n  p\n", [clause none], none)],
      ∃ root out e, parse (.ofText p.1) none = .ok root ∧
        (({} : Session).write .underscore {} root).1 = .ok out ∧
        (Emit.template w.setup (.underscoreBraces w.setup) root).run.run w.emitter = (.ok (), e) ∧
        e.glyphs.flatMap Glyph.plain = glyphsOf out ∧
        labels e.glyphs = p.2.1 ∧ replay (.idle []) p.2.1 = p.2.2 := by
  intro w p hp
  suffices h : ∃ root out, parse (.ofText p.1) none = .ok root ∧
      (({} : Session).write .underscore {} root).1 = .ok out ∧
      (∀ e, (Emit.template w.setup (.underscoreBraces w.setup) root).run.run w.emitter =
        (.ok (), e) → labels e.glyphs = p.2.1) ∧ replay (.idle []) p.2.1 = p.2.2 by
    obtain ⟨root, out, hparse, hout, hmarks, hreplay⟩ := h
    obtain ⟨e, hrun, hplain, -⟩ := write_labels (d := .underscore)
      (Forms.alike_underscoreBraces w.setup) (Forms.respects_underscoreBraces w.setup) hout
    exact ⟨root, out, e, hparse, hout, hrun, hplain, hmarks e hrun, hreplay⟩
  simp only [List.mem_cons, List.not_mem_nil, or_false] at hp
  rcases hp with rfl | rfl
  · obtain ⟨root, out, hparse, hout, hmarks⟩ := exists_labels .underscore .underscoreBraces
      "- while (x)\n  p\n" [opens 2 (.code " while (x)" false)] (by decide +kernel)
    exact ⟨root, out, hparse, hout, hmarks, rfl⟩
  · obtain ⟨root, out, hparse, hout, hmarks⟩ := exists_labels .underscore .underscoreBraces
      "else\n  p\n" [clause none] (by decide +kernel)
    exact ⟨root, out, hparse, hout, hmarks, rfl⟩

end Session

end Jade
