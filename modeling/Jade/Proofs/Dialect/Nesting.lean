import Jade.Proofs.Dialect.Directives
import Jade.Proofs.Reader.Outcome

/-!
# Jinja templates are well nested

What a node of a Jinja template closes is always the innermost of what is open. A tree is written by
the plans of its nodes, and the hooks of these plans can also keep a record of the nodes that are
visited and of the pieces that open and close (`Emit.Hooks.record`).

## Main results

* `Jade.Emit.kept_node` : this does the same as writing the node, and the record is fair
* `Jade.jinja_write_nested` : templates are well nested
-/

namespace Jade

/-- A node of the tree is at the place, and has the bracket when it is visited in some state. -/
def Node.Has (root : Node) (s : Setup) (p : Place) (b : Option Bracket) : Prop :=
  ∃ n e, root.get? p = some n ∧ n.bracket? s e = b

namespace Emit

/-! ## Writing with a record -/

/-- How a node is written with a record, and how what is in it. -/
structure Recorder where
  node : Recording Unit
  inside : Recording Unit

/-- With a record, the pieces of a bracket are marked with the place of the node, and children are
written at places of their own. -/
def Hooks.record (place : Place) (b : Option Bracket) (below : List (Place → Recorder)) :
    Hooks Recording where
  child i := below[i]?.elim (pure ()) fun r => (r (place ++ [i])).node
  inside i := below[i]?.elim (pure ()) fun r => (r (place ++ [i])).inside
  around write log := match b with
    | some b => bracketed write place b log
    | none => log

/-- A node at a place by its plan, given how its children are written with a record. -/
def recorder (s : Setup) (n : Node) (below : List (Place → Recorder)) (place : Place) :
    Recorder where
  node := do
    let e ← (get : Emit Emitter)
    visiting place (n.bracket? s e)
    (n.plan s e).run (.record place (n.bracket? s e) below)
  inside := runAll (.record place none below) (n.contents s)

/-- Write a node of a Jinja template and keep a record. -/
def recorded (s : Setup) (place : Place) (n : Node) : Recording Unit :=
  (n.fold (recorder s) place).node

/-! ## Plans do not read the output -/

/-- A portion that does not read the output, apart from the nodes in it. -/
def Portion.IsSound : Portion → Prop
  | act a => Unread a
  | _ => True

/-- A plan that does not read the output. -/
structure Plan.IsSound (p : Plan) : Prop where
  lead : Unread p.lead
  write : Writes p.write
  body : ∀ q ∈ p.body, q.IsSound
  trail : Unread p.trail

theorem unread_throw (f : Fault) : Unread (throw f) := fun _ _ => agree_throw f

theorem unread_before (isTag : Bool) : Unread (before isTag) :=
  fun _ hR => agree_before hR.isTie _

theorem unread_putIf (c : Bool) (text : String) : Unread (putIf c text) :=
  (unread_put text).ite unread_pure

variable {s : Setup} {root : Node} {place : Place}

theorem unread_tagAttributes (s : Setup) (head : Tag) : Unread (tagAttributes s head) :=
  fun _ hR => (agree_lift _).bind fun attrs =>
    (Forms.matches_jinja hR.nested s s.pretty).attributes attrs

theorem unread_closedTag (s : Setup) (head : Tag) : Unread (closedTag s head) :=
  (unread_put _).bind <| (unread_tagAttributes s head).bind
    fun _ hR => agree_get hR fun _ _ => agree_put hR _

theorem unread_walk (n : Node) : Unread (node s (.jinja s) n) ∧ Unread (inside s (.jinja s) n) :=
  have hfollows {R} (hR : Emitter.IsBond R) :=
    follows_node hR (.inl rfl) (Forms.matches_jinja hR.nested s s.pretty) n
  ⟨fun _ hR => (hfollows hR).1, fun _ hR => (hfollows hR).2⟩

theorem sound_visits (i : Nat) (ns : List Node) : ∀ q ∈ visits i ns, q.IsSound := by
  induction ns generalizing i with
  | nil => exact List.forall_mem_nil _
  | cons n ns ih =>
    rw [visits, List.forall_mem_cons, List.forall_mem_cons]
    exact ⟨unread_before _, trivial, ih (i + 1)⟩

theorem sound_choices (kind : Node → Bool) (i : Nat) (ns : List Node) :
    ∀ q ∈ choices kind i ns, q.IsSound := by
  induction ns generalizing i with
  | nil => exact List.forall_mem_nil _
  | cons n ns ih =>
    rw [choices, List.forall_mem_cons]
    refine ⟨?_, ih (i + 1)⟩
    split
    · trivial
    · exact unread_throw _

theorem sound_needs (c : Option Node) : ∀ q ∈ needs c, q.IsSound := by
  cases c with
  | none =>
    rw [needs, List.forall_mem_cons, List.forall_mem_singleton]
    exact ⟨unread_before _, unread_throw _⟩
  | some n => exact sound_visits 0 [n]

theorem sound_contents (s : Setup) (n : Node) : ∀ q ∈ n.contents s, q.IsSound := by
  cases n with
  | block ns | codeBlock _ _ ns => exact sound_visits 0 ns
  | _ => exact List.forall_mem_singleton.mpr (unread_walk _).2

theorem unread_onlyText (head : Tag) (content : Node) {act : Bool → Emit Unit}
    (h : ∀ textOnly, Unread (act textOnly)) :
    Unread (do let textOnly ← (onlyText head content : Except Fault _); act textOnly) :=
  fun R hR => (agree_lift _).bind fun textOnly => h textOnly R hR

theorem sound_tag (head : Tag) (c t : Option Node) (content : Node) (line : Option Nat)
    (s : Setup) (e : Emitter) : ((Node.tag head c t content line).plan s e).IsSound where
  lead := fun _ hR => hR.isTie.walked.tagLead (hR.isTie.walked.lays s) head
  write := writes_put
  body := by
    rw [Node.plan]
    cases e.closesAtOnce s head with
    | true => exact List.forall_mem_singleton.mpr (unread_closedTag s head)
    | false =>
      simp only [Bool.false_eq_true, if_false, List.forall_mem_cons, List.forall_mem_append]
      refine ⟨unread_tagAttributes s head, unread_put _, sound_choices _ _ _, ?_, ?_,
        sound_visits _ _, ?_, List.forall_mem_nil _⟩
      · exact fun _ hR => hR.isTie.walked.textOf (.inl fun _ => trivial)
          fun _ t _ _ => (Forms.matches_jinja hR.nested s s.pretty).interpolate true t
      · exact unread_onlyText head content fun _ => unread_modify fun _ _ => rfl
      · exact unread_onlyText head content fun _ _ hR =>
          hR.isTie.walked.lineIf (hR.isTie.walked.lays s) _ _
  trail := unread_modify fun _ _ => rfl

theorem sound_mixin (name args : String) (c : Option Node) (call : Bool) (s : Setup)
    (e : Emitter) : ((Node.mixin name args c call).plan s e).IsSound where
  lead := by
    have hkeep : Unread keepCaller :=
      fun _ hR => agree_get hR fun _ _ => .ite (agree_put hR _) (agree_pure _)
    exact (unread_modify fun _ _ => rfl).bind (hkeep.ite unread_pure)
  write := writes_put
  body := by
    cases c with
    | none =>
      cases call with
      | false => exact List.forall_mem_singleton.mpr (unread_throw _)
      | true => exact List.forall_mem_singleton.mpr (unread_put _)
    | some n => cases call <;> exact List.forall_mem_singleton.mpr trivial
  trail := unread_modify fun _ _ => rfl

/-- A plan with nothing before and after its body. -/
theorem sound_body {write : String → Emit Unit} {ps : List Portion} (hwrite : Writes write)
    (hps : ∀ q ∈ ps, q.IsSound) : Plan.IsSound { write, body := ps } :=
  ⟨unread_pure, hwrite, hps, unread_pure⟩

/-- **Plans** only add to the output. -/
theorem sound_plan (s : Setup) (e : Emitter) (n : Node) : (n.plan s e).IsSound := by
  cases n with
  | block ns => exact sound_body writes_put (sound_visits 0 ns)
  | codeBlock name mode ns =>
    refine sound_body writes_put ?_
    split
    · exact List.forall_mem_singleton.mpr (unread_put _)
    · rw [List.forall_mem_cons, List.forall_mem_append, List.forall_mem_singleton]
      exact ⟨unread_putIf _ _, sound_visits 0 ns, unread_putIf _ _⟩
  | tag head c t content line => exact sound_tag head c t content line s e
  | code source buffer escape content =>
    refine sound_body writes_push (List.forall_mem_append.mpr ⟨?_, sound_visits 0 _⟩)
    split
    · exact List.forall_mem_nil _
    · exact List.forall_mem_singleton.mpr (unread_push _)
  | blockComment head buffer content =>
    refine sound_body writes_put ?_
    split
    · exact sound_needs content
    · exact List.forall_mem_nil _
  | each subject keys content => exact sound_body writes_push (sound_needs content)
  | mixin name args c call => exact sound_mixin name args c call s e
  | conditional word sentence content next =>
    refine sound_body writes_push ?_
    split
    · exact List.forall_mem_singleton.mpr (unread_throw _)
    · refine List.forall_mem_append.mpr ⟨?_, List.forall_mem_append.mpr ⟨sound_visits 0 _, ?_⟩⟩
      · split
        · exact List.forall_mem_nil _
        · exact List.forall_mem_singleton.mpr (unread_push _)
      · split
        · exact sound_choices _ _ _
        · exact List.forall_mem_nil _
  | _ => exact sound_body writes_put (List.forall_mem_singleton.mpr (unread_walk _).1)

/-! ## The record is fair -/

/-- What is written is on a fair record that leaves nothing open. -/
abbrev Kept (s : Setup) (root : Node) (log : Recording Unit) (act : Emit Unit) : Prop :=
  Records (Mark.Fair (root.Has s) []) log act

/-- The node at the place is written with a record, and so is what is in it. -/
def KeptAt (s : Setup) (root : Node) (place : Place) (n : Node) : Prop :=
  Kept s root (n.fold (recorder s) place).node (node s (.jinja s) n) ∧
    Kept s root (n.fold (recorder s) place).inside (inside s (.jinja s) n)

variable {ps : List Portion} {b : Option Bracket} {n : Node} {below : List (Place → Recorder)}

theorem records_runAll {h : Hooks Recording} {h' : Hooks Emit}
    (hchild : ∀ i, Kept s root (h.child i) (h'.child i))
    (hinside : ∀ i, Kept s root (h.inside i) (h'.inside i)) (hps : ∀ q ∈ ps, q.IsSound) :
    Kept s root (runAll h ps) (runAll h' ps) := by
  induction ps with
  | nil => exact records_pure (Mark.fair_nil [])
  | cons q ps ih =>
    rw [List.forall_mem_cons] at hps
    refine Records.bind ?_ (ih hps.2)
    cases q with
    | act a => exact hps.1.records
    | child i => exact hchild i
    | inside i => exact hinside i

theorem records_run {p : Plan} (hp : p.IsSound) (h : Kept s root
      (runAll (.record place b below) p.body) (runAll (.walk s n b) p.body)) :
    Records (Mark.Fair (root.Has s) (b.map (place, ·)).toList) (p.run (.record place b below))
      (p.run (.walk s n b)) := by
  refine .after hp.lead (Records.bind ?_ hp.trail.records)
  cases b with
  | none => exact h
  | some b => exact Records.around hp.write place b h

theorem has_bracket {n : Node} (h : root.get? place = some n) (e : Emitter) :
    root.Has s place (n.bracket? s e) :=
  ⟨n, e, h, rfl⟩

/-- **Every node** of the tree is written with a fair record. -/
theorem kept_node (n : Node) (hplace : root.get? place = some n) : KeptAt s root place n := by
  induction n using Node.induction generalizing place with
  | h n ih =>
    have hchild (i : Nat) (c : Node) (hc : n.children[i]? = some c) :
        KeptAt s root (place ++ [i]) c :=
      ih c (List.mem_of_getElem? hc) (Node.get?_child hplace hc)
    have hrun {b : Option Bracket} {ps : List Portion} (hps : ∀ q ∈ ps, q.IsSound) : Kept s root
        (runAll (.record place b (n.children.map (Node.fold (recorder s)))) ps)
        (runAll (.walk s n b) ps) := by
      refine records_runAll (fun i => ?_) (fun i => ?_) hps
      · simp only [Hooks.record, Hooks.walk, List.getElem?_map]
        cases hc : n.children[i]? with
        | none => exact records_pure (Mark.fair_nil [])
        | some c => exact (hchild i c hc).1
      · simp only [Hooks.record, Hooks.walk, List.getElem?_map]
        cases hc : n.children[i]? with
        | none => exact records_pure (Mark.fair_nil [])
        | some c => exact (hchild i c hc).2
    rw [KeptAt, Node.fold_eq, node_eq_run, inside_eq_run]
    refine ⟨records_visiting (has_bracket hplace) fun e => ?_, hrun (sound_contents s n)⟩
    exact records_run (sound_plan s e n) (hrun (sound_plan s e n).body)

/-! ## Whole templates -/

/-- Write a template and keep a record. -/
def recordedTemplate (s : Setup) (root : Node) : Recording Unit := do
  push (Forms.jinja s).opening
  before (isTag root)
  recorded s [] root

theorem records_template (s : Setup) (root : Node) :
    Kept s root (recordedTemplate s root) (template s (.jinja s) root) :=
  .after (unread_push _) (.after (unread_before _) (kept_node root rfl).1)

end Emit

/-- **Templates are well nested.** Suppose a tree comes out as a Jinja template. Writing it with a
record does the same, and on the record there are visits to nodes of the tree, each with the bracket
that the node has; what opens are the brackets of the visited nodes, one by one; what closes closes
the innermost bracket that is open and is written by the same node, and none is left open in the
end; and all these pieces are found in the template in the order of the record. -/
theorem jinja_write_nested (s : Session) (o : Options) (root : Node) (out : String)
    (h : (s.write .jinja o root).1 = .ok out) :
    let w := (s.start .jinja o).1
    ∃ ms e, (Emit.template w.setup (.jinja w.setup) root).run.run w.emitter = (.ok (), e) ∧
      e.result = .ok out ∧
      ((Emit.recordedTemplate w.setup root).run []).run.run w.emitter = (.ok ((), ms), e) ∧
      (∀ p b, .visits p b ∈ ms → root.Has w.setup p b) ∧
      Mark.opened ms = Mark.expected ms ∧
      Mark.close [] ms = some [] ∧
      Mark.Spelled ms (glyphsOf out) := by
  intro w
  have hwrite : (s.write .jinja o root).1 =
      ((Emit.written (Emit.template w.setup (.jinja w.setup) root)).run.run w.emitter).1 := rfl
  have hrecords := Emit.records_template w.setup root [] w.emitter
  have hempty : w.emitter.glyphs = [] := Session.glyphs_start s .jinja o
  rw [hwrite, Emit.run_written] at h
  rcases hrun : (Emit.template w.setup (.jinja w.setup) root).run.run w.emitter with ⟨f | a, e⟩
  · rw [hrun] at h
    exact absurd h (by simp)
  · rw [hrun] at h hrecords
    obtain ⟨ms, gs, hlog, hglyphs, hfair⟩ := hrecords
    rw [List.nil_append] at hlog
    rw [hempty, List.nil_append, Emitter.result_eq_ok_iff.mp h] at hglyphs
    refine ⟨ms, e, rfl, h, hlog, hfair.visits, hfair.opened, hfair.nested [], ?_⟩
    rw [hglyphs]
    exact hfair.spelled

/-- A conditional around an element, in which there is a tag that is closed at once and a loop. -/
theorem jinja_write_nested_page :
    let src := "if a\n  p\n    br\n    each x in y\n      | z"
    let w := (({} : Session).start .jinja {}).1
    ∃ root out ms e, parse (.ofText src) none = .ok root ∧
      (({} : Session).write .jinja {} root).1 = .ok out ∧
      ((Emit.recordedTemplate w.setup root).run []).run.run w.emitter = (.ok ((), ms), e) ∧
      (Mark.opened ms).map (·.2.start) =
        ["\x7b% if  a %\x7d", "<p", "\x7b% for x in __pyjade_iter(y,1) %\x7d"] ∧
      (∀ p b, .visits p b ∈ ms → root.Has w.setup p b) ∧
      Mark.opened ms = Mark.expected ms ∧
      Mark.close [] ms = some [] ∧
      Mark.Spelled ms (glyphsOf out) := by
  intro src w
  have hpage : (parse (.ofText src) none).toOption.map (fun root =>
      ((({} : Session).write .jinja {} root).1.toOption.isSome,
        (((Emit.recordedTemplate w.setup root).run []).run.run w.emitter).1.toOption.map fun r =>
          (Mark.opened r.2).map (·.2.start))) =
      some (true, some ["\x7b% if  a %\x7d", "<p", "\x7b% for x in __pyjade_iter(y,1) %\x7d"]) := by
    decide +kernel
  obtain ⟨root, hparse, hroot⟩ := Reader.exists_ok_of_map hpage
  obtain ⟨hsome, hmarks⟩ := Prod.mk.inj hroot
  rcases hout : (({} : Session).write .jinja {} root).1 with f | out
  · rw [hout] at hsome
    exact absurd hsome (by simp [Except.toOption])
  · obtain ⟨ms, e, -, -, hlog, hfair⟩ := jinja_write_nested {} {} root out hout
    have hrun : ((Emit.recordedTemplate w.setup root).run []).run.run w.emitter = _ := hlog
    rw [hrun] at hmarks
    exact ⟨root, out, ms, e, hparse, hout, hlog, Option.some.inj hmarks, hfair⟩

end Jade
