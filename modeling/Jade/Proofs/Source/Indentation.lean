import Jade.Proofs.Source.Step

/-!
# Indentation is well nested

The indentations that are open are kept innermost first. However a source is read, one token at a
time or ahead, as markup or as plain text, and also beyond a fault, their widths go down strictly
from the innermost to the outermost and none of them is zero.

The tokens that were produced so far, those given and those stashed, account for the open
indentations: `Token.depthAfter` follows them from depth zero and refuses an outdent at depth zero
and an end anywhere else, and it arrives at the number of open indentations. Outdents that come at
once are stashed behind tokens read ahead, which is why given and stashed tokens are followed
together.

## Main results

* `Jade.Source.Reads.nested_stash`, `Jade.Source.Reads.nested_given`, `Jade.Source.Fails.nested` :
  the invariant survives a token, read ahead or given, and a fault
* `Jade.Source.nested_perform` : and every use of a source
* `Jade.Source.indentation_nested` : so indents and outdents are balanced
-/

namespace Jade

/-! ## The depth of tokens -/

namespace Token

variable {t : Token} {d : Nat} {ts : List Token}

/-- Whether a token opens an indentation. -/
def isIndent (t : Token) : Bool :=
  match t.body with
  | .indent _ => true
  | _ => false

/-- Whether a token closes an indentation. -/
def isOutdent (t : Token) : Bool := t.body == .outdent

/-- The depth after a token, from the depth before it. Nothing closes at depth zero, and a source
ends nowhere else. -/
def depthStep (d : Nat) (t : Token) : Option Nat :=
  match t.body with
  | .indent _ => some (d + 1)
  | .outdent => if d = 0 then none else some (d - 1)
  | .eos => if d = 0 then some d else none
  | _ => some d

/-- The depth after tokens, from depth `d`. -/
def depthFrom (d : Nat) (ts : List Token) : Option Nat := ts.foldlM depthStep d

/-- The depth after tokens, if they are well nested. -/
def depthAfter (ts : List Token) : Option Nat := depthFrom 0 ts

theorem depthFrom_append (d : Nat) (ts us : List Token) :
    depthFrom d (ts ++ us) = (depthFrom d ts).bind fun e => depthFrom e us :=
  List.foldlM_append

theorem depthFrom_cons (d : Nat) (t : Token) (ts : List Token) :
    depthFrom d (t :: ts) = (depthStep d t).bind fun e => depthFrom e ts :=
  List.foldlM_cons

theorem depthFrom_singleton (d : Nat) (t : Token) : depthFrom d [t] = depthStep d t := by
  rw [depthFrom_cons]
  cases depthStep d t <;> rfl

theorem depthStep_of_isContent (h : t.body.isContent = true) (d : Nat) :
    depthStep d t = some d := by
  rw [depthStep]
  split <;> simp_all [Body.isContent]

theorem depthStep_of_outdent (h : t.body = .outdent) (d : Nat) : depthStep (d + 1) t = some d := by
  simp [depthStep, h]

theorem depthStep_of_eos (h : t.body = .eos) (d : Nat) :
    depthStep d t = if d = 0 then some d else none := by
  simp [depthStep, h]

theorem depthFrom_replicate_outdent (h : t.body = .outdent) (k d : Nat) :
    depthFrom (k + d) (List.replicate k t) = some d := by
  induction k with
  | zero => rw [Nat.zero_add]; rfl
  | succ k ih =>
    rw [List.replicate_succ, depthFrom_cons, Nat.add_right_comm, depthStep_of_outdent h]
    exact ih

/-- One token accounts for the difference that it makes to the depth. -/
theorem counts_of_depthStep {e : Nat} (h : depthStep d t = some e) :
    d + (if t.isIndent then 1 else 0) = e + (if t.isOutdent then 1 else 0) := by
  rw [isIndent, isOutdent]
  rw [depthStep] at h
  split at h
  · next heq =>
    cases h
    simp [heq]
  · next heq =>
    split at h
    · cases h
    · cases h
      simp only [heq, Bool.false_eq_true, if_false, beq_self_eq_true, if_true]
      omega
  · next heq =>
    split at h
    · cases h
      simp [heq]
    · cases h
  · next hin hout _ =>
    cases h
    split
    · next heq => exact absurd heq (hin _)
    · rw [beq_eq_false_iff_ne.mpr hout]

/-- Well nested tokens account for the difference that they make to the depth. -/
theorem counts_of_depthFrom {e : Nat} (h : depthFrom d ts = some e) :
    d + ts.countP isIndent = e + ts.countP isOutdent := by
  induction ts generalizing d with
  | nil =>
    cases h
    rfl
  | cons t ts ih =>
    rw [depthFrom_cons] at h
    obtain ⟨f, hstep, hrest⟩ := Option.bind_eq_some_iff.mp h
    have hone := counts_of_depthStep hstep
    have hmore := ih hrest
    rw [List.countP_cons, List.countP_cons]
    omega

theorem exists_depthAfter_of_prefix {us : List Token} (h : depthAfter us = some d)
    (hts : ts <+: us) :
    ∃ e, depthAfter ts = some e := by
  obtain ⟨vs, rfl⟩ := hts
  rw [depthAfter, depthFrom_append] at h
  obtain ⟨e, he, -⟩ := Option.bind_eq_some_iff.mp h
  exact ⟨e, he⟩

theorem depthAfter_of_eos (h : depthAfter (ts ++ [t]) = some d) (ht : t.body = .eos) :
    depthAfter ts = some 0 := by
  rw [depthAfter, depthFrom_append] at h
  obtain ⟨e, hts, hstep⟩ := Option.bind_eq_some_iff.mp h
  rw [depthFrom_singleton, depthStep_of_eos ht] at hstep
  split at hstep
  · next he => rwa [he] at hts
  · cases hstep

end Token

/-! ## The invariant -/

namespace Source

variable {given : List Token} {s s' : Source} {t : Token}

/-- The indentations that are open get narrower to the outside, and the tokens given so far and
those stashed lead to them. Tokens that were put off are tokens of a line. -/
structure Nested (given : List Token) (s : Source) : Prop where
  /-- From the innermost to the outermost the widths go down. -/
  decreasing : s.indents.Pairwise (· > ·)
  /-- No indentation is empty. -/
  positive : ∀ w ∈ s.indents, 0 < w
  /-- A token that was put off does not change the depth. -/
  deferred : ∀ t ∈ s.deferred, t.body.isContent = true
  /-- The tokens produced so far open what is open. -/
  depth : Token.depthAfter (given ++ s.stash) = some s.indents.length

theorem nested_ofText (src : String) (colons : Bool) : Nested [] (ofText src colons) where
  decreasing := List.Pairwise.nil
  positive := by simp [ofText]
  deferred := by simp [ofText]
  depth := rfl

theorem Nested.depth_append (hn : Nested given s) {ts : List Token} {d : Nat}
    (h : Token.depthFrom s.indents.length ts = some d) :
    Token.depthAfter (given ++ s.stash ++ ts) = some d := by
  have hdepth : Token.depthFrom 0 (given ++ s.stash) = some s.indents.length := hn.depth
  rw [Token.depthAfter, Token.depthFrom_append, hdepth]
  exact h

/-- The tokens that reading a token produces, the one given and those stashed, lead from the old
depth to the new one. -/
theorem Reads.depth (h : s.Reads t s') (hs : ∀ t ∈ s.deferred, t.body.isContent = true) :
    ∃ k, s'.stash = s.stash ++ List.replicate k t ∧
      Token.depthFrom s.indents.length (List.replicate (k + 1) t) = some s'.indents.length := by
  cases h with
  | deferred hd =>
    refine ⟨0, (List.append_nil _).symm, ?_⟩
    exact (Token.depthFrom_singleton _ _).trans
      (Token.depthStep_of_isContent (hs t (hd ▸ List.mem_cons_self)) _)
  | eos hd hr hi =>
    refine ⟨0, (List.append_nil _).symm, ?_⟩
    rw [hi]
    rfl
  | close hd hr hi =>
    refine ⟨0, (List.append_nil _).symm, ?_⟩
    rw [hi]
    exact (Token.depthFrom_singleton _ _).trans (Token.depthStep_of_outdent rfl _)
  | newline hd hr => exact ⟨0, (List.append_nil _).symm, rfl⟩
  | indent hd hr hw hi => exact ⟨0, (List.append_nil _).symm, rfl⟩
  | @outdent rest line k style gone kept hd hr hi hk =>
    refine ⟨k, rfl, ?_⟩
    rw [hi, List.length_append, hk]
    exact Token.depthFrom_replicate_outdent rfl (k + 1) kept.length
  | content hd hr hb =>
    refine ⟨0, (List.append_nil _).symm, ?_⟩
    exact (Token.depthFrom_singleton _ _).trans (Token.depthStep_of_isContent hb _)
  | tagColon hd hr => exact ⟨0, (List.append_nil _).symm, rfl⟩

theorem Reads.indents (h : s.Reads t s') (hdec : s.indents.Pairwise (· > ·))
    (hpos : ∀ w ∈ s.indents, 0 < w) : s'.indents.Pairwise (· > ·) ∧ ∀ w ∈ s'.indents, 0 < w := by
  cases h with
  | deferred hd => exact ⟨hdec, hpos⟩
  | eos hd hr hi => exact ⟨hdec, hpos⟩
  | close hd hr hi =>
    rw [hi] at hdec hpos
    exact ⟨hdec.of_cons, fun w hw => hpos w (List.mem_cons_of_mem _ hw)⟩
  | newline hd hr => exact ⟨hdec, hpos⟩
  | @indent rest line width style hd hr hw hi =>
    refine ⟨List.pairwise_cons.mpr ⟨fun v hv => ?_, hdec⟩, fun v hv => ?_⟩
    · -- the new width is greater than the innermost one, which is greater than the others
      cases hin : s.indents with
      | nil => exact nomatch hin ▸ hv
      | cons u us =>
        rw [hin] at hv hdec hi
        have hu : u < width := hi u rfl
        rcases List.mem_cons.mp hv with rfl | hv
        · exact hu
        · exact Nat.lt_trans ((List.pairwise_cons.mp hdec).1 v hv) hu
    · rcases List.mem_cons.mp hv with rfl | hv
      · exact hw
      · exact hpos v hv
  | outdent hd hr hi hk =>
    rw [hi] at hdec hpos
    exact ⟨(List.pairwise_append.mp hdec).2.1, fun w hw => hpos w (List.mem_append_right _ hw)⟩
  | content hd hr hb => exact ⟨hdec, hpos⟩
  | tagColon hd hr => exact ⟨hdec, hpos⟩

theorem Reads.deferred_isContent (h : s.Reads t s')
    (hs : ∀ t ∈ s.deferred, t.body.isContent = true) :
    ∀ t ∈ s'.deferred, t.body.isContent = true := by
  cases h with
  | deferred hd =>
    rw [hd] at hs
    exact fun u hu => hs u (List.mem_cons_of_mem _ hu)
  | tagColon hd hr =>
    intro u hu
    rw [List.mem_singleton.mp hu]
    rfl
  | eos => exact hs
  | close => exact hs
  | newline => exact hs
  | indent => exact hs
  | outdent => exact hs
  | content => exact hs

/-- **A token that is read ahead** keeps the indentations nested. -/
theorem Reads.nested_stash (h : s.Reads t s') (hn : Nested given s) :
    Nested given { s' with stash := s'.stash ++ [t] } := by
  obtain ⟨hdec, hpos⟩ := h.indents hn.decreasing hn.positive
  obtain ⟨k, hstash, hdepth⟩ := h.depth hn.deferred
  refine ⟨hdec, hpos, h.deferred_isContent hn.deferred, ?_⟩
  have hproduced : given ++ (s'.stash ++ [t]) = (given ++ s.stash) ++ List.replicate (k + 1) t := by
    rw [hstash, List.replicate_succ', List.append_assoc, List.append_assoc]
  show Token.depthAfter (given ++ (s'.stash ++ [t])) = some s'.indents.length
  rw [hproduced]
  exact hn.depth_append hdepth

/-- **A token that is given** keeps the indentations nested. -/
theorem Reads.nested_given (h : s.Reads t s') (hn : Nested given s) (hs : s.stash = []) :
    Nested (given ++ [t]) s' := by
  obtain ⟨hdec, hpos⟩ := h.indents hn.decreasing hn.positive
  obtain ⟨k, hstash, hdepth⟩ := h.depth hn.deferred
  refine ⟨hdec, hpos, h.deferred_isContent hn.deferred, ?_⟩
  have hproduced : given ++ [t] ++ s'.stash = (given ++ s.stash) ++ List.replicate (k + 1) t := by
    rw [hstash, hs, List.replicate_succ, List.append_nil, List.nil_append, List.append_assoc,
      List.singleton_append]
  rw [hproduced]
  exact hn.depth_append hdepth

/-- **A fault** keeps the indentations nested. -/
theorem Fails.nested {e : Fault} (h : s.Fails e s') (hn : Nested given s) : Nested given s' := by
  cases h with
  | mixed hd hr => exact ⟨hn.decreasing, hn.positive, hn.deferred, hn.depth⟩
  | tagColon hd hr =>
    refine ⟨hn.decreasing, hn.positive, fun u hu => ?_, hn.depth⟩
    rw [List.mem_singleton.mp hu]
    rfl

/-! ## Using a source -/

/-- A way to use a source. -/
inductive Move where
  | advance
  | lookahead (n : Int)
  | pipeless (on : Bool)

/-- Use a source, and note the tokens that were taken. A fault leaves what was read until then. -/
def Move.perform : Move → List Token × Source → List Token × Source
  | advance, (given, s) =>
    match s.advance with
    | (.ok t, s) => (given ++ [t], s)
    | (.error _, s) => (given, s)
  | lookahead n, (given, s) => (given, (s.lookahead n).2)
  | pipeless on, (given, s) => (given, { s with pipeless := on })

/-- Use a source again and again. -/
def perform (moves : List Move) (s : Source) : List Token × Source :=
  moves.foldl (fun used move => move.perform used) ([], s)

theorem lookahead_state (n : Int) (s : Source) :
    (s.lookahead n).2 = (s.fetch (n - s.stash.length).toNat).2 := by
  rw [lookahead]
  split <;> simp_all

theorem nested_fetch (hn : Nested given s) (n : Nat) : Nested given (fetch n s).2 := by
  induction n generalizing s with
  | zero => exact hn
  | succ n ih =>
    rw [fetch]
    rcases hnext : s.next with ⟨e | t, s'⟩
    · exact (fails_of_next hnext).nested hn
    · exact ih ((reads_of_next hnext).nested_stash hn)

theorem Move.nested_perform (move : Move) (hn : Nested given s) :
    Nested (move.perform (given, s)).1 (move.perform (given, s)).2 := by
  cases move with
  | advance =>
    rw [perform, Source.advance]
    cases hstash : s.stash with
    | cons t ts =>
      refine ⟨hn.decreasing, hn.positive, hn.deferred, ?_⟩
      rw [← hn.depth, hstash, List.append_cons]
    | nil =>
      dsimp only
      rcases hnext : s.next with ⟨e | t, s'⟩
      · exact (fails_of_next hnext).nested hn
      · exact (reads_of_next hnext).nested_given hn hstash
  | lookahead n =>
    rw [perform, lookahead_state]
    exact nested_fetch hn _
  | pipeless on => exact ⟨hn.decreasing, hn.positive, hn.deferred, hn.depth⟩

/-- **Every use of a source** keeps the indentations nested. -/
theorem nested_perform (moves : List Move) (hn : Nested [] s) :
    Nested (perform moves s).1 (perform moves s).2 :=
  List.foldlRecOn (motive := fun used : List Token × Source => Nested used.1 used.2) moves _ hn
    fun _ h move _ => move.nested_perform h

/-- **Indents and outdents are balanced.** However a source is used, the widths of the open
indentations go down strictly to the outside and are positive. The tokens produced so far, given or
stashed, have as many more indents than outdents as indentations are open. So among the tokens given
there are at no point more outdents than indents, and as many of both when the source ends. -/
theorem indentation_nested (src : String) (colons : Bool) (moves : List Move) :
    let (given, s) := perform moves (ofText src colons)
    s.indents.Pairwise (· > ·) ∧ (∀ w ∈ s.indents, 0 < w) ∧
      (given ++ s.stash).countP Token.isIndent =
        (given ++ s.stash).countP Token.isOutdent + s.indents.length ∧
      (∀ ts, ts <+: given → ts.countP Token.isOutdent ≤ ts.countP Token.isIndent) ∧
      ∀ ts t, ts ++ [t] <+: given → t.body = .eos →
        ts.countP Token.isOutdent = ts.countP Token.isIndent := by
  have hn := nested_perform moves (nested_ofText src colons)
  revert hn
  obtain ⟨given, s⟩ := perform moves (ofText src colons)
  intro (hn : Nested given s)
  have hgiven : ∀ ts, ts <+: given → ∃ d, Token.depthAfter ts = some d := fun ts hts =>
    Token.exists_depthAfter_of_prefix hn.depth (hts.trans (List.prefix_append _ _))
  refine ⟨hn.decreasing, hn.positive, ?_, fun ts hts => ?_, fun ts t hts ht => ?_⟩
  · have hcounts := Token.counts_of_depthFrom hn.depth
    omega
  · obtain ⟨d, hd⟩ := hgiven ts hts
    have hcounts := Token.counts_of_depthFrom hd
    omega
  · obtain ⟨d, hd⟩ := hgiven (ts ++ [t]) hts
    have hcounts := Token.counts_of_depthFrom (Token.depthAfter_of_eos hd ht)
    omega

end Source

end Jade
