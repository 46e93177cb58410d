import Jade.Proofs.Emitter.Output
import Jade.Proofs.Node.Frames

/-!
# Brackets in the output

Some nodes write a piece that opens something, what is inside of it, and a piece that closes it.
Such a node has a `Bracket`. While a tree is written, one can keep a record of the nodes that are
visited and of the pieces that open and close. A node is known there by its place in the tree and
not by what it looks like, since equal nodes may stand at many places.

`Emit.Records` holds an action that keeps a record against one that does not: both do the same. A
record is fair (`Mark.Fair`) if visits are to nodes of the tree and tell their brackets; what opens
are the brackets of the visited nodes, one by one; what closes closes the innermost bracket that is
open, of the same node; and all pieces are found in the output in the order of the record. Nesting
is stated for every stack of open brackets, so that records can be put together in any surrounding.

## Main results

* `Jade.Emit.Unread.appends` : actions that do not read the output only add to it
* `Jade.Emit.Records.bind`, `Jade.Emit.records_visiting`, `Jade.Emit.Records.around` : how records
  are put together
-/

namespace Jade

/-- Two pieces that belong together. -/
structure Bracket where
  start : String
  stop : String
  deriving DecidableEq, Repr

/-- A mark on the record of what happens while a tree is written. -/
inductive Mark where
  /-- The node at a place is visited, which has this bracket or none. -/
  | visits (place : Place) (b : Option Bracket)
  /-- The node at a place writes the piece that opens its bracket. -/
  | opens (place : Place) (b : Bracket)
  /-- The node at a place writes the piece that closes its bracket. -/
  | closes (place : Place) (b : Bracket)
  deriving DecidableEq, Repr

namespace Mark

/-- What is written. -/
def text : Mark → String
  | visits _ _ => ""
  | opens _ b => b.start
  | closes _ b => b.stop

/-- The brackets that the visited nodes have. -/
def expected (ms : List Mark) : List (Place × Bracket) :=
  ms.filterMap fun
    | visits p b => b.map (p, ·)
    | _ => none

/-- The brackets that are opened. -/
def opened (ms : List Mark) : List (Place × Bracket) :=
  ms.filterMap fun
    | opens p b => some (p, b)
    | _ => none

theorem expected_append (ms ms' : List Mark) : expected (ms ++ ms') = expected ms ++ expected ms' :=
  List.filterMap_append ..

theorem opened_append (ms ms' : List Mark) : opened (ms ++ ms') = opened ms ++ opened ms' :=
  List.filterMap_append ..

/-! ## Nesting -/

/-- One mark on a stack of open brackets. What closes has to close the innermost one, of the same
node; otherwise there is no stack after it. -/
def step (unclosed : List (Place × Bracket)) : Mark → Option (List (Place × Bracket))
  | visits _ _ => some unclosed
  | opens p b => some ((p, b) :: unclosed)
  | closes p b =>
    match unclosed with
    | (q, c) :: rest => if q = p ∧ c = b then some rest else none
    | [] => none

/-- What is open after some marks. -/
def close (unclosed : List (Place × Bracket)) (ms : List Mark) : Option (List (Place × Bracket)) :=
  ms.foldlM step unclosed

/-- Marks that leave every stack as it was. -/
def Nested (ms : List Mark) : Prop := ∀ unclosed, close unclosed ms = some unclosed

theorem nested_nil : Nested [] := fun _ => rfl

theorem nested_visits (p : Place) (b : Option Bracket) : Nested [visits p b] := fun _ => rfl

theorem Nested.append {ms ms' : List Mark} (h : Nested ms) (h' : Nested ms') :
    Nested (ms ++ ms') := by
  intro unclosed
  rw [close, List.foldlM_append]
  show (close unclosed ms).bind _ = _
  rw [h unclosed]
  exact h' unclosed

theorem Nested.around {ms : List Mark} (h : Nested ms) (p : Place) (b : Bracket) :
    Nested (opens p b :: (ms ++ [closes p b])) := by
  intro unclosed
  have hinside : close ((p, b) :: unclosed) ms = some ((p, b) :: unclosed) := h _
  rw [close, List.foldlM_cons]
  show (ms ++ [closes p b]).foldlM step ((p, b) :: unclosed) = _
  rw [List.foldlM_append]
  show (close ((p, b) :: unclosed) ms).bind _ = _
  rw [hinside]
  simp [step]

/-! ## Marks in the output -/

/-- The marks are found one after the other in what was written. -/
inductive Spelled : List Mark → List Glyph → Prop
  | nil (gap : List Glyph) : Spelled [] gap
  | cons (gap : List Glyph) (m : Mark) {ms : List Mark} {rest : List Glyph} (h : Spelled ms rest) :
    Spelled (m :: ms) (gap ++ glyphsOf m.text ++ rest)

theorem Spelled.left {ms : List Mark} {gs : List Glyph} (h : Spelled ms gs) (gap : List Glyph) :
    Spelled ms (gap ++ gs) := by
  cases h with
  | nil gap' => exact .nil _
  | cons gap' m h =>
    rw [← List.append_assoc, ← List.append_assoc]
    exact .cons _ m h

theorem Spelled.append {ms ms' : List Mark} {gs gs' : List Glyph} (h : Spelled ms gs)
    (h' : Spelled ms' gs') : Spelled (ms ++ ms') (gs ++ gs') := by
  induction h with
  | nil gap => exact h'.left gap
  | cons gap m _ ih =>
    rw [List.append_assoc]
    exact .cons gap m ih

theorem spelled_singleton (m : Mark) : Spelled [m] (glyphsOf m.text) := by
  have h : Spelled [m] ([] ++ glyphsOf m.text ++ []) := .cons [] m (.nil [])
  rwa [List.nil_append, List.append_nil] at h

/-! ## Fair records -/

/-- Visits are as in `fits`, the marks are well nested and found in what was written, and what opens
are the brackets in `due`, which belong to visits before, and then those of the visits here. -/
structure Fair (fits : Place → Option Bracket → Prop) (due : List (Place × Bracket))
    (ms : List Mark) (gs : List Glyph) : Prop where
  visits : ∀ p b, .visits p b ∈ ms → fits p b
  opened : opened ms = due ++ expected ms
  nested : Nested ms
  spelled : Spelled ms gs

variable {fits : Place → Option Bracket → Prop} {due : List (Place × Bracket)} {ms ms' : List Mark}
  {gs gs' : List Glyph}

theorem fair_nil (gs : List Glyph) : Fair fits [] [] gs where
  visits := by simp
  opened := rfl
  nested := nested_nil
  spelled := .nil gs

theorem Fair.append (h : Fair fits due ms gs) (h' : Fair fits [] ms' gs') :
    Fair fits due (ms ++ ms') (gs ++ gs') where
  visits p b hmem := (List.mem_append.mp hmem).elim (h.visits p b) (h'.visits p b)
  opened := by
    rw [opened_append, expected_append, h.opened, h'.opened, List.nil_append, List.append_assoc]
  nested := h.nested.append h'.nested
  spelled := h.spelled.append h'.spelled

theorem Fair.after (h : Fair fits due ms gs) (gap : List Glyph) : Fair fits due ms (gap ++ gs) :=
  { h with spelled := h.spelled.left gap }

theorem Fair.visit {p : Place} {b : Option Bracket} (hfits : fits p b)
    (h : Fair fits (b.map (p, ·)).toList ms gs) : Fair fits [] (.visits p b :: ms) gs where
  visits q c hmem := by
    rcases List.mem_cons.mp hmem with heq | hmem
    · obtain ⟨rfl, rfl⟩ := Mark.visits.inj heq
      exact hfits
    · exact h.visits q c hmem
  opened := by
    show Mark.opened ms = _
    rw [h.opened]
    cases b with
    | none => rfl
    | some b => rfl
  nested := (nested_visits p b).append h.nested
  spelled := .cons [] (.visits p b) h.spelled

theorem Fair.around (p : Place) (b : Bracket) (h : Fair fits [] ms gs) :
    Fair fits [(p, b)] (.opens p b :: (ms ++ [.closes p b]))
      (glyphsOf b.start ++ (gs ++ glyphsOf b.stop)) where
  visits q c hmem := by
    simp only [List.mem_cons, List.mem_append, List.not_mem_nil, or_false, reduceCtorEq,
      false_or] at hmem
    exact h.visits q c hmem
  opened := by
    show (p, b) :: Mark.opened (ms ++ [.closes p b]) = (p, b) :: expected (ms ++ [.closes p b])
    rw [opened_append, expected_append, h.opened]
    rfl
  nested := h.nested.around p b
  spelled := .cons [] (.opens p b) (h.spelled.append (spelled_singleton (.closes p b)))

end Mark

/-! ## Actions that only add to the output -/

namespace Emit

/-- **What is written stays**: an action that does not read the output only adds to it. -/
theorem Unread.appends {act : Emit Unit} (h : Unread act) (e : Emitter) :
    e.glyphs <+: (act.run.run e).2.glyphs := by
  have hbond := Emitter.isBond_paired (Q := fun gs gs' => gs = gs' ∧ e.glyphs <+: gs) (by
    rintro gs _ new ⟨rfl, hgs⟩
    exact ⟨rfl, hgs.trans (List.prefix_append gs (glyphsOf new))⟩)
  exact (h _ hbond e e (.refl ⟨rfl, List.prefix_refl _⟩)).2.glyphs.2

/-- One of the ways to write a text. -/
def Writes (write : String → Emit Unit) : Prop :=
  ∀ s e, ∃ e', (write s).run.run e = (.ok (), e') ∧ e'.glyphs = e.glyphs ++ glyphsOf s

theorem writes_put : Writes put := fun s e => ⟨e.put s, rfl, Emitter.glyphs_put e s⟩

theorem writes_push : Writes push :=
  fun s e => ⟨e.push (.text s), rfl, Emitter.glyphs_push e (.text s)⟩

/-! ## Actions that keep a record -/

/-- Actions that keep a record. -/
abbrev Recording := StateT (List Mark) Emit

/-- Write the piece of a mark and put the mark on the record. -/
def mark (write : String → Emit Unit) (m : Mark) : Recording Unit := do
  write m.text
  modify (· ++ [m])

/-- A bracket around what is inside of it. -/
def bracketed (write : String → Emit Unit) (place : Place) (b : Bracket) (log : Recording Unit) :
    Recording Unit := do
  mark write (.opens place b)
  log
  mark write (.closes place b)

/-- Put a visit on the record. -/
def visiting (place : Place) (b : Option Bracket) : Recording Unit :=
  modify (· ++ [.visits place b])

/-- The recording action does what `act` does, and what it puts on the record and what is written
meanwhile are as in `post`. -/
def Records (post : List Mark → List Glyph → Prop) (log : Recording Unit) (act : Emit Unit) :
    Prop :=
  ∀ ms e, match act.run.run e with
    | (.error f, e') => (log.run ms).run.run e = (.error f, e')
    | (.ok _, e') => ∃ new gs, (log.run ms).run.run e = (.ok ((), ms ++ new), e') ∧
        e'.glyphs = e.glyphs ++ gs ∧ post new gs

variable {P Q S : List Mark → List Glyph → Prop} {log log' : Recording Unit} {act act' : Emit Unit}

theorem run_recording_bind (log : Recording Unit) (k : Unit → Recording Unit) (ms : List Mark)
    (e : Emitter) : ((log >>= k).run ms).run.run e = match (log.run ms).run.run e with
      | (.ok (_, ms'), e') => ((k ()).run ms').run.run e'
      | (.error f, e') => (.error f, e') := by
  rw [StateT.run_bind, Reader.run_bind]
  rcases (log.run ms).run.run e with ⟨f | ⟨_, ms'⟩, e'⟩
  · rfl
  · rfl

theorem run_recording_lift (act : Emit Unit) (ms : List Mark) (e : Emitter) :
    ((liftM act : Recording Unit).run ms).run.run e = match act.run.run e with
      | (.error f, e') => (.error f, e')
      | (.ok _, e') => (.ok ((), ms), e') := by
  show (act >>= fun _ => pure ((), ms)).run.run e = _
  rw [Reader.run_bind]
  rcases act.run.run e with ⟨f | a, e'⟩
  · rfl
  · rfl

/-- **One action after the other.** -/
theorem Records.seq (h : Records P log act) (h' : Records Q log' act')
    (hpost : ∀ {ms gs ms' gs'}, P ms gs → Q ms' gs' → S (ms ++ ms') (gs ++ gs')) :
    Records S (do log; log') (do act; act') := by
  intro ms e
  have hfirst := h ms e
  rw [Reader.run_bind, run_recording_bind]
  rcases hact : act.run.run e with ⟨f | a, e₁⟩
  · rw [hact] at hfirst
    dsimp only at hfirst ⊢
    rw [hfirst]
  · rw [hact] at hfirst
    obtain ⟨new, gs, hlog, hglyphs, hP⟩ := hfirst
    have hsecond := h' (ms ++ new) e₁
    dsimp only
    rw [hlog]
    rcases hact' : act'.run.run e₁ with ⟨f | a', e₂⟩
    · rw [hact'] at hsecond
      exact hsecond
    · rw [hact'] at hsecond
      obtain ⟨new', gs', hlog', hglyphs', hQ⟩ := hsecond
      refine ⟨new ++ new', gs ++ gs', ?_, ?_, hpost hP hQ⟩
      · rw [← List.append_assoc]
        exact hlog'
      · rw [hglyphs', hglyphs, List.append_assoc]

theorem records_pure (h : P [] []) : Records P (pure ()) (pure ()) := by
  intro ms e
  refine ⟨[], [], ?_, (List.append_nil _).symm, h⟩
  rw [List.append_nil]
  rfl

theorem records_get {k : Emitter → Recording Unit} {k' : Emitter → Emit Unit}
    (h : ∀ e, Records P (k e) (k' e)) :
    Records P (do let e ← (get : Emit Emitter); k e) (get >>= k') :=
  fun ms e => h e ms e

theorem Unread.records_nil (h : Unread act) : Records (fun ms _ => ms = []) (liftM act) act := by
  intro ms e
  obtain ⟨gs, hgs⟩ := h.appends e
  rw [run_recording_lift]
  rcases hact : act.run.run e with ⟨f | a, e'⟩
  · rfl
  · rw [hact] at hgs
    exact ⟨[], gs, by rw [List.append_nil], hgs.symm, rfl⟩

theorem records_mark {write : String → Emit Unit} (hwrite : Writes write) (m : Mark) :
    Records (fun ms gs => ms = [m] ∧ gs = glyphsOf m.text) (mark write m) (write m.text) := by
  intro ms e
  obtain ⟨e', hrun, hglyphs⟩ := hwrite m.text e
  rw [mark, run_recording_bind, run_recording_lift, hrun]
  exact ⟨[m], glyphsOf m.text, rfl, hglyphs, rfl, rfl⟩

/-! ## Fair recording -/

section Fair

variable {fits : Place → Option Bracket → Prop} {due : List (Place × Bracket)}

theorem Unread.records (h : Unread act) : Records (Mark.Fair fits []) (liftM act) act := by
  intro ms e
  have hnil := h.records_nil ms e
  rcases hact : act.run.run e with ⟨f | a, e'⟩
  · rwa [hact] at hnil
  · rw [hact] at hnil
    obtain ⟨_, gs, hlog, hglyphs, rfl⟩ := hnil
    exact ⟨[], gs, hlog, hglyphs, Mark.fair_nil gs⟩

theorem Records.bind (h : Records (Mark.Fair fits due) log act)
    (h' : Records (Mark.Fair fits []) log' act') :
    Records (Mark.Fair fits due) (do log; log') (do act; act') :=
  h.seq h' Mark.Fair.append

theorem Records.after (h : Unread act) (h' : Records (Mark.Fair fits due) log' act') :
    Records (Mark.Fair fits due) (do (act : Recording Unit); log') (do act; act') := by
  refine h.records_nil.seq h' ?_
  rintro ms gs ms' gs' rfl hfair
  exact hfair.after gs

/-- A node that is visited. Its bracket, which may depend on the state, is due from then on. -/
theorem records_visiting {p : Place} {b : Emitter → Option Bracket} {k : Emitter → Recording Unit}
    {k' : Emitter → Emit Unit} (hfits : ∀ e, fits p (b e))
    (h : ∀ e, Records (Mark.Fair fits ((b e).map (p, ·)).toList) (k e) (k' e)) :
    Records (Mark.Fair fits []) (do let e ← (get : Emit Emitter); visiting p (b e); k e)
      (get >>= k') := by
  refine records_get fun e => ?_
  have hvisit : Records (fun ms gs => ms = [.visits p (b e)] ∧ gs = []) (visiting p (b e))
      (pure ()) := fun ms e' => ⟨[.visits p (b e)], [], rfl, (List.append_nil _).symm, rfl, rfl⟩
  refine hvisit.seq (h e) ?_
  rintro ms gs ms' gs' ⟨rfl, rfl⟩ hfair
  exact hfair.visit (hfits e)

theorem Records.around {write : String → Emit Unit} (hwrite : Writes write) (p : Place)
    (b : Bracket) (h : Records (Mark.Fair fits []) log act) :
    Records (Mark.Fair fits [(p, b)]) (bracketed write p b log)
      (do write b.start; act; write b.stop) := by
  refine (records_mark hwrite (.opens p b)).seq
    (h.seq (records_mark hwrite (.closes p b)) (S := fun ms gs => ∃ ms' gs',
      ms = ms' ++ [.closes p b] ∧ gs = gs' ++ glyphsOf b.stop ∧ Mark.Fair fits [] ms' gs') ?_) ?_
  · rintro ms gs ms' gs' hfair ⟨rfl, rfl⟩
    exact ⟨ms, gs, rfl, rfl, hfair⟩
  · rintro ms gs ms' gs' ⟨rfl, rfl⟩ ⟨ms', gs', rfl, rfl, hfair⟩
    exact hfair.around p b

end Fair

end Emit

end Jade
