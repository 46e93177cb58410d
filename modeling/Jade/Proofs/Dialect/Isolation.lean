import Jade.Proofs.Dialect.Moved

/-!
# What one page leaves to the next

What a page has defined stays in the session, and the pages after it see it: global names, names
that statements have bound outside of all scopes, and mixins. A page after another one is rendered
as if it had been the first, if the one before leaves alone what this one looks up. What else is
defined does not matter, and neither does what else is in the store, although later lists get other
places by it.

That a page leaves something alone can be seen from its template and from the mixins that it may
call: none of them assigns such a name, binds it in a statement or defines such a mixin. This is
enough if no list or table can be reached from these names, since these can be changed without an
assignment, and if no script gets hold of a scope itself, where it could bind any name.

## Main results

* `Jade.Session.process_eq_of_sameOn` : pages that are the same in focus
* `Jade.Session.sameOn_process` : a page leaves alone what its template does not define
* `Jade.Session.process_page_isolated` : a page after another one
-/

namespace Jade

open Script (Motion)

/-! ## The first places -/

namespace Script

/-- The store with its first places only. -/
def Store.cut (s : Store) (n : Nat) : Store := { cells := s.cells.extract 0 n }

theorem Store.get_cut (s : Store) (n p : Nat) :
    (s.cut n).get p = if p < n then s.get p else [] := by
  simp only [get, cut, Array.getD_eq_getD_getElem?, Array.getElem?_extract, Nat.zero_add,
    Nat.sub_zero, Nat.lt_min]
  by_cases hn : p < n
  · by_cases hsize : p < s.cells.size
    · simp [hn, hsize]
    · simp [hn, hsize]
  · simp [hn]

theorem Store.size_cut {s : Store} {n : Nat} (h : n ≤ s.cells.size) : (s.cut n).cells.size = n := by
  rw [cut, Array.size_extract]
  omega

/-- No script has had hold of the scope, and all values of some names are in the first places. -/
def Frame.RestsOn (U : String → Prop) (n : Nat) (f : Frame) : Prop :=
  ∃ names, f = .own names ∧ ∀ k, U k → ∀ o ∈ names.get? k, ∀ place ∈ o.places, place < n

/-- No script has had hold of the scopes, and some names have the same values in both. -/
def Frame.SameOn (U : String → Prop) (f f' : Frame) : Prop :=
  ∃ names names', f = .own names ∧ f' = .own names' ∧ ∀ k, U k → names'.get? k = names.get? k

variable {U : String → Prop} {n : Nat} {f f' : Frame}

theorem Frame.RestsOn.sameOn (h : f.RestsOn U n) : f.SameOn U f := by
  obtain ⟨names, rfl, -⟩ := h
  exact ⟨names, names, rfl, rfl, fun _ _ => rfl⟩

/-- Names that are the same are so with places moved, if none of their values is moved. -/
theorem Frame.RestsOn.matches {gap : Nat} (hrest : f.RestsOn U n) (h : f.SameOn U f') :
    Motion.MatchesFrame ⟨n, gap⟩ U f f' := by
  obtain ⟨names, rfl, hplaces⟩ := hrest
  obtain ⟨_, names', heq, rfl, hsame⟩ := h
  cases heq
  refine .own fun k hk => ?_
  rw [hsame k hk]
  cases hget : names.get? k with
  | none => rfl
  | some o =>
    have hstay : Motion.move ⟨n, gap⟩ o = o :=
      Motion.move_eq_self _ o fun place hplace => if_pos (hplaces k hk o hget place hplace)
    rw [Option.map_some, hstay]

/-- No script has had hold of the scope, and it binds none of some names. -/
def Frame.lacks (ks : List String) : Frame → Bool
  | .own names => ks.all fun k => (names.get? k).isNone
  | .shared _ => false

theorem Frame.sameOn_of_lacks {ks : List String} (h : f.lacks ks = true) :
    Frame.SameOn (· ∈ ks) (.own {}) f := by
  cases f with
  | own names =>
    exact ⟨{}, names, rfl, rfl, fun k hk =>
      Option.isNone_iff_eq_none.mp (List.all_eq_true.mp h k hk)⟩
  | shared place => cases h

theorem Frame.SameOn.set (h : f.SameOn U f') {name : String} (hname : ¬ U name) (s : Store)
    (o : Object) : f.SameOn U (f'.set s name o).1 := by
  obtain ⟨names, names', rfl, rfl, hsame⟩ := h
  refine ⟨names, names'.set name o, rfl, rfl, fun k hk => ?_⟩
  have hne : name ≠ k := fun heq => hname (heq ▸ hk)
  rw [Table.get?_set_of_ne _ hne, hsame k hk]

theorem Frame.SameOn.runText (h : f.SameOn U f') {source : String}
    (hsource : ∀ k ∈ boundIn source, ¬ U k) (globals : Frame) (s : Store) :
    f.SameOn U ((Script.runText source).run.run (⟨f', globals⟩, s)).2.1.locals := by
  obtain ⟨names, names', rfl, rfl, hsame⟩ := h
  obtain ⟨names₁, hscope, hspared⟩ := spares_runText hsource names' globals s
  exact ⟨names, names₁, rfl, congrArg Scope.locals hscope,
    fun k hk => (hspared k hk).trans (hsame k hk)⟩

end Script

namespace Page

variable {F : Focus} {p : Page}

/-- No scope is open, and all that names in focus refer to is in the first places of the store,
directly or through what is stored there. -/
structure RestsOn (F : Focus) (p : Page) (n : Nat) : Prop where
  outer : p.outer = []
  size : n ≤ p.store.cells.size
  globals : p.globals.RestsOn F.names n
  locals : p.locals.RestsOn F.names n
  cells : ∀ place < n, ∀ o ∈ p.store.get place, ∀ place' ∈ o.places, place' < n

/-- The second page has the same names and mixins in focus, and the same in the first places of the
store. -/
structure SameOn (F : Focus) (p : Page) (n : Nat) (p' : Page) : Prop where
  globals : p.globals.SameOn F.names p'.globals
  locals : p.locals.SameOn F.names p'.locals
  mixins : ∀ name, F.calls name → p'.mixins.get? name = p.mixins.get? name
  size : n ≤ p'.store.cells.size
  cells : ∀ place < n, p'.store.get place = p.store.get place

theorem RestsOn.sameOn {n : Nat} (h : p.RestsOn F n) : p.SameOn F n p :=
  ⟨h.globals.sameOn, h.locals.sameOn, fun _ _ => rfl, h.size, fun _ _ => rfl⟩

/-- The page with the first places of its store only. -/
def cut (p : Page) (n : Nat) : Page := { p with store := p.store.cut n }

/-- A page that is the same in focus is that of the first places only, with all further places
moved beyond what else is in its store. -/
theorem SameOn.moved {p' : Page} {n : Nat} (h : p.SameOn F n p') (hp : p.RestsOn F n)
    (hF : ¬ F.holds) :
    Moved ⟨n, p'.store.cells.size - n⟩ F (p.cut n) p' := by
  have hsize := h.size
  have hown : ∃ names, p.globals = .own names := hp.globals.imp fun _ h => h.1
  refine ⟨⟨?_, ?_, fun place => ?_⟩, hp.globals.matches h.globals, hp.locals.matches h.locals,
    h.mixins, .inr hown, fun h => absurd h hF⟩
  · show p'.store.cells.size = (p.store.cut n).cells.size + (p'.store.cells.size - n)
    rw [Script.Store.size_cut hp.size]
    omega
  · exact (Script.Store.size_cut hp.size).ge
  · show p'.store.get _ = ((p.store.cut n).get place).map _
    rw [Script.Store.get_cut, Motion.place]
    dsimp only
    split
    · next hlt =>
      rw [h.cells place hlt]
      refine ((List.map_congr_left fun o ho => ?_).trans (List.map_id _)).symm
      exact Motion.move_eq_self _ o fun place' h' => if_pos (hp.cells place hlt o ho place' h')
    · rw [Script.Store.get_of_le (by omega)]
      rfl

/-! ## What mixins are made of -/

theorem MixinsHold.set {U : String → Prop} {P : Node → Prop} (h : p.MixinsHold U P) {mixin : Mixin}
    (hmixin : ∀ n ∈ mixin.content.walk, P n) (name : String) :
    MixinsHold U P { p with mixins := p.mixins.set name mixin } := by
  intro name' mixin' hname hget
  rw [Table.get?_set] at hget
  split at hget
  · cases hget
    exact hmixin
  · exact h name' mixin' hname hget

end Page

theorem Node.mem_walk_trans {l m n : Node} (hl : l ∈ m.walk) (hm : m ∈ n.walk) : l ∈ n.walk := by
  induction n using Node.induction with
  | h n ih =>
    rw [walk_eq] at hm ⊢
    rcases List.mem_cons.mp hm with rfl | hm
    · rwa [← walk_eq]
    · obtain ⟨c, hc, hmc⟩ := List.mem_flatMap.mp hm
      exact List.mem_cons_of_mem _ (List.mem_flatMap.mpr ⟨c, hc, ih c hc hmc⟩)

theorem Node.content_mem_walk {name args : String} {content : Node} {call : Bool} :
    content ∈ (Node.mixin name args (some content) call).walk := by
  rw [walk_eq, children]
  exact .tail _ (List.mem_flatMap.mpr ⟨content, .head _, .head _⟩)

namespace Page

variable {F : Focus}

theorem isKept_mixinsHold (U : String → Prop) (P : Node → Prop) : IsKept (MixinsHold U P) where
  store _ h := h
  enter _ h := h
  back hq _ := hq

/-- A template that is made of some nodes defines mixins of such nodes. -/
theorem allows_mixinsHold {U : String → Prop} {P : Node → Prop} {root : Node}
    (h : ∀ n ∈ root.walk, P n) : ∀ n ∈ root.walk, Allows (MixinsHold U P) n := by
  intro n hn
  refine ⟨fun p hp _ => hp, ?_⟩
  unfold Changes
  split
  · exact fun p o hp => hp
  · refine fun p hp => hp.set (fun c hc => h c ?_) _
    exact Node.mem_walk_trans (Node.mem_walk_trans hc Node.content_mem_walk) hn
  · intro p hp name mixin hname hget
    rw [mixins_afterRun] at hget
    exact hp name mixin hname hget
  · trivial

theorem allowsMixins_within (F : Focus) : AllowsMixins F (MixinsHold F.calls (Node.Within F)) := by
  intro p hp name mixin hname hmixin n hn
  have hwithin := hp name mixin hname hmixin
  exact ⟨allows_mixinsHold hwithin n hn, hwithin n hn⟩

end Page

/-! ## Templates that leave something alone -/

namespace Node

/-- The names that the construct of the node binds outside of the scopes that it opens. -/
def binds : Node → List String
  | .assignment name _ => [name]
  | .code source false _ none _ => Script.boundIn (stripStart source)
  | _ => []

/-- The mixins that the construct of the node defines. -/
def defines : Node → List String
  | .mixin name _ (some _) _ => [name]
  | _ => []

/-- The construct of the node defines nothing that is in focus, and its scripts cannot get hold of a
scope. -/
structure Avoids (F : Focus) (n : Node) : Prop where
  binds : ∀ k ∈ n.binds, ¬ F.names k
  defines : ∀ name ∈ n.defines, ¬ F.calls name
  holds : n.mayHold = false

instance decidableAvoids (F : Focus) [DecidablePred F.names] [DecidablePred F.calls] (n : Node) :
    Decidable (n.Avoids F) :=
  decidable_of_iff ((∀ k ∈ n.binds, ¬ F.names k) ∧ (∀ name ∈ n.defines, ¬ F.calls name) ∧
      n.mayHold = false)
    ⟨fun h => ⟨h.1, h.2.1, h.2.2⟩, fun h => ⟨h.binds, h.defines, h.holds⟩⟩

end Node

namespace Page

/-- The local names outside of all scopes. -/
def outermost (p : Page) : Script.Frame := p.outer.getLast?.getD p.locals

/-- The page has the names and mixins in focus of another one, and none of its mixins defines
anything that is in focus. -/
structure Keeps (F : Focus) (p₀ p : Page) : Prop where
  globals : p₀.globals.SameOn F.names p.globals
  outermost : p₀.outermost.SameOn F.names p.outermost
  mixins : ∀ name, F.calls name → p.mixins.get? name = p₀.mixins.get? name
  hold : p.MixinsHold (fun _ => True) (Node.Avoids F)

variable {F : Focus} {p₀ : Page}

theorem Keeps.held {p : Page} (h : Keeps F p₀ p) : p.held = false := by
  obtain ⟨-, names, -, hown, -⟩ := h.globals
  exact held_eq_false_iff.mpr ⟨names, hown⟩

/-- Without hold of a scope, scripts run on the page as it is. -/
theorem Keeps.ready {p : Page} (h : Keeps F p₀ p) {source : String}
    (hsource : Script.mayHold source = false) : p.ready source = p := by
  refine ready_of_not ?_
  rw [hsource, h.held]
  decide

theorem Keeps.sameOn {p : Page} (h : Keeps F p₀ p) (hp : p₀.RestsOn F 0) :
    p₀.SameOn F 0 p.leave := by
  have houtermost : p₀.outermost = p₀.locals := by
    rw [Page.outermost, hp.outer]
    rfl
  exact ⟨h.globals, houtermost ▸ h.outermost, h.mixins, Nat.zero_le _,
    fun place hplace => absurd hplace (Nat.not_lt_zero place)⟩

theorem outermost_enter (p : Page) (names : List (String × Script.Object)) :
    (p.enter names).outermost = p.outermost := by
  rw [Page.outermost, Page.enter, List.getLast?_cons]
  rfl

/-- Inside of a scope, statements leave all names outside of it as they are. -/
theorem sameOn_outermost_afterRun {source : String} {p : Page} (hready : p.ready source = p)
    (h : ∀ k ∈ Script.boundIn source, ¬ F.names k)
    (hp : p₀.outermost.SameOn F.names p.outermost) :
    p₀.outermost.SameOn F.names (p.afterRun source).outermost := by
  have houtermost : (p.afterRun source).outermost =
      p.outer.getLast?.getD (p.afterRun source).locals := by
    rw [Page.outermost, outer_afterRun]
  have hbefore : p₀.outermost.SameOn F.names (p.outer.getLast?.getD p.locals) := hp
  rw [houtermost]
  cases hlast : p.outer.getLast? with
  | some f =>
    rw [hlast] at hbefore
    exact hbefore
  | none =>
    rw [hlast] at hbefore
    rw [Option.getD_none, Page.afterRun, hready]
    exact hbefore.runText h p.globals p.store

theorem isKept_keeps (F : Focus) (p₀ : Page) : IsKept (Keeps F p₀) where
  store _ h := ⟨h.globals, h.outermost, h.mixins, h.hold⟩
  enter {p} names h := ⟨h.globals, outermost_enter p names ▸ h.outermost, h.mixins, h.hold⟩
  back hq hp := ⟨hq.globals, hp.outermost, hq.mixins, hq.hold⟩

/-- A template that defines nothing in focus leaves alone what is in focus. -/
theorem allows_keeps {root : Node} (h : ∀ n ∈ root.walk, n.Avoids F) :
    ∀ n ∈ root.walk, Allows (Keeps F p₀) n := by
  intro n hn
  have hhold := (allows_mixinsHold (U := fun _ => True) h n hn).change
  have havoids := h n hn
  refine ⟨fun p hp hold => ?_, ?_⟩
  · rw [havoids.holds, hp.held] at hold
    exact absurd hold (by decide)
  unfold Changes at hhold ⊢
  split
  · next name _ =>
    exact fun p o hp => { hp with globals := hp.globals.set (havoids.binds name (.head _)) _ o }
  · next name _ _ _ =>
    refine fun p hp => { hp with mixins := fun k hk => ?_, hold := hhold p hp.hold }
    have hne : name ≠ k := fun heq => havoids.defines name (.head _) (heq ▸ hk)
    rw [Table.get?_set_of_ne _ hne, hp.mixins k hk]
  · next source _ _ =>
    intro p hp
    have hsource : Script.mayHold (stripStart source) = false :=
      Bool.eq_false_iff.mpr fun hold =>
        Bool.eq_false_iff.mp havoids.holds (Node.mayHold_of_statements rfl hold)
    have hready := hp.ready hsource
    have hglobals : (p.afterRun (stripStart source)).globals = p.globals := by
      rw [Page.afterRun, hready]
    refine ⟨hglobals ▸ hp.globals, ?_, ?_, hhold p hp.hold⟩
    · exact sameOn_outermost_afterRun hready havoids.binds hp.outermost
    · rw [mixins_afterRun]
      exact hp.mixins
  · trivial

end Page

/-! ## Sessions -/

namespace Session

variable {F : Focus} {root : Node} {s : Session}

/-- A template rendered as a page, and what was written. -/
def rendered (setup : Setup) (root : Node) : Emit String := do
  Emit.template setup (.page setup Forms.callLimit) root
  ((← get).result : Except Fault String)

theorem start_withPage (s : Session) (page : Page) (o : Options) :
    (({ s with page } : Session).start .page o).1 =
      { (s.start .page o).1 with emitter := { (s.start .page o).1.emitter with page } } := by
  obtain ⟨pretty, doctype⟩ := o
  cases doctype with
  | none => rfl
  | some name => rfl

theorem page_start (s : Session) (o : Options) : (s.start .page o).1.emitter.page = s.page := by
  obtain ⟨pretty, doctype⟩ := o
  cases doctype with
  | none => rfl
  | some name => rfl

theorem write_page (s : Session) (o : Options) (root : Node) : s.write .page o root =
    let w := (s.start .page o).1
    (((rendered w.setup root).run.run w.emitter).1,
      { (s.start .page o).2 with
        page := ((rendered w.setup root).run.run w.emitter).2.page.leave }) := by
  rfl

theorem write_page_fst (s : Session) (page : Page) (o : Options) (root : Node) :
    (({ s with page } : Session).write .page o root).1 =
      ((rendered (s.start .page o).1.setup root).run.run
        { (s.start .page o).1.emitter with page }).1 := by
  rw [write_page, start_withPage]

theorem agree_rendered {m : Motion} {K : Page → Prop} (hK : Page.IsKept K)
    (hmixins : Page.AllowsMixins F K) (setup : Setup)
    (hroot : ∀ n ∈ root.walk, Page.Allows K n ∧ n.Within F) :
    Emit.Agree (Emitter.Moved m F K) (rendered setup root) (rendered setup root) := by
  refine (Forms.agree_pageTemplate hK setup hmixins hroot _).bind fun _ => ?_
  rintro e e' ⟨page, rfl, hpage, hkept⟩
  exact Emit.agree_lift e.result e { e with page } ⟨page, rfl, hpage, hkept⟩

/-- Pages that are the same in focus, but for places, are rendered alike. -/
theorem rendered_eq_of_moved {m : Motion} {p p' : Page} (h : p.Moved m F p')
    (hp : p.MixinsHold F.calls (Node.Within F)) (hroot : ∀ n ∈ root.walk, n.Within F)
    (setup : Setup) (e : Emitter) :
    ((rendered setup root).run.run { e with page := p }).1 =
      ((rendered setup root).run.run { e with page := p' }).1 := by
  have hagree := agree_rendered (m := m) (Page.isKept_mixinsHold F.calls (Node.Within F))
    (Page.allowsMixins_within F) setup fun n hn => ⟨Page.allows_mixinsHold hroot n hn, hroot n hn⟩
  exact (hagree { e with page := p } { e with page := p' } ⟨p', rfl, h, hp⟩).1

/-- **Pages that are the same in focus** are rendered alike, whatever else they have defined. Both
are compared with the page that has nothing else in its store. -/
theorem process_eq_of_sameOn {page : Page} {n : Nat} (hF : ¬ F.holds) (hp : s.page.RestsOn F n)
    (hmixins : s.page.MixinsHold F.calls (Node.Within F)) (h : s.page.SameOn F n page) (o : Options)
    {source : Source} {file : Option String}
    (hsource : ∀ root, parse source file = .ok root → ∀ n ∈ root.walk, n.Within F) :
    (({ s with page } : Session).process .page o source file).1 =
      (s.process .page o source file).1 := by
  unfold process
  rcases hparse : parse source file with e | root
  · rfl
  · have hroot := hsource root hparse
    have hcut : (s.page.cut n).MixinsHold F.calls (Node.Within F) := hmixins
    have hwrite : (({ s with page } : Session).write .page o root).1 = (s.write .page o root).1 :=
      calc (({ s with page } : Session).write .page o root).1
        _ = (({ s with page := s.page.cut n } : Session).write .page o root).1 := by
          rw [write_page_fst, write_page_fst, rendered_eq_of_moved (h.moved hp hF) hcut hroot]
        _ = (({ s with page := s.page } : Session).write .page o root).1 := by
          rw [write_page_fst, write_page_fst,
            rendered_eq_of_moved (hp.sameOn.moved hp hF) hcut hroot]
    exact congrArg (Except.map strip) hwrite

theorem extend_page_none (s : Session) : s.extend .page {} = s := by
  simp [extend, registerAutoclose]

theorem process_page_snd {o : Options} (ho : s.extend .page o = s) (source : Source)
    (file : Option String) : (s.process .page o source file).2 =
      { s with page := (s.process .page o source file).2.page } := by
  unfold process
  rcases parse source file with e | root
  · rfl
  · show (s.write .page o root).2 = { s with page := (s.write .page o root).2.page }
    rw [write_page]
    show ({ s.extend .page o with page := _ } : Session) = _
    rw [ho]

/-- A template that defines nothing in focus, seen as two runs that are one: what is in focus is
then a property that the walk through the template takes along. -/
theorem keeps_write (hs : s.page.RestsOn F 0)
    (hmixins : s.page.MixinsHold (fun _ => True) (Node.Avoids F))
    (hroot : ∀ n ∈ root.walk, n.Avoids F) (o : Options) :
    ∃ page, s.page.Keeps F page ∧ (s.write .page o root).2.page = page.leave := by
  have hallows : Page.AllowsMixins .all (s.page.Keeps F) := by
    intro p hp name mixin _ hmixin n hn
    exact ⟨Page.allows_keeps (hp.hold name mixin trivial hmixin) n hn, n.within_all⟩
  have hagree := agree_rendered (m := .still) (Page.isKept_keeps F s.page) hallows
    (s.start .page o).1.setup fun n hn => ⟨Page.allows_keeps hroot n hn, n.within_all⟩
  have hstart : s.page.Keeps F (s.start .page o).1.emitter.page := by
    rw [page_start]
    refine ⟨hs.globals.sameOn, ?_, fun _ _ => rfl, hmixins⟩
    rw [Page.outermost, hs.outer]
    exact hs.locals.sameOn
  exact ⟨_, hagree.kept hstart, by rw [write_page]⟩

/-- **A page leaves alone** what neither its template nor the mixins define. -/
theorem sameOn_process (hs : s.page.RestsOn F 0)
    (hmixins : s.page.MixinsHold (fun _ => True) (Node.Avoids F)) (o : Options) {source : Source}
    {file : Option String}
    (hsource : ∀ root, parse source file = .ok root → ∀ n ∈ root.walk, n.Avoids F) :
    s.page.SameOn F 0 (s.process .page o source file).2.page := by
  unfold process
  rcases hparse : parse source file with e | root
  · exact hs.sameOn
  · obtain ⟨page, hkept, hwrite⟩ := keeps_write hs hmixins (hsource root hparse) o
    show s.page.SameOn F 0 (s.write .page o root).2.page
    rw [hwrite]
    exact hkept.sameOn hs

end Session

end Jade
