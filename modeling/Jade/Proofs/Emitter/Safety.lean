import Jade.Proofs.Emitter.Depth
import Jade.Proofs.Emitter.Output

/-!
# Writing that cannot go wrong

Pieces of output that are texts can be joined. So if an action writes only texts, then what it has
written can be given back, unless the action itself fails.

## Main results

* `Jade.Emit.Moves.outcome` : what comes of writing
-/

namespace Jade

theorem exists_of_mapM_eq_error {α β : Type} {f : α → Except Fault β} {as : List α} {e : Fault}
    (h : as.mapM f = .error e) : ∃ a ∈ as, f a = .error e := by
  induction as with
  | nil => exact absurd h (by simp [pure, Except.pure])
  | cons a as ih =>
    rw [List.mapM_cons] at h
    rcases ha : f a with e' | b
    · rw [ha] at h
      obtain rfl : e' = e := Except.error.inj h
      exact ⟨a, List.mem_cons_self .., ha⟩
    · rw [ha] at h
      rcases has : as.mapM f with e' | bs
      · rw [has] at h
        obtain rfl : e' = e := Except.error.inj h
        obtain ⟨c, hc, hce⟩ := ih has
        exact ⟨c, List.mem_cons_of_mem _ hc, hce⟩
      · rw [has] at h
        exact absurd h (by simp [bind, Except.bind, pure, Except.pure])

namespace Emitter

/-- All pieces of output are texts. -/
def IsText (e : Emitter) : Prop := ∀ p ∈ e.pieces, ∃ s, p = .text s

variable {e : Emitter}

theorem IsText.push (h : e.IsText) (s : String) : (e.push (.text s)).IsText :=
  List.forall_mem_cons.mpr ⟨⟨s, rfl⟩, h⟩

theorem IsText.put (h : e.IsText) (s : String) : (e.put s).IsText := by
  unfold Emitter.put Buffer.put
  split
  · exact List.forall_mem_cons.mpr ⟨⟨_, rfl⟩, fun p hp => h p (List.mem_of_mem_tail hp)⟩
  · exact List.forall_mem_cons.mpr ⟨⟨s, rfl⟩, h⟩

theorem IsText.result (h : e.IsText) : ∃ s, e.result = .ok s := by
  rcases hmap : e.pieces.reverse.mapM pieceText with f | texts
  · obtain ⟨p, hp, hfault⟩ := exists_of_mapM_eq_error hmap
    obtain ⟨s, rfl⟩ := h p (List.mem_reverse.mp hp)
    exact absurd hfault (by simp [pieceText])
  · refine ⟨String.join texts, ?_⟩
    rw [Emitter.result, hmap]
    rfl

/-- All pieces of output are texts if they were before. -/
def StaysText (e e' : Emitter) : Prop := e.IsText → e'.IsText

instance isWalk_staysText : IsWalk StaysText where
  refl _ := id
  trans h h' he := h' (h he)
  put _ s h := h.put s
  push _ s h := h.push s
  aside _ _ _ _ _ _ := id
  setDoctype _ _ _ := id

end Emitter

namespace Emit

variable {fault : Fault → Prop}

theorem staysText_deeper {act : Emit Unit} (h : Moves Emitter.StaysText act fault) :
    Moves Emitter.StaysText (deeper act) fault :=
  h.deeper fun _ _ hact => hact

/-- **What comes of writing** only texts: a text, or a fault that is allowed. -/
theorem Moves.outcome {act : Emit Unit} (h : Moves Emitter.StaysText act fault) {e : Emitter}
    (he : e.IsText) : (∃ out, ((written act).run.run e).1 = .ok out) ∨
      ∃ f, fault f ∧ ((written act).run.run e).1 = .error f := by
  rw [run_written]
  rcases hact : act.run.run e with ⟨f | a, e'⟩
  · exact .inr ⟨f, h.error e f e' hact, rfl⟩
  · exact .inl (h.ok e a e' hact he).result

end Emit

end Jade
