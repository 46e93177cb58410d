import Jade.Proofs.Source.Indentation
import Jade.Proofs.Source.Upcoming

/-!
# Looking ahead is only looking

Looking ahead reads tokens from the characters into the stash, and where several levels of
indentation end at once it puts more of them there than were asked for. None of this can be told
from the tokens that are taken later: the token that is shown is the one that taking tokens would
come to, and all that is taken from then on, up to the end of the source or a fault, is what would
have been taken without looking.

The tokens to come are compared place by place (`Source.Agree`). Here they are also put together
into the one sequence that taking tokens gives, which is finite because every token but the last one
is paid for.

## Main results

* `Jade.Source.Agree.remaining_eq` : sources with the same tokens to come have the same sequence
* `Jade.Source.lookahead_observes` : looking ahead changes nothing, in every state of a source
-/

namespace Jade

theorem eq_ok_of_toOption {α : Type} {x : Except Fault α} {a : α} (h : x.toOption = some a) :
    x = .ok a := by
  cases x with
  | error e => exact absurd h (by simp [Except.toOption])
  | ok b => rw [Option.some.inj h]

namespace Source

variable {s s' u : Source} {t : Token}

theorem left_lt_of_advance (h : s.advance = (.ok t, s')) (ht : t.body ≠ .eos) :
    s'.left < s.left := by
  have hpaid := left_of_advance h
  rw [Token.weight_of_ne ht] at hpaid
  omega

/-- What taking tokens one after the other gives, up to the end of the source or a fault. -/
def remaining (s : Source) : List (Except Fault Token) :=
  match hs : s.advance with
  | (.error e, _) => [.error e]
  | (.ok t, s') =>
    if ht : t.body = .eos then [.ok t]
    else
      have : s'.left < s.left := left_lt_of_advance hs ht
      .ok t :: remaining s'
termination_by s.left

theorem remaining_of_error {e : Fault} (h : s.advance = (.error e, u)) :
    s.remaining = [.error e] := by
  rw [remaining]
  split
  · next h' => rw [Except.error.inj (Prod.mk.inj (h.symm.trans h')).1]
  · next h' => exact nomatch h.symm.trans h'

theorem remaining_of_ok (h : s.advance = (.ok t, u)) :
    s.remaining = if t.body = .eos then [.ok t] else .ok t :: u.remaining := by
  rw [remaining]
  split
  · next h' => exact nomatch h.symm.trans h'
  · next t' u' h' =>
    obtain ⟨ht, rfl⟩ := Prod.mk.inj (h.symm.trans h')
    cases ht
    by_cases hend : t.body = .eos
    · rw [dif_pos hend, if_pos hend]
    · rw [dif_neg hend, if_neg hend]

theorem Agree.advance_eq (h : Agree s s') : s'.advance.1 = s.advance.1 :=
  (h 0).symm

/-- Taking a token leaves the same tokens to come on both sides. -/
theorem Agree.of_advance (h : Agree s s') (hs : s.advance = (.ok t, u)) :
    ∃ u', s'.advance = (.ok t, u') ∧ Agree u u' := by
  have hfirst := h.advance_eq
  rcases hs' : s'.advance with ⟨e | t', u'⟩
  · rw [hs, hs'] at hfirst
    cases hfirst
  · rw [hs, hs'] at hfirst
    cases hfirst
    refine ⟨u', rfl, fun n => ?_⟩
    rw [← upcoming_succ_of_advance hs, ← upcoming_succ_of_advance hs']
    exact h (n + 1)

/-- **The same tokens to come** make up the same sequence. -/
theorem Agree.remaining_eq (h : Agree s s') : s.remaining = s'.remaining := by
  -- every token but the end leaves less to read
  induction hn : s.left using Nat.strongRecOn generalizing s s' with
  | ind n ih =>
    rcases hs : s.advance with ⟨e | t, u⟩
    · have hfirst := h.advance_eq
      rcases hs' : s'.advance with ⟨e' | t', u'⟩
      · rw [hs, hs'] at hfirst
        rw [remaining_of_error hs, remaining_of_error hs', Except.error.inj hfirst]
      · rw [hs, hs'] at hfirst
        cases hfirst
    · obtain ⟨u', hs', hrest⟩ := h.of_advance hs
      rw [remaining_of_ok hs, remaining_of_ok hs']
      by_cases hend : t.body = .eos
      · rw [if_pos hend, if_pos hend]
      · have hless : u.left < n := hn ▸ left_lt_of_advance hs hend
        rw [if_neg hend, if_neg hend, ih u.left hless hrest rfl]

/-- **Looking ahead is only looking.** However a source has come to its state, if the token some
places ahead is shown, then it is the token that taking as many tokens would come to, and what is
taken afterwards, up to the end or a fault, is the same as without looking. -/
theorem lookahead_observes (src : String) (colons : Bool) (moves : List Move) (n : Nat)
    (h : (perform moves (ofText src colons)).2.lookahead (n + 1) = (.ok t, s')) :
    upcoming n (perform moves (ofText src colons)).2 = .ok t ∧
      s'.remaining = (perform moves (ofText src colons)).2.remaining := by
  obtain ⟨hat, -, hagree⟩ := lookahead_spec h
  refine ⟨?_, hagree.remaining_eq⟩
  rw [← hagree n]
  exact upcoming_of_stash hat

/-- Where two levels end at once, one token is asked for and two are read. -/
theorem lookahead_observes_dedent :
    let s := (perform (List.replicate 5 .advance) (ofText "a\n  b\n    c\nd")).2
    (s.lookahead 1).2.stash.length = 2 ∧ upcoming 0 s = .ok ⟨.outdent, 4⟩ ∧
      (s.lookahead 1).2.remaining = s.remaining := by
  intro s
  have hlook : s.lookahead (((0 : Nat) : Int) + 1) = (.ok ⟨.outdent, 4⟩, (s.lookahead 1).2) :=
    Prod.ext (eq_ok_of_toOption (by decide +kernel)) rfl
  exact ⟨by decide +kernel, lookahead_observes _ _ _ 0 hlook⟩

end Source

end Jade
