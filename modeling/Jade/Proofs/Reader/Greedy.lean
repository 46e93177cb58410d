import Jade.Proofs.Reader.Outcome

/-!
# Chains are read as far as they go

The tree of a template is greedy: its chains of conditionals end only where a word comes that they
have no place for. So the words of the conditionals that stand side by side are cut into chains by
counting open places.

## Main results

* `Jade.parse_conditionals` : how the conditionals of a template come into chains
-/

namespace Jade

namespace Reader

variable {src : String} {colons : Bool} {file : Option String} {root : Node}

theorem isGreedy_of_parse (h : parse (.ofText src colons) file = .ok root) : root.IsGreedy := by
  obtain ⟨nodes, line, es, ks, -, -, -, -, hgreedy⟩ := whole_of_parse h
  exact hgreedy (Source.level_ofText src colons)

theorem fits_of_parse (h : parse (.ofText src colons) file = .ok root) :
    ∀ m ∈ root.walk, m.fits = true := by
  obtain ⟨nodes, line, es, ks, rfl, -, hd, -⟩ := whole_of_parse h
  have hall : Node.AllFit [.block nodes line false] := .singleton rfl hd.fits
  exact hall _ List.mem_cons_self

end Reader

open Reader

/-- **How conditionals come into chains.** In the tree of a template every conditional is in the
chain of one that stands in a block. The words of the conditionals that stand side by side there are
cut into chains by counting open places, each chain as long as it can be. So these chains are all of
the form `if` or `unless`, then any number of `elif`, then at most one `else`, if and only if the
words can be put together from chains of this form. -/
theorem parse_conditionals (src : String) (colons : Bool) (file : Option String) (root : Node)
    (h : parse (.ofText src colons) file = .ok root) :
    (∀ c ∈ root.walk, c.isConditional = true →
      ∃ b ∈ root.walk, ∃ run ∈ b.runs, ∃ head ∈ run, c ∈ head.chain) ∧
    ∀ b ∈ root.walk, ∀ run ∈ b.runs,
      run.map Node.words = Chain.cut (run.flatMap Node.words) ∧
      ((∀ head ∈ run, Chain.isProper head.words = true) ↔
        ∃ wss : List (List String), (∀ ws ∈ wss, Chain.isProper ws = true) ∧
          run.flatMap Node.words = wss.flatten) := by
  have hgreedy := isGreedy_of_parse h
  have hfits := fits_of_parse h
  constructor
  · intro c hc hcond
    rcases Node.exists_run hfits hc hcond with hmem | hrun
    · -- the tree itself is a block
      obtain ⟨nodes, line, es, ks, rfl, -⟩ := whole_of_parse h
      rw [Node.chain_of_not_isConditional rfl, List.mem_singleton] at hmem
      rw [hmem] at hcond
      exact absurd hcond (by simp [Node.isConditional])
    · exact hrun
  · intro b hb run hrun
    have hblock : b.IsGreedy := hgreedy.of_mem_walk hb
    exact ⟨(hblock.cut hrun).symm, hblock.isProper_iff hrun⟩

/-- The words of all conditionals of a tree, run by run and chain by chain. -/
def Node.chainWords (root : Node) : List (List (List String)) :=
  (root.walk.flatMap Node.runs).map fun run => run.map Node.words

/-- Two chains side by side, and one inside of the first. -/
theorem parse_conditionals_nested :
    ∃ root, parse (.ofText
        "if a\n  unless b\n    p\n  else\n    q\nelif c\n  r\nelse\n  s\nif d\n  t") none =
        .ok root ∧
      root.chainWords = [[["if", "elif", "else"], ["if"]], [["unless", "else"]]] ∧
      (∀ c ∈ root.walk, c.isConditional = true →
        ∃ b ∈ root.walk, ∃ run ∈ b.runs, ∃ head ∈ run, c ∈ head.chain) ∧
      ∀ b ∈ root.walk, ∀ run ∈ b.runs,
        run.map Node.words = Chain.cut (run.flatMap Node.words) ∧
        ((∀ head ∈ run, Chain.isProper head.words = true) ↔
          ∃ wss : List (List String), (∀ ws ∈ wss, Chain.isProper ws = true) ∧
            run.flatMap Node.words = wss.flatten) := by
  obtain ⟨root, hroot, hwords⟩ := exists_ok_of_map (f := Node.chainWords)
    (b := [[["if", "elif", "else"], ["if"]], [["unless", "else"]]])
    (x := parse (.ofText
      "if a\n  unless b\n    p\n  else\n    q\nelif c\n  r\nelse\n  s\nif d\n  t") none)
    (by decide +kernel)
  exact ⟨root, hroot, hwords, parse_conditionals _ _ _ _ hroot⟩

/-- After an `elif` a chain takes two `else`, since the `elif` and the `if` are places of their own;
and an `else` without anything before it is read as the head of a chain. -/
theorem parse_conditionals_not_proper :
    (parse (.ofText "if a\n  p\nelif b\n  q\nelse\n  r\nelse\n  s") none).toOption.map
        Node.chainWords = some [[["if", "elif", "else", "else"]]] ∧
      (parse (.ofText "else\n  p") none).toOption.map Node.chainWords = some [[["else"]]] ∧
      Chain.isProper ["if", "elif", "else", "else"] = false ∧ Chain.isProper ["else"] = false := by
  refine ⟨by decide +kernel, by decide +kernel, by decide, by decide⟩

end Jade
