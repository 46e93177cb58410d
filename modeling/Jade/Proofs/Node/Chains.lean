import Mathlib.Data.List.Chain
import Mathlib.Data.List.SplitBy
import Jade.Proofs.Reader.Shape

/-!
# Chains of conditionals

A conditional stands in a tree together with its alternatives, the alternatives of these, and so on.
This is its chain, and the words of a chain are those that the template has there, one after the
other.

A conditional is a place for an alternative as long as the last word at this place lets one follow.
The reader offers a word to the innermost place first and then goes outwards. An `elif` is a place
of its own and leaves the one that it takes open, so that there is one more of them; an `else`
closes the place that it takes and is none itself. Which words go into one chain therefore depends
only on the number of open places, and `Chain.cut` cuts a sequence of words into chains by counting
them. It is not what one would expect of conditionals. After `if`, `elif` and `else` one place is
still open, and a second `else` goes there.

A tree is greedy if every chain goes on as far as it can: each alternative takes a place that is
open, and a conditional that stands right after a chain begins with a word for which the chain has
no place. Greedy trees are cut as `Chain.cut` says.

## Main results

* `Jade.Chain.cut_flatten` : chains that refuse what comes next are found again by cutting
* `Jade.Node.room?_words` : the open places of a chain that was read
* `Jade.Node.IsGreedy.cut` : the conditionals of a greedy tree are cut by counting
* `Jade.Node.exists_run` : every conditional is in the chain of one that stands in a block
-/

namespace Jade

/-! ## Words and places -/

namespace Chain

open Node (following lastWord mayFollow)

variable {word : String} {n : Nat} {words : List String}

/-- How many places for an alternative a word opens. -/
def places (word : String) : Nat := if (following word).isEmpty then 0 else 1

/-- The number of open places after a word has taken one of them; none if it takes none. -/
def take : Nat → String → Option Nat
  | 0, _ => none
  | n + 1, word =>
    if word = "elif" then some (n + 2) else if word = "else" then some n else none

/-- The number of open places at the end of a chain; none if the words are not a chain. -/
def room? : List String → Option Nat
  | [] => none
  | word :: words => words.foldlM take (places word)

/-- Cut words into chains, after some words of the first one with so many open places. -/
def cutFrom (room : Nat) (first : List String) : List String → List (List String)
  | [] => [first]
  | word :: words =>
    match take room word with
    | some room' => cutFrom room' (first ++ [word]) words
    | none => first :: cutFrom (places word) [word] words

/-- Cut words into chains, each as long as it can be. -/
def cut : List String → List (List String)
  | [] => []
  | word :: words => cutFrom (places word) [word] words

/-- Whether words are a chain as one expects it: `if` or `unless`, then any number of `elif`, then
at most one `else`. -/
def isProper : List String → Bool
  | [] => false
  | word :: words =>
    ["if", "unless"].contains word && [[], ["else"]].contains (words.dropWhile (· == "elif"))

theorem following_cases (h : word ∈ Rules.conditionalWords) :
    following word = ["elif", "else"] ∧ places word = 1 ∨
      following word = [] ∧ places word = 0 := by
  revert word
  decide

theorem take_eq_none_iff : take n word = none ↔ n = 0 ∨ word ≠ "elif" ∧ word ≠ "else" := by
  cases n with
  | zero => simp [take]
  | succ n =>
    rw [take]
    split
    · next h => simp [h]
    · split
      · next h => simp [h]
      · next h h' => simp [h, h']

theorem take_one (h : word = "elif" ∨ word = "else") :
    take 1 word = some (places word + places word) := by
  rcases h with rfl | rfl
  · decide
  · decide

theorem take_add {m : Nat} (h : take n word = some m) (k : Nat) :
    take (n + k) word = some (m + k) := by
  cases n with
  | zero => exact absurd h (by simp [take])
  | succ n =>
    rw [show n + 1 + k = n + k + 1 by omega]
    rw [take] at h ⊢
    split at h
    · next heq =>
      rw [if_pos heq, ← Option.some.inj h]
      congr 1
      omega
    · next hne =>
      rw [if_neg hne]
      split at h
      · next heq => rw [if_pos heq, ← Option.some.inj h]
      · cases h

theorem foldlM_take_add {m : Nat} (h : words.foldlM take n = some m) (k : Nat) :
    words.foldlM take (n + k) = some (m + k) := by
  induction words generalizing n with
  | nil =>
    obtain rfl : n = m := Option.some.inj h
    rfl
  | cons word words ih =>
    rw [List.foldlM_cons] at h ⊢
    obtain ⟨n', hn', h⟩ := Option.bind_eq_some_iff.mp h
    rw [take_add hn' k]
    exact ih h

/-! ## Cutting -/

theorem cutFrom_append {room room' : Nat} (first rest : List String)
    (h : words.foldlM take room = some room') :
    cutFrom room first (words ++ rest) = cutFrom room' (first ++ words) rest := by
  induction words generalizing room first with
  | nil =>
    obtain rfl : room = room' := Option.some.inj h
    rw [List.nil_append, List.append_nil]
  | cons word words ih =>
    rw [List.foldlM_cons] at h
    obtain ⟨n, hn, h⟩ := Option.bind_eq_some_iff.mp h
    rw [List.cons_append, cutFrom, hn]
    exact (ih (first ++ [word]) h).trans (by rw [List.append_assoc]; rfl)

/-- **Cutting finds chains again** that have no place for the word after them. -/
theorem cut_flatten {wss : List (List String)} (hchain : ∀ ws ∈ wss, (room? ws).isSome = true)
    (hnext : wss.IsChain fun ws vs => ∀ w ∈ vs.head?, take ((room? ws).getD 0) w = none) :
    cut wss.flatten = wss := by
  induction wss with
  | nil => rfl
  | cons ws wss ih =>
    obtain ⟨hws, hlater⟩ := List.forall_mem_cons.mp hchain
    obtain ⟨hrefused, hrest⟩ := List.isChain_cons.mp hnext
    have ih := ih hlater hrest
    obtain ⟨k, hk⟩ := Option.isSome_iff_exists.mp hws
    cases ws with
    | nil => exact absurd hk (by simp [room?])
    | cons w ws =>
      rw [List.flatten_cons, List.cons_append, cut, cutFrom_append [w] wss.flatten hk]
      cases wss with
      | nil => rfl
      | cons vs wss =>
        cases vs with
        | nil => exact absurd (hlater [] List.mem_cons_self) (by simp [room?])
        | cons v vs =>
          have hv : take k v = none := by
            have h := hrefused (v :: vs) rfl v rfl
            rwa [hk] at h
          rw [List.flatten_cons, List.cons_append, cut] at ih
          show cutFrom k (w :: ws) (v :: (vs ++ wss.flatten)) = _
          rw [cutFrom, hv]
          exact congrArg _ ih

theorem foldlM_take_elif (h : ∀ w ∈ words, w = "elif") (n : Nat) :
    words.foldlM take (n + 1) = some (n + 1 + words.length) := by
  induction words generalizing n with
  | nil => rfl
  | cons word words ih =>
    obtain ⟨rfl, hrest⟩ := List.forall_mem_cons.mp h
    rw [List.foldlM_cons, show take (n + 1) "elif" = some (n + 1 + 1) from rfl]
    refine (ih hrest (n + 1)).trans (congrArg some ?_)
    rw [List.length_cons]
    omega

theorem room?_of_isProper (h : isProper words = true) : (room? words).isSome = true := by
  cases words with
  | nil => exact absurd h (by simp [isProper])
  | cons word words =>
    rw [isProper, Bool.and_eq_true] at h
    obtain ⟨hfirst, hlast⟩ := h
    have hplaces : places word = 0 + 1 := by
      rcases (by simpa using hfirst : word = "if" ∨ word = "unless") with rfl | rfl
      · rfl
      · rfl
    have helif : ∀ w ∈ words.takeWhile (· == "elif"), w = "elif" := by
      intro w hw
      have hbeq := List.mem_takeWhile_imp hw
      exact eq_of_beq hbeq
    have hall := foldlM_take_elif helif 0
    rw [room?, hplaces, ← List.takeWhile_append_dropWhile (p := (· == "elif")) (l := words),
      List.foldlM_append, hall]
    rcases (by simpa using hlast : words.dropWhile (· == "elif") = [] ∨
      words.dropWhile (· == "elif") = ["else"]) with hnil | helse
    · rw [hnil]
      rfl
    · rw [helse, show 0 + 1 + (words.takeWhile (· == "elif")).length
        = (words.takeWhile (· == "elif")).length + 1 by omega]
      rfl

theorem cut_flatten_of_isProper {wss : List (List String)}
    (h : ∀ ws ∈ wss, isProper ws = true) : cut wss.flatten = wss := by
  refine cut_flatten (fun ws hws => room?_of_isProper (h ws hws)) ?_
  have hfirst : ∀ vs ∈ wss, ∀ w ∈ vs.head?, w ≠ "elif" ∧ w ≠ "else" := by
    intro vs hvs w hw
    cases vs with
    | nil => cases hw
    | cons v vs =>
      obtain rfl : v = w := Option.some.inj hw
      have hproper := h _ hvs
      rw [isProper, Bool.and_eq_true] at hproper
      rcases (by simpa using hproper.1 : v = "if" ∨ v = "unless") with rfl | rfl
      · decide
      · decide
  refine (List.pairwise_of_forall_mem_list fun ws _ vs hvs w hw => ?_).isChain
  exact take_eq_none_iff.mpr (.inr (hfirst vs hvs w hw))

end Chain

/-! ## Chains in a tree -/

namespace Node

open Chain (places take room? cut isProper)

/-- The word of a conditional. -/
def word? : Node → Option String
  | conditional word _ _ _ _ => some word
  | _ => none

mutual

/-- A conditional, its alternatives, the alternatives of these and so on; any other node alone. -/
def chain : Node → List Node
  | conditional word sentence content next line =>
    conditional word sentence content next line :: chainAll next
  | n => [n]

/-- The chains of nodes, one after the other. -/
def chainAll : List Node → List Node
  | [] => []
  | n :: ns => chain n ++ chainAll ns

end

variable {n c : Node} {run next : List Node} {word word' sentence : String} {content : Option Node}
  {line : Option Nat}

/-- The words of a chain. -/
def words (n : Node) : List String := n.chain.filterMap word?

/-- The number of open places at the end of a chain. -/
def room (n : Node) : Nat := (room? n.words).getD 0

/-- The conditionals that stand side by side in a block, as long as there are any. -/
def runs (n : Node) : List (List Node) :=
  if n.isBlock then
    (n.children.splitBy fun a b => a.isConditional == b.isConditional).filter
      fun run => run.all isConditional
  else []

theorem chainAll_eq (ns : List Node) : chainAll ns = ns.flatMap chain := by
  induction ns with
  | nil => rfl
  | cons n ns ih => rw [chainAll, ih, List.flatMap_cons]

theorem mem_chain_self (n : Node) : n ∈ n.chain := by
  cases n <;> simp [chain]

theorem chain_of_not_isConditional (h : n.isConditional = false) : n.chain = [n] := by
  cases n with
  | conditional => exact absurd h (by simp [isConditional])
  | _ => rfl

theorem words_conditional (word sentence : String) (content : Option Node) (next : List Node)
    (line : Option Nat) :
    (conditional word sentence content next line).words = word :: next.flatMap words := by
  rw [words, chain, chainAll_eq]
  show word :: (next.flatMap chain).filterMap word? = _
  rw [List.filterMap_flatMap]
  rfl

theorem room_of_not_isConditional (h : n.isConditional = false) : n.room = 0 := by
  rw [room, words, chain_of_not_isConditional h]
  cases n with
  | conditional => exact absurd h (by simp [isConditional])
  | _ => rfl

theorem isConditional_of_mem_runs (h : run ∈ n.runs) : ∀ head ∈ run, head.isConditional = true := by
  rw [runs] at h
  split at h
  · exact List.all_eq_true.mp (List.mem_filter.mp h).2
  · cases h

theorem infix_of_mem_runs (h : run ∈ n.runs) : n.isBlock = true ∧ run <:+: n.children := by
  rw [runs] at h
  split at h
  · next hblock =>
    refine ⟨hblock, ?_⟩
    have hflat := List.infix_of_mem_flatten (List.mem_filter.mp h).1
    rwa [List.flatten_splitBy] at hflat
  · cases h

theorem exists_mem_runs (hn : n.isBlock = true) (hc : c ∈ n.children)
    (hcond : c.isConditional = true) : ∃ run ∈ n.runs, c ∈ run := by
  rw [← List.flatten_splitBy (fun a b => a.isConditional == b.isConditional) n.children] at hc
  obtain ⟨run, hrun, hmem⟩ := List.mem_flatten.mp hc
  refine ⟨run, ?_, hmem⟩
  rw [runs, if_pos hn, List.mem_filter]
  -- side by side they are conditionals or they are none
  have halike : (run.map isConditional).IsChain (· = ·) :=
    List.isChain_map_of_isChain _ (fun a b hab => eq_of_beq hab) (List.isChain_of_mem_splitBy hrun)
  obtain ⟨m, run, rfl⟩ := List.exists_cons_of_ne_nil (List.ne_nil_of_mem hmem)
  rw [List.map_cons] at halike
  have hall : ∀ k ∈ m :: run, k.isConditional = m.isConditional := by
    refine List.forall_mem_cons.mpr ⟨rfl, fun k hk => ?_⟩
    have hkind := List.mem_map_of_mem (f := isConditional) hk
    rw [List.isChain_cons_eq_iff_eq_replicate.mp halike] at hkind
    exact List.eq_of_mem_replicate hkind
  refine ⟨hrun, List.all_eq_true.mpr fun k hk => ?_⟩
  rw [hall k hk, ← hall c hmem, hcond]

/-! ## Greedy trees -/

/-- The alternatives of a conditional with the word `word`, as they come one by one: each has a word
that may follow at this place, and that the alternative before it has no place for. -/
inductive Grows (word : String) : List Node → Prop
  | nil : Grows word []
  | concat {next : List Node} {word' sentence : String} {content : Option Node}
    {next' : List Node} {line : Option Nat} (h : Grows word next)
    (hlast : ∀ n ∈ next.getLast?, take n.room word' = none)
    (hword : mayFollow word next word' = true) :
    Grows word (next ++ [conditional word' sentence content next' line])

/-- No conditional begins with a word that the chain before it has a place for. -/
def Apart (ns : List Node) : Prop := ns.IsChain fun a b => ∀ w ∈ b.word?, take a.room w = none

/-- A conditional has its alternatives as they come, and the nodes of a block are apart. -/
def IsGreedyAt : Node → Prop
  | block nodes _ _ | codeBlock _ _ nodes _ => Apart nodes
  | conditional word _ _ next _ => word ∈ Rules.conditionalWords ∧ Grows word next
  | _ => True

/-- No chain of a tree ends too early. -/
def IsGreedy (n : Node) : Prop := ∀ m ∈ n.walk, m.IsGreedyAt

theorem isGreedy_iff : n.IsGreedy ↔ n.IsGreedyAt ∧ ∀ c ∈ n.children, c.IsGreedy := by
  rw [IsGreedy, walk_eq, List.forall_mem_cons, List.forall_mem_flatMap]
  rfl

theorem IsGreedy.of_mem_walk {m : Node} (h : n.IsGreedy) (hm : m ∈ n.walk) : m.IsGreedy := by
  induction n using Node.induction with
  | h n ih =>
    rw [walk_eq] at hm
    rcases List.mem_cons.mp hm with rfl | hm
    · exact h
    · obtain ⟨c, hc, hm⟩ := List.mem_flatMap.mp hm
      exact ih c hc ((isGreedy_iff.mp h).2 c hc) hm

theorem lastWord_concat {next' : List Node} (h : word' = "elif" ∨ word' = "else") :
    lastWord word (next ++ [conditional word' sentence content next' line]) = word' := by
  rw [lastWord, List.getLast?_concat]
  rcases h with rfl | rfl
  · rfl
  · rfl

theorem mayFollow_iff (h : lastWord word next ∈ Rules.conditionalWords) :
    mayFollow word next word' = true ↔
      places (lastWord word next) = 1 ∧ (word' = "elif" ∨ word' = "else") := by
  rw [mayFollow]
  rcases Chain.following_cases h with ⟨hf, hp⟩ | ⟨hf, hp⟩
  · simp [hf, hp]
  · simp [hf, hp]

theorem Grows.lastWord_mem (h : Grows word next) (hword : word ∈ Rules.conditionalWords) :
    lastWord word next ∈ Rules.conditionalWords := by
  induction h with
  | nil => exact hword
  | concat _ _ hfollows ih =>
    have helse := ((mayFollow_iff ih).mp hfollows).2
    rw [lastWord_concat helse]
    rcases helse with rfl | rfl
    · decide
    · decide

/-- The open places inside of the last alternative. -/
def lastRoom (next : List Node) : Nat := (next.getLast?.map room).getD 0

/-- A word that has no place in the last alternative, although an alternative may begin with it. -/
theorem lastRoom_eq_zero (hword : word = "elif" ∨ word = "else")
    (h : ∀ n ∈ next.getLast?, take n.room word = none) : lastRoom next = 0 := by
  rw [lastRoom]
  cases hlast : next.getLast? with
  | none => rfl
  | some n =>
    rcases Chain.take_eq_none_iff.mp (h n hlast) with hzero | ⟨hne, hne'⟩
    · exact hzero
    · exact absurd hword (by simp [hne, hne'])

/-- **The open places** after the alternatives of a conditional: its own, if it is still open, and
those inside of the last alternative. All others are closed. -/
theorem Grows.foldlM_take (h : Grows word next) (hword : word ∈ Rules.conditionalWords)
    (hrooms : ∀ m ∈ next, room? m.words = some m.room) :
    (next.flatMap words).foldlM take (places word) =
      some (places (lastWord word next) + lastRoom next) := by
  induction h with
  | nil => rfl
  | @concat next word' sentence content next' line h hlast hfollows ih =>
    obtain ⟨hbefore, hnew⟩ := List.forall_mem_append.mp hrooms
    have hnew := hnew _ List.mem_cons_self
    obtain ⟨hopen, helse⟩ := (mayFollow_iff (h.lastWord_mem hword)).mp hfollows
    rw [words_conditional, room?] at hnew
    -- before the new alternative only the place of the conditional itself is open
    rw [List.flatMap_append, List.flatMap_singleton, words_conditional, List.foldlM_append,
      ih hbefore, hopen, lastRoom_eq_zero helse hlast, lastWord_concat helse, lastRoom,
      List.getLast?_concat]
    show (word' :: next'.flatMap words).foldlM take 1 = _
    rw [List.foldlM_cons, Chain.take_one helse]
    have hshift := Chain.foldlM_take_add hnew (places word')
    rw [Nat.add_comm] at hshift ⊢
    exact hshift.trans (congrArg some (Nat.add_comm _ _))

theorem Grows.isConditional (h : Grows word next) : ∀ m ∈ next, m.isConditional = true := by
  induction h with
  | nil => exact nofun
  | concat _ _ _ ih => exact List.forall_mem_append.mpr ⟨ih, List.forall_mem_singleton.mpr rfl⟩

/-- **The words of a chain** that goes on as far as it can are a chain. -/
theorem room?_words (h : n.IsGreedy) (hn : n.isConditional = true) :
    room? n.words = some n.room := by
  induction n using Node.induction with
  | h n ih =>
    cases n with
    | conditional word sentence content next line =>
      obtain ⟨⟨hword, hgrows⟩, hchildren⟩ := isGreedy_iff.mp h
      have hrooms : ∀ m ∈ next, room? m.words = some m.room := by
        intro m hm
        have hmem : m ∈ (conditional word sentence content next line).children :=
          List.mem_append_right _ hm
        exact ih m hmem (hchildren m hmem) (hgrows.isConditional m hm)
      have hsome := hgrows.foldlM_take hword hrooms
      rw [room, words_conditional, room?, hsome]
      rfl
    | _ => exact absurd hn (by simp [Node.isConditional])

theorem room_conditional (h : (conditional word sentence content next line).IsGreedy) :
    (conditional word sentence content next line).room =
      places (lastWord word next) + lastRoom next := by
  obtain ⟨⟨hword, hgrows⟩, hchildren⟩ := isGreedy_iff.mp h
  have hrooms : ∀ m ∈ next, room? m.words = some m.room := by
    intro m hm
    exact room?_words (hchildren m (List.mem_append_right _ hm)) (hgrows.isConditional m hm)
  rw [room, words_conditional, room?, hgrows.foldlM_take hword hrooms]
  rfl

/-- A word that may not follow and that the last alternative has no place for has none at all. -/
theorem take_room_conditional (h : (conditional word sentence content next line).IsGreedy)
    (hfollows : mayFollow word next word' = false)
    (hlast : ∀ n ∈ next.getLast?, take n.room word' = none) :
    take (conditional word sentence content next line).room word' = none := by
  obtain ⟨⟨hword, hgrows⟩, -⟩ := isGreedy_iff.mp h
  rw [room_conditional h]
  by_cases helse : word' = "elif" ∨ word' = "else"
  · have hmem := hgrows.lastWord_mem hword
    have hclosed : places (lastWord word next) = 0 := by
      rcases Chain.following_cases hmem with ⟨-, hopen⟩ | ⟨-, hclosed⟩
      · exact absurd ((mayFollow_iff hmem).mpr ⟨hopen, helse⟩) (by simp [hfollows])
      · exact hclosed
    rw [hclosed, lastRoom_eq_zero helse hlast]
    rfl
  · exact Chain.take_eq_none_iff.mpr (.inr (not_or.mp helse))

/-! ## Runs of conditionals -/

theorem head?_words (n : Node) : n.words.head? = n.word? := by
  cases n with
  | conditional => rw [words_conditional]; rfl
  | _ => rfl

/-- **Runs are cut by counting.** The chains that stand side by side in a greedy tree are those that
cutting their words gives. -/
theorem IsGreedy.cut (h : n.IsGreedy) (hrun : run ∈ n.runs) :
    Chain.cut (run.flatMap words) = run.map words := by
  obtain ⟨hblock, hpart⟩ := infix_of_mem_runs hrun
  obtain ⟨hat, hchildren⟩ := isGreedy_iff.mp h
  have hapart : Apart n.children := by
    cases n with
    | block | codeBlock => exact hat
    | _ => exact absurd hblock (by simp [isBlock])
  rw [List.flatMap_def]
  refine Chain.cut_flatten ?_ ?_
  · intro ws hws
    obtain ⟨head, hhead, rfl⟩ := List.mem_map.mp hws
    rw [room?_words (hchildren head (hpart.subset hhead)) (isConditional_of_mem_runs hrun _ hhead)]
    rfl
  · have hrun := List.IsChain.infix hapart hpart
    refine List.isChain_map_of_isChain _ (fun a b hab w hw => ?_) hrun
    rw [head?_words] at hw
    exact hab w hw

/-- The chains of a run are as one expects them if and only if its words are put together from such
chains. -/
theorem IsGreedy.isProper_iff (h : n.IsGreedy) (hrun : run ∈ n.runs) :
    (∀ head ∈ run, isProper head.words = true) ↔
      ∃ wss : List (List String), (∀ ws ∈ wss, isProper ws = true) ∧
        run.flatMap words = wss.flatten := by
  constructor
  · intro hproper
    refine ⟨run.map words, ?_, List.flatMap_def⟩
    intro ws hws
    obtain ⟨head, hhead, rfl⟩ := List.mem_map.mp hws
    exact hproper head hhead
  · rintro ⟨wss, hproper, hwords⟩ head hhead
    have hsame : run.map words = wss := by
      rw [← h.cut hrun, hwords, Chain.cut_flatten_of_isProper hproper]
    exact hproper _ (hsame ▸ List.mem_map_of_mem hhead)

/-- A conditional is among the nodes of a block or among the alternatives of a conditional. -/
theorem isBlock_or_mem_next (hn : n.fits = true) (hc : c ∈ n.children)
    (hcond : c.isConditional = true) :
    n.isBlock = true ∨ ∃ word sentence content next line,
      n = conditional word sentence content next line ∧ c ∈ next := by
  -- it is nothing that the other places are for
  have hseq : c.isSeq = false ∧ c.isCode = false ∧ c.hasLine = false ∧ c.isText = false := by
    cases c with
    | conditional => exact ⟨rfl, rfl, rfl, rfl⟩
    | _ => exact absurd hcond (by simp [isConditional])
  obtain ⟨hseq, hcode, hline, htext⟩ := hseq
  cases n with
  | block | codeBlock => exact .inl rfl
  | conditional word sentence content next line =>
    refine .inr ⟨word, sentence, content, next, line, rfl, ?_⟩
    rw [children, List.mem_append, Option.mem_toList] at hc
    rcases hc with rfl | hc
    · simp [fits, hseq] at hn
    · exact hc
  | tag head code text content line =>
    simp only [children, List.mem_append, Option.mem_toList, List.mem_singleton] at hc
    rcases hc with (rfl | rfl) | rfl
    · simp [fits, hcode] at hn
    · simp [fits, hline] at hn
    · simp [fits, hseq, htext] at hn
  | code | each | blockComment | mixin | filter =>
    rw [children, Option.mem_toList] at hc
    subst hc
    simp [fits, hseq, htext] at hn
  | _ => exact absurd hc (by simp [children])

/-- **Every conditional** of a tree is in the chain of a conditional that stands in a block, unless
it is in the chain of the tree itself. -/
theorem exists_run (hfits : ∀ m ∈ n.walk, m.fits = true) (hc : c ∈ n.walk)
    (hcond : c.isConditional = true) :
    c ∈ n.chain ∨ ∃ b ∈ n.walk, ∃ run ∈ b.runs, ∃ head ∈ run, c ∈ head.chain := by
  induction n using Node.induction with
  | h n ih =>
    rw [walk_eq, List.forall_mem_cons, List.forall_mem_flatMap] at hfits
    obtain ⟨hfit, hfits⟩ := hfits
    rw [walk_eq] at hc ⊢
    rcases List.mem_cons.mp hc with rfl | hc
    · exact .inl (mem_chain_self c)
    · obtain ⟨m, hm, hc⟩ := List.mem_flatMap.mp hc
      rcases ih m hm (hfits m hm) hc with hmem | ⟨b, hb, hrun⟩
      · -- the child is the head of the chain or one of its alternatives
        have hmcond : m.isConditional = true := by
          by_contra hnot
          rw [chain_of_not_isConditional (by simpa using hnot), List.mem_singleton] at hmem
          exact hnot (hmem ▸ hcond)
        rcases isBlock_or_mem_next hfit hm hmcond with hblock | ⟨_, _, _, next, _, rfl, hnext⟩
        · obtain ⟨run, hrun, hhead⟩ := exists_mem_runs hblock hm hmcond
          exact .inr ⟨n, List.mem_cons_self, run, hrun, m, hhead, hmem⟩
        · rw [chain, chainAll_eq]
          exact .inl (List.mem_cons_of_mem _ (List.mem_flatMap.mpr ⟨m, hnext, hmem⟩))
      · exact .inr ⟨b, List.mem_cons_of_mem _ (List.mem_flatMap.mpr ⟨m, hm, hb⟩), hrun⟩

end Node

end Jade
