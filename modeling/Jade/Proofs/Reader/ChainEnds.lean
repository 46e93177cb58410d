import Jade.Proofs.Node.Chains
import Jade.Proofs.Reader.Outdents

/-!
# Where chains end

Reading a conditional comes to its end only where the next token is not a word that the chain has a
place for. Since no line end comes after the block of a conditional, this token is also what the
next form of the block begins with. So a conditional that stands right after a chain begins with a
word that the chain refuses: the trees that are read are greedy.

The grammar of events lets a chain end anywhere. `Part.Ends` tells what else is known of a part of a
template, in the state in which the part has just been read.

## Main results

* `Jade.Reader.Lined.concat`, `Jade.Reader.Growing.concat` : one more node, one more alternative
* `Jade.Reader.Growing.ends_conditional` : a conditional after its last alternative
-/

namespace Jade

namespace Reader

variable {s₀ : Source} {r r' : Reader} {t : Token} {n : Node} {nodes : List Node}

/-! ## Forms -/

/-- A conditional begins with the next token. -/
def Begins (r : Reader) (n : Node) : Prop :=
  ∀ word ∈ n.word?, ∃ t s sentence, r.source.advance = (.ok t, s) ∧
    t.body = .conditional word sentence

/-- No line ends here. -/
def Flush (r : Reader) : Prop := ∀ t s, r.source.advance = (.ok t, s) → t.body.isBreak = false

/-- The chain of a conditional has no place for the next token. -/
def Stops (n : Node) (r : Reader) : Prop :=
  n.isConditional = true → Flush r ∧
    ∀ t s word sentence, r.source.advance = (.ok t, s) → t.body = .conditional word sentence →
      Chain.take n.room word = none

theorem Stops.congr (h : Stops n r) (hsame : r'.source.advance = r.source.advance) :
    Stops n r' := by
  intro hn
  obtain ⟨hflush, hrefused⟩ := h hn
  refine ⟨fun t s ha => hflush t s (hsame ▸ ha), fun t s word sentence ha => ?_⟩
  exact hrefused t s word sentence (hsame ▸ ha)

theorem stops_of_not_isConditional (h : n.isConditional = false) (r : Reader) : Stops n r :=
  fun hn => absurd hn (by simp [h])

theorem begins_of_not_isConditional (h : n.isConditional = false) (r : Reader) : Begins r n := by
  intro word hword
  cases n with
  | conditional => exact absurd h (by simp [Node.isConditional])
  | _ => exact absurd hword (by simp [Node.word?])

/-- After a line end or an indentation there is no chain to continue. -/
theorem Stops.of_break (h : Stops n r) (ht : r.source.stash[0]? = some t)
    (hb : t.body.isBreak = true) : n.isConditional = false := by
  by_contra hn
  obtain ⟨s, ha⟩ := Source.exists_advance_of_stash ht
  have hflush := (h (by simpa using hn)).1 t s ha
  rw [hb] at hflush
  cases hflush

theorem isGreedy_leaf (hat : n.IsGreedyAt) (hc : n.children = []) : n.IsGreedy :=
  Node.isGreedy_iff.mpr ⟨hat, by simp [hc]⟩

/-! ## Blocks -/

/-- The nodes of a block that is read up to here. -/
structure Lined (nodes : List Node) (r : Reader) : Prop where
  apart : Node.Apart nodes
  greedy : ∀ n ∈ nodes, n.IsGreedy
  stops : ∀ n ∈ nodes.getLast?, Stops n r

theorem lined_nil (r : Reader) : Lined [] r where
  apart := .nil
  greedy := nofun
  stops := nofun

theorem Lined.concat (h : Lined nodes r) (hbegins : Begins r n) (hn : n.IsGreedy)
    (hstops : Stops n r') : Lined (nodes ++ [n]) r' where
  apart := by
    refine List.isChain_append.mpr ⟨h.apart, .singleton n, fun m hm k hk word hword => ?_⟩
    obtain rfl : n = k := Option.some.inj hk
    obtain ⟨t, s, sentence, ha, ht⟩ := hbegins word hword
    by_cases hcond : m.isConditional = true
    · exact (h.stops m hm hcond).2 t s word sentence ha ht
    · rw [Node.room_of_not_isConditional (by simpa using hcond)]
      rfl
  greedy := List.forall_mem_append.mpr ⟨h.greedy, List.forall_mem_singleton.mpr hn⟩
  stops := by
    intro m hm
    rw [List.getLast?_concat] at hm
    exact Option.some.inj hm ▸ hstops

theorem Lined.congr (h : Lined nodes r) (hsame : r'.source.advance = r.source.advance) :
    Lined nodes r' :=
  ⟨h.apart, h.greedy, fun m hm => (h.stops m hm).congr hsame⟩

theorem Lined.of_break (h : Lined nodes r) (ht : r.source.stash[0]? = some t)
    (hb : t.body.isBreak = true) (r' : Reader) : Lined nodes r' :=
  ⟨h.apart, h.greedy, fun m hm =>
    stops_of_not_isConditional ((h.stops m hm).of_break ht hb) r'⟩

/-! ## Conditionals -/

/-- The alternatives that are read up to here, for a conditional with the word `word`. -/
structure Growing (word : String) (next : List Node) (r : Reader) : Prop where
  grows : Node.Grows word next
  greedy : ∀ n ∈ next, n.IsGreedy
  flush : Flush r
  stops : ∀ n ∈ next.getLast?, Stops n r

theorem growing_nil (word : String) (h : Flush r) : Growing word [] r where
  grows := .nil
  greedy := nofun
  flush := h
  stops := nofun

section Alternatives

variable {word word' sentence sentence' : String} {c : Option Node} {next next' : List Node}
  {line : Option Nat}

theorem Growing.congr (h : Growing word next r) (hsame : r'.source.advance = r.source.advance) :
    Growing word next r' :=
  ⟨h.grows, h.greedy, fun t s ha => h.flush t s (hsame ▸ ha),
    fun m hm => (h.stops m hm).congr hsame⟩

theorem Growing.take_eq_none (h : Growing word next r) {s : Source}
    (ha : r.source.advance = (.ok t, s)) (ht : t.body = .conditional word' sentence') :
    ∀ m ∈ next.getLast?, Chain.take m.room word' = none := by
  intro m hm
  have hcond := h.grows.isConditional m (List.mem_of_getLast? hm)
  exact (h.stops m hm hcond).2 t s word' sentence' ha ht

theorem Growing.concat (h : Growing word next r) {s : Source} (ha : r.source.advance = (.ok t, s))
    (ht : t.body = .conditional word' sentence') (hfollows : Node.mayFollow word next word' = true)
    (hn : (Node.conditional word' sentence' c next' line).IsGreedy)
    (hstops : Stops (.conditional word' sentence' c next' line) r') :
    Growing word (next ++ [.conditional word' sentence' c next' line]) r' where
  grows := h.grows.concat (h.take_eq_none ha ht) hfollows
  greedy := List.forall_mem_append.mpr ⟨h.greedy, List.forall_mem_singleton.mpr hn⟩
  flush := (hstops rfl).1
  stops := by
    intro m hm
    rw [List.getLast?_concat] at hm
    exact Option.some.inj hm ▸ hstops

/-- No alternative begins with the next token. -/
def Ended (word : String) (next : List Node) (r : Reader) : Prop :=
  ∀ t s word' sentence, r.source.advance = (.ok t, s) → t.body = .conditional word' sentence →
    Node.mayFollow word next word' = false

/-- **A conditional** ends where its chain has no place for what comes. -/
theorem Growing.ends_conditional {content : Node} (h : Growing word next r)
    (hended : Ended word next r) (hword : word ∈ Rules.conditionalWords)
    (hcontent : content.IsGreedy) :
    (Node.conditional word sentence (some content) next line).IsGreedy ∧
      Stops (.conditional word sentence (some content) next line) r := by
  have hgreedy : (Node.conditional word sentence (some content) next line).IsGreedy := by
    refine Node.isGreedy_iff.mpr ⟨⟨hword, h.grows⟩, ?_⟩
    exact List.forall_mem_cons.mpr ⟨hcontent, h.greedy⟩
  refine ⟨hgreedy, fun _ => ⟨h.flush, fun t s word' sentence' ha ht => ?_⟩⟩
  exact Node.take_room_conditional hgreedy (hended t s word' sentence' ha ht)
    (h.take_eq_none ha ht)

end Alternatives

variable {rest : OnLine}

/-! ## Tags -/

/-- What stands beside a tag. -/
structure Beside (rest : OnLine) (r : Reader) : Prop where
  /-- Code and text. -/
  line : ∀ n ∈ rest.code.toList ++ rest.text.toList, n.IsGreedy
  /-- The content that starts on the line, one form at most. -/
  content : rest.content = [] ∨ ∃ n, rest.content = [n] ∧ n.IsGreedy ∧ Stops n r

theorem Beside.congr (h : Beside rest r) (hsame : r'.source.advance = r.source.advance) :
    Beside rest r' := by
  refine ⟨h.line, h.content.imp id ?_⟩
  rintro ⟨n, hrest, hn, hstops⟩
  exact ⟨n, hrest, hn, hstops.congr hsame⟩

theorem Beside.of_break (h : Beside rest r) (ht : r.source.stash[0]? = some t)
    (hb : t.body.isBreak = true) (r' : Reader) : Beside rest r' := by
  refine ⟨h.line, h.content.imp id ?_⟩
  rintro ⟨n, hrest, hn, hstops⟩
  exact ⟨n, hrest, hn, stops_of_not_isConditional (hstops.of_break ht hb) r'⟩

theorem Beside.children_tag (h : Beside rest r) {head : Tag} {content : Node} {line : Option Nat}
    (hcontent : content.IsGreedy) :
    ∀ m ∈ (Node.tag head rest.code rest.text content line).children, m.IsGreedy :=
  List.forall_mem_append.mpr ⟨h.line, List.forall_mem_singleton.mpr hcontent⟩

theorem Beside.isGreedy_seq (h : Beside rest r) : (Node.seq rest.content).IsGreedy := by
  refine Node.isGreedy_iff.mpr ?_
  rcases h.content with hrest | ⟨m, hrest, hm, -⟩
  · rw [hrest]
    exact ⟨.nil, nofun⟩
  · rw [hrest]
    exact ⟨.singleton m, List.forall_mem_singleton.mpr hm⟩

theorem Beside.isGreedy_seq_append (h : Beside rest r) (ht : r.source.stash[0]? = some t)
    (hb : t.body.isBreak = true) {nodes : List Node}
    (hnodes : Node.Apart nodes ∧ ∀ n ∈ nodes, n.IsGreedy) :
    (Node.seq (rest.content ++ nodes)).IsGreedy := by
  refine Node.isGreedy_iff.mpr ?_
  rcases h.content with hrest | ⟨m, hrest, hm, hstops⟩
  · rw [hrest]
    exact hnodes
  · rw [hrest]
    refine ⟨List.isChain_cons.mpr ⟨fun k _ word _ => ?_, hnodes.1⟩,
      List.forall_mem_cons.mpr ⟨hm, hnodes.2⟩⟩
    rw [Node.room_of_not_isConditional (hstops.of_break ht hb)]
    rfl

end Reader

/-! ## Any part -/

open Reader

/-- What is known of a part of a template that has just been read. -/
def Part.Ends : Part → Reader → Prop
  | .form n, r => n.IsGreedy ∧ Stops n r
  | .forms nodes, r => Lined nodes r
  | .nested nodes, r => (Node.Apart nodes ∧ ∀ n ∈ nodes, n.IsGreedy) ∧ Flush r
  | .content c, r => (∀ n ∈ c.toList, n.IsGreedy) ∧ (c.isSome = true → Flush r)
  | .alternatives word next, r => Growing word next r
  | .beside rest, r => Beside rest r
  | .lines .., _ | .raw .., _ => True

end Jade
