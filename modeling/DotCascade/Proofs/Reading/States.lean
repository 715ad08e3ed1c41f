import DotCascade.Reading.State

/-!
# The states that reading can reach

A state is reached from the beginning of a graph or of a row of rules by going on
behind one symbol after the other.  There are finitely many such states, and
`State.reachable` lists them.

The list is closed under going on (`mem_reachable`), so a property that holds
throughout the list holds of every state that is ever met.  The properties that
are read off in this way say that reading never has a choice.  A state is `decided`
when what comes next never leaves a choice between completing a production and
taking a word, or between two productions.  It is `separating` when it never admits
a bare word together with the word `strict`, and a keyword in front of more letters
only where these cannot be read.  It is `continuing` when the words that open a graph
are not admitted once the graph has begun.
-/

namespace DotCascade
namespace Reading

open Grammar

section Items

/-- A row of symbols builds a phrase by one production at most. -/
instance subsingleton_production
    {result : Phrase} {symbols : List Symbol} :
    Subsingleton (Production result symbols) :=
  ⟨fun a b => by cases a <;> cases b <;> rfl⟩

/-- An item is known from its phrase, its symbols and those still to come. -/
theorem Item.ext_symbols
    {a b : Item}
    (hresult : a.result = b.result)
    (hsymbols : a.symbols = b.symbols)
    (hrest : a.rest = b.rest) :
    a = b := by
  obtain ⟨p, rest⟩ := a
  obtain ⟨q, rest'⟩ := b
  simp only at hresult hsymbols hrest
  subst hresult hsymbols hrest
  rw [Subsingleton.elim p q]

instance decidableEqItem : DecidableEq Item := fun a b =>
  decidable_of_iff (a.rest = b.rest ∧ a.result = b.result ∧ a.symbols = b.symbols)
    ⟨fun h => Item.ext_symbols h.2.1 h.2.2 h.1, fun h => by subst h; exact ⟨rfl, rfl, rfl⟩⟩

end Items

namespace State

/-- The symbols that the items of a state wait for. -/
def awaited (state : State) : List Symbol :=
  (state.filterMap fun item => item.rest.head?).eraseDups

/-- A kind of word is among what a state expects. -/
def admits (terminal : Terminal) (state : State) : Bool :=
  state.expected.contains (.word terminal)

/-- Nothing lies behind a symbol that no item waits for. -/
theorem advance_eq_nil
    {state : State} {symbol : Symbol}
    (h : symbol ∉ state.awaited) :
    state.advance symbol = [] := by
  have hmoved : state.filterMap (Item.advance? symbol) = [] := by
    rw [List.filterMap_eq_nil_iff]
    intro item hitem
    cases hrest : item.rest with
    | nil =>
        simp [Item.advance?, hrest]
    | cons first rest =>
        have hne : first ≠ symbol := by
          rintro rfl
          apply h
          rw [awaited, List.mem_eraseDups, List.mem_filterMap]
          exact ⟨item, hitem, by rw [hrest]; rfl⟩
        simp [Item.advance?, hrest, hne]
  simp [advance, hmoved, beginning]

section Reachable

/-- Some states, together with those that lie behind the last found ones, found in a number of
rounds. -/
def explore : Nat → List State → List State → List State
  | 0, found, _ => found
  | rounds + 1, found, last =>
      let behind := last.flatMap fun state =>
        state.awaited.map fun symbol => state.advance symbol
      let further := behind.eraseDups.filter fun state => !found.contains state
      if further.isEmpty then found
      else explore rounds (found ++ further) further

/-- The states at which reading begins, and the state without items. -/
def origins : List State :=
  [start .graph, start .rules, []]

/-- All states that reading can reach. -/
def reachable : List State :=
  explore 32 origins origins

end Reachable

section Checks

/-- What comes next decides between the complete productions of a state and the words that it
takes. -/
def decided (state : State) : Bool :=
  let complete := state.filter fun item => item.rest.isEmpty
  complete.all fun item =>
    (item.result.follow.all fun next =>
      match next with
      | .word terminal => !state.takes terminal
      | .finish => true) &&
    complete.all fun other =>
      item = other || item.result.follow.all fun next => !other.result.follow.contains next

/-- The kinds of word that may begin with a letter or a digit. -/
def lettered : List Terminal :=
  [.identifier, .number, .subgraph, .digraph, .strict, .graph, .edge, .node]

/-- A keyword is admitted beside bare words, or nothing that begins with a letter or a digit
comes behind it, or a graph begins with it. -/
def separating (state : State) : Bool :=
  (state.admits .identifier || !state.admits .subgraph) &&
    !(state.admits .strict && state.admits .identifier) &&
    [Terminal.node, .edge, .graph].all fun keyword =>
      state.admits .digraph ||
        lettered.all fun terminal => !(state.advance (.word keyword)).admits terminal

/-- The state behind a symbol is listed; it does not admit the word that makes a graph strict, and
the word that makes a graph directed only behind that word. -/
def continuing (state : State) (symbol : Symbol) : Bool :=
  let next := state.advance symbol
  reachable.contains next && !next.admits .strict &&
    (!next.admits .digraph || symbol = .word .strict)

/-- Every listed state is decided and separating, and goes on to listed states alone. -/
theorem reachable_checked :
    (reachable.all fun state =>
      state.decided && state.separating && state.awaited.all state.continuing) = true := by
  decide +kernel

end Checks

section Reached

/-- A state that lies behind a row of symbols. -/
inductive Reached : State → Prop
  | origin {state : State} (h : state ∈ origins) : Reached state
  | advance {state : State} (symbol : Symbol) (h : Reached state) :
      Reached (state.advance symbol)

theorem reached_start_graph :
    Reached (start .graph) :=
  .origin (by simp [origins])

theorem reached_start_rules :
    Reached (start .rules) :=
  .origin (by simp [origins])

theorem mem_explore
    {rounds : Nat} {found last : List State} {state : State}
    (h : state ∈ found) :
    state ∈ explore rounds found last := by
  induction rounds generalizing found last with
  | zero =>
      exact h
  | succ rounds ih =>
      simp only [explore]
      split
      · exact h
      · exact ih (List.mem_append_left _ h)

theorem checked_of_mem
    {state : State} (h : state ∈ reachable) :
    state.decided = true ∧ state.separating = true ∧
      ∀ symbol ∈ state.awaited, state.continuing symbol = true := by
  have hall := List.all_eq_true.1 reachable_checked state h
  simp only [Bool.and_eq_true, List.all_eq_true] at hall
  exact ⟨hall.1.1, hall.1.2, hall.2⟩

/-- Every reached state is listed. -/
theorem mem_reachable
    {state : State} (h : Reached state) :
    state ∈ reachable := by
  induction h with
  | origin h =>
      exact mem_explore h
  | @advance state symbol _ ih =>
      by_cases hs : symbol ∈ state.awaited
      · have hnext := (checked_of_mem ih).2.2 symbol hs
        simp only [continuing, Bool.and_eq_true] at hnext
        simpa using hnext.1.1
      · rw [advance_eq_nil hs]
        exact mem_explore (by simp [origins])

end Reached

section Closure

theorem mem_corners
    (phrase : Phrase) :
    phrase ∈ corners phrase := by
  cases phrase <;> decide

theorem mem_beginning
    {phrases : List Phrase} {item : Item} :
    item ∈ beginning phrases ↔
      ∃ phrase ∈ phrases, ∃ corner ∈ corners phrase,
        ∃ alternative ∈ corner.alternatives, Item.begin alternative = item := by
  simp only [beginning, List.mem_flatMap, List.mem_eraseDups, List.mem_map]
  constructor
  · rintro ⟨corner, ⟨phrase, hphrase, hcorner⟩, h⟩
    exact ⟨phrase, hphrase, corner, hcorner, h⟩
  · rintro ⟨phrase, hphrase, corner, hcorner, h⟩
    exact ⟨corner, ⟨phrase, hphrase, hcorner⟩, h⟩

/-- The productions of a phrase that an item of a beginning waits for begin there too. -/
theorem begin_mem_beginning
    {phrases : List Phrase} {item : Item} {phrase : Phrase}
    (hitem : item ∈ beginning phrases)
    (hawaited : item.awaited? = some phrase)
    {alternative : phrase.Alternative}
    (halternative : alternative ∈ phrase.alternatives) :
    Item.begin alternative ∈ beginning phrases := by
  obtain ⟨origin, horigin, corner, hcorner, first, hfirst, rfl⟩ := mem_beginning.1 hitem
  have hopener : phrase ∈ openers corner :=
    List.mem_filterMap.2
      ⟨Item.begin first, List.mem_map_of_mem hfirst, hawaited⟩
  exact mem_beginning.2
    ⟨origin, horigin, phrase, openers_subset_corners origin corner hcorner phrase hopener,
      alternative, halternative, rfl⟩

/-- Where an item waits for a phrase, all productions of that phrase begin. -/
theorem begin_mem
    {state : State} (hstate : Reached state)
    {item : Item} {phrase : Phrase}
    (hitem : item ∈ state)
    (hawaited : item.awaited? = some phrase)
    {alternative : phrase.Alternative}
    (halternative : alternative ∈ phrase.alternatives) :
    Item.begin alternative ∈ state := by
  cases hstate with
  | origin h =>
      simp only [origins, List.mem_cons, List.not_mem_nil, or_false] at h
      rcases h with rfl | rfl | rfl
      · exact begin_mem_beginning hitem hawaited halternative
      · exact begin_mem_beginning hitem hawaited halternative
      · exact absurd hitem List.not_mem_nil
  | @advance before symbol _ =>
      simp only [advance, List.mem_append] at hitem ⊢
      right
      rcases hitem with hmoved | hbeginning
      · have hphrase := List.mem_filterMap.2 ⟨item, hmoved, hawaited⟩
        exact mem_beginning.2
          ⟨phrase, hphrase, phrase, mem_corners phrase, alternative, halternative, rfl⟩
      · exact begin_mem_beginning hbeginning hawaited halternative

/-- An item that waits for a symbol goes on behind that symbol. -/
theorem mem_advance
    {state : State} {item : Item} {symbol : Symbol} {rest : List Symbol}
    (hitem : item ∈ state)
    (hrest : item.rest = symbol :: rest) :
    { item with rest := rest } ∈ state.advance symbol := by
  refine List.mem_append_left _ (List.mem_filterMap.2 ⟨item, hitem, ?_⟩)
  simp [Item.advance?, hrest]

end Closure

section Decisions

variable {state : State}

theorem takes_iff
    {terminal : Terminal} :
    state.takes terminal = true ↔
      ∃ item ∈ state, item.rest.head? = some (.word terminal) := by
  simp [takes]

theorem complete?_eq_none_iff
    {next : Lookahead} :
    state.complete? next = none ↔
      ∀ item ∈ state, item.rest = [] → next ∉ item.result.follow := by
  simp [complete?, List.find?_eq_none]

theorem mem_expected_iff
    {next : Lookahead} :
    next ∈ state.expected ↔ ∃ item ∈ state, next ∈ item.expected := by
  simp [expected, Lookahead.mem_all]

theorem admits_iff
    {terminal : Terminal} :
    state.admits terminal = true ↔
      state.takes terminal = true ∨ state.complete? (.word terminal) ≠ none := by
  rw [admits, List.contains_iff_mem, mem_expected_iff, takes_iff, ne_eq, complete?_eq_none_iff]
  constructor
  · rintro ⟨item, hitem, hword⟩
    cases hrest : item.rest with
    | nil =>
        rw [Item.expected, hrest] at hword
        exact Or.inr fun h => h item hitem hrest hword
    | cons first rest =>
        cases first with
        | phrase _ =>
            simp [Item.expected, hrest] at hword
        | word t =>
            simp only [Item.expected, hrest, List.mem_singleton, Lookahead.word.injEq] at hword
            exact Or.inl ⟨item, hitem, by rw [hrest, hword]; rfl⟩
  · rintro (⟨item, hitem, hhead⟩ | h)
    · refine ⟨item, hitem, ?_⟩
      obtain ⟨rest, hrest⟩ := List.head?_eq_some_iff.1 hhead
      simp [Item.expected, hrest]
    · simp only [Classical.not_forall, Decidable.not_not] at h
      obtain ⟨item, hitem, hrest, hword⟩ := h
      exact ⟨item, hitem, by simpa [Item.expected, hrest] using hword⟩

/-- A production that is complete in front of what comes next is the one that is completed. -/
theorem complete?_eq_some
    {item : Item} {next : Lookahead}
    (hstate : Reached state)
    (hitem : item ∈ state)
    (hrest : item.rest = [])
    (hnext : next ∈ item.result.follow) :
    state.complete? next = some item := by
  have hdecided := (checked_of_mem (mem_reachable hstate)).1
  simp only [decided, List.all_eq_true, List.mem_filter, List.isEmpty_iff,
    Bool.and_eq_true] at hdecided
  have hunique := (hdecided item ⟨hitem, hrest⟩).2
  cases hfound : state.complete? next with
  | none =>
      exact absurd hnext (complete?_eq_none_iff.1 hfound item hitem hrest)
  | some other =>
      have hmem := List.mem_of_find?_eq_some hfound
      have hprop := List.find?_some hfound
      simp only [Bool.and_eq_true, List.isEmpty_iff, List.contains_iff_mem] at hprop
      have hor := hunique other ⟨hmem, hprop.1⟩
      simp only [Bool.or_eq_true, decide_eq_true_eq, List.all_eq_true] at hor
      rcases hor with rfl | hdisjoint
      · rfl
      · have := hdisjoint next hnext
        simp [hprop.2] at this

/-- Where a word is taken, no production is completed in front of it. -/
theorem complete?_eq_none_of_takes
    {terminal : Terminal}
    (hstate : Reached state)
    (h : state.takes terminal = true) :
    state.complete? (.word terminal) = none := by
  have hdecided := (checked_of_mem (mem_reachable hstate)).1
  simp only [decided, List.all_eq_true, List.mem_filter, List.isEmpty_iff,
    Bool.and_eq_true] at hdecided
  rw [complete?_eq_none_iff]
  intro item hitem hrest hnext
  have := (hdecided item ⟨hitem, hrest⟩).1 _ hnext
  simp [h] at this

end Decisions

end State
end Reading
end DotCascade
