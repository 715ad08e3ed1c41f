import DotCascade.Proofs.Reading.Completion
import Mathlib.Data.List.Infix

/-!
# What is taken behind a phrase

The follow sets say what may come next behind a phrase.  None of it is listed in vain:
for every phrase and everything in its follow set, there are frames behind which the
phrase may begin and behind any tree of which that thing is taken
(`precedes_of_mem_follow`).

A phrase stands in some production, either in front of a further symbol, which opens
with the word in question, or at the end, and then the phrase that is built must
precede it.  The phrase that is built may begin somewhere, and the symbols in front of
the place have trees, so the place is reached.
-/

namespace DotCascade
namespace Reading

open Grammar

section Taking

/-- What comes next is taken behind some frames: a word, or the end, where the whole is left. -/
def takesNext (goal : Phrase) (frames : List Frame) : Lookahead → Bool
  | .word terminal => (stateBehind goal (settle goal (.word terminal) frames)).takes terminal
  | .finish => (whole? goal (settle goal .finish frames)).isSome

variable {goal : Phrase} {frames : List Frame}

/-- A word is taken exactly where it can be read. -/
theorem takesNext_word_iff
    (word : Word) :
    takesNext goal frames (.word word.terminal) = true ↔
      ∃ behind, readWord? goal frames word = some behind := by
  simp only [takesNext, readWord?]
  split
  case isTrue htakes =>
    exact ⟨fun _ => ⟨_, rfl⟩, fun _ => htakes⟩
  case isFalse htakes =>
    exact ⟨fun h => absurd h htakes, nofun⟩

theorem takesNext_congr
    {frames' : List Frame} {next : Lookahead}
    (h : settle goal next frames = settle goal next frames') :
    takesNext goal frames next = takesNext goal frames' next := by
  cases next with
  | word terminal =>
      simp only [takesNext, h]
  | finish =>
      simp only [takesNext, h]

/-- A word that an item waits for is taken. -/
theorem takesNext_of_takes
    (hgoal : IsGoal goal) (hframed : Framed goal frames) {terminal : Terminal}
    (h : (stateBehind goal frames).takes terminal = true) :
    takesNext goal frames (.word terminal) = true := by
  have hnone : complete? goal (.word terminal) frames = none := by
    simp only [complete?,
      State.complete?_eq_none_of_takes (reached_stateBehind hgoal hframed) h]
  rwa [takesNext, settle_of_none hnone]

end Taking

section Beginnings

variable {state : State}

/-- All productions of a phrase begin. -/
def Begins (state : State) (phrase : Phrase) : Prop :=
  ∀ alternative ∈ phrase.alternatives, Item.begin alternative ∈ state

theorem begins_of_head
    (hstate : State.Reached state) {item : Item} (hitem : item ∈ state) {phrase : Phrase}
    (hhead : item.rest.head? = some (.phrase phrase)) :
    Begins state phrase := by
  intro alternative halternative
  obtain ⟨rest, hrest⟩ := List.head?_eq_some_iff.1 hhead
  exact State.begin_mem hstate hitem (by simp [Item.awaited?, hrest]) halternative

/-- With a phrase, all its corners begin. -/
theorem Begins.corner
    (hstate : State.Reached state) {phrase corner : Phrase} (h : Begins state phrase)
    (hcorner : corner ∈ corners phrase) :
    Begins state corner := by
  refine mem_withOpeners (p := Begins state) (fun origin horigin opener hopener => ?_)
    (List.forall_mem_singleton.2 h) corner hcorner
  obtain ⟨item, hitem, hawaited⟩ := List.mem_filterMap.1 hopener
  obtain ⟨alternative, halternative, rfl⟩ := List.mem_map.1 hitem
  obtain ⟨rest, hrest⟩ := rest_of_awaited? hawaited
  exact begins_of_head hstate (horigin alternative halternative) (by rw [hrest]; rfl)

/-- A word that opens what an item waits for is taken. -/
theorem takes_of_opening
    (hstate : State.Reached state) {item : Item} (hitem : item ∈ state)
    {symbol : Symbol} (hhead : item.rest.head? = some symbol) {terminal : Terminal}
    (h : terminal ∈ opening symbol) :
    state.takes terminal = true := by
  rw [State.takes_iff]
  cases symbol with
  | word other =>
      obtain rfl := List.mem_singleton.1 h
      exact ⟨item, hitem, hhead⟩
  | phrase phrase =>
      obtain ⟨corner, hcorner, hfirst⟩ := List.mem_flatMap.1 h
      obtain ⟨alternative, halternative, hopens⟩ := List.mem_filterMap.1 hfirst
      have hbegins := (begins_of_head hstate hitem hhead).corner hstate hcorner
      refine ⟨Item.begin alternative, hbegins alternative halternative, ?_⟩
      split at hopens
      case h_1 other rest hsymbols =>
        obtain rfl := Option.some.inj hopens
        simp [Item.begin, hsymbols]
      case h_2 =>
        cases hopens

end Beginnings

section Occurrences

/-- Where a phrase stands in a production: the phrase that is built, and the symbols behind. -/
def occurrences (phrase : Phrase) : List (Phrase × List Symbol) :=
  Phrase.all.flatMap fun result => result.alternatives.flatMap fun alternative =>
    alternative.symbols.tails.filterMap fun symbols =>
      match symbols with
      | .phrase first :: rest => if first = phrase then some (result, rest) else none
      | _ => none

theorem exists_production_of_occurrence
    {phrase result : Phrase} {rest : List Symbol} (h : (result, rest) ∈ occurrences phrase) :
    ∃ (before : List Symbol) (alternative : result.Alternative),
      alternative ∈ result.alternatives ∧
        alternative.symbols = before ++ .phrase phrase :: rest := by
  simp only [occurrences, List.mem_flatMap, List.mem_filterMap, List.mem_tails] at h
  obtain ⟨_, -, alternative, halternative, symbols, ⟨before, hbefore⟩, hplace⟩ := h
  split at hplace
  case h_1 first later =>
    split at hplace
    case isTrue hfirst =>
      obtain ⟨rfl, rfl⟩ := Prod.mk.inj (Option.some.inj hplace)
      exact ⟨before, alternative, halternative, by rw [← hbefore, hfirst]⟩
    case isFalse =>
      cases hplace
  case h_2 =>
    cases hplace

/-- A phrase occurs in a whole, within some number of productions. -/
def occursWithin : Nat → Phrase → Bool
  | 0, _ => false
  | depth + 1, phrase =>
      phrase = .graph || phrase = .rules ||
        (occurrences phrase).any fun (result, _) => occursWithin depth result

theorem occursWithin_all
    (phrase : Phrase) :
    occursWithin 10 phrase = true := by
  cases phrase <;> decide

/-- Something comes next behind a phrase in a whole, within some number of productions. -/
def precedesWithin : Nat → Phrase → Lookahead → Bool
  | 0, _, _ => false
  | depth + 1, phrase, next =>
      (next = .finish && (phrase = .graph || phrase = .rules)) ||
        (occurrences phrase).any fun (result, rest) =>
          match rest, next with
          | [], _ => result.follow.contains next && precedesWithin depth result next
          | symbol :: _, .word terminal => (opening symbol).contains terminal
          | _ :: _, .finish => false

theorem precedesWithin_all
    (phrase : Phrase) :
    ∀ next ∈ phrase.follow, precedesWithin 6 phrase next = true := by
  cases phrase <;> decide

end Occurrences

section Contexts

/-- A forest with further trees behind. -/
def appendForest : {symbols later : List Symbol} →
    Forest symbols → Forest later → Forest (symbols ++ later)
  | _, _, .nil, behind => behind
  | _, _, .cons tree inner, behind => .cons tree (appendForest inner behind)

theorem pushAll_appendForest
    (goal : Phrase) :
    {symbols later : List Symbol} → (forest : Forest symbols) → (behind : Forest later) →
    (frames : List Frame) →
    pushAll goal (appendForest forest behind) frames =
      pushAll goal behind (pushAll goal forest frames)
  | _, _, .nil, _, _ => rfl
  | _, _, .cons tree inner, behind, frames =>
      pushAll_appendForest goal inner behind (push goal tree frames)

theorem begins_goal
    (goal : Phrase) :
    Begins (stateBehind goal []) goal := by
  intro alternative halternative
  exact State.mem_beginning.2
    ⟨goal, List.mem_singleton_self goal, goal, State.mem_corners goal, alternative, halternative,
      rfl⟩

variable {goal : Phrase} {frames : List Frame}

/-- Behind the first symbols of a production that begins, it waits for the others. -/
theorem mem_of_begins
    {result : Phrase} (hbegins : Begins (stateBehind goal frames) result)
    {alternative : result.Alternative} (halternative : alternative ∈ result.alternatives)
    {before rest : List Symbol} (hsymbols : alternative.symbols = before ++ rest)
    (forest : Forest before) :
    ⟨alternative.production, rest⟩ ∈ stateBehind goal (pushAll goal forest frames) :=
  mem_stateBehind_pushAll forest (hbegins alternative halternative) hsymbols

/-- A phrase may begin behind some frames. -/
def Occurs (phrase : Phrase) : Prop :=
  ∃ goal frames, IsGoal goal ∧ Framed goal frames ∧ Begins (stateBehind goal frames) phrase

theorem occurs_of_within
    {depth : Nat} {phrase : Phrase} (h : occursWithin depth phrase = true) :
    Occurs phrase := by
  induction depth generalizing phrase with
  | zero =>
      cases h
  | succ depth ih =>
      simp only [occursWithin, Bool.or_eq_true, decide_eq_true_eq, List.any_eq_true] at h
      rcases h with hgoal | ⟨⟨result, rest⟩, hplace, hresult⟩
      · exact ⟨phrase, [], hgoal, .nil, begins_goal phrase⟩
      · obtain ⟨goal, frames, hgoal, hframed, hbegins⟩ := ih hresult
        obtain ⟨before, alternative, halternative, hsymbols⟩ :=
          exists_production_of_occurrence hplace
        obtain ⟨forest, -⟩ := exists_forest before
        have hitem := mem_of_begins hbegins halternative hsymbols forest
        have hplaced := framed_pushAll forest hframed
        exact ⟨goal, pushAll goal forest frames, hgoal, hplaced,
          begins_of_head (reached_stateBehind hgoal hplaced) hitem rfl⟩

/-- A phrase may begin behind some frames, and behind any tree of it something is taken. -/
def Precedes (phrase : Phrase) (next : Lookahead) : Prop :=
  ∃ goal frames, IsGoal goal ∧ Framed goal frames ∧
    Begins (stateBehind goal frames) phrase ∧
    ∀ tree : Tree (.phrase phrase), takesNext goal (push goal tree frames) next = true

/-- In front of another symbol, a phrase precedes every word that opens the symbol. -/
theorem precedes_of_opening
    {phrase result : Phrase} {symbol : Symbol} {rest : List Symbol}
    (hplace : (result, symbol :: rest) ∈ occurrences phrase) {terminal : Terminal}
    (hopening : terminal ∈ opening symbol) :
    Precedes phrase (.word terminal) := by
  obtain ⟨before, alternative, halternative, hsymbols⟩ := exists_production_of_occurrence hplace
  obtain ⟨goal, frames, hgoal, hframed, hbegins⟩ := occurs_of_within (occursWithin_all result)
  obtain ⟨forest, -⟩ := exists_forest before
  have hitem := mem_of_begins hbegins halternative hsymbols forest
  have hplaced := framed_pushAll forest hframed
  refine ⟨goal, pushAll goal forest frames, hgoal, hplaced,
    begins_of_head (reached_stateBehind hgoal hplaced) hitem rfl, fun tree => ?_⟩
  have hbehind : Framed goal (push goal tree (pushAll goal forest frames)) := .push tree hplaced
  exact takesNext_of_takes hgoal hbehind
    (takes_of_opening (reached_stateBehind hgoal hbehind) (State.mem_advance hitem rfl) rfl
      hopening)

/-- At the end of a production, a phrase precedes what the phrase that is built precedes. -/
theorem Precedes.of_last
    {phrase result : Phrase} {next : Lookahead} (h : Precedes result next)
    (hplace : (result, []) ∈ occurrences phrase) (hnext : next ∈ result.follow) :
    Precedes phrase next := by
  obtain ⟨before, @⟨symbols, production⟩, halternative, hsymbols⟩ :=
    exists_production_of_occurrence hplace
  obtain ⟨goal, frames, hgoal, hframed, hbegins, htaken⟩ := h
  obtain ⟨forest, -⟩ := exists_forest before
  have hitem := mem_of_begins hbegins halternative hsymbols forest
  have hplaced := framed_pushAll forest hframed
  refine ⟨goal, pushAll goal forest frames, hgoal, hplaced,
    begins_of_head (reached_stateBehind hgoal hplaced) hitem rfl, fun tree => ?_⟩
  obtain rfl : symbols = before ++ [.phrase phrase] := hsymbols
  have hcomplete :=
    complete?_pushAll hgoal production (appendForest forest (.cons tree .nil)) hframed
      (hbegins _ halternative) hnext
  rw [pushAll_appendForest] at hcomplete
  exact (takesNext_congr (settle_of_some hcomplete)).trans (htaken _)

theorem precedes_finish
    {goal : Phrase} (hgoal : IsGoal goal) :
    Precedes goal .finish := by
  refine ⟨goal, [], hgoal, .nil, begins_goal goal, fun tree => ?_⟩
  rw [takesNext, settle_whole hgoal]
  simp [whole?, push]

theorem precedes_of_within
    {depth : Nat} {phrase : Phrase} {next : Lookahead}
    (h : precedesWithin depth phrase next = true) :
    Precedes phrase next := by
  induction depth generalizing phrase with
  | zero =>
      cases h
  | succ depth ih =>
      simp only [precedesWithin, Bool.or_eq_true, Bool.and_eq_true, decide_eq_true_eq,
        List.any_eq_true] at h
      rcases h with ⟨rfl, hgoal⟩ | ⟨⟨result, rest⟩, hplace, hnext⟩
      · exact precedes_finish hgoal
      · cases rest with
        | nil =>
            simp only [Bool.and_eq_true, List.contains_iff_mem] at hnext
            exact (ih hnext.2).of_last hplace hnext.1
        | cons symbol rest =>
            cases next with
            | word terminal =>
                exact precedes_of_opening hplace (List.contains_iff_mem.1 hnext)
            | finish =>
                cases hnext

/-- What is in the follow set of a phrase comes next behind the phrase somewhere. -/
theorem precedes_of_mem_follow
    {phrase : Phrase} {next : Lookahead} (h : next ∈ phrase.follow) :
    Precedes phrase next :=
  precedes_of_within (precedesWithin_all phrase next h)

end Contexts

end Reading
end DotCascade
