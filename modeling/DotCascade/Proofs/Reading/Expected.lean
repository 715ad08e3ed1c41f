import DotCascade.Proofs.Reading.Contexts
import DotCascade.Proofs.Reading.Cut
import DotCascade.Proofs.Reading.Results
import Mathlib.Data.List.Nodup
import Mathlib.Data.List.Pairwise

/-!
# What is reported as expected

A failure lists what is expected by the state at the place, and a state stands for all
the frames that lead to it.  So the list tells of a word whether it is taken behind
some frames with that state (`mem_expected_iff_takenBehind`), and not whether it is
taken behind the frames at the place.

A word that an item of a state waits for is taken behind all frames with the state.
What a complete production lists, the follow set of its phrase, is taken behind some:
behind frames where the production may begin and all of the set may come next.  These
frames have the same state, because a production is complete in one state only.  The
node without a port is the exception and is complete in two, one for the first node
of a statement and one for the nodes behind an edge operator.

Words can be missing from a list as well.  It is made behind the productions that were
completed in front of the word that does not fit, and they could have gone on
otherwise.  The end is never listed where no word that is admitted stands.
-/

namespace DotCascade
namespace Reading

open Grammar

section Nodes

/-- A node without a port as it is complete. -/
def wholeNodeItem : Item :=
  ⟨.wholeNode, []⟩

/-- A bare word as an atom. -/
def sampleAtom : Tree (.phrase .atom) :=
  .node .identifierAtom (.cons (.leaf .identifier "a") .nil)

/-- The frames behind the opening brace of a graph. -/
def openedFrames : List Frame :=
  push .graph (.leaf .leftBrace ()) <|
    push .graph (.node .undirected (.cons (.leaf .graph ()) .nil)) []

/-- The frames behind an atom with which a statement begins. -/
def firstNodeFrames : List Frame :=
  push .graph sampleAtom openedFrames

/-- The frames behind an atom with which an endpoint of an edge begins. -/
def laterNodeFrames : List Frame :=
  push .graph sampleAtom <| push .graph (.leaf .edgeOperator ()) <|
    push .graph (.node .firstNodeRef (.cons (.node .wholeNode (.cons sampleAtom .nil)) .nil))
      openedFrames

theorem framed_firstNodeFrames :
    Framed .graph firstNodeFrames :=
  .push _ (.push _ (.push _ .nil))

theorem framed_laterNodeFrames :
    Framed .graph laterNodeFrames :=
  .push _ (.push _ (.push _ (.push _ (.push _ .nil))))

/-- Whatever may come next behind a node is taken behind both. -/
theorem takesNext_behind_node :
    ∀ next ∈ Phrase.nodeRef.follow,
      takesNext .graph firstNodeFrames next = true ∧
        takesNext .graph laterNodeFrames next = true := by
  decide +kernel

end Nodes

section States

/-- The complete productions of a state, except that of a node without a port. -/
def completed (state : State) : List Item :=
  state.filter fun item => item.rest.isEmpty && item ≠ wholeNodeItem

/-- A node without a port is complete in two states, and every other production in one at most. -/
theorem reachable_completed :
    (State.reachable.flatMap completed).Nodup ∧
      ∀ state ∈ State.reachable, wholeNodeItem ∈ state →
        state = stateBehind .graph firstNodeFrames ∨
          state = stateBehind .graph laterNodeFrames := by
  decide +kernel

/-- Any other production is complete in one state only. -/
theorem eq_of_completed
    {state state' : State} (hstate : State.Reached state) (hstate' : State.Reached state')
    {item : Item} (hitem : item ∈ state) (hitem' : item ∈ state') (hrest : item.rest = [])
    (hnode : item ≠ wholeNodeItem) :
    state = state' := by
  by_contra hne
  have : Std.Symm (Function.onFun List.Disjoint completed) :=
    ⟨fun _ _ h _ hfirst hlater => h hlater hfirst⟩
  have hdisjoint := (List.nodup_flatMap.1 reachable_completed.1).2.forall
    (State.mem_reachable hstate) (State.mem_reachable hstate') hne
  have hcompleted {other : State} (hother : item ∈ other) : item ∈ completed other :=
    List.mem_filter.2 ⟨hother, by simp [hrest, hnode]⟩
  exact hdisjoint (hcompleted hitem) (hcompleted hitem')

/-- Something is taken behind some frames that lead to a state.  The end is not taken there just
because the whole has been read already. -/
def TakenBehind (state : State) (next : Lookahead) : Prop :=
  ∃ goal frames, IsGoal goal ∧ Framed goal frames ∧ stateBehind goal frames = state ∧
    (next = .finish → whole? goal frames = none) ∧ takesNext goal frames next = true

theorem takenBehind_wholeNode
    {state : State} (hstate : State.Reached state) (hitem : wholeNodeItem ∈ state)
    {next : Lookahead} (hnext : next ∈ wholeNodeItem.result.follow) :
    TakenBehind state next := by
  have hword : next ≠ .finish := by
    rintro rfl
    exact absurd hnext (by decide)
  obtain ⟨hfirst, hlater⟩ := takesNext_behind_node next hnext
  rcases reachable_completed.2 state (State.mem_reachable hstate) hitem with heq | heq
  · exact ⟨.graph, firstNodeFrames, Or.inl rfl, framed_firstNodeFrames, heq.symm,
      fun hfinish => absurd hfinish hword, hfirst⟩
  · exact ⟨.graph, laterNodeFrames, Or.inl rfl, framed_laterNodeFrames, heq.symm,
      fun hfinish => absurd hfinish hword, hlater⟩

theorem eq_push_of_whole?
    {goal : Phrase} {frames : List Frame} (hframed : Framed goal frames)
    {tree : Tree (.phrase goal)} (h : whole? goal frames = some tree) :
    frames = push goal tree [] := by
  cases hframed with
  | nil =>
      cases h
  | @push symbol below top _ =>
      cases below with
      | cons frame below =>
          cases h
      | nil =>
          unfold whole? push at h
          simp only at h
          split at h
          case isTrue hsymbol =>
            subst hsymbol
            obtain rfl := Option.some.inj h
            rfl
          case isFalse =>
            cases h

/-- Where a production is complete, the whole has not been read. -/
theorem whole?_eq_none_of_complete?
    {goal : Phrase} (hgoal : IsGoal goal) {frames frames' : List Frame}
    (hframed : Framed goal frames) (h : complete? goal .finish frames = some frames') :
    whole? goal frames = none := by
  cases hwhole : whole? goal frames with
  | none =>
      rfl
  | some tree =>
      rw [eq_push_of_whole? hframed hwhole, complete?_whole hgoal tree] at h
      cases h

/-- Where a production is complete, all that is in the follow set of its phrase is taken. -/
theorem takenBehind_of_complete
    {state : State} (hstate : State.Reached state) {item : Item} (hitem : item ∈ state)
    (hrest : item.rest = []) {next : Lookahead} (hnext : next ∈ item.result.follow) :
    TakenBehind state next := by
  by_cases hnode : item = wholeNodeItem
  · subst hnode
    exact takenBehind_wholeNode hstate hitem hnext
  · obtain ⟨goal, frames, hgoal, hframed, hbegins, htaken⟩ := precedes_of_mem_follow hnext
    obtain ⟨forest, -⟩ := exists_forest item.symbols
    have hbegin := hbegins ⟨item.production⟩ item.production.mem_alternatives
    have hplaced := framed_pushAll forest hframed
    have hcomplete := complete?_pushAll hgoal item.production forest hframed hbegin hnext
    have hdone : item ∈ stateBehind goal (pushAll goal forest frames) := by
      have hmem := mem_stateBehind_pushAll forest hbegin (List.append_nil item.symbols).symm
      have heq : { item with rest := [] } = item := Item.ext_symbols rfl rfl hrest.symm
      exact (congrArg (· ∈ stateBehind goal (pushAll goal forest frames)) heq).mp hmem
    refine ⟨goal, pushAll goal forest frames, hgoal, hplaced,
      eq_of_completed (reached_stateBehind hgoal hplaced) hstate hdone hitem hrest hnode, ?_,
      (takesNext_congr (settle_of_some hcomplete)).trans (htaken _)⟩
    rintro rfl
    exact whole?_eq_none_of_complete? hgoal hplaced hcomplete

end States

section Lists

variable {goal : Phrase} {frames : List Frame}

theorem mem_expected_of_takesNext
    {next : Lookahead} (hwhole : next = .finish → whole? goal frames = none)
    (h : takesNext goal frames next = true) :
    next ∈ (stateBehind goal frames).expected := by
  cases next with
  | word terminal =>
      obtain ⟨value, -⟩ := exists_lexeme terminal
      obtain ⟨behind, hread⟩ := (takesNext_word_iff ⟨terminal, value⟩).1 h
      exact List.contains_iff_mem.1 (admits_of_readWord? hread)
  | finish =>
      cases hcomplete : complete? goal .finish frames with
      | none =>
          rw [takesNext, settle_of_none hcomplete, hwhole rfl] at h
          cases h
      | some frames' =>
          have hsome : (stateBehind goal frames).complete? .finish ≠ none := by
            intro hnone
            simp [complete?, hnone] at hcomplete
          rw [ne_eq, State.complete?_eq_none_iff] at hsome
          simp only [Classical.not_forall, Decidable.not_not] at hsome
          obtain ⟨item, hitem, hrest, hfinish⟩ := hsome
          exact State.mem_expected_iff.2 ⟨item, hitem, by simpa [Item.expected, hrest]⟩

/-- Behind some frames, exactly that is expected which is taken behind frames with the same
state. -/
theorem mem_expected_iff_takenBehind
    (hgoal : IsGoal goal) (hframed : Framed goal frames) (next : Lookahead) :
    next ∈ (stateBehind goal frames).expected ↔ TakenBehind (stateBehind goal frames) next := by
  constructor
  · intro h
    obtain ⟨item, hitem, hnext⟩ := State.mem_expected_iff.1 h
    unfold Item.expected at hnext
    split at hnext
    case h_1 hrest =>
      exact takenBehind_of_complete (reached_stateBehind hgoal hframed) hitem hrest hnext
    case h_2 terminal rest hrest =>
      obtain rfl := List.mem_singleton.1 hnext
      have htakes : (stateBehind goal frames).takes terminal = true :=
        State.takes_iff.2 ⟨item, hitem, by rw [hrest]; rfl⟩
      exact ⟨goal, frames, hgoal, hframed, rfl, nofun, takesNext_of_takes hgoal hframed htakes⟩
    case h_3 =>
      cases hnext
  · rintro ⟨goal', frames', -, -, hstate, hwhole, htaken⟩
    rw [← hstate]
    exact mem_expected_of_takesNext hwhole htaken

/-- What is taken when productions have been completed is taken before that as well. -/
theorem takesNext_of_completed
    (hgoal : IsGoal goal) {words : List Word} (hread : readWords? goal [] words = some frames)
    {settled : List Frame} (hframed : Framed goal settled)
    (hyield : framesYield settled = framesYield frames) {next : Lookahead}
    (h : takesNext goal settled next = true) :
    takesNext goal frames next = true := by
  have hwords : framesYield frames = words := framesYield_readWords? hread
  cases next with
  | word terminal =>
      obtain ⟨value, -⟩ := exists_lexeme terminal
      obtain ⟨behind, hbehind⟩ := (takesNext_word_iff ⟨terminal, value⟩).1 h
      -- The words and the one that is taken are the beginning of the words of a whole.
      obtain ⟨item, hitem⟩ := exists_mem_of_readWord? hbehind
      obtain ⟨forest, -⟩ := exists_forest item.rest
      obtain ⟨whole, later, hwhole, -⟩ :=
        exists_whole_of_item (framed_readWord? hframed hbehind) hitem rfl forest
      rw [framesYield_readWord? hbehind, hyield, hwords] at hwhole
      have hall := readAll?_yield hgoal whole
      rw [hwhole, readAll?, List.append_assoc, List.append_assoc, readWords?_append, hread,
        Option.bind_some] at hall
      obtain ⟨final, hfinal, -⟩ := Option.bind_eq_some_iff.1 hall
      obtain ⟨next, hnext, -⟩ := Option.bind_eq_some_iff.1 hfinal
      exact (takesNext_word_iff ⟨terminal, value⟩).2 ⟨next, hnext⟩
  | finish =>
      obtain ⟨tree, htree⟩ := Option.isSome_iff_exists.1 h
      have htreeWords := framesYield_of_whole? htree
      rw [framesYield_settle, hyield, hwords] at htreeWords
      have hall := readAll?_yield hgoal tree
      rw [← htreeWords, readAll?, hread, Option.bind_some] at hall
      rw [takesNext, hall]
      rfl

/-- Where no production is complete, all that is expected is taken. -/
theorem takesNext_of_expected
    (hgoal : IsGoal goal) (hframed : Framed goal frames)
    (hcomplete : ∀ item ∈ stateBehind goal frames, item.rest ≠ []) {next : Lookahead}
    (h : next ∈ (stateBehind goal frames).expected) :
    takesNext goal frames next = true := by
  obtain ⟨item, hitem, hnext⟩ := State.mem_expected_iff.1 h
  unfold Item.expected at hnext
  split at hnext
  case h_1 hrest =>
    exact absurd hrest (hcomplete item hitem)
  case h_2 terminal rest hrest =>
    obtain rfl := List.mem_singleton.1 hnext
    exact takesNext_of_takes hgoal hframed
      (State.takes_iff.2 ⟨item, hitem, by rw [hrest]; rfl⟩)
  case h_3 =>
    cases hnext

/-- Behind the whole, all words that are admitted are taken. -/
theorem takesNext_of_admits_whole
    (hgoal : IsGoal goal) (hframed : Framed goal frames) {tree : Tree (.phrase goal)}
    (hwhole : whole? goal frames = some tree) {terminal : Terminal}
    (h : (stateBehind goal frames).admits terminal = true) :
    takesNext goal frames (.word terminal) = true := by
  refine takesNext_of_expected hgoal hframed ?_ (List.contains_iff_mem.1 h)
  rw [eq_push_of_whole? hframed hwhole]
  show ∀ item ∈ (State.start goal).advance (.phrase goal), item.rest ≠ []
  rcases hgoal with rfl | rfl <;> decide

end Lists

section Reports

variable {goal : Phrase} {length : Nat} {place : Progress}

/-- The source does not end at a place, and no word stands there that the state admits. -/
def Misplaced (goal : Phrase) (place : Progress) : Prop :=
  skipGap place.text ≠ [] ∧
    firstWord? (fun terminal => (stateBehind goal place.frames).admits terminal)
      (skipGap place.text) = none

/-- How the list of what is expected comes about at a place where reading fails: behind which
frames, and what is listed. -/
inductive ExpectedAt (goal : Phrase) (place : Progress) : List Frame → List Lookahead → Prop
  /-- No word that is admitted stands there.  The words that are admitted are listed. -/
  | misplaced
      (hplace : Misplaced goal place) :
      ExpectedAt goal place place.frames
        ((stateBehind goal place.frames).expected.filter (· ≠ .finish))
  /-- A word stands there that is admitted and yet not taken.  What is listed counts behind the
  productions that were completed in front of it. -/
  | refused
      {terminal : Terminal} {piece : List Char}
      (hfirst : firstWord? (fun terminal => (stateBehind goal place.frames).admits terminal)
        (skipGap place.text) = some (terminal, piece))
      (hrefused : takesNext goal place.frames (.word terminal) = false) :
      ExpectedAt goal place (settle goal (.word terminal) place.frames)
        (stateBehind goal (settle goal (.word terminal) place.frames)).expected
  /-- The source ends there too early. -/
  | ended
      (hgap : skipGap place.text = []) (hrefused : takesNext goal place.frames .finish = false) :
      ExpectedAt goal place (settle goal .finish place.frames)
        (stateBehind goal (settle goal .finish place.frames)).expected

/-- What is listed at a text that does not begin with an expected word is what was expected. -/
theorem eq_of_misfit
    {listed expected : List Lookahead} {text : List Char} {offset : Nat} {found : Found}
    (h : misfit length listed text = .unexpected offset found expected) :
    listed = expected := by
  unfold misfit at h
  split at h
  case h_1 =>
    split at h
    case h_1 =>
      exact (Failure.unexpected.inj h).2.2
    case h_2 failure hfailure =>
      rw [h] at hfailure
      exact absurd hfailure (lexemeOf_ne_unexpected _ _ _)
  case h_2 =>
    split at h <;> exact (Failure.unexpected.inj h).2.2

theorem expectedAt_of_step
    {offset : Nat} {found : Found} {expected : List Lookahead}
    (h : step goal length place = .failed (.unexpected offset found expected)) :
    ∃ settled, ExpectedAt goal place settled expected := by
  unfold step at h
  split at h
  case h_1 hgap =>
    unfold finish at h
    simp only at h
    split at h
    case h_1 =>
      cases h
    case h_2 hwhole =>
      obtain rfl := (Failure.unexpected.inj (Step.failed.inj h)).2.2
      exact ⟨_, .ended hgap (by rw [takesNext, hwhole]; rfl)⟩
  case h_2 c rest htext =>
    simp only [← htext] at h
    split at h
    case h_1 terminal piece hfirst =>
      unfold take at h
      split at h
      case h_1 failure hfailure =>
        obtain rfl := Step.failed.inj h
        exact absurd hfailure (lexemeOf_ne_unexpected _ _ _)
      case h_2 value _ =>
        simp only at h
        split at h
        case isTrue =>
          cases h
        case isFalse htakes =>
          obtain rfl := (Failure.unexpected.inj (Step.failed.inj h)).2.2
          exact ⟨_, .refused hfirst (Bool.eq_false_iff.2 htakes)⟩
    case h_2 hnone =>
      obtain rfl := eq_of_misfit (Step.failed.inj h)
      exact ⟨_, .misplaced ⟨by simp [htext], hnone⟩⟩

namespace ExpectedAt

variable {settled : List Frame} {expected : List Lookahead}

theorem framed
    (h : ExpectedAt goal place settled expected) (hframed : Framed goal place.frames) :
    Framed goal settled ∧ framesYield settled = framesYield place.frames := by
  cases h with
  | misplaced =>
      exact ⟨hframed, rfl⟩
  | refused | ended =>
      exact ⟨framed_settle hframed, framesYield_settle _⟩

/-- All is listed that the state expects, except for the end where no word that is admitted stands
at the place. -/
theorem mem_iff
    (h : ExpectedAt goal place settled expected) (next : Lookahead) :
    next ∈ expected ↔
      next ∈ (stateBehind goal settled).expected ∧ ¬ (next = .finish ∧ Misplaced goal place) := by
  cases h with
  | misplaced hplace =>
      simp [List.mem_filter, hplace]
  | refused hfirst =>
      have hplace : ¬ Misplaced goal place := fun hplace => by simp [hplace.2] at hfirst
      simp [hplace]
  | ended hgap =>
      have hplace : ¬ Misplaced goal place := fun hplace => hplace.1 hgap
      simp [hplace]

/-- Where no production is complete, none is completed in front of the word. -/
theorem settled_eq
    (h : ExpectedAt goal place settled expected)
    (hcomplete : ∀ item ∈ stateBehind goal place.frames, item.rest ≠ []) :
    settled = place.frames := by
  have hnone (next : Lookahead) : complete? goal next place.frames = none := by
    have hstate : (stateBehind goal place.frames).complete? next = none :=
      State.complete?_eq_none_iff.2 fun item hitem hrest => absurd hrest (hcomplete item hitem)
    simp only [complete?, hstate]
  cases h with
  | misplaced =>
      rfl
  | refused | ended =>
      exact settle_of_none (hnone _)

/-- Where a word or the end is refused, the whole has not been read. -/
theorem whole?_eq_none
    (h : ExpectedAt goal place settled expected) (hgoal : IsGoal goal)
    (hframed : Framed goal place.frames) (hplace : ¬ Misplaced goal place)
    (hsettled : settled = place.frames) :
    whole? goal place.frames = none := by
  cases hwhole : whole? goal place.frames with
  | none =>
      rfl
  | some tree =>
      cases h with
      | misplaced hmisplaced =>
          exact absurd hmisplaced hplace
      | refused hfirst hrefused =>
          have htaken :=
            takesNext_of_admits_whole hgoal hframed hwhole (found_of_firstWord? hfirst).1
          rw [hrefused] at htaken
          cases htaken
      | ended _ hrefused =>
          rw [takesNext, hsettled, hwhole] at hrefused
          cases hrefused

end ExpectedAt

/-- What a list of expected things tells at a place where reading fails. -/
structure Expects (goal : Phrase) (place : Progress) (settled : List Frame)
    (expected : List Lookahead) : Prop where
  /-- Exactly that is listed which is taken behind some frames with the same state. -/
  mem_iff : ∀ next, next ∈ expected ↔
    TakenBehind (stateBehind goal settled) next ∧ ¬ (next = .finish ∧ Misplaced goal place)
  /-- What is taken behind the completed productions is taken at the place. -/
  taken : ∀ next, takesNext goal settled next = true → takesNext goal place.frames next = true
  /-- Where no production is complete, nothing is listed in vain. -/
  sound : (∀ item ∈ stateBehind goal settled, item.rest ≠ []) →
    ∀ next ∈ expected, takesNext goal place.frames next = true
  /-- Where no production was completed in front of the word, nothing is missing but the end. -/
  complete : settled = place.frames → ∀ next, takesNext goal place.frames next = true →
    next ∈ expected ∨ next = .finish ∧ Misplaced goal place
  /-- Where no production is complete at the place itself, exactly the words that are taken there
  are listed. -/
  exact : (∀ item ∈ stateBehind goal place.frames, item.rest ≠ []) →
    ∀ terminal, .word terminal ∈ expected ↔ takesNext goal place.frames (.word terminal) = true

theorem ExpectedAt.expects
    {settled : List Frame} {expected : List Lookahead}
    (h : ExpectedAt goal place settled expected) (hgoal : IsGoal goal) {words : List Word}
    (hread : readWords? goal [] words = some place.frames) :
    Expects goal place settled expected := by
  have hframed : Framed goal place.frames := framed_readWords? .nil hread
  obtain ⟨hsettled, hyield⟩ := h.framed hframed
  have htaken : ∀ next, takesNext goal settled next = true →
      takesNext goal place.frames next = true :=
    fun next => takesNext_of_completed hgoal hread hsettled hyield
  have hsound : (∀ item ∈ stateBehind goal settled, item.rest ≠ []) →
      ∀ next ∈ expected, takesNext goal place.frames next = true := by
    intro hcomplete next hnext
    exact htaken next (takesNext_of_expected hgoal hsettled hcomplete ((h.mem_iff next).1 hnext).1)
  have hmissing : settled = place.frames → ∀ next, takesNext goal place.frames next = true →
      next ∈ expected ∨ next = .finish ∧ Misplaced goal place := by
    intro heq next hnext
    by_cases hplace : next = .finish ∧ Misplaced goal place
    · exact Or.inr hplace
    · refine Or.inl ((h.mem_iff next).2 ⟨?_, hplace⟩)
      rw [heq]
      refine mem_expected_of_takesNext (fun hfinish => ?_) hnext
      exact h.whole?_eq_none hgoal hframed (fun hmisplaced => hplace ⟨hfinish, hmisplaced⟩) heq
  constructor
  case mem_iff =>
    intro next
    rw [h.mem_iff, mem_expected_iff_takenBehind hgoal hsettled]
  case taken =>
    exact htaken
  case sound =>
    exact hsound
  case complete =>
    exact hmissing
  case exact =>
    intro hcomplete terminal
    have heq := h.settled_eq hcomplete
    exact ⟨hsound (heq ▸ hcomplete) _, fun hnext => (hmissing heq _ hnext).resolve_right nofun⟩

end Reports

end Reading

open Grammar Reading

section Exactness

/-- Reading a source as a phrase takes some words, and at the place behind them it fails and reports
a list that tells what is expected there. -/
def ReportsExpected (goal : Phrase) (source : String) (failure : Failure)
    (expected : List Lookahead) : Prop :=
  ∃ place words settled,
    Reaches goal source.toList.length (Progress.start source.toList) place ∧
      readWords? goal [] words = some place.frames ∧
      step goal source.toList.length place = .failed failure ∧
      ExpectedAt goal place settled expected ∧ Expects goal place settled expected

variable {offset : Nat} {found : Found} {expected : List Lookahead}

theorem reportsExpected_of_read
    {goal : Phrase} (hgoal : IsGoal goal) {source : String}
    (h : Reading.read goal source.toList = .error (.unexpected offset found expected)) :
    ReportsExpected goal source (.unexpected offset found expected) expected := by
  obtain ⟨place, hplace, hstep⟩ := exists_reaches_of_error (run_of_read h)
  obtain ⟨-, words, -, hwords, -⟩ := hplace.exists_front
  obtain ⟨settled, hexpected⟩ := expectedAt_of_step hstep
  exact ⟨place, words, settled, hplace, hwords, hstep, hexpected, hexpected.expects hgoal hwords⟩

/-- What is reported as expected is what is taken behind some frames with the same state, and all of
it is taken at the place, with no word missing, where no production is complete. -/
theorem parse_expected
    (source : String) (offset : Nat) (found : Found) (expected : List Lookahead) :
    (Graph.read source.toList = .error (.unexpected offset found expected) →
      ReportsExpected .graph source (.unexpected offset found expected) expected) ∧
    (Stylesheet.read source.toList = .error (.unexpected offset found expected) →
      ReportsExpected .rules source (.unexpected offset found expected) expected) :=
  ⟨fun h => reportsExpected_of_read (Or.inl rfl) (Graph.read_of_error h),
    fun h => reportsExpected_of_read (Or.inr rfl) (Stylesheet.read_of_error h)⟩

/-- Behind `graph` in a body one word is expected, and behind an opening brace there are several. -/
theorem parse_expected_opened :
    (Graph.read "graph\x7bgraph /* a".toList =
        .error (.unexpected 12 (.character '/') [.word .leftBracket]) ∧
      ReportsExpected .graph "graph\x7bgraph /* a"
        (.unexpected 12 (.character '/') [.word .leftBracket]) [.word .leftBracket]) ∧
    (Stylesheet.read "node \x7b+".toList =
        .error (.unexpected 6 (.piece ['+'])
          [.word .rightBrace, .word .identifier, .word .markup, .word .number, .word .string]) ∧
      ReportsExpected .rules "node \x7b+"
        (.unexpected 6 (.piece ['+'])
          [.word .rightBrace, .word .identifier, .word .markup, .word .number, .word .string])
        [.word .rightBrace, .word .identifier, .word .markup, .word .number, .word .string]) := by
  have hgraph :
      Graph.read "graph\x7bgraph /* a".toList =
        .error (.unexpected 12 (.character '/') [.word .leftBracket]) := by
    decide +kernel
  have hstylesheet :
      Stylesheet.read "node \x7b+".toList =
        .error (.unexpected 6 (.piece ['+'])
          [.word .rightBrace, .word .identifier, .word .markup, .word .number, .word .string]) := by
    decide +kernel
  exact ⟨⟨hgraph, (parse_expected _ _ _ _).1 hgraph⟩,
    hstylesheet, (parse_expected _ _ _ _).2 hstylesheet⟩

/-- Behind the name of a property all that may stand behind an atom anywhere is listed, though only
a colon is taken.  And behind a text that a bracket follows no plus is listed, though it is taken:
the bracket has completed the text. -/
theorem not_expected_exact :
    (Stylesheet.read "node\x7ba^".toList =
        .error (.unexpected 6 (.character '^')
          ([.comma, .edgeOperator, .colon, .semicolon, .equals, .leftBracket, .rightBracket, .edge,
            .graph, .node, .subgraph, .leftBrace, .rightBrace, .identifier, .markup, .number,
            .string].map .word)) ∧
      (readWords? .rules [] [⟨.node, ()⟩, ⟨.leftBrace, ()⟩, ⟨.identifier, "a"⟩]).map
          (fun frames => Terminal.all.filter fun kind => takesNext .rules frames (.word kind)) =
        some [.colon]) ∧
    (Graph.read "graph\x7b\"a\"]".toList =
        .error (.unexpected 9 (.piece [']'])
          ([.comma, .edgeOperator, .colon, .semicolon, .equals, .leftBracket, .edge, .graph,
            .node, .subgraph, .leftBrace, .rightBrace, .identifier, .markup, .number,
            .string].map .word)) ∧
      (readWords? .graph [] [⟨.graph, ()⟩, ⟨.leftBrace, ()⟩, ⟨.string, "a"⟩]).map
          (fun frames => takesNext .graph frames (.word .plus)) =
        some true) := by
  decide +kernel

end Exactness

end DotCascade
