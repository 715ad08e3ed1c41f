import DotCascade.Proofs.Reading.Scans

/-!
# Words separated by spaces

A row of words, each spelled and put behind a space, is read word by word as it
is meant (`read_eq_ok_iff`).  What could go wrong is that a keyword is found at the
front of a bare word, where bare words are not admitted.  The word for a strict
graph and the word for a directed one are admitted only at the beginning, so the
first two words must not begin with them.  The word for subgraphs is admitted only
beside bare words.  And behind any other keyword that is found in front of more
letters nothing is admitted that begins with a letter or a digit, so that reading
fails at the next step.
-/

namespace DotCascade
namespace Reading

open Grammar

section Begun

variable {goal : Phrase} {frames : List Frame}

/-- Neither of the words with which only a graph begins is admitted. -/
def Begun (goal : Phrase) (frames : List Frame) : Prop :=
  (stateBehind goal frames).admits .strict = false ∧
    (stateBehind goal frames).admits .digraph = false

/-- Neither word begins a stylesheet. -/
theorem begun_rules :
    Begun .rules [] := by
  unfold Begun
  decide

/-- The word that makes a graph strict is not read once a graph has begun. -/
theorem ne_strict_of_begun
    (hbegun : Begun goal frames) {terminal : Terminal}
    (hadmitted : (stateBehind goal frames).admits terminal = true) :
    terminal ≠ .strict := by
  rintro rfl
  rw [hbegun.1] at hadmitted
  cases hadmitted

/-- Behind anything but the word for a strict graph, a graph has begun. -/
theorem begun_push
    (hgoal : IsGoal goal) (hframed : Framed goal frames)
    {symbol : Symbol} (hsymbol : symbol ≠ .word .strict) (tree : Tree symbol) :
    Begun goal (push goal tree frames) := by
  have hreached := State.mem_reachable (reached_stateBehind hgoal hframed)
  have hstate :
      stateBehind goal (push goal tree frames) = (stateBehind goal frames).advance symbol := rfl
  unfold Begun
  rw [hstate]
  by_cases hawaited : symbol ∈ (stateBehind goal frames).awaited
  · have hcontinuing := (State.checked_of_mem hreached).2.2 symbol hawaited
    simp only [State.continuing, Bool.and_eq_true, Bool.or_eq_true, Bool.not_eq_true',
      decide_eq_true_eq] at hcontinuing
    exact ⟨hcontinuing.1.2, hcontinuing.2.resolve_right hsymbol⟩
  · rw [State.advance_eq_nil hawaited]
    exact ⟨by decide, by decide⟩

theorem begun_settle
    (hgoal : IsGoal goal) (hframed : Framed goal frames) (h : Begun goal frames)
    (next : Lookahead) :
    Begun goal (settle goal next frames) := by
  have hboth : Framed goal (settle goal next frames) ∧ Begun goal (settle goal next frames) := by
    refine settle_induction (motive := fun frames => Framed goal frames ∧ Begun goal frames)
      (fun hbefore hcomplete => ?_) ⟨hframed, h⟩
    obtain ⟨item, children, below, hpop, rfl⟩ := exists_push_of_complete? hcomplete
    have hbelow := framed_below hbefore.1 hpop
    have hsymbol : Symbol.phrase item.result ≠ .word .strict := by simp
    exact ⟨.push _ hbelow, begun_push hgoal hbelow hsymbol _⟩
  exact hboth.2

theorem begun_readWord?
    (hgoal : IsGoal goal) (hframed : Framed goal frames)
    {behind : List Frame} {word : Word} (hword : word.terminal ≠ .strict)
    (h : readWord? goal frames word = some behind) :
    Begun goal behind := by
  simp only [readWord?] at h
  split at h
  case isFalse =>
    simp at h
  case isTrue =>
    obtain rfl := Option.some.inj h
    refine begun_push hgoal (framed_settle hframed) ?_ _
    intro hsymbol
    exact hword (Symbol.word.inj hsymbol)

end Begun

section Fronts

/-- A text that begins with some letters and is cut where no letter follows begins with them in
its first part. -/
theorem prefix_of_prefix_append
    {letters piece rest : List Char} (hletters : ∀ c ∈ letters, Text.isWordPart c = true)
    (hrest : Detached rest) (h : letters <+: piece ++ rest) :
    letters <+: piece := by
  induction piece generalizing letters with
  | nil =>
      cases letters with
      | nil =>
          exact List.prefix_refl _
      | cons c letters =>
          obtain ⟨behind, hbehind⟩ := h
          have hhead := hrest c (by rw [List.nil_append] at hbehind; simp [← hbehind])
          rw [hletters c List.mem_cons_self] at hhead
          exact absurd hhead.1 (by decide)
  | cons d piece ih =>
      cases letters with
      | nil =>
          exact List.nil_prefix
      | cons c letters =>
          rw [List.cons_append, List.cons_prefix_cons] at h
          rw [List.forall_mem_cons] at hletters
          rw [List.cons_prefix_cons]
          exact ⟨h.1, ih hletters.2 h.2⟩

theorem letters_of_keyword
    {keyword : Terminal} (hkeyword : keyword ∈ letterKinds) :
    ∀ c ∈ (fixedSpelling keyword).toList, Text.isWordPart c = true := by
  rw [← List.all_eq_true]
  revert hkeyword
  cases keyword <;> decide

/-- What is found at the front of a bare word, if not the bare word itself, is a keyword with which
the bare word begins. -/
theorem keyword_of_piece?
    {terminal : Terminal} {name rest piece : List Char} (hname : IsName name)
    (hrest : Detached rest) (hterminal : terminal ≠ .identifier)
    (h : piece? terminal (name ++ rest) = some piece) :
    terminal ∈ letterKinds ∧ piece = (fixedSpelling terminal).toList ∧ piece <+: name := by
  have hkinds := mem_kindsAt h
  obtain ⟨first, later, rfl, hfirst, hlater⟩ := hname
  rw [List.cons_append, kindsAt_of_isWordStart hfirst] at hkinds
  have hspelled := eq_of_piece?_keyword hkinds hterminal h
  refine ⟨hkinds, hspelled.1, prefix_of_prefix_append ?_ hrest hspelled.2⟩
  rw [hspelled.1]
  exact letters_of_keyword hkinds

end Fronts

section Steps

variable {goal : Phrase} {length : Nat} {frames : List Frame} {last text : List Char}

/-- Reading fails where no word is found. -/
theorem run_ne_ok_of_none
    (htext : skipGap text ≠ [])
    (hnone : firstWord? (fun terminal => (stateBehind goal frames).admits terminal)
      (skipGap text) = none)
    (tree : Tree (.phrase goal)) :
    Progress.run goal length ⟨frames, last, text⟩ ≠ .ok tree := by
  intro h
  rcases cases_of_run h with ⟨hempty, -⟩ | ⟨word, piece, behind, hfirst, -⟩
  · exact htext hempty
  · rw [hnone] at hfirst
    cases hfirst

/-- If reading succeeds, the word that is found first has been read. -/
theorem exists_readWord?_of_run
    (word : Word) {piece rest : List Char} {tree : Tree (.phrase goal)}
    (htext : skipGap text = piece ++ rest)
    (hfirst : firstWord? (fun terminal => (stateBehind goal frames).admits terminal)
      (piece ++ rest) = some (word.terminal, piece))
    (htells : lexeme word.terminal piece = .ok word.lexeme)
    (h : Progress.run goal length ⟨frames, last, text⟩ = .ok tree) :
    ∃ behind last', readWord? goal frames word = some behind ∧
      Progress.run goal length ⟨behind, last', rest⟩ = .ok tree := by
  rcases cases_of_run h with ⟨hempty, -⟩ | ⟨other, found, behind, hfound, hvalue, hread, hrun⟩
  · rw [htext] at hempty
    exact absurd (List.append_eq_nil_iff.1 hempty).1 (piece_ne_nil_of_firstWord? hfirst)
  · obtain ⟨terminal, value⟩ := other
    simp only [htext, hfirst, Option.some.injEq, Prod.mk.injEq] at hfound
    obtain ⟨rfl, rfl⟩ := hfound
    rw [htells] at hvalue
    obtain rfl := Except.ok.inj hvalue
    simp only [htext, List.drop_left] at hrun
    exact ⟨behind, _, hread, hrun⟩

theorem mem_lettered_of_isWordPart
    {c : Char} (hc : Text.isWordPart c = true) {rest : List Char} {terminal : Terminal}
    (h : terminal ∈ kindsAt (c :: rest)) :
    terminal ∈ State.lettered := by
  simp only [Text.isWordPart, Bool.or_eq_true] at hc
  rcases hc with hstart | hdigit
  · rw [kindsAt_of_isWordStart hstart] at h
    revert h
    cases terminal <;> decide
  · rw [kindsAt_of_isDigit hdigit, List.mem_singleton] at h
    rw [h]
    decide

theorem kindsAt_ne_nil_of_isWordPart
    {c : Char} (hc : Text.isWordPart c = true) {rest : List Char} :
    kindsAt (c :: rest) ≠ [] := by
  simp only [Text.isWordPart, Bool.or_eq_true] at hc
  rcases hc with hstart | hdigit
  · rw [kindsAt_of_isWordStart hstart]
    decide
  · rw [kindsAt_of_isDigit hdigit]
    decide

/-- Reading fails behind a keyword that is found in front of more letters. -/
theorem run_ne_ok_of_keyword
    (hgoal : IsGoal goal) (hframed : Framed goal frames) {keyword : Terminal}
    (hkeyword : keyword ∈ [Terminal.node, .edge, .graph])
    (hdigraph :
      (stateBehind goal (settle goal (.word keyword) frames)).admits .digraph = false)
    {piece rest : List Char} {c : Char} (hc : Text.isWordPart c = true)
    (htext : skipGap text = piece ++ c :: rest)
    (hfirst : firstWord? (fun terminal => (stateBehind goal frames).admits terminal)
      (piece ++ c :: rest) = some (keyword, piece))
    (tree : Tree (.phrase goal)) :
    Progress.run goal length ⟨frames, last, text⟩ ≠ .ok tree := by
  intro h
  have hunit : ∃ lexeme : keyword.Lexeme, Reading.lexeme keyword piece = .ok lexeme := by
    simp only [List.mem_cons, List.not_mem_nil, or_false] at hkeyword
    rcases hkeyword with rfl | rfl | rfl <;> exact ⟨(), rfl⟩
  obtain ⟨lexeme, htells⟩ := hunit
  obtain ⟨behind, last', hread, hrun⟩ :=
    exists_readWord?_of_run ⟨keyword, lexeme⟩ htext hfirst htells h
  have hstate :
      stateBehind goal behind =
        (stateBehind goal (settle goal (.word keyword) frames)).advance (.word keyword) := by
    simp only [readWord?] at hread
    split at hread
    case isFalse =>
      simp at hread
    case isTrue =>
      rw [← Option.some.inj hread]
      rfl
  have hsettled : Framed goal (settle goal (.word keyword) frames) := framed_settle hframed
  have hreached := reached_stateBehind hgoal hsettled
  have hseparating := (State.checked_of_mem (State.mem_reachable hreached)).2.1
  simp only [State.separating, Bool.and_eq_true, List.all_eq_true, hdigraph, Bool.false_or,
    Bool.not_eq_true'] at hseparating
  have hnothing := hseparating.2 keyword hkeyword
  have hrest : skipGap (c :: rest) = c :: rest :=
    skipGap_eq_self (kindsAt_ne_nil_of_isWordPart hc)
  refine run_ne_ok_of_none (by simp [hrest]) ?_ tree hrun
  rw [hrest, firstWord?, List.findSome?_eq_none_iff]
  intro terminal hterminal
  rw [List.mem_filter, hstate] at hterminal
  cases hpiece : piece? terminal (c :: rest) with
  | none =>
      rfl
  | some found =>
      have hlettered := mem_lettered_of_isWordPart hc (mem_kindsAt hpiece)
      rw [hnothing terminal hlettered] at hterminal
      exact absurd hterminal.2 (by decide)

/-- No keyword is admitted with which a bare word begins, but for those behind which more letters
make reading fail. -/
def Unmistakable (goal : Phrase) (frames : List Frame) (name : List Char) : Prop :=
  ∀ keyword ∈ letterKinds, keyword ≠ .identifier →
    (stateBehind goal frames).admits keyword = true →
    (fixedSpelling keyword).toList <+: name →
      keyword ∈ [Terminal.node, .edge, .graph] ∧
        (stateBehind goal (settle goal (.word keyword) frames)).admits .digraph = false

/-- Once a graph has begun, no bare word is mistaken for a keyword. -/
theorem unmistakable_of_begun
    (hgoal : IsGoal goal) (hframed : Framed goal frames) (hbegun : Begun goal frames)
    (hidentifier : (stateBehind goal frames).admits .identifier = false) (name : List Char) :
    Unmistakable goal frames name := by
  intro keyword hkeyword hne hadmitted _
  have hreached := State.mem_reachable (reached_stateBehind hgoal hframed)
  have hseparating := (State.checked_of_mem hreached).2.1
  simp only [State.separating, Bool.and_eq_true, hidentifier, Bool.false_or,
    Bool.not_eq_true'] at hseparating
  have hlater := (begun_settle hgoal hframed hbegun (.word keyword)).2
  cases keyword with
  | identifier =>
      exact absurd rfl hne
  | subgraph =>
      rw [hseparating.1.1] at hadmitted
      cases hadmitted
  | digraph =>
      rw [hbegun.2] at hadmitted
      cases hadmitted
  | strict =>
      rw [hbegun.1] at hadmitted
      cases hadmitted
  | graph | edge | node =>
      exact ⟨by decide, hlater⟩
  | _ =>
      exact absurd hkeyword (by decide)

theorem mem_keywords
    {keyword : Terminal} (hkeyword : keyword ∈ [Terminal.node, .edge, .graph]) :
    fixedSpelling keyword ∈ keywords := by
  revert hkeyword
  cases keyword <;> decide

/-- Reading fails where a bare word stands that is not admitted. -/
theorem run_ne_ok_of_name
    (hgoal : IsGoal goal) (hframed : Framed goal frames)
    {terminal : Terminal} {name front rest : List Char} (hspelling : Spelling .identifier name)
    (hrest : Detached rest) (hnone : (stateBehind goal frames).admits .identifier = false)
    (hname : Unmistakable goal frames name) (htext : skipGap text = name ++ rest)
    (hadmitted : (stateBehind goal frames).admits terminal = true)
    (hpiece : piece? terminal (name ++ rest) = some front)
    (hfirst : firstWord? (fun terminal => (stateBehind goal frames).admits terminal)
      (name ++ rest) = some (terminal, front))
    (tree : Tree (.phrase goal)) :
    Progress.run goal length ⟨frames, last, text⟩ ≠ .ok tree := by
  obtain ⟨hletters, hkeyword⟩ := hspelling
  have hne : terminal ≠ .identifier := by
    rintro rfl
    rw [hnone] at hadmitted
    cases hadmitted
  obtain ⟨hkind, rfl, hfront⟩ := keyword_of_piece? hletters hrest hne hpiece
  obtain ⟨hopens, hdigraph⟩ := hname terminal hkind hne hadmitted hfront
  obtain ⟨more, rfl⟩ := hfront
  cases more with
  | nil =>
      rw [List.append_nil, String.ofList_toList] at hkeyword
      exact absurd (mem_keywords hopens) hkeyword
  | cons c more =>
      have hc := isWordPart_of_mem_name hletters c (by simp)
      rw [List.append_assoc, List.cons_append] at htext hfirst
      exact run_ne_ok_of_keyword hgoal hframed hopens hdigraph hc htext hfirst tree

/-- If reading succeeds, the word that the text begins with has been read. -/
theorem readWord?_of_run
    (hgoal : IsGoal goal) (hframed : Framed goal frames)
    {word : Word} {piece rest : List Char} {tree : Tree (.phrase goal)}
    (hspelling : Spelling word.terminal piece)
    (htells : lexeme word.terminal piece = .ok word.lexeme) (hrest : Detached rest)
    (hstrict : word.terminal = .strict → (stateBehind goal frames).admits .identifier = false)
    (hname : word.terminal = .identifier →
      (stateBehind goal frames).admits .identifier = false → Unmistakable goal frames piece)
    (htext : skipGap text = piece ++ rest)
    (h : Progress.run goal length ⟨frames, last, text⟩ = .ok tree) :
    ∃ behind last', readWord? goal frames word = some behind ∧
      Progress.run goal length ⟨behind, last', rest⟩ = .ok tree := by
  have hstands : Stands word piece rest := stands_of_spelling hspelling (Or.inr hrest) htells
  cases hfirst : firstWord? (fun terminal => (stateBehind goal frames).admits terminal)
      (piece ++ rest) with
  | none =>
      have hfilled : skipGap text ≠ [] := by
        rw [htext]
        exact List.append_ne_nil_of_left_ne_nil (piece?_ne_nil hstands.found) rest
      exact absurd h (run_ne_ok_of_none hfilled (htext ▸ hfirst) tree)
  | some found =>
      obtain ⟨terminal, front⟩ := found
      obtain ⟨hadmitted, hpiece⟩ := found_of_firstWord? hfirst
      rcases hstands.alone terminal (by simp [hpiece]) with rfl | hidentifier | ⟨heqStrict, rfl⟩
      · rw [hstands.found] at hpiece
        obtain rfl := Option.some.inj hpiece
        exact exists_readWord?_of_run word htext hfirst htells h
      · by_cases hadmits : (stateBehind goal frames).admits .identifier = true
        · have hexact :
              firstWord? (fun terminal => (stateBehind goal frames).admits terminal)
                (piece ++ rest) = some (word.terminal, piece) :=
            firstWord?_of_stands hstands (hidentifier ▸ hadmits) hstrict
          exact exists_readWord?_of_run word htext hexact htells h
        · rw [Bool.not_eq_true] at hadmits
          rw [hidentifier] at hspelling
          exact absurd h (run_ne_ok_of_name hgoal hframed hspelling hrest hadmits
            (hname hidentifier hadmits) htext hadmitted hpiece hfirst tree)
      · rw [hstrict heqStrict] at hadmitted
        cases hadmitted

end Steps

section Rows

/-- A word as it is spelled.  The word for a strict graph is spelled as a bare word. -/
structure SpelledWord where
  word : Word
  piece : List Char
  spelling : Spelling word.terminal piece
  tells : lexeme word.terminal piece = .ok word.lexeme
  plain : word.terminal ≠ .strict

/-- The text of some words with a space between any two. -/
def spaced (words : List SpelledWord) : List Char :=
  List.intercalate [' '] (words.map SpelledWord.piece)

/-- The word for a strict graph if a word is spelled like it, and otherwise the word itself. -/
def SpelledWord.asFirst (first : SpelledWord) : Word :=
  if first.piece = (fixedSpelling .strict).toList then ⟨.strict, ()⟩ else first.word

/-- The words as they count: only the first one may be the word for a strict graph. -/
def counted : List SpelledWord → List Word
  | [] => []
  | first :: later => first.asFirst :: later.map SpelledWord.word

/-- None of the first two words is a bare word that begins with a word with which a graph begins,
unless it is the word for a strict graph. -/
def HasClearFront (words : List SpelledWord) : Prop :=
  ∀ spelled ∈ words.take 2, spelled.word.terminal = .identifier →
    spelled.piece ≠ (fixedSpelling .strict).toList →
    ∀ keyword ∈ [Terminal.strict, .graph, .digraph],
      ¬ (fixedSpelling keyword).toList <+: spelled.piece

/-- The text of words that come later, each behind a space. -/
def behindSpaces (words : List SpelledWord) : List Char :=
  words.flatMap fun spelled => ' ' :: spelled.piece

theorem spaced_cons
    (first : SpelledWord) (later : List SpelledWord) :
    spaced (first :: later) = first.piece ++ behindSpaces later := by
  induction later generalizing first with
  | nil =>
      simp [spaced, behindSpaces]
  | cons next later ih =>
      have hnext := ih next
      rw [spaced, List.map_cons] at hnext
      rw [spaced, List.map_cons, List.map_cons, List.intercalate_cons_cons, hnext]
      simp [behindSpaces]

theorem detached_behindSpaces
    (words : List SpelledWord) :
    Detached (behindSpaces words) := by
  cases words with
  | nil =>
      exact nofun
  | cons first later =>
      exact detached_cons (by decide) (by decide)

theorem skipGap_behindSpaces
    (first : SpelledWord) (later : List SpelledWord) :
    skipGap (behindSpaces (first :: later)) = first.piece ++ behindSpaces later := by
  have hstands : Stands first.word first.piece (behindSpaces later) :=
    stands_of_spelling first.spelling (Or.inr (detached_behindSpaces later)) first.tells
  have htext :
      behindSpaces (first :: later) = ' ' :: (first.piece ++ behindSpaces later) := rfl
  rw [htext, skipGap]
  · rw [if_pos (by decide)]
    exact hstands.skipGap_eq
  all_goals
    rintro behind heq
    cases heq

variable {goal : Phrase} {length : Nat} {frames : List Frame} {last text : List Char}

theorem whole?_of_run
    {tree : Tree (.phrase goal)} (htext : skipGap text = [])
    (h : Progress.run goal length ⟨frames, last, text⟩ = .ok tree) :
    whole? goal (settle goal .finish frames) = some tree := by
  rcases cases_of_run h with ⟨-, hwhole⟩ | ⟨word, piece, behind, hfirst, -⟩
  · exact hwhole
  · exact absurd htext (ne_nil_of_piece? (piece?_of_firstWord? hfirst))

/-- If reading succeeds once a graph has begun, all words have been read. -/
theorem readWords?_of_run
    (hgoal : IsGoal goal) (hframed : Framed goal frames) (hbegun : Begun goal frames)
    {tree : Tree (.phrase goal)} (words : List SpelledWord)
    (htext : skipGap text = skipGap (behindSpaces words))
    (h : Progress.run goal length ⟨frames, last, text⟩ = .ok tree) :
    ∃ final, readWords? goal frames (words.map SpelledWord.word) = some final ∧
      whole? goal (settle goal .finish final) = some tree := by
  induction words generalizing frames last text with
  | nil =>
      have hempty : skipGap text = [] := by
        rw [htext]
        simp [behindSpaces, skipGap]
      exact ⟨frames, rfl, whole?_of_run hempty h⟩
  | cons first later ih =>
      rw [skipGap_behindSpaces] at htext
      obtain ⟨behind, last', hread, hrun⟩ :=
        readWord?_of_run hgoal hframed first.spelling first.tells (detached_behindSpaces later)
          (fun hstrict => absurd hstrict first.plain)
          (fun _ hnone => unmistakable_of_begun hgoal hframed hbegun hnone first.piece) htext h
      obtain ⟨final, hwords, hwhole⟩ :=
        ih (framed_readWord? hframed hread) (begun_readWord? hgoal hframed first.plain hread) rfl
          hrun
      refine ⟨final, ?_, hwhole⟩
      rw [List.map_cons, readWords?, hread]
      exact hwords

end Rows

section Beginnings

variable {goal : Phrase}

theorem settle_nil
    (hgoal : IsGoal goal) (next : Lookahead) :
    settle goal next [] = [] := by
  have hstart : ∀ item ∈ State.start goal, item.rest ≠ [] := by
    rcases hgoal with rfl | rfl <;> decide
  have hnone : (State.start goal).complete? next = none := by
    rw [State.complete?_eq_none_iff]
    intro item hitem hrest
    exact absurd hrest (hstart item hitem)
  refine settle_of_none ?_
  simp only [complete?, stateBehind, hnone]

/-- The keywords that are admitted at the beginning. -/
theorem keywords_at_start
    (hgoal : IsGoal goal) :
    ∀ keyword ∈ letterKinds, (State.start goal).admits keyword = true →
      keyword ∈ [Terminal.strict, .graph, .digraph] ∨
        keyword ∈ [Terminal.node, .edge, .graph] ∧ (State.start goal).admits .digraph = false := by
  rcases hgoal with rfl | rfl <;> decide

/-- The keywords that are admitted behind the word for a strict graph. -/
theorem keywords_behind_strict :
    ∀ keyword ∈ letterKinds,
      ((State.start .graph).advance (.word .strict)).admits keyword = true →
        keyword ∈ [Terminal.graph, .digraph] := by
  decide

theorem identifier_not_at_start
    (hgoal : IsGoal goal) :
    (State.start goal).admits .identifier = false := by
  rcases hgoal with rfl | rfl <;> decide

theorem strict_taken_at_start
    (hgoal : IsGoal goal) (h : (State.start goal).takes .strict = true) :
    goal = .graph := by
  rcases hgoal with rfl | rfl
  · rfl
  · exact absurd h (by decide)

variable {first : SpelledWord} {later : List SpelledWord}

theorem asFirst_of_strict
    (h : first.piece = (fixedSpelling .strict).toList) :
    first.asFirst = ⟨.strict, ()⟩ :=
  if_pos h

theorem asFirst_of_ne
    (h : first.piece ≠ (fixedSpelling .strict).toList) :
    first.asFirst = first.word :=
  if_neg h

theorem spelling_asFirst
    (first : SpelledWord) :
    Spelling first.asFirst.terminal first.piece ∧
      lexeme first.asFirst.terminal first.piece = .ok first.asFirst.lexeme := by
  by_cases h : first.piece = (fixedSpelling .strict).toList
  · rw [asFirst_of_strict h]
    exact ⟨h, rfl⟩
  · rw [asFirst_of_ne h]
    exact ⟨first.spelling, first.tells⟩

theorem stands_asFirst
    (first : SpelledWord) (later : List SpelledWord) :
    Stands first.asFirst first.piece (behindSpaces later) :=
  stands_of_spelling (spelling_asFirst first).1 (Or.inr (detached_behindSpaces later))
    (spelling_asFirst first).2

theorem skipGap_spaced
    (first : SpelledWord) (later : List SpelledWord) :
    skipGap (spaced (first :: later)) = first.piece ++ behindSpaces later := by
  rw [spaced_cons]
  exact (stands_asFirst first later).skipGap_eq

theorem skipGap_spaced_ne_nil
    (first : SpelledWord) (later : List SpelledWord) :
    skipGap (spaced (first :: later)) ≠ [] := by
  rw [skipGap_spaced]
  exact List.append_ne_nil_of_left_ne_nil (piece?_ne_nil (stands_asFirst first later).found) _

/-- At the beginning no bare word is mistaken for a keyword. -/
theorem unmistakable_at_start
    (hgoal : IsGoal goal) (hclear : HasClearFront (first :: later))
    (hname : first.asFirst.terminal = .identifier) :
    Unmistakable goal [] first.piece := by
  have hne : first.piece ≠ (fixedSpelling .strict).toList := by
    intro h
    rw [asFirst_of_strict h] at hname
    cases hname
  rw [asFirst_of_ne hne] at hname
  have hfront := hclear first (by simp) hname hne
  intro keyword hkeyword _ hadmitted hprefix
  rcases keywords_at_start hgoal keyword hkeyword hadmitted with hopens | ⟨hopens, hdigraph⟩
  · exact absurd hprefix (hfront keyword hopens)
  · rw [settle_nil hgoal]
    exact ⟨hopens, hdigraph⟩

theorem eq_push_of_strict
    (hgoal : IsGoal goal) {behind : List Frame}
    (h : readWord? goal [] ⟨.strict, ()⟩ = some behind) :
    goal = .graph ∧ behind = push goal (.leaf .strict ()) [] := by
  simp only [readWord?, settle_nil hgoal] at h
  split at h
  case isFalse =>
    simp at h
  case isTrue htakes =>
    exact ⟨strict_taken_at_start hgoal htakes, (Option.some.inj h).symm⟩

/-- Behind the word for a strict graph no bare word is mistaken for a keyword. -/
theorem unmistakable_behind_strict
    {name : List Char}
    (hclear : name ≠ (fixedSpelling .strict).toList →
      ∀ keyword ∈ [Terminal.strict, .graph, .digraph],
        ¬ (fixedSpelling keyword).toList <+: name) :
    Unmistakable .graph (push .graph (.leaf .strict ()) []) name := by
  intro keyword hkeyword _ hadmitted hprefix
  have hopens := keywords_behind_strict keyword hkeyword hadmitted
  by_cases hname : name = (fixedSpelling .strict).toList
  · rw [hname] at hprefix
    simp only [List.mem_cons, List.not_mem_nil, or_false] at hopens
    rcases hopens with rfl | rfl
    · exact absurd hprefix (by decide)
    · exact absurd hprefix (by decide)
  · exact absurd hprefix (hclear hname keyword (List.mem_cons_of_mem _ hopens))

/-- If reading succeeds behind the word for a strict graph, all words have been read. -/
theorem readWords?_of_run_behind_strict
    {length : Nat} {last : List Char} {tree : Tree (.phrase .graph)}
    (hclear : HasClearFront (first :: later))
    (h : Progress.run .graph length
      ⟨push .graph (.leaf .strict ()) [], last, behindSpaces later⟩ = .ok tree) :
    ∃ final,
      readWords? .graph (push .graph (.leaf .strict ()) []) (later.map SpelledWord.word) =
          some final ∧
        whole? .graph (settle .graph .finish final) = some tree := by
  have hgoal : IsGoal .graph := Or.inl rfl
  have hframed : Framed .graph (push .graph (.leaf .strict ()) []) := .push _ .nil
  cases later with
  | nil =>
      have hempty : skipGap (behindSpaces []) = [] := by
        simp [behindSpaces, skipGap]
      exact ⟨_, rfl, whole?_of_run hempty h⟩
  | cons second rest =>
      obtain ⟨behind, last', hread, hrun⟩ :=
        readWord?_of_run hgoal hframed second.spelling second.tells (detached_behindSpaces rest)
          (fun hstrict => absurd hstrict second.plain)
          (fun hname _ => unmistakable_behind_strict (hclear second (by simp) hname))
          (skipGap_behindSpaces second rest) h
      have hbegun := begun_readWord? hgoal hframed second.plain hread
      obtain ⟨final, hwords, hwhole⟩ :=
        readWords?_of_run hgoal (framed_readWord? hframed hread) hbegun rest rfl hrun
      refine ⟨final, ?_, hwhole⟩
      rw [List.map_cons, readWords?, hread]
      exact hwords

/-- If reading a row of words succeeds, the words have been read as they count. -/
theorem readAll?_of_read
    (hgoal : IsGoal goal) {words : List SpelledWord} (hclear : HasClearFront words)
    {tree : Tree (.phrase goal)} (h : read goal (spaced words) = .ok tree) :
    readAll? goal (counted words) = some tree := by
  rw [read_eq_run, Progress.start] at h
  cases words with
  | nil =>
      have hempty : skipGap (spaced []) = [] := by
        simp [spaced, skipGap]
      exact whole?_of_run hempty h
  | cons first later =>
      obtain ⟨hspelling, htells⟩ := spelling_asFirst first
      have hdetached := detached_behindSpaces later
      have htext := skipGap_spaced first later
      obtain ⟨behind, last, hread, hrun⟩ :=
        readWord?_of_run hgoal .nil hspelling htells hdetached
          (fun _ => identifier_not_at_start hgoal)
          (fun hname _ => unmistakable_at_start hgoal hclear hname) htext h
      have hframed := framed_readWord? .nil hread
      suffices hlater : ∃ final,
          readWords? goal behind (later.map SpelledWord.word) = some final ∧
            whole? goal (settle goal .finish final) = some tree by
        obtain ⟨final, hwords, hwhole⟩ := hlater
        simp only [readAll?, counted, readWords?, hread, Option.bind_some, hwords, hwhole]
      by_cases hstrict : first.piece = (fixedSpelling .strict).toList
      · rw [asFirst_of_strict hstrict] at hread
        obtain ⟨rfl, rfl⟩ := eq_push_of_strict hgoal hread
        exact readWords?_of_run_behind_strict hclear hrun
      · rw [asFirst_of_ne hstrict] at hread
        have hbegun := begun_readWord? hgoal .nil first.plain hread
        exact readWords?_of_run hgoal hframed hbegun later rfl hrun

theorem scans_behindSpaces
    (words : List SpelledWord) :
    Scans (behindSpaces words) (words.map SpelledWord.word) [] := by
  induction words with
  | nil =>
      exact .done rfl
  | cons first later ih =>
      have hstands : Stands first.word first.piece (behindSpaces later) :=
        stands_of_spelling first.spelling (Or.inr (detached_behindSpaces later)) first.tells
      refine .gap ?_ (.word hstands ih)
      rw [skipGap_behindSpaces]
      exact hstands.skipGap_eq.symm

theorem scans_spaced
    (words : List SpelledWord) :
    Scans (spaced words) (counted words) [] := by
  cases words with
  | nil =>
      exact .done rfl
  | cons first later =>
      rw [spaced_cons]
      exact .word (stands_asFirst first later) (scans_behindSpaces later)

/-- A row of words is read as a derivation exactly when they are its yield as they count. -/
theorem read_eq_ok_iff
    (hgoal : IsGoal goal) {words : List SpelledWord} (hclear : HasClearFront words)
    {tree : Tree (.phrase goal)} :
    read goal (spaced words) = .ok tree ↔ tree.yield = counted words := by
  constructor
  · intro h
    exact (readAll?_eq_some_iff hgoal).1 (readAll?_of_read hgoal hclear h)
  · intro h
    have hscans := scans_spaced words
    rw [← h] at hscans
    exact read_of_scans hgoal hscans (by simp [skipGap])

end Beginnings

end Reading
end DotCascade
