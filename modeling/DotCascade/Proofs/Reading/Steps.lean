import DotCascade.Proofs.Reading.Spelling
import DotCascade.Proofs.Reading.Words
import DotCascade.Reading.Tracking

/-!
# What a step of reading can do

The first word that is found is taken if it can be read (`step_of_readWord?`).
`Outcome` lists what one step can lead to, each time with what is known then, and
`outcome_step` says that nothing else can happen.  Whatever holds along a run is
shown case by case from it; a run that succeeds ends at a tree of the whole or takes
a word (`cases_of_run`).

What is read does not depend on the positions that are kept on the way: a source is
read as by steps alone (`read_eq_run`).
-/

namespace DotCascade
namespace Reading

open Grammar

section Failures

variable {length : Nat} {text piece : List Char} {terminal : Terminal}

theorem lexemeOf_eq_ok_iff
    {value : terminal.Lexeme} :
    lexemeOf terminal piece = .ok value ↔ lexeme terminal piece = .ok value := by
  unfold lexemeOf
  split <;> simp_all

/-- A word that tells nothing is never reported as unexpected. -/
theorem lexemeOf_ne_unexpected
    (offset : Nat) (found : Found) (expected : List Lookahead) :
    lexemeOf terminal piece ≠ .error (.unexpected offset found expected) := by
  unfold lexemeOf
  split <;> simp

/-- The first word is of a kind that is admitted, and the text begins with it. -/
theorem found_of_firstWord?
    {admitted : Terminal → Bool} (h : firstWord? admitted text = some (terminal, piece)) :
    admitted terminal = true ∧ piece? terminal text = some piece := by
  obtain ⟨found, hmem, hfound⟩ := List.exists_of_findSome?_eq_some h
  obtain ⟨_, hpiece, heq⟩ := Option.map_eq_some_iff.1 hfound
  obtain ⟨rfl, rfl⟩ := Prod.mk.inj heq
  exact ⟨(List.mem_filter.1 hmem).2, hpiece⟩

theorem piece?_of_firstWord?
    {admitted : Terminal → Bool} (h : firstWord? admitted text = some (terminal, piece)) :
    piece? terminal text = some piece :=
  (found_of_firstWord? h).2

theorem ne_nil_of_piece?
    (h : piece? terminal text = some piece) :
    text ≠ [] := by
  rintro rfl
  exact List.not_mem_nil (mem_kindsAt h)

/-- What was found stands at the front of a text. -/
def Found.StandsAt (text : List Char) : Found → Prop
  | .character c => text.head? = some c ∧ ∀ terminal, piece? terminal text = none
  | .piece piece => ∃ terminal, piece? terminal text = some piece
  | .markup => ∃ piece, piece? .markup text = some piece
  | .finish => text = []

theorem standsAt_ofPiece
    (h : piece? terminal text = some piece) :
    (Found.ofPiece terminal piece).StandsAt text := by
  unfold Found.ofPiece
  split
  case isTrue hmarkup =>
    subst hmarkup
    exact ⟨piece, h⟩
  case isFalse =>
    exact ⟨terminal, h⟩

theorem standsAt_character
    {c : Char} {rest : List Char} (h : firstWord? (fun _ => true) (c :: rest) = none) :
    (Found.character c).StandsAt (c :: rest) := by
  refine ⟨rfl, fun terminal => ?_⟩
  have hnone := List.findSome?_eq_none_iff.1 h terminal
    (List.mem_filter.2 ⟨Terminal.mem_all terminal, rfl⟩)
  exact Option.map_eq_none_iff.1 hnone

end Failures

section Words

variable {goal : Phrase} {length : Nat} {frames : List Frame} {last text : List Char}

/-- One step takes the first word that is found of those that are admitted. -/
theorem step_of_firstWord?
    {front piece : List Char} {terminal : Terminal} (htext : skipGap text = front)
    (hfirst : firstWord? (fun terminal => (stateBehind goal frames).admits terminal) front =
      some (terminal, piece)) :
    step goal length ⟨frames, last, text⟩ =
      take goal length ⟨frames, last, text⟩ front terminal piece := by
  have hfilled : front ≠ [] := ne_nil_of_piece? (piece?_of_firstWord? hfirst)
  obtain ⟨c, rest, rfl⟩ := List.exists_cons_of_ne_nil hfilled
  have hexpected :
      firstWord? (fun terminal => (stateBehind goal frames).expected.contains (.word terminal))
        (c :: rest) = some (terminal, piece) := hfirst
  rw [step]
  simp only [htext]
  rw [hexpected]

/-- A word that is found first and can be read is taken in one step. -/
theorem step_of_readWord?
    {behind : List Frame} {front piece : List Char} {word : Word}
    (htext : skipGap text = front)
    (hfirst : firstWord? (fun terminal => (stateBehind goal frames).admits terminal) front =
      some (word.terminal, piece))
    (htells : lexeme word.terminal piece = .ok word.lexeme)
    (hread : readWord? goal frames word = some behind) :
    step goal length ⟨frames, last, text⟩ =
      .more ⟨word.terminal, piece, front⟩ ⟨behind, front, front.drop piece.length⟩ := by
  rw [step_of_firstWord? htext hfirst, take, lexemeOf_eq_ok_iff.2 htells]
  simp only [readWord?] at hread
  split at hread
  case isFalse =>
    cases hread
  case isTrue htakes =>
    obtain rfl := Option.some.inj hread
    exact if_pos htakes

end Words

section Outcomes

variable (goal : Phrase) (length : Nat) (progress : Progress)

/-- What one step can lead to. -/
inductive Outcome : Step goal → Prop
  /-- Nothing but a gap is left, and one tree has been read. -/
  | done
      {tree : Tree (.phrase goal)} (hgap : skipGap progress.text = [])
      (hwhole : whole? goal (settle goal .finish progress.frames) = some tree) :
      Outcome (.done tree)
  /-- Nothing but a gap is left too early. -/
  | ended
      (expected : List Lookahead) (hgap : skipGap progress.text = []) :
      Outcome (.failed (.unexpected (offsetOf length progress.last) .finish expected))
  /-- The first word behind the gap, of those that are admitted, is read. -/
  | taken
      (word : Word) {piece : List Char} {behind : List Frame}
      (hfirst :
        firstWord? (fun terminal => (stateBehind goal progress.frames).admits terminal)
          (skipGap progress.text) = some (word.terminal, piece))
      (htells : lexeme word.terminal piece = .ok word.lexeme)
      (hread : readWord? goal progress.frames word = some behind) :
      Outcome
        (.more ⟨word.terminal, piece, skipGap progress.text⟩
          ⟨behind, skipGap progress.text, (skipGap progress.text).drop piece.length⟩)
  /-- What stands behind the gap is not expected. -/
  | refused
      (found : Found) (expected : List Lookahead)
      (htext : skipGap progress.text ≠ []) (hfound : found.StandsAt (skipGap progress.text)) :
      Outcome
        (.failed (.unexpected (offsetOf length (skipGap progress.text)) found expected))
  /-- A word behind the gap tells nothing. -/
  | garbled
      {terminal : Terminal} {piece : List Char} {failure : Failure}
      (hpiece : piece? terminal (skipGap progress.text) = some piece)
      (hfailure : lexemeOf terminal piece = .error failure) :
      Outcome (.failed failure)

variable {goal length progress}

theorem outcome_misfit
    (expected : List Lookahead) (htext : skipGap progress.text ≠ []) :
    Outcome goal length progress
      (.failed (misfit length expected (skipGap progress.text))) := by
  unfold misfit
  split
  case h_1 terminal piece hfirst =>
    split
    case h_1 =>
      exact .refused _ _ htext (standsAt_ofPiece (piece?_of_firstWord? hfirst))
    case h_2 failure hfailure =>
      exact .garbled (piece?_of_firstWord? hfirst) hfailure
  case h_2 hfirst =>
    split
    case h_1 hnil =>
      exact absurd hnil htext
    case h_2 c rest hcons =>
      refine .refused _ _ htext ?_
      rw [hcons] at hfirst ⊢
      exact standsAt_character hfirst

/-- One step leads to one of the outcomes. -/
theorem outcome_step :
    Outcome goal length progress (step goal length progress) := by
  unfold step
  split
  case h_1 hgap =>
    unfold finish
    simp only
    split
    case h_1 tree hwhole =>
      exact .done hgap hwhole
    case h_2 =>
      exact .ended _ hgap
  case h_2 c rest hcons =>
    have htext : skipGap progress.text ≠ [] := by
      simp [hcons]
    simp only [← hcons]
    split
    case h_2 =>
      exact outcome_misfit _ htext
    case h_1 terminal piece hfirst =>
      unfold take
      split
      case h_1 failure hfailure =>
        exact .garbled (piece?_of_firstWord? hfirst) hfailure
      case h_2 value hvalue =>
        simp only
        split
        case isTrue htakes =>
          exact .taken ⟨terminal, value⟩ hfirst (lexemeOf_eq_ok_iff.1 hvalue) (if_pos htakes)
        case isFalse =>
          exact .refused _ _ htext (standsAt_ofPiece (piece?_of_firstWord? hfirst))

/-- The word that a step takes is found behind the gap, and reading goes on behind it. -/
theorem taken_of_step
    {next : Progress} {taken : Taken}
    (h : step goal length progress = .more taken next) :
    skipGap progress.text = taken.text ∧ piece? taken.terminal taken.text = some taken.piece ∧
      next.text = taken.text.drop taken.piece.length := by
  have houtcome : Outcome goal length progress (.more taken next) := h ▸ outcome_step
  cases houtcome with
  | taken _ hfirst =>
      exact ⟨rfl, piece?_of_firstWord? hfirst, rfl⟩

/-- The word that a step takes is kept as the last one. -/
theorem last_of_step
    {next : Progress} {taken : Taken}
    (h : step goal length progress = .more taken next) :
    next.last = taken.text := by
  have houtcome : Outcome goal length progress (.more taken next) := h ▸ outcome_step
  cases houtcome with
  | taken =>
      rfl

end Outcomes

section Runs

/-- Reads on until a tree of the goal is complete or reading fails, without positions. -/
def Progress.run (goal : Phrase) (length : Nat) (progress : Progress) :
    Except Failure (Tree (.phrase goal)) :=
  match h : step goal length progress with
  | .more _ next =>
      have := length_step_lt h
      next.run goal length
  | .done tree => .ok tree
  | .failed failure => .error failure
termination_by progress.text.length

/-- Reading on does what the next step leads to. -/
theorem run_eq
    (goal : Phrase) (length : Nat) (progress : Progress) :
    progress.run goal length =
      match step goal length progress with
      | .more _ next => next.run goal length
      | .done tree => .ok tree
      | .failed failure => .error failure := by
  rw [Progress.run]
  split
  all_goals
    rename_i hstep
    simp only [hstep]

/-- The positions that are kept have no influence on what is read. -/
theorem mapError_run
    (goal : Phrase) (length : Nat) (tracked : Tracked) :
    (tracked.run goal length).mapError Located.failure = tracked.progress.run goal length := by
  fun_induction Tracked.run goal length tracked with
  | case1 tracked taken next hstep _ ih =>
      rw [run_eq, hstep]
      exact ih
  | case2 tracked tree hstep | case3 tracked failure hstep =>
      rw [run_eq, hstep]
      rfl

theorem read_eq_run
    (goal : Phrase) (source : List Char) :
    read goal source = (Progress.start source).run goal source.length :=
  mapError_run goal source.length (.start source)

theorem run_of_read
    {goal : Phrase} {source : List Char} {found : Except Failure (Tree (.phrase goal))}
    (h : read goal source = found) :
    (Progress.start source).run goal source.length = found :=
  (read_eq_run goal source).symm.trans h

/-- Reading that succeeds finds one tree and nothing but a gap behind it, or it takes a word and
succeeds behind that word. -/
theorem cases_of_run
    {goal : Phrase} {length : Nat} {progress : Progress} {tree : Tree (.phrase goal)}
    (h : progress.run goal length = .ok tree) :
    (skipGap progress.text = [] ∧
        whole? goal (settle goal .finish progress.frames) = some tree) ∨
      ∃ (word : Word) (piece : List Char) (behind : List Frame),
        firstWord? (fun terminal => (stateBehind goal progress.frames).admits terminal)
            (skipGap progress.text) = some (word.terminal, piece) ∧
          lexeme word.terminal piece = .ok word.lexeme ∧
          readWord? goal progress.frames word = some behind ∧
          Progress.run goal length
              ⟨behind, skipGap progress.text, (skipGap progress.text).drop piece.length⟩ =
            .ok tree := by
  have houtcome : Outcome goal length progress (step goal length progress) := outcome_step
  rw [run_eq] at h
  generalize step goal length progress = result at h houtcome
  cases houtcome with
  | done hgap hwhole =>
      obtain rfl := Except.ok.inj h
      exact Or.inl ⟨hgap, hwhole⟩
  | taken word hfirst htells hread =>
      exact Or.inr ⟨word, _, _, hfirst, htells, hread, h⟩
  | ended | refused | garbled =>
      cases h

end Runs

section Places

variable {goal : Phrase} {length : Nat}

/-- Reading gets from one place of a source to another one by taking words. -/
inductive Reaches (goal : Phrase) (length : Nat) : Progress → Progress → Prop
  | here {progress : Progress} : Reaches goal length progress progress
  | taken
      {word : Taken} {progress next later : Progress}
      (hstep : step goal length progress = .more word next)
      (h : Reaches goal length next later) :
      Reaches goal length progress later

theorem Reaches.trans
    {progress middle later : Progress} (h : Reaches goal length progress middle)
    (hlater : Reaches goal length middle later) :
    Reaches goal length progress later := by
  induction h with
  | here =>
      exact hlater
  | taken hstep _ ih =>
      exact .taken hstep (ih hlater)

/-- A place that is reached is the first one or lies behind a word. -/
theorem Reaches.cases_last
    {progress later : Progress} (h : Reaches goal length progress later) :
    progress = later ∨
      ∃ place word, Reaches goal length progress place ∧
        step goal length place = .more word later := by
  induction h with
  | here =>
      exact Or.inl rfl
  | @taken word progress _ _ hstep _ ih =>
      rcases ih with rfl | ⟨place, last, hplace, hlast⟩
      · exact Or.inr ⟨progress, word, .here, hstep⟩
      · exact Or.inr ⟨place, last, .taken hstep hplace, hlast⟩

theorem Reaches.run_eq
    {progress later : Progress} (h : Reaches goal length progress later) :
    progress.run goal length = later.run goal length := by
  induction h with
  | here =>
      rfl
  | taken hstep _ ih =>
      rw [Reading.run_eq, hstep]
      exact ih

/-- The words that reading takes from some place on, in the order of the source. -/
def Progress.words (goal : Phrase) (length : Nat) (progress : Progress) : List Taken :=
  match h : step goal length progress with
  | .more word next =>
      have := length_step_lt h
      word :: next.words goal length
  | _ => []
termination_by progress.text.length

theorem Progress.words_eq
    (progress : Progress) :
    progress.words goal length =
      match step goal length progress with
      | .more word next => word :: next.words goal length
      | _ => [] := by
  rw [Progress.words]
  split
  case h_1 hstep =>
    simp only [hstep]
  case h_2 hlast =>
    split
    case h_1 word next hstep =>
      exact absurd hstep (hlast word next)
    case h_2 =>
      rfl

/-- The word that a step takes is the first one, and those behind it follow. -/
theorem words_of_step
    {progress next : Progress} {word : Taken} (h : step goal length progress = .more word next) :
    progress.words goal length = word :: next.words goal length := by
  rw [progress.words_eq, h]

/-- Every word is taken at a place that reading reaches. -/
theorem exists_reaches_of_mem
    {progress : Progress} {word : Taken} (hword : word ∈ progress.words goal length) :
    ∃ place next, Reaches goal length progress place ∧
      step goal length place = .more word next := by
  fun_induction Progress.words goal length progress with
  | case1 progress first next hstep _ ih =>
      rcases List.mem_cons.1 hword with rfl | hlater
      · exact ⟨progress, next, .here, hstep⟩
      · obtain ⟨place, behind, hplace, htaken⟩ := ih hlater
        exact ⟨place, behind, .taken hstep hplace, htaken⟩
  | case2 =>
      exact absurd hword List.not_mem_nil

/-- Reading comes to a place from which no word is taken, and there it ends. -/
theorem exists_reaches
    (goal : Phrase) (length : Nat) (progress : Progress) :
    ∃ later, Reaches goal length progress later ∧
      ∀ word next, step goal length later ≠ .more word next := by
  fun_induction Progress.run goal length progress with
  | case1 progress word next hstep _ ih =>
      obtain ⟨later, hlater, hlast⟩ := ih
      exact ⟨later, .taken hstep hlater, hlast⟩
  | case2 progress tree hstep =>
      exact ⟨progress, .here, by simp [hstep]⟩
  | case3 progress failure hstep =>
      exact ⟨progress, .here, by simp [hstep]⟩

/-- Reading that fails comes to a place where a step fails in that way. -/
theorem exists_reaches_of_error
    {progress : Progress} {failure : Failure}
    (h : progress.run goal length = .error failure) :
    ∃ later, Reaches goal length progress later ∧
      step goal length later = .failed failure := by
  obtain ⟨later, hlater, hlast⟩ := exists_reaches goal length progress
  refine ⟨later, hlater, ?_⟩
  rw [hlater.run_eq, run_eq] at h
  split at h
  case h_1 word next hstep =>
    exact absurd hstep (hlast word next)
  case h_2 =>
    cases h
  case h_3 hstep =>
    rw [hstep, Except.error.inj h]

/-- Reading that succeeds comes to a place where nothing but a gap is left and the tree has been
read. -/
theorem exists_reaches_of_ok
    {progress : Progress} {tree : Tree (.phrase goal)}
    (h : progress.run goal length = .ok tree) :
    ∃ later, Reaches goal length progress later ∧ skipGap later.text = [] ∧
      whole? goal (settle goal .finish later.frames) = some tree := by
  obtain ⟨later, hlater, hlast⟩ := exists_reaches goal length progress
  rw [hlater.run_eq] at h
  rcases cases_of_run h with ⟨hgap, hwhole⟩ | ⟨word, piece, behind, hfirst, htells, hread, -⟩
  · exact ⟨later, hlater, hgap, hwhole⟩
  · exact absurd (step_of_readWord? rfl hfirst htells hread) (hlast _ _)

/-- The tree that is read depends neither on the length of the source nor on the last word. -/
theorem run_eq_ok_congr
    {progress : Progress} {tree : Tree (.phrase goal)}
    (h : progress.run goal length = .ok tree) (length' : Nat) (last : List Char) :
    Progress.run goal length' ⟨progress.frames, last, progress.text⟩ = .ok tree := by
  fun_induction Progress.run goal length progress generalizing last with
  | case1 progress word next hstep _ ih =>
      have houtcome : Outcome goal length progress (.more word next) := hstep ▸ outcome_step
      cases houtcome with
      | taken word hfirst htells hread =>
          rw [run_eq, step_of_readWord? rfl hfirst htells hread]
          exact ih h _
  | case2 progress tree' hstep =>
      obtain rfl := Except.ok.inj h
      have houtcome : Outcome goal length progress (.done tree') := hstep ▸ outcome_step
      cases houtcome with
      | done hgap hwhole =>
          rw [run_eq]
          simp only [step, hgap, finish, hwhole]
  | case3 progress failure hstep =>
      cases h

end Places

end Reading
end DotCascade
