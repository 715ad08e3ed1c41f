import DotCascade.Proofs.Reading.Steps

/-!
# Scanning a source

`Scans text words rest` says that a text consists of the spellings of some words,
with gaps around them, and of a rest.  Such a row of words is what reading
takes from the text, provided that the words can be read one after the other
(`run_of_scans`), so a source that spells the yield of a derivation is read as
that derivation (`read_of_scans`).

Whatever the source is, every word at the leaves of the tree that is read tells
what a piece of source tells (`legible_of_read`).
-/

namespace DotCascade
namespace Reading

open Grammar

section Stands

/-- A text begins with a word, spelled as the given piece, and with no other word that could be
taken in its place. -/
structure Stands (word : Word) (piece text : List Char) : Prop where
  found : piece? word.terminal (piece ++ text) = some piece
  tells : lexeme word.terminal piece = .ok word.lexeme
  alone : ∀ other, (piece? other (piece ++ text)).isSome →
    other = word.terminal ∨ word.terminal = .identifier ∨
      (word.terminal = .strict ∧ other = .identifier)

theorem kindsAt_eq_singleton
    {text : List Char} {terminal : Terminal}
    (h : terminal ∈ kindsAt text) (hletter : terminal ∉ letterKinds) :
    kindsAt text = [terminal] := by
  unfold kindsAt at h ⊢
  split at h
  case h_16 =>
    split at h <;> simp_all
  case h_17 =>
    split at h
    · simp_all
    · split at h <;> simp_all
  all_goals simp_all

/-- What begins with a keyword is a word of letters. -/
theorem mem_letterKinds_of_keyword
    {keyword other : Terminal} {text piece : List Char}
    (h : keyword ∈ letterKinds) (hne : keyword ≠ .identifier)
    (hpiece : piece? other ((fixedSpelling keyword).toList ++ text) = some piece) :
    other ∈ letterKinds := by
  obtain ⟨first, rest, hspelling, hfirst, _⟩ := isName_fixedSpelling h hne
  have hkinds := mem_kindsAt hpiece
  rwa [hspelling, List.cons_append, kindsAt_of_isWordStart hfirst] at hkinds

/-- No keyword begins with another one. -/
theorem eq_of_keywords
    {keyword other : Terminal} {text piece : List Char}
    (h : keyword ∈ letterKinds) (hne : keyword ≠ .identifier) (hother : other ≠ .identifier)
    (hpiece : piece? other ((fixedSpelling keyword).toList ++ text) = some piece) :
    other = keyword := by
  have hletter := mem_letterKinds_of_keyword h hne hpiece
  simp only [letterKinds, List.mem_cons, List.not_mem_nil, or_false, hne, hother,
    false_or] at h hletter
  rcases h with rfl | rfl | rfl | rfl | rfl | rfl <;>
    rcases hletter with rfl | rfl | rfl | rfl | rfl | rfl <;>
      first
        | rfl
        | exact absurd hpiece (by simp [piece?, fixedPiece?, fixedSpelling])

/-- A keyword in front of something that is no letter is no bare word and no other keyword. -/
theorem eq_of_keyword
    {terminal other : Terminal} {text : List Char}
    (hterminal : terminal ∈ letterKinds) (hne : terminal ≠ .identifier)
    (htext : Unlettered text)
    (h : (piece? other ((fixedSpelling terminal).toList ++ text)).isSome) :
    other = terminal ∨ (terminal = .strict ∧ other = .identifier) := by
  obtain ⟨piece, hpiece⟩ := Option.isSome_iff_exists.1 h
  by_cases hidentifier : other = .identifier
  · subst hidentifier
    have hname := isName_fixedSpelling hterminal hne
    simp only [piece?, identifierPiece?, word?_append hname htext] at hpiece
    simp only [letterKinds, List.mem_cons, List.not_mem_nil, or_false, hne, false_or] at hterminal
    rcases hterminal with rfl | rfl | rfl | rfl | rfl | rfl
    case inr.inr.inl =>
      exact Or.inr ⟨rfl, rfl⟩
    all_goals
      exact absurd hpiece (by simp [fixedSpelling, keywords])
  · exact Or.inl (eq_of_keywords hterminal hne hidentifier hpiece)

/-- A spelled word stands at the front of a text where it is found, if it ends in front of anything
but a letter or does not consist of letters. -/
theorem stands_of_found
    {word : Word} {piece text : List Char}
    (h : Spelling word.terminal piece)
    (hfound : piece? word.terminal (piece ++ text) = some piece)
    (htext : word.terminal ∈ letterKinds → Unlettered text)
    (htells : lexeme word.terminal piece = .ok word.lexeme) :
    Stands word piece text := by
  refine ⟨hfound, htells, fun other hother => ?_⟩
  by_cases hletter : word.terminal ∈ letterKinds
  · by_cases hidentifier : word.terminal = .identifier
    · exact Or.inr (Or.inl hidentifier)
    · rw [eq_of_spelling_keyword hletter hidentifier h] at hother
      rcases eq_of_keyword hletter hidentifier (htext hletter) hother with heq | heq
      · exact Or.inl heq
      · exact Or.inr (Or.inr heq)
  · left
    obtain ⟨otherPiece, hpiece⟩ := Option.isSome_iff_exists.1 hother
    have hkinds := mem_kindsAt hpiece
    rw [kindsAt_eq_singleton (mem_kindsAt hfound) hletter] at hkinds
    exact List.mem_singleton.1 hkinds

theorem closed_eq_false
    {terminal : Terminal} (h : terminal ∈ letterKinds) :
    closed terminal = false := by
  revert h
  cases terminal <;> decide

/-- A spelled word stands at the front of a text, if it ends where it seems to end. -/
theorem stands_of_spelling
    {word : Word} {piece text : List Char}
    (h : Spelling word.terminal piece)
    (hend : closed word.terminal = true ∨ Detached text)
    (htells : lexeme word.terminal piece = .ok word.lexeme) :
    Stands word piece text := by
  refine stands_of_found h (piece?_append h hend) (fun hletter => ?_) htells
  have hdetached := hend.resolve_left (by simp [closed_eq_false hletter])
  exact hdetached.unlettered

end Stands

section Steps

theorem findSome?_of_alone
    {f : Terminal → Option (Terminal × List Char)} {terminal : Terminal} {kinds : List Terminal}
    (hmem : terminal ∈ kinds) (hfound : (f terminal).isSome)
    (halone : ∀ other ∈ kinds, other ≠ terminal → f other = none) :
    kinds.findSome? f = f terminal := by
  induction kinds with
  | nil =>
      exact absurd hmem List.not_mem_nil
  | cons first rest ih =>
      by_cases hfirst : first = terminal
      · subst hfirst
        obtain ⟨result, hresult⟩ := Option.isSome_iff_exists.1 hfound
        simp [hresult]
      · rw [List.findSome?_cons, halone first List.mem_cons_self hfirst]
        exact ih ((List.mem_cons.1 hmem).resolve_left (Ne.symm hfirst))
          fun other hother => halone other (List.mem_cons_of_mem _ hother)

/-- The word at the front of a text is the first that is found, wherever it is admitted and a bare
word is not mistaken for the word that makes a graph strict. -/
theorem firstWord?_of_stands
    {word : Word} {piece text : List Char} {admitted : Terminal → Bool}
    (h : Stands word piece text)
    (hadmitted : admitted word.terminal = true)
    (hstrict : word.terminal = .strict → admitted .identifier = false) :
    firstWord? admitted (piece ++ text) = some (word.terminal, piece) := by
  have hfound := h.found
  by_cases hidentifier : word.terminal = .identifier
  · rw [hidentifier] at hadmitted hfound ⊢
    simp [firstWord?, Terminal.all, hadmitted, hfound]
  · have hmem : word.terminal ∈ Terminal.all.filter admitted :=
      List.mem_filter.2 ⟨Terminal.mem_all _, hadmitted⟩
    rw [firstWord?, findSome?_of_alone hmem (by simp [hfound])]
    · simp [hfound]
    · intro other hother hne
      cases hpiece : piece? other (piece ++ text) with
      | none =>
          rfl
      | some _ =>
          rcases h.alone other (by simp [hpiece]) with heq | heq | ⟨heq, rfl⟩
          · exact absurd heq hne
          · exact absurd heq hidentifier
          · simp [hstrict heq] at hother

/-- No gap stands in front of a word. -/
theorem skipGap_eq_self
    {text : List Char} (h : kindsAt text ≠ []) :
    skipGap text = text := by
  unfold skipGap
  split
  case h_1 =>
    exact absurd (by simp [kindsAt, Text.isWordStart, Text.isWideLetter]) h
  case h_2 =>
    exact absurd (by simp [kindsAt, Text.isWordStart, Text.isWideLetter]) h
  case h_3 c rest _ _ =>
    split
    case isFalse =>
      rfl
    case isTrue hblank =>
      simp only [Text.isBlank, Bool.or_eq_true, decide_eq_true_eq] at hblank
      rcases hblank with (((rfl | rfl) | rfl) | rfl) | rfl <;>
        exact absurd (by simp [kindsAt, Text.isWordStart, Text.isWideLetter]) h
  case h_4 =>
    rfl

theorem Stands.skipGap_eq
    {word : Word} {piece text : List Char} (h : Stands word piece text) :
    skipGap (piece ++ text) = piece ++ text :=
  skipGap_eq_self (List.ne_nil_of_mem (mem_kindsAt h.found))

/-- A word that can be read is admitted. -/
theorem admits_of_readWord?
    {goal : Phrase} {frames behind : List Frame} {word : Word}
    (h : readWord? goal frames word = some behind) :
    (stateBehind goal frames).admits word.terminal = true := by
  rw [State.admits_iff]
  cases hcomplete : complete? goal (.word word.terminal) frames with
  | none =>
      left
      simp only [readWord?, settle_of_none hcomplete] at h
      split at h
      case isTrue htakes =>
        exact htakes
      case isFalse =>
        simp at h
  | some frames' =>
      right
      intro hnone
      simp [complete?, hnone] at hcomplete

theorem not_admits_identifier
    {state : State} (hstate : State.Reached state)
    (h : state.admits .strict = true) :
    state.admits .identifier = false := by
  have hseparating := (State.checked_of_mem (State.mem_reachable hstate)).2.1
  simp only [State.separating, Bool.and_eq_true] at hseparating
  simpa [h] using hseparating.1.2

/-- A word that stands behind a gap and can be read is taken by one step. -/
theorem step_of_stands
    {goal : Phrase} (hgoal : IsGoal goal) (length : Nat)
    {frames behind : List Frame} {last text piece rest : List Char} {word : Word}
    (hframed : Framed goal frames)
    (htext : skipGap text = piece ++ rest)
    (hstands : Stands word piece rest)
    (hread : readWord? goal frames word = some behind) :
    step goal length ⟨frames, last, text⟩ =
      .more ⟨word.terminal, piece, piece ++ rest⟩ ⟨behind, piece ++ rest, rest⟩ := by
  have hadmitted := admits_of_readWord? hread
  have hfirst :
      firstWord? (fun terminal => (stateBehind goal frames).admits terminal) (piece ++ rest) =
        some (word.terminal, piece) :=
    firstWord?_of_stands hstands hadmitted fun heq =>
      not_admits_identifier (reached_stateBehind hgoal hframed) (heq ▸ hadmitted)
  rw [step_of_readWord? htext hfirst hstands.tells hread, List.drop_left]

end Steps

section Runs

/-- A text that spells some words, with gaps around them, and a rest. -/
inductive Scans : List Char → List Word → List Char → Prop
  | done {text rest : List Char} (hgap : skipGap text = skipGap rest) : Scans text [] rest
  | gap {text text' rest : List Char} {words : List Word}
      (hgap : skipGap text = skipGap text') (h : Scans text' words rest) :
      Scans text words rest
  | word {word : Word} {words : List Word} {piece text rest : List Char}
      (hstands : Stands word piece text) (h : Scans text words rest) :
      Scans (piece ++ text) (word :: words) rest

theorem Scans.trans
    {text middle rest : List Char} {words later : List Word}
    (h : Scans text words middle) (hlater : Scans middle later rest) :
    Scans text (words ++ later) rest := by
  induction h with
  | done hgap =>
      exact .gap hgap hlater
  | gap hgap _ ih =>
      exact .gap hgap (ih hlater)
  | word hstands _ ih =>
      exact .word hstands (ih hlater)

/-- Only what stands behind the gap at the front of a text counts. -/
theorem step_congr_gap
    {goal : Phrase} (length : Nat) {frames : List Frame} {last text text' : List Char}
    (h : skipGap text = skipGap text') :
    step goal length ⟨frames, last, text⟩ = step goal length ⟨frames, last, text'⟩ := by
  simp only [step, h, finish, take]

theorem run_congr_gap
    {goal : Phrase} (length : Nat) {frames : List Frame} {last text text' : List Char}
    (h : skipGap text = skipGap text') :
    (Progress.run goal length ⟨frames, last, text⟩) =
      Progress.run goal length ⟨frames, last, text'⟩ := by
  rw [run_eq, run_eq, step_congr_gap length h]

theorem words_congr_gap
    {goal : Phrase} (length : Nat) {frames : List Frame} {last text text' : List Char}
    (h : skipGap text = skipGap text') :
    Progress.words goal length ⟨frames, last, text⟩ =
      Progress.words goal length ⟨frames, last, text'⟩ := by
  rw [Progress.words_eq, step_congr_gap length h, ← Progress.words_eq]

/-- The words that a text spells are taken one after the other, if they can be read. -/
theorem run_of_scans
    {goal : Phrase} (hgoal : IsGoal goal) (length : Nat)
    {text rest : List Char} {words : List Word}
    (hscans : Scans text words rest)
    {frames behind : List Frame} (last : List Char)
    (hframed : Framed goal frames)
    (hread : readWords? goal frames words = some behind) :
    ∃ last', Progress.run goal length ⟨frames, last, text⟩ =
      Progress.run goal length ⟨behind, last', rest⟩ := by
  induction hscans generalizing frames last with
  | done hgap =>
      simp only [readWords?, Option.some.injEq] at hread
      exact ⟨last, by rw [hread, run_congr_gap length hgap]⟩
  | gap hgap _ ih =>
      rw [run_congr_gap length hgap]
      exact ih last hframed hread
  | @word word words piece text rest hstands _ ih =>
      obtain ⟨middle, hword, hwords⟩ := Option.bind_eq_some_iff.1 hread
      obtain ⟨last', hrun⟩ := ih (piece ++ text) (framed_readWord? hframed hword) hwords
      refine ⟨last', ?_⟩
      rw [run_eq, step_of_stands hgoal length hframed hstands.skipGap_eq hstands hword]
      exact hrun

/-- Where nothing but a gap is left, the tree of the whole is the result. -/
theorem run_of_whole?
    {goal : Phrase} (length : Nat) {frames : List Frame} {tree : Tree (.phrase goal)}
    (last : List Char) {rest : List Char} (hrest : skipGap rest = [])
    (hwhole : whole? goal (settle goal .finish frames) = some tree) :
    Progress.run goal length ⟨frames, last, rest⟩ = .ok tree := by
  rw [run_eq]
  simp only [step, hrest, finish, hwhole]

/-- A source that spells the yield of a derivation is read as that derivation. -/
theorem read_of_scans
    {goal : Phrase} (hgoal : IsGoal goal)
    {tree : Tree (.phrase goal)} {source rest : List Char}
    (hscans : Scans source tree.yield rest) (hrest : skipGap rest = []) :
    read goal source = .ok tree := by
  obtain ⟨frames, hread, hwhole⟩ := Option.bind_eq_some_iff.1 (readAll?_yield hgoal tree)
  obtain ⟨last, hrun⟩ := run_of_scans hgoal source.length hscans source .nil hread
  rw [read_eq_run, Progress.start, hrun]
  exact run_of_whole? source.length last hrest hwhole

end Runs

section Legible

/-- A word tells what a piece of some text tells. -/
def Legible (word : Word) : Prop :=
  ∃ piece text, piece? word.terminal text = some piece ∧
    lexeme word.terminal piece = .ok word.lexeme

/-- The word of a tree that a piece of a source tells. -/
def Taken.word? (taken : Taken) : Option Word :=
  match lexeme taken.terminal taken.piece with
  | .ok value => some ⟨taken.terminal, value⟩
  | .error _ => none

/-- The words of a tree that is read are those in the frames and those that are taken from the
source. -/
theorem yield_of_run
    {goal : Phrase} {length : Nat} {progress : Progress} {tree : Tree (.phrase goal)}
    (h : progress.run goal length = .ok tree) :
    tree.yield.map some =
      (framesYield progress.frames).map some ++ (progress.words goal length).map Taken.word? := by
  fun_induction Progress.run goal length progress with
  | case1 progress taken next hstep _ ih =>
      have houtcome : Outcome goal length progress (.more taken next) := hstep ▸ outcome_step
      cases houtcome with
      | taken word hfirst htells hread =>
          rw [ih h, framesYield_readWord? hread, progress.words_eq, hstep]
          simp [Taken.word?, htells]
  | case2 progress tree' hstep =>
      obtain rfl := Except.ok.inj h
      have houtcome : Outcome goal length progress (.done tree') := hstep ▸ outcome_step
      cases houtcome with
      | done _ hwhole =>
          rw [← framesYield_of_whole? hwhole, framesYield_settle, progress.words_eq, hstep]
          simp
  | case3 progress failure hstep =>
      cases h

/-- The words that are taken from a source are the words of the tree that is read. -/
theorem yield_of_read
    {goal : Phrase} {source : List Char} {tree : Tree (.phrase goal)}
    (h : read goal source = .ok tree) :
    tree.yield.map some =
      ((Progress.start source).words goal source.length).map Taken.word? :=
  yield_of_run (run_of_read h)

/-- Every word of a tree that is read is taken at a place that reading reaches. -/
theorem exists_taken_of_read
    {goal : Phrase} {source : List Char} {tree : Tree (.phrase goal)}
    (h : read goal source = .ok tree) {word : Word} (hword : word ∈ tree.yield) :
    ∃ place next piece text, Reaches goal source.length (Progress.start source) place ∧
      step goal source.length place = .more ⟨word.terminal, piece, text⟩ next ∧
        lexeme word.terminal piece = .ok word.lexeme := by
  have hmem := List.mem_map_of_mem (f := some) hword
  rw [yield_of_read h] at hmem
  obtain ⟨taken, htaken, htells⟩ := List.mem_map.1 hmem
  obtain ⟨place, next, hplace, hstep⟩ := exists_reaches_of_mem htaken
  unfold Taken.word? at htells
  split at htells
  case h_1 value hvalue =>
    obtain rfl := Option.some.inj htells
    exact ⟨place, next, taken.piece, taken.text, hplace, hstep, hvalue⟩
  case h_2 =>
    cases htells

/-- Every word of a tree that is read is legible. -/
theorem legible_of_read
    {goal : Phrase} {source : List Char} {tree : Tree (.phrase goal)}
    (h : read goal source = .ok tree) :
    ∀ word ∈ tree.yield, Legible word := by
  intro word hword
  obtain ⟨place, next, piece, text, -, hstep, htells⟩ := exists_taken_of_read h hword
  obtain ⟨-, hpiece, -⟩ := taken_of_step hstep
  exact ⟨piece, text, hpiece, htells⟩

end Legible

end Reading
end DotCascade
