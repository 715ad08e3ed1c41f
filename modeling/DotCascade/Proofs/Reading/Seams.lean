import DotCascade.Proofs.Reading.Cut
import Mathlib.Data.List.Basic

/-!
# Sources put one behind the other

Two sources are put together with a line feed between them.  The words of the first
one are read as before, because nothing continues a word behind the line feed.  The
words of the second one are read in other states than before, in which other words are
admitted.  But once a graph has begun, the words of a text do not depend on the
states in which they are read (`scans_of_run`): a keyword in front of more letters is
read only where bare words are not admitted, and behind it reading fails.

So where both rows of words make a tree together, the text is read as that tree
(`read_of_seam`).
-/

namespace DotCascade
namespace Reading

open Grammar

section Letters

theorem unlettered_of_takeWhile
    {text : List Char} (h : text.takeWhile Text.isWordPart = []) :
    Unlettered text := by
  intro c hc
  rw [List.takeWhile_eq_nil_iff] at h
  obtain ⟨rest, rfl⟩ := List.head?_eq_some_iff.1 hc
  simpa using h (Nat.succ_pos _)

/-- Nothing that could be a bare word stands where another word is known to stand. -/
theorem Stands.piece?_identifier
    {word : Word} {piece text : List Char} (h : Stands word piece text)
    (hstrict : word.terminal ≠ .strict) (hidentifier : word.terminal ≠ .identifier) :
    piece? .identifier (piece ++ text) = none := by
  rw [← Option.not_isSome_iff_eq_none]
  intro hbare
  rcases h.alone .identifier hbare with heq | heq | ⟨heq, -⟩
  · exact hidentifier heq.symm
  · exact hidentifier heq
  · exact hstrict heq

/-- No letter stands behind a word of letters. -/
theorem Stands.unlettered
    {word : Word} {piece text : List Char} (h : Stands word piece text)
    (hstrict : word.terminal ≠ .strict) (hletter : word.terminal ∈ letterKinds) :
    Unlettered text := by
  refine unlettered_of_takeWhile ?_
  by_cases hidentifier : word.terminal = .identifier
  · have hfound := h.found
    rw [hidentifier] at hfound
    obtain ⟨hword, -⟩ := identifierPiece?_eq_some_iff.1 hfound
    rw [word?_name_append (isName_of_word? hword) text] at hword
    exact List.self_eq_append_right.1 (Option.some.inj hword).symm
  · -- The letters at the place are a keyword, and no keyword begins with another one.
    obtain ⟨rfl, -⟩ := eq_of_piece?_keyword hletter hidentifier h.found
    have hnone := h.piece?_identifier hstrict hidentifier
    have hname := isName_fixedSpelling hletter hidentifier
    simp only [piece?, identifierPiece?, word?_name_append hname text] at hnone
    split at hnone
    case isFalse =>
      cases hnone
    case isTrue hkeyword =>
      rw [List.contains_iff_mem] at hkeyword
      have hmem := List.mem_map_of_mem (f := String.toList) hkeyword
      rw [String.toList_ofList] at hmem
      exact eq_nil_of_keyword hletter hidentifier hmem

end Letters

section Words

variable {goal : Phrase} {frames : List Frame}

/-- In front of a keyword there is nothing else to be read, unless reading fails behind it. -/
theorem unlettered_of_run
    (hgoal : IsGoal goal) (hframed : Framed goal frames) (hbegun : Begun goal frames)
    {length : Nat} {last text rest : List Char} {keyword : Terminal} {tree : Tree (.phrase goal)}
    (hkeyword : keyword ∈ [Terminal.node, .edge, .graph])
    (htext : skipGap text = (fixedSpelling keyword).toList ++ rest)
    (hfirst : firstWord? (fun terminal => (stateBehind goal frames).admits terminal)
      (skipGap text) = some (keyword, (fixedSpelling keyword).toList))
    (h : Progress.run goal length ⟨frames, last, text⟩ = .ok tree) :
    Unlettered rest := by
  intro c hc
  obtain ⟨later, rfl⟩ := List.head?_eq_some_iff.1 (Option.mem_def.1 hc)
  rw [Bool.eq_false_iff]
  intro hpart
  rw [htext] at hfirst
  have hdigraph := (begun_settle hgoal hframed hbegun (.word keyword)).2
  exact run_ne_ok_of_keyword hgoal hframed hkeyword hdigraph hpart htext hfirst tree h

/-- The keywords that are admitted once a graph has begun. -/
theorem keyword_of_begun
    (hgoal : IsGoal goal) (hframed : Framed goal frames) (hbegun : Begun goal frames)
    {terminal : Terminal} (hletter : terminal ∈ letterKinds) (hne : terminal ≠ .identifier)
    (hadmitted : (stateBehind goal frames).admits terminal = true) :
    (stateBehind goal frames).admits .identifier = true ∨
      terminal ∈ [Terminal.node, .edge, .graph] := by
  have hseparating :=
    (State.checked_of_mem (State.mem_reachable (reached_stateBehind hgoal hframed))).2.1
  simp only [State.separating, Bool.and_eq_true, Bool.or_eq_true, Bool.not_eq_true']
    at hseparating
  cases terminal with
  | identifier =>
      exact absurd rfl hne
  | subgraph =>
      exact Or.inl (hseparating.1.1.resolve_right (by simp [hadmitted]))
  | digraph =>
      rw [hbegun.2] at hadmitted
      cases hadmitted
  | strict =>
      rw [hbegun.1] at hadmitted
      cases hadmitted
  | graph | edge | node =>
      exact Or.inr (by decide)
  | _ =>
      exact absurd hletter (by decide)

/-- Once a graph has begun, a word that is read stands in the text whatever is admitted. -/
theorem stands_of_run
    (hgoal : IsGoal goal) (hframed : Framed goal frames) (hbegun : Begun goal frames)
    {length : Nat} {last text piece : List Char} {word : Word} {tree : Tree (.phrase goal)}
    (hfirst : firstWord? (fun terminal => (stateBehind goal frames).admits terminal)
      (skipGap text) = some (word.terminal, piece))
    (htells : lexeme word.terminal piece = .ok word.lexeme)
    (h : Progress.run goal length ⟨frames, last, text⟩ = .ok tree) :
    ∃ rest, skipGap text = piece ++ rest ∧ Stands word piece rest := by
  obtain ⟨hadmitted, hpiece⟩ := found_of_firstWord? hfirst
  obtain ⟨rest, htext, -⟩ := steadyAt_piece? _ _ _ hpiece
  have hfound := hpiece
  rw [htext] at hfound
  refine ⟨rest, htext, hfound, htells, fun other hother => ?_⟩
  obtain ⟨otherPiece, hotherPiece⟩ := Option.isSome_iff_exists.1 hother
  by_cases hletter : word.terminal ∈ letterKinds
  · by_cases hidentifier : word.terminal = .identifier
    · exact Or.inr (Or.inl hidentifier)
    · obtain ⟨rfl, -⟩ := eq_of_piece?_keyword hletter hidentifier hpiece
      rcases keyword_of_begun hgoal hframed hbegun hletter hidentifier hadmitted with
        hbare | hkeyword
      · -- A bare word would have been found first.
        have hnone := piece?_identifier_eq_none hbare hfirst hidentifier
        rw [htext] at hnone
        have hne : other ≠ .identifier := by
          rintro rfl
          rw [hnone] at hotherPiece
          cases hotherPiece
        exact Or.inl (eq_of_keywords hletter hidentifier hne hotherPiece)
      · have hrest := unlettered_of_run hgoal hframed hbegun hkeyword htext hfirst h
        exact (eq_of_keyword hletter hidentifier hrest hother).imp_right Or.inr
  · have hkinds := mem_kindsAt hotherPiece
    rw [kindsAt_eq_singleton (mem_kindsAt hfound) hletter] at hkinds
    exact Or.inl (List.mem_singleton.1 hkinds)

/-- Once a graph has begun, a text that is read spells the same words wherever it stands. -/
theorem scans_of_run
    (hgoal : IsGoal goal) {length : Nat} {progress : Progress} {tree : Tree (.phrase goal)}
    (hframed : Framed goal progress.frames) (hbegun : Begun goal progress.frames)
    (h : progress.run goal length = .ok tree) :
    ∃ words, Scans progress.text words [] ∧
      tree.yield = framesYield progress.frames ++ words := by
  fun_induction Progress.run goal length progress with
  | case1 progress taken next hstep _ ih =>
      have houtcome : Outcome goal length progress (.more taken next) := hstep ▸ outcome_step
      cases houtcome with
      | @taken word piece behind hfirst htells hread =>
          have hrun : progress.run goal length = .ok tree := by
            rw [run_eq, hstep]
            exact h
          obtain ⟨rest, htext, hstands⟩ :=
            stands_of_run hgoal hframed hbegun hfirst htells hrun
          have hstrict := ne_strict_of_begun hbegun (found_of_firstWord? hfirst).1
          obtain ⟨words, hscans, hyield⟩ :=
            ih (framed_readWord? hframed hread) (begun_readWord? hgoal hframed hstrict hread) h
          refine ⟨word :: words, ?_, ?_⟩
          · rw [htext, List.drop_left] at hscans
            refine .gap ?_ (.word hstands hscans)
            rw [htext, hstands.skipGap_eq]
          · rw [hyield, framesYield_readWord? hread, List.append_assoc]
            rfl
  | case2 progress tree' hstep =>
      obtain rfl := Except.ok.inj h
      have houtcome : Outcome goal length progress (.done tree') := hstep ▸ outcome_step
      cases houtcome with
      | done hgap hwhole =>
          refine ⟨[], .done ?_, ?_⟩
          · rw [hgap, skipGap]
          · rw [← framesYield_of_whole? hwhole, framesYield_settle, List.append_nil]
  | case3 progress failure hstep =>
      cases h

end Words

section Ends

/-- The last character is none that opens a gap. -/
def EndsFirmly (piece : List Char) : Prop :=
  ∃ c ∈ piece.getLast?, opensGap c = false

theorem EndsFirmly.behind
    {piece : List Char} (h : EndsFirmly piece) (front : List Char) :
    EndsFirmly (front ++ piece) := by
  obtain ⟨c, hlast, hc⟩ := h
  refine ⟨c, ?_, hc⟩
  rw [List.getLast?_append, Option.mem_def.1 hlast]
  rfl

theorem opensGap_of_isWordPart
    {c : Char} (h : Text.isWordPart c = true) :
    opensGap c = false := by
  rw [Bool.eq_false_iff]
  intro hopens
  have hpart := (detached_of_opensGap hopens [] c rfl).1
  rw [h] at hpart
  cases hpart

theorem endsFirmly_of_forall
    {piece : List Char} (hne : piece ≠ []) (h : ∀ c ∈ piece, Text.isWordPart c = true) :
    EndsFirmly piece :=
  ⟨piece.getLast hne, List.getLast?_eq_some_getLast hne,
    opensGap_of_isWordPart (h _ (List.getLast_mem hne))⟩

theorem endsFirmly_concat
    (front : List Char) {c : Char} (hc : opensGap c = false) :
    EndsFirmly (front ++ [c]) :=
  ⟨c, List.getLast?_concat, hc⟩

theorem endsFirmly_of_isName
    {name : List Char} (h : IsName name) :
    EndsFirmly name := by
  refine endsFirmly_of_forall ?_ (isWordPart_of_mem_name h)
  obtain ⟨first, rest, rfl, -⟩ := h
  exact List.cons_ne_nil _ _

theorem endsFirmly_of_isDigits
    {digits : List Char} (h : IsDigits digits) :
    EndsFirmly digits :=
  endsFirmly_of_forall h.1 fun c hc => by simp [Text.isWordPart, h.2 c hc]

theorem endsFirmly_of_isUnsigned
    {piece : List Char} (h : IsUnsigned piece) :
    EndsFirmly piece := by
  rcases h with hwhole | ⟨fraction, rfl, hfraction⟩ | ⟨whole, fraction, rfl, -, hfraction⟩
  · exact endsFirmly_of_isDigits hwhole
  · exact (endsFirmly_of_isDigits hfraction).behind ['.']
  · exact ((endsFirmly_of_isDigits hfraction).behind ['.']).behind whole

/-- No word ends with a blank or a slash. -/
theorem endsFirmly_of_spelling
    {terminal : Terminal} {piece : List Char} (h : Spelling terminal piece) :
    EndsFirmly piece := by
  cases terminal with
  | identifier =>
      exact endsFirmly_of_isName h.1
  | number =>
      rcases h with hunsigned | ⟨unsigned, rfl, hunsigned⟩
      · exact endsFirmly_of_isUnsigned hunsigned
      · exact (endsFirmly_of_isUnsigned hunsigned).behind ['-']
  | className =>
      obtain ⟨name, rfl, hname⟩ := h
      exact (endsFirmly_of_isName hname).behind ['.']
  | markup | string =>
      obtain ⟨body, rfl, -⟩ := h
      exact endsFirmly_concat _ (by decide)
  | edgeOperator =>
      rcases h with rfl | rfl
      · exact endsFirmly_concat ['-'] (by decide)
      · exact endsFirmly_concat ['-'] (by decide)
  | _ =>
      subst h
      exact ⟨_, rfl, by decide⟩

/-- What stands in front of a place ends with the word in front of it. -/
theorem Reaches.endsFirmly
    {goal : Phrase} {length : Nat} {progress place : Progress}
    (h : Reaches goal length progress place) {front : List Char} (hfront : front ≠ [])
    (htext : progress.text = front ++ place.text) :
    EndsFirmly front := by
  rcases h.cases_last with rfl | ⟨before, word, hbefore, hstep⟩
  · exact absurd (List.self_eq_append_left.1 htext) hfront
  · obtain ⟨-, hpiece, -⟩ := taken_of_step hstep
    obtain ⟨inner, hinner, -⟩ := hbefore.exists_piece hstep
    obtain rfl : front = inner ++ word.piece := List.append_cancel_right (htext.symm.trans hinner)
    exact (endsFirmly_of_spelling (spelling_of_piece? hpiece)).behind inner

/-- A line feed in front of a place ends the gap that stands there, because it ends no word. -/
theorem Reaches.exists_gap
    {goal : Phrase} {length : Nat} {progress place : Progress}
    (h : Reaches goal length progress place) {front gap text : List Char}
    (htext : progress.text = front ++ place.text) (hline : text ++ ['\n'] = front ++ gap) :
    ∃ inner, gap = inner ++ ['\n'] := by
  rcases List.eq_nil_or_concat' gap with rfl | ⟨inner, c, rfl⟩
  · rw [List.append_nil] at hline
    have hne : front ≠ [] := by
      rw [← hline]
      exact List.append_ne_nil_of_right_ne_nil _ (List.cons_ne_nil _ _)
    obtain ⟨c, hlast, hopens⟩ := h.endsFirmly hne htext
    rw [← hline, List.getLast?_concat] at hlast
    obtain rfl := Option.some.inj hlast
    exact absurd hopens (by decide)
  · rw [← List.append_assoc] at hline
    obtain ⟨-, hfeed⟩ := List.append_inj' hline rfl
    exact ⟨inner, by rw [(List.cons.inj hfeed).1]⟩

end Ends

section Closings

/-- An end of a text that lacks some character stands behind that character. -/
theorem suffix_of_notMem
    (front : List Char) {c : Char} {ending behind : List Char} (hc : c ∉ ending)
    (h : ending <:+ front ++ c :: behind) :
    ending <:+ behind := by
  have hbehind : behind <:+ front ++ c :: behind :=
    (List.suffix_cons c behind).trans (List.suffix_append front _)
  by_cases hlength : ending.length ≤ behind.length
  · exact List.suffix_of_suffix_length_le h hbehind hlength
  · have hlater : c :: behind <:+ ending :=
      List.suffix_of_suffix_length_le (List.suffix_append front _) h (Nat.lt_of_not_le hlength)
    exact absurd (hlater.subset List.mem_cons_self) hc

theorem skipGap_brace :
    skipGap ['}'] ≠ [] := by
  rw [skipGap_eq_self (by decide)]
  exact List.cons_ne_nil _ _

/-- A closing brace on a line of its own at the end of a text is not skipped. -/
theorem skipGap_ne_nil_of_closing
    {text : List Char} (h : ['\n', '}'] <:+ text) :
    skipGap text ≠ [] := by
  have hslash : '/' ∉ ['\n', '}'] := by
    decide
  fun_induction skipGap text with
  | case1 rest _ ih =>
      obtain ⟨front, rfl⟩ := suffix_of_notMem ['/'] hslash h
      refine ih ?_
      rw [List.dropWhile_append]
      split
      case isTrue =>
        exact List.suffix_refl _
      case isFalse =>
        exact List.suffix_append _ _
  | case2 rest behind hbehind _ ih =>
      obtain ⟨body, rfl, -⟩ := exists_comment hbehind
      refine ih (suffix_of_notMem ('/' :: '*' :: (body ++ ['*'])) hslash ?_)
      simpa using h
  | case4 c rest _ _ _ ih =>
      rcases List.suffix_cons_iff.1 h with heq | hlater
      · rw [← (List.cons.inj heq).2]
        exact skipGap_brace
      · exact ih hlater
  | case3 | case5 =>
      exact List.cons_ne_nil _ _
  | case6 =>
      cases List.suffix_nil.1 h

/-- Nothing is skipped behind the last closing brace. -/
theorem eq_nil_of_closing
    {text rest : List Char} (hsuffix : rest <:+ text ++ ['\n', '}']) (h : skipGap rest = []) :
    rest = [] := by
  rcases List.suffix_or_suffix_of_suffix hsuffix (List.suffix_append text _) with hshort | hlong
  · rcases List.suffix_cons_iff.1 hshort with rfl | hshort
    · exact absurd h (skipGap_ne_nil_of_closing (List.suffix_refl _))
    · rcases List.suffix_cons_iff.1 hshort with rfl | hshort
      · exact absurd h skipGap_brace
      · exact List.suffix_nil.1 hshort
  · exact absurd h (skipGap_ne_nil_of_closing hlong)

/-- If the last word of a tree is a closing brace on a line of its own at the end of the source, the
other words have been read in front of that line. -/
theorem exists_place_of_closing
    {goal : Phrase} {text : List Char} {words : List Word} {tree : Tree (.phrase goal)}
    (h : read goal (text ++ ['\n', '}']) = .ok tree)
    (hyield : tree.yield = words ++ [⟨.rightBrace, ()⟩]) :
    ∃ place gap,
      Reaches goal (text ++ ['\n', '}']).length (Progress.start (text ++ ['\n', '}'])) place ∧
        place.text = gap ++ ['\n', '}'] ∧ IsGap (gap ++ ['\n']) ∧
        framesYield place.frames = words := by
  obtain ⟨later, hlater, hempty, hwhole⟩ := exists_reaches_of_ok (run_of_read h)
  have hwords := framesYield_of_whole? hwhole
  rw [framesYield_settle, hyield] at hwords
  rcases hlater.cases_last with rfl | ⟨place, taken, hplace, hstep⟩
  · simp [Progress.start, framesYield] at hwords
  · have houtcome : Outcome goal (text ++ ['\n', '}']).length place (.more taken later) :=
      hstep ▸ outcome_step
    obtain ⟨gap, hgap, -, hskip⟩ := skipsGap place.text
    obtain ⟨front, -, hfront, -⟩ := hplace.exists_front
    cases houtcome with
    | @taken word piece behind hfirst htells hread =>
        simp only at hwords hempty
        rw [framesYield_readWord? hread] at hwords
        obtain ⟨hbefore, hword⟩ := List.append_inj' hwords rfl
        obtain rfl := (List.cons.inj hword).1
        obtain ⟨rfl, rest, hrest⟩ := fixedPiece?_eq_some_iff.1 (piece?_of_firstWord? hfirst)
        rw [← hrest] at hempty hgap hskip
        rw [List.drop_left] at hempty
        have hplaced := hfront
        simp only [Progress.start] at hfront
        rw [hgap, ← List.append_assoc] at hfront
        obtain rfl : rest = [] := by
          have hsuffix : rest <:+ text ++ ['\n', '}'] := by
            refine ⟨front ++ gap ++ ['}'], ?_⟩
            rw [hfront, List.append_assoc]
            rfl
          exact eq_nil_of_closing hsuffix hempty
        have hline : text ++ ['\n'] = front ++ gap := by
          refine List.append_cancel_right
            (?_ : text ++ ['\n'] ++ ['}'] = front ++ gap ++ ['}'])
          rw [List.append_assoc]
          exact hfront
        obtain ⟨inner, rfl⟩ := hplace.exists_gap hplaced hline
        refine ⟨place, inner, hplace, ?_, hskip (by simp), hbefore⟩
        rw [hgap, List.append_assoc]
        rfl

end Closings

section Seams

/-- A source goes on otherwise behind the gap at some place: where the words in front of the place
and those of the new text make a tree, the new source is read as that tree. -/
theorem read_of_exchange
    {goal : Phrase} (hgoal : IsGoal goal) {source front gap back later : List Char}
    {place : Progress} {words : List Word} {tree : Tree (.phrase goal)}
    (hplace : Reaches goal source.length (Progress.start source) place)
    (hsource : source = front ++ back) (htext : place.text = gap ++ back)
    (hlater : Detached later) (hscans : Scans (gap ++ later) words [])
    (hyield : tree.yield = framesYield place.frames ++ words) :
    read goal (front ++ later) = .ok tree := by
  obtain ⟨before, hbefore, hcuts⟩ := hplace.exists_read hsource htext
  have hwords : framesYield place.frames = before := framesYield_readWords? hbefore
  -- The words of the tree are read behind those in front of the place.
  have hall := readAll?_yield hgoal tree
  rw [hyield, hwords, readAll?, readWords?_append, hbefore, Option.bind_some] at hall
  obtain ⟨final, hread, hwhole⟩ := Option.bind_eq_some_iff.1 hall
  obtain ⟨last, hfront⟩ := hcuts later ⟨gap, back, later, htext, rfl, hlater⟩
  obtain ⟨last', hbehind⟩ :=
    run_of_scans hgoal (front ++ later).length hscans last (framed_readWords? .nil hbefore) hread
  rw [hfront, hbehind]
  exact run_of_whole? _ _ (by rw [skipGap]) hwhole

/-- A source goes on with another text behind a line feed: where the words of both make a tree, the
text is read as that tree. -/
theorem read_of_seam
    {goal : Phrase} (hgoal : IsGoal goal) {source front gap back later : List Char}
    {place : Progress} {words : List Word} {tree : Tree (.phrase goal)}
    (hplace : Reaches goal source.length (Progress.start source) place)
    (hsource : source = front ++ back) (htext : place.text = gap ++ back)
    (hgap : IsGap (gap ++ ['\n'])) (hlater : Scans later words [])
    (hyield : tree.yield = framesYield place.frames ++ words) :
    read goal (front ++ '\n' :: later) = .ok tree := by
  have hskip : skipGap (gap ++ '\n' :: later) = skipGap later := by
    have hfeed := hgap later
    rwa [List.append_assoc] at hfeed
  exact read_of_exchange hgoal hplace hsource htext (detached_of_opensGap (by decide) later)
    (.gap hskip hlater) hyield

end Seams

end Reading
end DotCascade
