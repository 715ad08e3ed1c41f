import DotCascade.Proofs.Reading.Gaps
import DotCascade.Proofs.Reading.Pieces
import DotCascade.Proofs.Reading.Spaced
import DotCascade.Proofs.Reading.Steps
import Mathlib.Data.List.TakeWhile

/-!
# Sources that are cut off

A source is cut off at some place and goes on with a text that begins with no letter,
digit or dot, such as a blank or a comment (`IsCut`).  Such a text continues no word, so a
word that stands in front of the place is found as it was before (`firstWord?_of_isCut`);
and the gap that reaches up to the place stays a gap, at the latest with a line feed
behind it.  So reading takes the same words up to the place, and then goes on with what
stands behind the line feed (`run_of_isCut`).
-/

namespace DotCascade
namespace Reading

open Grammar

section Cuts

/-- The characters that blanks and comments begin with. -/
def opensGap (c : Char) : Bool :=
  Text.isBlank c || c = '/'

/-- A text is cut off at some place and goes on with a text that continues no word. -/
def IsCut (text cut : List Char) : Prop :=
  ∃ front back later, text = front ++ back ∧ cut = front ++ later ∧ Detached later

/-- No gap opens with a letter, a digit or a dot. -/
theorem detached_of_opensGap
    {c : Char} (h : opensGap c = true) (rest : List Char) :
    Detached (c :: rest) := by
  simp only [opensGap, Text.isBlank, Bool.or_eq_true, decide_eq_true_eq] at h
  rcases h with ((((rfl | rfl) | rfl) | rfl) | rfl) | rfl <;>
    exact detached_cons (by decide) (by decide)

/-- What holds of the front of a text and of every character that is no letter holds of the front of
the cut text. -/
theorem IsCut.head
    {p : Char → Prop} {text cut : List Char} (h : IsCut text cut)
    (hgap : ∀ c, Text.isWordPart c = false → p c) (htext : ∀ c ∈ text.head?, p c) :
    ∀ c ∈ cut.head?, p c := by
  intro c hc
  obtain ⟨front, back, later, rfl, rfl, hlater⟩ := h
  cases front with
  | nil =>
      exact hgap c (hlater c hc).1
  | cons d front =>
      exact htext c hc

theorem isDigit_of_not_isWordPart
    (c : Char) (h : Text.isWordPart c = false) :
    c.isDigit = false := by
  simp only [Text.isWordPart, Bool.or_eq_false_iff] at h
  exact h.2

theorem IsCut.behind
    {text cut : List Char} (h : IsCut text cut) (front : List Char) :
    IsCut (front ++ text) (front ++ cut) := by
  obtain ⟨inner, back, later, rfl, rfl, hlater⟩ := h
  exact ⟨front ++ inner, back, later, by simp, by simp, hlater⟩

/-- The piece that a reader finds in a text is its beginning, and is found as well when the text is
cut off behind it. -/
def SteadyAt (reader : List Char → Option (List Char)) (text : List Char) : Prop :=
  ∀ piece, reader text = some piece →
    ∃ rest, text = piece ++ rest ∧ ∀ cut, IsCut rest cut → reader (piece ++ cut) = some piece

/-- Characters that a reader takes in front of what another one finds make no difference. -/
theorem SteadyAt.behind
    {reader inner : List Char → Option (List Char)} {text : List Char} (h : SteadyAt inner text)
    (front : List Char)
    (hreader : ∀ rest, reader (front ++ rest) = (inner rest).map (front ++ ·)) :
    SteadyAt reader (front ++ text) := by
  intro piece hpiece
  rw [hreader] at hpiece
  obtain ⟨found, hfound, rfl⟩ := Option.map_eq_some_iff.1 hpiece
  obtain ⟨rest, rfl, hcuts⟩ := h found hfound
  refine ⟨rest, (List.append_assoc ..).symm, fun cut hcut => ?_⟩
  rw [List.append_assoc, hreader, hcuts cut hcut]
  rfl

theorem steadyAt_of_none
    {reader : List Char → Option (List Char)} {text : List Char} (h : reader text = none) :
    SteadyAt reader text := by
  intro piece hpiece
  rw [h] at hpiece
  cases hpiece

end Cuts

section Letters

theorem steadyAt_word?
    (text : List Char) :
    SteadyAt Text.word? text := by
  intro word h
  have hname := isName_of_word? h
  obtain ⟨c, tail, rfl, hc⟩ := exists_cons_of_word? h
  rw [Text.word?, if_pos hc] at h
  obtain rfl := Option.some.inj h
  refine ⟨tail.dropWhile Text.isWordPart, ?_,
    fun cut hcut => word?_append hname (hcut.head ?_ ?_)⟩
  · rw [List.cons_append, List.takeWhile_append_dropWhile]
  · exact fun _ hd => hd
  · intro d hd
    have hnot := List.head?_dropWhile_not Text.isWordPart tail
    rw [Option.mem_def.1 hd] at hnot
    simpa using hnot

theorem steadyAt_identifierPiece?
    (text : List Char) :
    SteadyAt identifierPiece? text := by
  intro piece h
  obtain ⟨hword, hkeyword⟩ := identifierPiece?_eq_some_iff.1 h
  obtain ⟨rest, htext, hcuts⟩ := steadyAt_word? text piece hword
  exact ⟨rest, htext, fun cut hcut => identifierPiece?_eq_some_iff.2 ⟨hcuts cut hcut, hkeyword⟩⟩

theorem steadyAt_classPiece?
    (text : List Char) :
    SteadyAt classPiece? text := by
  fun_cases classPiece? text with
  | case1 tail =>
      exact (steadyAt_word? tail).behind ['.'] fun _ => rfl
  | case2 _ hdot =>
      exact steadyAt_of_none (by rw [classPiece?]; exact hdot)

end Letters

section Numbers

theorem digits?_eq_none_iff
    {text : List Char} :
    digits? text = none ↔ ∀ c ∈ text.head?, c.isDigit = false := by
  cases text with
  | nil =>
      simp [digits?]
  | cons c rest =>
      by_cases hc : c.isDigit = true
      · simp [digits?, hc]
      · simp [digits?, hc]

theorem steadyAt_digits?
    (text : List Char) :
    SteadyAt digits? text := by
  intro digits h
  obtain ⟨hdigits, rest, rfl, hrest⟩ := digits?_eq_some h
  exact ⟨rest, rfl, fun cut hcut =>
    digits?_append hdigits (hcut.head isDigit_of_not_isWordPart hrest)⟩

/-- Digits in front of a dot and further digits are a number with a fraction. -/
theorem unsignedPiece?_fraction
    {whole tail fraction : List Char} (hwhole : IsDigits whole)
    (hfraction : digits? tail = some fraction) :
    unsignedPiece? (whole ++ '.' :: tail) = some (whole ++ '.' :: fraction) := by
  have hdigits : digits? (whole ++ '.' :: tail) = some whole := digits?_append hwhole (by simp)
  unfold unsignedPiece?
  split
  case h_1 rest heq =>
    exact absurd heq (ne_cons_of_isDigits hwhole (by decide) _ rest)
  case h_2 =>
    simp only [hdigits, List.drop_left, hfraction]

/-- Other digits are a number by themselves. -/
theorem unsignedPiece?_whole
    {whole rest : List Char} (hwhole : IsDigits whole)
    (hrest : ∀ c ∈ rest.head?, c.isDigit = false)
    (hdot : ∀ tail, rest = '.' :: tail → digits? tail = none) :
    unsignedPiece? (whole ++ rest) = some whole := by
  have hdigits := digits?_append hwhole hrest
  unfold unsignedPiece?
  split
  case h_1 tail heq =>
    exact absurd heq (ne_cons_of_isDigits hwhole (by decide) rest tail)
  case h_2 =>
    simp only [hdigits, List.drop_left]
    split
    case h_1 tail _ =>
      rw [hdot tail rfl]
    case h_2 =>
      rfl

/-- Where no fraction stands behind a dot, none does when the text is cut off. -/
theorem IsCut.no_fraction
    {rest cut : List Char} (h : IsCut rest cut)
    (hdot : ∀ tail, rest = '.' :: tail → digits? tail = none) :
    ∀ tail, cut = '.' :: tail → digits? tail = none := by
  rintro tail rfl
  obtain ⟨front, back, later, rfl, hcut, hlater⟩ := h
  cases front with
  | nil =>
      rw [← List.nil_append later, ← hcut] at hlater
      exact absurd rfl (hlater '.' rfl).2
  | cons c front =>
      obtain ⟨rfl, rfl⟩ := List.cons.inj hcut
      have hnone := digits?_eq_none_iff.1 (hdot (front ++ back) rfl)
      have hcut : IsCut (front ++ back) (front ++ later) := ⟨front, back, later, rfl, rfl, hlater⟩
      exact digits?_eq_none_iff.2 (hcut.head isDigit_of_not_isWordPart hnone)

theorem steadyAt_unsignedPiece?
    (text : List Char) :
    SteadyAt unsignedPiece? text := by
  intro piece h
  unfold unsignedPiece? at h
  split at h
  case h_1 tail =>
    exact (steadyAt_digits? tail).behind ['.'] (fun _ => rfl) piece h
  case h_2 =>
    split at h
    case h_1 =>
      cases h
    case h_2 whole hwhole =>
      obtain ⟨hdigits, rest, rfl, hrest⟩ := digits?_eq_some hwhole
      rw [List.drop_left] at h
      split at h
      case h_1 tail _ =>
        split at h
        case h_1 fraction hfraction =>
          obtain rfl := Option.some.inj h
          obtain ⟨rest, rfl, hcuts⟩ := steadyAt_digits? tail fraction hfraction
          refine ⟨rest, by simp, fun cut hcut => ?_⟩
          rw [List.append_assoc, List.cons_append]
          exact unsignedPiece?_fraction hdigits (hcuts cut hcut)
        case h_2 hnone =>
          obtain rfl := Option.some.inj h
          refine ⟨'.' :: tail, rfl, fun cut hcut => ?_⟩
          refine unsignedPiece?_whole hdigits (hcut.head isDigit_of_not_isWordPart hrest)
            (hcut.no_fraction ?_)
          intro other heq
          rwa [← (List.cons.inj heq).2]
      case h_2 hdot =>
        obtain rfl := Option.some.inj h
        refine ⟨rest, rfl, fun cut hcut => ?_⟩
        refine unsignedPiece?_whole hdigits (hcut.head isDigit_of_not_isWordPart hrest)
          (hcut.no_fraction ?_)
        exact fun tail htail => absurd htail (hdot tail)

theorem steadyAt_numberPiece?
    (text : List Char) :
    SteadyAt numberPiece? text := by
  fun_cases numberPiece? text with
  | case1 tail =>
      exact (steadyAt_unsignedPiece? tail).behind ['-'] fun _ => rfl
  | case2 _ hminus =>
      intro piece h
      rw [numberPiece?] at h
      · obtain ⟨rest, rfl, hcuts⟩ := steadyAt_unsignedPiece? text piece h
        refine ⟨rest, rfl, fun cut hcut => ?_⟩
        rw [numberPiece?]
        · exact hcuts cut hcut
        · intro tail heq
          obtain ⟨c, inner, rfl⟩ := List.exists_cons_of_ne_nil (unsignedPiece?_ne_nil h)
          obtain ⟨rfl, -⟩ := List.cons.inj heq
          exact hminus _ rfl
      · exact hminus

end Numbers

section Others

theorem steadyAt_toClosingQuote?
    (text : List Char) :
    SteadyAt toClosingQuote? text := by
  fun_induction toClosingQuote? text with
  | case1 rest =>
      intro piece h
      obtain rfl := Option.some.inj h
      exact ⟨rest, rfl, fun _ _ => rfl⟩
  | case2 c tail ih =>
      exact ih.behind ['\\', c] fun _ => by rw [List.cons_append]; rfl
  | case3 =>
      exact steadyAt_of_none rfl
  | case4 c tail hquote hpair hlast ih =>
      refine ih.behind [c] fun rest => ?_
      have hslash := ne_backslash hpair hlast
      rw [List.singleton_append, toClosingQuote?]
      · rfl
      all_goals simp_all
  | case5 =>
      exact steadyAt_of_none rfl

theorem steadyAt_toClosingBracket?
    (depth : Nat) (text : List Char) :
    SteadyAt (toClosingBracket? depth) text := by
  fun_induction toClosingBracket? depth text with
  | case1 depth tail ih =>
      exact ih.behind ['<'] fun _ => by rw [List.singleton_append, toClosingBracket?]; rfl
  | case2 rest =>
      intro piece h
      obtain rfl := Option.some.inj h
      exact ⟨rest, rfl, fun _ _ => rfl⟩
  | case3 depth tail ih =>
      exact ih.behind ['>'] fun _ => rfl
  | case4 depth c tail hleft hlast hright ih =>
      refine ih.behind [c] fun rest => ?_
      rw [List.singleton_append, toClosingBracket?]
      · rfl
      · exact hleft
      · exact hlast
      · exact hright
  | case5 =>
      exact steadyAt_of_none (by rw [toClosingBracket?])

theorem steadyAt_fixedPiece?
    (spelling : String) (text : List Char) :
    SteadyAt (fixedPiece? spelling) text := by
  intro piece h
  obtain ⟨rfl, rest, rfl⟩ := fixedPiece?_eq_some_iff.1 h
  exact ⟨rest, rfl, fun cut _ => fixedPiece?_append spelling cut⟩

theorem steadyAt_markupPiece?
    (text : List Char) :
    SteadyAt markupPiece? text := by
  fun_cases markupPiece? text with
  | case1 tail =>
      exact (steadyAt_toClosingBracket? 0 tail).behind ['<'] fun _ => rfl
  | case2 _ hbracket =>
      exact steadyAt_of_none (by rw [markupPiece?]; exact hbracket)

theorem steadyAt_stringPiece?
    (text : List Char) :
    SteadyAt stringPiece? text := by
  fun_cases stringPiece? text with
  | case1 tail =>
      exact (steadyAt_toClosingQuote? tail).behind ['"'] fun _ => rfl
  | case2 _ hquote =>
      exact steadyAt_of_none (by rw [stringPiece?]; exact hquote)

theorem steadyAt_edgeOperator
    (text : List Char) :
    SteadyAt (piece? .edgeOperator) text := by
  intro piece h
  simp only [piece?, Option.or_eq_some_iff] at h
  rcases h with h | ⟨-, h⟩
  · obtain ⟨rest, htext, hcuts⟩ := steadyAt_fixedPiece? "->" text piece h
    refine ⟨rest, htext, fun cut hcut => ?_⟩
    rw [piece?, hcuts cut hcut]
    rfl
  · obtain ⟨rest, htext, -⟩ := steadyAt_fixedPiece? "--" text piece h
    refine ⟨rest, htext, fun cut _ => ?_⟩
    obtain ⟨rfl, -⟩ := fixedPiece?_eq_some_iff.1 h
    rfl

/-- All readers of pieces are steady. -/
theorem steadyAt_piece?
    (terminal : Terminal) (text : List Char) :
    SteadyAt (piece? terminal) text := by
  cases terminal with
  | identifier =>
      exact steadyAt_identifierPiece? text
  | markup =>
      exact steadyAt_markupPiece? text
  | number =>
      exact steadyAt_numberPiece? text
  | className =>
      exact steadyAt_classPiece? text
  | string =>
      exact steadyAt_stringPiece? text
  | edgeOperator =>
      exact steadyAt_edgeOperator text
  | _ =>
      exact steadyAt_fixedPiece? _ text

end Others

section FirstWords

variable {admitted : Terminal → Bool} {text piece : List Char} {terminal : Terminal}

/-- A bare word is tried before all others. -/
theorem piece?_identifier_eq_none
    (hadmitted : admitted .identifier = true)
    (h : firstWord? admitted text = some (terminal, piece)) (hne : terminal ≠ .identifier) :
    piece? .identifier text = none := by
  rw [firstWord?, Terminal.all, List.filter_cons_of_pos hadmitted, List.findSome?_cons] at h
  cases hpiece : piece? .identifier text with
  | none =>
      rfl
  | some found =>
      rw [hpiece] at h
      exact absurd (Prod.mk.inj (Option.some.inj h)).1.symm hne

theorem word?_name_append
    {name : List Char} (hname : IsName name) (rest : List Char) :
    Text.word? (name ++ rest) = some (name ++ rest.takeWhile Text.isWordPart) := by
  obtain ⟨first, tail, rfl, hfirst, htail⟩ := hname
  simp [Text.word?, hfirst, List.takeWhile_append_of_pos htail]

/-- A word that cannot be a bare word is no longer than a keyword with which it begins. -/
theorem eq_nil_of_keyword
    {letters : List Char} (hletter : terminal ∈ letterKinds) (hne : terminal ≠ .identifier)
    (h : (fixedSpelling terminal).toList ++ letters ∈ keywords.map String.toList) :
    letters = [] := by
  simp only [letterKinds, List.mem_cons, List.not_mem_nil, or_false, hne, false_or] at hletter
  rcases hletter with rfl | rfl | rfl | rfl | rfl | rfl <;>
    simp_all [keywords, fixedSpelling]

/-- A keyword that is no bare word in front of a text is none either when the text is cut off. -/
theorem piece?_identifier_of_isCut
    {rest cut : List Char} (hletter : terminal ∈ letterKinds) (hne : terminal ≠ .identifier)
    (hcut : IsCut rest cut)
    (h : piece? .identifier ((fixedSpelling terminal).toList ++ rest) = none) :
    piece? .identifier ((fixedSpelling terminal).toList ++ cut) = none := by
  have hname := isName_fixedSpelling hletter hne
  have hword := word?_name_append hname rest
  simp only [piece?, identifierPiece?, hword] at h
  split at h
  case isFalse =>
    cases h
  case isTrue hkeyword =>
    rw [List.contains_iff_mem] at hkeyword
    have hmem := List.mem_map_of_mem (f := String.toList) hkeyword
    rw [String.toList_ofList] at hmem
    rw [eq_nil_of_keyword hletter hne hmem, List.append_nil] at hkeyword hword
    obtain ⟨tail, htail, hcuts⟩ := steadyAt_word? _ _ hword
    obtain rfl := List.append_cancel_left htail
    simp only [piece?, identifierPiece?, hcuts cut hcut, List.contains_iff_mem, if_pos hkeyword]

/-- The first word of a text is the first one as well when the text is cut off behind it. -/
theorem firstWord?_of_isCut
    (h : firstWord? admitted text = some (terminal, piece)) :
    ∃ rest, text = piece ++ rest ∧
      ∀ cut, IsCut rest cut → firstWord? admitted (piece ++ cut) = some (terminal, piece) := by
  obtain ⟨hadmitted, hpiece⟩ := found_of_firstWord? h
  obtain ⟨rest, rfl, hcuts⟩ := steadyAt_piece? terminal text piece hpiece
  refine ⟨rest, rfl, fun cut hcut => ?_⟩
  have hfound := hcuts cut hcut
  by_cases hidentifier : terminal = .identifier
  · subst hidentifier
    simp [firstWord?, Terminal.all, hadmitted, hfound]
  · have hmem : terminal ∈ Terminal.all.filter admitted :=
      List.mem_filter.2 ⟨Terminal.mem_all _, hadmitted⟩
    rw [firstWord?, findSome?_of_alone hmem (by simp [hfound])]
    · simp [hfound]
    · intro other hother hne
      rw [Option.map_eq_none_iff]
      cases hpieceOther : piece? other (piece ++ cut) with
      | none =>
          rfl
      | some found =>
          by_cases hletter : terminal ∈ letterKinds
          · obtain ⟨rfl, -⟩ := eq_of_piece?_keyword hletter hidentifier hpiece
            by_cases hbare : other = .identifier
            · subst hbare
              have hnone :=
                piece?_identifier_eq_none (List.mem_filter.1 hother).2 h hidentifier
              rw [piece?_identifier_of_isCut hletter hidentifier hcut hnone] at hpieceOther
              cases hpieceOther
            · exact absurd (eq_of_keywords hletter hidentifier hbare hpieceOther) hne
          · have hkinds := mem_kindsAt hpieceOther
            rw [kindsAt_eq_singleton (mem_kindsAt hfound) hletter] at hkinds
            exact absurd (List.mem_singleton.1 hkinds) hne

end FirstWords

section Runs

variable {goal : Phrase} {length : Nat}

/-- A word that is taken is taken as well when the text is cut off behind it. -/
theorem run_of_taken
    {frames behind : List Frame} {text piece : List Char} {word : Word}
    (hfirst : firstWord? (fun terminal => (stateBehind goal frames).admits terminal)
      (skipGap text) = some (word.terminal, piece))
    (htells : lexeme word.terminal piece = .ok word.lexeme)
    (hread : readWord? goal frames word = some behind) :
    ∃ gap rest, text = gap ++ piece ++ rest ∧ (skipGap text).drop piece.length = rest ∧
      ∀ length last cut, IsCut rest cut →
        Progress.run goal length ⟨frames, last, gap ++ piece ++ cut⟩ =
          Progress.run goal length ⟨behind, piece ++ cut, cut⟩ := by
  obtain ⟨gap, hgap, -, hskip⟩ := skipsGap text
  obtain ⟨rest, hrest, hcuts⟩ := firstWord?_of_isCut hfirst
  refine ⟨gap, rest, ?_, ?_, fun length last cut hcut => ?_⟩
  · rw [hgap, hrest, List.append_assoc]
  · rw [hrest, List.drop_left]
  · have hnew := hcuts cut hcut
    have hpiece := piece?_of_firstWord? hnew
    have hfilled : skipGap text ≠ [] := by
      rw [hrest]
      exact List.append_ne_nil_of_left_ne_nil (piece?_ne_nil hpiece) rest
    have htext : skipGap (gap ++ piece ++ cut) = piece ++ cut := by
      rw [List.append_assoc, hskip hfilled]
      exact skipGap_eq_self (List.ne_nil_of_mem (mem_kindsAt hpiece))
    rw [run_eq, step_of_readWord? htext hnew htells hread, List.drop_left]

/-- The words up to a place that reading reaches are read as well when the source is cut off behind
it. -/
theorem Reaches.exists_front
    {progress place : Progress} (h : Reaches goal length progress place) :
    ∃ front words, progress.text = front ++ place.text ∧
      readWords? goal progress.frames words = some place.frames ∧
      ∀ length' last cut, IsCut place.text cut →
        ∃ last', Progress.run goal length' ⟨progress.frames, last, front ++ cut⟩ =
          Progress.run goal length' ⟨place.frames, last', cut⟩ := by
  induction h with
  | here =>
      exact ⟨[], [], rfl, rfl, fun _ last _ _ => ⟨last, rfl⟩⟩
  | @taken _ progress next _ hstep _ ih =>
      have houtcome : Outcome goal length progress (.more _ next) := hstep ▸ outcome_step
      cases houtcome with
      | @taken word piece behind hfirst htells hread =>
          obtain ⟨gap, rest, htext, hrest, hcuts⟩ := run_of_taken hfirst htells hread
          obtain ⟨front, words, hplace, hwords, hrun⟩ := ih
          rw [hrest] at hplace
          subst hplace
          refine ⟨gap ++ piece ++ front, word :: words, ?_, ?_, fun length' last cut hcut => ?_⟩
          · rw [htext, List.append_assoc _ front]
          · simp only [readWords?, hread, Option.bind_some, hwords]
          · rw [List.append_assoc _ front, hcuts length' last _ (hcut.behind front)]
            exact hrun length' _ cut hcut

/-- A word that is taken stands at the front of a text, with the text that is left behind it. -/
theorem text_of_step
    {place next : Progress} {taken : Taken} (h : step goal length place = .more taken next) :
    taken.text = taken.piece ++ next.text := by
  obtain ⟨-, hpiece, hnext⟩ := taken_of_step h
  obtain ⟨rest, hrest, -⟩ := steadyAt_piece? _ _ _ hpiece
  rw [hnext, hrest, List.drop_left]

/-- Such a word stands in the source. -/
theorem Reaches.exists_piece
    {progress place next : Progress} {taken : Taken} (h : Reaches goal length progress place)
    (hstep : step goal length place = .more taken next) :
    ∃ front, progress.text = front ++ taken.piece ++ next.text ∧
      taken.text = taken.piece ++ next.text := by
  obtain ⟨hskip, -, -⟩ := taken_of_step hstep
  obtain ⟨inner, -, hinner, -⟩ := h.exists_front
  obtain ⟨gap, hgap, -⟩ := skipsGap place.text
  have hbehind := text_of_step hstep
  refine ⟨inner ++ gap, ?_, hbehind⟩
  rw [hinner, hgap, hskip, hbehind]
  simp only [List.append_assoc]

/-- Up to a place that reading reaches, a source is read as before when it goes on otherwise behind
the gap that stands there. -/
theorem Reaches.exists_read
    {source front gap back : List Char} {place : Progress}
    (h : Reaches goal source.length (Progress.start source) place)
    (hsource : source = front ++ back) (htext : place.text = gap ++ back) :
    ∃ words, readWords? goal [] words = some place.frames ∧
      ∀ later, IsCut place.text (gap ++ later) →
        ∃ last, read goal (front ++ later) =
          Progress.run goal (front ++ later).length ⟨place.frames, last, gap ++ later⟩ := by
  obtain ⟨inner, words, hinner, hwords, hcuts⟩ := h.exists_front
  simp only [Progress.start] at hinner hwords hcuts
  obtain rfl : front = inner ++ gap := by
    refine List.append_cancel_right (?_ : front ++ back = inner ++ gap ++ back)
    rw [← hsource, hinner, htext, List.append_assoc]
  refine ⟨words, hwords, fun later hcut => ?_⟩
  rw [read_eq_run, Progress.start, List.append_assoc]
  exact hcuts _ _ _ hcut

/-- Reading fails at something unexpected: up to its place, or up to the end of the source, some
words have been read, and they are read as well when the source is cut off there. -/
theorem run_of_isCut
    {progress : Progress} {offset : Nat} {found : Found} {expected : List Lookahead}
    (h : progress.run goal length = .error (.unexpected offset found expected)) :
    ∃ front back words frames, progress.text = front ++ back ∧
      found.StandsAt back ∧ (found ≠ .finish → offset = length - back.length) ∧
      readWords? goal progress.frames words = some frames ∧
      ∀ length' last later, ∃ last',
        Progress.run goal length' ⟨progress.frames, last, front ++ '\n' :: later⟩ =
          Progress.run goal length' ⟨frames, last', later⟩ := by
  obtain ⟨place, hplace, hstep⟩ := exists_reaches_of_error h
  obtain ⟨front, words, htext, hwords, hrun⟩ := hplace.exists_front
  obtain ⟨gap, hgap, hclosed, -⟩ := skipsGap place.text
  -- The gap in front of what is unexpected stays a gap in front of a line feed.
  have hfeed : ∀ length' last later, ∃ last',
      Progress.run goal length' ⟨progress.frames, last, front ++ gap ++ '\n' :: later⟩ =
        Progress.run goal length' ⟨place.frames, last', later⟩ := by
    intro length' last later
    obtain ⟨last', hcut⟩ := hrun length' last (gap ++ '\n' :: later)
      ⟨gap, skipGap place.text, '\n' :: later, hgap, rfl, detached_of_opensGap (by decide) later⟩
    refine ⟨last', ?_⟩
    rw [List.append_assoc, hcut]
    refine run_congr_gap length' ?_
    have hskip := hclosed later
    rwa [List.append_assoc] at hskip
  have houtcome : Outcome goal length place (.failed (.unexpected offset found expected)) :=
    hstep ▸ outcome_step
  cases houtcome with
  | ended _ hnil =>
      rw [hnil, List.append_nil] at hgap
      refine ⟨front ++ gap, [], words, place.frames, ?_, rfl, nofun, hwords, hfeed⟩
      rw [List.append_nil, ← hgap, htext]
  | refused _ _ _ hfound =>
      refine ⟨front ++ gap, skipGap place.text, words, place.frames, ?_, hfound, fun _ => rfl,
        hwords, hfeed⟩
      rw [List.append_assoc, ← hgap, htext]
  | garbled _ hfailure =>
      exact absurd hfailure (lexemeOf_ne_unexpected _ _ _)

end Runs

end Reading
end DotCascade
