import DotCascade.Proofs.Atom.Legible
import DotCascade.Proofs.Reading.Cut

/-!
# Positions along a reading

A text without line feeds moves a position on in its line, and any other text is cut at
its last line feed (`cases_lastLineFeed?`).  So a cursor that passes a piece, and a place
that is found inside a piece, are where counting character by character leads
(`Cursor.position_pass`, `Position.inside_eq`).

A gap is passed comment by comment and blank by blank, and a word by its length alone
unless words of its kind may hold line feeds.  `Tracks` says that the positions that are
kept along a reading are those of their offsets.  It holds at the beginning of a source
and behind every word that is taken (`Tracks.behind`), so it holds where reading fails
(`exists_tracks_of_error`).
-/

namespace DotCascade

open Grammar Reading

namespace Text

section Lines

/-- A text holds no line feed, or it is cut at its last one. -/
theorem cases_lastLineFeed?
    (text : List Char) :
    (lastLineFeed? text = none ∧ '\n' ∉ text) ∨
      ∃ front line, text = front ++ '\n' :: line ∧ '\n' ∉ line ∧
        lastLineFeed? text = some front.length := by
  induction text with
  | nil =>
      exact Or.inl ⟨rfl, List.not_mem_nil⟩
  | cons c rest ih =>
      rcases ih with ⟨hnone, hrest⟩ | ⟨front, line, rfl, hline, hlast⟩
      · by_cases hc : c = '\n'
        · subst hc
          exact Or.inr ⟨[], rest, rfl, hrest, by simp [lastLineFeed?, hnone]⟩
        · exact Or.inl ⟨by simp [lastLineFeed?, hnone, hc], by simp [hrest, Ne.symm hc]⟩
      · refine Or.inr ⟨c :: front, line, rfl, hline, ?_⟩
        rw [lastLineFeed?, hlast]
        rfl

theorem line_foldl_advance
    (p : Position) (text : List Char) :
    (text.foldl Position.advance p).line = p.line + text.count '\n' := by
  induction text generalizing p with
  | nil =>
      rfl
  | cons c text ih =>
      rw [List.foldl_cons, ih, Position.advance, List.count_cons]
      by_cases hc : c = '\n'
      · simp [hc]
        omega
      · simp [hc]

/-- Characters other than line feeds move on in the line. -/
theorem foldl_advance_plain
    (p : Position) {text : List Char} (htext : '\n' ∉ text) :
    text.foldl Position.advance p = ⟨p.line, p.column + text.length⟩ := by
  induction text generalizing p with
  | nil =>
      rfl
  | cons c text ih =>
      rw [List.mem_cons, not_or] at htext
      rw [List.foldl_cons, ih _ htext.2, Position.advance, if_neg (Ne.symm htext.1),
        List.length_cons, Nat.add_assoc, Nat.add_comm 1]

/-- The column behind a text with line feeds is counted from the last one. -/
theorem foldl_advance_lines
    (p : Position) (front : List Char) {line : List Char} (hline : '\n' ∉ line) :
    (front ++ '\n' :: line).foldl Position.advance p =
      ⟨p.line + (front ++ '\n' :: line).count '\n', line.length + 1⟩ := by
  rw [List.foldl_append, List.foldl_cons, Position.advance, if_pos rfl,
    foldl_advance_plain _ hline, line_foldl_advance, List.count_append, List.count_cons_self,
    List.count_eq_zero_of_not_mem hline, Nat.add_comm 1, Nat.add_assoc]

end Lines

section Cursors

/-- A place inside a piece is found where counting up to it leads. -/
theorem Position.inside_eq
    (p : Position) {piece : List Char} {index : Nat} (hindex : index ≤ piece.length) :
    p.inside piece index = (piece.take index).foldl Position.advance p := by
  have hlength : (piece.take index).length = index := by
    rw [List.length_take, Nat.min_eq_left hindex]
  rw [Position.inside]
  generalize piece.take index = front at hlength
  rcases cases_lastLineFeed? front with ⟨hnone, hplain⟩ | ⟨lines, line, rfl, hline, hlast⟩
  · simp only [hnone]
    rw [foldl_advance_plain p hplain, hlength]
  · simp only [hlast]
    rw [foldl_advance_lines p lines hline, ← hlength, List.length_append, Nat.add_sub_cancel_left,
      List.length_cons]

namespace Cursor

variable (cursor : Cursor)

theorem position_moveOn
    {piece : List Char} (hpiece : '\n' ∉ piece) :
    (cursor.moveOn piece).position = piece.foldl Position.advance cursor.position := by
  have hstart := cursor.lineStart_le
  rw [foldl_advance_plain _ hpiece]
  simp only [position, moveOn, Position.mk.injEq, true_and]
  omega

theorem position_pass
    (piece : List Char) :
    (cursor.pass piece).position = piece.foldl Position.advance cursor.position := by
  unfold pass
  rcases cases_lastLineFeed? piece with ⟨hnone, hplain⟩ | ⟨lines, line, rfl, hline, hlast⟩
  · split
    case h_1 hsome =>
      rw [hnone] at hsome
      cases hsome
    case h_2 =>
      exact cursor.position_moveOn hplain
  · split
    case h_1 feed hsome =>
      obtain rfl := Option.some.inj (hlast.symm.trans hsome)
      rw [foldl_advance_lines _ lines hline]
      simp only [position, Position.mk.injEq, true_and, List.length_append, List.length_cons]
      omega
    case h_2 hnone =>
      rw [hlast] at hnone
      cases hnone

theorem position_foldl_pass
    (pieces : List (List Char)) :
    (pieces.foldl pass cursor).position = pieces.flatten.foldl Position.advance cursor.position := by
  induction pieces generalizing cursor with
  | nil =>
      rfl
  | cons piece pieces ih =>
      rw [List.foldl_cons, ih, position_pass, List.flatten_cons, List.foldl_append]

end Cursor

end Cursors

end Text

namespace Reading

open Text

section Pieces

theorem skipGap_dropWhile
    (text : List Char) :
    skipGap (text.dropWhile isBlank) = skipGap text := by
  induction text with
  | nil =>
      rfl
  | cons c text ih =>
      by_cases hc : isBlank c = true
      · rw [List.dropWhile_cons_of_pos hc, ih]
        exact (isGap_cons hc isGap_nil text).symm
      · rw [List.dropWhile_cons_of_neg hc]

/-- The comments and the blanks in front of a word are what is skipped there. -/
theorem append_gapPieces
    (text : List Char) :
    (gapPieces text).flatten ++ skipGap text = text := by
  fun_induction gapPieces text with
  | case1 rest _ ih =>
      rw [skipGap, List.flatten_cons, List.append_assoc, ih]
      simp
  | case2 rest behind hbehind _ ih =>
      obtain ⟨body, rfl, hbody⟩ := exists_comment hbehind
      have hcut : '/' :: '*' :: (body ++ '*' :: '/' :: behind) =
          '/' :: '*' :: (body ++ ['*', '/']) ++ behind := by
        simp
      rw [hcut, isGap_comment hbody behind, List.length_append, Nat.add_sub_cancel, List.take_left,
        List.flatten_cons, List.append_assoc, ih]
  | case3 rest hnone =>
      exact skipGap_of_endless hnone
  | case4 c rest _ _ hblank _ ih =>
      have hskip : skipGap (c :: rest) = skipGap rest := isGap_cons hblank isGap_nil rest
      rw [skipGap_dropWhile] at ih
      rw [hskip, List.flatten_cons, List.append_assoc, ih, List.cons_append,
        List.takeWhile_append_dropWhile]
  | case5 c rest hline hcomment hblank =>
      have hskip : skipGap (c :: rest) = c :: rest := by
        rw [skipGap, if_neg hblank] <;> assumption
      exact hskip
  | case6 =>
      rw [skipGap]
      rfl

/-- Only strings and markup words hold line feeds. -/
theorem notMem_of_piece?
    {terminal : Terminal} {text piece : List Char} (h : piece? terminal text = some piece)
    (hplain : mayHoldLineFeeds terminal = false) :
    '\n' ∉ piece := by
  have hspelling : Spelling terminal piece := spelling_of_piece? h
  have hbare {word : List Char} (hword : ∀ c ∈ word, isBareChar c = true) : '\n' ∉ word :=
    fun hmem => absurd (hword _ hmem) (by decide)
  cases terminal with
  | string | markup =>
      cases hplain
  | identifier =>
      exact hbare (isBareChar_of_spelling hspelling (Or.inl rfl))
  | number =>
      exact hbare (isBareChar_of_spelling hspelling (Or.inr rfl))
  | className =>
      obtain ⟨name, rfl, hname⟩ := hspelling
      refine hbare (List.forall_mem_cons.2 ⟨by decide, fun c hc => ?_⟩)
      simp [isBareChar, isWordPart_of_mem_name hname c hc]
  | edgeOperator =>
      rcases hspelling with rfl | rfl <;> decide
  | _ =>
      obtain rfl : piece = _ := hspelling
      decide

end Pieces

section Places

variable {goal : Phrase} {source : List Char}

/-- The position of a text with which a source ends. -/
def positionOf (source text : List Char) : Position :=
  .ofOffset source (offsetOf source.length text)

theorem offsetOf_eq
    {front text : List Char} (h : source = front ++ text) :
    offsetOf source.length text = front.length := by
  rw [h, offsetOf, List.length_append, Nat.add_sub_cancel]

theorem positionOf_eq
    {front text : List Char} (h : source = front ++ text) :
    positionOf source text = .ofOffset source front.length := by
  rw [positionOf, offsetOf_eq h]

theorem positionOf_append
    (front text : List Char) :
    positionOf (front ++ text) text = front.foldl Position.advance .start := by
  rw [positionOf_eq rfl, Position.ofOffset, List.take_left]

/-- The position behind a piece of a source is where counting over the piece leads. -/
theorem positionOf_behind
    {piece text : List Char} (h : piece ++ text <:+ source) :
    positionOf source text = piece.foldl Position.advance (positionOf source (piece ++ text)) := by
  obtain ⟨front, rfl⟩ := h
  rw [positionOf_append, ← List.foldl_append, ← List.append_assoc, positionOf_append]

/-- The cursor behind a word is where counting over the word leads. -/
theorem position_behindWord
    {terminal : Terminal} {text piece : List Char} (h : piece? terminal text = some piece)
    (cursor : Cursor) :
    (behindWord cursor terminal piece).position =
      piece.foldl Position.advance cursor.position := by
  unfold behindWord
  split
  case isTrue =>
    exact cursor.position_pass piece
  case isFalse hplain =>
    exact cursor.position_moveOn (notMem_of_piece? h (eq_false_of_ne_true hplain))

/-- The positions that are kept at a place of a source are those of the text that is still to be
read and of the last word. -/
structure Tracks (goal : Phrase) (source : List Char) (tracked : Tracked) : Prop where
  reaches : Reaches goal source.length (.start source) tracked.progress
  cursor : tracked.cursor.position = positionOf source tracked.progress.text
  last : tracked.last = positionOf source tracked.progress.last

variable {tracked : Tracked}

theorem tracks_start
    (goal : Phrase) (source : List Char) :
    Tracks goal source (.start source) :=
  ⟨.here, (positionOf_append [] source).symm, (positionOf_append [] source).symm⟩

/-- The cursor behind a gap has the position of the next word. -/
theorem Tracks.position_atWord
    (h : Tracks goal source tracked) :
    tracked.atWord.position = positionOf source (skipGap tracked.progress.text) := by
  have hcut := append_gapPieces tracked.progress.text
  have hsuffix :
      (gapPieces tracked.progress.text).flatten ++ skipGap tracked.progress.text <:+ source := by
    rw [hcut]
    exact h.reaches.suffix
  rw [Tracked.atWord, Cursor.position_foldl_pass, h.cursor, positionOf_behind hsuffix, hcut]

/-- A place inside the next word is found from the position of the word. -/
theorem Tracks.inside_atWord
    (h : Tracks goal source tracked) {inner behind rest : List Char}
    (htext : skipGap tracked.progress.text = inner ++ behind ++ rest) :
    tracked.atWord.position.inside (inner ++ behind) inner.length =
      positionOf source (behind ++ rest) := by
  have hinner : inner.length ≤ (inner ++ behind).length := by
    simp
  have hcut : skipGap tracked.progress.text = inner ++ (behind ++ rest) := by
    rw [htext, List.append_assoc]
  have hsuffix : inner ++ (behind ++ rest) <:+ source := by
    rw [← hcut]
    exact h.reaches.skipGap_suffix
  rw [Position.inside_eq _ hinner, List.take_left, h.position_atWord, hcut,
    positionOf_behind hsuffix]

/-- What holds at a place of a source holds behind the next word. -/
theorem Tracks.behind
    (h : Tracks goal source tracked) {taken : Taken} {next : Progress}
    (hstep : step goal source.length tracked.progress = .more taken next) :
    Tracks goal source (tracked.behind taken next) := by
  obtain ⟨htext, hpiece, -⟩ := taken_of_step hstep
  have hcut := text_of_step hstep
  have hsuffix : taken.piece ++ next.text <:+ source := by
    rw [← hcut, ← htext]
    exact h.reaches.skipGap_suffix
  have hword : tracked.atWord.position = positionOf source taken.text :=
    htext ▸ h.position_atWord
  refine ⟨h.reaches.trans (.taken hstep .here), ?_, ?_⟩
  · have hbehind := position_behindWord hpiece tracked.atWord
    rw [hword, hcut, ← positionOf_behind hsuffix] at hbehind
    exact hbehind
  · exact hword.trans (congrArg (positionOf source) (last_of_step hstep).symm)

/-- Where reading fails, the failure is located by the positions that are kept there. -/
theorem exists_tracks_of_error
    (h : Tracks goal source tracked) {located : Located}
    (hrun : tracked.run goal source.length = .error located) :
    ∃ later failure, Tracks goal source later ∧
      step goal source.length later.progress = .failed failure ∧
        located = later.failed failure := by
  fun_induction Tracked.run goal source.length tracked with
  | case1 tracked taken next hstep _ ih =>
      exact ih (h.behind hstep) hrun
  | case2 tracked tree hstep =>
      cases hrun
  | case3 tracked failure hstep =>
      exact ⟨tracked, failure, h, hstep, (Except.error.inj hrun).symm⟩

end Places

end Reading

end DotCascade
