import DotCascade.Proofs.Reading.Results
import DotCascade.Proofs.Reading.Tracking

/-!
# Positions of failures

A failure is reported at the place where something stands that cannot be read: a
character with which no word begins, an unexpected word, a fault inside a markup word,
or, where the source ends too early, its last word (`FailsAt`).  The positions that are
kept along a reading locate the failure at the offset of that place
(`FailsAt.position_eq`).

So the line of a report is counted by the line feeds in front of the place, and the
column from the beginning of its line, whatever words, comments and strings the lines
belong to (`parse_position`).
-/

namespace DotCascade

open Grammar Reading

namespace Text

section Lines

/-- The line that holds an offset of a source begins at another offset: at the beginning of the
source or just behind a line feed, with no line feed in between. -/
structure IsLineStart (source : List Char) (offset start : Nat) : Prop where
  le : start ≤ offset
  opens : start = 0 ∨ source[start - 1]? = some '\n'
  unbroken : '\n' ∉ (source.take offset).drop start

/-- The line of a position is counted by line feeds, and its column from the beginning of the
line. -/
theorem exists_isLineStart
    (source : List Char) {offset : Nat} (hoffset : offset ≤ source.length) :
    ∃ start, IsLineStart source offset start ∧
      Position.ofOffset source offset =
        ⟨1 + (source.take offset).count '\n', offset - start + 1⟩ := by
  have hlength : (source.take offset).length = offset := by
    rw [List.length_take, Nat.min_eq_left hoffset]
  have hsource := List.take_append_drop offset source
  rw [Position.ofOffset]
  rcases cases_lastLineFeed? (source.take offset) with ⟨-, hplain⟩ | ⟨lines, line, hcut, hline, -⟩
  · refine ⟨0, ⟨Nat.zero_le _, Or.inl rfl, hplain⟩, ?_⟩
    rw [foldl_advance_plain _ hplain, List.count_eq_zero_of_not_mem hplain, hlength, Nat.add_comm]
    rfl
  · rw [hcut] at hlength hsource
    rw [List.length_append, List.length_cons] at hlength
    refine ⟨lines.length + 1, ⟨by omega, Or.inr ?_, ?_⟩, ?_⟩
    · rw [← hsource]
      simp
    · have hlines : lines ++ '\n' :: line = lines ++ ['\n'] ++ line := List.append_cons ..
      rwa [hcut, hlines, List.drop_left' (by simp)]
    · rw [hcut, foldl_advance_lines _ lines hline, Position.mk.injEq]
      exact ⟨rfl, by omega⟩

end Lines

end Text

namespace Markup

/-- A fault lies inside the text in which it is found. -/
theorem remaining_le
    {openElements : List OpenElement} {before : List Node} {text : List Char} {fault : Fault}
    {remaining : Nat} (h : readNodes openElements before text = .error (.fault fault remaining)) :
    remaining ≤ text.length := by
  fun_induction readNodes openElements before text with
  | case1 | case9 =>
      cases h
  | case2 | case3 | case10 =>
      obtain ⟨-, rfl⟩ := Stop.fault.inj (Except.error.inj h)
      simp
  | case4 _ _ _ _ _ _ hlength ih =>
      have hrest := ih h
      simp only [List.length_cons]
      omega
  | case5 =>
      obtain ⟨-, rfl⟩ := Stop.fault.inj (Except.error.inj h)
      simp
  | case6 _ _ _ _ _ _ _ hname hlength =>
      obtain ⟨-, rfl⟩ := Stop.fault.inj (Except.error.inj h)
      simp only [List.length_cons]
      omega
  | case7 _ _ _ _ _ _ _ hname hlength _ _ hend ih | case8 _ _ _ _ _ _ _ hname hlength _ _ hend ih =>
      have hrest := ih h
      simp only [List.length_cons]
      omega
  | case11 _ _ _ _ _ _ _ hlength ih =>
      have hrest := ih h
      simp only [List.length_cons]
      omega

end Markup

section Places

/-- What fails at a place of a source, and the offset to which that is reported. -/
inductive FailsAt (goal : Phrase) (source : List Char) (place : Progress) : Failure → Nat → Prop
  /-- With the character behind the gap no word begins. -/
  | character
      {front rest : List Char} {c : Char} (expected : List Lookahead)
      (hsource : source = front ++ c :: rest) (htext : skipGap place.text = c :: rest)
      (hnone : ∀ terminal, piece? terminal (c :: rest) = none) :
      FailsAt goal source place
        (.unexpected front.length (.character c) expected) front.length
  /-- The word behind the gap is not expected. -/
  | word
      {front piece rest : List Char} {terminal : Terminal} {found : Found}
      (expected : List Lookahead) (hfound : found = .piece piece ∨ found = .markup)
      (hsource : source = front ++ (piece ++ rest)) (htext : skipGap place.text = piece ++ rest)
      (hpiece : piece? terminal (piece ++ rest) = some piece) :
      FailsAt goal source place (.unexpected front.length found expected) front.length
  /-- The markup word behind the gap is faulty behind its first characters. -/
  | fault
      {front inner behind rest : List Char} {fault : Markup.Fault}
      (hsource : source = front ++ (inner ++ behind ++ rest))
      (htext : skipGap place.text = inner ++ behind ++ rest)
      (hpiece : piece? .markup (inner ++ behind ++ rest) = some (inner ++ behind))
      (hfault : Markup.ofWord (inner ++ behind) = .error (.fault fault behind.length)) :
      FailsAt goal source place
        (.markup (inner ++ behind) inner.length fault) (front.length + inner.length)
  /-- The source ends too early behind its last word. -/
  | ended
      {before : Progress} {last : Taken} {front : List Char} (expected : List Lookahead)
      (hbefore : Reaches goal source.length (Progress.start source) before)
      (hstep : step goal source.length before = .more last place)
      (hsource : source = front ++ last.text) (htext : skipGap place.text = []) :
      FailsAt goal source place (.unexpected front.length .finish expected) front.length
  /-- The source has no words. -/
  | empty
      (expected : List Lookahead) (hplace : place = Progress.start source)
      (htext : skipGap source = []) :
      FailsAt goal source place (.unexpected 0 .finish expected) 0

variable {goal : Phrase} {source : List Char} {place : Progress}

/-- What stands behind the gap at a place stands in the source. -/
theorem exists_front_of_reaches
    (hplace : Reaches goal source.length (Progress.start source) place) :
    ∃ front, source = front ++ skipGap place.text := by
  obtain ⟨front, hfront⟩ := hplace.skipGap_suffix
  exact ⟨front, hfront.symm⟩

/-- The source ends at its last word, or it has none. -/
theorem failsAt_end
    (hplace : Reaches goal source.length (Progress.start source) place)
    (htext : skipGap place.text = []) (expected : List Lookahead) :
    ∃ offset, FailsAt goal source place
        (.unexpected (offsetOf source.length place.last) .finish expected) offset ∧
      offset ≤ source.length := by
  rcases hplace.cases_last with hstart | ⟨before, last, hbefore, hstep⟩
  · subst hstart
    have hoffset : offsetOf source.length (Progress.start source).last = 0 :=
      Nat.sub_self source.length
    rw [hoffset]
    exact ⟨0, .empty expected rfl htext, Nat.zero_le _⟩
  · obtain ⟨front, hfront, hlast⟩ := hbefore.exists_piece hstep
    have hsource : source = front ++ last.text := by
      rw [hlast, ← List.append_assoc]
      exact hfront
    rw [last_of_step hstep, offsetOf_eq hsource]
    refine ⟨front.length, .ended expected hbefore hstep hsource htext, ?_⟩
    rw [hsource, List.length_append]
    exact Nat.le_add_right _ _

/-- What is found instead of something else is a character or a word. -/
theorem failsAt_found
    {front : List Char} (hsource : source = front ++ skipGap place.text)
    (htext : skipGap place.text ≠ []) {found : Found}
    (hfound : found.StandsAt (skipGap place.text)) (expected : List Lookahead) :
    FailsAt goal source place (.unexpected front.length found expected) front.length := by
  cases found with
  | character c =>
      obtain ⟨hhead, hnone⟩ := hfound
      obtain ⟨rest, hrest⟩ := List.head?_eq_some_iff.1 hhead
      rw [hrest] at hsource hnone
      exact .character expected hsource hrest hnone
  | piece piece =>
      obtain ⟨terminal, hpiece⟩ := hfound
      obtain ⟨rest, hrest, -⟩ := steadyAt_piece? _ _ _ hpiece
      rw [hrest] at hsource hpiece
      exact .word expected (Or.inl rfl) hsource hrest hpiece
  | markup =>
      obtain ⟨piece, hpiece⟩ := hfound
      obtain ⟨rest, hrest, -⟩ := steadyAt_piece? _ _ _ hpiece
      rw [hrest] at hsource hpiece
      exact .word expected (Or.inr rfl) hsource hrest hpiece
  | finish =>
      exact absurd hfound htext

/-- A word that tells nothing is a markup word with a fault in it. -/
theorem failsAt_garbled
    {front piece : List Char} (hsource : source = front ++ skipGap place.text)
    {terminal : Terminal} {failure : Failure} (hoverrun : failure ≠ .overrun)
    (hpiece : piece? terminal (skipGap place.text) = some piece)
    (hfailure : lexemeOf terminal piece = .error failure) :
    ∃ offset, FailsAt goal source place failure offset ∧ offset ≤ source.length := by
  unfold lexemeOf at hfailure
  split at hfailure
  case h_1 =>
    cases hfailure
  case h_2 =>
    exact absurd (Except.error.inj hfailure).symm hoverrun
  case h_3 fault remaining hlexeme =>
    obtain rfl := Except.error.inj hfailure
    cases terminal with
    | markup =>
        have hfault : Markup.ofWord piece = .error (.fault fault remaining) := hlexeme
        have hremaining : remaining ≤ piece.length := by
          have htail := Markup.remaining_le hfault
          rw [List.length_tail] at htail
          omega
        obtain ⟨rest, hrest, -⟩ := steadyAt_piece? _ _ _ hpiece
        -- The word is cut where the fault is.
        have hcut : piece = piece.take (piece.length - remaining) ++
            piece.drop (piece.length - remaining) := (List.take_append_drop _ _).symm
        have hinner : (piece.take (piece.length - remaining)).length =
            piece.length - remaining := by
          rw [List.length_take]
          omega
        have hbehind : (piece.drop (piece.length - remaining)).length = remaining := by
          rw [List.length_drop]
          omega
        generalize piece.take (piece.length - remaining) = inner at hcut hinner
        generalize piece.drop (piece.length - remaining) = behind at hcut hbehind
        subst hcut hbehind
        rw [← hinner]
        rw [hrest] at hsource hpiece
        refine ⟨_, .fault hsource hrest hpiece hfault, ?_⟩
        rw [hsource]
        simp only [List.length_append]
        omega
    | _ =>
        cases hlexeme

/-- A step that fails with something to report fails at one of these places. -/
theorem exists_failsAt
    (hplace : Reaches goal source.length (Progress.start source) place) {failure : Failure}
    (hstep : step goal source.length place = .failed failure) (hoverrun : failure ≠ .overrun) :
    ∃ offset, FailsAt goal source place failure offset ∧ offset ≤ source.length := by
  obtain ⟨front, hsource⟩ := exists_front_of_reaches hplace
  have houtcome : Outcome goal source.length place (.failed failure) := hstep ▸ outcome_step
  cases houtcome with
  | ended expected hgap =>
      exact failsAt_end hplace hgap expected
  | refused found expected htext hfound =>
      rw [offsetOf_eq hsource]
      refine ⟨front.length, failsAt_found hsource htext hfound expected, ?_⟩
      rw [hsource, List.length_append]
      exact Nat.le_add_right _ _
  | garbled hpiece hfailure =>
      exact failsAt_garbled hsource hoverrun hpiece hfailure

end Places

section Reports

/-- The position in a report is counted from the place where reading fails: the line by the line
feeds in front of it, the column from the beginning of its line. -/
def HasTruePosition (goal : Phrase) (source : List Char) (report : Report) : Prop :=
  ∃ place failure offset start,
    Reaches goal source.length (Progress.start source) place ∧
      step goal source.length place = .failed failure ∧
      failure.reportAt? report.position = some report ∧
      FailsAt goal source place failure offset ∧
      Text.IsLineStart source offset start ∧
      report.position = ⟨1 + (source.take offset).count '\n', offset - start + 1⟩

/-- A failure is located at the place that it is about. -/
theorem FailsAt.position_eq
    {goal : Phrase} {source : List Char} {tracked : Tracked} {failure : Failure} {offset : Nat}
    (h : FailsAt goal source tracked.progress failure offset)
    (htracks : Tracks goal source tracked) :
    (tracked.failed failure).position = Text.Position.ofOffset source offset := by
  cases h with
  | character _ hsource htext =>
      exact htracks.position_atWord.trans (htext ▸ positionOf_eq hsource)
  | word _ hfound hsource htext =>
      have hword := htracks.position_atWord.trans (htext ▸ positionOf_eq hsource)
      rcases hfound with rfl | rfl <;> exact hword
  | @fault front inner behind rest _ hsource htext =>
      have hfront : source = front ++ inner ++ (behind ++ rest) := by
        rw [hsource]
        simp only [List.append_assoc]
      rw [← List.length_append, ← positionOf_eq hfront]
      exact htracks.inside_atWord htext
  | @ended _ last front _ _ hstep hsource =>
      have hlast : tracked.last = positionOf source last.text :=
        htracks.last.trans (congrArg (positionOf source) (last_of_step hstep))
      exact hlast.trans (positionOf_eq hsource)
  | empty _ hplace =>
      have hlast : tracked.last = positionOf source source :=
        htracks.last.trans (congrArg (fun place => positionOf source place.last) hplace)
      exact hlast.trans (positionOf_eq (List.nil_append source).symm)

theorem position_of_reportAt?
    {failure : Failure} {position : Text.Position} {report : Report}
    (h : failure.reportAt? position = some report) :
    report.position = position := by
  cases failure with
  | unexpected | markup =>
      rw [← Option.some.inj h]
  | overrun =>
      cases h

theorem hasTruePosition_of_readTracked
    {goal : Phrase} {source : List Char} {located : Located}
    (h : readTracked goal source = .error located) {report : Report}
    (hreport : located.report? = some report) :
    HasTruePosition goal source report := by
  obtain ⟨tracked, failure, htracks, hstep, rfl⟩ :=
    exists_tracks_of_error (tracks_start goal source) h
  have hoverrun : failure ≠ .overrun := by
    rintro rfl
    cases hreport
  have hposition := position_of_reportAt? hreport
  obtain ⟨offset, hfails, hoffset⟩ := exists_failsAt htracks.reaches hstep hoverrun
  obtain ⟨start, hstart, hcounted⟩ := Text.exists_isLineStart source hoffset
  refine ⟨tracked.progress, failure, offset, start, htracks.reaches, hstep, ?_, hfails, hstart, ?_⟩
  · rw [hposition]
    exact hreport
  · rw [hposition, hfails.position_eq htracks, hcounted]

/-- Every report that reading a graph or a stylesheet gives has a true position. -/
theorem parse_position
    (source : String) :
    (∀ report, Graph.parse source = .error ⟨some report⟩ →
      HasTruePosition .graph source.toList report) ∧
    (∀ report, Stylesheet.parse source = .error ⟨some report⟩ →
      HasTruePosition .rules source.toList report) := by
  constructor
  · intro report h
    obtain ⟨located, hread, hreport⟩ := exists_located_of_reported h
    exact hasTruePosition_of_readTracked (Graph.readTracked_of_error hread) hreport
  · intro report h
    obtain ⟨located, hread, hreport⟩ := exists_located_of_reported h
    exact hasTruePosition_of_readTracked (Stylesheet.readTracked_of_error hread) hreport

/-- A closing tag on the last of three lines, inside a word that begins in the middle of a line
behind a string of two lines. -/
theorem parse_position_nested :
    let source := "graph\x7ba=\"x\ny\" b=<u\n<i>v</b>>\x7d"
    let report : Report :=
      ⟨"Mismatched closing tag for <i> at line 3, column 5", ⟨3, 5⟩, ["'</i>'"]⟩
    Graph.parse source = .error ⟨some report⟩ ∧ HasTruePosition .graph source.toList report := by
  intro source report
  have hparse : Graph.parse source = .error ⟨some report⟩ := by
    decide +kernel
  exact ⟨hparse, (parse_position source).1 report hparse⟩

end Reports

end DotCascade
