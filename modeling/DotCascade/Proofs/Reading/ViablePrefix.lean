import DotCascade.Proofs.Reading.Completion
import DotCascade.Proofs.Reading.Cut
import DotCascade.Proofs.Reading.Results

/-!
# Errors come as early as they can

Where something unexpected stands, nothing is wrong yet with what stands in front
of it: it is the beginning of a source that is accepted (`read_front`).  The words
in front of it have been read, so they are the beginning of the words of a whole,
and the missing words are written behind a line feed.  The line feed ends the last
word and any comment, so that the words in front are still found as they were.

So no failure of this kind is reported behind the first word that no graph, or no
stylesheet, goes on with (`parse_unexpected`).
-/

namespace DotCascade

open Grammar Reading

section Fronts

/-- What stands in front of something unexpected can be completed. -/
theorem read_front
    {goal : Phrase} (hgoal : IsGoal goal) {source : List Char}
    {offset : Nat} {found : Found} {expected : List Lookahead}
    (h : Reading.read goal source = .error (.unexpected offset found expected)) :
    ∃ front back, source = front ++ back ∧ found.StandsAt back ∧
      (found ≠ .finish → offset = front.length) ∧
      ∃ rest tree, Reading.read goal (front ++ rest) = .ok tree := by
  obtain ⟨front, back, words, frames, hcut, hfound, hplace, hwords, hrun⟩ := run_of_isCut (run_of_read h)
  simp only [Progress.start] at hcut hwords hrun
  obtain ⟨whole, later, hwhole, text, htext⟩ := exists_whole hgoal hwords
  refine ⟨front, back, hcut, hfound, fun hne => ?_, '\n' :: text, whole, ?_⟩
  · have hlength := congrArg List.length hcut
    rw [List.length_append] at hlength
    have hoffset := hplace hne
    omega
  · obtain ⟨final, hcompleted, hfinal⟩ :=
      Option.bind_eq_some_iff.1 (readAll?_yield hgoal whole)
    rw [hwhole, readWords?_append, hwords, Option.bind_some] at hcompleted
    have hscans := htext []
    rw [List.append_nil] at hscans
    obtain ⟨behind, hfront⟩ :=
      hrun (front ++ '\n' :: text).length (front ++ '\n' :: text) text
    obtain ⟨last', hlater⟩ :=
      run_of_scans hgoal (front ++ '\n' :: text).length hscans behind
        (framed_readWords? .nil hwords) hcompleted
    rw [read_eq_run, Progress.start]
    exact (hfront.trans hlater).trans (run_of_whole? _ _ (by rw [skipGap]) hfinal)

end Fronts

section Viable

/-- What stands in a source in front of something unexpected, or in front of its end, is the
beginning of a text that is accepted. -/
def HasViablePrefix {α : Type} (parse : String → Except ReadError α) (source : String)
    (offset : Nat) (found : Found) : Prop :=
  ∃ front back, source = front ++ back ∧ found.StandsAt back.toList ∧
    (found ≠ .finish → offset = front.length) ∧
    ∃ rest value, parse (front ++ rest) = .ok value

variable {offset : Nat} {found : Found} {expected : List Lookahead}

/-- A parser has the property if it accepts all that is read as its goal. -/
theorem hasViablePrefix_of_read
    {α : Type} {parse : String → Except ReadError α} {goal : Phrase} (hgoal : IsGoal goal)
    (hparse : ∀ text tree, Reading.read goal text.toList = .ok tree →
      ∃ value, parse text = .ok value)
    {source : String}
    (h : Reading.read goal source.toList = .error (.unexpected offset found expected)) :
    HasViablePrefix parse source offset found := by
  obtain ⟨front, back, hcut, hfound, hplace, rest, tree, hread⟩ := read_front hgoal h
  refine ⟨.ofList front, .ofList back, ?_, ?_, ?_, .ofList rest, hparse _ tree ?_⟩
  · rw [← String.ofList_append, ← hcut, String.ofList_toList]
  · rwa [String.toList_ofList]
  · rwa [String.length_ofList]
  · rwa [← String.ofList_append, String.toList_ofList]

/-- No unexpected word or character and no early end is reported later than it has to be: up to
there, the source is the beginning of a source that is accepted. -/
theorem parse_unexpected
    (source : String) (offset : Nat) (found : Found) (expected : List Lookahead) :
    (Graph.read source.toList = .error (.unexpected offset found expected) →
      HasViablePrefix Graph.parse source offset found) ∧
    (Stylesheet.read source.toList = .error (.unexpected offset found expected) →
      HasViablePrefix Stylesheet.parse source offset found) := by
  constructor
  · intro h
    exact hasViablePrefix_of_read (Or.inl rfl)
      (fun _ _ hread => ⟨_, Graph.parse_eq_ok_iff.2 ⟨_, hread, rfl⟩⟩)
      (Graph.read_of_error h)
  · intro h
    exact hasViablePrefix_of_read (Or.inr rfl)
      (fun _ _ hread => ⟨_, Stylesheet.parse_of_read hread⟩)
      (Stylesheet.read_of_error h)

/-- A comment that is never closed is unexpected, and a comment to the end of the source is not, but
that end is; in front of both the source can be completed. -/
theorem parse_unexpected_comment :
    (Graph.read "graph\x7bgraph /* a".toList =
        .error (.unexpected 12 (.character '/') [.word .leftBracket]) ∧
      HasViablePrefix Graph.parse "graph\x7bgraph /* a" 12 (.character '/')) ∧
    (Stylesheet.read "node // all".toList =
        .error (.unexpected 0 .finish [.word .comma, .word .leftBrace, .word .className]) ∧
      HasViablePrefix Stylesheet.parse "node // all" 0 .finish) := by
  have hgraph :
      Graph.read "graph\x7bgraph /* a".toList =
        .error (.unexpected 12 (.character '/') [.word .leftBracket]) := by
    decide +kernel
  have hstylesheet :
      Stylesheet.read "node // all".toList =
        .error (.unexpected 0 .finish [.word .comma, .word .leftBrace, .word .className]) := by
    decide +kernel
  exact ⟨⟨hgraph, (parse_unexpected _ _ _ _).1 hgraph⟩,
    hstylesheet, (parse_unexpected _ _ _ _).2 hstylesheet⟩

end Viable

end DotCascade
