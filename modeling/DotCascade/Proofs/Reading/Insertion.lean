import DotCascade.Proofs.Reading.Cut
import DotCascade.Proofs.Reading.Results

/-!
# Gaps between the words of a source

Blanks and complete comments may be put in front of any word of a source and behind
it, and the same is read (`parse_insert`).  A source is cut at either place: in front
of it, words are read as before, because nothing that opens a gap continues a word;
and what is inserted is skipped together with the gap that stands there.

The words of a source are the pieces that its steps of reading take.  They tell the
words of the tree that is read, so that no word of the tree is forgotten
(`exists_isWordOf`).
-/

namespace DotCascade

open Grammar Reading

section Fillers

/-- Blanks and complete comments in a row.  A comment to the end of a line is complete with the line
feed behind it, and one between slashes and stars ends with the first star and slash. -/
inductive IsFiller : List Char → Prop
  | nil : IsFiller []
  | blank {c : Char} {rest : List Char} (hc : Text.isBlank c = true) (h : IsFiller rest) :
      IsFiller (c :: rest)
  | line {line rest : List Char} (hline : '\n' ∉ line) (h : IsFiller rest) :
      IsFiller ('/' :: '/' :: (line ++ '\n' :: rest))
  | comment {body rest : List Char} (hbody : ¬ ['*', '/'] <:+: body) (h : IsFiller rest) :
      IsFiller ('/' :: '*' :: (body ++ '*' :: '/' :: rest))

/-- A filler is skipped. -/
theorem IsFiller.isGap
    {filler : List Char} (h : IsFiller filler) :
    IsGap filler := by
  induction h with
  | nil =>
      exact isGap_nil
  | blank hc _ ih =>
      exact isGap_cons hc ih
  | @line line rest hline _ ih =>
      refine isGap_line (fun c hc => ?_) (isGap_cons (by decide) ih)
      exact decide_eq_true (ne_of_mem_of_not_mem hc hline)
  | @comment body rest hbody _ ih =>
      have hgap := isGap_append (isGap_comment hbody) ih
      rwa [List.cons_append, List.cons_append, List.append_assoc] at hgap

/-- A filler opens with a blank or a slash. -/
theorem IsFiller.opens
    {filler : List Char} (h : IsFiller filler) :
    ∀ c ∈ filler.head?, opensGap c = true := by
  intro c hc
  cases h with
  | nil =>
      cases hc
  | blank hblank =>
      obtain rfl := Option.some.inj hc
      rw [opensGap, hblank]
      rfl
  | line =>
      obtain rfl := Option.some.inj hc
      rfl
  | comment =>
      obtain rfl := Option.some.inj hc
      rfl

/-- What is skipped in front of a word is a filler. -/
theorem exists_filler
    {text : List Char} (h : skipGap text ≠ []) :
    ∃ filler, text = filler ++ skipGap text ∧ IsFiller filler := by
  fun_induction skipGap text with
  | case1 rest _ ih =>
      obtain ⟨filler, hcut, hfiller⟩ := ih h
      have hrest := List.takeWhile_append_dropWhile (p := isLineChar) (l := rest)
      have hline : '\n' ∉ rest.takeWhile isLineChar := fun hmem => by
        simpa [isLineChar] using List.mem_takeWhile_imp hmem
      cases hbehind : rest.dropWhile isLineChar with
      | nil =>
          rw [hbehind] at h
          exact absurd (by rw [skipGap]) h
      | cons c behind =>
          have hc : c = '\n' := by
            simpa [hbehind, isLineChar] using List.head?_dropWhile_not isLineChar rest
          subst hc
          rw [hbehind] at hcut hrest
          obtain ⟨inner, rfl⟩ := exists_cons_of_lineFeed hcut
          refine ⟨'/' :: '/' :: (rest.takeWhile isLineChar ++ '\n' :: inner), ?_, ?_⟩
          · rw [List.cons_append, List.cons_append, List.append_assoc, ← hcut, hrest]
          · cases hfiller with
            | blank _ hinner =>
                exact .line hline hinner
  | case2 rest behind hbehind _ ih =>
      obtain ⟨body, rfl, hbody⟩ := exists_comment hbehind
      obtain ⟨filler, hcut, hfiller⟩ := ih h
      refine ⟨_, ?_, .comment hbody hfiller⟩
      conv_lhs => rw [hcut]
      simp
  | case4 c rest _ _ hblank ih =>
      obtain ⟨filler, hcut, hfiller⟩ := ih h
      refine ⟨_, ?_, .blank hblank hfiller⟩
      rw [List.cons_append, ← hcut]
  | case3 | case5 | case6 =>
      exact ⟨[], rfl, .nil⟩

/-- A text is cut at its front by a filler. -/
theorem IsFiller.isCut
    {filler : List Char} (h : IsFiller filler) (hne : filler ≠ []) (gap text : List Char) :
    IsCut (gap ++ text) (gap ++ (filler ++ text)) := by
  obtain ⟨c, later, rfl⟩ := List.exists_cons_of_ne_nil hne
  exact ⟨gap, text, _, rfl, rfl, detached_of_opensGap (h.opens c rfl) (later ++ text)⟩

end Fillers

section Words

/-- A piece of a source, with what stands before and behind it, is taken as a word. -/
def IsWordOf (goal : Phrase) (before piece behind : List Char) : Prop :=
  let source := before ++ piece ++ behind
  ∃ taken ∈ (Progress.start source).words goal source.length,
    taken.piece = piece ∧ taken.text = piece ++ behind

instance decidableIsWordOf
    (goal : Phrase) (before piece behind : List Char) :
    Decidable (IsWordOf goal before piece behind) :=
  inferInstanceAs (Decidable (∃ _ ∈ _, _ = _ ∧ _ = _))

variable {goal : Phrase} {tree : Tree (.phrase goal)}

/-- A filler changes nothing if it is skipped with the gap at some place. -/
theorem read_filler
    {source front gap text filler : List Char} {place : Progress}
    (hplace : Reaches goal source.length (Progress.start source) place)
    (htext : place.text = gap ++ text) (hsource : source = front ++ text)
    (hfiller : IsFiller filler)
    (hskip : skipGap (gap ++ (filler ++ text)) = skipGap (gap ++ text))
    (h : Reading.read goal source = .ok tree) :
    Reading.read goal (front ++ (filler ++ text)) = .ok tree := by
  by_cases hne : filler = []
  · rwa [hne, List.nil_append, ← hsource]
  · have hcut := hfiller.isCut hne gap text
    rw [← htext] at hcut
    obtain ⟨-, -, hcuts⟩ := hplace.exists_read hsource htext
    obtain ⟨last, hrun⟩ := hcuts (filler ++ text) hcut
    have hrest : place.run goal source.length = .ok tree := hplace.run_eq ▸ run_of_read h
    rw [hrun, run_congr_gap _ hskip, ← htext]
    exact run_eq_ok_congr hrest _ _

/-- What is read stays the same with a filler in front of a word and with one behind it. -/
theorem read_insert
    {before piece behind filler : List Char} (hfiller : IsFiller filler)
    (hword : IsWordOf goal before piece behind)
    (h : Reading.read goal (before ++ piece ++ behind) = .ok tree) :
    Reading.read goal (before ++ filler ++ piece ++ behind) = .ok tree ∧
      Reading.read goal (before ++ piece ++ filler ++ behind) = .ok tree := by
  obtain ⟨taken, htaken, rfl, htext⟩ := hword
  obtain ⟨place, next, hplace, hstep⟩ := exists_reaches_of_mem htaken
  obtain ⟨hskip, hpiece, hnext⟩ := taken_of_step hstep
  have hfilled := ne_nil_of_piece? hpiece
  rw [htext] at hskip hfilled hnext
  constructor
  · obtain ⟨gap, hplaced, -, hgap⟩ := skipsGap place.text
    rw [hskip] at hplaced hgap
    have hfront : skipGap (gap ++ (filler ++ (taken.piece ++ behind))) =
        skipGap (gap ++ (taken.piece ++ behind)) := by
      rw [hgap hfilled, hgap hfilled, hfiller.isGap]
    have hread := read_filler hplace hplaced (List.append_assoc ..) hfiller hfront h
    simpa only [List.append_assoc] using hread
  · have hbehind : next.text = [] ++ behind := by
      rw [hnext, List.drop_left, List.nil_append]
    have hread := read_filler (hplace.trans (.taken hstep .here)) hbehind rfl hfiller
      (hfiller.isGap behind) h
    rwa [← List.append_assoc] at hread

/-- A source with a word is more than a gap. -/
theorem IsWordOf.skipGap_ne_nil
    {before piece behind : List Char} (h : IsWordOf goal before piece behind) :
    skipGap (before ++ piece ++ behind) ≠ [] := by
  obtain ⟨taken, htaken, -⟩ := h
  rw [Progress.words_eq] at htaken
  split at htaken
  case h_1 word next hstep =>
    obtain ⟨hskip, hpiece, -⟩ := taken_of_step hstep
    rw [Progress.start] at hskip
    rw [hskip]
    exact ne_nil_of_piece? hpiece
  case h_2 =>
    exact absurd htaken List.not_mem_nil

/-- Every word that is taken from a source stands in it. -/
theorem exists_isWordOf
    {source : List Char} {taken : Taken}
    (h : taken ∈ (Progress.start source).words goal source.length) :
    ∃ before behind, source = before ++ taken.piece ++ behind ∧
      IsWordOf goal before taken.piece behind := by
  obtain ⟨place, next, hplace, hstep⟩ := exists_reaches_of_mem h
  obtain ⟨front, hsource, htext⟩ := hplace.exists_piece hstep
  simp only [Progress.start] at hsource
  refine ⟨front, next.text, hsource, ?_⟩
  rw [IsWordOf, ← hsource]
  exact ⟨taken, h, rfl, htext⟩

end Words

section Results

/-- A result stays the same with a filler in front of a word and with one behind it. -/
def StaysWith {α : Type} (parse : String → Except ReadError α)
    (before piece behind filler : String) : Prop :=
  ∀ value, parse (before ++ piece ++ behind) = .ok value →
    parse (before ++ filler ++ piece ++ behind) = .ok value ∧
      parse (before ++ piece ++ filler ++ behind) = .ok value

/-- Blanks and comments in front of a word or behind it change neither the graph nor the stylesheet
that a source describes. -/
theorem parse_insert
    (before piece behind filler : String) (hfiller : IsFiller filler.toList) :
    (IsWordOf .graph before.toList piece.toList behind.toList →
      StaysWith Graph.parse before piece behind filler) ∧
    (IsWordOf .rules before.toList piece.toList behind.toList →
      StaysWith Stylesheet.parse before piece behind filler) := by
  constructor
  · intro hword graph h
    obtain ⟨tree, hread, rfl⟩ := Graph.parse_eq_ok_iff.1 h
    simp only [String.toList_append] at hread
    obtain ⟨hfront, hbehind⟩ := read_insert hfiller hword hread
    simp only [← String.toList_append] at hfront hbehind
    exact ⟨Graph.parse_eq_ok_iff.2 ⟨tree, hfront, rfl⟩,
      Graph.parse_eq_ok_iff.2 ⟨tree, hbehind, rfl⟩⟩
  · intro hword stylesheet h
    have hfilled := hword.skipGap_ne_nil
    rw [← String.toList_append, ← String.toList_append] at hfilled
    obtain ⟨tree, hread, rfl⟩ := (Stylesheet.parse_eq_ok_iff hfilled).1 h
    simp only [String.toList_append] at hread
    obtain ⟨hfront, hbehind⟩ := read_insert hfiller hword hread
    simp only [← String.toList_append] at hfront hbehind
    exact ⟨Stylesheet.parse_of_read hfront, Stylesheet.parse_of_read hbehind⟩

/-- A comment is no longer than it has to be, and neither the minus sign of a number nor the dot of
a class name is taken apart from what stands behind it. -/
theorem parse_insert_comments :
    let filler := " // --\n/* \x7b **/"
    let graph : Graph :=
      ⟨none, false, false,
        .ofStatements [.edge ⟨.text "1", none⟩ ⟨.text "-1", none⟩ Attributes.empty]⟩
    let stylesheet : Stylesheet := ⟨[⟨⟨.node, .ofList ["c"]⟩, Attributes.empty⟩]⟩
    Graph.parse "graph\x7b1---1\x7d" = .ok graph ∧
      Graph.parse ("graph\x7b1" ++ filler ++ "--" ++ "-1\x7d") = .ok graph ∧
      Graph.parse ("graph\x7b1" ++ "--" ++ filler ++ "-1\x7d") = .ok graph ∧
      Stylesheet.parse "node.c\x7b\x7d" = .ok stylesheet ∧
      Stylesheet.parse ("node" ++ filler ++ ".c" ++ "\x7b\x7d") = .ok stylesheet ∧
      Stylesheet.parse ("node" ++ ".c" ++ filler ++ "\x7b\x7d") = .ok stylesheet := by
  intro filler graph stylesheet
  have hblank : Text.isBlank ' ' = true := rfl
  have hline : '\n' ∉ [' ', '-', '-'] := by
    decide
  have hbody : ¬ ['*', '/'] <:+: [' ', '{', ' ', '*'] := by
    decide
  have hfiller : IsFiller filler.toList := by
    have hlisted := IsFiller.blank hblank (.line hline (.comment hbody .nil))
    simpa [filler] using hlisted
  have hgraph : Graph.parse "graph\x7b1---1\x7d" = .ok graph := by
    decide +kernel
  have hstylesheet : Stylesheet.parse "node.c\x7b\x7d" = .ok stylesheet := by
    decide +kernel
  obtain ⟨hedge, -⟩ := parse_insert "graph\x7b1" "--" "-1\x7d" filler hfiller
  obtain ⟨-, hclass⟩ := parse_insert "node" ".c" "\x7b\x7d" filler hfiller
  exact ⟨hgraph, (hedge (by decide +kernel) graph hgraph).1,
    (hedge (by decide +kernel) graph hgraph).2, hstylesheet,
    (hclass (by decide +kernel) stylesheet hstylesheet).1,
    (hclass (by decide +kernel) stylesheet hstylesheet).2⟩

end Results

end DotCascade
