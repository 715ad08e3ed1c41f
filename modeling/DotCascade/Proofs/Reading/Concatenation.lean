import DotCascade.Proofs.Grammar.Joining
import DotCascade.Proofs.Reading.Results
import DotCascade.Proofs.Reading.Seams

/-!
# What sources put together describe

The bodies of two directed graphs are written one behind the other on lines of their
own, or one stylesheet behind another one.  Both sources together describe the merged
content, or the rules of the first and then those of the second (`parse_concatenation`).
-/

namespace DotCascade

open Grammar Reading

section Graphs

/-- The words with which the body of a directed graph begins. -/
def directedOpening : List Word :=
  [⟨.digraph, ()⟩, ⟨.leftBrace, ()⟩]

theorem scans_directedOpening
    (text : List Char) :
    Scans ("digraph \x7b".toList ++ text) directedOpening text := by
  have hspace : Detached (' ' :: '{' :: text) := detached_cons (by decide) (by decide)
  have hkeyword : Stands ⟨.digraph, ()⟩ "digraph".toList (' ' :: '{' :: text) :=
    stands_of_spelling rfl (Or.inr hspace) rfl
  have hbrace : Stands ⟨.leftBrace, ()⟩ ['{'] text :=
    stands_of_spelling rfl (Or.inl rfl) rfl
  have hscans : Scans ("digraph".toList ++ ' ' :: ('{' :: text)) directedOpening text :=
    .word hkeyword (.gap (isGap_space _) (.word hbrace (.done rfl)))
  simpa using hscans

/-- Behind the words that open a directed graph, a graph has begun. -/
theorem exists_opened :
    ∃ frames, readWords? .graph [] directedOpening = some frames ∧ Framed .graph frames ∧
      Begun .graph frames := by
  have hgoal : IsGoal .graph := Or.inl rfl
  have hall := readAll?_yield hgoal (directedGraph none)
  rw [yield_directedGraph, List.append_assoc, readAll?, readWords?_append, Option.bind_assoc]
    at hall
  obtain ⟨frames, hread, -⟩ := Option.bind_eq_some_iff.1 hall
  have hframed := framed_readWords? .nil hread
  obtain ⟨middle, hkeyword, hbrace⟩ := Option.bind_eq_some_iff.1 hread
  obtain ⟨behind, hbehind, hlast⟩ := Option.bind_eq_some_iff.1 hbrace
  obtain rfl := Option.some.inj hlast
  refine ⟨behind, hread, hframed, ?_⟩
  exact begun_readWord? hgoal (framed_readWord? .nil hkeyword) (by decide) hbehind

/-- A directed graph without a name is read from a text that spells the words of its body and the
closing brace. -/
theorem exists_body_of_read
    {text : List Char} {tree : Tree (.phrase .graph)}
    (h : Reading.read .graph ("digraph \x7b".toList ++ text) = .ok tree) :
    ∃ body, tree = directedGraph body ∧
      Scans text (bodyYield body ++ [⟨.rightBrace, ()⟩]) [] := by
  have hgoal : IsGoal .graph := Or.inl rfl
  obtain ⟨frames, hread, hframed, hbegun⟩ := exists_opened
  obtain ⟨last, hrun⟩ :=
    run_of_scans hgoal _ (scans_directedOpening text) _ .nil hread
  rw [read_eq_run, Progress.start, hrun] at h
  obtain ⟨words, hscans, hyield⟩ := scans_of_run hgoal hframed hbegun h
  have hopening : framesYield frames = directedOpening := framesYield_readWords? hread
  rw [hopening] at hyield
  obtain ⟨body, rfl⟩ := exists_directedGraph hyield
  rw [yield_directedGraph, List.append_assoc] at hyield
  obtain rfl := List.append_cancel_left hyield
  exact ⟨body, rfl, hscans⟩

/-- The bodies of two directed graphs, one behind the other on lines of their own, are read as one
body. -/
theorem read_bodies
    {first second : List Char} {tree tree' : Tree (.phrase .graph)}
    (h : Reading.read .graph ("digraph \x7b".toList ++ first ++ ['\n', '}']) = .ok tree)
    (h' : Reading.read .graph ("digraph \x7b".toList ++ second ++ ['\n', '}']) = .ok tree') :
    ∃ body body' joined, tree = directedGraph body ∧ tree' = directedGraph body' ∧
      bodyContent joined = (bodyContent body).merge (bodyContent body') ∧
      Reading.read .graph
          ("digraph \x7b".toList ++ first ++ '\n' :: (second ++ ['\n', '}'])) =
        .ok (directedGraph joined) := by
  have hfirst := h
  rw [List.append_assoc] at hfirst h'
  obtain ⟨body, rfl, -⟩ := exists_body_of_read hfirst
  obtain ⟨body', rfl, hscans⟩ := exists_body_of_read h'
  obtain ⟨joined, hyield, hcontent⟩ := exists_joined_bodies body body'
  refine ⟨body, body', joined, rfl, rfl, hcontent, ?_⟩
  obtain ⟨place, gap, hplace, htext, hgap, hwords⟩ :=
    exists_place_of_closing h (yield_directedGraph body)
  refine read_of_seam (Or.inl rfl) hplace rfl htext hgap hscans ?_
  rw [yield_directedGraph, hyield, hwords]
  simp only [List.append_assoc]

end Graphs

section Stylesheets

/-- The words of a text without words, and those of a row of rules, are the same wherever the text
stands. -/
theorem exists_scans_of_stylesheet
    {source : String} {stylesheet : Stylesheet} (h : Stylesheet.parse source = .ok stylesheet) :
    (skipGap source.toList = [] ∧ stylesheet = Stylesheet.empty) ∨
      ∃ tree : Tree (.phrase .rules), stylesheet = ⟨tree.meaning⟩ ∧
        Reading.read .rules source.toList = .ok tree ∧ Scans source.toList tree.yield [] := by
  by_cases hfilled : skipGap source.toList = []
  · rw [Stylesheet.parse_of_skipGap_eq_nil hfilled] at h
    exact Or.inl ⟨hfilled, (Except.ok.inj h).symm⟩
  · obtain ⟨tree, hread, rfl⟩ := (Stylesheet.parse_eq_ok_iff hfilled).1 h
    obtain ⟨words, hscans, hyield⟩ := scans_of_run (Or.inr rfl) .nil begun_rules (run_of_read hread)
    obtain rfl : tree.yield = words := hyield
    exact Or.inr ⟨tree, rfl, hread, hscans⟩

/-- A text without words in front of a stylesheet changes nothing. -/
theorem parse_behind_gap
    {first second : String} {stylesheet : Stylesheet} (hempty : skipGap first.toList = [])
    (h : Stylesheet.parse second = .ok stylesheet) :
    Stylesheet.parse (first ++ "\n" ++ second) = .ok stylesheet := by
  obtain ⟨gap, hcut, hgap, -⟩ := skipsGap first.toList
  rw [hempty, List.append_nil] at hcut
  subst hcut
  have hskip : skipGap (first ++ "\n" ++ second).toList = skipGap second.toList := by
    simpa using hgap second.toList
  rcases exists_scans_of_stylesheet h with ⟨hnone, rfl⟩ | ⟨tree, rfl, hread, -⟩
  · rw [hnone] at hskip
    exact Stylesheet.parse_of_skipGap_eq_nil hskip
  · refine Stylesheet.parse_of_read ?_
    rw [read_eq_run, Progress.start, run_congr_gap _ hskip]
    exact run_eq_ok_congr (run_of_read hread) _ _

/-- The rules of a stylesheet go on with those of another one. -/
theorem exists_later_rules
    (tree : Tree (.phrase .rules)) {source : String} {stylesheet : Stylesheet}
    (h : Stylesheet.parse source = .ok stylesheet) :
    ∃ (joined : Tree (.phrase .rules)) (words : List Word), Scans source.toList words [] ∧
      joined.yield = tree.yield ++ words ∧
      joined.meaning = List.append (α := Rule) tree.meaning stylesheet.rules := by
  rcases exists_scans_of_stylesheet h with ⟨hnone, rfl⟩ | ⟨later, rfl, -, hscans⟩
  · refine ⟨tree, [], .done ?_, (List.append_nil _).symm, (List.append_nil (α := Rule) _).symm⟩
    rw [hnone, skipGap]
  · obtain ⟨joined, hyield, hmeaning⟩ := exists_joined_rules tree later
    exact ⟨joined, later.yield, hscans, hyield, hmeaning⟩

/-- Of two stylesheets, the second one on lines of its own, come the rules of both. -/
theorem parse_stylesheets
    {first second : String} {stylesheet stylesheet' : Stylesheet}
    (h : Stylesheet.parse first = .ok stylesheet)
    (h' : Stylesheet.parse second = .ok stylesheet') :
    Stylesheet.parse (first ++ "\n" ++ second) =
      .ok ⟨stylesheet.rules ++ stylesheet'.rules⟩ := by
  rcases exists_scans_of_stylesheet h with ⟨hempty, rfl⟩ | ⟨tree, rfl, hread, -⟩
  · exact parse_behind_gap hempty h'
  · obtain ⟨joined, words, hscans, hyield, hmeaning⟩ := exists_later_rules tree h'
    obtain ⟨place, hplace, hend, hwhole⟩ := exists_reaches_of_ok (run_of_read hread)
    obtain ⟨gap, hgap, hclosed, -⟩ := skipsGap place.text
    rw [hend] at hgap
    have hwords := framesYield_of_whole? hwhole
    rw [framesYield_settle] at hwords
    rw [← hwords] at hyield
    have hjoined :=
      read_of_seam (Or.inr rfl) hplace (List.append_nil _).symm hgap hclosed hscans hyield
    have hsource : first.toList ++ '\n' :: second.toList = (first ++ "\n" ++ second).toList := by
      simp
    rw [hsource] at hjoined
    rw [Stylesheet.parse_of_read hjoined, hmeaning]
    rfl

end Stylesheets

section Concatenation

/-- Bodies of directed graphs, one behind the other on lines of their own, describe the merged
content; stylesheets in a row, each on lines of its own, describe the rules of all. -/
theorem parse_concatenation
    (first second : String) :
    (∀ graph graph',
      Graph.parse ("digraph \x7b" ++ first ++ "\n\x7d") = .ok graph →
      Graph.parse ("digraph \x7b" ++ second ++ "\n\x7d") = .ok graph' →
      Graph.parse ("digraph \x7b" ++ first ++ "\n" ++ second ++ "\n\x7d") =
        .ok { graph with content := graph.content.merge graph'.content }) ∧
    (∀ stylesheet stylesheet',
      Stylesheet.parse first = .ok stylesheet → Stylesheet.parse second = .ok stylesheet' →
      Stylesheet.parse (first ++ "\n" ++ second) =
        .ok ⟨stylesheet.rules ++ stylesheet'.rules⟩) := by
  refine ⟨fun graph graph' h h' => ?_, fun _ _ => parse_stylesheets⟩
  obtain ⟨tree, hread, rfl⟩ := Graph.parse_eq_ok_iff.1 h
  obtain ⟨tree', hread', rfl⟩ := Graph.parse_eq_ok_iff.1 h'
  have hclosing : "\n\x7d".toList = ['\n', '}'] := rfl
  rw [String.toList_append, String.toList_append, hclosing] at hread hread'
  obtain ⟨body, body', joined, rfl, rfl, hcontent, hjoined⟩ := read_bodies hread hread'
  refine Graph.parse_eq_ok_iff.2 ⟨directedGraph joined, ?_, ?_⟩
  · simpa using hjoined
  · rw [meaning_directedGraph, meaning_directedGraph, meaning_directedGraph, hcontent]

/-- A comment ends with the line of the first body, and a number behind a node is no part of an
edge; a key that is set again keeps its place. -/
theorem parse_concatenation_comment :
    let x : Atom := .text "x"
    let y : Atom := .text "y"
    let one : Atom := .text "1"
    let node : Statement := .node (.text "a") Attributes.empty
    let number : Statement := .node (.text "-1") Attributes.empty
    let rule : Rule := ⟨⟨.node, .ofList []⟩, Attributes.empty⟩
    let later : Rule := ⟨⟨.edge, .ofList ["c"]⟩, Attributes.empty⟩
    Graph.parse "digraph \x7bx=1 y=1 a //\n\x7d" =
        .ok ⟨none, false, true, ⟨.ofList [(x, one), (y, one)], [node]⟩⟩ ∧
      Graph.parse "digraph \x7b-1 x=y\n\x7d" =
        .ok ⟨none, false, true, ⟨.ofList [(x, y)], [number]⟩⟩ ∧
      Graph.parse "digraph \x7bx=1 y=1 a //\n-1 x=y\n\x7d" =
        .ok ⟨none, false, true, ⟨.ofList [(x, y), (y, one)], [node, number]⟩⟩ ∧
      Stylesheet.parse "node\x7b\x7d //" = .ok ⟨[rule]⟩ ∧
      Stylesheet.parse "edge.c\x7b\x7d" = .ok ⟨[later]⟩ ∧
      Stylesheet.parse "node\x7b\x7d //\nedge.c\x7b\x7d" = .ok ⟨[rule, later]⟩ := by
  intro x y one node number rule later
  have hfirst :
      Graph.parse "digraph \x7bx=1 y=1 a //\n\x7d" =
        .ok ⟨none, false, true, ⟨.ofList [(x, one), (y, one)], [node]⟩⟩ := by
    decide +kernel
  have hsecond :
      Graph.parse "digraph \x7b-1 x=y\n\x7d" =
        .ok ⟨none, false, true, ⟨.ofList [(x, y)], [number]⟩⟩ := by
    decide +kernel
  have hrule : Stylesheet.parse "node\x7b\x7d //" = .ok ⟨[rule]⟩ := by
    decide +kernel
  have hlater : Stylesheet.parse "edge.c\x7b\x7d" = .ok ⟨[later]⟩ := by
    decide +kernel
  exact ⟨hfirst, hsecond, (parse_concatenation "x=1 y=1 a //" "-1 x=y").1 _ _ hfirst hsecond,
    hrule, hlater, (parse_concatenation "node\x7b\x7d //" "edge.c\x7b\x7d").2 _ _ hrule hlater⟩

end Concatenation

end DotCascade
