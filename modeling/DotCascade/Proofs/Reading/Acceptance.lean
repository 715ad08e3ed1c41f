import DotCascade.Proofs.Grammar.Agreement
import DotCascade.Proofs.Grammar.Coverage
import DotCascade.Proofs.Reading.Results
import DotCascade.Proofs.Reading.Spaced

/-!
# What is read is what the grammar derives

A row of words, separated by spaces, is read as a graph or as a stylesheet exactly
when the grammar derives it.  There is then one derivation, and what is read is what
that derivation denotes (`parse_derived`).

Reading is about trees of productions, and these are brought to the grammar with
choices and repetitions: every tree has a derivation with the same words and the
same meaning, and every derivation is that of a tree.
-/

namespace DotCascade

open Grammar Reading

section Derived

/-- A result is what a nonterminal derives from some words: there is one exactly when there is a
derivation, there is no second derivation, and the result is what the derivation denotes. -/
structure IsDerived (nonterminal : Nonterminal) (words : List Word)
    (result : Except ReadError nonterminal.Denoted) : Prop where
  accepted_iff : (∃ value, result = .ok value) ↔
    ∃ derivation : Derivation (.one nonterminal), derivation.yield = words
  unique : ∀ derivation other : Derivation (.one nonterminal),
    derivation.yield = words → other.yield = words → derivation = other
  denoted : ∀ derivation : Derivation (.one nonterminal),
    derivation.yield = words → result = .ok derivation.denoted

/-- A result is derived if it is read from trees, each of which has a derivation, and if every
derivation of the words is that of a tree. -/
theorem isDerived_of_trees
    {nonterminal : Nonterminal} {words : List Word} {result : Except ReadError nonterminal.Denoted}
    {goal : Phrase} (hgoal : IsGoal goal)
    (derive : Tree (.phrase goal) → Derivation (.one nonterminal))
    (hyield : ∀ tree, (derive tree).yield = tree.yield)
    (hcovered : ∀ derivation : Derivation (.one nonterminal), derivation.yield = words →
      ∃ tree, derive tree = derivation)
    (hresult : ∀ value, result = .ok value ↔
      ∃ tree, tree.yield = words ∧ (derive tree).denoted = value) :
    IsDerived nonterminal words result := by
  constructor
  · constructor
    · rintro ⟨value, hvalue⟩
      obtain ⟨tree, hwords, -⟩ := (hresult value).1 hvalue
      exact ⟨derive tree, (hyield tree).trans hwords⟩
    · rintro ⟨derivation, hwords⟩
      obtain ⟨tree, rfl⟩ := hcovered derivation hwords
      rw [hyield] at hwords
      exact ⟨(derive tree).denoted, (hresult _).2 ⟨tree, hwords, rfl⟩⟩
  · intro derivation other hderivation hother
    obtain ⟨tree, rfl⟩ := hcovered derivation hderivation
    obtain ⟨tree', rfl⟩ := hcovered other hother
    rw [hyield] at hderivation hother
    rw [eq_of_yield_eq hgoal (hderivation.trans hother.symm)]
  · intro derivation hwords
    obtain ⟨tree, rfl⟩ := hcovered derivation hwords
    rw [hyield] at hwords
    exact (hresult _).2 ⟨tree, hwords, rfl⟩

variable {words : List SpelledWord}

theorem read_ofList_iff
    {goal : Phrase} (hgoal : IsGoal goal) (hclear : HasClearFront words)
    {tree : Tree (.phrase goal)} :
    Reading.read goal (String.ofList (spaced words)).toList = .ok tree ↔
      tree.yield = counted words := by
  rw [String.toList_ofList]
  exact read_eq_ok_iff hgoal hclear

/-- A graph is read as what its derivation denotes. -/
theorem graph_derived
    (hclear : HasClearFront words) :
    IsDerived .graph (counted words) (Graph.parse (String.ofList (spaced words))) := by
  refine isDerived_of_trees (Or.inl rfl) Tree.derivation ?_ ?_ ?_
  · intro tree
    exact tree.yield_derivation
  · intro derivation _
    exact exists_graph_tree derivation
  · intro graph
    refine Graph.parse_eq_ok_iff.trans (exists_congr fun tree => ?_)
    refine and_congr (read_ofList_iff (Or.inl rfl) hclear) ?_
    rw [← tree.read_derivation]
    exact Iff.rfl

theorem stop_of_yield_eq_nil
    {derivation : Derivation (.one .stylesheet)} (h : derivation.yield = []) :
    derivation = .one .stylesheet .stop := by
  rcases exists_rules_tree derivation with hstop | ⟨tree, rfl⟩
  · exact hstop
  · obtain ⟨word, rest, hyield, -⟩ := Tree.exists_yield_eq_cons tree
    rw [Derivation.yield, tree.yield_derivation, hyield] at h
    cases h

/-- A source without words is read as the stylesheet without rules. -/
theorem stylesheet_derived_nil :
    IsDerived .stylesheet (counted []) (Stylesheet.parse (String.ofList (spaced []))) := by
  have hparse : Stylesheet.parse (String.ofList (spaced [])) = .ok Stylesheet.empty :=
    Stylesheet.parse_of_skipGap_eq_nil (by simp [spaced, skipGap])
  constructor
  · constructor
    · intro _
      exact ⟨.one .stylesheet .stop, rfl⟩
    · intro _
      exact ⟨Stylesheet.empty, hparse⟩
  · intro derivation other hyield hother
    rw [stop_of_yield_eq_nil hyield, stop_of_yield_eq_nil hother]
  · intro derivation hyield
    rw [stop_of_yield_eq_nil hyield]
    exact hparse

/-- A stylesheet is read as what its derivation denotes. -/
theorem stylesheet_derived
    (hclear : HasClearFront words) :
    IsDerived .stylesheet (counted words) (Stylesheet.parse (String.ofList (spaced words))) := by
  cases words with
  | nil =>
      exact stylesheet_derived_nil
  | cons first later =>
      refine isDerived_of_trees (Or.inr rfl)
        (fun tree : Tree (.phrase .rules) => .one .stylesheet tree.derivation) ?_ ?_ ?_
      · intro tree
        exact tree.yield_derivation
      · intro derivation hyield
        rcases exists_rules_tree derivation with rfl | hcovered
        · cases hyield
        · exact hcovered
      · intro stylesheet
        have hfilled : skipGap (String.ofList (spaced (first :: later))).toList ≠ [] := by
          rw [String.toList_ofList]
          exact skipGap_spaced_ne_nil first later
        refine (Stylesheet.parse_eq_ok_iff hfilled).trans (exists_congr fun tree => ?_)
        refine and_congr (read_ofList_iff (Or.inr rfl) hclear) ?_
        rw [← tree.read_derivation]
        exact Iff.rfl

/-- Words separated by spaces are read as a graph and as a stylesheet exactly when the grammar
derives them, and then as what their only derivation denotes. -/
theorem parse_derived
    (words : List SpelledWord) (hclear : HasClearFront words) :
    IsDerived .graph (counted words) (Graph.parse (String.ofList (spaced words))) ∧
      IsDerived .stylesheet (counted words) (Stylesheet.parse (String.ofList (spaced words))) :=
  ⟨graph_derived hclear, stylesheet_derived hclear⟩

/-- The word for a strict graph makes the graph strict where it comes first and names a node
elsewhere. -/
theorem parse_derived_strict :
    let bare : SpelledWord :=
      ⟨⟨.identifier, "strict"⟩, "strict".toList,
        ⟨isName_of_all (by decide) (by decide), by decide⟩, rfl, by decide⟩
    let words : List SpelledWord := [
      bare,
      ⟨⟨.graph, ()⟩, "graph".toList, rfl, rfl, by decide⟩,
      ⟨⟨.leftBrace, ()⟩, ['{'], rfl, rfl, by decide⟩,
      bare,
      ⟨⟨.rightBrace, ()⟩, ['}'], rfl, rfl, by decide⟩]
    let node : Derivation (.one .statement) :=
      .one .statement <| .right <| .right <| .right <| .right <| .right <| .one .nodeStmt <|
        .both (.one .nodeIds (.both (.one .nodeId (.both (.one .atom (.left
          (.word .identifier "strict"))) .absent)) .stop)) .absent
    let derivation : Derivation (.one .graph) :=
      .one .graph <| .both (.present (.word .strict ())) <| .both (.left (.word .graph ())) <|
        .both .absent <| .both (.word .leftBrace ()) <|
          .both (.one .body (.more (.both node .absent) .stop)) (.word .rightBrace ())
    HasClearFront words ∧ derivation.yield = counted words ∧
      Graph.parse (String.ofList (spaced words)) =
        .ok ⟨none, true, false, .ofStatements [.node (.text "strict") Attributes.empty]⟩ := by
  intro bare words node derivation
  have hclear : HasClearFront words := by
    unfold HasClearFront
    decide
  exact ⟨hclear, rfl, (parse_derived words hclear).1.denoted derivation rfl⟩

end Derived

end DotCascade
