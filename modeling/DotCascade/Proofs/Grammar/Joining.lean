import DotCascade.Grammar.Meaning
import DotCascade.Proofs.Graph.Merging
import DotCascade.Proofs.Reading.Lookahead
import DotCascade.Proofs.Reading.States

/-!
# Derivations in a row

Rows of statements and rows of rules grow to the left.  A row is put behind another
one by letting it grow on from there, and then the words of both stand one behind the
other (`exists_joined`).  The meaning is the merged content, and for rules the rules of
both.

A tree of a graph whose words begin like those of a directed graph without a name
consists of the statements in its body (`exists_directedGraph`).
-/

namespace DotCascade
namespace Grammar

section Rows

variable {row item : Phrase}

/-- A row that grows to the left, one item at a time. -/
structure Growing (row item : Phrase) where
  first : Production row [.phrase item]
  later : Production row [.phrase row, .phrase item]
  complete : ∀ {symbols : List Symbol}, Production row symbols →
    symbols = [.phrase item] ∨ symbols = [.phrase row, .phrase item]

/-- A row is one item, or an item behind another row. -/
theorem Growing.cases_tree
    (growing : Growing row item) (tree : Tree (.phrase row)) :
    (∃ last : Tree (.phrase item), tree = .node growing.first (.cons last .nil)) ∨
      ∃ (before : Tree (.phrase row)) (last : Tree (.phrase item)),
        tree = .node growing.later (.cons before (.cons last .nil)) := by
  match tree with
  | .node production children =>
      rcases growing.complete production with rfl | rfl
      · match children with
        | .cons last .nil =>
            exact Or.inl ⟨last, by rw [Subsingleton.elim production growing.first]⟩
      · match children with
        | .cons before (.cons last .nil) =>
            exact Or.inr ⟨before, last, by rw [Subsingleton.elim production growing.later]⟩

/-- Two rows make one row, if their meanings can be combined item by item. -/
theorem Growing.exists_joined
    (growing : Growing row item)
    (combine : (Symbol.phrase row).Meaning → (Symbol.phrase row).Meaning →
      (Symbol.phrase row).Meaning)
    (hfirst : ∀ before last, growing.later.action before last =
      combine before (growing.first.action last))
    (hlater : ∀ before inner last, growing.later.action (combine before inner) last =
      combine before (growing.later.action inner last))
    (before later : Tree (.phrase row)) :
    ∃ joined : Tree (.phrase row), joined.yield = before.yield ++ later.yield ∧
      joined.meaning = combine before.meaning later.meaning := by
  induction hsize : sizeOf later using Nat.strongRecOn generalizing later with
  | ind n ih =>
      rcases growing.cases_tree later with ⟨last, rfl⟩ | ⟨inner, last, rfl⟩
      · refine ⟨.node growing.later (.cons before (.cons last .nil)), ?_, ?_⟩
        · simp [Tree.yield, Forest.yield]
        · rw [meaning_two, meaning_one, hfirst]
      · have hsmaller : sizeOf inner < n := by
          rw [← hsize]
          simp
          omega
        obtain ⟨joined, hyield, hmeaning⟩ := ih _ hsmaller inner rfl
        refine ⟨.node growing.later (.cons joined (.cons last .nil)), ?_, ?_⟩
        · simp [Tree.yield, Forest.yield, hyield]
        · rw [meaning_two, meaning_two, hmeaning, hlater]

/-- Statements grow entry by entry. -/
def growingStatements : Growing .statements .entry where
  first := .firstEntry
  later := .laterEntry
  complete production := by
    cases production
    · exact Or.inl rfl
    · exact Or.inr rfl

/-- Rules grow rule by rule. -/
def growingRules : Growing .rules .rule where
  first := .firstRule
  later := .laterRule
  complete production := by
    cases production
    · exact Or.inl rfl
    · exact Or.inr rfl

/-- Statements one behind the other merge their contents. -/
theorem exists_joined_statements
    (before later : Tree (.phrase .statements)) :
    ∃ joined : Tree (.phrase .statements), joined.yield = before.yield ++ later.yield ∧
      joined.meaning = Content.merge before.meaning later.meaning :=
  growingStatements.exists_joined Content.merge (fun _ _ => rfl)
    (fun before inner last => merge_assoc before inner last) before later

theorem exists_joined_rules
    (before later : Tree (.phrase .rules)) :
    ∃ joined : Tree (.phrase .rules), joined.yield = before.yield ++ later.yield ∧
      joined.meaning = List.append (α := Rule) before.meaning later.meaning :=
  growingRules.exists_joined (fun before later : List Rule => before ++ later)
    (fun _ _ => rfl) (fun before inner last => List.append_assoc (α := Rule) before inner last)
    before later

end Rows

section Graphs

/-- The tree of a directed graph without a name, with the statements in its body, if there are
any. -/
def directedGraph (body : Option (Tree (.phrase .statements))) : Tree (.phrase .graph) :=
  let opening : Tree (.word .leftBrace) := .leaf .leftBrace ()
  let closing : Tree (.word .rightBrace) := .leaf .rightBrace ()
  let kind : Tree (.phrase .graphKind) := .node .directed (.cons (.leaf .digraph ()) .nil)
  match body with
  | none =>
      .node .namelessGraph <| .cons kind <|
        .cons (.node .emptyGraphBody (.cons opening (.cons closing .nil))) .nil
  | some statements =>
      .node .namelessGraph <| .cons kind <|
        .cons (.node .fullGraphBody (.cons opening (.cons statements (.cons closing .nil)))) .nil

/-- The words of the statements in a body, if there are any. -/
def bodyYield (body : Option (Tree (.phrase .statements))) : List Word :=
  body.elim [] Tree.yield

/-- The content of the statements in a body, if there are any. -/
def bodyContent (body : Option (Tree (.phrase .statements))) : Content :=
  body.elim Content.empty Tree.meaning

theorem yield_directedGraph
    (body : Option (Tree (.phrase .statements))) :
    (directedGraph body).yield =
      [⟨.digraph, ()⟩, ⟨.leftBrace, ()⟩] ++ bodyYield body ++ [⟨.rightBrace, ()⟩] := by
  cases body with
  | none =>
      rfl
  | some statements =>
      simp [directedGraph, bodyYield, Tree.yield, Forest.yield]

theorem meaning_directedGraph
    (body : Option (Tree (.phrase .statements))) :
    (directedGraph body).meaning = (⟨none, false, true, bodyContent body⟩ : Graph) := by
  cases body with
  | none =>
      rw [directedGraph, meaning_two, meaning_one, meaning_two]
      rfl
  | some statements =>
      rw [directedGraph, meaning_two, meaning_one, meaning_three]
      rfl

theorem exists_joined_bodies
    (before later : Option (Tree (.phrase .statements))) :
    ∃ joined, bodyYield joined = bodyYield before ++ bodyYield later ∧
      bodyContent joined = (bodyContent before).merge (bodyContent later) := by
  cases before with
  | none =>
      exact ⟨later, rfl, (empty_merge _).symm⟩
  | some before =>
      cases later with
      | none =>
          exact ⟨some before, (List.append_nil _).symm, (merge_empty _).symm⟩
      | some later =>
          obtain ⟨joined, hyield, hmeaning⟩ := exists_joined_statements before later
          exact ⟨some joined, hyield, hmeaning⟩

/-- The words that open a graph are those of a directed one. -/
theorem eq_directed_of_yield
    {kind : Tree (.phrase .graphKind)} {rest words : List Word}
    (h : kind.yield ++ rest = ⟨.digraph, ()⟩ :: words) :
    kind = .node .directed (.cons (.leaf .digraph ()) .nil) ∧ rest = words := by
  cases kind with
  | node production children =>
      cases production with
      | directed =>
          cases children with
          | cons word later =>
              cases word
              cases later
              exact ⟨rfl, (List.cons.inj h).2⟩
      | undirected | strictUndirected | strictDirected =>
          cases children with
          | cons word later =>
              cases word
              cases (List.cons.inj h).1

theorem exists_graphBody
    (tree : Tree (.phrase .graphBody)) :
    ∃ body : Option (Tree (.phrase .statements)),
      .node .namelessGraph (.cons (.node .directed (.cons (.leaf .digraph ()) .nil))
        (.cons tree .nil)) = directedGraph body := by
  cases tree with
  | node production children =>
      cases production with
      | emptyGraphBody =>
          match children with
          | .cons (.leaf _ _) (.cons (.leaf _ _) .nil) =>
              exact ⟨none, rfl⟩
      | fullGraphBody =>
          match children with
          | .cons (.leaf _ _) (.cons statements (.cons (.leaf _ _) .nil)) =>
              exact ⟨some statements, rfl⟩

/-- A graph that begins like a directed one without a name is one. -/
theorem exists_directedGraph
    {tree : Tree (.phrase .graph)} {words : List Word}
    (h : tree.yield = ⟨.digraph, ()⟩ :: ⟨.leftBrace, ()⟩ :: words) :
    ∃ body, tree = directedGraph body := by
  cases tree with
  | node production children =>
      cases production with
      | namelessGraph =>
          match children with
          | .cons kind (.cons body .nil) =>
              obtain ⟨rfl, -⟩ := eq_directed_of_yield h
              exact exists_graphBody body
      | namedGraph =>
          match children with
          | .cons kind (.cons id (.cons body .nil)) =>
              obtain ⟨-, hlater⟩ := eq_directed_of_yield h
              obtain ⟨word, more, hid, hopening⟩ := Reading.Tree.exists_yield_eq_cons id
              rw [Forest.yield, hid] at hlater
              obtain rfl := (List.cons.inj hlater).1
              exact absurd hopening (by decide)

end Graphs

end Grammar
end DotCascade
