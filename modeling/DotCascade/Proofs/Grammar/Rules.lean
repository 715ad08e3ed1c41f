import DotCascade.Proofs.Grammar.Joining
import DotCascade.Proofs.Reading.Words
import Mathlib.Data.List.Basic
import Mathlib.Data.List.Induction

/-!
# Derivations of rules

A derivation of a stylesheet is a row of derivations of rules (`exists_ruleTrees`), and
a rule is its selectors and its declarations between braces (`exists_ruleTree`).  No
brace stands within selectors or declarations (`IsInside`), so the words of a rule that
ends at some closing brace are those behind the closing brace in front of it
(`exists_cut_of_closing`).

So rules may stand in the place of a rule with the same declarations
(`exists_exchanged_rule`).
-/

namespace DotCascade
namespace Grammar

section Inside

/-- A symbol that can stand between or in front of the braces of a rule. -/
def isInside : Symbol → Bool
  | .word terminal => terminal ∉ [.strict, .leftBrace, .rightBrace]
  | .phrase result =>
      result ∈ [.selectors, .selector, .entity, .classes, .declarations, .declaration, .atom,
        .quoted]

/-- Words that can stand between or in front of the braces of a rule. -/
def IsInside (words : List Word) : Prop :=
  ∀ word ∈ words, isInside (.word word.terminal) = true

theorem isInside_symbols
    {result : Phrase} {symbols : List Symbol} (production : Production result symbols)
    (h : isInside (.phrase result) = true) :
    ∀ symbol ∈ symbols, isInside symbol = true := by
  cases production <;> first | exact absurd h (by decide) | decide

mutual

/-- All words of selectors or declarations stand inside a rule. -/
theorem Tree.isInside :
    {symbol : Symbol} → (tree : Tree symbol) → isInside symbol = true → IsInside tree.yield
  | _, .leaf _ _, h => by
      intro word hword
      obtain rfl := List.mem_singleton.1 hword
      exact h
  | _, .node production children, h =>
      Forest.isInside children (isInside_symbols production h)

theorem Forest.isInside :
    {symbols : List Symbol} → (forest : Forest symbols) →
      (∀ symbol ∈ symbols, Grammar.isInside symbol = true) → IsInside forest.yield
  | _, .nil, _ => fun _ hword => absurd hword List.not_mem_nil
  | _, .cons tree later, h => by
      rw [List.forall_mem_cons] at h
      rw [Forest.yield]
      exact List.forall_mem_append.2 ⟨Tree.isInside tree h.1, Forest.isInside later h.2⟩

end

theorem IsInside.notMem
    {words : List Word} (h : IsInside words) {word : Word}
    (hword : isInside (.word word.terminal) = false) :
    word ∉ words := by
  intro hmem
  rw [h word hmem] at hword
  cases hword

theorem IsInside.ne_strict
    {words : List Word} (h : IsInside words) :
    ∀ word ∈ words, word.terminal ≠ .strict := by
  intro word hword hstrict
  have hinside := h word hword
  rw [hstrict] at hinside
  cases hinside

end Inside

section Cuts

/-- A list is cut in one way in front of the first place of an element. -/
theorem eq_of_append_cons
    {α : Type} {x : α} {front front' back back' : List α} (hfront : x ∉ front)
    (hfront' : x ∉ front') (h : front ++ x :: back = front' ++ x :: back') :
    front = front' ∧ back = back' := by
  induction front generalizing front' with
  | nil =>
      cases front' with
      | nil =>
          exact ⟨rfl, (List.cons.inj h).2⟩
      | cons first rest =>
          exact absurd (List.mem_cons.2 (Or.inl (List.cons.inj h).1)) hfront'
  | cons first rest ih =>
      cases front' with
      | nil =>
          exact absurd (List.mem_cons.2 (Or.inl (List.cons.inj h).1.symm)) hfront
      | cons first' rest' =>
          obtain ⟨rfl, hrest⟩ := List.cons.inj h
          obtain ⟨rfl, rfl⟩ :=
            ih (List.not_mem_of_not_mem_cons hfront) (List.not_mem_of_not_mem_cons hfront') hrest
          exact ⟨rfl, rfl⟩

end Cuts

section Rules

/-- The word for an opening brace. -/
def openingWord : Word :=
  ⟨.leftBrace, ()⟩

/-- The word for a closing brace. -/
def closingWord : Word :=
  ⟨.rightBrace, ()⟩

/-- The tree of a rule with the declarations between its braces, if there are any. -/
def ruleTree
    (selectors : Tree (.phrase .selectors)) (body : Option (Tree (.phrase .declarations))) :
    Tree (.phrase .rule) :=
  let opening : Tree (.word .leftBrace) := .leaf .leftBrace ()
  let closing : Tree (.word .rightBrace) := .leaf .rightBrace ()
  match body with
  | none => .node .emptyRule (.cons selectors (.cons opening (.cons closing .nil)))
  | some declarations =>
      .node .fullRule (.cons selectors (.cons opening (.cons declarations (.cons closing .nil))))

/-- The words of the declarations of a rule, if there are any. -/
def declarationWords (body : Option (Tree (.phrase .declarations))) : List Word :=
  body.elim [] Tree.yield

/-- The attributes that the declarations of a rule set, if there are any. -/
def declarationPairs (body : Option (Tree (.phrase .declarations))) : List Attribute :=
  body.elim [] Tree.meaning

theorem yield_ruleTree
    (selectors : Tree (.phrase .selectors)) (body : Option (Tree (.phrase .declarations))) :
    (ruleTree selectors body).yield =
      selectors.yield ++ openingWord :: (declarationWords body ++ [closingWord]) := by
  cases body with
  | none =>
      rfl
  | some declarations =>
      simp [ruleTree, declarationWords, openingWord, closingWord, Tree.yield, Forest.yield]

theorem meaning_ruleTree
    (selectors : Tree (.phrase .selectors)) (body : Option (Tree (.phrase .declarations))) :
    (ruleTree selectors body).meaning = rulesFor selectors.meaning (declarationPairs body) := by
  cases body with
  | none =>
      exact meaning_three .emptyRule _ _ _
  | some declarations =>
      exact meaning_four .fullRule _ _ _ _

/-- Every rule has selectors and perhaps declarations. -/
theorem exists_ruleTree
    (tree : Tree (.phrase .rule)) :
    ∃ selectors body, tree = ruleTree selectors body := by
  cases tree with
  | node production children =>
      cases production with
      | emptyRule =>
          match children with
          | .cons selectors (.cons (.leaf _ _) (.cons (.leaf _ _) .nil)) =>
              exact ⟨selectors, none, rfl⟩
      | fullRule =>
          match children with
          | .cons selectors (.cons (.leaf _ _) (.cons declarations (.cons (.leaf _ _) .nil))) =>
              exact ⟨selectors, some declarations, rfl⟩

theorem isInside_declarationWords
    (body : Option (Tree (.phrase .declarations))) :
    IsInside (declarationWords body) := by
  cases body with
  | none =>
      exact fun _ hword => absurd hword List.not_mem_nil
  | some declarations =>
      exact declarations.isInside rfl

/-- The only closing brace of a rule is its last word. -/
theorem exists_yield_rule
    (tree : Tree (.phrase .rule)) :
    ∃ words, tree.yield = words ++ [closingWord] ∧ closingWord ∉ words ∧
      ∀ word ∈ words, word.terminal ≠ .strict := by
  obtain ⟨selectors, body, rfl⟩ := exists_ruleTree tree
  have hselectors := selectors.isInside rfl
  have hdeclarations := isInside_declarationWords body
  refine ⟨selectors.yield ++ openingWord :: declarationWords body, ?_, ?_, ?_⟩
  · rw [yield_ruleTree, List.append_assoc]
    rfl
  · rw [List.mem_append, List.mem_cons]
    rintro (hmem | hmem | hmem)
    · exact hselectors.notMem rfl hmem
    · cases hmem
    · exact hdeclarations.notMem rfl hmem
  · rw [List.forall_mem_append, List.forall_mem_cons]
    exact ⟨hselectors.ne_strict, by decide, hdeclarations.ne_strict⟩

end Rules

section Rows

/-- The words of rules in a row. -/
def rowYield (rules : List (Tree (.phrase .rule))) : List Word :=
  rules.flatMap Tree.yield

/-- What a derivation of a rule means. -/
def ruleMeaning (tree : Tree (.phrase .rule)) : List Rule :=
  tree.meaning

/-- What rules in a row mean. -/
def rowMeaning (rules : List (Tree (.phrase .rule))) : List Rule :=
  rules.flatMap ruleMeaning

theorem rowYield_concat
    (rules : List (Tree (.phrase .rule))) (last : Tree (.phrase .rule)) :
    rowYield (rules ++ [last]) = rowYield rules ++ last.yield := by
  simp [rowYield]

theorem rowMeaning_concat
    (rules : List (Tree (.phrase .rule))) (last : Tree (.phrase .rule)) :
    rowMeaning (rules ++ [last]) = rowMeaning rules ++ ruleMeaning last := by
  simp [rowMeaning]

/-- A stylesheet is a row of rules. -/
theorem exists_ruleTrees
    (tree : Tree (.phrase .rules)) :
    ∃ rules, tree.yield = rowYield rules ∧ tree.meaning = rowMeaning rules := by
  induction hsize : sizeOf tree using Nat.strongRecOn generalizing tree with
  | ind n ih =>
      rcases growingRules.cases_tree tree with ⟨last, rfl⟩ | ⟨before, last, rfl⟩
      · refine ⟨[last], ?_, ?_⟩
        · simp [rowYield, Tree.yield, Forest.yield]
        · rw [meaning_one]
          exact (List.append_nil (ruleMeaning last)).symm
      · have hsmaller : sizeOf before < n := by
          rw [← hsize]
          simp
          omega
        obtain ⟨rules, hyield, hmeaning⟩ := ih _ hsmaller before rfl
        refine ⟨rules ++ [last], ?_, ?_⟩
        · rw [rowYield_concat, ← hyield]
          simp [Tree.yield, Forest.yield]
        · rw [meaning_two, hmeaning]
          exact (rowMeaning_concat rules last).symm

/-- Rules in a row are a stylesheet. -/
theorem exists_tree_of_rules
    {rules : List (Tree (.phrase .rule))} (hne : rules ≠ []) :
    ∃ tree : Tree (.phrase .rules), tree.yield = rowYield rules ∧
      tree.meaning = rowMeaning rules := by
  obtain ⟨first, later, rfl⟩ := List.exists_cons_of_ne_nil hne
  clear hne
  induction later using List.reverseRecOn with
  | nil =>
      refine ⟨.node .firstRule (.cons first .nil), ?_, ?_⟩
      · simp [rowYield, Tree.yield, Forest.yield]
      · rw [meaning_one]
        exact (List.append_nil (ruleMeaning first)).symm
  | append_singleton later last ih =>
      obtain ⟨tree, hyield, hmeaning⟩ := ih
      refine ⟨.node .laterRule (.cons tree (.cons last .nil)), ?_, ?_⟩
      · rw [← List.cons_append, rowYield_concat, ← hyield]
        simp [Tree.yield, Forest.yield]
      · rw [meaning_two, hmeaning]
        exact (rowMeaning_concat (first :: later) last).symm

/-- No word of a stylesheet is the one that makes a graph strict. -/
theorem ne_strict_of_rules
    (tree : Tree (.phrase .rules)) :
    ∀ word ∈ tree.yield, word.terminal ≠ .strict := by
  obtain ⟨rules, hyield, -⟩ := exists_ruleTrees tree
  intro word hword
  rw [hyield] at hword
  obtain ⟨rule, -, hmem⟩ := List.mem_flatMap.1 hword
  obtain ⟨words, hwords, -, hplain⟩ := exists_yield_rule rule
  rw [hwords] at hmem
  rcases List.mem_append.1 hmem with hinner | hlast
  · exact hplain word hinner
  · obtain rfl := List.mem_singleton.1 hlast
    decide

/-- Words stand at the beginning or behind a closing brace. -/
def IsFront (front : List Word) : Prop :=
  front = [] ∨ ∃ inner, front = inner ++ [closingWord]

/-- What is left behind the first closing brace stands behind a closing brace as well, or nothing is
left. -/
theorem IsFront.exists_cut
    {front : List Word} (h : IsFront front) (hne : front ≠ []) :
    ∃ inner back, front = inner ++ closingWord :: back ∧ closingWord ∉ inner ∧ IsFront back := by
  obtain ⟨rest, rfl⟩ := h.resolve_left hne
  obtain ⟨inner, back, hcut, hinner⟩ :=
    List.eq_append_cons_of_mem (List.mem_append_right rest (List.mem_singleton_self closingWord))
  refine ⟨inner, back, hcut, hinner, ?_⟩
  rcases List.eq_nil_or_concat' back with rfl | ⟨later, last, rfl⟩
  · exact Or.inl rfl
  · rw [← List.cons_append, ← List.append_assoc] at hcut
    obtain ⟨-, hlast⟩ := List.append_inj' hcut rfl
    exact Or.inr ⟨later, by rw [(List.cons.inj hlast).1]⟩

/-- Words behind a closing brace that end with the next one are those of one rule. -/
theorem exists_cut_of_closing
    {rules : List (Tree (.phrase .rule))} {front words back : List Word}
    (hfront : IsFront front) (hwords : closingWord ∉ words)
    (h : rowYield rules = front ++ (words ++ closingWord :: back)) :
    ∃ before rule after, rules = before ++ rule :: after ∧ rowYield before = front ∧
      rule.yield = words ++ [closingWord] ∧ rowYield after = back := by
  induction rules generalizing front with
  | nil =>
      simp [rowYield] at h
  | cons first rest ih =>
      obtain ⟨inner, hinner, hclosing, -⟩ := exists_yield_rule first
      have hrow : inner ++ closingWord :: rowYield rest =
          front ++ (words ++ closingWord :: back) := by
        rw [← h, rowYield, rowYield, List.flatMap_cons, hinner, List.append_assoc]
        rfl
      by_cases hempty : front = []
      · subst hempty
        obtain ⟨rfl, hback⟩ := eq_of_append_cons hclosing hwords hrow
        exact ⟨[], first, rest, rfl, rfl, hinner, hback⟩
      · obtain ⟨inner', front', rfl, hinner', hfront'⟩ := hfront.exists_cut hempty
        rw [List.append_assoc] at hrow
        obtain ⟨rfl, hrest⟩ := eq_of_append_cons hclosing hinner' hrow
        obtain ⟨before, rule, after, rfl, hbefore, hrule, hafter⟩ := ih hfront' hrest
        refine ⟨first :: before, rule, after, rfl, ?_, hrule, hafter⟩
        rw [rowYield, List.flatMap_cons, hinner, ← rowYield, hbefore, List.append_assoc]
        rfl

end Rows

section Exchange

/-- What selectors mean. -/
def selectorsMeaning (tree : Tree (.phrase .selectors)) : List Selector :=
  tree.meaning

theorem ruleMeaning_ruleTree
    (selectors : Tree (.phrase .selectors)) (body : Option (Tree (.phrase .declarations))) :
    ruleMeaning (ruleTree selectors body) =
      rulesFor (selectorsMeaning selectors) (declarationPairs body) :=
  meaning_ruleTree selectors body

/-- Rules with the same words mean the same. -/
theorem ruleMeaning_of_yield
    {rule rule' : Tree (.phrase .rule)} (h : rule.yield = rule'.yield) :
    ruleMeaning rule = ruleMeaning rule' := by
  have hwhole : (Tree.node .firstRule (.cons rule .nil)).yield =
      (Tree.node .firstRule (.cons rule' .nil)).yield := by
    simp only [Tree.yield, Forest.yield, h]
  have heq := congrArg Tree.meaning (Reading.eq_of_yield_eq (Or.inr rfl) hwhole)
  rw [meaning_one, meaning_one] at heq
  exact heq

/-- Rules with the same declarations give the attributes to the selectors of all of them. -/
theorem rowMeaning_ruleTrees
    (selectors : List (Tree (.phrase .selectors))) (body : Option (Tree (.phrase .declarations))) :
    rowMeaning (selectors.map (ruleTree · body)) =
      rulesFor (selectors.flatMap selectorsMeaning) (declarationPairs body) := by
  rw [rowMeaning, List.flatMap_map, rulesFor, List.map_flatMap]
  simp only [ruleMeaning_ruleTree, rulesFor]

/-- A rule between others is known by its words. -/
theorem exists_rule_of_words
    {tree : Tree (.phrase .rules)} {front opening words back : List Word}
    (hfront : IsFront front) (hopening : IsInside opening) (hwords : closingWord ∉ words)
    (h : tree.yield = front ++ (opening ++ openingWord :: words ++ closingWord :: back)) :
    ∃ before selectors body after, rowYield before = front ∧ selectors.yield = opening ∧
      declarationWords body = words ∧ rowYield after = back ∧
      tree.meaning = rowMeaning (before ++ ruleTree selectors body :: after) := by
  obtain ⟨rules, hyield, hmeaning⟩ := exists_ruleTrees tree
  have hclosing : closingWord ∉ opening ++ openingWord :: words := by
    rw [List.mem_append, List.mem_cons]
    rintro (hmem | hmem | hmem)
    · exact hopening.notMem rfl hmem
    · cases hmem
    · exact hwords hmem
  obtain ⟨before, rule, after, rfl, hbefore, hrule, hafter⟩ :=
    exists_cut_of_closing hfront hclosing (hyield ▸ h)
  obtain ⟨selectors, body, rfl⟩ := exists_ruleTree rule
  rw [yield_ruleTree, List.append_assoc] at hrule
  obtain ⟨hselectors, hbody⟩ :=
    eq_of_append_cons ((selectors.isInside rfl).notMem rfl) (hopening.notMem rfl) hrule
  exact ⟨before, selectors, body, after, hbefore, hselectors, List.append_cancel_right hbody,
    hafter, hmeaning⟩

/-- Rules with the same declarations stand in the place of one rule, if their selectors in a row
mean what the selectors of that rule mean. -/
theorem exists_exchanged_rule
    {tree : Tree (.phrase .rules)} {front words back : List Word}
    {selectors : Tree (.phrase .selectors)} (hfront : IsFront front)
    (hwords : closingWord ∉ words)
    (h : tree.yield =
      front ++ (selectors.yield ++ openingWord :: words ++ closingWord :: back)) :
    ∃ body, declarationWords body = words ∧
      ∀ others : List (Tree (.phrase .selectors)), others ≠ [] →
        others.flatMap selectorsMeaning = selectorsMeaning selectors →
        ∃ exchanged : Tree (.phrase .rules),
          exchanged.yield = front ++ (rowYield (others.map (ruleTree · body)) ++ back) ∧
          exchanged.meaning = tree.meaning := by
  obtain ⟨before, found, body, after, rfl, hfound, rfl, rfl, hmeaning⟩ :=
    exists_rule_of_words hfront (selectors.isInside rfl) hwords h
  refine ⟨body, rfl, fun others hne hothers => ?_⟩
  have hsame : ruleMeaning (ruleTree found body) = rowMeaning (others.map (ruleTree · body)) := by
    have hyield : (ruleTree found body).yield = (ruleTree selectors body).yield := by
      rw [yield_ruleTree, yield_ruleTree, hfound]
    rw [ruleMeaning_of_yield hyield, ruleMeaning_ruleTree, rowMeaning_ruleTrees, hothers]
  have hfilled : before ++ (others.map (ruleTree · body) ++ after) ≠ [] := by
    simp [hne]
  obtain ⟨exchanged, hyield, hexchanged⟩ := exists_tree_of_rules hfilled
  refine ⟨exchanged, ?_, ?_⟩
  · rw [hyield]
    simp only [rowYield, List.flatMap_append]
  · rw [hexchanged, hmeaning]
    simp only [rowMeaning, List.flatMap_append, List.flatMap_cons] at hsame ⊢
    rw [hsame]

end Exchange

end Grammar
end DotCascade
