import DotCascade.Grammar.Tree
import DotCascade.Reading.State

/-!
# What comes next

The words of a tree begin with a word that may open its symbol, and what follows
a tree inside a derivation may follow its symbol.  The first is
`exists_yield_eq_cons`, by induction on the tree.  The second needs one check of
every production (`chained_symbols`): behind a phrase there stands the opening of
the next symbol, or the end of the production, and the follow set holds both.
-/

namespace DotCascade
namespace Reading

open Grammar

/-- The kinds of word that may open a symbol. -/
def opening : Symbol → List Terminal
  | .word terminal => [terminal]
  | .phrase phrase =>
      (corners phrase).flatMap fun corner =>
        corner.alternatives.filterMap fun alternative =>
          match alternative.symbols with
          | .word terminal :: _ => some terminal
          | _ => none

/-- What comes next where some words stand in front of something else. -/
def comingNext : List Word → Lookahead → Lookahead
  | [], behind => behind
  | word :: _, _ => .word word.terminal

section Opening

/-- The first symbol of a production opens with the words that open its phrase. -/
theorem opening_head_subset
    {result : Phrase} {first : Symbol} {rest : List Symbol}
    (production : Production result (first :: rest)) :
    ∀ terminal ∈ opening first, terminal ∈ opening (.phrase result) := by
  cases production <;> decide

mutual

theorem Tree.exists_yield_eq_cons :
    {symbol : Symbol} → (tree : Tree symbol) →
    ∃ word words, tree.yield = word :: words ∧ word.terminal ∈ opening symbol
  | _, .leaf terminal lexeme =>
      ⟨⟨terminal, lexeme⟩, [], rfl, by simp [opening]⟩
  | _, @Grammar.Tree.node _ [] production _ =>
      absurd rfl production.symbols_ne_nil
  | _, @Grammar.Tree.node _ (_ :: _) production children => by
      obtain ⟨word, words, hyield, hword⟩ := Forest.exists_yield_eq_cons children
      exact ⟨word, words, hyield, opening_head_subset production _ hword⟩

theorem Forest.exists_yield_eq_cons :
    {first : Symbol} → {rest : List Symbol} → (forest : Forest (first :: rest)) →
    ∃ word words, forest.yield = word :: words ∧ word.terminal ∈ opening first
  | _, _, .cons tree later => by
      obtain ⟨word, words, hyield, hword⟩ := Tree.exists_yield_eq_cons tree
      exact ⟨word, words ++ later.yield, by simp [Forest.yield, hyield], hword⟩

end

end Opening

section Following

/-- Everything that may come next behind a symbol of a production is in the follow set of the
symbol. -/
def chained (result : Phrase) : List Symbol → Bool
  | [] => true
  | .word _ :: rest => chained result rest
  | [.phrase last] => result.follow.all last.follow.contains
  | .phrase first :: next :: rest =>
      ((opening next).all fun terminal => first.follow.contains (.word terminal)) &&
        chained result (next :: rest)

theorem chained_symbols
    {result : Phrase} {symbols : List Symbol}
    (production : Production result symbols) :
    chained result symbols = true := by
  cases production <;> decide

theorem chained_tail
    {result : Phrase} {first : Symbol} {rest : List Symbol}
    (h : chained result (first :: rest) = true) :
    chained result rest = true := by
  cases first with
  | word _ =>
      exact h
  | phrase _ =>
      cases rest with
      | nil =>
          rfl
      | cons next rest =>
          simp only [chained, Bool.and_eq_true] at h
          exact h.2

/-- What comes next behind a phrase of a production is in its follow set. -/
theorem comingNext_mem_follow
    {result first : Phrase} {rest : List Symbol} {behind : Lookahead}
    (h : chained result (.phrase first :: rest) = true)
    (hbehind : behind ∈ result.follow)
    (later : Forest rest) :
    comingNext later.yield behind ∈ first.follow := by
  cases rest with
  | nil =>
      cases later
      simp only [chained, List.all_eq_true, List.contains_iff_mem] at h
      exact h behind hbehind
  | cons next rest =>
      obtain ⟨word, words, hyield, hword⟩ := Forest.exists_yield_eq_cons later
      simp only [chained, Bool.and_eq_true, List.all_eq_true, List.contains_iff_mem] at h
      rw [hyield]
      exact h.1 word.terminal hword

end Following

end Reading
end DotCascade
