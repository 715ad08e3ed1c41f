import DotCascade.Grammar.Meaning

/-!
# What every action keeps

Whatever holds of the meanings of words and is kept by the action of every
production holds of the meaning of every derivation (`holds_meaning`).  What the
words contribute is the only thing that a derivation adds to the actions, so a
fact about meanings is shown production by production.
-/

namespace DotCascade
namespace Grammar

/-- A property of the meanings of symbols. -/
abbrev Holding :=
  (symbol : Symbol) → symbol.Meaning → Prop

variable {holds : Holding}

/-- An action makes something welcome of meanings of which something holds. -/
def Keeps {result : Type} (holds : Holding) (welcome : result → Prop) :
    (symbols : List Symbol) → Action result symbols → Prop
  | [], value => welcome value
  | symbol :: rest, action =>
      ∀ value : symbol.Meaning, holds symbol value → Keeps holds welcome rest (action value)

/-- Every production makes something of meanings of which the same holds. -/
def KeptByActions (holds : Holding) : Prop :=
  ∀ {result : Phrase} {symbols : List Symbol} (production : Production result symbols),
    Keeps holds (holds (.phrase result)) symbols production.action

/-- What holds of every value holds of what an action makes. -/
theorem keeps_of_forall
    {result : Type} {welcome : result → Prop} (h : ∀ value, welcome value) :
    (symbols : List Symbol) → (action : Action result symbols) →
      Keeps holds welcome symbols action
  | [], value => h value
  | _ :: rest, action => fun value _ => keeps_of_forall h rest (action value)

mutual

/-- What actions keep holds of the meaning of a derivation if it holds of its words. -/
theorem holds_meaning
    (hactions : KeptByActions holds) {symbol : Symbol} (tree : Tree symbol)
    (h : ∀ word ∈ tree.yield, holds (.word word.terminal) word.lexeme) :
    holds symbol tree.meaning := by
  match tree with
  | .leaf terminal lexeme =>
      rw [Tree.meaning]
      exact h ⟨terminal, lexeme⟩ List.mem_cons_self
  | .node production children =>
      rw [Tree.meaning]
      exact keeps_feed hactions children h (hactions production)

theorem keeps_feed
    (hactions : KeptByActions holds) {result : Type} {welcome : result → Prop} :
    {symbols : List Symbol} → (forest : Forest symbols) → {action : Action result symbols} →
    (∀ word ∈ forest.yield, holds (.word word.terminal) word.lexeme) →
    Keeps holds welcome symbols action → welcome (forest.feed action)
  | _, .nil, _, _, haction => by
      rw [Forest.feed]
      exact haction
  | _, .cons tree later, action, h, haction => by
      rw [Forest.yield, List.forall_mem_append] at h
      rw [Forest.feed]
      exact keeps_feed hactions later h.2 (haction tree.meaning (holds_meaning hactions tree h.1))

end

end Grammar
end DotCascade
