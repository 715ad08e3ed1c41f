import DotCascade.Markup.Basic
import DotCascade.Grammar.Production

/-!
# Derivation trees

A word is a kind of word together with what such a word tells: the text of a
bare word, a number or a class name, the decoded text of a string, the nodes of
a markup word, and nothing for a word that is always the same.

A tree derives a symbol, a forest a row of symbols.  `yield` is the row of words
at the leaves.  A tree can hold only productions of the grammar, so it is a
derivation of its yield.
-/

namespace DotCascade
namespace Grammar

/-- What a word of some kind tells. -/
def Terminal.Lexeme : Terminal → Type
  | markup => List Markup.Node
  | identifier | number | className | string => String
  | _ => Unit

/-- A word. -/
structure Word where
  terminal : Terminal
  lexeme : terminal.Lexeme

mutual

/-- A derivation of a symbol. -/
inductive Tree : Symbol → Type where
  | leaf (terminal : Terminal) (lexeme : terminal.Lexeme) : Tree (.word terminal)
  | node
      {result : Phrase} {symbols : List Symbol}
      (production : Production result symbols)
      (children : Forest symbols) : Tree (.phrase result)

/-- Derivations of the symbols in a row. -/
inductive Forest : List Symbol → Type where
  | nil : Forest []
  | cons
      {first : Symbol} {rest : List Symbol}
      (tree : Tree first)
      (later : Forest rest) : Forest (first :: rest)

end

mutual

/-- The words at the leaves of a tree. -/
def Tree.yield : {symbol : Symbol} → Tree symbol → List Word
  | _, .leaf terminal lexeme => [⟨terminal, lexeme⟩]
  | _, .node _ children => children.yield

/-- The words at the leaves of a forest. -/
def Forest.yield : {symbols : List Symbol} → Forest symbols → List Word
  | _, .nil => []
  | _, .cons tree later => tree.yield ++ later.yield

end

end Grammar
end DotCascade
