import DotCascade.Grammar.Meaning
import DotCascade.Proofs.Atom.RoundTrip

/-!
# Texts that render a meaning

A text renders a meaning of a symbol if it spells the yield of some derivation
with that meaning, whatever comes behind it.  Texts that render the symbols of a
production, put one behind the other, render what the production makes of their
meanings (`renders_node`), and gaps around a text change nothing.

So a written form is shown to be read back by following its own recursion.
-/

namespace DotCascade
namespace Reading

open Grammar

section Rows

/-- The meanings of the symbols in a row. -/
def Row : List Symbol → Type
  | [] => Unit
  | symbol :: rest => symbol.Meaning × Row rest

/-- An action on the meanings in a row. -/
def applyRow {result : Type} :
    {symbols : List Symbol} → Action result symbols → Row symbols → result
  | [], value, _ => value
  | _ :: _, action, (first, rest) => applyRow (action first) rest

end Rows

/-- A text that spells a derivation with a given meaning, whatever comes behind it. -/
def Renders (symbol : Symbol) (text : List Char) (value : symbol.Meaning) : Prop :=
  ∃ tree : Tree symbol, tree.meaning = value ∧ ∀ rest, Scans (text ++ rest) tree.yield rest

/-- A text that spells derivations with given meanings in a row, whatever comes behind it. -/
def RendersRow (symbols : List Symbol) (text : List Char) (values : Row symbols) : Prop :=
  ∃ forest : Forest symbols,
    (∀ (result : Type) (action : Action result symbols),
      forest.feed action = applyRow action values) ∧
    ∀ rest, Scans (text ++ rest) forest.yield rest

section Combination

theorem rendersRow_nil :
    RendersRow [] [] () :=
  ⟨.nil, fun _ _ => by rw [Forest.feed]; rfl, fun _ => .done rfl⟩

theorem rendersRow_cons
    {first : Symbol} {later : List Symbol} {text behind : List Char}
    {value : first.Meaning} {values : Row later}
    (hfirst : Renders first text value) (hlater : RendersRow later behind values) :
    RendersRow (first :: later) (text ++ behind) (value, values) := by
  obtain ⟨tree, rfl, htree⟩ := hfirst
  obtain ⟨forest, hfeed, hforest⟩ := hlater
  refine ⟨.cons tree forest, fun result action => ?_, fun rest => ?_⟩
  · rw [Forest.feed, applyRow]
    exact hfeed result _
  · rw [List.append_assoc]
    exact (htree (behind ++ rest)).trans (hforest rest)

/-- What a production makes of the meanings of its symbols is rendered by their texts. -/
theorem renders_node
    {result : Phrase} {symbols : List Symbol} (production : Production result symbols)
    {text : List Char} {values : Row symbols}
    (h : RendersRow symbols text values) :
    Renders (.phrase result) text (applyRow production.action values) := by
  obtain ⟨forest, hfeed, hscans⟩ := h
  refine ⟨.node production forest, ?_, hscans⟩
  rw [Tree.meaning]
  exact hfeed _ production.action

theorem renders_leaf
    {terminal : Terminal} {lexeme : terminal.Lexeme} {text : List Char}
    (h : ∀ rest, Scans (text ++ rest) [⟨terminal, lexeme⟩] rest) :
    Renders (.word terminal) text lexeme :=
  ⟨.leaf terminal lexeme, by rw [Tree.meaning], h⟩

section One

variable {result : Phrase} {a b c : Symbol} {x : a.Meaning} {y : b.Meaning} {z : c.Meaning}
variable {s t u : List Char}

theorem renders_one
    (production : Production result [a]) (ha : Renders a s x) :
    Renders (.phrase result) s (production.action x) := by
  simpa [applyRow] using renders_node production (rendersRow_cons ha rendersRow_nil)

theorem renders_two
    (production : Production result [a, b]) (ha : Renders a s x) (hb : Renders b t y) :
    Renders (.phrase result) (s ++ t) (production.action x y) := by
  simpa [applyRow] using
    renders_node production (rendersRow_cons ha (rendersRow_cons hb rendersRow_nil))

theorem renders_three
    (production : Production result [a, b, c])
    (ha : Renders a s x) (hb : Renders b t y) (hc : Renders c u z) :
    Renders (.phrase result) (s ++ (t ++ u)) (production.action x y z) := by
  simpa [applyRow] using
    renders_node production
      (rendersRow_cons ha (rendersRow_cons hb (rendersRow_cons hc rendersRow_nil)))

end One

end Combination

section Gaps

/-- A text that is skipped in front of whatever comes behind it. -/
def IsGap (gap : List Char) : Prop :=
  ∀ rest, skipGap (gap ++ rest) = skipGap rest

theorem isGap_nil :
    IsGap [] :=
  fun _ => rfl

theorem isGap_cons
    {c : Char} {gap : List Char} (hc : Text.isBlank c = true) (h : IsGap gap) :
    IsGap (c :: gap) := by
  intro rest
  rw [← h rest, List.cons_append, skipGap]
  · simp [hc]
  all_goals
    rintro behind rfl
    exact absurd hc (by decide)

theorem isGap_space :
    IsGap [' '] :=
  isGap_cons (by decide) isGap_nil

theorem isGap_newline :
    IsGap ['\n'] :=
  isGap_cons (by decide) isGap_nil

theorem isGap_replicate
    (n : Nat) :
    IsGap (List.replicate n ' ') := by
  induction n with
  | zero =>
      exact isGap_nil
  | succ n ih =>
      exact isGap_cons (by decide) ih

theorem Renders.behindGap
    {symbol : Symbol} {gap text : List Char} {value : symbol.Meaning}
    (hgap : IsGap gap) (h : Renders symbol text value) :
    Renders symbol (gap ++ text) value := by
  obtain ⟨tree, hvalue, hscans⟩ := h
  refine ⟨tree, hvalue, fun rest => .gap ?_ (hscans rest)⟩
  rw [List.append_assoc, hgap]

theorem Renders.withGap
    {symbol : Symbol} {gap text : List Char} {value : symbol.Meaning}
    (hgap : IsGap gap) (h : Renders symbol text value) :
    Renders symbol (text ++ gap) value := by
  obtain ⟨tree, hvalue, hscans⟩ := h
  refine ⟨tree, hvalue, fun rest => ?_⟩
  rw [List.append_assoc, ← List.append_nil tree.yield]
  exact (hscans (gap ++ rest)).trans (.done (hgap rest))

end Gaps

section Words

/-- A mark renders itself. -/
theorem renders_mark
    (terminal : Terminal) (hclosed : closed terminal = true)
    {piece : List Char} (hspelling : Spelling terminal piece) {lexeme : terminal.Lexeme}
    (htells : Reading.lexeme terminal piece = .ok lexeme) :
    Renders (.word terminal) piece lexeme := by
  refine renders_leaf fun rest => ?_
  have hstands : Stands ⟨terminal, lexeme⟩ piece rest :=
    stands_of_spelling hspelling (Or.inl hclosed) htells
  exact .word hstands (.done rfl)

/-- A keyword and the space behind it render the keyword. -/
theorem renders_keyword
    (terminal : Terminal) {piece : List Char} (hspelling : Spelling terminal piece)
    {lexeme : terminal.Lexeme} (htells : Reading.lexeme terminal piece = .ok lexeme) :
    Renders (.word terminal) (piece ++ [' ']) lexeme := by
  refine renders_leaf fun rest => ?_
  have hspace : Detached (' ' :: rest) := detached_cons (by decide) (by decide)
  have hstands : Stands ⟨terminal, lexeme⟩ piece (' ' :: rest) :=
    stands_of_spelling hspelling (Or.inr hspace) htells
  rw [List.append_assoc]
  exact .word hstands (.done (isGap_space rest))

/-- A faithful atom is rendered by its written form. -/
theorem renders_atom
    {atom : Atom} (h : atom.isFaithful = true) :
    Renders (.phrase .atom) atom.written atom := by
  have hleaf : Renders (.word atom.word.terminal) atom.written atom.word.lexeme :=
    renders_leaf fun rest => .word (Atom.stands_written h rest) (.done rfl)
  cases atom with
  | text value =>
      exact renders_one .quotedAtom (renders_one .firstString hleaf)
  | markup nodes =>
      exact renders_one .markupAtom hleaf

end Words

end Reading
end DotCascade
