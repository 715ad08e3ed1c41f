import DotCascade.Grammar.Meaning
import DotCascade.Proofs.Reading.Lookahead
import Mathlib.Data.List.Basic

/-!
# Words that can be exchanged in a derivation

Some words of a derivation can be replaced without changing what it means: a bare
word or a number by a string with the same text, and a separator that ends a
statement, a declaration or a pair by nothing.

In both cases the word ends a production of some kind, and this production can be
replaced as a whole.  `Tree.marks` tells for every word of a derivation whether it
ends such a production, and a marked word can be exchanged wherever it stands
(`Tree.means_of_marked`).
-/

namespace DotCascade
namespace Grammar

section Meanings

/-- Some words can be derived with the meaning of a tree. -/
def Tree.Means {symbol : Symbol} (tree : Tree symbol) (words : List Word) : Prop :=
  ∃ other : Tree symbol, other.yield = words ∧ other.meaning = tree.meaning

/-- Some words can be derived in a row with the meanings of a forest. -/
def Forest.Means {symbols : List Symbol} (forest : Forest symbols) (words : List Word) : Prop :=
  ∃ other : Forest symbols, other.yield = words ∧
    ∀ {α : Type} (action : Action α symbols), other.feed action = forest.feed action

variable {symbol : Symbol} {symbols : List Symbol} {words : List Word}

theorem Forest.Means.node
    {result : Phrase} {children : Forest symbols} (h : children.Means words)
    (production : Production result symbols) :
    (Tree.node production children).Means words := by
  obtain ⟨other, hyield, hfeed⟩ := h
  refine ⟨.node production other, hyield, ?_⟩
  rw [Tree.meaning, Tree.meaning]
  exact hfeed production.action

theorem Tree.Means.first
    {tree : Tree symbol} (h : tree.Means words) (later : Forest symbols) :
    (Forest.cons tree later).Means (words ++ later.yield) := by
  obtain ⟨other, hyield, hmeaning⟩ := h
  refine ⟨.cons other later, ?_, fun action => ?_⟩
  · rw [Forest.yield, hyield]
  · rw [feed_cons, feed_cons, hmeaning]

theorem Forest.Means.behind
    {later : Forest symbols} (h : later.Means words) (tree : Tree symbol) :
    (Forest.cons tree later).Means (tree.yield ++ words) := by
  obtain ⟨other, hyield, hfeed⟩ := h
  refine ⟨.cons tree other, ?_, fun action => ?_⟩
  · rw [Forest.yield, hyield]
  · rw [feed_cons, feed_cons, hfeed]

end Meanings

/-- A place in two lists put together lies in one of them. -/
theorem cut_cases
    {α : Type} {xs ys front back : List α} {a : α} (h : xs ++ ys = front ++ a :: back) :
    (∃ inner, front = xs ++ inner ∧ ys = inner ++ a :: back) ∨
      ∃ inner, xs = front ++ a :: inner ∧ back = inner ++ ys := by
  rcases List.append_eq_append_iff.1 h with ⟨inner, rfl, rfl⟩ | ⟨inner, rfl, hinner⟩
  · exact Or.inl ⟨inner, rfl, rfl⟩
  · cases inner with
    | nil =>
        exact Or.inl ⟨[], by simp, hinner.symm⟩
    | cons b inner =>
        obtain ⟨rfl, rfl⟩ := List.cons.inj hinner
        exact Or.inr ⟨inner, rfl, rfl⟩

section Marks

variable (kind : {result : Phrase} → {symbols : List Symbol} → Production result symbols → Bool)

mutual

/-- For every word of a tree, whether it is the last one of a production of some kind. -/
def Tree.marks : {symbol : Symbol} → Tree symbol → List Bool
  | _, .leaf _ _ => [false]
  | _, .node production children =>
      if kind production then children.marks.dropLast ++ [true] else children.marks

/-- For every word of a forest, whether it is the last one of a production of some kind. -/
def Forest.marks : {symbols : List Symbol} → Forest symbols → List Bool
  | _, .nil => []
  | _, .cons tree later => tree.marks ++ later.marks

end

mutual

theorem Tree.length_marks
    {symbol : Symbol} (tree : Tree symbol) :
    (tree.marks kind).length = tree.yield.length := by
  match tree with
  | .leaf terminal lexeme =>
      rw [Tree.marks, Tree.yield]
      rfl
  | .node production children =>
      have hlength := Forest.length_marks children
      obtain ⟨word, words, hyield, -⟩ :=
        Reading.Tree.exists_yield_eq_cons (.node production children)
      rw [Tree.yield] at hyield ⊢
      rw [Tree.marks]
      split
      · rw [List.length_append, List.length_dropLast, hlength, hyield]
        rfl
      · exact hlength

theorem Forest.length_marks
    {symbols : List Symbol} (forest : Forest symbols) :
    (forest.marks kind).length = forest.yield.length := by
  match forest with
  | .nil =>
      rw [Forest.marks, Forest.yield]
      rfl
  | .cons tree later =>
      rw [Forest.marks, Forest.yield, List.length_append, List.length_append,
        Tree.length_marks tree, Forest.length_marks later]

end

/-- Where a production of the kind ends with a word, others can stand for this word. -/
def Exchanges (word : Word) (words : List Word) : Prop :=
  ∀ {result : Phrase} {symbols : List Symbol} (production : Production result symbols)
    (children : Forest symbols) {front : List Word}, kind production = true →
    children.yield = front ++ [word] → (Tree.node production children).Means (front ++ words)

variable {kind} {word : Word} {words : List Word}

mutual

/-- A marked word can be exchanged in a derivation, wherever it stands. -/
theorem Tree.means_of_marked
    (hexchanges : Exchanges kind word words) {symbol : Symbol} (tree : Tree symbol)
    {front back : List Word} (hyield : tree.yield = front ++ word :: back)
    (hmark : (tree.marks kind)[front.length]? = some true) :
    tree.Means (front ++ (words ++ back)) := by
  match tree with
  | .leaf terminal lexeme =>
      rw [Tree.marks] at hmark
      cases front <;> cases hmark
  | .node production children =>
      rw [Tree.yield] at hyield
      rw [Tree.marks] at hmark
      split at hmark
      case isTrue hkind =>
        cases back with
        | nil =>
            rw [List.append_nil]
            exact hexchanges production children hkind hyield
        | cons next back =>
            -- Only the last word of the production is marked anew.
            have hlength := Forest.length_marks kind children
            have hinner : front.length < (children.marks kind).length - 1 := by
              rw [hlength, hyield]
              simp
            rw [List.getElem?_append_left (by rwa [List.length_dropLast]), List.getElem?_dropLast,
              if_pos hinner] at hmark
            exact (Forest.means_of_marked hexchanges children hyield hmark).node production
      case isFalse =>
        exact (Forest.means_of_marked hexchanges children hyield hmark).node production

theorem Forest.means_of_marked
    (hexchanges : Exchanges kind word words) {symbols : List Symbol} (forest : Forest symbols)
    {front back : List Word} (hyield : forest.yield = front ++ word :: back)
    (hmark : (forest.marks kind)[front.length]? = some true) :
    forest.Means (front ++ (words ++ back)) := by
  match forest with
  | .nil =>
      rw [Forest.marks] at hmark
      cases hmark
  | .cons tree later =>
      have hlength := Tree.length_marks kind tree
      rw [Forest.yield] at hyield
      rw [Forest.marks] at hmark
      rcases cut_cases hyield with ⟨inner, rfl, hlater⟩ | ⟨inner, htree, rfl⟩
      · rw [List.length_append, ← hlength, List.getElem?_append_right (Nat.le_add_right _ _),
          Nat.add_sub_cancel_left] at hmark
        rw [List.append_assoc]
        exact (Forest.means_of_marked hexchanges later hlater hmark).behind tree
      · have hinner : front.length < (tree.marks kind).length := by
          rw [hlength, htree]
          simp
        rw [List.getElem?_append_left hinner] at hmark
        have hmeans := (Tree.means_of_marked hexchanges tree htree hmark).first later
        simpa using hmeans

end

end Marks

section Separators

/-- The production ends with a word that only separates it from what comes behind. -/
def Production.isClosed :
    {result : Phrase} → {symbols : List Symbol} → Production result symbols → Bool
  | _, _, .closedEntry | _, _, .commaPair | _, _, .semicolonPair | _, _, .closedDeclaration => true
  | _, _, _ => false

/-- For every word of a tree, whether it only separates what stands before and behind it. -/
def Tree.separators {symbol : Symbol} (tree : Tree symbol) : List Bool :=
  tree.marks Production.isClosed

theorem means_of_closed
    {result : Phrase} {symbol : Symbol} {terminal : Terminal}
    {closed : Production result [symbol, .word terminal]} (opened : Production result [symbol])
    (hmeaning : ∀ value mark, closed.action value mark = opened.action value)
    {children : Forest [symbol, .word terminal]} {front : List Word} {word : Word}
    (hyield : children.yield = front ++ [word]) :
    (Tree.node closed children).Means (front ++ []) := by
  match children with
  | .cons inner (.cons (.leaf _ mark) .nil) =>
      simp only [Forest.yield, Tree.yield, List.append_nil] at hyield
      obtain ⟨hinner, -⟩ := List.append_inj' hyield rfl
      refine ⟨.node opened (.cons inner .nil), ?_, ?_⟩
      · simp [Tree.yield, Forest.yield, hinner]
      · rw [meaning_one, meaning_two, hmeaning]

/-- A separator can be left out. -/
theorem exchanges_separator
    (word : Word) :
    Exchanges Production.isClosed word [] := by
  intro result symbols production children front hkind hyield
  cases production with
  | closedEntry =>
      exact means_of_closed .openEntry (fun _ _ => rfl) hyield
  | commaPair =>
      exact means_of_closed .openPair (fun _ _ => rfl) hyield
  | semicolonPair =>
      exact means_of_closed .openPair (fun _ _ => rfl) hyield
  | closedDeclaration =>
      match children with
      | .cons key (.cons sign (.cons value (.cons (.leaf _ mark) .nil))) =>
          simp only [Forest.yield, Tree.yield, List.append_nil, ← List.append_assoc] at hyield
          obtain ⟨hinner, -⟩ := List.append_inj' hyield rfl
          refine ⟨.node .openDeclaration (.cons key (.cons sign (.cons value .nil))), ?_, ?_⟩
          · simp [Tree.yield, Forest.yield, ← hinner]
          · rw [meaning_three, meaning_four]
            rfl
  | _ =>
      cases hkind

/-- A derivation means the same without one of its separators. -/
theorem Tree.means_of_separator
    {symbol : Symbol} (tree : Tree symbol) {front back : List Word} {word : Word}
    (hyield : tree.yield = front ++ word :: back)
    (hmark : tree.separators[front.length]? = some true) :
    tree.Means (front ++ back) :=
  tree.means_of_marked (exchanges_separator word) hyield hmark

end Separators

section Bare

/-- The production makes an atom of a bare word or a number. -/
def Production.isBare :
    {result : Phrase} → {symbols : List Symbol} → Production result symbols → Bool
  | _, _, .identifierAtom | _, _, .numberAtom => true
  | _, _, _ => false

/-- The text of a bare word or a number. -/
def Word.bareText? : Word → Option String
  | ⟨.identifier, text⟩ | ⟨.number, text⟩ => some text
  | _ => none

/-- A bare word or a number can be put between quotes. -/
theorem exchanges_bare
    {word : Word} {text : String} (h : word.bareText? = some text) :
    Exchanges Production.isBare word [⟨.string, text⟩] := by
  intro result symbols production children front hkind hyield
  cases production with
  | identifierAtom | numberAtom =>
      match children with
      | .cons (.leaf _ lexeme) .nil =>
          have hyield : [] ++ [⟨_, lexeme⟩] = front ++ [word] := hyield
          obtain ⟨hfront, hword⟩ := List.append_inj' hyield rfl
          obtain rfl := (List.cons.inj hword).1
          obtain rfl := Option.some.inj h
          subst hfront
          refine ⟨.node .quotedAtom (.cons (.node .firstString (.cons (.leaf .string lexeme) .nil))
            .nil), ?_, ?_⟩
          · simp [Tree.yield, Forest.yield]
          · rw [meaning_one, meaning_one, meaning_one]
            exact congrArg Atom.text
              ((meaning_leaf .string lexeme).trans (meaning_leaf _ lexeme).symm)
  | _ =>
      cases hkind

/-- Bare words and numbers stand in no other productions. -/
theorem isBare_of_mem
    {result : Phrase} {symbols : List Symbol} (production : Production result symbols)
    (h : .word .identifier ∈ symbols ∨ .word .number ∈ symbols) :
    production.isBare = true := by
  cases production with
  | identifierAtom | numberAtom =>
      rfl
  | _ =>
      simp at h

theorem bareText?_of_mem
    {result : Phrase} {symbols : List Symbol} {production : Production result symbols}
    (h : production.isBare = false) {terminal : Terminal} (hmem : .word terminal ∈ symbols)
    (lexeme : terminal.Lexeme) :
    Word.bareText? ⟨terminal, lexeme⟩ = none := by
  cases terminal with
  | identifier =>
      rw [isBare_of_mem production (Or.inl hmem)] at h
      cases h
  | number =>
      rw [isBare_of_mem production (Or.inr hmem)] at h
      cases h
  | _ =>
      rfl

mutual

/-- The words that make an atom by themselves are the bare words and the numbers. -/
theorem Tree.marks_isBare
    {result : Phrase} (tree : Tree (.phrase result)) :
    tree.marks Production.isBare = tree.yield.map fun word => word.bareText?.isSome := by
  match tree with
  | .node production children =>
      rw [Tree.marks, Tree.yield]
      split
      case isTrue hbare =>
        cases production with
        | identifierAtom | numberAtom =>
            match children with
            | .cons (.leaf _ lexeme) .nil =>
                rfl
        | _ =>
            cases hbare
      case isFalse hbare =>
        rw [Bool.not_eq_true] at hbare
        exact Forest.marks_isBare children fun _ hmem lexeme => bareText?_of_mem hbare hmem lexeme

theorem Forest.marks_isBare
    {symbols : List Symbol} (forest : Forest symbols)
    (hwords : ∀ terminal, .word terminal ∈ symbols → ∀ lexeme : terminal.Lexeme,
      Word.bareText? ⟨terminal, lexeme⟩ = none) :
    forest.marks Production.isBare = forest.yield.map fun word => word.bareText?.isSome := by
  match forest with
  | .nil =>
      rw [Forest.marks, Forest.yield]
      rfl
  | .cons tree later =>
      rw [Forest.marks, Forest.yield, List.map_append,
        Forest.marks_isBare later fun _ hmem => hwords _ (List.mem_cons_of_mem _ hmem)]
      congr 1
      match tree with
      | .leaf terminal lexeme =>
          rw [Tree.marks, Tree.yield, List.map_singleton, hwords _ List.mem_cons_self lexeme]
          rfl
      | .node production children =>
          exact Tree.marks_isBare (.node production children)

end

/-- A derivation means the same with one of its bare words or numbers between quotes. -/
theorem Tree.means_of_bare
    {result : Phrase} (tree : Tree (.phrase result)) {front back : List Word} {word : Word}
    (hyield : tree.yield = front ++ word :: back) {text : String}
    (h : word.bareText? = some text) :
    tree.Means (front ++ ⟨.string, text⟩ :: back) := by
  refine tree.means_of_marked (exchanges_bare h) hyield ?_
  rw [tree.marks_isBare, hyield]
  simp [h]

end Bare

end Grammar
end DotCascade
