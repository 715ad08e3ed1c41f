import DotCascade.Proofs.Reading.Renders

/-!
# What has been read can be completed

Every symbol derives some words that can be spelled (`exists_tree`): a kind of
word by a sample, and a phrase by a production whose symbols all do, which exists
for every phrase (`isProductive`).

So every item can be completed, and with it every item further down.  An item that
has moved on stood one symbol earlier in the state below; an item at its beginning
belongs to a corner of a phrase that another item waits for, and a tree of a corner
grows to a tree of the phrase (`extends_of_mem_corners`).  By induction on the frames,
what has been read is the beginning of the words of a whole (`exists_whole`).
-/

namespace DotCascade
namespace Reading

open Grammar

section Samples

/-- Words that some text spells, whatever comes behind it. -/
def Spelled (words : List Word) : Prop :=
  ∃ text, ∀ rest, Scans (text ++ rest) words rest

theorem spelled_nil :
    Spelled [] :=
  ⟨[], fun _ => .done rfl⟩

theorem Spelled.append
    {words later : List Word} (h : Spelled words) (hlater : Spelled later) :
    Spelled (words ++ later) := by
  obtain ⟨text, htext⟩ := h
  obtain ⟨behind, hbehind⟩ := hlater
  refine ⟨text ++ behind, fun rest => ?_⟩
  rw [List.append_assoc]
  exact (htext _).trans (hbehind rest)

/-- A piece that is a word of a given kind. -/
def samplePiece : Terminal → List Char
  | .identifier => ['a']
  | .markup => ['<', '>']
  | .number => ['0']
  | .className => ['.', 'a']
  | .string => ['"', '"']
  | .edgeOperator => ['-', '-']
  | terminal => (fixedSpelling terminal).toList

theorem spelling_samplePiece
    (terminal : Terminal) :
    Spelling terminal (samplePiece terminal) := by
  have hname : IsName ['a'] := isName_of_all (by decide) (by decide)
  cases terminal with
  | identifier =>
      exact ⟨hname, by decide⟩
  | markup =>
      exact ⟨[], rfl, .nil⟩
  | number =>
      exact Or.inl (Or.inl ⟨List.cons_ne_nil _ _, List.forall_mem_singleton.2 rfl⟩)
  | className =>
      exact ⟨['a'], rfl, hname⟩
  | string =>
      exact ⟨[], rfl, .nil⟩
  | edgeOperator =>
      exact Or.inr rfl
  | _ =>
      rfl

theorem exists_lexeme
    (terminal : Terminal) :
    ∃ value, lexeme terminal (samplePiece terminal) = .ok value := by
  cases terminal with
  | markup =>
      have hempty : Markup.ofWord ['<', '>'] = .ok [] := by
        simp [Markup.ofWord, Markup.readNodes]
      exact ⟨[], hempty⟩
  | _ =>
      exact ⟨_, rfl⟩

/-- Every kind of word has a word that is spelled. -/
theorem exists_word
    (terminal : Terminal) :
    ∃ tree : Tree (.word terminal), Spelled tree.yield := by
  obtain ⟨value, hvalue⟩ := exists_lexeme terminal
  obtain ⟨tree, -, hscans⟩ := renders_keyword terminal (spelling_samplePiece terminal) hvalue
  exact ⟨tree, _, hscans⟩

end Samples

section Phrases

/-- A phrase has a derivation of at most some depth. -/
def isProductive : Nat → Phrase → Bool
  | 0, _ => false
  | depth + 1, phrase =>
      phrase.alternatives.any fun alternative =>
        alternative.symbols.all fun symbol =>
          match symbol with
          | .word _ => true
          | .phrase part => isProductive depth part

theorem isProductive_all
    (phrase : Phrase) :
    isProductive 12 phrase = true := by
  cases phrase <;> decide

/-- Symbols that all derive words that are spelled derive them one behind the other. -/
theorem exists_forest_of_forall
    {symbols : List Symbol}
    (h : ∀ symbol ∈ symbols, ∃ tree : Tree symbol, Spelled tree.yield) :
    ∃ forest : Forest symbols, Spelled forest.yield := by
  induction symbols with
  | nil =>
      exact ⟨.nil, spelled_nil⟩
  | cons symbol symbols ih =>
      rw [List.forall_mem_cons] at h
      obtain ⟨tree, htree⟩ := h.1
      obtain ⟨forest, hforest⟩ := ih h.2
      exact ⟨.cons tree forest, htree.append hforest⟩

theorem exists_phrase
    {depth : Nat} {phrase : Phrase} (h : isProductive depth phrase = true) :
    ∃ tree : Tree (.phrase phrase), Spelled tree.yield := by
  induction depth generalizing phrase with
  | zero =>
      cases h
  | succ depth ih =>
      rw [isProductive, List.any_eq_true] at h
      obtain ⟨alternative, -, hsymbols⟩ := h
      rw [List.all_eq_true] at hsymbols
      have hparts : ∀ symbol ∈ alternative.symbols, ∃ tree : Tree symbol, Spelled tree.yield := by
        intro symbol hsymbol
        cases symbol with
        | word terminal =>
            exact exists_word terminal
        | phrase part =>
            exact ih (hsymbols _ hsymbol)
      obtain ⟨forest, hforest⟩ := exists_forest_of_forall hparts
      exact ⟨.node alternative.production forest, hforest⟩

/-- Every symbol derives words that are spelled. -/
theorem exists_tree
    (symbol : Symbol) :
    ∃ tree : Tree symbol, Spelled tree.yield := by
  cases symbol with
  | word terminal =>
      exact exists_word terminal
  | phrase phrase =>
      exact exists_phrase (isProductive_all phrase)

theorem exists_forest
    (symbols : List Symbol) :
    ∃ forest : Forest symbols, Spelled forest.yield :=
  exists_forest_of_forall fun symbol _ => exists_tree symbol

end Phrases

section Items

/-- An item that has moved on stood one symbol earlier before. -/
theorem rest_of_advance?
    {symbol : Symbol} {item moved : Item} (h : item.advance? symbol = some moved) :
    item.rest = symbol :: moved.rest := by
  unfold Item.advance? at h
  split at h
  case h_1 =>
    cases h
  case h_2 first rest hrest =>
    split at h
    case isFalse =>
      cases h
    case isTrue hsymbol =>
      obtain rfl := Option.some.inj h
      rw [hrest, hsymbol]

theorem rest_of_awaited?
    {item : Item} {phrase : Phrase} (h : item.awaited? = some phrase) :
    ∃ more, item.rest = .phrase phrase :: more := by
  unfold Item.awaited? at h
  split at h
  case h_1 first more hrest =>
    obtain rfl := Option.some.inj h
    exact ⟨more, hrest⟩
  case h_2 =>
    cases h

end Items

section Corners

/-- Every tree of one phrase is the beginning of a tree of another. -/
def Extends (phrase corner : Phrase) : Prop :=
  ∀ tree : Tree (.phrase corner), ∃ (whole : Tree (.phrase phrase)) (later : List Word),
    whole.yield = tree.yield ++ later ∧ Spelled later

theorem extends_self
    (phrase : Phrase) :
    Extends phrase phrase :=
  fun tree => ⟨tree, [], (List.append_nil _).symm, spelled_nil⟩

/-- The phrases with which a corner begins are corners as well. -/
theorem Extends.opener
    {phrase corner opener : Phrase} (h : Extends phrase corner)
    (hopener : opener ∈ openers corner) :
    Extends phrase opener := by
  intro tree
  obtain ⟨item, hitem, hawaited⟩ := List.mem_filterMap.1 hopener
  obtain ⟨alternative, -, rfl⟩ := List.mem_map.1 hitem
  obtain @⟨symbols, production⟩ := alternative
  obtain ⟨more, hmore⟩ : ∃ more, symbols = .phrase opener :: more := rest_of_awaited? hawaited
  subst hmore
  obtain ⟨sample, hsample⟩ := exists_forest more
  obtain ⟨whole, later, hwhole, hlater⟩ := h (.node production (.cons tree sample))
  refine ⟨whole, sample.yield ++ later, ?_, hsample.append hlater⟩
  rw [hwhole, Tree.yield, Forest.yield, List.append_assoc]

/-- What holds of some phrases and goes over to those with which they begin holds of all that are
found from them. -/
theorem mem_withOpeners
    {p : Phrase → Prop} (hopener : ∀ phrase, p phrase → ∀ opener ∈ openers phrase, p opener)
    {rounds : Nat} {phrases : List Phrase} (h : ∀ phrase ∈ phrases, p phrase) :
    ∀ phrase ∈ withOpeners rounds phrases, p phrase := by
  induction rounds generalizing phrases with
  | zero =>
      exact h
  | succ rounds ih =>
      rw [withOpeners]
      split
      case isTrue =>
        exact h
      case isFalse =>
        refine ih fun phrase hphrase => ?_
        rcases List.mem_append.1 hphrase with hphrase | hphrase
        · exact h phrase hphrase
        · rw [List.mem_eraseDups] at hphrase
          obtain ⟨origin, horigin, hmem⟩ := List.mem_flatMap.1 (List.mem_filter.1 hphrase).1
          exact hopener origin (h origin horigin) phrase hmem

/-- A tree of a corner is the beginning of a tree of the phrase. -/
theorem extends_of_mem_corners
    {phrase corner : Phrase} (h : corner ∈ corners phrase) :
    Extends phrase corner := by
  rw [corners] at h
  refine mem_withOpeners (fun _ hextends _ hopener => hextends.opener hopener) ?_ corner h
  intro origin horigin
  rw [List.mem_singleton.1 horigin]
  exact extends_self phrase

end Corners

section Frames

variable {goal : Phrase}

/-- Trees of what an item still waits for complete it, and with it all that stands below. -/
theorem exists_whole_of_item
    {frames : List Frame} (hframed : Framed goal frames) {item : Item}
    (hitem : item ∈ stateBehind goal frames) {rest : List Symbol} (hrest : item.rest = rest)
    (forest : Forest rest) :
    ∃ (whole : Tree (.phrase goal)) (later : List Word),
      whole.yield = framesYield frames ++ forest.yield ++ later ∧ Spelled later := by
  induction hframed generalizing item rest with
  | nil =>
      subst hrest
      obtain ⟨phrase, hphrase, corner, hcorner, alternative, -, rfl⟩ :=
        State.mem_beginning.1 hitem
      obtain rfl := List.mem_singleton.1 hphrase
      exact extends_of_mem_corners hcorner (.node alternative.production forest)
  | @push symbol frames tree hframed ih =>
      -- An item that has moved on waited for the symbol of the last tree in the state below.
      have hmoved : ∀ {moved : Item} {rest : List Symbol} (forest : Forest rest),
          moved ∈ (stateBehind goal frames).filterMap (Item.advance? symbol) →
          moved.rest = rest →
          ∃ (whole : Tree (.phrase goal)) (later : List Word),
            whole.yield = framesYield (push goal tree frames) ++ forest.yield ++ later ∧
              Spelled later := by
        rintro moved _ forest hmem rfl
        obtain ⟨origin, horigin, hadvance⟩ := List.mem_filterMap.1 hmem
        obtain ⟨whole, later, hwhole, hlater⟩ :=
          ih horigin (rest_of_advance? hadvance) (.cons tree forest)
        refine ⟨whole, later, ?_, hlater⟩
        rw [hwhole, framesYield_push, Forest.yield, List.append_assoc _ tree.yield]
      rcases List.mem_append.1 hitem with hitem | hitem
      · exact hmoved forest hitem hrest
      · subst hrest
        obtain ⟨phrase, hphrase, corner, hcorner, alternative, -, rfl⟩ :=
          State.mem_beginning.1 hitem
        obtain ⟨moved, hmem, hawaited⟩ := List.mem_filterMap.1 hphrase
        obtain ⟨more, hmore⟩ := rest_of_awaited? hawaited
        obtain ⟨grown, inner, hgrown, hinner⟩ :
            ∃ (grown : Tree (.phrase phrase)) (inner : List Word),
              grown.yield = forest.yield ++ inner ∧ Spelled inner :=
          extends_of_mem_corners hcorner (.node alternative.production forest)
        obtain ⟨sample, hsample⟩ := exists_forest more
        obtain ⟨whole, later, hwhole, hlater⟩ := hmoved (.cons grown sample) hmem hmore
        refine ⟨whole, inner ++ sample.yield ++ later, ?_, (hinner.append hsample).append hlater⟩
        rw [hwhole, Forest.yield, hgrown]
        simp only [List.append_assoc]

/-- A state behind a word that has been read has an item. -/
theorem exists_mem_of_readWord?
    {frames behind : List Frame} {word : Word} (hread : readWord? goal frames word = some behind) :
    ∃ item, item ∈ stateBehind goal behind := by
  simp only [readWord?] at hread
  split at hread
  case isFalse =>
    cases hread
  case isTrue htakes =>
    obtain rfl := Option.some.inj hread
    obtain ⟨item, hitem, hhead⟩ := State.takes_iff.1 htakes
    obtain ⟨rest, hrest⟩ := List.head?_eq_some_iff.1 hhead
    exact ⟨_, State.mem_advance hitem hrest⟩

theorem exists_mem_stateBehind
    {frames behind : List Frame} {words : List Word}
    (hstate : ∃ item, item ∈ stateBehind goal frames)
    (hread : readWords? goal frames words = some behind) :
    ∃ item, item ∈ stateBehind goal behind := by
  induction words generalizing frames with
  | nil =>
      obtain rfl := Option.some.inj hread
      exact hstate
  | cons word words ih =>
      obtain ⟨next, hword, hwords⟩ := Option.bind_eq_some_iff.1 hread
      exact ih (exists_mem_of_readWord? hword) hwords

/-- Words that have been read are the beginning of the words of a whole. -/
theorem exists_whole
    (hgoal : IsGoal goal) {words : List Word} {frames : List Frame}
    (hread : readWords? goal [] words = some frames) :
    ∃ (whole : Tree (.phrase goal)) (later : List Word),
      whole.yield = words ++ later ∧ Spelled later := by
  have hstart : ∃ item, item ∈ stateBehind goal [] :=
    List.exists_mem_of_ne_nil _ (by rcases hgoal with rfl | rfl <;> decide)
  obtain ⟨item, hitem⟩ := exists_mem_stateBehind hstart hread
  obtain ⟨forest, hforest⟩ := exists_forest item.rest
  obtain ⟨whole, later, hwhole, hlater⟩ :=
    exists_whole_of_item (framed_readWords? .nil hread) hitem rfl forest
  refine ⟨whole, forest.yield ++ later, ?_, hforest.append hlater⟩
  rw [hwhole, framesYield_readWords? hread, framesYield, List.nil_append, List.append_assoc]

end Frames

end Reading
end DotCascade
