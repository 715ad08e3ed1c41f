import DotCascade.Proofs.Grammar.Rules
import DotCascade.Proofs.Reading.Segments
import DotCascade.Proofs.Stylesheet.RoundTrip

/-!
# Texts of rules

A rule of a stylesheet consists of selectors with commas between them and of
declarations between braces, with gaps between all words (`RuleText`).  The selectors
are given word by word, the declarations by any text between the braces.

Such a text is a rule of a source if its braces are those that are taken
(`RuleText.StandsIn`).  Every source that is read as a stylesheet is rules in a row
that stand in it in this sense (`exists_isRow`): a derivation is a row of rules, the
text of each is cut off word by word, and no closing brace is taken between the braces
of a rule, because there is no word for it (`mem_of_closing`).
-/

namespace DotCascade

open Grammar Reading

section Texts

/-- A text that may stand between two words. -/
structure Filler where
  text : List Char
  isFiller : IsFiller text

/-- A class in a selector, with what stands in front of it. -/
structure ClassText where
  gap : Filler
  name : String
  isName : IsName name.toList

def ClassText.written (text : ClassText) : List Char :=
  text.gap.text ++ writtenClass text.name

/-- A selector as it stands in a rule: perhaps a kind of element, and classes in a row. -/
structure SelectorText where
  gap : Filler
  entity? : Option Entity
  classes : List ClassText
  behind : Filler
  filled : entity? = none → classes ≠ []

namespace SelectorText

def written (text : SelectorText) : List Char :=
  text.gap.text ++ (text.entity?.elim [] fun entity => entity.word.toList) ++
    text.classes.flatMap ClassText.written ++ text.behind.text

/-- The names of the classes as they are written. -/
def names (text : SelectorText) : List String :=
  text.classes.map ClassText.name

/-- The kind of element is put in front of the classes. -/
def ofEntity (text : SelectorText) (entity : Entity) : SelectorText :=
  { text with entity? := some entity, filled := nofun }

/-- A selector with a kind of element is kept, another one is written once for each kind. -/
def expanded (text : SelectorText) : List SelectorText :=
  match text.entity? with
  | some _ => [text]
  | none => Entity.all.map text.ofEntity

/-- The selectors that a text stands for. -/
def selectors (text : SelectorText) : List Selector :=
  (text.entity?.elim Entity.all fun entity => [entity]).map fun entity =>
    ⟨entity, .ofList text.names⟩

/-- Two selectors name the same kind of element, or none, and the same classes, however often and
in whatever order. -/
structure SameClasses (text other : SelectorText) : Prop where
  entity : text.entity? = other.entity?
  classes : ∀ name, name ∈ text.names ↔ name ∈ other.names

end SelectorText

/-- A rule as it stands in a stylesheet: selectors with commas between them, and any text between
the braces. -/
structure RuleText where
  first : SelectorText
  later : List SelectorText
  declarations : List Char

namespace RuleText

/-- The selectors and the opening brace. -/
def opening (rule : RuleText) : List Char :=
  rule.first.written ++ (rule.later.flatMap fun text => ',' :: text.written) ++ ['{']

def written (rule : RuleText) : List Char :=
  rule.opening ++ rule.declarations ++ ['}']

/-- One rule for each selector that a rule names or leaves out, with the same declarations. -/
def expanded (rule : RuleText) : List RuleText :=
  (rule.first :: rule.later).flatMap fun text =>
    text.expanded.map fun single => ⟨single, [], rule.declarations⟩

/-- The selectors that the texts of a rule stand for. -/
def selectors (rule : RuleText) : List Selector :=
  (rule.first :: rule.later).flatMap SelectorText.selectors

/-- Two rules have the same declarations, and their selectors the same classes one by one. -/
structure SameClasses (rule other : RuleText) : Prop where
  selectors : List.Forall₂ SelectorText.SameClasses (rule.first :: rule.later)
    (other.first :: other.later)
  declarations : other.declarations = rule.declarations

/-- A text is a rule of a stylesheet: it stands at the beginning or behind a closing brace, and its
last brace is the first closing brace behind its selectors.  Braces in strings, markup and comments
do not count, as they are not taken. -/
structure StandsIn (rule : RuleText) (before behind : List Char) : Prop where
  begins : before = [] ∨ before.getLast? = some '}' ∧
    IsTakenAs .rightBrace .rules before.dropLast ['}'] (rule.written ++ behind)
  ends : IsTakenAs .rightBrace .rules (before ++ rule.opening ++ rule.declarations) ['}'] behind
  whole : ∀ n < rule.declarations.length, rule.declarations[n]? = some '}' →
    ¬ IsTakenAs .rightBrace .rules (before ++ rule.opening ++ rule.declarations.take n) ['}']
      (rule.declarations.drop (n + 1) ++ '}' :: behind)

instance decidableStandsIn
    (rule : RuleText) (before behind : List Char) :
    Decidable (rule.StandsIn before behind) :=
  decidable_of_iff
    ((before = [] ∨ before.getLast? = some '}' ∧
        IsTakenAs .rightBrace .rules before.dropLast ['}'] (rule.written ++ behind)) ∧
      IsTakenAs .rightBrace .rules (before ++ rule.opening ++ rule.declarations) ['}'] behind ∧
      ∀ n < rule.declarations.length, rule.declarations[n]? = some '}' →
        ¬ IsTakenAs .rightBrace .rules (before ++ rule.opening ++ rule.declarations.take n) ['}']
          (rule.declarations.drop (n + 1) ++ '}' :: behind))
    ⟨fun h => ⟨h.1, h.2.1, h.2.2⟩, fun h => ⟨h.begins, h.ends, h.whole⟩⟩

end RuleText

end Texts

section Fillers

variable {a b c : Symbol} {result : Phrase} {x : a.Meaning} {y : b.Meaning} {z : c.Meaning}
variable {s t u : List Char}

theorem Filler.unlettered
    (filler : Filler) {rest : List Char} (h : Unlettered rest) :
    Unlettered (filler.text ++ rest) := by
  intro d hd
  have hopens := filler.isFiller.opens
  cases htext : filler.text with
  | nil =>
      rw [htext] at hd
      exact h d hd
  | cons first later =>
      rw [htext] at hd hopens
      exact (detached_of_opensGap (hopens first rfl) (later ++ rest)).unlettered d hd

theorem RendersWord.behindFiller
    (h : RendersWord a s x) (filler : Filler) :
    RendersWord a (filler.text ++ s) x := by
  obtain ⟨tree, hvalue, hscans⟩ := h
  refine ⟨tree, hvalue, fun rest hrest => ?_⟩
  rw [List.append_assoc]
  exact .gap (filler.isFiller.isGap _) (hscans rest hrest)

theorem RendersWord.withFiller
    (h : RendersWord a s x) (filler : Filler) :
    RendersWord a (s ++ filler.text) x := by
  obtain ⟨tree, hvalue, hscans⟩ := h
  refine ⟨tree, hvalue, fun rest hrest => ?_⟩
  have hfiller := (hscans _ (filler.unlettered hrest)).trans (.done (filler.isFiller.isGap rest))
  rwa [List.append_nil, ← List.append_assoc] at hfiller

theorem rendersWord_three
    (production : Production result [a, b, c]) (ha : RendersWord a s x) (hb : Renders b t y)
    (hc : RendersWord c u z) (hfront : ∀ rest, Unlettered (t ++ rest)) :
    RendersWord (.phrase result) (s ++ (t ++ u)) (production.action x y z) := by
  obtain ⟨first, rfl, hfirst⟩ := ha
  obtain ⟨second, rfl, hsecond⟩ := hb
  obtain ⟨third, rfl, hthird⟩ := hc
  refine ⟨.node production (.cons first (.cons second (.cons third .nil))),
    meaning_three production first second third, fun rest hrest => ?_⟩
  rw [List.append_assoc, List.append_assoc]
  simpa [Tree.yield, Forest.yield] using
    (hfirst _ (hfront _)).trans ((hsecond _).trans (hthird rest hrest))

end Fillers

section Braces

theorem stands_closingWord
    (rest : List Char) :
    Stands closingWord ['}'] rest :=
  stands_of_spelling rfl (Or.inl rfl) rfl

theorem stands_openingWord
    (rest : List Char) :
    Stands openingWord ['{'] rest :=
  stands_of_spelling rfl (Or.inl rfl) rfl

theorem detached_closing
    (rest : List Char) :
    Detached ('}' :: rest) :=
  detached_cons (by decide) (by decide)

/-- A closing brace that is taken stands between the words in front of it and those behind it. -/
theorem exists_words_of_closing
    {tree : Tree (.phrase .rules)} {front back : List Char}
    (h : IsTakenAs .rightBrace .rules front ['}'] back)
    (hread : Reading.read .rules (front ++ ['}'] ++ back) = .ok tree) :
    ∃ words later, tree.yield = words ++ closingWord :: later ∧ Scans back later [] ∧
      ∀ rest, Scans (front ++ '}' :: rest) words ('}' :: rest) := by
  obtain ⟨words, ⟨terminal, lexeme⟩, later, hterminal, hoccurs⟩ :=
    exists_occurs_of_isTakenAs (Or.inr rfl) h (by decide) hread
  obtain rfl : terminal = .rightBrace := hterminal
  exact ⟨words, later, hoccurs.yield, hoccurs.scans,
    fun rest => hoccurs.scans_front hread (detached_closing rest)⟩

end Braces

section Selectors

theorem ClassText.unlettered
    (text : ClassText) (rest : List Char) :
    Unlettered (text.written ++ rest) := by
  rw [ClassText.written, List.append_assoc]
  exact text.gap.unlettered (unlettered_writtenClass text.name rest)

theorem ClassText.rendersWord
    (text : ClassText) :
    RendersWord (.word .className) text.written text.name :=
  (rendersWord_class text.isName).behindFiller text.gap

/-- Classes in a row are rendered behind those that are there already. -/
theorem rendersWord_laterClassTexts
    {text : List Char} {before : List String} (classes : List ClassText)
    (hbefore : RendersWord (.phrase .classes) text before) :
    RendersWord (.phrase .classes) (text ++ classes.flatMap ClassText.written)
      (before ++ classes.map ClassText.name) := by
  induction classes generalizing text before with
  | nil =>
      simpa using hbefore
  | cons first rest ih =>
      have hgrown := rendersWord_two .laterClass hbefore first.rendersWord first.unlettered
      simpa [Production.action] using ih hgrown

theorem rendersWord_classTexts
    (first : ClassText) (later : List ClassText) :
    RendersWord (.phrase .classes) ((first :: later).flatMap ClassText.written)
      ((first :: later).map ClassText.name) :=
  rendersWord_laterClassTexts later (rendersWord_one .firstClass first.rendersWord)

/-- A selector is rendered by each of its texts. -/
theorem SelectorText.rendersWord
    (text : SelectorText) :
    RendersWord (.phrase .selector) text.written text.selectors := by
  obtain ⟨gap, entity?, classes, behind, hfilled⟩ := text
  suffices hinner : RendersWord (.phrase .selector)
      ((entity?.elim [] fun entity => entity.word.toList) ++
        classes.flatMap ClassText.written)
      ((entity?.elim Entity.all fun entity => [entity]).map fun entity =>
        (⟨entity, .ofList (classes.map ClassText.name)⟩ : Selector)) by
    have htext := (hinner.behindFiller gap).withFiller behind
    rwa [← List.append_assoc] at htext
  cases entity? with
  | some entity =>
      cases classes with
      | nil =>
          rw [List.flatMap_nil, List.append_nil]
          exact rendersWord_one .entitySelector (rendersWord_entity entity)
      | cons first later =>
          refine rendersWord_two .entityClassSelector (rendersWord_entity entity)
            (rendersWord_classTexts first later) fun rest => ?_
          rw [List.flatMap_cons, List.append_assoc]
          exact first.unlettered _
  | none =>
      obtain ⟨first, later, rfl⟩ := List.exists_cons_of_ne_nil (hfilled rfl)
      exact rendersWord_one .classSelector (rendersWord_classTexts first later)

/-- Selectors in a row are rendered behind those that are there already. -/
theorem rendersWord_laterSelectors
    {text : List Char} {before : List Selector} (later : List SelectorText)
    (hbefore : RendersWord (.phrase .selectors) text before) :
    RendersWord (.phrase .selectors) (text ++ later.flatMap fun other => ',' :: other.written)
      (before ++ later.flatMap SelectorText.selectors) := by
  induction later generalizing text before with
  | nil =>
      simpa using hbefore
  | cons first rest ih =>
      have hcomma : Renders (.word .comma) [','] () := renders_mark .comma rfl rfl rfl
      have hgrown := rendersWord_three .laterSelector hbefore hcomma first.rendersWord
        fun _ => unlettered_cons (by decide)
      simpa [Production.action] using ih hgrown

theorem RuleText.rendersWord_selectors
    (rule : RuleText) :
    RendersWord (.phrase .selectors)
      (rule.first.written ++ rule.later.flatMap fun text => ',' :: text.written)
      rule.selectors :=
  rendersWord_laterSelectors rule.later (rendersWord_one .firstSelector rule.first.rendersWord)

/-- The selectors of a rule and its opening brace are read whatever comes behind them. -/
theorem RuleText.exists_selectors
    (rule : RuleText) :
    ∃ tree, selectorsMeaning tree = rule.selectors ∧
      ∀ rest, Scans (rule.opening ++ rest) (tree.yield ++ [openingWord]) rest := by
  obtain ⟨tree, hmeaning, hscans⟩ := rule.rendersWord_selectors
  refine ⟨tree, hmeaning, fun rest => ?_⟩
  have hselectors := hscans ('{' :: rest) (unlettered_cons (by decide))
  have hopening := hselectors.trans (.word (stands_openingWord rest) (.done rfl))
  rwa [RuleText.opening, List.append_assoc]

end Selectors

section Cuts

variable {text rest : List Char} {words : List Word}

/-- The first word of a text stands behind a filler. -/
theorem exists_filler_of_scans
    {word : Word} (h : Scans text (word :: words) rest) :
    ∃ (filler : Filler) (piece behind : List Char), text = filler.text ++ (piece ++ behind) ∧
      Stands word piece behind ∧ Scans behind words rest := by
  obtain ⟨_, _, piece, behind, heq, htext, hstands, hlater⟩ :=
    h.cases_words.resolve_left (by simp)
  obtain ⟨rfl, rfl⟩ := List.cons.inj heq
  have hfilled : skipGap text ≠ [] := by
    rw [htext]
    exact List.append_ne_nil_of_left_ne_nil (piece?_ne_nil hstands.found) behind
  obtain ⟨filler, hcut, hfiller⟩ := exists_filler hfilled
  rw [htext] at hcut
  exact ⟨⟨filler, hfiller⟩, piece, behind, hcut, hstands, hlater⟩

/-- The word for a class. -/
def classWord (name : String) : Word :=
  ⟨.className, name⟩

/-- The word for a kind of element. -/
def entityWord : Entity → Word
  | .node => ⟨.node, ()⟩
  | .edge => ⟨.edge, ()⟩
  | .graph => ⟨.graph, ()⟩

theorem eq_of_stands_classWord
    {name : String} {piece behind : List Char} (h : Stands (classWord name) piece behind) :
    piece = writtenClass name ∧ IsName name.toList := by
  obtain ⟨letters, rfl, hname⟩ := spelling_of_piece? h.found
  have htells : lexeme .className (writtenClass (String.ofList letters)) =
      .ok (String.ofList letters) := by
    simp [lexeme, writtenClass]
  have hletters : writtenClass (String.ofList letters) = '.' :: letters := by
    simp [writtenClass]
  rw [hletters] at htells
  obtain rfl : String.ofList letters = name := Except.ok.inj (htells.symm.trans h.tells)
  exact ⟨hletters.symm, by rwa [String.toList_ofList]⟩

theorem eq_of_stands_entityWord
    {entity : Entity} {piece behind : List Char} (h : Stands (entityWord entity) piece behind) :
    piece = entity.word.toList := by
  cases entity with
  | node | edge | graph =>
      exact (fixedPiece?_eq_some_iff.1 h.found).1

/-- Classes in a row in front of another word are the text of some classes. -/
theorem exists_classTexts
    {mark : Word} (names : List String)
    (h : Scans text (names.map classWord ++ mark :: words) rest) :
    ∃ (classes : List ClassText) (filler : Filler) (piece behind : List Char),
      text = classes.flatMap ClassText.written ++ (filler.text ++ (piece ++ behind)) ∧
        classes.length = names.length ∧ Scans text (names.map classWord) (piece ++ behind) ∧
        Stands mark piece behind ∧ Scans behind words rest := by
  induction names generalizing text with
  | nil =>
      obtain ⟨filler, piece, behind, rfl, hmark, hlater⟩ := exists_filler_of_scans h
      exact ⟨[], filler, piece, behind, rfl, rfl, .done (filler.isFiller.isGap _), hmark, hlater⟩
  | cons name names ih =>
      obtain ⟨gap, piece, _, rfl, hstands, hbehind⟩ := exists_filler_of_scans h
      obtain ⟨classes, filler, piece', behind, rfl, hlength, hclasses, hmark, hlater⟩ := ih hbehind
      obtain ⟨rfl, hname⟩ := eq_of_stands_classWord hstands
      refine ⟨⟨gap, name, hname⟩ :: classes, filler, piece', behind, ?_, ?_,
        .gap (gap.isFiller.isGap _) (.word hstands hclasses), hmark, hlater⟩
      · simp [ClassText.written]
      · simp [hlength]

end Cuts

section Derivations

/-- Classes in a row are a class, perhaps behind others. -/
theorem cases_classes
    (tree : Tree (.phrase .classes)) :
    (∃ name, tree.yield = [classWord name]) ∨
      ∃ (before : Tree (.phrase .classes)) (name : String),
        sizeOf before < sizeOf tree ∧ tree.yield = before.yield ++ [classWord name] := by
  cases tree with
  | node production children =>
      cases production with
      | firstClass =>
          match children with
          | .cons (.leaf _ name) .nil =>
              exact Or.inl ⟨name, rfl⟩
      | laterClass =>
          match children with
          | .cons before (.cons (.leaf _ name) .nil) =>
              refine Or.inr ⟨before, name, ?_, rfl⟩
              simp
              omega

/-- The words of classes in a row. -/
theorem exists_names_of_classes
    (tree : Tree (.phrase .classes)) :
    ∃ names, names ≠ [] ∧ tree.yield = names.map classWord := by
  induction hsize : sizeOf tree using Nat.strongRecOn generalizing tree with
  | ind n ih =>
      rcases cases_classes tree with ⟨name, hyield⟩ | ⟨before, name, hsmaller, hyield⟩
      · exact ⟨[name], List.cons_ne_nil _ _, hyield⟩
      · obtain ⟨names, -, hnames⟩ := ih _ (hsize ▸ hsmaller) before rfl
        refine ⟨names ++ [name], by simp, ?_⟩
        rw [hyield, hnames, List.map_append, List.map_singleton]

theorem exists_entity
    (tree : Tree (.phrase .entity)) :
    ∃ entity, tree.yield = [entityWord entity] := by
  cases tree with
  | node production children =>
      cases production with
      | nodeEntity =>
          match children with
          | .cons (.leaf _ _) .nil =>
              exact ⟨.node, rfl⟩
      | edgeEntity =>
          match children with
          | .cons (.leaf _ _) .nil =>
              exact ⟨.edge, rfl⟩
      | graphEntity =>
          match children with
          | .cons (.leaf _ _) .nil =>
              exact ⟨.graph, rfl⟩

/-- A selector is a kind of element, classes, or both. -/
theorem exists_words_of_selector
    (tree : Tree (.phrase .selector)) :
    ∃ (entity? : Option Entity) (names : List String), (entity? = none → names ≠ []) ∧
      tree.yield = (entity?.elim [] fun entity => [entityWord entity]) ++ names.map classWord := by
  cases tree with
  | node production children =>
      cases production with
      | entitySelector =>
          match children with
          | .cons entity .nil =>
              obtain ⟨kind, hkind⟩ := exists_entity entity
              exact ⟨some kind, [], nofun, by simp [Tree.yield, Forest.yield, hkind]⟩
      | entityClassSelector =>
          match children with
          | .cons entity (.cons classes .nil) =>
              obtain ⟨kind, hkind⟩ := exists_entity entity
              obtain ⟨names, -, hnames⟩ := exists_names_of_classes classes
              exact ⟨some kind, names, nofun, by simp [Tree.yield, Forest.yield, hkind, hnames]⟩
      | classSelector =>
          match children with
          | .cons classes .nil =>
              obtain ⟨names, hne, hnames⟩ := exists_names_of_classes classes
              exact ⟨none, names, fun _ => hne, by simp [Tree.yield, Forest.yield, hnames]⟩

/-- The word between two selectors. -/
def commaWord : Word :=
  ⟨.comma, ()⟩

/-- Selectors in a row are a selector, perhaps behind others and a comma. -/
theorem cases_selectors
    (tree : Tree (.phrase .selectors)) :
    (∃ single : Tree (.phrase .selector), tree.yield = single.yield) ∨
      ∃ (before : Tree (.phrase .selectors)) (last : Tree (.phrase .selector)),
        sizeOf before < sizeOf tree ∧ tree.yield = before.yield ++ commaWord :: last.yield := by
  cases tree with
  | node production children =>
      cases production with
      | firstSelector =>
          match children with
          | .cons single .nil =>
              exact Or.inl ⟨single, List.append_nil _⟩
      | laterSelector =>
          match children with
          | .cons before (.cons (.leaf _ _) (.cons last .nil)) =>
              refine Or.inr ⟨before, last, ?_, ?_⟩
              · simp
                omega
              · exact congrArg (before.yield ++ commaWord :: ·) (List.append_nil last.yield)

end Derivations

section Sources

variable {text rest : List Char} {words : List Word}

/-- A text that spells a selector in front of another word is a selector up to that word. -/
theorem exists_selectorText
    {mark : Word} (tree : Tree (.phrase .selector))
    (h : Scans text (tree.yield ++ mark :: words) rest) :
    ∃ (selector : SelectorText) (piece behind : List Char),
      text = selector.written ++ (piece ++ behind) ∧ Scans text tree.yield (piece ++ behind) ∧
        Stands mark piece behind ∧ Scans behind words rest := by
  obtain ⟨entity?, names, hfilled, hyield⟩ := exists_words_of_selector tree
  rw [hyield, List.append_assoc] at h
  rw [hyield]
  have hclasses {classes : List ClassText} (hlength : classes.length = names.length)
      (hnone : entity? = none) : classes ≠ [] := by
    rintro rfl
    exact hfilled hnone (List.length_eq_zero_iff.1 hlength.symm)
  cases entity? with
  | none =>
      obtain ⟨classes, filler, piece, behind, rfl, hlength, hnames, hmark, hlater⟩ :=
        exists_classTexts names h
      refine ⟨⟨⟨[], .nil⟩, none, classes, filler, hclasses hlength⟩, piece, behind, ?_, hnames,
        hmark, hlater⟩
      simp [SelectorText.written]
  | some entity =>
      obtain ⟨gap, _, _, rfl, hentity, hbehind⟩ := exists_filler_of_scans h
      obtain ⟨classes, filler, piece, behind, rfl, hlength, hnames, hmark, hlater⟩ :=
        exists_classTexts names hbehind
      obtain rfl := eq_of_stands_entityWord hentity
      refine ⟨⟨gap, some entity, classes, filler, hclasses hlength⟩, piece, behind, ?_,
        .gap (gap.isFiller.isGap _) (.word hentity hnames), hmark, hlater⟩
      simp [SelectorText.written]

/-- A text that spells selectors in front of another word is selectors up to that word. -/
theorem exists_selectorTexts
    {mark : Word} (tree : Tree (.phrase .selectors))
    (h : Scans text (tree.yield ++ mark :: words) rest) :
    ∃ (first : SelectorText) (later : List SelectorText) (piece behind : List Char),
      text = first.written ++ (later.flatMap fun other => ',' :: other.written) ++
          (piece ++ behind) ∧
        Scans text tree.yield (piece ++ behind) ∧ Stands mark piece behind ∧
        Scans behind words rest := by
  induction hsize : sizeOf tree using Nat.strongRecOn generalizing tree mark words with
  | ind n ih =>
      rcases cases_selectors tree with ⟨single, hyield⟩ | ⟨before, last, hsmaller, hyield⟩
      · rw [hyield] at h ⊢
        obtain ⟨first, piece, behind, rfl, hfirst, hmark, hlater⟩ := exists_selectorText single h
        exact ⟨first, [], piece, behind, by simp, hfirst, hmark, hlater⟩
      · rw [hyield, List.append_assoc, List.cons_append] at h
        rw [hyield]
        obtain ⟨first, later, comma, _, rfl, hbefore, hcomma, hlast⟩ :=
          ih _ (hsize ▸ hsmaller) before h rfl
        obtain ⟨other, piece, behind, rfl, hother, hmark, hlater⟩ := exists_selectorText last hlast
        obtain rfl : comma = [','] := (fixedPiece?_eq_some_iff.1 hcomma.found).1
        refine ⟨first, later ++ [other], piece, behind, ?_, hbefore.trans (.word hcomma hother),
          hmark, hlater⟩
        simp

/-- A rule in front of some text spells words in front of its opening brace and words between its
braces. -/
structure RuleText.Spells (rule : RuleText) (opening words : List Word) (behind : List Char) :
    Prop where
  opening : Scans (rule.written ++ behind) opening ('{' :: (rule.declarations ++ '}' :: behind))
  words : Scans (rule.declarations ++ '}' :: behind) words ('}' :: behind)

/-- A text that spells a rule is a rule, perhaps with more behind it. -/
theorem exists_ruleText
    (selectors : Tree (.phrase .selectors)) (body : Option (Tree (.phrase .declarations)))
    (h : Scans text ((ruleTree selectors body).yield ++ words) rest) :
    ∃ (rule : RuleText) (behind : List Char), text = rule.written ++ behind ∧
      rule.Spells selectors.yield (declarationWords body) behind ∧ Scans behind words rest := by
  rw [yield_ruleTree, List.append_assoc, List.cons_append, List.append_assoc] at h
  obtain ⟨first, later, piece, _, rfl, hselectors, hopening, hbody⟩ :=
    exists_selectorTexts selectors h
  obtain ⟨declarations, piece', behind, rfl, hwords, hclosing, hlater⟩ := hbody.exists_cut
  obtain rfl : piece = ['{'] := (fixedPiece?_eq_some_iff.1 hopening.found).1
  obtain rfl : piece' = ['}'] := (fixedPiece?_eq_some_iff.1 hclosing.found).1
  let rule : RuleText := ⟨first, later, declarations⟩
  have htext : rule.written ++ behind = first.written ++
      (later.flatMap fun other => ',' :: other.written) ++
        (['{'] ++ (declarations ++ ['}'] ++ behind)) := by
    simp [rule, RuleText.written, RuleText.opening]
  refine ⟨rule, behind, htext.symm, ⟨?_, ?_⟩, hlater⟩
  · rw [htext]
    simpa using hselectors
  · simpa using hwords

theorem RuleText.Spells.scans
    {rule : RuleText} {opening words : List Word} {behind : List Char}
    (h : rule.Spells opening words behind) :
    Scans (rule.written ++ behind) (opening ++ openingWord :: (words ++ [closingWord])) behind := by
  have hclosing : Scans ('}' :: behind) [closingWord] behind :=
    .word (stands_closingWord behind) (.done rfl)
  exact h.opening.trans (.word (stands_openingWord _) (h.words.trans hclosing))

/-- A text that spells rules in a row is rules in a row, up to a gap at its end. -/
theorem exists_row
    (trees : List (Tree (.phrase .rule))) (h : Scans text (rowYield trees) []) :
    ∃ (rules : List RuleText) (gap : List Char), text = rules.flatMap RuleText.written ++ gap ∧
      skipGap gap = [] ∧
      ∀ before rule behind, rules = before ++ rule :: behind →
        ∃ front selectors body back, trees = front ++ ruleTree selectors body :: back ∧
          Scans text (rowYield front)
            (rule.written ++ (behind.flatMap RuleText.written ++ gap)) ∧
          rule.Spells selectors.yield (declarationWords body)
            (behind.flatMap RuleText.written ++ gap) := by
  induction trees generalizing text with
  | nil =>
      obtain ⟨-, hgap⟩ := h.cases_words.resolve_right (by simp [rowYield])
      refine ⟨[], text, rfl, by rw [hgap, skipGap], fun before rule behind hcut => ?_⟩
      simp at hcut
  | cons tree trees ih =>
      obtain ⟨selectors, body, rfl⟩ := exists_ruleTree tree
      rw [rowYield, List.flatMap_cons, ← rowYield] at h
      obtain ⟨first, text, rfl, hfirst, hlater⟩ := exists_ruleText selectors body h
      obtain ⟨rules, gap, rfl, hgap, hrules⟩ := ih hlater
      refine ⟨first :: rules, gap, by simp, hgap, fun before rule behind hcut => ?_⟩
      rcases List.cons_eq_append_iff.1 hcut with ⟨rfl, hrest⟩ | ⟨before, rfl, hrest⟩
      · obtain ⟨rfl, rfl⟩ := List.cons.inj hrest
        exact ⟨[], selectors, body, trees, rfl, .done rfl, hfirst⟩
      · obtain ⟨front, selectors', body', back, rfl, hfront, hrule⟩ := hrules _ _ _ hrest
        refine ⟨ruleTree selectors body :: front, selectors', body', back, rfl, ?_, hrule⟩
        rw [rowYield, List.flatMap_cons, yield_ruleTree]
        exact hfirst.scans.trans hfront

end Sources

section Rows

variable {text : List Char} {before behind : List Char} {rule : RuleText}

/-- A closing brace that is spelled between an opening brace and another closing one is spelled by
one of the words between those. -/
theorem mem_of_closing
    {inner outer : List Char} {front words later : List Word}
    (hfront : Scans text front ('{' :: inner)) (hwords : Scans inner words ('}' :: behind))
    (hclosing : Scans text later ('}' :: outer)) (hinner : outer.length < inner.length)
    (houter : behind.length < outer.length)
    (hstrict : ∀ word ∈ front ++ openingWord :: words, word.terminal ≠ .strict)
    (hstrict' : ∀ word ∈ later, word.terminal ≠ .strict) :
    closingWord ∈ words := by
  have hbrace (rest : List Char) : skipGap ('}' :: rest) = '}' :: rest :=
    (stands_closingWord rest).skipGap_eq
  have hopening : skipGap ('{' :: inner) = '{' :: inner := (stands_openingWord inner).skipGap_eq
  have hall := hfront.trans (.word (stands_openingWord inner) hwords)
  have hplain := List.forall_mem_append.1 hstrict
  rcases hclosing.linear hfront hstrict' hplain.1 with ⟨first, -, hfirst⟩ | ⟨first, -, rfl, -⟩
  · have hlength := hfirst.length_le
    rw [hopening, hbrace, List.length_cons, List.length_cons] at hlength
    omega
  rcases hclosing.linear hall hstrict' hstrict with ⟨last, heq, hlast⟩ | ⟨last, -, -, hlast⟩
  · rcases hlast.cases_words with ⟨-, hgap⟩ | ⟨word, last, piece, tail, rfl, htext, hstands, -⟩
    · rw [hbrace, hbrace] at hgap
      rw [(List.cons.inj hgap).2] at houter
      exact absurd houter (lt_irrefl _)
    · rw [List.append_assoc] at heq
      have hrest := List.append_cancel_left heq
      rw [hbrace] at htext
      have hword : word.terminal ≠ .strict := by
        refine hplain.2 word ?_
        rw [hrest]
        simp
      obtain ⟨rfl, -⟩ := (stands_closingWord outer).unique hstands htext (by decide) hword
      have hmem : closingWord ∈ openingWord :: words := by
        rw [hrest]
        simp
      exact (List.mem_cons.1 hmem).resolve_left nofun
  · have hlength := hlast.length_le
    rw [hbrace, hbrace, List.length_cons, List.length_cons] at hlength
    omega

/-- A rule of a source that is read, with its words between those of the rules around it. -/
structure RuleText.IsPart (rule : RuleText) (before behind : List Char)
    (tree : Tree (.phrase .rules)) (front opening words back : List Word) : Prop where
  read : Reading.read .rules (before ++ rule.written ++ behind) = .ok tree
  yield : tree.yield = front ++ (opening ++ openingWord :: (words ++ closingWord :: back))
  front : Scans (before ++ rule.written ++ behind) front (rule.written ++ behind)
  spells : rule.Spells opening words behind
  notMem : closingWord ∉ words

namespace RuleText.IsPart

variable {tree : Tree (.phrase .rules)} {front opening words back : List Word}

/-- The last brace of the rule is taken. -/
theorem ends
    (h : rule.IsPart before behind tree front opening words back) :
    IsTakenAs .rightBrace .rules (before ++ rule.opening ++ rule.declarations) ['}'] behind := by
  have hyield : tree.yield =
      (front ++ (opening ++ openingWord :: words)) ++ closingWord :: back := by
    rw [h.yield]
    simp only [List.append_assoc, List.cons_append]
  have hinner := h.front.trans
    (h.spells.opening.trans (.word (stands_openingWord _) h.spells.words))
  refine isTakenAs_of_scans (Or.inr rfl) hyield ?_ (stands_closingWord behind)
  simpa [RuleText.written] using hinner

/-- No brace between those of the rule is taken as a closing one. -/
theorem whole
    (h : rule.IsPart before behind tree front opening words back)
    {inner outer : List Char} (hcut : rule.declarations = inner ++ '}' :: outer) :
    ¬ IsTakenAs .rightBrace .rules (before ++ rule.opening ++ inner) ['}']
      (outer ++ '}' :: behind) := by
  intro htaken
  have htext : before ++ rule.opening ++ inner ++ ['}'] ++ (outer ++ '}' :: behind) =
      before ++ rule.written ++ behind := by
    simp [RuleText.written, hcut]
  obtain ⟨later, last, hyield, -, hscans⟩ :=
    exists_words_of_closing htaken (by rw [htext, h.read])
  have hlater : Scans (before ++ rule.written ++ behind) later
      ('}' :: (outer ++ '}' :: behind)) := by
    rw [← htext]
    simpa using hscans (outer ++ '}' :: behind)
  have hstrict := ne_strict_of_rules tree
  have hstrict' := hstrict
  rw [hyield, List.forall_mem_append] at hstrict'
  have hyield' : tree.yield =
      (front ++ opening ++ openingWord :: words) ++ closingWord :: back := by
    rw [h.yield]
    simp only [List.append_assoc, List.cons_append]
  rw [hyield', List.forall_mem_append] at hstrict
  refine h.notMem (mem_of_closing (h.front.trans h.spells.opening) h.spells.words hlater ?_ ?_
    hstrict.1 hstrict'.1)
  · simp [hcut]
    omega
  · simp
    omega

end RuleText.IsPart

/-- A source that is read as a stylesheet is rules in a row, up to a gap at its end. -/
theorem exists_parts
    {tree : Tree (.phrase .rules)} (h : Reading.read .rules text = .ok tree) :
    ∃ (rules : List RuleText) (gap : List Char), text = rules.flatMap RuleText.written ++ gap ∧
      skipGap gap = [] ∧
      ∀ before rule behind, rules = before ++ rule :: behind →
        ∃ front opening words back, rule.IsPart (before.flatMap RuleText.written)
          (behind.flatMap RuleText.written ++ gap) tree front opening words back := by
  obtain ⟨trees, hyield, -⟩ := exists_ruleTrees tree
  obtain ⟨_, hscans, hwords⟩ := scans_of_run (Or.inr rfl) .nil begun_rules (run_of_read h)
  obtain rfl := hyield.symm.trans hwords
  obtain ⟨rules, gap, rfl, hgap, hrules⟩ := exists_row trees hscans
  refine ⟨rules, gap, rfl, hgap, fun before rule behind hcut => ?_⟩
  have htext : rules.flatMap RuleText.written ++ gap = before.flatMap RuleText.written ++
      rule.written ++ (behind.flatMap RuleText.written ++ gap) := by
    simp [hcut]
  obtain ⟨front, selectors, body, back, rfl, hfront, hspells⟩ := hrules before rule behind hcut
  rw [htext] at h hfront
  refine ⟨rowYield front, selectors.yield, declarationWords body, rowYield back, h, ?_, hfront,
    hspells, (isInside_declarationWords body).notMem rfl⟩
  rw [hyield]
  simp [rowYield, yield_ruleTree]

/-- A text is rules in a row with a gap behind them, and each stands in the text as a rule. -/
structure IsRow (text : List Char) (rules : List RuleText) (gap : List Char) : Prop where
  cut : text = rules.flatMap RuleText.written ++ gap
  skipped : skipGap gap = []
  stands : ∀ before rule behind, rules = before ++ rule :: behind →
    rule.StandsIn (before.flatMap RuleText.written) (behind.flatMap RuleText.written ++ gap)

/-- Every source that is read as a stylesheet is rules in a row. -/
theorem exists_isRow
    {tree : Tree (.phrase .rules)} (h : Reading.read .rules text = .ok tree) :
    ∃ rules gap, IsRow text rules gap := by
  obtain ⟨rules, gap, hcut, hskipped, hparts⟩ := exists_parts h
  refine ⟨rules, gap, hcut, hskipped, fun before rule behind hrules => ?_⟩
  obtain ⟨_, _, _, _, hrule⟩ := hparts before rule behind hrules
  refine ⟨?_, hrule.ends, fun n hn hbrace => hrule.whole ?_⟩
  · -- The brace in front of a rule is the last one of the rule before.
    rcases List.eq_nil_or_concat' before with rfl | ⟨earlier, last, rfl⟩
    · exact Or.inl rfl
    · rw [List.append_assoc] at hrules
      obtain ⟨_, _, _, _, hlast⟩ := hparts earlier last (rule :: behind) hrules
      have hwritten : (earlier ++ [last]).flatMap RuleText.written =
          earlier.flatMap RuleText.written ++ last.opening ++ last.declarations ++ ['}'] := by
        simp [RuleText.written]
      rw [hwritten, List.dropLast_concat, List.getLast?_concat]
      exact Or.inr ⟨rfl, by simpa using hlast.ends⟩
  · rw [List.getElem?_eq_getElem hn, Option.some.injEq] at hbrace
    rw [← hbrace, ← List.drop_eq_getElem_cons hn, List.take_append_drop]

end Rows

end DotCascade
