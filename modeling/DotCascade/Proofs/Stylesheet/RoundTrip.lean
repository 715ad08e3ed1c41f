import DotCascade.Proofs.Graph.RoundTrip
import DotCascade.Proofs.Reading.Pieces
import DotCascade.Stylesheet.Cascade
import DotCascade.Stylesheet.Written

/-!
# Stylesheets are read as they were written

The written form of a stylesheet renders its rules that set something.  Keys and
values are atoms and render themselves.  The classes of a selector stand one
behind the other without a gap, so a class name ends where the dot of the next
one, or the space behind the last one, begins: such words are rendered as long as
no letter comes behind them (`RendersWord`).

Rules that set nothing are not written, and the cascade leaves them out as well.
So what is read back styles every graph in the same way.
-/

namespace DotCascade

open Grammar Reading

section Classes

/-- A text that spells a derivation with a given meaning, as long as no letter comes behind it. -/
def RendersWord (symbol : Symbol) (text : List Char) (value : symbol.Meaning) : Prop :=
  ∃ tree : Tree symbol, tree.meaning = value ∧
    ∀ rest, Unlettered rest → Scans (text ++ rest) tree.yield rest

variable {result : Phrase} {a b : Symbol} {x : a.Meaning} {y : b.Meaning} {s t : List Char}

theorem rendersWord_leaf
    (word : Word) {piece : List Char} (hspelling : Spelling word.terminal piece)
    (hfound : ∀ rest, Unlettered rest → piece? word.terminal (piece ++ rest) = some piece)
    (htells : lexeme word.terminal piece = .ok word.lexeme) :
    RendersWord (.word word.terminal) piece word.lexeme := by
  refine ⟨.leaf word.terminal word.lexeme, by rw [Tree.meaning], fun rest hrest => ?_⟩
  exact .word (stands_of_found hspelling (hfound rest hrest) (fun _ => hrest) htells) (.done rfl)

theorem rendersWord_one
    (production : Production result [a]) (ha : RendersWord a s x) :
    RendersWord (.phrase result) s (production.action x) := by
  obtain ⟨tree, rfl, hscans⟩ := ha
  refine ⟨.node production (.cons tree .nil), meaning_one production tree, fun rest hrest => ?_⟩
  simpa [Tree.yield, Forest.yield] using hscans rest hrest

/-- Two words in a row are rendered if no letter stands at the front of the second one. -/
theorem rendersWord_two
    (production : Production result [a, b]) (ha : RendersWord a s x) (hb : RendersWord b t y)
    (hfront : ∀ rest, Unlettered (t ++ rest)) :
    RendersWord (.phrase result) (s ++ t) (production.action x y) := by
  obtain ⟨first, rfl, hfirst⟩ := ha
  obtain ⟨second, rfl, hsecond⟩ := hb
  refine ⟨.node production (.cons first (.cons second .nil)), meaning_two production first second,
    fun rest hrest => ?_⟩
  rw [List.append_assoc]
  simpa [Tree.yield, Forest.yield] using
    (hfirst _ (hfront rest)).trans (hsecond rest hrest)

/-- A word and the space behind it are rendered whatever comes next. -/
theorem RendersWord.withSpace
    (h : RendersWord a s x) :
    Renders a (s ++ [' ']) x := by
  obtain ⟨tree, hvalue, hscans⟩ := h
  refine ⟨tree, hvalue, fun rest => ?_⟩
  have hspace := hscans (' ' :: rest) (unlettered_cons (by decide))
  rw [List.append_assoc, ← List.append_nil tree.yield]
  exact hspace.trans (.done (isGap_space rest))

theorem isName_iff_word?
    (text : List Char) :
    IsName text ↔ Text.word? text = some text := by
  refine ⟨fun h => ?_, isName_of_word?⟩
  simpa using word?_append h unlettered_nil

instance (text : List Char) : Decidable (IsName text) :=
  decidable_of_iff _ (isName_iff_word? text).symm

/-- A class name behind its dot. -/
def writtenClass (name : String) : List Char :=
  '.' :: name.toList

theorem rendersWord_class
    {name : String} (h : IsName name.toList) :
    RendersWord (.word .className) (writtenClass name) name := by
  have htells : lexeme .className (writtenClass name) = .ok name := by
    simp [lexeme, writtenClass]
  refine rendersWord_leaf ⟨.className, name⟩ ⟨_, rfl, h⟩ (fun rest hrest => ?_) htells
  simp [piece?, classPiece?, writtenClass, word?_append h hrest]

theorem unlettered_writtenClass
    (name : String) (rest : List Char) :
    Unlettered (writtenClass name ++ rest) :=
  unlettered_cons (by decide)

/-- Class names in a row are rendered behind those that are there already. -/
theorem rendersWord_laterClasses
    {text : List Char} {before : List String} (names : List String)
    (hnames : ∀ name ∈ names, IsName name.toList)
    (hbefore : RendersWord (.phrase .classes) text before) :
    RendersWord (.phrase .classes) (text ++ names.flatMap writtenClass) (before ++ names) := by
  induction names generalizing text before with
  | nil =>
      simpa using hbefore
  | cons name rest ih =>
      rw [List.forall_mem_cons] at hnames
      have hgrown := rendersWord_two .laterClass hbefore (rendersWord_class hnames.1)
        (unlettered_writtenClass name)
      simpa [Production.action] using ih hnames.2 hgrown

theorem rendersWord_entity
    (entity : Entity) :
    RendersWord (.phrase .entity) entity.word.toList entity := by
  cases entity with
  | node =>
      exact rendersWord_one .nodeEntity
        (rendersWord_leaf ⟨.node, ()⟩ rfl (fun rest _ => fixedPiece?_append _ rest) rfl)
  | edge =>
      exact rendersWord_one .edgeEntity
        (rendersWord_leaf ⟨.edge, ()⟩ rfl (fun rest _ => fixedPiece?_append _ rest) rfl)
  | graph =>
      exact rendersWord_one .graphEntity
        (rendersWord_leaf ⟨.graph, ()⟩ rfl (fun rest _ => fixedPiece?_append _ rest) rfl)

end Classes

section Sets

theorem insertName_of_lt
    {name : String} {names : List String} (h : ∀ other ∈ names, name < other) :
    insertName name names = name :: names := by
  cases names with
  | nil =>
      rfl
  | cons first rest =>
      exact if_pos (h first List.mem_cons_self)

/-- A set of classes is the one that its own names make. -/
theorem ofList_names
    (classes : ClassSet) :
    ClassSet.ofList classes.names = classes := by
  obtain ⟨names, hascending⟩ := classes
  have hnames : (ClassSet.ofList names).names = names := by
    induction names with
    | nil =>
        rfl
    | cons name rest ih =>
        rw [List.pairwise_cons] at hascending
        have hstep :
            (ClassSet.ofList (name :: rest)).names =
              insertName name (ClassSet.ofList rest).names := rfl
        rw [hstep, ih hascending.2, insertName_of_lt hascending.1]
  have hset : ClassSet.ofList names = ⟨(ClassSet.ofList names).names, _⟩ := rfl
  rw [hset]
  congr 1

end Sets

section Rules

variable (indent : Int)

/-- A selector and the space behind it are read as the selector. -/
theorem renders_selector
    {selector : Selector} (h : ∀ name ∈ selector.classes.names, IsName name.toList) :
    Renders (.phrase .selector) (selector.written ++ [' ']) [selector] := by
  obtain ⟨entity, classes⟩ := selector
  have hentity := rendersWord_entity entity
  have hset := ofList_names classes
  cases hnames : classes.names with
  | nil =>
      have hgeneral : Selector.general entity = ⟨entity, classes⟩ := by
        rw [Selector.general, ← hset, hnames]
        rfl
      have hword := (rendersWord_one .entitySelector hentity).withSpace
      simpa [Selector.written, hnames, Production.action, hgeneral] using hword
  | cons name rest =>
      simp only [hnames, List.forall_mem_cons] at h
      have hfirst := rendersWord_one .firstClass (rendersWord_class h.1)
      have hclasses := rendersWord_laterClasses rest h.2 hfirst
      have hfront (behind : List Char) :
          Unlettered (writtenClass name ++ rest.flatMap writtenClass ++ behind) :=
        unlettered_cons (by decide)
      have hword :=
        (rendersWord_two .entityClassSelector hentity hclasses hfront).withSpace
      have hwritten :
          Selector.written ⟨entity, classes⟩ =
            entity.word.toList ++ classes.names.flatMap writtenClass := rfl
      rw [hnames] at hset
      simpa [hwritten, hnames, Production.action, hset] using hword

/-- A declaration is read as its key and value. -/
theorem renders_declaration
    {pair : Attribute} (h : AllFaithful [pair.1, pair.2]) :
    Renders (.phrase .declaration) (writtenDeclaration indent pair) pair := by
  have hkey := (renders_atom (h pair.1 (by simp))).behindGap (isGap_replicate (1 * indent).toNat)
  have hmark : Renders (.word .colon) [':'] () := renders_mark .colon rfl rfl rfl
  have hcolon := hmark.withGap isGap_space
  have hvalue := renders_atom (h pair.2 (by simp))
  have hend : Renders (.word .semicolon) [';'] () := renders_mark .semicolon rfl rfl rfl
  have hsemicolon := hend.withGap isGap_newline
  have hrow :=
    rendersRow_cons hkey <| rendersRow_cons hcolon <| rendersRow_cons hvalue <|
      rendersRow_cons hsemicolon rendersRow_nil
  simpa [writtenDeclaration, padding, applyRow, Production.action] using
    renders_node .closedDeclaration hrow

theorem renders_laterDeclarations
    {text : List Char} {before : List Attribute} (later : List Attribute)
    (hbefore : Renders (.phrase .declarations) text before)
    (h : AllFaithful (later.flatMap fun pair => [pair.1, pair.2])) :
    Renders (.phrase .declarations)
      (text ++ later.flatMap (writtenDeclaration indent)) (before ++ later) := by
  induction later generalizing text before with
  | nil =>
      simpa using hbefore
  | cons pair later ih =>
      rw [List.flatMap_cons, allFaithful_append] at h
      have hgrown := renders_two .laterDeclaration hbefore (renders_declaration indent h.1)
      simpa [Production.action] using ih hgrown h.2

/-- A rule that sets something can be read again: its class names are names, and its keys and values
are faithful. -/
structure Rule.IsLegible (rule : Rule) : Prop where
  filled : rule.attributes.isEmpty = false
  names : ∀ name ∈ rule.selector.classes.names, IsName name.toList
  atoms : AllFaithful rule.attributes.atoms

/-- A rule that sets something is read as it was written. -/
theorem renders_rule
    {rule : Rule} (h : rule.IsLegible) :
    Renders (.phrase .rule) (rule.written indent) [rule] := by
  obtain ⟨selector, attributes⟩ := rule
  have hselectors := renders_one .firstSelector (renders_selector h.names)
  have hclosing : Renders (.word .rightBrace) ['}'] () := renders_mark .rightBrace rfl rfl rfl
  have hend := hclosing.withGap isGap_newline
  have hatoms := h.atoms
  have hvalue := ofList_entries attributes
  cases hentries : attributes.entries with
  | nil =>
      have hempty := h.filled
      simp [Attributes.isEmpty, hentries] at hempty
  | cons pair later =>
      simp only [Attributes.atoms, hentries, List.flatMap_cons, allFaithful_append] at hatoms
      have hfirst := renders_one .firstDeclaration (renders_declaration indent hatoms.1)
      have hdeclarations := renders_laterDeclarations indent later hfirst hatoms.2
      have hrow :=
        rendersRow_cons hselectors <| rendersRow_cons renders_opening <|
          rendersRow_cons hdeclarations <| rendersRow_cons hend rendersRow_nil
      rw [hentries] at hvalue
      simpa [Rule.written, hentries, applyRow, Production.action, rulesFor, hvalue] using
        renders_node .fullRule hrow

theorem renders_laterRules
    {text : List Char} {before : List Rule} (rules : List Rule)
    (hbefore : Renders (.phrase .rules) text before) (h : ∀ rule ∈ rules, rule.IsLegible) :
    Renders (.phrase .rules) (text ++ rules.flatMap (Rule.written indent)) (before ++ rules) := by
  induction rules generalizing text before with
  | nil =>
      simpa using hbefore
  | cons rule rest ih =>
      rw [List.forall_mem_cons] at h
      have hgrown := renders_two .laterRule hbefore (renders_rule indent h.1)
      simpa [Production.action] using ih hgrown h.2

end Rules

section Stylesheets

/-- A text that spells words does not consist of gaps. -/
theorem skipGap_ne_nil_of_scans
    {text rest : List Char} {words : List Word} (h : Scans text words rest) (hne : words ≠ []) :
    skipGap text ≠ [] := by
  induction h with
  | done _ =>
      exact absurd rfl hne
  | gap hgap _ ih =>
      rw [hgap]
      exact ih hne
  | word hstands _ _ =>
      rw [hstands.skipGap_eq]
      exact List.append_ne_nil_of_left_ne_nil (piece?_ne_nil hstands.found) _

/-- A text that renders rules is read as the stylesheet of these rules. -/
theorem parse_of_renders
    {text : List Char} {rules : List Rule} (h : Renders (.phrase .rules) text rules) :
    Stylesheet.parse (String.ofList text) = .ok ⟨rules⟩ := by
  obtain ⟨tree, hread, hmeaning⟩ := exists_read_of_renders (Or.inr rfl) h
  obtain ⟨other, -, hscans⟩ := h
  obtain ⟨word, words, hyield, -⟩ := Tree.exists_yield_eq_cons other
  have hscan := hscans []
  rw [List.append_nil] at hscan
  have hfilled : skipGap (String.ofList text).toList ≠ [] := by
    rw [String.toList_ofList]
    exact skipGap_ne_nil_of_scans hscan (by simp [hyield])
  rw [Stylesheet.parse_eq_ok_iff hfilled, String.toList_ofList]
  exact ⟨tree, hread, congrArg Stylesheet.mk hmeaning⟩

/-- The rules of a stylesheet that set something. -/
def Stylesheet.filledRules (stylesheet : Stylesheet) : List Rule :=
  stylesheet.rules.filter fun rule => !rule.attributes.isEmpty

theorem filledRules_filledRules
    (stylesheet : Stylesheet) :
    Stylesheet.filledRules ⟨stylesheet.filledRules⟩ = stylesheet.filledRules := by
  rw [Stylesheet.filledRules, Stylesheet.filledRules, List.filter_filter]
  simp

/-- Rules that set nothing make no difference to any graph. -/
theorem apply_filledRules
    (stylesheet : Stylesheet) (graph : Graph) :
    Stylesheet.apply ⟨stylesheet.filledRules⟩ graph = stylesheet.apply graph := by
  have hcascade : Stylesheet.cascade ⟨stylesheet.filledRules⟩ = stylesheet.cascade :=
    congrArg (List.mergeSort · _) (filledRules_filledRules stylesheet)
  simp only [Stylesheet.apply, Stylesheet.generalRules, Stylesheet.classRules, hcascade]

theorem parse_filledRules
    {stylesheet : Stylesheet} (indent : Int)
    (h : ∀ rule ∈ stylesheet.filledRules, rule.IsLegible) :
    Stylesheet.parse (stylesheet.toText indent) = .ok ⟨stylesheet.filledRules⟩ := by
  have hwritten :
      stylesheet.toText indent =
        String.ofList (stylesheet.filledRules.flatMap (Rule.written indent)) := rfl
  rw [hwritten]
  cases hrules : stylesheet.filledRules with
  | nil =>
      exact Stylesheet.parse_of_skipGap_eq_nil (by simp [skipGap])
  | cons rule rest =>
      rw [hrules, List.forall_mem_cons] at h
      have hfirst := renders_one .firstRule (renders_rule indent h.1)
      exact parse_of_renders (renders_laterRules indent rest hfirst h.2)

/-- A stylesheet is read back without the rules that set nothing and with all others in their order,
the keys of every rule in theirs; written again it is the same text, and it styles every graph in
the same way. -/
theorem parse_toText_stylesheet
    (stylesheet : Stylesheet)
    (hnames : ∀ rule ∈ stylesheet.rules, ∀ name ∈ rule.selector.classes.names,
      IsName name.toList)
    (hatoms : ∀ rule ∈ stylesheet.rules, ∀ atom ∈ rule.attributes.atoms,
      atom.isFaithful = true)
    (indent : Int) :
    ∃ again, Stylesheet.parse (stylesheet.toText indent) = .ok again ∧
      again.rules = (stylesheet.rules.filter fun rule => !rule.attributes.isEmpty) ∧
      again.toText indent = stylesheet.toText indent ∧
      ∀ graph, again.apply graph = stylesheet.apply graph := by
  have hlegible : ∀ rule ∈ stylesheet.filledRules, rule.IsLegible := by
    intro rule hrule
    obtain ⟨hmem, hfilled⟩ := List.mem_filter.1 hrule
    exact ⟨by simpa using hfilled, hnames rule hmem, hatoms rule hmem⟩
  refine ⟨⟨stylesheet.filledRules⟩, parse_filledRules indent hlegible, rfl, ?_, ?_⟩
  · exact congrArg (fun rules => String.ofList (rules.flatMap (Rule.written indent)))
      (filledRules_filledRules stylesheet)
  · exact apply_filledRules stylesheet

/-- Classes named like keywords, markup among the values, and a rule that sets nothing. -/
theorem parse_toText_stylesheet_keywords :
    let colors : Attributes := .ofList
      [(.text "color", .text "a\\\\b\""), (.markup [.element ⟨"b", by decide⟩ [] []], .text "")]
    let filled : Rule := ⟨⟨.edge, .ofList ["node", "é1", "_"]⟩, colors⟩
    let empty : Rule := ⟨⟨.graph, .ofList ["x"]⟩, Attributes.empty⟩
    let general : Rule := ⟨.general .graph, colors⟩
    Stylesheet.parse (Stylesheet.toText ⟨[filled, empty, general]⟩ 1) =
      .ok ⟨[filled, general]⟩ := by
  intro colors filled empty general
  have hnames : ∀ rule ∈ [filled, empty, general], ∀ name ∈ rule.selector.classes.names,
      IsName name.toList := by
    simp only [List.forall_mem_cons, filled, empty, general]
    decide
  have hatoms : ∀ rule ∈ [filled, empty, general], ∀ atom ∈ rule.attributes.atoms,
      atom.isFaithful = true := by
    simp only [List.forall_mem_cons, filled, empty, general]
    decide
  obtain ⟨⟨rules⟩, hparse, hrules, -⟩ :=
    parse_toText_stylesheet ⟨[filled, empty, general]⟩ hnames hatoms 1
  have hkept : rules = [filled, general] := hrules
  rw [hparse, hkept]

end Stylesheets

end DotCascade
