import DotCascade.Proofs.Stylesheet.RuleTexts
import Mathlib.Data.List.Sort

/-!
# Lists of selectors

A rule with several selectors may be written as several rules with the same
declarations, one for each selector in order, where a selector without a kind of
element is written three times, once for each kind.  And the classes of a selector may
be repeated and stand in any order.  The same stylesheet is read
(`parse_selectorLists`).

The words of the declarations are found in the source, and they are read behind other
selectors as they were (`RuleText.StandsIn.exists_words`).
-/

namespace DotCascade

open Grammar Reading

section Meanings

theorem selectors_ofEntity
    (text : SelectorText) (entity : Entity) :
    (text.ofEntity entity).selectors = [⟨entity, .ofList text.names⟩] :=
  rfl

/-- The selectors that are written out stand for the same selectors. -/
theorem selectors_expanded
    (text : SelectorText) :
    text.expanded.flatMap SelectorText.selectors = text.selectors := by
  unfold SelectorText.expanded
  split
  case h_1 =>
    exact List.flatMap_singleton ..
  case h_2 hnone =>
    rw [SelectorText.selectors, hnone, List.flatMap_map]
    simp only [selectors_ofEntity]
    exact List.flatMap_pure_eq_map ..

theorem RuleText.selectors_single
    (text : SelectorText) (declarations : List Char) :
    RuleText.selectors ⟨text, [], declarations⟩ = text.selectors :=
  List.flatMap_singleton ..

theorem RuleText.selectors_expanded
    (rule : RuleText) :
    rule.expanded.flatMap RuleText.selectors = rule.selectors := by
  rw [RuleText.expanded, RuleText.selectors, List.flatMap_assoc]
  simp only [List.flatMap_map, RuleText.selectors_single, DotCascade.selectors_expanded]

theorem SelectorText.expanded_ne_nil
    (text : SelectorText) :
    text.expanded ≠ [] := by
  unfold SelectorText.expanded
  split
  case h_1 =>
    exact List.cons_ne_nil _ _
  case h_2 =>
    exact List.cons_ne_nil _ _

theorem RuleText.expanded_ne_nil
    (rule : RuleText) :
    rule.expanded ≠ [] := by
  rw [RuleText.expanded, List.flatMap_cons]
  exact List.append_ne_nil_of_left_ne_nil (by simp [rule.first.expanded_ne_nil]) _

/-- Sets of the same names are equal. -/
theorem ofList_congr
    {names names' : List String} (h : ∀ name, name ∈ names ↔ name ∈ names') :
    ClassSet.ofList names = ClassSet.ofList names' := by
  have hnames : (ClassSet.ofList names).names = (ClassSet.ofList names').names := by
    refine (ClassSet.ofList names).ascending.eq_of_mem_iff (ClassSet.ofList names').ascending ?_
    simpa using h
  generalize ClassSet.ofList names = set at hnames
  generalize ClassSet.ofList names' = set' at hnames
  obtain ⟨_, _⟩ := set
  obtain ⟨_, _⟩ := set'
  obtain rfl := hnames
  rfl

theorem SelectorText.SameClasses.selectors_eq
    {text other : SelectorText} (h : text.SameClasses other) :
    text.selectors = other.selectors := by
  rw [SelectorText.selectors, SelectorText.selectors, h.entity, ofList_congr h.classes]

theorem selectors_eq_of_forall₂
    {texts others : List SelectorText} (h : List.Forall₂ SelectorText.SameClasses texts others) :
    texts.flatMap SelectorText.selectors = others.flatMap SelectorText.selectors := by
  induction h with
  | nil =>
      rfl
  | cons hfirst _ ih =>
      rw [List.flatMap_cons, List.flatMap_cons, hfirst.selectors_eq, ih]

theorem RuleText.SameClasses.selectors_eq
    {rule other : RuleText} (h : rule.SameClasses other) :
    rule.selectors = other.selectors :=
  selectors_eq_of_forall₂ h.selectors

end Meanings

section Places

variable {before behind : List Char} {rule : RuleText} {tree : Tree (.phrase .rules)}

/-- In front of a rule stand the words of other rules. -/
theorem RuleText.StandsIn.exists_front
    (h : rule.StandsIn before behind)
    (hread : Reading.read .rules (before ++ rule.written ++ behind) = .ok tree) :
    ∃ front, IsFront front ∧ (∀ word ∈ front, word.terminal ≠ .strict) ∧
      ∀ rest, Scans (before ++ rest) front rest := by
  rcases h.begins with rfl | ⟨hlast, hclosing⟩
  · exact ⟨[], Or.inl rfl, fun _ hword => absurd hword List.not_mem_nil, fun _ => .done rfl⟩
  · obtain ⟨inner, rfl⟩ : ∃ inner, before = inner ++ ['}'] :=
      ⟨before.dropLast, (List.dropLast_append_getLast? _ hlast).symm⟩
    rw [List.dropLast_concat] at hclosing
    rw [List.append_assoc (inner ++ ['}'])] at hread
    obtain ⟨words, later, hyield, -, hscans⟩ := exists_words_of_closing hclosing hread
    refine ⟨words ++ [closingWord], Or.inr ⟨words, rfl⟩, fun word hword => ?_, fun rest => ?_⟩
    · refine ne_strict_of_rules tree word ?_
      rw [hyield, List.append_cons]
      exact List.mem_append_left later hword
    · rw [List.append_assoc]
      exact (hscans rest).trans (.word (stands_closingWord rest) (.done rfl))

/-- Nothing but a closing brace is spelled by one. -/
theorem eq_of_scans_closing
    {words : List Word} {rest : List Char} (h : Scans ['}'] words rest)
    (hstrict : ∀ word ∈ words, word.terminal ≠ .strict) :
    words = [] ∨ words = [closingWord] := by
  rcases h.cases_words with ⟨rfl, -⟩ | ⟨word, later, piece, tail, rfl, htext, hstands, hlater⟩
  · exact Or.inl rfl
  · have hskip : skipGap ['}'] = ['}'] := (stands_closingWord []).skipGap_eq
    rw [hskip] at htext
    rw [List.forall_mem_cons] at hstrict
    obtain ⟨rfl, rfl⟩ := (stands_closingWord []).unique hstands htext (by decide) hstrict.1
    rcases hlater.cases_words with ⟨rfl, -⟩ | ⟨_, _, piece', _, -, hnil, hstands', -⟩
    · exact Or.inr rfl
    · have hempty : skipGap [] = [] := by
        rw [skipGap]
      rw [hempty] at hnil
      exact absurd (List.append_eq_nil_iff.1 hnil.symm).1 (piece?_ne_nil hstands'.found)

/-- Behind an opening brace stand more words, up to the closing brace. -/
theorem exists_later_of_opening
    {before words : List Word} {text declarations : List Char}
    (hbefore : ∀ word ∈ before ++ [openingWord], word.terminal ≠ .strict)
    (hstrict : ∀ word ∈ words, word.terminal ≠ .strict)
    (hopening : ∀ rest, Scans (text ++ rest) (before ++ [openingWord]) rest)
    (hwords : ∀ rest, Scans (text ++ (declarations ++ '}' :: rest)) words ('}' :: rest)) :
    ∃ later, words = before ++ [openingWord] ++ later ∧
      ∀ rest, Scans (declarations ++ '}' :: rest) later ('}' :: rest) := by
  obtain ⟨later, rfl⟩ : ∃ later, words = before ++ [openingWord] ++ later := by
    rcases (hopening _).linear (hwords []) hbefore hstrict with
      ⟨later, heq, -⟩ | ⟨later, hne, heq, hscans⟩
    · exact ⟨later, heq⟩
    · -- Else the opening brace would be spelled by the closing one.
      rw [heq, List.forall_mem_append] at hbefore
      obtain rfl := (eq_of_scans_closing hscans hbefore.2).resolve_left hne
      obtain ⟨-, hlast⟩ := List.append_inj' heq rfl
      cases hlast
  refine ⟨later, rfl, fun rest => ?_⟩
  rcases (hopening _).linear (hwords rest) hbefore hstrict with
    ⟨later', heq, hscans⟩ | ⟨later', hne, heq, -⟩
  · rwa [List.append_cancel_left heq]
  · rw [List.append_assoc] at heq
    exact absurd (List.append_eq_nil_iff.1 (List.self_eq_append_right.1 heq)).2 hne

/-- The words of a rule between those of other rules, with texts that spell them wherever they
stand. -/
structure RuleText.Words (rule : RuleText) (before behind : List Char)
    (tree : Tree (.phrase .rules)) (selectors : Tree (.phrase .selectors))
    (front words back : List Word) : Prop where
  yield : tree.yield = front ++ (selectors.yield ++ openingWord :: words ++ closingWord :: back)
  isFront : IsFront front
  front : ∀ rest, Scans (before ++ rest) front rest
  declarations : ∀ rest, Scans (rule.declarations ++ '}' :: rest) words ('}' :: rest)
  back : Scans behind back []

/-- A rule of a stylesheet stands between the words of other rules. -/
theorem RuleText.StandsIn.exists_words
    (h : rule.StandsIn before behind)
    (hread : Reading.read .rules (before ++ rule.written ++ behind) = .ok tree)
    {selectors : Tree (.phrase .selectors)}
    (hopening : ∀ rest, Scans (rule.opening ++ rest) (selectors.yield ++ [openingWord]) rest) :
    ∃ front words back, rule.Words before behind tree selectors front words back := by
  obtain ⟨front, hfront, hstrict, hscans⟩ := h.exists_front hread
  have hclosing : Reading.read .rules
      (before ++ rule.opening ++ rule.declarations ++ ['}'] ++ behind) = .ok tree := by
    rw [← hread, RuleText.written]
    simp only [List.append_assoc]
  obtain ⟨words, back, hyield, hback, hwords⟩ := exists_words_of_closing h.ends hclosing
  have hplain := ne_strict_of_rules tree
  rw [hyield, List.forall_mem_append] at hplain
  have hbefore : ∀ word ∈ front ++ selectors.yield ++ [openingWord], word.terminal ≠ .strict := by
    rw [List.forall_mem_append, List.forall_mem_append]
    exact ⟨⟨hstrict, (selectors.isInside rfl).ne_strict⟩, by simp [openingWord]⟩
  have htext (rest : List Char) :
      Scans (before ++ rule.opening ++ rest) (front ++ selectors.yield ++ [openingWord]) rest := by
    rw [List.append_assoc, List.append_assoc]
    exact (hscans _).trans (hopening rest)
  have hrest (rest : List Char) :
      Scans (before ++ rule.opening ++ (rule.declarations ++ '}' :: rest)) words
        ('}' :: rest) := by
    rw [← List.append_assoc]
    exact hwords rest
  obtain ⟨later, rfl, hlater⟩ := exists_later_of_opening hbefore hplain.1 htext hrest
  refine ⟨front, later, back, ?_, hfront, hscans, hlater, hback⟩
  rw [hyield]
  simp only [List.append_assoc, List.cons_append, List.nil_append]

/-- A closing brace stands within a text if all of another one behind the text is left behind it. -/
theorem exists_tail_of_closing
    {declarations text later behind : List Char}
    (htext : declarations ++ '}' :: behind = text ++ ['}'] ++ later)
    (hlength : (skipGap ('}' :: behind)).length ≤ (skipGap later).length) :
    ∃ tail, declarations = text ++ '}' :: tail ∧ later = tail ++ '}' :: behind := by
  have hclosing : skipGap ('}' :: behind) = '}' :: behind := (stands_closingWord behind).skipGap_eq
  have hskip := length_skipGap_le later
  rcases List.append_eq_append_iff.1 htext with ⟨inner, hinner, hlater⟩ | ⟨tail, rfl, rfl⟩
  · obtain rfl : inner = [] := by
      have hall := congrArg List.length hlater
      rw [List.length_append] at hall
      rw [hclosing] at hlength
      exact List.length_eq_zero_iff.1 (by omega)
    exact ⟨[], by simpa using hinner.symm, hlater.symm⟩
  · exact ⟨tail, by simp, rfl⟩

/-- No closing brace is among the words of the declarations. -/
theorem RuleText.StandsIn.notMem_words
    (h : rule.StandsIn before behind) {selectors : Tree (.phrase .selectors)}
    {front words back : List Word}
    (hopening : ∀ rest, Scans (rule.opening ++ rest) (selectors.yield ++ [openingWord]) rest)
    (hwords : rule.Words before behind tree selectors front words back) :
    closingWord ∉ words := by
  intro hmem
  obtain ⟨inner, outer, rfl⟩ := List.append_of_mem hmem
  obtain ⟨text, piece, later, htext, hinner, hstands, houter⟩ :=
    (hwords.declarations behind).exists_cut
  obtain rfl : piece = ['}'] := (fixedPiece?_eq_some_iff.1 hstands.found).1
  obtain ⟨tail, hdeclarations, rfl⟩ := exists_tail_of_closing htext houter.length_le
  refine h.whole text.length ?_ ?_ ?_
  · simp [hdeclarations]
  · simp [hdeclarations]
  · have hyield : tree.yield =
        (front ++ (selectors.yield ++ [openingWord]) ++ inner) ++
          closingWord :: (outer ++ closingWord :: back) := by
      rw [hwords.yield]
      simp only [List.append_assoc, List.cons_append, List.nil_append]
    have hfront := ((hwords.front _).trans (hopening _)).trans hinner
    rw [htext] at hfront
    have htaken : IsTakenAs .rightBrace .rules (before ++ rule.opening ++ text) ['}']
        (tail ++ '}' :: behind) :=
      isTakenAs_of_scans (Or.inr rfl) hyield (by simpa only [List.append_assoc] using hfront)
        hstands
    simpa [hdeclarations] using htaken

end Places

section Exchange

variable {before behind : List Char} {rule : RuleText} {tree : Tree (.phrase .rules)}

/-- Rules in a row with the same declarations are read as rules for their selectors, wherever they
stand. -/
theorem exists_selectors_of_rules
    {body : Option (Tree (.phrase .declarations))} {declarations : List Char}
    (hbody : ∀ rest, Scans (declarations ++ '}' :: rest) (declarationWords body) ('}' :: rest))
    (rules : List RuleText) (hrules : ∀ rule ∈ rules, rule.declarations = declarations) :
    ∃ selectors : List (Tree (.phrase .selectors)), selectors.length = rules.length ∧
      selectors.flatMap selectorsMeaning = rules.flatMap RuleText.selectors ∧
      ∀ rest, Scans (rules.flatMap RuleText.written ++ rest)
        (rowYield (selectors.map (ruleTree · body))) rest := by
  induction rules with
  | nil =>
      exact ⟨[], rfl, rfl, fun _ => .done rfl⟩
  | cons first later ih =>
      rw [List.forall_mem_cons] at hrules
      obtain ⟨selectors, hlength, hmeaning, hlater⟩ := ih hrules.2
      obtain ⟨tree, hfirst, hopening⟩ := first.exists_selectors
      refine ⟨tree :: selectors, ?_, ?_, fun rest => ?_⟩
      · rw [List.length_cons, hlength, List.length_cons]
      · rw [List.flatMap_cons, List.flatMap_cons, hfirst, hmeaning]
      · have hclosing := (hbody (later.flatMap RuleText.written ++ rest)).trans
          (.word (stands_closingWord _) (hlater rest))
        have hall := (hopening _).trans hclosing
        rw [← hrules.1] at hall
        simpa [RuleText.written, rowYield, yield_ruleTree] using hall

/-- Rules with the same declarations are read in the place of a rule, if their selectors in a row
are those of the rule. -/
theorem RuleText.StandsIn.exists_read
    (h : rule.StandsIn before behind)
    (hread : Reading.read .rules (before ++ rule.written ++ behind) = .ok tree)
    {others : List RuleText} (hne : others ≠ [])
    (hothers : ∀ other ∈ others, other.declarations = rule.declarations)
    (hselectors : others.flatMap RuleText.selectors = rule.selectors) :
    ∃ exchanged, exchanged.meaning = tree.meaning ∧
      Reading.read .rules (before ++ others.flatMap RuleText.written ++ behind) =
        .ok exchanged := by
  obtain ⟨selectors, hmeaning, hopening⟩ := rule.exists_selectors
  obtain ⟨front, words, back, hwords⟩ := h.exists_words hread hopening
  obtain ⟨body, rfl, hexchange⟩ := exists_exchanged_rule hwords.isFront
    (h.notMem_words hopening hwords) hwords.yield
  obtain ⟨trees, hlength, htrees, hscans⟩ :=
    exists_selectors_of_rules hwords.declarations others hothers
  have hfilled : trees ≠ [] := by
    rintro rfl
    exact hne (List.length_eq_zero_iff.1 hlength.symm)
  obtain ⟨exchanged, hyield, hsame⟩ :=
    hexchange trees hfilled (by rw [htrees, hselectors, hmeaning])
  have hall : Scans (before ++ others.flatMap RuleText.written ++ behind) exchanged.yield [] := by
    rw [hyield, List.append_assoc]
    exact (hwords.front _).trans ((hscans behind).trans hwords.back)
  exact ⟨exchanged, hsame, read_of_scans (Or.inr rfl) hall (by rw [skipGap])⟩

end Exchange

section Stylesheets

/-- The characters of a rule as a text. -/
def RuleText.text (rule : RuleText) : String :=
  String.ofList rule.written

/-- The rules for single selectors in a row. -/
def RuleText.expandedText (rule : RuleText) : String :=
  String.ofList (rule.expanded.flatMap RuleText.written)

theorem RuleText.StandsIn.parse
    {before behind : String} {rule : RuleText}
    (h : rule.StandsIn before.toList behind.toList) {stylesheet : Stylesheet}
    (hparse : Stylesheet.parse (before ++ rule.text ++ behind) = .ok stylesheet)
    {others : List RuleText} (hne : others ≠ [])
    (hothers : ∀ other ∈ others, other.declarations = rule.declarations)
    (hselectors : others.flatMap RuleText.selectors = rule.selectors) :
    Stylesheet.parse (before ++ String.ofList (others.flatMap RuleText.written) ++ behind) =
      .ok stylesheet := by
  have hsource : (before ++ rule.text ++ behind).toList =
      before.toList ++ rule.written ++ behind.toList := by
    simp [RuleText.text]
  have hfilled : skipGap (before ++ rule.text ++ behind).toList ≠ [] := by
    have hclosing := h.ends.isWordOf.skipGap_ne_nil
    rw [hsource, RuleText.written]
    simpa only [List.append_assoc] using hclosing
  obtain ⟨tree, hread, rfl⟩ := (Stylesheet.parse_eq_ok_iff hfilled).1 hparse
  rw [hsource] at hread
  obtain ⟨exchanged, hmeaning, hexchanged⟩ := h.exists_read hread hne hothers hselectors
  rw [← hmeaning]
  refine Stylesheet.parse_of_read ?_
  rw [← hexchanged]
  simp

theorem declarations_of_mem_expanded
    {rule other : RuleText} (h : other ∈ rule.expanded) :
    other.declarations = rule.declarations := by
  obtain ⟨text, -, hother⟩ := List.mem_flatMap.1 h
  obtain ⟨single, -, rfl⟩ := List.mem_map.1 hother
  rfl

/-- Another text for a rule: rules for single selectors in order, or a rule whose selectors have the
same classes. -/
inductive RuleText.Rewrites (rule : RuleText) : String → Prop
  | expanded : rule.Rewrites rule.expandedText
  | classes {other : RuleText} (h : rule.SameClasses other) : rule.Rewrites other.text

/-- Every source of a stylesheet is rules in a row. -/
theorem exists_isRow_of_parse
    {source : String} {stylesheet : Stylesheet} (h : Stylesheet.parse source = .ok stylesheet) :
    ∃ rules gap, IsRow source.toList rules gap := by
  by_cases hempty : skipGap source.toList = []
  · exact ⟨[], source.toList, rfl, hempty, by simp⟩
  · obtain ⟨_, hread, -⟩ := (Stylesheet.parse_eq_ok_iff hempty).1 h
    exact exists_isRow hread

/-- A source of a stylesheet is rules in a row, and each of them may be written as rules for single
selectors in order, one for a selector with a kind of element and three for another one, and its
classes may be repeated and stand in any order.  The same stylesheet is read, and hence every graph
is styled in the same way. -/
theorem parse_selectorLists
    (source : String) (stylesheet : Stylesheet)
    (hparse : Stylesheet.parse source = .ok stylesheet) :
    (∃ rules gap, IsRow source.toList rules gap) ∧
      ∀ (before behind : String) (rule : RuleText), source = before ++ rule.text ++ behind →
        rule.StandsIn before.toList behind.toList → ∀ text, rule.Rewrites text →
        ∃ again, Stylesheet.parse (before ++ text ++ behind) = .ok again ∧ again = stylesheet ∧
          ∀ graph, again.apply graph = stylesheet.apply graph := by
  refine ⟨exists_isRow_of_parse hparse, ?_⟩
  rintro before behind rule rfl hrule text htext
  cases htext with
  | expanded =>
      have hexpanded := hrule.parse hparse rule.expanded_ne_nil
        (fun _ => declarations_of_mem_expanded) rule.selectors_expanded
      exact ⟨stylesheet, hexpanded, rfl, fun _ => rfl⟩
  | @classes other hother =>
      have hothers : ∀ single ∈ [other], single.declarations = rule.declarations := by
        simpa using hother.declarations
      have hsingle := hrule.parse hparse (List.cons_ne_nil other []) hothers
        (by rw [List.flatMap_singleton, hother.selectors_eq])
      rw [List.flatMap_singleton] at hsingle
      exact ⟨stylesheet, hsingle, rfl, fun _ => rfl⟩

/-- Selectors of both kinds with gaps in them, between other rules; the declarations hold a closing
brace in a string and one in a comment. -/
theorem parse_selectorLists_mixed :
    ∃ stylesheet,
      Stylesheet.parse ("graph\x7b\x7d" ++
        " node.a.b,.c /**/.d\x7bx:\"\x7d\" //\x7d\n\x7d" ++ "edge\x7bx:y\x7d") =
          .ok stylesheet ∧
      Stylesheet.parse ("graph\x7b\x7d" ++
        (" node.a.b\x7bx:\"\x7d\" //\x7d\n\x7d" ++ "node.c /**/.d\x7bx:\"\x7d\" //\x7d\n\x7d" ++
          "edge.c /**/.d\x7bx:\"\x7d\" //\x7d\n\x7d" ++
          "graph.c /**/.d\x7bx:\"\x7d\" //\x7d\n\x7d") ++ "edge\x7bx:y\x7d") =
          .ok stylesheet ∧
      Stylesheet.parse ("graph\x7b\x7d" ++
        "node.b.a.b,.d.c.c\x7bx:\"\x7d\" //\x7d\n\x7d" ++ "edge\x7bx:y\x7d") =
          .ok stylesheet := by
  let no : Filler := ⟨[], .nil⟩
  let space : Filler := ⟨[' '], .blank (by decide) .nil⟩
  let comment : Filler :=
    ⟨" /**/".toList, .blank (by decide) (@IsFiller.comment [] [] (by decide) .nil)⟩
  let a : ClassText := ⟨no, "a", by decide⟩
  let b : ClassText := ⟨no, "b", by decide⟩
  let c : ClassText := ⟨no, "c", by decide⟩
  let d : ClassText := ⟨no, "d", by decide⟩
  let declarations := "x:\"\x7d\" //\x7d\n".toList
  let rule : RuleText :=
    ⟨⟨space, some .node, [a, b], no, by simp⟩,
      [⟨no, none, [c, { d with gap := comment }], no, by simp⟩], declarations⟩
  let other : RuleText :=
    ⟨⟨no, some .node, [b, a, b], no, by simp⟩, [⟨no, none, [d, c, c], no, by simp⟩], declarations⟩
  have hrule : rule.StandsIn "graph\x7b\x7d".toList "edge\x7bx:y\x7d".toList := by
    decide +kernel
  have hother : rule.SameClasses other := by
    refine ⟨.cons ⟨rfl, ?_⟩ (.cons ⟨rfl, ?_⟩ .nil), rfl⟩
    all_goals
      intro name
      simp [rule, other, SelectorText.names, a, b, c, d]
      tauto
  have hruleText : rule.text = " node.a.b,.c /**/.d\x7bx:\"\x7d\" //\x7d\n\x7d" := by
    decide +kernel
  have hexpandedText : rule.expandedText =
      " node.a.b\x7bx:\"\x7d\" //\x7d\n\x7d" ++ "node.c /**/.d\x7bx:\"\x7d\" //\x7d\n\x7d" ++
        "edge.c /**/.d\x7bx:\"\x7d\" //\x7d\n\x7d" ++
        "graph.c /**/.d\x7bx:\"\x7d\" //\x7d\n\x7d" := by
    decide +kernel
  have hotherText : other.text = "node.b.a.b,.d.c.c\x7bx:\"\x7d\" //\x7d\n\x7d" := by
    decide +kernel
  have hsome :
      (Stylesheet.parse ("graph\x7b\x7d" ++ rule.text ++ "edge\x7bx:y\x7d")).toOption.isSome =
        true := by
    decide +kernel
  obtain ⟨stylesheet, hparse⟩ := Option.isSome_iff_exists.1 hsome
  have hparse := eq_ok_of_toOption hparse
  obtain ⟨-, hrewrites⟩ := parse_selectorLists _ _ hparse
  obtain ⟨_, hexpanded, rfl, -⟩ := hrewrites _ _ rule rfl hrule _ .expanded
  obtain ⟨_, hclasses, rfl, -⟩ := hrewrites _ _ rule rfl hrule _ (.classes hother)
  rw [hruleText] at hparse
  rw [hexpandedText] at hexpanded
  rw [hotherText] at hclasses
  exact ⟨_, hparse, hexpanded, hclasses⟩

end Stylesheets

end DotCascade
