import DotCascade.Proofs.Grammar.Preservation
import DotCascade.Proofs.Reading.Pieces
import DotCascade.Proofs.Reading.Results
import DotCascade.Proofs.Reading.Scans

/-!
# The class names of a stylesheet

Selectors get their classes from class words only, and a class word is a dot and
a name behind it.  So all classes in a stylesheet that was read are names
(`isName_of_parse`), and its selectors can be written.
-/

namespace DotCascade

open Grammar Reading

namespace Grammar

/-- The classes that selectors ask for. -/
def selectorClasses (selectors : List Selector) : List String :=
  selectors.flatMap fun selector => selector.classes.names

/-- The classes that the selectors of rules ask for. -/
def ruleClasses (rules : List Rule) : List String :=
  rules.flatMap fun rule => rule.selector.classes.names

/-- All of some class names are names. -/
def AllNames (names : List String) : Prop :=
  ∀ name ∈ names, IsName name.toList

theorem allNames_append
    {names later : List String} (h : AllNames names) (hlater : AllNames later) :
    AllNames (names ++ later) :=
  List.forall_mem_append.2 ⟨h, hlater⟩

theorem allNames_selectors_append
    {before selectors : List Selector} (hbefore : AllNames (selectorClasses before))
    (h : AllNames (selectorClasses selectors)) :
    AllNames (selectorClasses (before ++ selectors)) := by
  rw [selectorClasses, List.flatMap_append]
  exact allNames_append hbefore h

theorem allNames_rules_append
    {before rules : List Rule} (hbefore : AllNames (ruleClasses before))
    (h : AllNames (ruleClasses rules)) :
    AllNames (ruleClasses (before ++ rules)) := by
  rw [ruleClasses, List.flatMap_append]
  exact allNames_append hbefore h

theorem allNames_rulesFor
    {selectors : List Selector} (pairs : List Attribute)
    (h : AllNames (selectorClasses selectors)) :
    AllNames (ruleClasses (rulesFor selectors pairs)) := by
  rw [ruleClasses, rulesFor, List.flatMap_map]
  exact h

/-- Selectors that ask for the same classes, each for an entity of its own. -/
theorem allNames_entities
    {names : List String} (entities : List Entity) (h : AllNames names) :
    AllNames (selectorClasses (entities.map fun entity => ⟨entity, .ofList names⟩)) := by
  intro name hname
  obtain ⟨selector, hselector, hname⟩ := List.mem_flatMap.1 hname
  obtain ⟨entity, -, rfl⟩ := List.mem_map.1 hselector
  exact h name (ClassSet.mem_names_ofList.1 hname)

/-- The class names in the meaning of a phrase. -/
def Phrase.classNames : (result : Phrase) → result.Meaning → List String
  | .rules, (value : List Rule) | .rule, (value : List Rule) => ruleClasses value
  | .selectors, (value : List Selector) | .selector, (value : List Selector) =>
      selectorClasses value
  | .classes, (value : List String) => value
  | _, _ => []

/-- The class names that a word of some kind tells. -/
def Terminal.classNames : (terminal : Terminal) → terminal.Lexeme → List String
  | .className, (name : String) => [name]
  | _, _ => []

/-- All class names in the meaning of a symbol are names. -/
def Symbol.HasNames : Holding
  | .word terminal, lexeme => AllNames (terminal.classNames lexeme)
  | .phrase result, value => AllNames (result.classNames value)

/-- No production makes up class names. -/
theorem keeps_names :
    KeptByActions Symbol.HasNames := by
  intro result symbols production
  have hnone (h : ∀ value, result.classNames value = []) :
      Keeps Symbol.HasNames (Symbol.HasNames (.phrase result)) symbols production.action :=
    keeps_of_forall (fun value name hname => absurd (h value ▸ hname) List.not_mem_nil) _ _
  cases production with
  | firstRule | firstSelector | firstClass =>
      intro value h
      exact h
  | laterRule =>
      intro before hbefore rules h
      exact allNames_rules_append hbefore h
  | laterSelector =>
      intro before hbefore _ _ selectors h
      exact allNames_selectors_append hbefore h
  | laterClass =>
      intro before hbefore last h
      exact allNames_append hbefore h
  | emptyRule =>
      intro selectors h _ _ _ _
      exact allNames_rulesFor [] h
  | fullRule =>
      intro selectors h _ _ pairs _ _ _
      exact allNames_rulesFor pairs h
  | entitySelector =>
      intro entity _
      exact nofun
  | entityClassSelector =>
      intro entity _ names h
      exact allNames_entities [entity] h
  | classSelector =>
      intro names h
      exact allNames_entities Entity.all h
  | _ =>
      exact hnone fun _ => rfl

/-- The class names that a legible word tells are names. -/
theorem hasNames_of_legible
    {word : Word} (h : Legible word) :
    Symbol.HasNames (.word word.terminal) word.lexeme := by
  obtain ⟨piece, text, hpiece, htells⟩ := h
  have hspelling := spelling_of_piece? hpiece
  obtain ⟨terminal, lexeme⟩ := word
  cases terminal with
  | className =>
      obtain ⟨name, rfl, hname⟩ := hspelling
      obtain rfl := Except.ok.inj htells
      intro other hother
      rw [List.mem_singleton.1 hother, List.tail_cons, String.toList_ofList]
      exact hname
  | _ =>
      exact nofun

end Grammar

/-- The classes of a stylesheet that was read are names. -/
theorem isName_of_parse
    {source : String} {stylesheet : Stylesheet} (h : Stylesheet.parse source = .ok stylesheet) :
    ∀ rule ∈ stylesheet.rules, ∀ name ∈ rule.selector.classes.names, IsName name.toList := by
  intro rule hrule name hname
  by_cases hempty : skipGap source.toList = []
  · rw [Stylesheet.parse_of_skipGap_eq_nil hempty] at h
    obtain rfl := Except.ok.inj h
    exact absurd hrule List.not_mem_nil
  · obtain ⟨tree, htree, rfl⟩ := (Stylesheet.parse_eq_ok_iff hempty).1 h
    have hnames := holds_meaning keeps_names tree fun word hword =>
      hasNames_of_legible (legible_of_read htree word hword)
    exact hnames name (List.mem_flatMap.2 ⟨rule, hrule, hname⟩)

end DotCascade
