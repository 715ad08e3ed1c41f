import DotCascade.Proofs.Stylesheet.Defaults
import DotCascade.Proofs.Stylesheet.Pipeline

/-!
# Styling once is enough

A stylesheet that adds no defaults and does not set the classes of the root changes
nothing when it is applied a second time, not even the order of attributes
(`apply_apply`).

The second pass sees what the first one has derived as an element's own attributes.
It derives the same once more, because an element keeps its classes and so the
same rules select it, and attributes that stand below the own ones already may be
put there again (`overlay_overlay_self`).  At the root the general rules for
graphs come below all that, and the two layers together are put there again.
-/

namespace DotCascade

section Elements

/-- The attributes that rules give to an element of a kind with some classes. -/
def givenAttributes (entity : Entity) (rules : List Rule) (classes : ClassSet) : Attributes :=
  (rules.filter fun rule => rule.selector.matchesElement entity classes).foldl
    (fun done rule => done.overlay rule.attributes) Attributes.empty

theorem styledAttributes_eq
    (entity : Entity) (rules : List Rule) (own : Attributes) :
    styledAttributes entity rules own =
      (givenAttributes entity rules own.classes).overlay own :=
  rfl

variable {rules : List Rule}

/-- An element that is styled already stays as it is. -/
theorem styledAttributes_styledAttributes
    (hrules : ∀ rule ∈ rules, rule.selector.isGeneral = false)
    (entity : Entity) (own : Attributes) :
    styledAttributes entity rules (styledAttributes entity rules own) =
      styledAttributes entity rules own := by
  rw [styledAttributes_eq entity rules (styledAttributes entity rules own),
    classes_styledAttributes hrules, styledAttributes_eq, overlay_overlay_self]

mutual

theorem styled_styled
    (hrules : ∀ rule ∈ rules, rule.selector.isGeneral = false)
    (statement : Statement) :
    (statement.styled rules).styled rules = statement.styled rules := by
  match statement with
  | .defaults _ _ =>
      rfl
  | .node _ _ | .edge _ _ _ =>
      simp only [Statement.styled, styledAttributes_styledAttributes hrules]
  | .subgraph _ _ statements =>
      simp only [Statement.styled, styledAttributes_styledAttributes hrules,
        styledList_styledList hrules statements]

theorem styledList_styledList
    (hrules : ∀ rule ∈ rules, rule.selector.isGeneral = false)
    (statements : List Statement) :
    Statement.styledList rules (Statement.styledList rules statements) =
      Statement.styledList rules statements := by
  match statements with
  | [] =>
      rfl
  | statement :: rest =>
      simp only [Statement.styledList, styled_styled hrules statement,
        styledList_styledList hrules rest]

end

/-- Attributes below those of the root, which do not set its classes, and those that rules give it
may be put there again. -/
theorem overlay_styledAttributes_overlay
    {general : Attributes} (hrules : ∀ rule ∈ rules, rule.selector.isGeneral = false)
    (hclass : general.get? (.text "class") = none)
    (entity : Entity) (own : Attributes) :
    general.overlay
        (styledAttributes entity rules
          (general.overlay (styledAttributes entity rules own))) =
      general.overlay (styledAttributes entity rules own) := by
  have hclasses :
      (general.overlay (styledAttributes entity rules own)).classes = own.classes := by
    rw [← classes_styledAttributes hrules entity own, Attributes.classes, Attributes.classes]
    refine congrArg ClassSet.ofList (classNames_congr ?_)
    rw [Attributes.get?_overlay, hclass, Option.or_none]
  let given := givenAttributes entity rules own.classes
  calc
    general.overlay
          (styledAttributes entity rules
            (general.overlay (styledAttributes entity rules own)))
        = general.overlay (given.overlay (general.overlay (given.overlay own))) := by
          rw [styledAttributes_eq entity rules (general.overlay _), hclasses]
          rfl
    _ = (general.overlay given).overlay ((general.overlay given).overlay own) := by
          rw [overlay_assoc, overlay_assoc]
    _ = (general.overlay given).overlay own :=
          overlay_overlay_self _ _
    _ = general.overlay (styledAttributes entity rules own) :=
          overlay_assoc _ _ _

end Elements

section Stylesheets

variable {stylesheet : Stylesheet}

/-- If the rules that give defaults set nothing, no statements are put in front. -/
theorem directives_eq_nil
    (h : ∀ rule ∈ stylesheet.rules,
      rule.selector.givesDefaults = true → rule.attributes.isEmpty = true) :
    stylesheet.directives = [] := by
  have hnone :
      (stylesheet.rules.filter fun rule =>
        !rule.attributes.isEmpty && rule.selector.givesDefaults) = [] := by
    rw [List.filter_eq_nil_iff]
    intro rule hrule hfilled
    rw [Bool.and_eq_true, Bool.not_eq_true'] at hfilled
    rw [h rule hrule hfilled.2] at hfilled
    cases hfilled.1
  rw [directives_eq_filterMap, hnone, List.filterMap_nil]

theorem get?_generalContent_eq_none
    {key : Atom}
    (h : ∀ rule ∈ stylesheet.rules, rule.selector = .general .graph →
      rule.attributes.get? key = none) :
    (generalContent stylesheet.generalRules).attributes.get? key = none := by
  rw [get?_generalContent, lastGiven?_eq_none]
  intro rule hrule
  obtain ⟨hmem, hentity⟩ := List.mem_filter.1 hrule
  rw [Stylesheet.generalRules_eq_filter] at hmem
  obtain ⟨hmem, hgeneral⟩ := List.mem_filter.1 hmem
  rw [Bool.and_eq_true] at hgeneral
  exact h rule hmem (eq_general_iff.2 ⟨of_decide_eq_true hentity, hgeneral.2⟩)

/-- A stylesheet whose general rules for nodes and edges set nothing, and whose general rules for
graphs do not set the key for classes, changes nothing in a graph that it has styled before. -/
theorem apply_apply
    (hdefaults : ∀ rule ∈ stylesheet.rules,
      rule.selector.givesDefaults = true → rule.attributes.isEmpty = true)
    (hclass : ∀ rule ∈ stylesheet.rules, rule.selector = .general .graph →
      rule.attributes.get? (.text "class") = none)
    (graph : Graph) :
    stylesheet.apply (stylesheet.apply graph) = stylesheet.apply graph := by
  have hrules : ∀ rule ∈ stylesheet.classRules, rule.selector.isGeneral = false :=
    fun _ => isGeneral_of_mem_classRules
  have hbare : (generalContent stylesheet.generalRules).statements = [] := by
    rw [statements_generalContent, directives_eq_nil hdefaults]
  have hroot := overlay_styledAttributes_overlay hrules (get?_generalContent_eq_none hclass)
    .graph graph.content.attributes
  have hinner := styledList_styledList hrules graph.content.statements
  simp only [Stylesheet.apply, Content.merge, Content.styled, hbare, List.nil_append, hroot,
    hinner]

/-- Rules that set the class of what they select, and one that gives the root an attribute. -/
theorem apply_apply_reclassed :
    let listed (name : String) : Attributes := .ofList [(.text "class", .text name)]
    let stylesheet : Stylesheet :=
      ⟨[⟨⟨.node, .ofList ["x"]⟩, .ofList [(.text "k", .text "1"), (.text "class", .text "y")]⟩,
        ⟨⟨.node, .ofList ["y"]⟩, .ofList [(.text "k", .text "2")]⟩,
        ⟨.general .graph, .ofList [(.text "rankdir", .text "LR")]⟩,
        ⟨⟨.graph, .ofList ["x"]⟩, listed "z"⟩]⟩
    let inner : List Statement := [.node (.text "n") (listed "x")]
    let graph : Graph :=
      ⟨none, false, true, ⟨listed "x", [.subgraph none (listed "x") inner]⟩⟩
    (∀ rule ∈ stylesheet.rules,
      rule.selector.givesDefaults = true → rule.attributes.isEmpty = true) ∧
      (∀ rule ∈ stylesheet.rules, rule.selector = .general .graph →
        rule.attributes.get? (.text "class") = none) ∧
      stylesheet.apply (stylesheet.apply graph) = stylesheet.apply graph := by
  intro listed stylesheet inner graph
  have hdefaults : ∀ rule ∈ stylesheet.rules,
      rule.selector.givesDefaults = true → rule.attributes.isEmpty = true := by
    decide
  have hclass : ∀ rule ∈ stylesheet.rules, rule.selector = .general .graph →
      rule.attributes.get? (.text "class") = none := by
    decide
  exact ⟨hdefaults, hclass, apply_apply hdefaults hclass graph⟩

end Stylesheets

end DotCascade
