import DotCascade.Stylesheet.Basic

/-!
# The cascade

A stylesheet styles a graph.  Rules that set nothing are left out, and the
others apply from the least to the most specific, rules of equal specificity in
the order of their declaration.  A general rule becomes defaults, or attributes
of the graph itself, in front of all else.  A rule with classes sets attributes
of every element that it selects, at every depth.  What an element sets itself
is never changed.
-/

namespace DotCascade

/-- The rules of a stylesheet that take part in the cascade, in the order of application. -/
def Stylesheet.cascade (stylesheet : Stylesheet) : List Rule :=
  (stylesheet.rules.filter fun rule => !rule.attributes.isEmpty).mergeSort
    fun a b => a.selector.specificity ≤ b.selector.specificity

/-- The general rules of a stylesheet, in the order of application. -/
def Stylesheet.generalRules (stylesheet : Stylesheet) : List Rule :=
  stylesheet.cascade.filter fun rule => rule.selector.isGeneral

/-- The rules of a stylesheet that ask for classes, in the order of application. -/
def Stylesheet.classRules (stylesheet : Stylesheet) : List Rule :=
  stylesheet.cascade.filter fun rule => !rule.selector.isGeneral

/-- The attributes of an element: those of the rules that select it, and its own on top. -/
def styledAttributes
    (entity : Entity)
    (rules : List Rule)
    (attributes : Attributes) : Attributes :=
  let selected :=
    rules.filter fun rule => rule.selector.matchesElement entity attributes.classes
  let derived :=
    selected.foldl (fun done rule => done.overlay rule.attributes) Attributes.empty
  derived.overlay attributes

mutual

/-- A statement with every element in it styled. -/
def Statement.styled (rules : List Rule) : Statement → Statement
  | .defaults kind attributes => .defaults kind attributes
  | .node id attributes => .node id (styledAttributes .node rules attributes)
  | .edge head tail attributes =>
      .edge head tail (styledAttributes .edge rules attributes)
  | .subgraph id attributes statements =>
      .subgraph id
        (styledAttributes .graph rules attributes)
        (Statement.styledList rules statements)

/-- Statements with every element in them styled. -/
def Statement.styledList (rules : List Rule) : List Statement → List Statement
  | [] => []
  | statement :: rest => statement.styled rules :: Statement.styledList rules rest

end

/-- A content with itself and every element in it styled. -/
def Content.styled (rules : List Rule) (content : Content) : Content :=
  ⟨styledAttributes .graph rules content.attributes,
    Statement.styledList rules content.statements⟩

/-- What a general rule contributes in front of a graph's own content. -/
def Rule.generalContent (rule : Rule) : Content :=
  match rule.selector.entity.defaultsKind? with
  | some kind => .ofStatements [.defaults kind rule.attributes]
  | none => .ofAttributes rule.attributes

/-- What several general rules contribute. -/
def generalContent (rules : List Rule) : Content :=
  rules.foldl (fun done rule => done.merge rule.generalContent) Content.empty

/-- A graph with a stylesheet cascaded into it. -/
def Stylesheet.apply (stylesheet : Stylesheet) (graph : Graph) : Graph :=
  { graph with
    content :=
      (generalContent stylesheet.generalRules).merge
        (graph.content.styled stylesheet.classRules) }

/-- A graph with several stylesheets cascaded into it, one after the other. -/
def applyAll (stylesheets : List Stylesheet) (graph : Graph) : Graph :=
  stylesheets.foldl (fun done stylesheet => stylesheet.apply done) graph

end DotCascade
