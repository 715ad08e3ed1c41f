import DotCascade.Proofs.Graph.RoundTrip
import DotCascade.Proofs.Graph.Same
import DotCascade.Proofs.Stylesheet.Pipeline
import Mathlib.Data.List.Forall2

/-!
# The order of attributes has no part in the cascade

Graphs and stylesheets that differ in attribute order alone are cascaded into
graphs that differ in attribute order alone (`same_apply`).  Every step of the
cascade is a fold or a filter over rules; folds put one map over another, which is
decided key by key, and filters ask for selectors, for classes and for whether a
rule sets anything, none of which depends on the order of keys.

`attributeOrder_irrelevant` puts this together with what holds of contents that
are merged and extended, of the nodes that they declare and of their written form.
-/

namespace DotCascade

section Rules

variable {rules rules' : List Rule}

/-- Rules that differ in attribute order alone, one by one. -/
abbrev SameRules (rules rules' : List Rule) : Prop :=
  List.Forall₂ (fun rule rule' => rule.same rule' = true) rules rules'

theorem Rule.same_iff
    {rule rule' : Rule} :
    rule.same rule' = true ↔
      rule.selector = rule'.selector ∧ rule.attributes.same rule'.attributes = true := by
  rw [Rule.same, Bool.and_eq_true, decide_eq_true_iff]

theorem sameRules_iff :
    Rule.sameList rules rules' = true ↔ SameRules rules rules' := by
  induction rules generalizing rules' with
  | nil =>
      cases rules' <;> simp [Rule.sameList, SameRules]
  | cons rule rest ih =>
      cases rules' with
      | nil =>
          simp [Rule.sameList, SameRules]
      | cons rule' rest' =>
          rw [Rule.sameList, Bool.and_eq_true, ih, SameRules, SameRules, List.forall₂_cons]

theorem SameRules.filter
    {test test' : Rule → Bool} (h : SameRules rules rules')
    (htest : ∀ rule rule', rule.same rule' = true → test rule = test' rule') :
    SameRules (rules.filter test) (rules'.filter test') := by
  refine List.rel_filter (fun rule rule' hrule => ?_) h
  exact Bool.eq_iff_iff.1 (htest rule rule' hrule)

/-- Rules are picked by their selectors alike. -/
theorem SameRules.filterSelector
    (h : SameRules rules rules') (test : Selector → Bool) :
    SameRules (rules.filter fun rule => test rule.selector)
      (rules'.filter fun rule => test rule.selector) := by
  refine h.filter fun rule rule' hrule => ?_
  rw [(Rule.same_iff.1 hrule).1]

/-- What is built up rule by rule stays alike if every rule keeps it so. -/
theorem SameRules.foldl
    {α : Type} (alike : α → α → Prop) {step : α → Rule → α} {start start' : α}
    (h : SameRules rules rules')
    (hstep : ∀ done done' rule rule',
      alike done done' → rule.same rule' = true → alike (step done rule) (step done' rule'))
    (hstart : alike start start') :
    alike (rules.foldl step start) (rules'.foldl step start') := by
  induction h generalizing start start' with
  | nil =>
      exact hstart
  | cons hrule _ ih =>
      exact ih (hstep _ _ _ _ hstart hrule)

theorem SameRules.sizes
    (h : SameRules rules rules') :
    (rules.map fun rule => rule.selector.classes.size) =
      rules'.map fun rule => rule.selector.classes.size := by
  induction h with
  | nil =>
      rfl
  | cons hrule _ ih =>
      rw [List.map_cons, List.map_cons, ih, (Rule.same_iff.1 hrule).1]

variable {stylesheet stylesheet' : Stylesheet}

theorem sameRules_precedence
    (h : SameRules stylesheet.rules stylesheet'.rules) :
    SameRules stylesheet.precedence stylesheet'.precedence := by
  have hmax : stylesheet.maxClasses = stylesheet'.maxClasses := by
    rw [Stylesheet.maxClasses, Stylesheet.maxClasses, h.sizes]
  have hranks : List.Forall₂ Eq (List.range (stylesheet'.maxClasses + 1))
      (List.range (stylesheet'.maxClasses + 1)) :=
    List.forall₂_same.2 fun _ _ => rfl
  rw [Stylesheet.precedence, Stylesheet.precedence, hmax]
  refine List.rel_flatMap hranks ?_
  rintro n _ rfl
  refine h.filter fun rule rule' hrule => ?_
  rw [Rule.same_iff] at hrule
  rw [hrule.1, Attributes.isEmpty_of_same hrule.2]

theorem sameRules_cascade
    (h : SameRules stylesheet.rules stylesheet'.rules) :
    SameRules stylesheet.cascade stylesheet'.cascade := by
  rw [Stylesheet.cascade_eq_precedence, Stylesheet.cascade_eq_precedence]
  exact sameRules_precedence h

theorem sameRules_classRules
    (h : SameRules stylesheet.rules stylesheet'.rules) :
    SameRules stylesheet.classRules stylesheet'.classRules :=
  (sameRules_cascade h).filterSelector fun selector => !selector.isGeneral

theorem sameRules_generalRules
    (h : SameRules stylesheet.rules stylesheet'.rules) :
    SameRules stylesheet.generalRules stylesheet'.generalRules :=
  (sameRules_cascade h).filterSelector Selector.isGeneral

end Rules

section Cascade

variable {rules rules' : List Rule}

/-- Classes are looked up, so the order of keys has no part in them. -/
theorem classes_of_same
    {own own' : Attributes} (h : own.same own' = true) :
    own.classes = own'.classes := by
  rw [Attributes.classes, Attributes.classes,
    classNames_congr (Attributes.same_iff.1 h (.text "class"))]

theorem same_styledAttributes
    {own own' : Attributes} (h : SameRules rules rules') (entity : Entity)
    (hown : own.same own' = true) :
    (styledAttributes entity rules own).same (styledAttributes entity rules' own') = true := by
  have hselected := h.filterSelector fun selector => selector.matchesElement entity own.classes
  rw [styledAttributes, styledAttributes, ← classes_of_same hown]
  refine Attributes.same_overlay (hselected.foldl (fun a b : Attributes => a.same b = true) ?_ ?_)
    hown
  · intro done done' rule rule' hdone hrule
    exact Attributes.same_overlay hdone (Rule.same_iff.1 hrule).2
  · exact Attributes.same_refl .empty

/-- Rules style elements alike whatever the order of their own attributes. -/
def StyleAlike (rules rules' : List Rule) : Prop :=
  ∀ entity own own', own.same own' = true →
    (styledAttributes entity rules own).same (styledAttributes entity rules' own') = true

mutual

theorem SameStatement.styled
    {statement other : Statement} (hrules : StyleAlike rules rules')
    (h : SameStatement statement other) :
    SameStatement (statement.styled rules) (other.styled rules') := by
  match h with
  | .defaults hown =>
      exact .defaults hown
  | .node hown =>
      exact .node (hrules .node _ _ hown)
  | .edge hown =>
      exact .edge (hrules .edge _ _ hown)
  | .subgraph hown hinner =>
      exact .subgraph (hrules .graph _ _ hown) (hinner.styledList hrules)

theorem SameStatements.styledList
    {statements others : List Statement} (hrules : StyleAlike rules rules')
    (h : SameStatements statements others) :
    SameStatements (Statement.styledList rules statements)
      (Statement.styledList rules' others) := by
  match h with
  | .nil =>
      exact .nil
  | .cons h hlater =>
      exact .cons (h.styled hrules) (hlater.styledList hrules)

end

theorem Rule.same_generalContent
    {rule rule' : Rule} (h : rule.same rule' = true) :
    rule.generalContent.same rule'.generalContent = true := by
  obtain ⟨hselector, hattributes⟩ := Rule.same_iff.1 h
  rw [Rule.generalContent, Rule.generalContent, hselector]
  cases rule'.selector.entity.defaultsKind? with
  | some kind =>
      exact Content.same_iff.2 ⟨Attributes.same_refl _, .cons (.defaults hattributes) .nil⟩
  | none =>
      exact Content.same_iff.2 ⟨hattributes, .nil⟩

theorem same_generalContent
    (h : SameRules rules rules') :
    (generalContent rules).same (generalContent rules') = true := by
  refine h.foldl (fun a b : Content => a.same b = true) ?_ rfl
  intro done done' rule rule' hdone hrule
  exact Content.same_merge hdone (Rule.same_generalContent hrule)

variable {stylesheet stylesheet' : Stylesheet} {graph graph' : Graph}

/-- Stylesheets with the same general part that style elements alike give the same graph. -/
theorem same_apply_of_styleAlike
    (hgeneral :
      (generalContent stylesheet.generalRules).same (generalContent stylesheet'.generalRules) =
        true)
    (hclass : StyleAlike stylesheet.classRules stylesheet'.classRules)
    (hgraph : graph.same graph' = true) :
    (stylesheet.apply graph).same (stylesheet'.apply graph') = true := by
  obtain ⟨hid, hstrict, hdirected, hcontent⟩ := Graph.same_iff.1 hgraph
  obtain ⟨hattributes, hstatements⟩ := Content.same_iff.1 hcontent
  have hstyled :
      (graph.content.styled stylesheet.classRules).same
        (graph'.content.styled stylesheet'.classRules) = true :=
    Content.same_iff.2 ⟨hclass .graph _ _ hattributes, hstatements.styledList hclass⟩
  exact Graph.same_iff.2 ⟨hid, hstrict, hdirected, Content.same_merge hgeneral hstyled⟩

/-- The same stylesheet cascaded into the same graph gives the same graph, in each case whatever
the order of attributes. -/
theorem same_apply
    (hstylesheet : stylesheet.same stylesheet' = true) (hgraph : graph.same graph' = true) :
    (stylesheet.apply graph).same (stylesheet'.apply graph') = true := by
  have hrules := sameRules_iff.1 hstylesheet
  refine same_apply_of_styleAlike ?_ ?_ hgraph
  · exact same_generalContent (sameRules_generalRules hrules)
  · exact fun entity _ _ hown => same_styledAttributes (sameRules_classRules hrules) entity hown

end Cascade

/-- The order of attributes has no part in what the cascade, merging and extending make, in which
nodes a content declares, and in what is read from the written form of faithful atoms. -/
theorem attributeOrder_irrelevant
    {stylesheet stylesheet' : Stylesheet} {graph graph' : Graph}
    {content content' later later' : Content} {attributes attributes' : Attributes}
    {statement statement' : Statement}
    (hstylesheet : stylesheet.same stylesheet' = true) (hgraph : graph.same graph' = true)
    (hcontent : content.same content' = true) (hlater : later.same later' = true)
    (hattributes : attributes.same attributes' = true)
    (hstatement : statement.same statement' = true) :
    (stylesheet.apply graph).same (stylesheet'.apply graph') = true ∧
      (content.merge later).same (content'.merge later') = true ∧
      (content.withAttributes attributes).same (content'.withAttributes attributes') = true ∧
      (content.withStatement statement).same (content'.withStatement statement') = true ∧
      content.nodeRefs = content'.nodeRefs ∧
      ((∀ atom ∈ graph.atoms, atom.isFaithful = true) →
        (∀ atom ∈ graph'.atoms, atom.isFaithful = true) →
        ∀ indent indent', ∃ again again',
          Graph.parse (graph.toText indent) = .ok again ∧
            Graph.parse (graph'.toText indent') = .ok again' ∧ again.same again' = true) := by
  refine ⟨same_apply hstylesheet hgraph, Content.same_merge hcontent hlater,
    Content.same_withAttributes hcontent hattributes,
    Content.same_withStatement hcontent hstatement, Content.nodeRefs_of_same hcontent, ?_⟩
  intro hfaithful hfaithful' indent indent'
  exact ⟨graph, graph', parse_toText_of_faithful indent hfaithful,
    parse_toText_of_faithful indent' hfaithful', hgraph⟩

/-- Two attributes change places in the rules, in the root, in a subgraph, in its node and in its
defaults. -/
theorem attributeOrder_irrelevant_swapped :
    let one : Attributes := .ofList [(.text "class", .text "x"), (.text "k", .text "1")]
    let other : Attributes := .ofList [(.text "k", .text "1"), (.text "class", .text "x")]
    let sheet (attributes : Attributes) : Stylesheet :=
      ⟨[⟨⟨.node, .ofList ["x"]⟩, attributes⟩, ⟨.general .edge, attributes⟩]⟩
    let inner (attributes : Attributes) : Statement :=
      .subgraph none attributes [.defaults .node attributes, .node (.text "n") attributes]
    let graph (attributes : Attributes) : Graph :=
      ⟨none, false, true, ⟨attributes, [inner attributes]⟩⟩
    one ≠ other ∧
      ((sheet one).apply (graph one)).same ((sheet other).apply (graph other)) = true ∧
      (graph one).content.nodeRefs = (graph other).content.nodeRefs ∧
      ∃ again again', Graph.parse ((graph one).toText 2) = .ok again ∧
        Graph.parse ((graph other).toText 0) = .ok again' ∧ again.same again' = true := by
  intro one other sheet inner graph
  have hsheet : (sheet one).same (sheet other) = true := by decide
  have hgraph : (graph one).same (graph other) = true := by decide
  have hcontent : (graph one).content.same (graph other).content = true := by decide
  have hattributes : one.same other = true := by decide
  have hinner : (inner one).same (inner other) = true := by decide
  obtain ⟨hcascaded, -, -, -, hnodes, hread⟩ :=
    attributeOrder_irrelevant hsheet hgraph hcontent hcontent hattributes hinner
  exact ⟨by decide, hcascaded, hnodes, hread (by decide) (by decide) 2 0⟩

end DotCascade
