import DotCascade.Proofs.Stylesheet.Precedence

/-!
# The law of the cascade

What a stylesheet does to a graph is described key by key.  An element keeps its
own value of a key.  Without one, the last rule that selects the element and sets
the key gives the value, in the order of precedence; and if no such rule exists,
the key stays absent (`Resolves`).  General rules select no element; of them those
for graphs take part at the root, and the others become defaults in front of all
statements.

`Image` says what this makes of a statement at every depth, and
`Stylesheet.apply_cascades` says it of a whole graph.
-/

namespace DotCascade

section Law

/-- The last rule that takes part and sets a key gives it a value. -/
def LastGives
    (rules : List Rule) (takesPart : Rule → Prop) (key value : Atom) : Prop :=
  ∃ earlier rule later,
    rules = earlier ++ rule :: later ∧
      takesPart rule ∧ rule.attributes.get? key = some value ∧
      ∀ other ∈ later, takesPart other → other.attributes.get? key = none

/-- Every key has its own value if there is one, else the value that the last rule gives that
takes part and sets it; without such a rule it is absent. -/
def Resolves
    (rules : List Rule) (takesPart : Rule → Prop) (own styled : Attributes) : Prop :=
  ∀ key value,
    styled.get? key = some value ↔
      own.get? key = some value ∨
        own.get? key = none ∧ LastGives rules takesPart key value

/-- A rule is about elements of a kind and asks only for classes that are listed. -/
def Rule.Matches (rule : Rule) (entity : Entity) (names : List String) : Prop :=
  rule.selector.entity = entity ∧ ∀ name ∈ rule.selector.classes.names, name ∈ names

/-- A rule asks for classes, and an element of a kind with some classes has them. -/
def Rule.Selects (rule : Rule) (entity : Entity) (names : List String) : Prop :=
  rule.selector.classes.names ≠ [] ∧ rule.Matches entity names

/-- The attributes of an element after rules with classes are applied to it. -/
def ResolvesElement
    (rules : List Rule) (entity : Entity) (own styled : Attributes) : Prop :=
  Resolves rules (fun rule => rule.Selects entity own.classNames) own styled

mutual

/-- A statement and what rules make of it. -/
inductive Image (rules : List Rule) : Statement → Statement → Prop
  | defaults
      (kind : DefaultsKind) (attributes : Attributes) :
      Image rules (.defaults kind attributes) (.defaults kind attributes)
  | node
      {id : Atom} {own styled : Attributes}
      (h : ResolvesElement rules .node own styled) :
      Image rules (.node id own) (.node id styled)
  | edge
      {head tail : NodeRef} {own styled : Attributes}
      (h : ResolvesElement rules .edge own styled) :
      Image rules (.edge head tail own) (.edge head tail styled)
  | subgraph
      {id : Option Atom} {own styled : Attributes} {statements images : List Statement}
      (h : ResolvesElement rules .graph own styled)
      (hinner : Images rules statements images) :
      Image rules (.subgraph id own statements) (.subgraph id styled images)

/-- Statements and what rules make of them, one by one. -/
inductive Images (rules : List Rule) : List Statement → List Statement → Prop
  | nil : Images rules [] []
  | cons
      {statement image : Statement} {statements images : List Statement}
      (h : Image rules statement image)
      (hlater : Images rules statements images) :
      Images rules (statement :: statements) (image :: images)

end

/-- The defaults that the general rules for nodes and edges give, in the order of declaration. -/
def Stylesheet.directives (stylesheet : Stylesheet) : List Statement :=
  (stylesheet.rules.filter fun rule =>
      !rule.attributes.isEmpty && rule.selector.isGeneral).filterMap
    fun rule => rule.selector.entity.defaultsKind?.map fun kind => .defaults kind rule.attributes

end Law

section LookUp

/-- The value that the last of some rules gives that sets a key. -/
def lastGiven? (rules : List Rule) (key : Atom) : Option Atom :=
  rules.reverse.findSome? fun rule => rule.attributes.get? key

theorem lastGiven?_append
    (rules later : List Rule) (key : Atom) :
    lastGiven? (rules ++ later) key = (lastGiven? later key).or (lastGiven? rules key) := by
  rw [lastGiven?, List.reverse_append, List.findSome?_append]
  rfl

theorem lastGiven?_cons
    (rule : Rule) (rules : List Rule) (key : Atom) :
    lastGiven? (rule :: rules) key = (lastGiven? rules key).or (rule.attributes.get? key) := by
  have hone : lastGiven? [rule] key = rule.attributes.get? key := by
    simp [lastGiven?]
  rw [← hone]
  exact lastGiven?_append [rule] rules key

theorem get?_foldl_overlay
    (rules : List Rule) (start : Attributes) (key : Atom) :
    (rules.foldl (fun done rule => done.overlay rule.attributes) start).get? key =
      (lastGiven? rules key).or (start.get? key) := by
  induction rules generalizing start with
  | nil =>
      rfl
  | cons rule rest ih =>
      rw [List.foldl_cons, ih, Attributes.get?_overlay, lastGiven?_cons, Option.or_assoc]

theorem lastGiven?_eq_none
    {rules : List Rule} {key : Atom} :
    lastGiven? rules key = none ↔ ∀ rule ∈ rules, rule.attributes.get? key = none := by
  simp [lastGiven?]

section LastRule

variable {rules : List Rule} {takesPart : Rule → Prop} {test : Rule → Bool} {key value : Atom}

theorem lastGiven?_of_lastGives
    (htest : ∀ rule, test rule = true ↔ takesPart rule)
    (h : LastGives rules takesPart key value) :
    lastGiven? (rules.filter test) key = some value := by
  obtain ⟨earlier, rule, later, rfl, hrule, hvalue, hlater⟩ := h
  have hnone : lastGiven? (later.filter test) key = none := by
    rw [lastGiven?_eq_none]
    intro other hother
    obtain ⟨hmem, hpass⟩ := List.mem_filter.1 hother
    exact hlater other hmem ((htest other).1 hpass)
  rw [List.filter_append, List.filter_cons_of_pos ((htest rule).2 hrule), lastGiven?_append,
    lastGiven?_cons, hnone, hvalue]
  rfl

theorem lastGives_of_lastGiven?
    (htest : ∀ rule, test rule = true ↔ takesPart rule)
    (h : lastGiven? (rules.filter test) key = some value) :
    LastGives rules takesPart key value := by
  induction rules with
  | nil =>
      simp [lastGiven?] at h
  | cons rule rest ih =>
      cases hrest : lastGiven? (rest.filter test) key with
      | some given =>
          have hsame : given = value := by
            by_cases hrule : test rule = true
            · simpa [hrule, lastGiven?_cons, hrest] using h
            · simpa [hrule, hrest] using h
          obtain ⟨earlier, last, later, rfl, hlast⟩ := ih (by rw [hrest, hsame])
          exact ⟨rule :: earlier, last, later, rfl, hlast⟩
      | none =>
          by_cases hrule : test rule = true
          · rw [List.filter_cons_of_pos hrule, lastGiven?_cons, hrest, Option.none_or] at h
            refine ⟨[], rule, rest, rfl, (htest rule).1 hrule, h, ?_⟩
            intro other hother htakes
            rw [lastGiven?_eq_none] at hrest
            exact hrest other (List.mem_filter.2 ⟨hother, (htest other).2 htakes⟩)
          · rw [List.filter_cons_of_neg hrule, hrest] at h
            cases h

/-- A map in which own values stand above those of the last rules obeys the law. -/
theorem resolves_of_get?
    {own styled : Attributes} (htest : ∀ rule, test rule = true ↔ takesPart rule)
    (h : ∀ key, styled.get? key = (own.get? key).or (lastGiven? (rules.filter test) key)) :
    Resolves rules takesPart own styled := by
  intro key value
  rw [h key]
  cases hown : own.get? key with
  | some given =>
      simp
  | none =>
      constructor
      · intro hgiven
        exact Or.inr ⟨rfl, lastGives_of_lastGiven? htest (by simpa using hgiven)⟩
      · rintro (hgiven | ⟨-, hlast⟩)
        · cases hgiven
        · simpa using lastGiven?_of_lastGives htest hlast

end LastRule

end LookUp

section Elements

theorem matchesElement_iff
    {rule : Rule} {entity : Entity} {attributes : Attributes} :
    rule.selector.matchesElement entity attributes.classes = true ↔
      rule.Matches entity attributes.classNames := by
  simp only [Selector.matchesElement, Bool.and_eq_true, decide_eq_true_eq, ClassSet.subset_iff,
    Attributes.classes, ClassSet.mem_names_ofList, Rule.Matches]

theorem get?_styledAttributes
    (entity : Entity) (rules : List Rule) (attributes : Attributes) (key : Atom) :
    (styledAttributes entity rules attributes).get? key =
      (attributes.get? key).or
        (lastGiven?
          (rules.filter fun rule => rule.selector.matchesElement entity attributes.classes)
          key) := by
  rw [styledAttributes, Attributes.get?_overlay, get?_foldl_overlay, Attributes.get?_empty,
    Option.or_none]

/-- A rule with classes that matches an element is one of the rules with classes that select it. -/
theorem selects_iff
    {rule : Rule} {entity : Entity} {attributes : Attributes} :
    (rule.selector.matchesElement entity attributes.classes && !rule.selector.isGeneral) = true ↔
      rule.Selects entity attributes.classNames := by
  rw [Bool.and_eq_true, matchesElement_iff, Rule.Selects, and_comm]
  simp [Selector.isGeneral, ClassSet.isEmpty]

/-- The styled attributes of an element obey the law. -/
theorem resolvesElement_styledAttributes
    (stylesheet : Stylesheet) (entity : Entity) (attributes : Attributes) :
    ResolvesElement stylesheet.precedence entity attributes
      (styledAttributes entity stylesheet.classRules attributes) := by
  refine resolves_of_get? (fun rule => selects_iff) fun key => ?_
  rw [get?_styledAttributes, Stylesheet.classRules, List.filter_filter,
    Stylesheet.cascade_eq_precedence]

mutual

theorem image_styled
    (stylesheet : Stylesheet) (statement : Statement) :
    Image stylesheet.precedence statement (statement.styled stylesheet.classRules) := by
  match statement with
  | .defaults kind attributes =>
      exact .defaults kind attributes
  | .node id attributes =>
      exact .node (resolvesElement_styledAttributes stylesheet .node attributes)
  | .edge head tail attributes =>
      exact .edge (resolvesElement_styledAttributes stylesheet .edge attributes)
  | .subgraph id attributes statements =>
      exact .subgraph (resolvesElement_styledAttributes stylesheet .graph attributes)
        (images_styledList stylesheet statements)

theorem images_styledList
    (stylesheet : Stylesheet) (statements : List Statement) :
    Images stylesheet.precedence statements
      (Statement.styledList stylesheet.classRules statements) := by
  match statements with
  | [] =>
      exact .nil
  | statement :: rest =>
      exact .cons (image_styled stylesheet statement) (images_styledList stylesheet rest)

end

end Elements

section Root

theorem foldl_generalContent
    (rules : List Rule) (start : Content) :
    rules.foldl (fun done rule => done.merge rule.generalContent) start =
      ⟨(rules.filter fun rule => rule.selector.entity = .graph).foldl
          (fun done rule => done.overlay rule.attributes) start.attributes,
        start.statements ++ rules.filterMap fun rule =>
          rule.selector.entity.defaultsKind?.map fun kind => .defaults kind rule.attributes⟩ := by
  induction rules generalizing start with
  | nil =>
      simp
  | cons rule rest ih =>
      rw [List.foldl_cons, ih]
      obtain ⟨⟨entity, classes⟩, attributes⟩ := rule
      cases entity <;>
        simp [Rule.generalContent, Entity.defaultsKind?, Content.merge, Content.ofStatements,
          Content.ofAttributes, Attributes.overlay, Attributes.setAll, Attributes.empty]

theorem statements_generalContent
    (stylesheet : Stylesheet) :
    (generalContent stylesheet.generalRules).statements = stylesheet.directives := by
  rw [generalContent, foldl_generalContent, Stylesheet.generalRules_eq_filter]
  exact List.nil_append _

theorem get?_generalContent
    (rules : List Rule) (key : Atom) :
    (generalContent rules).attributes.get? key =
      lastGiven? (rules.filter fun rule => rule.selector.entity = .graph) key := by
  rw [generalContent, foldl_generalContent]
  have hempty : Content.empty.attributes.get? key = none := rfl
  rw [get?_foldl_overlay, hempty, Option.or_none]

/-- A general rule matches every element of its kind. -/
theorem matchesElement_of_isGeneral
    {rule : Rule} (h : rule.selector.isGeneral = true) (entity : Entity) (classes : ClassSet) :
    rule.selector.matchesElement entity classes = decide (rule.selector.entity = entity) := by
  rw [Selector.isGeneral, ClassSet.isEmpty, List.isEmpty_iff] at h
  simp [Selector.matchesElement, ClassSet.subset, h]

theorem lastGiven?_precedence
    (stylesheet : Stylesheet) (attributes : Attributes) (key : Atom) :
    lastGiven?
        (stylesheet.precedence.filter fun rule =>
          rule.selector.matchesElement .graph attributes.classes) key =
      (lastGiven?
          (stylesheet.classRules.filter fun rule =>
            rule.selector.matchesElement .graph attributes.classes) key).or
        ((generalContent stylesheet.generalRules).attributes.get? key) := by
  have hgeneral :
      (stylesheet.generalRules.filter fun rule =>
          rule.selector.matchesElement .graph attributes.classes) =
        stylesheet.generalRules.filter fun rule => rule.selector.entity = .graph := by
    refine List.filter_congr fun rule hrule => ?_
    exact matchesElement_of_isGeneral (List.mem_filter.1 hrule).2 .graph attributes.classes
  rw [get?_generalContent, ← hgeneral, ← lastGiven?_append, ← List.filter_append,
    Stylesheet.generalRules_append_classRules]

/-- The attributes of the root obey the law with the general rules for graphs taking part. -/
theorem resolves_root
    (stylesheet : Stylesheet) (attributes : Attributes) :
    Resolves stylesheet.precedence
      (fun rule => rule.Matches .graph attributes.classNames) attributes
      ((generalContent stylesheet.generalRules).attributes.overlay
        (styledAttributes .graph stylesheet.classRules attributes)) := by
  refine resolves_of_get? (fun rule => matchesElement_iff) fun key => ?_
  rw [Attributes.get?_overlay, get?_styledAttributes, lastGiven?_precedence, Option.or_assoc]

/-- A styled graph keeps its name and kind.  Its statements are the defaults of the general rules
and behind them the images of the statements of the graph, every element at every depth obeys the
law of the cascade, and the root obeys it with the general rules for graphs taking part. -/
theorem apply_cascades
    (stylesheet : Stylesheet) (graph : Graph) :
    (stylesheet.apply graph).id = graph.id ∧
      (stylesheet.apply graph).strict = graph.strict ∧
      (stylesheet.apply graph).directed = graph.directed ∧
      (∃ images,
        (stylesheet.apply graph).content.statements = stylesheet.directives ++ images ∧
          Images stylesheet.precedence graph.content.statements images) ∧
      Resolves stylesheet.precedence
        (fun rule => rule.Matches .graph graph.content.attributes.classNames)
        graph.content.attributes (stylesheet.apply graph).content.attributes := by
  refine ⟨rfl, rfl, rfl, ⟨?_, ?_, ?_⟩, ?_⟩
  · exact Statement.styledList stylesheet.classRules graph.content.statements
  · exact congrArg (· ++ _) (statements_generalContent stylesheet)
  · exact images_styledList stylesheet graph.content.statements
  · exact resolves_root stylesheet graph.content.attributes

end Root

end DotCascade
