import DotCascade.Proofs.Stylesheet.Cascade

/-!
# The cascade and defaults in scope

Defaults reach what follows them in the same content and the subgraphs in it; a
subgraph begins with the defaults that are in force where it stands, and its own
end with it.  `Statement.occurrence?` looks up the node or the edge at a place,
together with the defaults that reach it.

A stylesheet acts in two ways.  Its general rules become defaults in front of all
statements, and its rules with classes set attributes of the elements themselves.
`Stylesheet.apply_effective` says what this makes of the effective attributes of
an element at any place: they follow one order of precedence, which is
`Stylesheet.resolved?`.  The proof walks to the place in the graph and in its
image at once; on the way the defaults in the image stay those of the graph with
the general rules below them (`Scope.Raised`).
-/

namespace DotCascade

section Scopes

/-- The defaults in force at some place. -/
structure Scope where
  node : Attributes
  edge : Attributes

namespace Scope

/-- The scope at the start of a graph. -/
def empty : Scope :=
  ⟨.empty, .empty⟩

/-- The defaults for elements of one kind. -/
def get (scope : Scope) : DefaultsKind → Attributes
  | .node => scope.node
  | .edge => scope.edge

/-- The scope behind a statement.  Only defaults make a difference. -/
def behind (scope : Scope) : Statement → Scope
  | .defaults .node attributes => { scope with node := scope.node.overlay attributes }
  | .defaults .edge attributes => { scope with edge := scope.edge.overlay attributes }
  | _ => scope

/-- The defaults in one scope are those in another with some further ones below them. -/
def Raised (base scope image : Scope) : Prop :=
  ∀ kind key, (image.get kind).get? key = ((scope.get kind).get? key).or ((base.get kind).get? key)

theorem get?_behind_defaults
    (scope : Scope) (kind other : DefaultsKind) (attributes : Attributes) (key : Atom) :
    ((scope.behind (.defaults kind attributes)).get other).get? key =
      if kind = other then (attributes.get? key).or ((scope.get other).get? key)
      else (scope.get other).get? key := by
  cases kind <;> cases other <;> simp [behind, get, Attributes.get?_overlay]

theorem raised_empty
    (base : Scope) :
    Raised base empty base := by
  intro kind key
  cases kind <;> rfl

/-- A statement and its image change both scopes alike. -/
theorem Raised.behind_styled
    {base scope image : Scope} (h : Raised base scope image) (rules : List Rule)
    (statement : Statement) :
    Raised base (scope.behind statement) (image.behind (statement.styled rules)) := by
  cases statement with
  | defaults kind attributes =>
      intro other key
      rw [Statement.styled, get?_behind_defaults, get?_behind_defaults, h other key]
      split
      · rw [Option.or_assoc]
      · rfl
  | node _ _ =>
      rw [Statement.styled]
      exact h
  | edge _ _ _ =>
      rw [Statement.styled]
      exact h
  | subgraph _ _ _ =>
      rw [Statement.styled]
      exact h

end Scope

end Scopes

section Occurrences

/-- The elements that defaults reach. -/
inductive Element where
  | node (id : Atom)
  | edge (head tail : NodeRef)
deriving DecidableEq

/-- The kind of defaults that reach an element. -/
def Element.kind : Element → DefaultsKind
  | node _ => .node
  | edge _ _ => .edge

/-- An element at its place: with its own attributes and the defaults that reach it. -/
structure Occurrence where
  element : Element
  own : Attributes
  inherited : Attributes

namespace Occurrence

/-- The kind of element, as rules name it. -/
def entity (occurrence : Occurrence) : Entity :=
  occurrence.element.kind.entity

/-- The attributes that count: the defaults, and on top of them the element's own attributes. -/
def effective (occurrence : Occurrence) : Attributes :=
  occurrence.inherited.overlay occurrence.own

end Occurrence

mutual

/-- The element at a place in a statement that stands in a scope. -/
def Statement.occurrence? (scope : Scope) : Statement → List Nat → Option Occurrence
  | .node id own, [] => some ⟨.node id, own, scope.node⟩
  | .edge head tail own, [] => some ⟨.edge head tail, own, scope.edge⟩
  | .subgraph _ _ statements, place => Statement.occurrenceAmong? scope statements place
  | _, _ => none

/-- The element at a place among statements, the first of which stands in a scope.  A place is the
number of the statement, and behind it the place in that statement. -/
def Statement.occurrenceAmong? (scope : Scope) : List Statement → List Nat → Option Occurrence
  | statement :: _, 0 :: place => statement.occurrence? scope place
  | statement :: rest, (index + 1) :: place =>
      Statement.occurrenceAmong? (scope.behind statement) rest (index :: place)
  | _, _ => none

end

/-- The element at a place in a graph. -/
def Graph.occurrence? (graph : Graph) (place : List Nat) : Option Occurrence :=
  Statement.occurrenceAmong? .empty graph.content.statements place

/-- Behind further statements in front, every place has a higher number. -/
theorem occurrenceAmong?_append
    (scope : Scope) (front statements : List Statement) (index : Nat) (place : List Nat) :
    Statement.occurrenceAmong? scope (front ++ statements) ((front.length + index) :: place) =
      Statement.occurrenceAmong? (front.foldl Scope.behind scope) statements (index :: place) := by
  induction front generalizing scope with
  | nil =>
      simp
  | cons statement rest ih =>
      have hnumber : (statement :: rest).length + index = rest.length + index + 1 := by
        rw [List.length_cons]
        omega
      rw [hnumber, List.cons_append, Statement.occurrenceAmong?, ih, List.foldl_cons]

end Occurrences

section Images

/-- What rules with classes make of an element that has further defaults below its own ones. -/
structure IsImage (rules : List Rule) (base : Scope) (occurrence image : Occurrence) : Prop where
  element : image.element = occurrence.element
  own : image.own = styledAttributes occurrence.entity rules occurrence.own
  inherited : ∀ key, image.inherited.get? key =
    (occurrence.inherited.get? key).or ((base.get occurrence.element.kind).get? key)

variable (rules : List Rule) {base : Scope} {occurrence : Occurrence}

mutual

/-- What is found at a place in a statement has its image at this place in the styled statement. -/
theorem occurrence?_styled
    (statement : Statement) {scope raised : Scope} {place : List Nat}
    (hraised : Scope.Raised base scope raised)
    (h : statement.occurrence? scope place = some occurrence) :
    ∃ image, (statement.styled rules).occurrence? raised place = some image ∧
      IsImage rules base occurrence image := by
  match statement, place with
  | .defaults _ _, _ =>
      simp [Statement.occurrence?] at h
  | .node id own, [] =>
      rw [Statement.occurrence?, Option.some.injEq] at h
      subst h
      rw [Statement.styled, Statement.occurrence?]
      exact ⟨_, rfl, rfl, rfl, hraised .node⟩
  | .node _ _, _ :: _ =>
      simp [Statement.occurrence?] at h
  | .edge head tail own, [] =>
      rw [Statement.occurrence?, Option.some.injEq] at h
      subst h
      rw [Statement.styled, Statement.occurrence?]
      exact ⟨_, rfl, rfl, rfl, hraised .edge⟩
  | .edge _ _ _, _ :: _ =>
      simp [Statement.occurrence?] at h
  | .subgraph _ _ statements, place =>
      rw [Statement.occurrence?] at h
      rw [Statement.styled, Statement.occurrence?]
      exact occurrenceAmong?_styledList statements hraised h

theorem occurrenceAmong?_styledList
    (statements : List Statement) {scope raised : Scope} {place : List Nat}
    (hraised : Scope.Raised base scope raised)
    (h : Statement.occurrenceAmong? scope statements place = some occurrence) :
    ∃ image,
      Statement.occurrenceAmong? raised (Statement.styledList rules statements) place =
          some image ∧
        IsImage rules base occurrence image := by
  match statements, place with
  | [], _ =>
      simp [Statement.occurrenceAmong?] at h
  | _ :: _, [] =>
      simp [Statement.occurrenceAmong?] at h
  | statement :: _, 0 :: _ =>
      rw [Statement.occurrenceAmong?] at h
      rw [Statement.styledList, Statement.occurrenceAmong?]
      exact occurrence?_styled statement hraised h
  | statement :: rest, (_ + 1) :: _ =>
      rw [Statement.occurrenceAmong?] at h
      rw [Statement.styledList, Statement.occurrenceAmong?]
      exact occurrenceAmong?_styledList rest (hraised.behind_styled rules statement) h

end

end Images

section GeneralRules

instance (rule : Rule) (entity : Entity) (names : List String) :
    Decidable (rule.Matches entity names) :=
  inferInstanceAs (Decidable (_ ∧ ∀ name ∈ rule.selector.classes.names, name ∈ names))

instance (rule : Rule) (entity : Entity) (names : List String) :
    Decidable (rule.Selects entity names) :=
  inferInstanceAs (Decidable (_ ∧ _))

/-- Rules that do not set a key have no part in its last value. -/
theorem lastGiven?_filter
    {rules : List Rule} {test : Rule → Bool} {key : Atom}
    (h : ∀ rule ∈ rules, test rule = false → rule.attributes.get? key = none) :
    lastGiven? (rules.filter test) key = lastGiven? rules key := by
  induction rules with
  | nil =>
      rfl
  | cons rule rest ih =>
      rw [List.forall_mem_cons] at h
      rw [lastGiven?_cons, ← ih h.2, List.filter_cons]
      split
      case isTrue =>
        rw [lastGiven?_cons]
      case isFalse hrule =>
        rw [h.1 (by simpa using hrule), Option.or_none]

theorem get?_of_isEmpty
    {attributes : Attributes} (h : attributes.isEmpty = true) (key : Atom) :
    attributes.get? key = none := by
  rw [Attributes.isEmpty, List.isEmpty_iff] at h
  rw [Attributes.get?, h, List.lookup_nil]

theorem defaultsKind?_eq_some_iff
    {entity : Entity} {kind : DefaultsKind} :
    entity.defaultsKind? = some kind ↔ entity = kind.entity := by
  cases entity <;> cases kind <;> decide

/-- Of rules that become defaults, the last one of a kind that sets a key gives its default. -/
theorem get?_foldl_defaults
    (rules : List Rule) (scope : Scope) (kind : DefaultsKind) (key : Atom) :
    (((rules.filterMap fun rule =>
          rule.selector.entity.defaultsKind?.map fun kind =>
            Statement.defaults kind rule.attributes).foldl Scope.behind scope).get kind).get? key =
      (lastGiven? (rules.filter fun rule => rule.selector.entity = kind.entity) key).or
        ((scope.get kind).get? key) := by
  induction rules generalizing scope with
  | nil =>
      rfl
  | cons rule rest ih =>
      rw [List.filterMap_cons, List.filter_cons]
      by_cases hentity : rule.selector.entity = kind.entity
      · have hkind := defaultsKind?_eq_some_iff.2 hentity
        rw [if_pos (decide_eq_true hentity), lastGiven?_cons, Option.or_assoc]
        simp only [hkind, Option.map_some, List.foldl_cons, ih, Scope.get?_behind_defaults, if_true]
      · cases hkind : rule.selector.entity.defaultsKind? with
        | none =>
            simp only [Option.map_none, ih, hentity, decide_false, Bool.false_eq_true, if_false]
        | some other =>
            have hother : other ≠ kind := by
              rintro rfl
              exact hentity (defaultsKind?_eq_some_iff.1 hkind)
            simp only [Option.map_some, List.foldl_cons, ih, Scope.get?_behind_defaults, hother,
              hentity, decide_false, Bool.false_eq_true, if_false]

theorem eq_general_iff
    {selector : Selector} {entity : Entity} :
    selector = .general entity ↔ selector.entity = entity ∧ selector.isGeneral = true := by
  obtain ⟨own, names, hascending⟩ := selector
  simp [Selector.general, Selector.isGeneral, ClassSet.isEmpty, ClassSet.empty]

/-- A selector whose rules become defaults: it asks for no classes and is about nodes or edges. -/
def Selector.givesDefaults (selector : Selector) : Bool :=
  selector = .general .node || selector = .general .edge

theorem givesDefaults_eq
    (selector : Selector) :
    selector.givesDefaults = (selector.isGeneral && selector.entity.defaultsKind?.isSome) := by
  rw [Bool.eq_iff_iff, Selector.givesDefaults, Bool.or_eq_true, decide_eq_true_iff,
    decide_eq_true_iff, eq_general_iff, eq_general_iff, Bool.and_eq_true]
  cases selector.entity <;> simp [Entity.defaultsKind?]

/-- The defaults that a stylesheet puts in front come from the rules that give some. -/
theorem directives_eq_filterMap
    (stylesheet : Stylesheet) :
    stylesheet.directives =
      (stylesheet.rules.filter fun rule =>
          !rule.attributes.isEmpty && rule.selector.givesDefaults).filterMap
        fun rule =>
          rule.selector.entity.defaultsKind?.map fun kind => .defaults kind rule.attributes := by
  rw [Stylesheet.directives, List.filterMap_filter, List.filterMap_filter]
  refine List.filterMap_congr fun rule _ => ?_
  rw [givesDefaults_eq]
  cases rule.selector.entity.defaultsKind? <;> simp

/-- The defaults that a stylesheet puts in front are those of its last general rules. -/
theorem get?_directives
    (stylesheet : Stylesheet) (kind : DefaultsKind) (key : Atom) :
    ((stylesheet.directives.foldl Scope.behind .empty).get kind).get? key =
      lastGiven? (stylesheet.rules.filter fun rule => rule.selector = .general kind.entity)
        key := by
  have hempty : (Scope.empty.get kind).get? key = none := by
    cases kind <;> rfl
  have hfilled :
      (stylesheet.rules.filter fun rule =>
          !rule.attributes.isEmpty && rule.selector.isGeneral).filter
            (fun rule => rule.selector.entity = kind.entity) =
        (stylesheet.rules.filter fun rule => rule.selector = .general kind.entity).filter
          fun rule => !rule.attributes.isEmpty := by
    rw [List.filter_filter, List.filter_filter]
    refine List.filter_congr fun rule _ => ?_
    rw [Bool.eq_iff_iff]
    simp only [Bool.and_eq_true, decide_eq_true_eq, eq_general_iff]
    tauto
  rw [Stylesheet.directives, get?_foldl_defaults, hempty, Option.or_none, hfilled]
  refine lastGiven?_filter fun rule _ hrule => get?_of_isEmpty ?_ key
  simpa using hrule

end GeneralRules

section Precedence

/-- The value of a key of an element under a stylesheet: its own value; without one that of the
last rule with classes that selects it, in the order of precedence; then the default that reaches
it; and at last the value of the last general rule for its kind. -/
def Stylesheet.resolved?
    (stylesheet : Stylesheet) (occurrence : Occurrence) (key : Atom) : Option Atom :=
  (occurrence.own.get? key).or <|
    (lastGiven?
        (stylesheet.precedence.filter fun rule =>
          rule.Selects occurrence.entity occurrence.own.classNames) key).or <|
      (occurrence.inherited.get? key).or <|
        lastGiven?
          (stylesheet.rules.filter fun rule => rule.selector = .general occurrence.entity) key

theorem get?_own_of_isImage
    {stylesheet : Stylesheet} {base : Scope} {occurrence image : Occurrence}
    (h : IsImage stylesheet.classRules base occurrence image) (key : Atom) :
    image.own.get? key =
      (occurrence.own.get? key).or
        (lastGiven?
          (stylesheet.precedence.filter fun rule =>
            rule.Selects occurrence.entity occurrence.own.classNames) key) := by
  rw [h.own, get?_styledAttributes, Stylesheet.classRules, List.filter_filter,
    Stylesheet.cascade_eq_precedence]
  congr 2
  refine List.filter_congr fun rule _ => ?_
  rw [Bool.eq_iff_iff, selects_iff, decide_eq_true_iff]

/-- An element at any depth stands in the styled graph at the same place, only that the defaults of
the general rules stand in front of the outermost statements.  Every key has the effective value
that the order of precedence gives it. -/
theorem apply_effective
    (stylesheet : Stylesheet) (graph : Graph) (index : Nat) (inner : List Nat)
    {occurrence : Occurrence} (h : graph.occurrence? (index :: inner) = some occurrence) :
    ∃ image,
      (stylesheet.apply graph).occurrence? ((stylesheet.directives.length + index) :: inner) =
          some image ∧
        image.element = occurrence.element ∧
        ∀ key, image.effective.get? key = stylesheet.resolved? occurrence key := by
  have hraised := Scope.raised_empty (stylesheet.directives.foldl Scope.behind .empty)
  obtain ⟨image, himage, his⟩ :=
    occurrenceAmong?_styledList stylesheet.classRules graph.content.statements hraised h
  have hstatements :
      (stylesheet.apply graph).content.statements =
        stylesheet.directives ++
          Statement.styledList stylesheet.classRules graph.content.statements :=
    congrArg (· ++ _) (statements_generalContent stylesheet)
  refine ⟨image, ?_, his.element, fun key => ?_⟩
  · rw [Graph.occurrence?, hstatements, occurrenceAmong?_append]
    exact himage
  · rw [Occurrence.effective, Attributes.get?_overlay, get?_own_of_isImage his, his.inherited,
      get?_directives, Option.or_assoc]
    rfl

/-- In a subgraph the five sources of a value come into play one after the other. -/
theorem apply_effective_nested :
    let general : Rule :=
      ⟨.general .node, .ofList [(.text "a", .text "1"), (.text "b", .text "1"),
        (.text "c", .text "1"), (.text "d", .text "1")]⟩
    let classes : Rule :=
      ⟨⟨.node, .ofList ["x"]⟩, .ofList [(.text "b", .text "3"), (.text "a", .text "3")]⟩
    let inner : List Statement :=
      [.defaults .node (.ofList [(.text "c", .text "2"), (.text "b", .text "2")]),
        .node (.text "n") (.ofList [(.text "class", .text "x"), (.text "a", .text "4")])]
    let graph : Graph := ⟨none, false, true, .ofStatements [.subgraph none .empty inner]⟩
    ∃ image, (Stylesheet.apply ⟨[classes, general]⟩ graph).occurrence? [1, 1] = some image ∧
      [image.effective.get? (.text "a"), image.effective.get? (.text "b"),
          image.effective.get? (.text "c"), image.effective.get? (.text "d"),
          image.effective.get? (.text "e")] =
        [some (.text "4"), some (.text "3"), some (.text "2"), some (.text "1"), none] := by
  intro general classes inner graph
  obtain ⟨image, himage, -, heffective⟩ :=
    apply_effective ⟨[classes, general]⟩ graph 0 [1] rfl
  refine ⟨image, himage, ?_⟩
  simp only [heffective]
  decide

end Precedence

end DotCascade
