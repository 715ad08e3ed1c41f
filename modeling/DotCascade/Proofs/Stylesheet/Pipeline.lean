import DotCascade.Proofs.Graph.Merging
import DotCascade.Proofs.Stylesheet.Cascade

/-!
# Several stylesheets, one after the other

A graph is styled by a row of stylesheets.  To a later stylesheet, what an earlier
one has set is as good as set by the element itself, so the first stylesheet with a
rule that selects an element and sets a key gives the value (`FirstGives`).  The
defaults of a later stylesheet stand in front of those of an earlier one.

This rests on one invariant: rules with classes never change the classes of an
element (`classNames_styledAttributes`).  An element without classes is selected by no
such rule, and an element with classes has a value of its own that lists them.  So all
stylesheets of a row select the same elements, whatever the earlier ones have set
(`applyAll_cascades`).
-/

namespace DotCascade

section Images

mutual

/-- A statement and its image, in which the attributes of every element obey a law. -/
inductive ImageUnder (law : Entity → Attributes → Attributes → Prop) :
    Statement → Statement → Prop
  | defaults
      (kind : DefaultsKind) (attributes : Attributes) :
      ImageUnder law (.defaults kind attributes) (.defaults kind attributes)
  | node
      {id : Atom} {own final : Attributes}
      (h : law .node own final) :
      ImageUnder law (.node id own) (.node id final)
  | edge
      {head tail : NodeRef} {own final : Attributes}
      (h : law .edge own final) :
      ImageUnder law (.edge head tail own) (.edge head tail final)
  | subgraph
      {id : Option Atom} {own final : Attributes} {statements images : List Statement}
      (h : law .graph own final)
      (hinner : ImagesUnder law statements images) :
      ImageUnder law (.subgraph id own statements) (.subgraph id final images)

/-- Statements and their images, one by one. -/
inductive ImagesUnder (law : Entity → Attributes → Attributes → Prop) :
    List Statement → List Statement → Prop
  | nil : ImagesUnder law [] []
  | cons
      {statement image : Statement} {statements images : List Statement}
      (h : ImageUnder law statement image)
      (hlater : ImagesUnder law statements images) :
      ImagesUnder law (statement :: statements) (image :: images)

end

variable {law first second : Entity → Attributes → Attributes → Prop}

mutual

theorem imageUnder_refl
    (hlaw : ∀ entity own, law entity own own) (statement : Statement) :
    ImageUnder law statement statement := by
  match statement with
  | .defaults kind attributes =>
      exact .defaults kind attributes
  | .node id attributes =>
      exact .node (hlaw .node attributes)
  | .edge head tail attributes =>
      exact .edge (hlaw .edge attributes)
  | .subgraph id attributes statements =>
      exact .subgraph (hlaw .graph attributes) (imagesUnder_refl hlaw statements)

theorem imagesUnder_refl
    (hlaw : ∀ entity own, law entity own own) (statements : List Statement) :
    ImagesUnder law statements statements := by
  match statements with
  | [] =>
      exact .nil
  | statement :: rest =>
      exact .cons (imageUnder_refl hlaw statement) (imagesUnder_refl hlaw rest)

end

mutual

/-- The image of an image obeys the law that the two laws make together. -/
theorem ImageUnder.trans
    (hlaw : ∀ entity own middle final,
      first entity own middle → second entity middle final → law entity own final)
    {statement middle image : Statement}
    (hfirst : ImageUnder first statement middle) (hsecond : ImageUnder second middle image) :
    ImageUnder law statement image := by
  match hfirst, hsecond with
  | .defaults kind attributes, .defaults _ _ =>
      exact .defaults kind attributes
  | .node h, .node h' =>
      exact .node (hlaw .node _ _ _ h h')
  | .edge h, .edge h' =>
      exact .edge (hlaw .edge _ _ _ h h')
  | .subgraph h hinner, .subgraph h' hinner' =>
      exact .subgraph (hlaw .graph _ _ _ h h') (hinner.trans hlaw hinner')

theorem ImagesUnder.trans
    (hlaw : ∀ entity own middle final,
      first entity own middle → second entity middle final → law entity own final)
    {statements middles images : List Statement}
    (hfirst : ImagesUnder first statements middles)
    (hsecond : ImagesUnder second middles images) :
    ImagesUnder law statements images := by
  match hfirst, hsecond with
  | .nil, .nil =>
      exact .nil
  | .cons h hlater, .cons h' hlater' =>
      exact .cons (h.trans hlaw h') (hlater.trans hlaw hlater')

end

mutual

/-- The styled attributes of an element are those that rules make of its own ones. -/
theorem imageUnder_styled
    (rules : List Rule) (statement : Statement) :
    ImageUnder (fun entity own final => final = styledAttributes entity rules own) statement
      (statement.styled rules) := by
  match statement with
  | .defaults kind attributes =>
      exact .defaults kind attributes
  | .node id attributes =>
      exact .node rfl
  | .edge head tail attributes =>
      exact .edge rfl
  | .subgraph id attributes statements =>
      exact .subgraph rfl (imagesUnder_styledList rules statements)

theorem imagesUnder_styledList
    (rules : List Rule) (statements : List Statement) :
    ImagesUnder (fun entity own final => final = styledAttributes entity rules own) statements
      (Statement.styledList rules statements) := by
  match statements with
  | [] =>
      exact .nil
  | statement :: rest =>
      exact .cons (imageUnder_styled rules statement) (imagesUnder_styledList rules rest)

end

end Images

section Classes

/-- No rule with classes selects an element without classes. -/
theorem filter_matchesElement_eq_nil
    {rules : List Rule} (hrules : ∀ rule ∈ rules, rule.selector.isGeneral = false)
    {attributes : Attributes} (h : attributes.classNames = []) (entity : Entity) :
    rules.filter (fun rule => rule.selector.matchesElement entity attributes.classes) = [] := by
  rw [List.filter_eq_nil_iff]
  intro rule hrule hmatches
  have hselects : rule.Selects entity attributes.classNames :=
    selects_iff.1 (by rw [hmatches, hrules rule hrule]; rfl)
  obtain ⟨hne, -, hnames⟩ := hselects
  obtain ⟨name, hname⟩ := List.exists_mem_of_ne_nil _ hne
  rw [h] at hnames
  exact absurd (hnames name hname) List.not_mem_nil

/-- Attributes with the same value of the key for classes list the same classes. -/
theorem classNames_congr
    {a b : Attributes} (h : a.get? (.text "class") = b.get? (.text "class")) :
    a.classNames = b.classNames := by
  rw [Attributes.classNames, Attributes.classNames, h]

/-- Rules with classes leave an element without classes as it is. -/
theorem styledAttributes_of_classNames_eq_nil
    {rules : List Rule} (hrules : ∀ rule ∈ rules, rule.selector.isGeneral = false)
    (entity : Entity) {own : Attributes} (h : own.classNames = []) :
    styledAttributes entity rules own = own := by
  rw [styledAttributes, filter_matchesElement_eq_nil hrules h]
  exact ofList_entries own

/-- Rules with classes leave the classes of an element as they are. -/
theorem classNames_styledAttributes
    {rules : List Rule} (hrules : ∀ rule ∈ rules, rule.selector.isGeneral = false)
    (entity : Entity) (own : Attributes) :
    (styledAttributes entity rules own).classNames = own.classNames := by
  cases hclass : own.get? (.text "class") with
  | some value =>
      refine classNames_congr ?_
      rw [get?_styledAttributes, hclass]
      rfl
  | none =>
      have hnone : own.classNames = [] := by
        rw [Attributes.classNames, hclass]
      rw [styledAttributes_of_classNames_eq_nil hrules entity hnone]

theorem classes_styledAttributes
    {rules : List Rule} (hrules : ∀ rule ∈ rules, rule.selector.isGeneral = false)
    (entity : Entity) (own : Attributes) :
    (styledAttributes entity rules own).classes = own.classes := by
  rw [Attributes.classes, Attributes.classes, classNames_styledAttributes hrules]

theorem isGeneral_of_mem_classRules
    {stylesheet : Stylesheet} {rule : Rule} (h : rule ∈ stylesheet.classRules) :
    rule.selector.isGeneral = false := by
  simpa using (List.mem_filter.1 h).2

end Classes

section Law

/-- Some rule of a stylesheet selects elements of a kind with some classes and sets a key. -/
def Stylesheet.Gives
    (stylesheet : Stylesheet) (entity : Entity) (names : List String) (key : Atom) : Prop :=
  ∃ rule ∈ stylesheet.rules, rule.Selects entity names ∧ rule.attributes.get? key ≠ none

/-- The first of some stylesheets that gives a key any value gives it this one: the value of the
last of its rules, in the order of precedence, that selects the element and sets the key. -/
def FirstGives
    (stylesheets : List Stylesheet) (entity : Entity) (names : List String)
    (key value : Atom) : Prop :=
  ∃ earlier stylesheet later,
    stylesheets = earlier ++ stylesheet :: later ∧
      (∀ other ∈ earlier, ¬ other.Gives entity names key) ∧
      LastGives stylesheet.precedence (fun rule => rule.Selects entity names) key value

/-- Every key of an element has its own value if there is one, else the one that the first
stylesheet gives that gives any; without such a stylesheet it is absent. -/
def ResolvesFirst
    (stylesheets : List Stylesheet) (entity : Entity) (own final : Attributes) : Prop :=
  ∀ key value,
    final.get? key = some value ↔
      own.get? key = some value ∨
        own.get? key = none ∧ FirstGives stylesheets entity own.classNames key value

/-- An element has the same set of classes as before. -/
def KeepsClasses (_ : Entity) (own final : Attributes) : Prop :=
  final.classes = own.classes

variable {stylesheet : Stylesheet} {stylesheets : List Stylesheet} {entity : Entity}
variable {names : List String} {key value : Atom}

theorem mem_precedence_iff
    {rule : Rule} :
    rule ∈ stylesheet.precedence ↔
      rule ∈ stylesheet.rules ∧ rule.attributes.isEmpty = false := by
  rw [← Stylesheet.cascade_eq_precedence, Stylesheet.cascade, List.mem_mergeSort, List.mem_filter,
    Bool.not_eq_true']

/-- A rule that sets something is one of those that apply. -/
theorem mem_precedence_of_get?
    {rule : Rule} (h : rule ∈ stylesheet.rules) (hkey : rule.attributes.get? key ≠ none) :
    rule ∈ stylesheet.precedence := by
  refine mem_precedence_iff.2 ⟨h, ?_⟩
  rw [Bool.eq_false_iff]
  intro hempty
  rw [Attributes.isEmpty, List.isEmpty_iff] at hempty
  exact hkey (by rw [Attributes.get?, hempty, List.lookup_nil])

theorem firstGives_cons_iff :
    FirstGives (stylesheet :: stylesheets) entity names key value ↔
      LastGives stylesheet.precedence (fun rule => rule.Selects entity names) key value ∨
        ¬ stylesheet.Gives entity names key ∧
          FirstGives stylesheets entity names key value := by
  constructor
  · rintro ⟨earlier, giving, later, hcut, hearlier, hgives⟩
    cases earlier with
    | nil =>
        obtain ⟨rfl, rfl⟩ := List.cons.inj hcut
        exact Or.inl hgives
    | cons other earlier =>
        obtain ⟨rfl, rfl⟩ := List.cons.inj hcut
        rw [List.forall_mem_cons] at hearlier
        exact Or.inr ⟨hearlier.1, earlier, giving, later, rfl, hearlier.2, hgives⟩
  · rintro (hgives | ⟨hnone, earlier, giving, later, rfl, hearlier, hgives⟩)
    · exact ⟨[], stylesheet, stylesheets, rfl, nofun, hgives⟩
    · exact ⟨stylesheet :: earlier, giving, later, rfl,
        List.forall_mem_cons.2 ⟨hnone, hearlier⟩, hgives⟩

theorem not_firstGives_nil :
    ¬ FirstGives [] entity names key value := by
  rintro ⟨earlier, giving, later, hcut, -⟩
  simp at hcut

/-- Behind one stylesheet, an absent key is one that it does not give. -/
theorem get?_styledAttributes_eq_none_iff
    {own : Attributes} :
    (styledAttributes entity stylesheet.classRules own).get? key = none ↔
      own.get? key = none ∧ ¬ stylesheet.Gives entity own.classNames key := by
  rw [get?_styledAttributes, Option.or_eq_none_iff, lastGiven?_eq_none]
  refine and_congr_right fun _ => ⟨?_, ?_⟩
  · rintro hnone ⟨rule, hrule, hselects, hkey⟩
    have hboth := selects_iff.2 hselects
    rw [Bool.and_eq_true] at hboth
    refine hkey (hnone rule (List.mem_filter.2 ⟨List.mem_filter.2 ⟨?_, hboth.2⟩, hboth.1⟩))
    rw [Stylesheet.cascade_eq_precedence]
    exact mem_precedence_of_get? hrule hkey
  · intro hgives rule hrule
    obtain ⟨hclass, hmatches⟩ := List.mem_filter.1 hrule
    obtain ⟨hmem, hgeneral⟩ := List.mem_filter.1 hclass
    rw [Stylesheet.cascade_eq_precedence, mem_precedence_iff] at hmem
    by_contra hkey
    have hselects : rule.Selects entity own.classNames :=
      selects_iff.1 (by rw [hmatches, hgeneral]; rfl)
    exact hgives ⟨rule, hmem.1, hselects, hkey⟩

/-- One more stylesheet in front: what it gives is as good as set by the element itself. -/
theorem resolvesFirst_cons
    {own final : Attributes}
    (h : ResolvesFirst stylesheets entity (styledAttributes entity stylesheet.classRules own)
      final) :
    ResolvesFirst (stylesheet :: stylesheets) entity own final := by
  intro key value
  have hclasses :
      (styledAttributes entity stylesheet.classRules own).classNames = own.classNames :=
    classNames_styledAttributes (fun _ => isGeneral_of_mem_classRules) entity own
  have hone := resolvesElement_styledAttributes stylesheet entity own key value
  rw [h key value, hone, get?_styledAttributes_eq_none_iff, hclasses, firstGives_cons_iff]
  tauto

theorem resolvesFirst_nil
    (entity : Entity) (own : Attributes) :
    ResolvesFirst [] entity own own := by
  intro key value
  simp [not_firstGives_nil]

theorem keepsClasses_styledAttributes
    (stylesheet : Stylesheet) (entity : Entity) (own : Attributes) :
    KeepsClasses entity own (styledAttributes entity stylesheet.classRules own) :=
  classes_styledAttributes (fun _ => isGeneral_of_mem_classRules) entity own

end Law

section Empty

theorem styledAttributes_nil
    (entity : Entity) (own : Attributes) :
    styledAttributes entity [] own = own :=
  ofList_entries own

mutual

theorem styled_nil
    (statement : Statement) :
    statement.styled [] = statement := by
  match statement with
  | .defaults _ _ =>
      rfl
  | .node _ _ | .edge _ _ _ =>
      rw [Statement.styled, styledAttributes_nil]
  | .subgraph _ _ statements =>
      rw [Statement.styled, styledAttributes_nil, styledList_nil statements]

theorem styledList_nil
    (statements : List Statement) :
    Statement.styledList [] statements = statements := by
  match statements with
  | [] =>
      rfl
  | statement :: rest =>
      rw [Statement.styledList, styled_nil statement, styledList_nil rest]

end

/-- A stylesheet without rules may be left out of a row. -/
theorem apply_empty
    (graph : Graph) :
    Stylesheet.empty.apply graph = graph := by
  have hcascade : Stylesheet.empty.cascade = [] := by
    rw [Stylesheet.cascade, Stylesheet.empty, List.filter_nil, List.mergeSort_nil]
  have hcontent : graph.content.styled [] = graph.content := by
    rw [Content.styled, styledAttributes_nil, styledList_nil]
  simp only [Stylesheet.apply, Stylesheet.generalRules, Stylesheet.classRules, hcascade,
    List.filter_nil, hcontent]
  rw [generalContent, List.foldl_nil, empty_merge]

end Empty

section Rows

/-- Statements with every element in them styled by the rules with classes of some stylesheets,
one stylesheet after the other. -/
def styledByAll (stylesheets : List Stylesheet) (statements : List Statement) : List Statement :=
  stylesheets.foldl (fun done stylesheet => Statement.styledList stylesheet.classRules done)
    statements

variable {stylesheet : Stylesheet} {stylesheets : List Stylesheet}

theorem styledList_eq_map
    (rules : List Rule) (statements : List Statement) :
    Statement.styledList rules statements = statements.map (Statement.styled rules) := by
  induction statements with
  | nil =>
      rfl
  | cons statement rest ih =>
      rw [Statement.styledList, ih, List.map_cons]

theorem styledList_append
    (rules : List Rule) (statements later : List Statement) :
    Statement.styledList rules (statements ++ later) =
      Statement.styledList rules statements ++ Statement.styledList rules later := by
  rw [styledList_eq_map, styledList_eq_map, styledList_eq_map, List.map_append]

/-- Defaults are never styled. -/
theorem styledList_directives
    (rules : List Rule) (stylesheet : Stylesheet) :
    Statement.styledList rules stylesheet.directives = stylesheet.directives := by
  unfold Stylesheet.directives
  induction stylesheet.rules.filter _ with
  | nil =>
      rfl
  | cons rule rest ih =>
      rw [List.filterMap_cons]
      split
      · exact ih
      · rename_i directive hdirective
        obtain ⟨kind, -, rfl⟩ := Option.map_eq_some_iff.1 hdirective
        rw [Statement.styledList, ih, Statement.styled]

theorem styledByAll_directives_append
    (stylesheet : Stylesheet) (stylesheets : List Stylesheet) (statements : List Statement) :
    styledByAll stylesheets (stylesheet.directives ++ statements) =
      stylesheet.directives ++ styledByAll stylesheets statements := by
  induction stylesheets generalizing statements with
  | nil =>
      rfl
  | cons next rest ih =>
      have hstep (statements : List Statement) :
          styledByAll (next :: rest) statements =
            styledByAll rest (Statement.styledList next.classRules statements) := rfl
      rw [hstep, hstep, styledList_append, styledList_directives, ih]

/-- The defaults of every stylesheet stand in front of what was there before. -/
theorem statements_applyAll
    (stylesheets : List Stylesheet) (graph : Graph) :
    (applyAll stylesheets graph).content.statements =
      stylesheets.reverse.flatMap Stylesheet.directives ++
        styledByAll stylesheets graph.content.statements := by
  induction stylesheets generalizing graph with
  | nil =>
      rfl
  | cons stylesheet rest ih =>
      have hstatements :
          (stylesheet.apply graph).content.statements =
            stylesheet.directives ++
              Statement.styledList stylesheet.classRules graph.content.statements :=
        congrArg (· ++ _) (statements_generalContent stylesheet)
      have hstep : applyAll (stylesheet :: rest) graph = applyAll rest (stylesheet.apply graph) :=
        rfl
      rw [hstep, ih, hstatements, styledByAll_directives_append, List.reverse_cons,
        List.flatMap_append, List.flatMap_singleton, List.append_assoc]
      rfl

/-- A law of elements that one stylesheet after the other keeps up holds of all images. -/
theorem imagesUnder_styledByAll
    (law : List Stylesheet → Entity → Attributes → Attributes → Prop)
    (hnil : ∀ entity own, law [] entity own own)
    (hcons : ∀ stylesheet stylesheets entity own final,
      law stylesheets entity (styledAttributes entity stylesheet.classRules own) final →
        law (stylesheet :: stylesheets) entity own final)
    (stylesheets : List Stylesheet) (statements : List Statement) :
    ImagesUnder (law stylesheets) statements (styledByAll stylesheets statements) := by
  induction stylesheets generalizing statements with
  | nil =>
      exact imagesUnder_refl hnil statements
  | cons stylesheet rest ih =>
      refine (imagesUnder_styledList stylesheet.classRules statements).trans ?_ (ih _)
      rintro entity own middle final rfl hfinal
      exact hcons stylesheet rest entity own final hfinal

/-- A graph styled by several stylesheets has the defaults of the last one in front, then those of
the one before it, and so on, and behind them the images of its statements.  In every element at
every depth each key has its own value, else the one that the first stylesheet gives that gives
any.  The classes of an element are the same behind any number of the stylesheets. -/
theorem applyAll_cascades
    (stylesheets : List Stylesheet) (graph : Graph) :
    (∃ images,
        (applyAll stylesheets graph).content.statements =
            stylesheets.reverse.flatMap Stylesheet.directives ++ images ∧
          ImagesUnder (ResolvesFirst stylesheets) graph.content.statements images) ∧
      ∀ n, ∃ images,
        (applyAll (stylesheets.take n) graph).content.statements =
            (stylesheets.take n).reverse.flatMap Stylesheet.directives ++ images ∧
          ImagesUnder KeepsClasses graph.content.statements images := by
  refine ⟨⟨_, statements_applyAll stylesheets graph, ?_⟩, fun n =>
    ⟨_, statements_applyAll (stylesheets.take n) graph, ?_⟩⟩
  · exact imagesUnder_styledByAll ResolvesFirst resolvesFirst_nil
      (fun _ _ _ _ _ hfinal => resolvesFirst_cons hfinal) stylesheets graph.content.statements
  · refine imagesUnder_styledByAll (fun _ => KeepsClasses) (fun _ _ => rfl) ?_
      (stylesheets.take n) graph.content.statements
    intro stylesheet _ entity own final hfinal
    exact hfinal.trans (keepsClasses_styledAttributes stylesheet entity own)

end Rows

end DotCascade
