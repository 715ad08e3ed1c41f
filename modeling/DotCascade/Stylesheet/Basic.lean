import DotCascade.Graph.Basic

/-!
# Stylesheets

A stylesheet is a list of rules.  The selector of a rule names a kind of element
and the classes that an element must have; the rule sets attributes of the
elements that it selects.  The specificity of a selector is the number of its
classes, and a selector without classes is general.
-/

namespace DotCascade

/-- The kinds of element that a rule can select. -/
inductive Entity where
  | node
  | edge
  | graph
deriving DecidableEq

namespace Entity

/-- The kinds of element in the order in which a selector without one names them. -/
def all : List Entity :=
  [node, edge, graph]

/-- The word for a kind of element. -/
def word : Entity → String
  | node => "node"
  | edge => "edge"
  | graph => "graph"

/-- The kind of defaults that reach an element, for the kinds that have defaults. -/
def defaultsKind? : Entity → Option DefaultsKind
  | node => some .node
  | edge => some .edge
  | graph => none

end Entity

/-- The kind of element that defaults reach. -/
def DefaultsKind.entity : DefaultsKind → Entity
  | node => .node
  | edge => .edge

section Names

/-- Puts a name into an ascending list, unless it is there already. -/
def insertName (name : String) : List String → List String
  | [] => [name]
  | first :: rest =>
      if name < first then name :: first :: rest
      else if name = first then first :: rest
      else first :: insertName name rest

theorem mem_insertName
    {name x : String} {names : List String} :
    x ∈ insertName name names ↔ x = name ∨ x ∈ names := by
  induction names with
  | nil => simp [insertName]
  | cons first rest ih =>
      unfold insertName
      split
      case isTrue => simp
      case isFalse =>
        split
        case isTrue h => simp [h]
        case isFalse => rw [List.mem_cons, ih, List.mem_cons]; exact or_left_comm

theorem pairwise_insertName
    {name : String} {names : List String}
    (h : names.Pairwise (· < ·)) :
    (insertName name names).Pairwise (· < ·) := by
  induction names with
  | nil => simp [insertName]
  | cons first rest ih =>
      rw [List.pairwise_cons] at h
      unfold insertName
      split
      case isTrue hlt =>
        refine List.pairwise_cons.2 ⟨?_, List.pairwise_cons.2 h⟩
        intro x hx
        rcases List.mem_cons.1 hx with rfl | hx
        · exact hlt
        · exact String.lt_trans hlt (h.1 x hx)
      case isFalse hlt =>
        split
        case isTrue => exact List.pairwise_cons.2 h
        case isFalse hne =>
          refine List.pairwise_cons.2 ⟨?_, ih h.2⟩
          intro x hx
          rcases mem_insertName.1 hx with rfl | hx
          · exact Decidable.byContradiction fun hgt =>
              hne (String.le_antisymm (String.not_lt.1 hgt) (String.not_lt.1 hlt))
          · exact h.1 x hx

end Names

/-- A set of class names, kept in ascending order of code points. -/
structure ClassSet where
  names : List String
  ascending : names.Pairwise (· < ·)
deriving DecidableEq

namespace ClassSet

/-- The set without classes. -/
def empty : ClassSet :=
  ⟨[], List.Pairwise.nil⟩

/-- The set with one more class. -/
def insert (name : String) (classes : ClassSet) : ClassSet :=
  ⟨insertName name classes.names, pairwise_insertName classes.ascending⟩

/-- The set of the names in a list. -/
def ofList (names : List String) : ClassSet :=
  names.foldr insert empty

/-- The number of classes. -/
def size (classes : ClassSet) : Nat :=
  classes.names.length

/-- The set has no classes. -/
def isEmpty (classes : ClassSet) : Bool :=
  classes.names.isEmpty

/-- Every class of the first set is in the second. -/
def subset (a b : ClassSet) : Bool :=
  a.names.all b.names.contains

@[simp] theorem mem_names_ofList
    {x : String} {names : List String} :
    x ∈ (ofList names).names ↔ x ∈ names := by
  induction names with
  | nil => simp [ofList, empty]
  | cons name rest ih =>
      have hstep : ofList (name :: rest) = insert name (ofList rest) := rfl
      rw [hstep, insert, mem_insertName, ih, List.mem_cons]

theorem subset_iff
    {a b : ClassSet} :
    a.subset b ↔ ∀ x ∈ a.names, x ∈ b.names := by
  simp [subset]

end ClassSet

/-- The classes of an element. -/
def Attributes.classes (attributes : Attributes) : ClassSet :=
  .ofList attributes.classNames

/-- What a rule applies to. -/
structure Selector where
  entity : Entity
  classes : ClassSet
deriving DecidableEq

namespace Selector

/-- The selector of every element of a kind. -/
def general (entity : Entity) : Selector :=
  ⟨entity, .empty⟩

/-- The number of classes that a selector asks for. -/
def specificity (selector : Selector) : Nat :=
  selector.classes.size

/-- The selector asks for no classes. -/
def isGeneral (selector : Selector) : Bool :=
  selector.classes.isEmpty

/-- An element of the given kind with the given classes is selected. -/
def matchesElement (selector : Selector) (entity : Entity) (classes : ClassSet) : Bool :=
  selector.entity = entity && selector.classes.subset classes

end Selector

/-- A selector and the attributes that it gives. -/
structure Rule where
  selector : Selector
  attributes : Attributes
deriving DecidableEq

/-- Rules in the order of their declaration. -/
structure Stylesheet where
  rules : List Rule
deriving DecidableEq

namespace Stylesheet

/-- The stylesheet without rules. -/
def empty : Stylesheet :=
  ⟨[]⟩

end Stylesheet

section Same

/-- Two rules that differ in attribute order alone. -/
def Rule.same (a b : Rule) : Bool :=
  a.selector = b.selector && a.attributes.same b.attributes

/-- Two lists of rules that differ in attribute order alone. -/
def Rule.sameList : List Rule → List Rule → Bool
  | [], [] => true
  | a :: as, b :: bs => a.same b && Rule.sameList as bs
  | _, _ => false

/-- Two stylesheets that differ in attribute order alone. -/
def Stylesheet.same (a b : Stylesheet) : Bool :=
  Rule.sameList a.rules b.rules

end Same

end DotCascade
