import DotCascade.Attributes
import DotCascade.Text.Pieces

/-!
# Graphs

A graph has a content, and so has each of its subgraphs: attributes of its own
and a list of statements.  A statement gives defaults to the nodes or edges that
come after it, or declares a node, an edge between two node references, or a
subgraph.

The order of statements counts, because defaults reach only what follows them.
-/

namespace DotCascade

/-- A place on the border of a node: the name of a port and perhaps a point of the compass. -/
structure Port where
  name : Atom
  point : Option Atom
deriving DecidableEq

/-- A node as the end of an edge, perhaps at one of its ports. -/
structure NodeRef where
  id : Atom
  port : Option Port
deriving DecidableEq

/-- The kinds of element that a statement can give defaults to. -/
inductive DefaultsKind where
  | node
  | edge
deriving DecidableEq

/-- A statement of a graph. -/
inductive Statement where
  /-- Defaults for the nodes or the edges that come later. -/
  | defaults (kind : DefaultsKind) (attributes : Attributes)
  | node (id : Atom) (attributes : Attributes)
  | edge (head tail : NodeRef) (attributes : Attributes)
  /-- A nested content, perhaps with a name. -/
  | subgraph
      (id : Option Atom)
      (attributes : Attributes)
      (statements : List Statement)

section Equality

mutual

/-- Equality of two statements is decided by comparing them part by part. -/
def Statement.decEq : (a b : Statement) → Decidable (a = b)
  | .defaults k as, .defaults l bs =>
      if h : k = l ∧ as = bs then isTrue (by rw [h.1, h.2])
      else isFalse (by simpa using h)
  | .node i as, .node j bs =>
      if h : i = j ∧ as = bs then isTrue (by rw [h.1, h.2])
      else isFalse (by simpa using h)
  | .edge u v as, .edge x y bs =>
      if h : u = x ∧ v = y ∧ as = bs then isTrue (by rw [h.1, h.2.1, h.2.2])
      else isFalse (by simpa using h)
  | .subgraph i as ss, .subgraph j bs ts =>
      if h : i = j ∧ as = bs then
        match Statement.decEqList ss ts with
        | isTrue hs => isTrue (by rw [h.1, h.2, hs])
        | isFalse hs => isFalse fun heq => hs (by injection heq)
      else isFalse fun heq => h (by injection heq with hi has; exact ⟨hi, has⟩)
  | .defaults _ _, .node _ _ => isFalse nofun
  | .defaults _ _, .edge _ _ _ => isFalse nofun
  | .defaults _ _, .subgraph _ _ _ => isFalse nofun
  | .node _ _, .defaults _ _ => isFalse nofun
  | .node _ _, .edge _ _ _ => isFalse nofun
  | .node _ _, .subgraph _ _ _ => isFalse nofun
  | .edge _ _ _, .defaults _ _ => isFalse nofun
  | .edge _ _ _, .node _ _ => isFalse nofun
  | .edge _ _ _, .subgraph _ _ _ => isFalse nofun
  | .subgraph _ _ _, .defaults _ _ => isFalse nofun
  | .subgraph _ _ _, .node _ _ => isFalse nofun
  | .subgraph _ _ _, .edge _ _ _ => isFalse nofun

/-- Equality of two lists of statements is decided statement by statement. -/
def Statement.decEqList : (as bs : List Statement) → Decidable (as = bs)
  | [], [] => isTrue rfl
  | [], _ :: _ => isFalse nofun
  | _ :: _, [] => isFalse nofun
  | a :: as, b :: bs =>
      match Statement.decEq a b with
      | isTrue h =>
          match Statement.decEqList as bs with
          | isTrue t => isTrue (by rw [h, t])
          | isFalse t => isFalse (by simp [t])
      | isFalse h => isFalse (by simp [h])

end

instance : DecidableEq Statement :=
  Statement.decEq

end Equality

/-- What a graph or a subgraph holds. -/
structure Content where
  attributes : Attributes
  statements : List Statement
deriving DecidableEq

namespace Content

/-- The content without attributes and statements. -/
def empty : Content :=
  ⟨Attributes.empty, []⟩

/-- The content of some statements alone. -/
def ofStatements (statements : List Statement) : Content :=
  ⟨Attributes.empty, statements⟩

/-- The content of some attributes alone. -/
def ofAttributes (attributes : Attributes) : Content :=
  ⟨attributes, []⟩

/-- The same content with a statement at its end. -/
def withStatement (content : Content) (statement : Statement) : Content :=
  { content with statements := content.statements ++ [statement] }

/-- The same content with further attributes set. -/
def withAttributes (content : Content) (attributes : Attributes) : Content :=
  { content with attributes := content.attributes.overlay attributes }

/-- Two contents one after the other; of two values of a key the second one counts. -/
def merge (first second : Content) : Content :=
  ⟨first.attributes.overlay second.attributes, first.statements ++ second.statements⟩

/-- A content as one statement. -/
def toSubgraph (content : Content) (id : Option Atom) : Statement :=
  .subgraph id content.attributes content.statements

end Content

/-- A whole graph. -/
structure Graph where
  id : Option Atom
  strict : Bool
  directed : Bool
  content : Content
deriving DecidableEq

namespace Graph

/-- The directed graph without name, attributes and statements. -/
def empty : Graph :=
  ⟨none, false, true, Content.empty⟩

end Graph

section Classes

/-- The class names that an element lists under its key for classes, in the order of writing.
Only a text value lists classes, and empty names are left out. -/
def Attributes.classNames (attributes : Attributes) : List String :=
  match attributes.get? (.text "class") with
  | some (.text value) =>
      ((Text.pieces ',' value.toList).filter fun piece => !piece.isEmpty).map String.ofList
  | _ => []

end Classes

end DotCascade
