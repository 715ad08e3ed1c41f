/-!
# Markup trees

The value of an atom in angle brackets is a list of markup nodes.  A node is a
run of text or an element; an element has a name, tag attributes in the order in
which they are written, and children.  Equality is structural: the way in which
text is split into runs and the order of tag attributes both count.

`normalize` drops empty runs and joins neighbouring ones at every depth.
-/

namespace DotCascade
namespace Markup

/-- The name of an element, which is never empty. -/
structure Name where
  text : String
  nonempty : text ≠ ""
deriving DecidableEq

/-- The name with a given text, unless the text is empty. -/
def Name.ofString? (text : String) : Option Name :=
  if nonempty : text ≠ "" then some ⟨text, nonempty⟩ else none

/-- A tag attribute: its name and its value. -/
abbrev TagAttribute :=
  String × String

/-- A run of text or an element. -/
inductive Node where
  | text (run : String)
  | element
      (name : Name)
      (attributes : List TagAttribute)
      (children : List Node)

section Equality

mutual

/-- Equality of two nodes is decided by comparing them part by part. -/
def Node.decEq : (a b : Node) → Decidable (a = b)
  | .text r, .text s =>
      if h : r = s then isTrue (by rw [h]) else isFalse (by simpa using h)
  | .text _, .element _ _ _ => isFalse nofun
  | .element _ _ _, .text _ => isFalse nofun
  | .element n as cs, .element m bs ds =>
      if hn : n = m then
        if ha : as = bs then
          match Node.decEqList cs ds with
          | isTrue hc => isTrue (by rw [hn, ha, hc])
          | isFalse hc => isFalse (by simp [hc])
        else isFalse (by simp [ha])
      else isFalse (by simp [hn])

/-- Equality of two lists of nodes is decided node by node. -/
def Node.decEqList : (as bs : List Node) → Decidable (as = bs)
  | [], [] => isTrue rfl
  | [], _ :: _ => isFalse nofun
  | _ :: _, [] => isFalse nofun
  | a :: as, b :: bs =>
      match Node.decEq a b with
      | isTrue h =>
          match Node.decEqList as bs with
          | isTrue t => isTrue (by rw [h, t])
          | isFalse t => isFalse (by simp [t])
      | isFalse h => isFalse (by simp [h])

end

instance : DecidableEq Node :=
  Node.decEq

end Equality

section Normalize

/-- A run of text in front of normalized nodes, joined to a run that they begin with. -/
def prependRun (run : String) : List Node → List Node
  | .text next :: rest => .text (run ++ next) :: rest
  | nodes => if run = "" then nodes else .text run :: nodes

mutual

/-- The nodes that a node contributes in front of normalized ones. -/
def Node.normalizeOnto : Node → List Node → List Node
  | .text run, rest => prependRun run rest
  | .element name attributes children, rest =>
      .element name attributes (normalize children) :: rest

/-- The same nodes without empty runs of text and without neighbouring ones, at every depth. -/
def normalize : List Node → List Node
  | [] => []
  | node :: rest => node.normalizeOnto (normalize rest)

end

end Normalize

end Markup
end DotCascade
