import DotCascade.Atom
import DotCascade.Graph.Basic
import DotCascade.Markup.Reader

/-!
# Atoms that are written faithfully

The written form of an atom says what the atom is only if nothing in it is taken
for something else.  A text must not hold a backslash that would be read together
with a double quote, a line feed or the closing quote behind it.  Markup must be
normal, and its runs, names and tag attributes must be such as a tag can hold.

`Graph.atoms` lists all atoms of a graph: its names, its ports, and the keys and
values of its attributes at every depth.
-/

namespace DotCascade

/-- Of the pairs of a backslash and the character behind it, counted from the left, none ends with
a double quote, a line feed or nothing. -/
def escapeSafe : List Char → Bool
  | '\\' :: c :: rest => c ≠ '"' && c ≠ '\n' && escapeSafe rest
  | ['\\'] => false
  | _ :: rest => escapeSafe rest
  | [] => true

/-- A character that begins no pair is no backslash. -/
theorem ne_backslash
    {c : Char} {rest : List Char}
    (hpair : ∀ d later, c = '\\' → rest = d :: later → False)
    (hlast : c = '\\' → rest = [] → False) :
    c ≠ '\\' := by
  intro hc
  cases rest with
  | nil =>
      exact hlast hc rfl
  | cons d later =>
      exact hpair d later hc rfl

theorem escapeSafe_cons
    {c : Char} (hc : c ≠ '\\') (rest : List Char) :
    escapeSafe (c :: rest) = escapeSafe rest := by
  rw [escapeSafe]
  · intro d later hslash _
    exact hc hslash
  · intro hslash _
    exact hc hslash

theorem escapeSafe_of_forall
    {text : List Char} (h : ∀ c ∈ text, c ≠ '\\') :
    escapeSafe text = true := by
  induction text with
  | nil =>
      rfl
  | cons c rest ih =>
      rw [List.forall_mem_cons] at h
      rw [escapeSafe_cons h.1]
      exact ih h.2

/-- Texts whose pairs are safe can be joined. -/
theorem escapeSafe_append
    {text later : List Char} (h : escapeSafe text = true) (hlater : escapeSafe later = true) :
    escapeSafe (text ++ later) = true := by
  fun_induction escapeSafe text with
  | case1 c rest ih =>
      simp only [Bool.and_eq_true] at h
      simp only [List.cons_append, escapeSafe, Bool.and_eq_true]
      exact ⟨h.1, ih h.2⟩
  | case2 =>
      simp at h
  | case3 c rest hpair hlast ih =>
      rw [List.cons_append, escapeSafe_cons (ne_backslash hpair hlast)]
      exact ih h
  | case4 =>
      exact hlater

namespace Markup

/-- The name of a tag can be read again. -/
def isTagName : List Char → Bool
  | [] => false
  | c :: rest => Text.isWordStart c && rest.all Text.isWordPart

/-- The name of a tag attribute can be read again. -/
def isAttributeName : List Char → Bool
  | [] => false
  | c :: rest => Text.isAttributeStart c && rest.all Text.isAttributePart

/-- The value of a tag attribute holds no angle bracket. -/
def isBracketFree (value : List Char) : Bool :=
  value.all isRunChar

/-- The value of a tag attribute does not hold both kinds of quotes. -/
def isQuotable (value : List Char) : Bool :=
  !(value.contains '"' && value.contains '\x27')

/-- A tag attribute can be read again, if the brackets around it allow for it. -/
def TagAttribute.isWritable (tag : TagAttribute) : Bool :=
  isAttributeName tag.1.toList && isQuotable tag.2.toList

/-- A node is a run of text. -/
def Node.isRun : Node → Bool
  | .text _ => true
  | .element _ _ _ => false

mutual

/-- No run of text in a node is empty or stands beside another one. -/
def Node.isNormal : Node → Bool
  | .text run => run ≠ ""
  | .element _ _ children => isNormal children

/-- No run of text is empty or stands beside another one, at any depth. -/
def isNormal : List Node → Bool
  | [] => true
  | node :: rest =>
      node.isNormal && isNormal rest && !(node.isRun && rest.head?.any Node.isRun)

end

mutual

/-- Every run, name and tag attribute of a node is such as a tag can hold. -/
def Node.isWritable : Node → Bool
  | .text run => run.toList.all isRunChar
  | .element name attributes children =>
      isTagName name.text.toList &&
        (children.isEmpty || name.text.toList.all fun c => !Text.isSpace c) &&
        attributes.all TagAttribute.isWritable && isWritable children

/-- Every run, name and tag attribute of some nodes is such as a tag can hold. -/
def isWritable : List Node → Bool
  | [] => true
  | node :: rest => node.isWritable && isWritable rest

end

mutual

/-- The values of the tag attributes in a node, at every depth. -/
def Node.tagValues : Node → List String
  | .text _ => []
  | .element _ attributes children => attributes.map Prod.snd ++ tagValues children

/-- The values of the tag attributes in some nodes, at every depth. -/
def tagValues : List Node → List String
  | [] => []
  | node :: rest => node.tagValues ++ tagValues rest

end

/-- No value of a tag attribute holds an angle bracket. -/
def hasPlainTags (nodes : List Node) : Bool :=
  (tagValues nodes).all fun value => isBracketFree value.toList

/-- Normal markup that tags can hold, without brackets in quotes. -/
def isPrintable (nodes : List Node) : Bool :=
  isNormal nodes && isWritable nodes && hasPlainTags nodes

end Markup

/-- An atom that is written faithfully. -/
def Atom.isFaithful : Atom → Bool
  | text value => escapeSafe value.toList
  | markup nodes => Markup.isPrintable nodes

/-- All of some atoms are written faithfully. -/
def AllFaithful (atoms : List Atom) : Prop :=
  ∀ atom ∈ atoms, atom.isFaithful = true

theorem allFaithful_append
    {atoms later : List Atom} :
    AllFaithful (atoms ++ later) ↔ AllFaithful atoms ∧ AllFaithful later :=
  List.forall_mem_append

theorem allFaithful_cons
    {atom : Atom} {later : List Atom} :
    AllFaithful (atom :: later) ↔ atom.isFaithful = true ∧ AllFaithful later :=
  List.forall_mem_cons

section Atoms

/-- The keys and values of some attributes. -/
def Attributes.atoms (attributes : Attributes) : List Atom :=
  attributes.entries.flatMap fun (key, value) => [key, value]

/-- The name and the point of a port. -/
def Port.atoms (port : Port) : List Atom :=
  port.name :: port.point.toList

/-- The atoms of a node reference. -/
def NodeRef.atoms (ref : NodeRef) : List Atom :=
  ref.id :: ref.port.toList.flatMap Port.atoms

mutual

/-- The atoms of a statement, at every depth. -/
def Statement.atoms : Statement → List Atom
  | .defaults _ attributes => attributes.atoms
  | .node id attributes => id :: attributes.atoms
  | .edge head tail attributes => head.atoms ++ tail.atoms ++ attributes.atoms
  | .subgraph id attributes statements =>
      id.toList ++ attributes.atoms ++ Statement.atomsList statements

/-- The atoms of several statements, at every depth. -/
def Statement.atomsList : List Statement → List Atom
  | [] => []
  | statement :: rest => statement.atoms ++ Statement.atomsList rest

end

/-- The atoms of a content, at every depth. -/
def Content.atoms (content : Content) : List Atom :=
  content.attributes.atoms ++ Statement.atomsList content.statements

/-- The atoms of a graph, at every depth. -/
def Graph.atoms (graph : Graph) : List Atom :=
  graph.id.toList ++ graph.content.atoms

end Atoms

end DotCascade
