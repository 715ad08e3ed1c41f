import DotCascade.Proofs.Markup.Parts
import Mathlib.Data.List.Chain
import Mathlib.Data.List.TakeWhile

/-!
# Markup that was read

Whatever nodes are read from a markup word, no run of text in them is empty or
stands beside another one, and all runs, names and tag attributes are such as a
tag can hold (`fine_of_ofWord`).  Only the value of a tag attribute may still
hold an angle bracket.

Reading keeps the nodes of the innermost list and those in front of every open
element.  All of them stay fine, step by step, and behind a run of text the next
character is never another character of a run.
-/

namespace DotCascade
namespace Markup

section Rows

/-- Nodes that are normal and writable. -/
def Fine (nodes : List Node) : Prop :=
  isNormal nodes = true ∧ isWritable nodes = true

theorem isNormal_iff
    {nodes : List Node} :
    isNormal nodes = true ↔
      (∀ node ∈ nodes, node.isNormal = true) ∧
        nodes.IsChain fun a b => ¬ (a.isRun = true ∧ b.isRun = true) := by
  induction nodes with
  | nil =>
      simp [isNormal]
  | cons node rest ih =>
      have hbeside :
          (!(node.isRun && rest.head?.any Node.isRun)) = true ↔
            ∀ next ∈ rest.head?, ¬ (node.isRun = true ∧ next.isRun = true) := by
        cases rest with
        | nil =>
            simp
        | cons next later =>
            simp only [List.head?_cons, Option.any_some, Option.mem_def, Option.some.injEq,
              forall_eq']
            cases node.isRun <;> simp
      rw [isNormal, List.isChain_cons, List.forall_mem_cons, Bool.and_eq_true, Bool.and_eq_true,
        ih, hbeside]
      tauto

theorem isWritable_iff
    {nodes : List Node} :
    isWritable nodes = true ↔ ∀ node ∈ nodes, node.isWritable = true := by
  induction nodes with
  | nil =>
      simp [isWritable]
  | cons node rest ih =>
      rw [isWritable, List.forall_mem_cons, Bool.and_eq_true, ih]

/-- Fine nodes are fine in the other direction, too. -/
theorem Fine.reverse
    {nodes : List Node} (h : Fine nodes) :
    Fine nodes.reverse := by
  obtain ⟨hnormal, hwritable⟩ := h
  rw [isNormal_iff] at hnormal
  rw [isWritable_iff] at hwritable
  constructor
  · rw [isNormal_iff, List.isChain_reverse]
    refine ⟨fun node hnode => hnormal.1 node (List.mem_reverse.1 hnode), ?_⟩
    exact hnormal.2.imp fun a b hbeside hboth => hbeside hboth.symm
  · rw [isWritable_iff]
    exact fun node hnode => hwritable node (List.mem_reverse.1 hnode)

end Rows

section Reading

/-- An open element can become a fine node once its children have been read. -/
structure OpenElement.IsFine (element : OpenElement) : Prop where
  name : isTagName element.name.text.toList = true
  attributes : element.attributes.all TagAttribute.isWritable = true
  before : Fine element.before

/-- Behind a run of text the next character belongs to no run. -/
def Parted (before : List Node) (text : List Char) : Prop :=
  before.head?.any Node.isRun = true → ∀ c ∈ text.head?, isRunChar c = false

theorem fine_nil :
    Fine [] :=
  ⟨rfl, rfl⟩

theorem parted_nil
    (text : List Char) :
    Parted [] text :=
  nofun

theorem parted_element
    {name : Name} {attributes : List TagAttribute} {children : List Node}
    (before : List Node) (text : List Char) :
    Parted (.element name attributes children :: before) text :=
  nofun

theorem Fine.cons_element
    {before children : List Node} {name : Name} {attributes : List TagAttribute}
    (hbefore : Fine before) (hname : isTagName name.text.toList = true)
    (hattributes : attributes.all TagAttribute.isWritable = true)
    (hspace : children = [] ∨ name.text.toList.all (fun c => !Text.isSpace c) = true)
    (hchildren : Fine children) :
    Fine (.element name attributes children :: before) := by
  constructor
  · simp [isNormal, Node.isNormal, Node.isRun, hchildren.1, hbefore.1]
  · rcases hspace with rfl | hspace
    · simp [isWritable, Node.isWritable, hname, hattributes, hbefore.2]
    · simp [isWritable, Node.isWritable, hname, hattributes, hspace, hchildren.2, hbefore.2]

theorem Fine.cons_run
    {before : List Node} {run : List Char}
    (hbefore : Fine before) (hne : run ≠ []) (hrun : run.all isRunChar = true)
    (hbeside : before.head?.any Node.isRun = false) :
    Fine (.text (String.ofList run) :: before) := by
  constructor
  · simp [isNormal, Node.isNormal, hbeside, hbefore.1, hne]
  · simpa [isWritable, Node.isWritable, hbefore.2] using hrun

theorem fine_of_readNodes
    {openElements : List OpenElement} {before nodes : List Node} {text : List Char}
    (hopen : ∀ element ∈ openElements, element.IsFine) (hbefore : Fine before)
    (hparted : Parted before text)
    (h : readNodes openElements before text = .ok nodes) :
    Fine nodes := by
  fun_induction readNodes openElements before text with
  | case4 before rest element outer behind hclosing _ ih =>
      rw [List.forall_mem_cons] at hopen
      obtain ⟨helement, houter⟩ := hopen
      have hclosed : Fine (element.close before :: element.before) :=
        helement.before.cons_element helement.name helement.attributes
          (Or.inr ((closingTag?_eq_some_iff helement.name).1 hclosing).1) hbefore.reverse
      exact ih houter hclosed (parted_element _ _) h
  | case7 openElements before rest _ name behindName hname _ _ behind _ _ ih =>
      have hclosed : Fine (.element name (tagAttributes behindName).1 [] :: before) :=
        hbefore.cons_element (tagName?_eq_some_iff.1 hname).1 (isWritable_tagAttributes behindName)
          (Or.inl rfl) fine_nil
      exact ih hopen hclosed (parted_element _ _) h
  | case8 openElements before rest _ name behindName hname _ _ behind _ _ ih =>
      have helement : OpenElement.IsFine ⟨name, (tagAttributes behindName).1, before⟩ :=
        ⟨(tagName?_eq_some_iff.1 hname).1, isWritable_tagAttributes behindName, hbefore⟩
      exact ih (List.forall_mem_cons.2 ⟨helement, hopen⟩) fine_nil (parted_nil _) h
  | case9 before rest =>
      obtain rfl := Except.ok.inj h
      exact hbefore.reverse
  | case11 openElements before c rest _ hleft hright _ ih =>
      have hbeside : before.head?.any Node.isRun = false := by
        rw [← Bool.not_eq_true]
        intro hrun
        have hnot := hparted hrun c (by simp)
        rw [isRunChar_of_mem_run hleft hright rest c List.mem_cons_self] at hnot
        cases hnot
      have hrun := List.all_eq_true.2 (isRunChar_of_mem_run hleft hright rest)
      have hgrown := hbefore.cons_run (List.cons_ne_nil c _) hrun hbeside
      refine ih hopen hgrown ?_ h
      intro _ d hd
      have hhead := List.head?_dropWhile_not isRunChar rest
      rw [Option.mem_def.1 hd] at hhead
      exact hhead
  | _ =>
      cases h

/-- Nodes that were read from a word are normal and writable. -/
theorem fine_of_ofWord
    {word : List Char} {nodes : List Node} (h : ofWord word = .ok nodes) :
    Fine nodes :=
  fine_of_readNodes (by simp) fine_nil (parted_nil _) h

end Reading

end Markup
end DotCascade
