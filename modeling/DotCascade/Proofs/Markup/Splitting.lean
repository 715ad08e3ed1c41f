import DotCascade.Proofs.Markup.NormalForm
import Mathlib.Logic.Relation

/-!
# Text split into runs

Text is split otherwise by putting in an empty run or by cutting a run in two, at any
depth, and by undoing such steps.  Every row of nodes gets to its normal form in this
way (`resplit_normalize`), and no step changes the normal form (`Splits.normalize_eq`).

So rows of nodes have one normal form exactly if they can be turned into each other
(`normalize_canonical`); what is known about splitting text in a part of a row then
holds of normal forms, too.
-/

namespace DotCascade
namespace Markup

section Steps

/-- One step that splits text further: an empty run is put in or a run is cut in two, among some
nodes or among the children of one of them. -/
inductive Splits : List Node → List Node → Prop
  | insert (before later : List Node) :
      Splits (before ++ later) (before ++ .text "" :: later)
  | cut (before later : List Node) (first second : String) :
      Splits (before ++ .text (first ++ second) :: later)
        (before ++ .text first :: .text second :: later)
  | inside
      (before later : List Node) (name : Name) (attributes : List TagAttribute)
      {children inner : List Node} (h : Splits children inner) :
      Splits (before ++ .element name attributes children :: later)
        (before ++ .element name attributes inner :: later)

/-- Nodes that steps of splitting, done or undone, turn into each other. -/
def Resplit : List Node → List Node → Prop :=
  Relation.EqvGen Splits

/-- A step among some nodes is a step among more nodes. -/
theorem Splits.among
    {nodes others : List Node} (h : Splits nodes others) (front back : List Node) :
    Splits (front ++ nodes ++ back) (front ++ others ++ back) := by
  cases h with
  | insert before later =>
      simpa using Splits.insert (front ++ before) (later ++ back)
  | cut before later first second =>
      simpa using Splits.cut (front ++ before) (later ++ back) first second
  | inside before later name attributes h =>
      simpa using Splits.inside (front ++ before) (later ++ back) name attributes h

/-- What turns nodes into other ones turns a row that is made of them into one that is made of the
others, if it does so step by step. -/
theorem Resplit.map
    {row : List Node → List Node}
    (hrow : ∀ {nodes others}, Splits nodes others → Splits (row nodes) (row others))
    {nodes others : List Node} (h : Resplit nodes others) :
    Resplit (row nodes) (row others) := by
  induction h with
  | rel _ _ hstep =>
      exact .rel _ _ (hrow hstep)
  | refl nodes =>
      exact .refl _
  | symm _ _ _ ih =>
      exact .symm _ _ ih
  | trans _ _ _ _ _ ihfirst ihsecond =>
      exact .trans _ _ _ ihfirst ihsecond

theorem Resplit.append
    {nodes others later behind : List Node} (h : Resplit nodes others)
    (hlater : Resplit later behind) :
    Resplit (nodes ++ later) (others ++ behind) := by
  have hfront : Resplit (nodes ++ later) (others ++ later) :=
    h.map fun hstep => by simpa using hstep.among [] later
  have hback : Resplit (others ++ later) (others ++ behind) :=
    hlater.map fun hstep => by simpa using hstep.among others []
  exact .trans _ _ _ hfront hback

theorem Resplit.element
    {children inner : List Node} (h : Resplit children inner)
    (name : Name) (attributes : List TagAttribute) :
    Resplit [.element name attributes children] [.element name attributes inner] :=
  h.map fun hstep => Splits.inside [] [] name attributes hstep

end Steps

section Completeness

/-- A run and the one behind it are joined, and an empty run is taken out. -/
theorem resplit_prependRun
    (run : String) (nodes : List Node) :
    Resplit (.text run :: nodes) (prependRun run nodes) := by
  unfold prependRun
  split
  case h_1 next rest =>
    exact .symm _ _ (.rel _ _ (.cut [] rest run next))
  case h_2 =>
    split
    case isTrue hempty =>
      subst hempty
      exact .symm _ _ (.rel _ _ (.insert [] nodes))
    case isFalse =>
      exact .refl _

/-- Nodes are turned into their normal form. -/
theorem resplit_normalize :
    (nodes : List Node) → Resplit nodes (normalize nodes)
  | [] => .refl _
  | .text run :: later => by
      have hlater := Resplit.append (.refl [.text run]) (resplit_normalize later)
      rw [normalize, Node.normalizeOnto]
      exact .trans _ _ _ hlater (resplit_prependRun run (normalize later))
  | .element name attributes children :: later => by
      have hchildren := (resplit_normalize children).element name attributes
      rw [normalize, Node.normalizeOnto]
      exact hchildren.append (resplit_normalize later)

end Completeness

section Soundness

theorem prependRun_empty
    (nodes : List Node) :
    prependRun "" nodes = nodes := by
  unfold prependRun
  split
  · rw [String.empty_append]
  · rfl

/-- The normal form of a row depends on the end of the row by its normal form alone. -/
theorem normalize_append_congr
    (before : List Node) {nodes others : List Node} (h : normalize nodes = normalize others) :
    normalize (before ++ nodes) = normalize (before ++ others) := by
  induction before with
  | nil =>
      exact h
  | cons node before ih =>
      rw [List.cons_append, List.cons_append, normalize, normalize, ih]

/-- A step of splitting text leaves the normal form as it is. -/
theorem Splits.normalize_eq
    {nodes others : List Node} (h : Splits nodes others) :
    normalize nodes = normalize others := by
  induction h with
  | insert before later =>
      refine normalize_append_congr before ?_
      rw [normalize, Node.normalizeOnto, prependRun_empty]
  | cut before later first second =>
      refine normalize_append_congr before ?_
      simp only [normalize, Node.normalizeOnto, prependRun_prependRun]
  | inside before later name attributes _ ih =>
      refine normalize_append_congr before ?_
      simp only [normalize, Node.normalizeOnto, ih]

/-- Nodes that are turned into each other have one normal form. -/
theorem Resplit.normalize_eq
    {nodes others : List Node} (h : Resplit nodes others) :
    normalize nodes = normalize others := by
  induction h with
  | rel _ _ hstep =>
      exact hstep.normalize_eq
  | refl =>
      rfl
  | symm _ _ _ ih =>
      exact ih.symm
  | trans _ _ _ _ _ ihfirst ihsecond =>
      exact ihfirst.trans ihsecond

end Soundness

section Canonical

/-- A run in front of nodes that do not begin with one, unless it is empty, is put in front of
them. -/
theorem prependRun_of_isNormal
    {run : String} {nodes : List Node} (h : isNormal (.text run :: nodes) = true) :
    prependRun run nodes = .text run :: nodes := by
  simp only [isNormal, Node.isNormal, Node.isRun, Bool.true_and, Bool.and_eq_true,
    decide_eq_true_eq, Bool.not_eq_true'] at h
  rw [prependRun_of_not_isRun h.2, if_neg h.1.1]

/-- Normal nodes are their own normal form. -/
theorem normalize_of_isNormal :
    (nodes : List Node) → isNormal nodes = true → normalize nodes = nodes
  | [], _ => rfl
  | .text run :: later, h => by
      have hrun := prependRun_of_isNormal h
      simp only [isNormal, Bool.and_eq_true] at h
      rw [normalize, Node.normalizeOnto, normalize_of_isNormal later h.1.2, hrun]
  | .element name attributes children :: later, h => by
      simp only [isNormal, Node.isNormal, Bool.and_eq_true] at h
      rw [normalize, Node.normalizeOnto, normalize_of_isNormal children h.1.1,
        normalize_of_isNormal later h.1.2]

theorem normalize_eq_self_iff
    (nodes : List Node) :
    normalize nodes = nodes ↔ isNormal nodes = true :=
  ⟨fun h => h ▸ isNormal_normalize nodes, normalize_of_isNormal nodes⟩

/-- Nodes have one normal form exactly if they are turned into each other. -/
theorem normalize_eq_iff
    (nodes others : List Node) :
    normalize nodes = normalize others ↔ Resplit nodes others := by
  refine ⟨fun h => ?_, Resplit.normalize_eq⟩
  have hback := (resplit_normalize others).symm
  rw [← h] at hback
  exact .trans _ _ _ (resplit_normalize nodes) hback

/-- The normal form has no empty runs and no neighbouring ones, is the row itself exactly if that
has none either, and is made of the normal forms of two parts; two rows have the same one exactly if
splitting and joining text turns them into each other. -/
theorem normalize_canonical
    (nodes others : List Node) :
    isNormal (normalize nodes) = true ∧
      (normalize nodes = nodes ↔ isNormal nodes = true) ∧
      normalize (normalize nodes) = normalize nodes ∧
      normalize (nodes ++ others) = normalize (normalize nodes ++ normalize others) ∧
      (normalize nodes = normalize others ↔ Resplit nodes others) := by
  have hparts : Resplit (nodes ++ others) (normalize nodes ++ normalize others) :=
    (resplit_normalize nodes).append (resplit_normalize others)
  refine ⟨isNormal_normalize nodes, normalize_eq_self_iff nodes, ?_, hparts.normalize_eq,
    normalize_eq_iff nodes others⟩
  exact (normalize_eq_self_iff _).2 (isNormal_normalize nodes)

end Canonical

end Markup
end DotCascade
