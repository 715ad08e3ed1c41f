import DotCascade.Atom.Written
import DotCascade.Proofs.Atom.Faithful

/-!
# Markup in normal form

Nodes have one normal form however their text is split into runs: `normalize`
yields normal nodes (`isNormal_normalize`), and nodes with one normal form differ
only in how their text is split (`alike_of_normalize`).

They need not be written alike.  An element that has empty runs for children and
nothing else is written as two tags, and in its normal form as a single one.  The
written forms are the same exactly if the elements that are written as single
tags are (`written_eq_written_iff`).
-/

namespace DotCascade
namespace Markup

section Runs

theorem prependRun_of_not_isRun
    {nodes : List Node} (h : nodes.head?.any Node.isRun = false) (run : String) :
    prependRun run nodes = if run = "" then nodes else .text run :: nodes := by
  unfold prependRun
  split
  · simp [Node.isRun] at h
  · rfl

theorem prependRun_prependRun
    (first second : String) (nodes : List Node) :
    prependRun first (prependRun second nodes) = prependRun (first ++ second) nodes := by
  by_cases hhead : nodes.head?.any Node.isRun = false
  · rw [prependRun_of_not_isRun hhead second, prependRun_of_not_isRun hhead]
    by_cases hsecond : second = ""
    · rw [if_pos hsecond, hsecond, String.append_empty, prependRun_of_not_isRun hhead]
    · have hjoined : first ++ second ≠ "" := by
        simp [hsecond]
      rw [if_neg hsecond, if_neg hjoined, prependRun]
  · match nodes with
    | .text next :: rest =>
        simp only [prependRun, String.append_assoc]
    | [] | .element _ _ _ :: _ =>
        simp [Node.isRun] at hhead

/-- A run in front of nodes that do not begin with one can be told apart from them. -/
theorem prependRun_inj
    {run other : String} {nodes others : List Node}
    (hnodes : nodes.head?.any Node.isRun = false) (hothers : others.head?.any Node.isRun = false)
    (h : prependRun run nodes = prependRun other others) :
    run = other ∧ nodes = others := by
  rw [prependRun_of_not_isRun hnodes, prependRun_of_not_isRun hothers] at h
  split at h
  case isTrue hrun =>
    split at h
    case isTrue hother =>
      exact ⟨hrun.trans hother.symm, h⟩
    case isFalse =>
      simp [h, Node.isRun] at hnodes
  case isFalse =>
    split at h
    case isTrue =>
      simp [← h, Node.isRun] at hothers
    case isFalse =>
      simpa using h

end Runs

section Normal

theorem isNormal_prependRun
    {nodes : List Node} (h : isNormal nodes = true) (run : String) :
    isNormal (prependRun run nodes) = true := by
  by_cases hhead : nodes.head?.any Node.isRun = false
  · rw [prependRun_of_not_isRun hhead]
    split
    case isTrue =>
      exact h
    case isFalse hrun =>
      simp [isNormal, Node.isNormal, Node.isRun, hrun, h, hhead]
  · match nodes with
    | .text next :: rest =>
        simp only [isNormal, Node.isNormal, Node.isRun, Bool.true_and, Bool.and_eq_true,
          decide_eq_true_eq, Bool.not_eq_true'] at h
        simp [prependRun, isNormal, Node.isNormal, Node.isRun, h]
    | [] | .element _ _ _ :: _ =>
        simp [Node.isRun] at hhead

/-- The normal form of nodes has no empty runs and no neighbouring ones, at any depth. -/
theorem isNormal_normalize :
    (nodes : List Node) → isNormal (normalize nodes) = true
  | [] => rfl
  | .text run :: later => by
      rw [normalize, Node.normalizeOnto]
      exact isNormal_prependRun (isNormal_normalize later) run
  | .element name attributes children :: later => by
      simp [normalize, Node.normalizeOnto, isNormal, Node.isNormal, Node.isRun,
        isNormal_normalize children, isNormal_normalize later]

end Normal

section Splitting

/-- Nodes that differ only in how their text is split into runs, at every depth. -/
inductive Alike : List Node → List Node → Prop
  | nil : Alike [] []
  | runs
      {runs others : List String} {nodes later : List Node}
      (hsame : String.join runs = String.join others)
      (hlater : Alike nodes later) :
      Alike (runs.map .text ++ nodes) (others.map .text ++ later)
  | element
      {name : Name} {attributes : List TagAttribute} {children inner nodes later : List Node}
      (hchildren : Alike children inner)
      (hlater : Alike nodes later) :
      Alike (.element name attributes children :: nodes) (.element name attributes inner :: later)

/-- Nodes behind some runs are alike if they have one normal form together with these runs.  The
runs are those that were passed since the last element. -/
theorem alike_of_prependRun :
    (nodes others : List Node) → (runs passed : List String) →
    prependRun (String.join runs) (normalize nodes) =
      prependRun (String.join passed) (normalize others) →
    Alike (runs.map .text ++ nodes) (passed.map .text ++ others)
  | .text run :: nodes, others, runs, passed, h => by
      rw [normalize, Node.normalizeOnto, prependRun_prependRun] at h
      have hjoined : String.join (runs ++ [run]) = String.join runs ++ run := by
        simp
      simpa using alike_of_prependRun nodes others (runs ++ [run]) passed (hjoined ▸ h)
  | nodes, .text run :: others, runs, passed, h => by
      rw [normalize.eq_2 (.text run), Node.normalizeOnto, prependRun_prependRun] at h
      have hjoined : String.join (passed ++ [run]) = String.join passed ++ run := by
        simp
      simpa using alike_of_prependRun nodes others runs (passed ++ [run]) (hjoined ▸ h)
  | [], [], runs, passed, h => by
      exact .runs (prependRun_inj rfl rfl h).1 .nil
  | .element name attributes children :: nodes, .element _ _ inner :: others, runs, passed, h => by
      rw [normalize, normalize, Node.normalizeOnto, Node.normalizeOnto] at h
      obtain ⟨hsame, hrest⟩ := prependRun_inj rfl rfl h
      simp only [List.cons.injEq, Node.element.injEq] at hrest
      obtain ⟨⟨rfl, rfl, hchildren⟩, hlater⟩ := hrest
      have hinner := alike_of_prependRun children inner [] [] (congrArg (prependRun "") hchildren)
      have hbehind := alike_of_prependRun nodes others [] [] (congrArg (prependRun "") hlater)
      exact .runs hsame (.element hinner hbehind)
  | [], .element _ _ _ :: _, _, _, h => by
      cases (prependRun_inj rfl rfl h).2
  | .element _ _ _ :: _, [], _, _, h => by
      cases (prependRun_inj rfl rfl h).2

/-- Nodes with one normal form differ only in how their text is split. -/
theorem alike_of_normalize
    {nodes others : List Node} (h : normalize nodes = normalize others) :
    Alike nodes others :=
  alike_of_prependRun nodes others [] [] (congrArg (prependRun "") h)

end Splitting

section Tags

mutual

/-- Of the elements in a node, in the order in which they begin, whether each is written as a
single tag. -/
def Node.singleTags : Node → List Bool
  | .text _ => []
  | .element _ _ children => children.isEmpty :: singleTags children

/-- Of the elements in some nodes, in the order in which they begin, whether each is written as a
single tag. -/
def singleTags : List Node → List Bool
  | [] => []
  | node :: rest => node.singleTags ++ singleTags rest

end

theorem singleTags_runs
    (runs : List String) (nodes : List Node) :
    singleTags (runs.map .text ++ nodes) = singleTags nodes := by
  induction runs with
  | nil =>
      rfl
  | cons run rest ih =>
      rw [List.map_cons, List.cons_append, singleTags, ih, Node.singleTags, List.nil_append]

theorem written_runs
    (runs : List String) (nodes : List Node) :
    written (runs.map .text ++ nodes) = writtenRun (String.join runs) ++ written nodes := by
  induction runs with
  | nil =>
      rfl
  | cons run rest ih =>
      rw [List.map_cons, List.cons_append, written, ih, Node.written]
      simp [writtenRun]

/-- What stands behind the tag attributes of an element: the end of a single tag, or the children
between the end of an opening tag and a closing one. -/
def writtenBody (name : Name) (children : List Node) : List Char :=
  if children.isEmpty then ['/', '>']
  else '>' :: (written children ++ '<' :: '/' :: (name.text.toList ++ ['>']))

theorem written_element
    (name : Name) (attributes : List TagAttribute) (children later : List Node) :
    written (.element name attributes children :: later) =
      '<' :: (name.text.toList ++ (writtenAttributes attributes ++
        (writtenBody name children ++ written later))) := by
  cases children with
  | nil =>
      simp [written, Node.written, writtenBody]
  | cons child rest =>
      simp [written, Node.written, writtenBody]

theorem Alike.length_singleTags
    {nodes others : List Node} (h : Alike nodes others) :
    (singleTags nodes).length = (singleTags others).length := by
  induction h with
  | nil =>
      rfl
  | runs _ _ ih =>
      rw [singleTags_runs, singleTags_runs, ih]
  | element _ _ ihchildren ih =>
      simp [singleTags, Node.singleTags, ihchildren, ih]

/-- Apart from how text is split, only the choice between one tag and two is free. -/
theorem Alike.written_eq
    {nodes others : List Node} (h : Alike nodes others)
    (htags : singleTags nodes = singleTags others) :
    written nodes = written others := by
  induction h with
  | nil =>
      rfl
  | runs hsame _ ih =>
      rw [singleTags_runs, singleTags_runs] at htags
      rw [written_runs, written_runs, hsame, ih htags]
  | @element name attributes children inner nodes later hchildren _ ihchildren ih =>
      simp only [singleTags, Node.singleTags, List.cons_append, List.cons.injEq] at htags
      obtain ⟨hempty, htags⟩ := htags
      obtain ⟨hinner, hlater⟩ := List.append_inj htags hchildren.length_singleTags
      rw [written_element, written_element, writtenBody, writtenBody, hempty, ihchildren hinner,
        ih hlater]

/-- Whatever comes behind, the written forms show which elements are single tags: where the choices
differ for the first time, one form goes on with a slash and the other with a bracket. -/
theorem Alike.singleTags_eq
    {nodes others : List Node} (h : Alike nodes others) {rest behind : List Char}
    (hwritten : written nodes ++ rest = written others ++ behind) :
    singleTags nodes = singleTags others := by
  induction h generalizing rest behind with
  | nil =>
      rfl
  | runs hsame _ ih =>
      rw [written_runs, written_runs, hsame, List.append_assoc, List.append_assoc,
        List.append_cancel_left_eq] at hwritten
      rw [singleTags_runs, singleTags_runs, ih hwritten]
  | @element name attributes children inner nodes later hchildren _ ihchildren ih =>
      simp only [written_element, List.cons_append, List.append_assoc, List.cons.injEq, true_and,
        List.append_cancel_left_eq] at hwritten
      rw [singleTags, singleTags, Node.singleTags, Node.singleTags]
      cases hempty : children.isEmpty with
      | false =>
          cases hother : inner.isEmpty with
          | false =>
              simp only [writtenBody, hempty, hother, Bool.false_eq_true, if_false,
                List.cons_append, List.append_assoc, List.cons.injEq, true_and] at hwritten
              have hinner := ihchildren hwritten
              rw [hchildren.written_eq hinner] at hwritten
              simp only [List.append_cancel_left_eq, List.cons.injEq, true_and,
                List.nil_append] at hwritten
              rw [hinner, ih hwritten]
          | true =>
              simp [writtenBody, hempty, hother] at hwritten
      | true =>
          cases hother : inner.isEmpty with
          | false =>
              simp [writtenBody, hempty, hother] at hwritten
          | true =>
              simp only [writtenBody, hempty, hother, if_true,
                List.append_cancel_left_eq] at hwritten
              rw [ih hwritten, List.isEmpty_iff.1 hempty, List.isEmpty_iff.1 hother]

/-- Nodes with one normal form are written alike exactly if the same elements in them are written as
single tags. -/
theorem written_eq_written_iff
    {nodes others : List Node} (h : normalize nodes = normalize others) :
    (Atom.markup nodes).written = (Atom.markup others).written ↔
      singleTags nodes = singleTags others := by
  have halike := alike_of_normalize h
  constructor
  · intro hwritten
    simp only [Atom.written, List.cons_append, List.cons.injEq, true_and] at hwritten
    exact halike.singleTags_eq hwritten
  · intro htags
    rw [Atom.written, Atom.written, halike.written_eq htags]

/-- Text is split in several ways, and an element has only empty runs for children. -/
theorem written_eq_written_iff_split :
    let nodes : List Node :=
      [.text "x", .text "", .element ⟨"b", by decide⟩ [] [.text "y", .text "z"],
        .element ⟨"i", by decide⟩ [("c", "d")] [.text ""]]
    let others : List Node :=
      [.text "x", .element ⟨"b", by decide⟩ [] [.text "yz", .text ""],
        .element ⟨"i", by decide⟩ [("c", "d")] [.text "", .text ""]]
    normalize nodes = normalize others ∧
      ((Atom.markup nodes).written = (Atom.markup others).written ↔
        singleTags nodes = singleTags others) := by
  intro nodes others
  have h : normalize nodes = normalize others := by
    decide +kernel
  exact ⟨h, written_eq_written_iff h⟩

/-- An element that holds an empty run has the normal form of one that holds nothing, and it is
written otherwise. -/
theorem not_written_eq_of_normalize :
    let padded : List Node := [.element ⟨"b", by decide⟩ [] [.text ""]]
    let childless : List Node := [.element ⟨"b", by decide⟩ [] []]
    normalize padded = normalize childless ∧
      (Atom.markup padded).written = "<<b></b>>".toList ∧
      (Atom.markup childless).written = "<<b/>>".toList ∧
      (Atom.markup padded).written ≠ (Atom.markup childless).written := by
  decide +kernel

end Tags

end Markup
end DotCascade
