import DotCascade.Graph.Chain
import DotCascade.Graph.Same
import DotCascade.Proofs.Graph.Merging
import Mathlib.Data.List.Nodup
import Mathlib.Data.List.Perm.Subperm

/-!
# Equality whatever the order of attributes

Two attribute maps are the same exactly if they answer every look-up alike
(`Attributes.same_iff`): no key occurs twice, so the pairs of one map are those of
the other in another order.

From this follows that merging and extending contents respects equality whatever
the order of attributes, and that contents which are the same declare the same
nodes in the same order (`Content.nodeRefs_of_same`).
-/

namespace DotCascade

namespace Attributes

variable {a b lower upper : Attributes}

theorem nodup_entries
    (a : Attributes) :
    a.entries.Nodup :=
  a.nodup.of_map _

/-- Maps that are the same have the same pairs. -/
theorem same_iff_perm :
    a.same b = true ↔ a.entries.Perm b.entries := by
  rw [same, Bool.and_eq_true, decide_eq_true_iff, List.all_eq_true]
  constructor
  · rintro ⟨hlength, hpairs⟩
    have hsubset : a.entries ⊆ b.entries := by
      rintro ⟨key, value⟩ hmem
      exact mem_entries_iff.2 (of_decide_eq_true (hpairs _ hmem))
    exact (List.subperm_of_subset a.nodup_entries hsubset).perm_of_length_le
      (Nat.le_of_eq hlength.symm)
  · intro hperm
    refine ⟨hperm.length_eq, ?_⟩
    rintro ⟨key, value⟩ hmem
    exact decide_eq_true (mem_entries_iff.1 (hperm.subset hmem))

/-- Maps are the same exactly if they answer every look-up alike. -/
theorem same_iff :
    a.same b = true ↔ ∀ key, a.get? key = b.get? key := by
  rw [same_iff_perm, List.perm_ext_iff_of_nodup a.nodup_entries b.nodup_entries]
  constructor
  · intro h key
    refine Option.ext fun value => ?_
    rw [← mem_entries_iff, ← mem_entries_iff]
    exact h (key, value)
  · rintro h ⟨key, value⟩
    rw [mem_entries_iff, mem_entries_iff, h key]

theorem same_refl
    (a : Attributes) :
    a.same a = true :=
  same_iff.2 fun _ => rfl

theorem same_overlay
    {lower' upper' : Attributes} (hlower : lower.same lower' = true)
    (hupper : upper.same upper' = true) :
    (lower.overlay upper).same (lower'.overlay upper') = true := by
  rw [same_iff] at hlower hupper ⊢
  intro key
  rw [get?_overlay, get?_overlay, hlower key, hupper key]

theorem isEmpty_of_same
    (h : a.same b = true) :
    a.isEmpty = b.isEmpty :=
  (same_iff_perm.1 h).isEmpty_eq

end Attributes

section Statements

mutual

/-- Two statements that differ in attribute order alone, part by part. -/
inductive SameStatement : Statement → Statement → Prop
  | defaults
      {kind : DefaultsKind} {own own' : Attributes}
      (h : own.same own' = true) :
      SameStatement (.defaults kind own) (.defaults kind own')
  | node
      {id : Atom} {own own' : Attributes}
      (h : own.same own' = true) :
      SameStatement (.node id own) (.node id own')
  | edge
      {head tail : NodeRef} {own own' : Attributes}
      (h : own.same own' = true) :
      SameStatement (.edge head tail own) (.edge head tail own')
  | subgraph
      {id : Option Atom} {own own' : Attributes} {statements others : List Statement}
      (h : own.same own' = true)
      (hinner : SameStatements statements others) :
      SameStatement (.subgraph id own statements) (.subgraph id own' others)

/-- Statements that differ in attribute order alone, one by one. -/
inductive SameStatements : List Statement → List Statement → Prop
  | nil : SameStatements [] []
  | cons
      {statement other : Statement} {statements others : List Statement}
      (h : SameStatement statement other)
      (hlater : SameStatements statements others) :
      SameStatements (statement :: statements) (other :: others)

end

mutual

theorem sameStatement_of_same
    {statement other : Statement} (h : statement.same other = true) :
    SameStatement statement other := by
  cases statement <;> cases other <;>
    simp only [Statement.same, Bool.and_eq_true, decide_eq_true_eq, Bool.false_eq_true] at h
  case defaults.defaults =>
    obtain ⟨rfl, hown⟩ := h
    exact .defaults hown
  case node.node =>
    obtain ⟨rfl, hown⟩ := h
    exact .node hown
  case edge.edge =>
    obtain ⟨⟨rfl, rfl⟩, hown⟩ := h
    exact .edge hown
  case subgraph.subgraph =>
    obtain ⟨⟨rfl, hown⟩, hinner⟩ := h
    exact .subgraph hown (sameStatements_of_sameList hinner)

theorem sameStatements_of_sameList
    {statements others : List Statement} (h : Statement.sameList statements others = true) :
    SameStatements statements others := by
  cases statements <;> cases others <;>
    simp only [Statement.sameList, Bool.and_eq_true, Bool.false_eq_true] at h
  case nil.nil =>
    exact .nil
  case cons.cons =>
    exact .cons (sameStatement_of_same h.1) (sameStatements_of_sameList h.2)

end

mutual

theorem SameStatement.same_eq
    {statement other : Statement} (h : SameStatement statement other) :
    statement.same other = true := by
  match h with
  | .defaults hown | .node hown | .edge hown =>
      simp [Statement.same, hown]
  | .subgraph hown hinner =>
      simp [Statement.same, hown, hinner.sameList_eq]

theorem SameStatements.sameList_eq
    {statements others : List Statement} (h : SameStatements statements others) :
    Statement.sameList statements others = true := by
  match h with
  | .nil =>
      rfl
  | .cons h hlater =>
      rw [Statement.sameList, h.same_eq, hlater.sameList_eq, Bool.and_self]

end

theorem sameList_iff_sameStatements
    {statements others : List Statement} :
    Statement.sameList statements others = true ↔ SameStatements statements others :=
  ⟨sameStatements_of_sameList, SameStatements.sameList_eq⟩

mutual

theorem SameStatement.refl
    (statement : Statement) :
    SameStatement statement statement := by
  match statement with
  | .defaults _ own =>
      exact .defaults own.same_refl
  | .node _ own =>
      exact .node own.same_refl
  | .edge _ _ own =>
      exact .edge own.same_refl
  | .subgraph _ own statements =>
      exact .subgraph own.same_refl (SameStatements.refl statements)

theorem SameStatements.refl
    (statements : List Statement) :
    SameStatements statements statements := by
  match statements with
  | [] =>
      exact .nil
  | statement :: rest =>
      exact .cons (SameStatement.refl statement) (SameStatements.refl rest)

end

theorem SameStatements.append
    {statements others later laters : List Statement} (h : SameStatements statements others)
    (hlater : SameStatements later laters) :
    SameStatements (statements ++ later) (others ++ laters) := by
  match h with
  | .nil =>
      exact hlater
  | .cons h hrest =>
      exact .cons h (hrest.append hlater)

mutual

theorem SameStatement.nodeRefs_eq
    {statement other : Statement} (h : SameStatement statement other) :
    statement.nodeRefs = other.nodeRefs := by
  match h with
  | .defaults _ | .node _ | .edge _ =>
      rfl
  | .subgraph _ hinner =>
      rw [Statement.nodeRefs, Statement.nodeRefs, hinner.nodeRefsList_eq]

/-- Statements that differ in attribute order alone declare the same nodes in the same order. -/
theorem SameStatements.nodeRefsList_eq
    {statements others : List Statement} (h : SameStatements statements others) :
    Statement.nodeRefsList statements = Statement.nodeRefsList others := by
  match h with
  | .nil =>
      rfl
  | .cons h hlater =>
      rw [Statement.nodeRefsList, Statement.nodeRefsList, h.nodeRefs_eq, hlater.nodeRefsList_eq]

end

end Statements

section Contents

namespace Content

variable {content other first second first' second' : Content}

theorem same_iff :
    content.same other = true ↔
      content.attributes.same other.attributes = true ∧
        SameStatements content.statements other.statements := by
  rw [same, Bool.and_eq_true, sameList_iff_sameStatements]

theorem same_merge
    (hfirst : first.same first' = true) (hsecond : second.same second' = true) :
    (first.merge second).same (first'.merge second') = true := by
  rw [same_iff] at hfirst hsecond ⊢
  exact ⟨Attributes.same_overlay hfirst.1 hsecond.1, hfirst.2.append hsecond.2⟩

theorem same_withAttributes
    {attributes attributes' : Attributes} (h : content.same other = true)
    (hattributes : attributes.same attributes' = true) :
    (content.withAttributes attributes).same (other.withAttributes attributes') = true := by
  rw [same_iff] at h ⊢
  exact ⟨Attributes.same_overlay h.1 hattributes, h.2⟩

theorem same_withStatement
    {statement statement' : Statement} (h : content.same other = true)
    (hstatement : statement.same statement' = true) :
    (content.withStatement statement).same (other.withStatement statement') = true := by
  rw [same_iff] at h ⊢
  exact ⟨h.1, h.2.append (.cons (sameStatement_of_same hstatement) .nil)⟩

/-- Contents that differ in attribute order alone declare the same nodes in the same order. -/
theorem nodeRefs_of_same
    (h : content.same other = true) :
    content.nodeRefs = other.nodeRefs := by
  rw [nodeRefs, nodeRefs, (same_iff.1 h).2.nodeRefsList_eq]

end Content

theorem Graph.same_iff
    {graph graph' : Graph} :
    graph.same graph' = true ↔
      graph.id = graph'.id ∧ graph.strict = graph'.strict ∧ graph.directed = graph'.directed ∧
        graph.content.same graph'.content = true := by
  simp only [Graph.same, Bool.and_eq_true, decide_eq_true_eq, and_assoc]

end Contents

end DotCascade
