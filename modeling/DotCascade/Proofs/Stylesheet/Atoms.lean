import DotCascade.Proofs.Grammar.Atoms
import DotCascade.Stylesheet.Cascade

/-!
# The atoms of a cascade

The cascade puts together what stands in the graph and in the rules and adds no
atoms of its own.  So a property that all atoms of a graph and of the rules of a
stylesheet have, all atoms of the styled graph have (`allAtoms_cascaded`).
-/

namespace DotCascade

section Cascade

variable {good : Atom → Prop} {rules : List Rule}

theorem allAtoms_foldl_overlay
    {start : Attributes} (hrules : ∀ rule ∈ rules, AllAtoms good rule.attributes.atoms)
    (hstart : AllAtoms good start.atoms) :
    AllAtoms good (rules.foldl (fun done rule => done.overlay rule.attributes) start).atoms := by
  induction rules generalizing start with
  | nil =>
      exact hstart
  | cons rule rest ih =>
      rw [List.forall_mem_cons] at hrules
      exact ih hrules.2 (allAtoms_overlay hstart hrules.1)

theorem allAtoms_styledAttributes
    {attributes : Attributes} (hrules : ∀ rule ∈ rules, AllAtoms good rule.attributes.atoms)
    (entity : Entity) (h : AllAtoms good attributes.atoms) :
    AllAtoms good (styledAttributes entity rules attributes).atoms := by
  refine allAtoms_overlay (allAtoms_foldl_overlay ?_ allAtoms_nil) h
  intro rule hrule
  exact hrules rule (List.mem_of_mem_filter hrule)

mutual

theorem allAtoms_styled
    (hrules : ∀ rule ∈ rules, AllAtoms good rule.attributes.atoms)
    (statement : Statement) (h : AllAtoms good statement.atoms) :
    AllAtoms good (statement.styled rules).atoms := by
  match statement with
  | .defaults kind attributes =>
      exact h
  | .node id attributes =>
      rw [Statement.atoms, allAtoms_cons] at h
      rw [Statement.styled, Statement.atoms, allAtoms_cons]
      exact ⟨h.1, allAtoms_styledAttributes hrules .node h.2⟩
  | .edge head tail attributes =>
      rw [Statement.atoms, allAtoms_append] at h
      rw [Statement.styled, Statement.atoms, allAtoms_append]
      exact ⟨h.1, allAtoms_styledAttributes hrules .edge h.2⟩
  | .subgraph id attributes statements =>
      rw [Statement.atoms, allAtoms_append, allAtoms_append] at h
      rw [Statement.styled, Statement.atoms, allAtoms_append, allAtoms_append]
      exact ⟨⟨h.1.1, allAtoms_styledAttributes hrules .graph h.1.2⟩,
        allAtoms_styledList hrules statements h.2⟩

theorem allAtoms_styledList
    (hrules : ∀ rule ∈ rules, AllAtoms good rule.attributes.atoms)
    (statements : List Statement) (h : AllAtoms good (Statement.atomsList statements)) :
    AllAtoms good (Statement.atomsList (Statement.styledList rules statements)) := by
  match statements with
  | [] =>
      exact h
  | statement :: rest =>
      rw [Statement.atomsList, allAtoms_append] at h
      rw [Statement.styledList, Statement.atomsList, allAtoms_append]
      exact ⟨allAtoms_styled hrules statement h.1, allAtoms_styledList hrules rest h.2⟩

end

theorem allAtoms_generalContent
    (hrules : ∀ rule ∈ rules, AllAtoms good rule.attributes.atoms) :
    AllAtoms good (generalContent rules).atoms := by
  have hstart : AllAtoms good Content.empty.atoms := allAtoms_nil
  unfold generalContent
  generalize Content.empty = start at hstart
  induction rules generalizing start with
  | nil =>
      exact hstart
  | cons rule rest ih =>
      rw [List.forall_mem_cons] at hrules
      refine ih hrules.2 _ (allAtoms_merge hstart ?_)
      unfold Rule.generalContent
      split
      · exact allAtoms_ofStatements (List.forall_mem_singleton.2 hrules.1)
      · exact allAtoms_ofAttributes hrules.1

/-- The cascade of good rules into a good graph is good. -/
theorem allAtoms_cascaded
    {stylesheet : Stylesheet} {graph : Graph} (hrules : AllAtoms good (ruleAtoms stylesheet.rules))
    (h : AllAtoms good graph.atoms) :
    AllAtoms good (stylesheet.apply graph).atoms := by
  have hsorted : ∀ rule ∈ stylesheet.cascade, AllAtoms good rule.attributes.atoms := by
    intro rule hrule
    rw [Stylesheet.cascade, List.mem_mergeSort] at hrule
    exact allAtoms_flatMap.1 hrules rule (List.mem_of_mem_filter hrule)
  have hgeneral : ∀ rule ∈ stylesheet.generalRules, AllAtoms good rule.attributes.atoms :=
    fun rule hrule => hsorted rule (List.mem_of_mem_filter hrule)
  have hclass : ∀ rule ∈ stylesheet.classRules, AllAtoms good rule.attributes.atoms :=
    fun rule hrule => hsorted rule (List.mem_of_mem_filter hrule)
  rw [Graph.atoms, allAtoms_append, Content.atoms, allAtoms_append] at h
  rw [Graph.atoms, allAtoms_append]
  refine ⟨h.1, allAtoms_merge (allAtoms_generalContent hgeneral) ?_⟩
  rw [Content.atoms, allAtoms_append]
  exact ⟨allAtoms_styledAttributes hclass .graph h.2.1,
    allAtoms_styledList hclass graph.content.statements h.2.2⟩

end Cascade

end DotCascade
