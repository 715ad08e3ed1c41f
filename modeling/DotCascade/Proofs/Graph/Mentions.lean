import DotCascade.Graph.Chain
import Mathlib.Data.List.Basic

/-!
# The nodes that a subgraph declares

A statement mentions nodes at places: a node statement its own node, an edge its
head and its tail, and a subgraph what its statements mention.  A place is a list
of numbers, one for each level on the way down, so one place is passed before
another on a walk from left to right exactly if it comes first in the order of
lists.

The nodes that a subgraph stands for in a chain are those that it mentions at
some place, each once, in the order of their first places (`lists_nodeRefs`).  The
proof walks through the statements and notes the place of every mention.
-/

namespace DotCascade

section Places

/-- One place is passed before another one. -/
def Earlier (place other : List Nat) : Prop :=
  List.Lex (· < ·) place other

theorem earlier_irrefl
    (place : List Nat) :
    ¬ Earlier place place := by
  intro h
  induction place with
  | nil =>
      cases h
  | cons index rest ih =>
      cases h with
      | cons h =>
          exact ih h
      | rel h =>
          exact Nat.lt_irrefl index h

/-- A statement mentions a node at a place in it. -/
inductive Statement.Mentions : Statement → List Nat → NodeRef → Prop
  | node
      {id : Atom} {attributes : Attributes} :
      Mentions (.node id attributes) [] ⟨id, none⟩
  | head
      {head tail : NodeRef} {attributes : Attributes} :
      Mentions (.edge head tail attributes) [0] head
  | tail
      {head tail : NodeRef} {attributes : Attributes} :
      Mentions (.edge head tail attributes) [1] tail
  | inside
      {id : Option Atom} {attributes : Attributes} {statements : List Statement}
      {index : Nat} {statement : Statement} {place : List Nat} {ref : NodeRef}
      (hstatement : statements[index]? = some statement)
      (h : Mentions statement place ref) :
      Mentions (.subgraph id attributes statements) (index :: place) ref

/-- The nodes that a statement mentions, each once, in the order of their first places. -/
structure Statement.Lists (statement : Statement) (refs : List NodeRef) : Prop where
  nodup : refs.Nodup
  mem_iff : ∀ ref, ref ∈ refs ↔ ∃ place, statement.Mentions place ref
  ordered : refs.Pairwise fun ref later =>
    ∃ place, statement.Mentions place ref ∧
      ∀ other, statement.Mentions other later → Earlier place other

end Places

section Walk

mutual

/-- What a statement mentions, in the order of writing, with the places. -/
def Statement.mentions : Statement → List (List Nat × NodeRef)
  | .defaults _ _ => []
  | .node id _ => [([], ⟨id, none⟩)]
  | .edge head tail _ => [([0], head), ([1], tail)]
  | .subgraph _ _ statements => Statement.mentionsFrom 0 statements

/-- What statements mention, in the order of writing, with the places.  The first statement has a
given number. -/
def Statement.mentionsFrom (index : Nat) : List Statement → List (List Nat × NodeRef)
  | [] => []
  | statement :: rest =>
      (statement.mentions.map fun (place, ref) => (index :: place, ref)) ++
        Statement.mentionsFrom (index + 1) rest

end

mutual

/-- The walk passes the nodes that are declared. -/
theorem map_snd_mentions
    (statement : Statement) :
    statement.mentions.map Prod.snd = statement.nodeRefs := by
  match statement with
  | .defaults _ _ | .node _ _ | .edge _ _ _ =>
      rfl
  | .subgraph _ _ statements =>
      rw [Statement.mentions, Statement.nodeRefs, map_snd_mentionsFrom 0 statements]

theorem map_snd_mentionsFrom
    (index : Nat) (statements : List Statement) :
    (Statement.mentionsFrom index statements).map Prod.snd =
      Statement.nodeRefsList statements := by
  match statements with
  | [] =>
      rfl
  | statement :: rest =>
      rw [Statement.mentionsFrom, Statement.nodeRefsList, List.map_append, List.map_map,
        ← map_snd_mentions statement, ← map_snd_mentionsFrom (index + 1) rest]
      rfl

end

mutual

theorem mentions_of_mem
    (statement : Statement) {place : List Nat} {ref : NodeRef}
    (h : (place, ref) ∈ statement.mentions) :
    statement.Mentions place ref := by
  match statement with
  | .defaults _ _ =>
      cases h
  | .node _ _ =>
      obtain ⟨rfl, rfl⟩ := Prod.mk.inj (List.mem_singleton.1 h)
      exact .node
  | .edge _ _ _ =>
      rcases List.mem_pair.1 h with heq | heq
      · obtain ⟨rfl, rfl⟩ := Prod.mk.inj heq
        exact .head
      · obtain ⟨rfl, rfl⟩ := Prod.mk.inj heq
        exact .tail
  | .subgraph _ _ statements =>
      obtain ⟨offset, inner, found, rfl, hfound, hinner⟩ := mentions_of_mem_from 0 statements h
      rw [Nat.zero_add]
      exact .inside hfound hinner

theorem mentions_of_mem_from
    (index : Nat) (statements : List Statement) {place : List Nat} {ref : NodeRef}
    (h : (place, ref) ∈ Statement.mentionsFrom index statements) :
    ∃ offset inner statement, place = (index + offset) :: inner ∧
      statements[offset]? = some statement ∧ statement.Mentions inner ref := by
  match statements with
  | [] =>
      cases h
  | statement :: rest =>
      rcases List.mem_append.1 h with h | h
      · obtain ⟨⟨inner, found⟩, hmem, heq⟩ := List.mem_map.1 h
        obtain ⟨rfl, rfl⟩ := Prod.mk.inj heq
        exact ⟨0, inner, statement, rfl, rfl, mentions_of_mem statement hmem⟩
      · obtain ⟨offset, inner, found, rfl, hfound, hinner⟩ :=
          mentions_of_mem_from (index + 1) rest h
        refine ⟨offset + 1, inner, found, ?_, hfound, hinner⟩
        rw [Nat.add_assoc, Nat.add_comm 1 offset]

end

theorem mem_mentionsFrom
    {statements : List Statement} {offset : Nat} {statement : Statement} {place : List Nat}
    {ref : NodeRef} (hstatement : statements[offset]? = some statement)
    (h : (place, ref) ∈ statement.mentions) (index : Nat) :
    ((index + offset) :: place, ref) ∈ Statement.mentionsFrom index statements := by
  induction statements generalizing index offset with
  | nil =>
      cases hstatement
  | cons first rest ih =>
      rw [Statement.mentionsFrom, List.mem_append]
      cases offset with
      | zero =>
          obtain rfl := Option.some.inj hstatement
          exact Or.inl (List.mem_map.2 ⟨(place, ref), h, rfl⟩)
      | succ offset =>
          have hnumber : index + (offset + 1) = index + 1 + offset := by
            omega
          rw [hnumber]
          exact Or.inr (ih hstatement (index + 1))

/-- The walk notes exactly the places at which nodes are mentioned. -/
theorem mem_mentions_iff
    {statement : Statement} {place : List Nat} {ref : NodeRef} :
    (place, ref) ∈ statement.mentions ↔ statement.Mentions place ref := by
  constructor
  · exact mentions_of_mem statement
  · intro h
    induction h with
    | node | head =>
        exact List.mem_cons_self
    | tail =>
        exact List.mem_cons_of_mem _ List.mem_cons_self
    | @inside _ _ _ index _ _ _ hstatement _ ih =>
        have hmem := mem_mentionsFrom hstatement ih 0
        rwa [Nat.zero_add] at hmem

mutual

/-- The walk passes one place after the other. -/
theorem pairwise_mentions
    (statement : Statement) :
    statement.mentions.Pairwise fun a b => Earlier a.1 b.1 := by
  match statement with
  | .defaults _ _ =>
      exact .nil
  | .node _ _ =>
      exact List.pairwise_singleton _ _
  | .edge _ _ _ =>
      rw [Statement.mentions, List.pairwise_pair]
      exact .rel Nat.zero_lt_one
  | .subgraph _ _ statements =>
      exact pairwise_mentionsFrom 0 statements

theorem pairwise_mentionsFrom
    (index : Nat) (statements : List Statement) :
    (Statement.mentionsFrom index statements).Pairwise fun a b => Earlier a.1 b.1 := by
  match statements with
  | [] =>
      exact .nil
  | statement :: rest =>
      rw [Statement.mentionsFrom, List.pairwise_append, List.pairwise_map]
      refine ⟨(pairwise_mentions statement).imp .cons, pairwise_mentionsFrom (index + 1) rest, ?_⟩
      intro mention hmention later hlater
      obtain ⟨⟨place, ref⟩, -, rfl⟩ := List.mem_map.1 hmention
      obtain ⟨offset, inner, -, hplace, -⟩ := mentions_of_mem_from (index + 1) rest hlater
      rw [hplace]
      exact .rel (by omega)

end

end Walk

section FirstOccurrences

variable {κ α : Type} [DecidableEq α] {before : κ → κ → Prop}

/-- Without later repetitions, items are in the order of the first of their keys. -/
theorem pairwise_eraseDups
    (items : List (κ × α)) (h : items.Pairwise fun a b => before a.1 b.1) :
    (items.map Prod.snd).eraseDups.Pairwise fun x y =>
      ∃ key, (key, x) ∈ items ∧ ∀ other, (other, y) ∈ items → before key other := by
  match items with
  | [] =>
      exact .nil
  | (key, x) :: rest =>
      obtain ⟨hfirst, hrest⟩ := List.pairwise_cons.1 h
      let others := rest.filter ((fun y => !y == x) ∘ Prod.snd)
      have hothers : ∀ k y, (k, y) ∈ others ↔ (k, y) ∈ rest ∧ y ≠ x := by
        simp [others, List.mem_filter]
      have ih := pairwise_eraseDups others (hrest.filter _)
      rw [List.map_cons, List.eraseDups_cons, List.filter_map, List.pairwise_cons]
      have hne : ∀ y ∈ (others.map Prod.snd).eraseDups, y ≠ x := by
        intro y hy
        obtain ⟨⟨k, _⟩, hmem, rfl⟩ := List.mem_map.1 (List.mem_eraseDups.1 hy)
        exact ((hothers _ _).1 hmem).2
      constructor
      · intro y hy
        refine ⟨key, List.mem_cons_self, fun other hother => ?_⟩
        rcases List.mem_cons.1 hother with heq | hother
        · exact absurd (Prod.mk.inj heq).2 (hne y hy)
        · exact hfirst _ hother
      · refine ih.imp_of_mem fun {y z} hy hz hordered => ?_
        obtain ⟨k, hk, hlater⟩ := hordered
        refine ⟨k, List.mem_cons_of_mem _ ((hothers _ _).1 hk).1, fun other hother => ?_⟩
        rcases List.mem_cons.1 hother with heq | hother
        · exact absurd (Prod.mk.inj heq).2 (hne z hz)
        · exact hlater other ((hothers _ _).2 ⟨hother, hne z hz⟩)
termination_by items.length
decreasing_by
  exact Nat.lt_succ_of_le (List.length_filter_le _ _)

end FirstOccurrences

/-- A subgraph stands for the nodes that it mentions. -/
theorem lists_nodeRefs
    (id : Option Atom) (content : Content) :
    (content.toSubgraph id).Lists content.nodeRefs := by
  let statement := content.toSubgraph id
  have hwalk : content.nodeRefs = (statement.mentions.map Prod.snd).eraseDups := by
    rw [map_snd_mentions]
    rfl
  have hordered : content.nodeRefs.Pairwise fun ref later =>
      ∃ place, statement.Mentions place ref ∧
        ∀ other, statement.Mentions other later → Earlier place other := by
    rw [hwalk]
    simpa only [mem_mentions_iff] using pairwise_eraseDups _ (pairwise_mentions statement)
  refine ⟨hordered.imp ?_, fun ref => ?_, hordered⟩
  · -- A node whose first place is before all of its places would be before itself.
    rintro ref _ ⟨place, hplace, hlater⟩ rfl
    exact earlier_irrefl place (hlater place hplace)
  · rw [hwalk, List.mem_eraseDups, List.mem_map]
    constructor
    · rintro ⟨⟨place, _⟩, hmem, rfl⟩
      exact ⟨place, mem_mentions_iff.1 hmem⟩
    · rintro ⟨place, h⟩
      exact ⟨(place, ref), mem_mentions_iff.2 h, rfl⟩

end DotCascade
