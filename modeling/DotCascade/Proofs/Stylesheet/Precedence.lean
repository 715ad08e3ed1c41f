import DotCascade.Stylesheet.Cascade
import Mathlib.Data.List.Basic
import Mathlib.Data.List.MinMax
import Mathlib.Order.Nat

/-!
# The order in which rules apply

The rules that set something apply in the order of their ranks, a rule of `n`
classes having rank `n`, and rules of one rank apply in the order of their
declaration.  `Stylesheet.precedence` says so directly: it lists the ranks one
after the other, and for each the rules that are declared with it.

The sorted rules of the cascade are that list (`cascade_eq_precedence`).  A list
in ascending order is cut into its ranks, and sorting does not change what is
found at one rank.
-/

namespace DotCascade

section Ranks

variable {α : Type} {rank : α → Nat}

/-- In ascending order the items of low ranks stand in front of the others. -/
theorem eq_filter_append_filter
    {items : List α} (hascending : items.Pairwise fun a b => rank a ≤ rank b) (bound : Nat) :
    items =
      (items.filter fun x => rank x < bound) ++ items.filter fun x => bound ≤ rank x := by
  induction items with
  | nil =>
      rfl
  | cons x rest ih =>
      rw [List.pairwise_cons] at hascending
      by_cases hx : rank x < bound
      · have hnot : ¬ bound ≤ rank x := by
          omega
        simp only [List.filter_cons, hx, hnot, decide_true, decide_false, if_true,
          Bool.false_eq_true, if_false, List.cons_append]
        exact congrArg (x :: ·) (ih hascending.2)
      · have hhigh : ∀ y ∈ x :: rest, bound ≤ rank y := by
          intro y hy
          rcases List.mem_cons.1 hy with rfl | hy
          · omega
          · have hlater := hascending.1 y hy
            omega
        have hnone : (x :: rest).filter (fun y => rank y < bound) = [] := by
          rw [List.filter_eq_nil_iff]
          intro y hy
          simpa using hhigh y hy
        have hsame : (x :: rest).filter (fun y => bound ≤ rank y) = x :: rest := by
          rw [List.filter_eq_self]
          intro y hy
          simpa using hhigh y hy
        rw [hnone, hsame, List.nil_append]

/-- A list in ascending order is its ranks, one after the other. -/
theorem eq_flatMap_ranks
    {bound : Nat} {items : List α}
    (hascending : items.Pairwise fun a b => rank a ≤ rank b)
    (hbound : ∀ x ∈ items, rank x < bound) :
    items = (List.range bound).flatMap fun n => items.filter fun x => rank x = n := by
  induction bound generalizing items with
  | zero =>
      cases items with
      | nil =>
          rfl
      | cons x rest =>
          exact absurd (hbound x (by simp)) (Nat.not_lt_zero _)
  | succ bound ih =>
      have hcut := eq_filter_append_filter hascending bound
      have hlast :
          (items.filter fun x => bound ≤ rank x) = items.filter fun x => rank x = bound := by
        refine List.filter_congr fun x hx => ?_
        have hx := hbound x hx
        rw [decide_eq_decide]
        omega
      have hlow := ih (hascending.filter fun x => rank x < bound) fun x hx => by
        simpa using (List.mem_filter.1 hx).2
      have hsame :
          ((List.range bound).flatMap fun n =>
              (items.filter fun x => rank x < bound).filter fun x => rank x = n) =
            (List.range bound).flatMap fun n => items.filter fun x => rank x = n := by
        refine List.flatMap_congr fun n hn => ?_
        have hn := List.mem_range.1 hn
        rw [List.filter_filter]
        refine List.filter_congr fun x _ => ?_
        by_cases hx : rank x = n
        · simp [hx, hn]
        · simp [hx]
      rw [List.range_succ, List.flatMap_append, ← hsame, ← hlow]
      simpa [hlast] using hcut

variable (rank)

/-- The order of items by rank. -/
def byRank (a b : α) : Bool :=
  rank a ≤ rank b

theorem byRank_trans
    (a b c : α) (hab : byRank rank a b = true) (hbc : byRank rank b c = true) :
    byRank rank a c = true := by
  simp only [byRank, decide_eq_true_eq] at hab hbc ⊢
  omega

theorem byRank_total
    (a b : α) :
    (byRank rank a b || byRank rank b a) = true := by
  simp only [byRank, Bool.or_eq_true, decide_eq_true_eq]
  omega

theorem pairwise_sorted
    (items : List α) :
    (items.mergeSort (byRank rank)).Pairwise fun a b => rank a ≤ rank b := by
  have hsorted := List.pairwise_mergeSort (byRank_trans rank) (byRank_total rank) items
  simpa [byRank] using hsorted

/-- Sorting keeps the order of items of one rank. -/
theorem filter_sorted
    (items : List α) (n : Nat) :
    (items.mergeSort (byRank rank)).filter (fun x => rank x = n) =
      items.filter fun x => rank x = n := by
  have hrank : (items.filter fun x => rank x = n).Pairwise fun a b => byRank rank a b = true := by
    refine List.pairwise_of_forall_mem_list ?_
    intro a ha b hb
    have ha := (List.mem_filter.1 ha).2
    have hb := (List.mem_filter.1 hb).2
    simp_all [byRank]
  have hkept :=
    List.sublist_mergeSort (byRank_trans rank) (byRank_total rank) hrank List.filter_sublist
  have hfound := hkept.filter fun x => rank x = n
  rw [List.filter_filter] at hfound
  simp only [Bool.and_self] at hfound
  have hlength := ((List.mergeSort_perm items (byRank rank)).filter fun x => rank x = n).length_eq
  exact (hfound.eq_of_length hlength.symm).symm

end Ranks

namespace Stylesheet

/-- The greatest number of classes that a rule asks for. -/
def maxClasses (stylesheet : Stylesheet) : Nat :=
  (stylesheet.rules.map fun rule => rule.selector.classes.size).foldr max 0

/-- The rules that set something, from the fewest to the most classes, and rules of equally many
classes in the order of their declaration. -/
def precedence (stylesheet : Stylesheet) : List Rule :=
  (List.range (stylesheet.maxClasses + 1)).flatMap fun n =>
    stylesheet.rules.filter fun rule =>
      !rule.attributes.isEmpty && rule.selector.classes.size = n

theorem size_le_maxClasses
    {stylesheet : Stylesheet} {rule : Rule} (h : rule ∈ stylesheet.rules) :
    rule.selector.classes.size ≤ stylesheet.maxClasses := by
  exact List.le_max_of_le (List.mem_map_of_mem h) (Nat.le_refl _)

theorem cascade_eq_sorted
    (stylesheet : Stylesheet) :
    stylesheet.cascade =
      (stylesheet.rules.filter fun rule => !rule.attributes.isEmpty).mergeSort
        (byRank fun rule => rule.selector.classes.size) :=
  rfl

/-- The rules of the cascade are in the order of their ranks. -/
theorem cascade_eq_precedence
    (stylesheet : Stylesheet) :
    stylesheet.cascade = stylesheet.precedence := by
  have hbound : ∀ rule ∈ stylesheet.cascade,
      rule.selector.classes.size < stylesheet.maxClasses + 1 := by
    intro rule hrule
    rw [cascade, List.mem_mergeSort] at hrule
    exact Nat.lt_succ_of_le (size_le_maxClasses (List.mem_filter.1 hrule).1)
  rw [cascade_eq_sorted] at hbound ⊢
  rw [eq_flatMap_ranks (pairwise_sorted _ _) hbound, precedence]
  refine List.flatMap_congr fun n _ => ?_
  rw [filter_sorted, List.filter_filter]
  refine List.filter_congr fun rule _ => ?_
  exact Bool.and_comm _ _

theorem isGeneral_iff
    {selector : Selector} :
    selector.isGeneral = true ↔ selector.classes.size < 1 := by
  rw [Selector.isGeneral, ClassSet.isEmpty, ClassSet.size, List.isEmpty_iff_length_eq_zero]
  omega

/-- The general rules come first. -/
theorem generalRules_append_classRules
    (stylesheet : Stylesheet) :
    stylesheet.generalRules ++ stylesheet.classRules = stylesheet.precedence := by
  have hcut := eq_filter_append_filter
    (pairwise_sorted (fun rule : Rule => rule.selector.classes.size)
      (stylesheet.rules.filter fun rule => !rule.attributes.isEmpty)) 1
  rw [← cascade_eq_sorted] at hcut
  rw [← cascade_eq_precedence, hcut, generalRules, classRules]
  congr 1
  · refine List.filter_congr fun rule _ => ?_
    rw [Bool.eq_iff_iff, isGeneral_iff, decide_eq_true_iff]
  · refine List.filter_congr fun rule _ => ?_
    rw [Bool.eq_iff_iff, Bool.not_eq_true', ← Bool.not_eq_true, isGeneral_iff, decide_eq_true_iff]
    omega

/-- The general rules apply in the order of their declaration. -/
theorem generalRules_eq_filter
    (stylesheet : Stylesheet) :
    stylesheet.generalRules =
      stylesheet.rules.filter fun rule =>
        !rule.attributes.isEmpty && rule.selector.isGeneral := by
  have hsorted := filter_sorted (fun rule : Rule => rule.selector.classes.size)
    (stylesheet.rules.filter fun rule => !rule.attributes.isEmpty) 0
  have hgeneral : ∀ rule : Rule,
      rule.selector.isGeneral = decide (rule.selector.classes.size = 0) := by
    intro rule
    rw [Bool.eq_iff_iff, isGeneral_iff, decide_eq_true_iff]
    omega
  rw [← cascade_eq_sorted, List.filter_filter] at hsorted
  simp only [generalRules, hgeneral]
  rw [hsorted]
  refine List.filter_congr fun rule _ => ?_
  exact Bool.and_comm _ _

end Stylesheet

end DotCascade
