import DotCascade.Proofs.Stylesheet.AttributeOrder
import DotCascade.Proofs.Stylesheet.Defaults
import Mathlib.Data.List.FinRange
import Mathlib.Data.List.NodupEquivFin
import Mathlib.Logic.Equiv.Defs

/-!
# The order of rules

The order of two rules makes a difference only if they are equally specific and
either both become defaults or select the same kind of element and disagree about a
key (`Rule.Commutes`).  So rules may be put into any other order in which no two
rules change places that do not commute (`same_apply_of_reordering`).

Rules that agree in pairs might still come into each other's way through a third
rule.  They do not: what counts for a key is one rule, the last one of its rank that
selects the element and sets the key.  If reordering makes another rule the last
one, then these two have changed places, and they agree.
-/

namespace DotCascade

section Lists

variable {α : Type}

/-- The places of the items that pass a test, in order. -/
def placesOf (items : List α) (test : α → Bool) : List (Fin items.length) :=
  (List.finRange items.length).filter fun i => test items[i]

theorem mem_placesOf
    {items : List α} {test : α → Bool} {i : Fin items.length} :
    i ∈ placesOf items test ↔ test items[i] = true := by
  rw [placesOf, List.mem_filter]
  exact and_iff_right (List.mem_finRange i)

theorem pairwise_placesOf
    (items : List α) (test : α → Bool) :
    (placesOf items test).Pairwise (· < ·) :=
  (List.pairwise_lt_finRange _).filter _

theorem map_placesOf
    (items : List α) (test : α → Bool) :
    (placesOf items test).map (fun i => items[i]) = items.filter test := by
  have hall : (List.finRange items.length).map (fun i => items[i]) = items :=
    List.map_getElem_finRange items
  conv_rhs => rw [← hall, List.filter_map]
  rfl

/-- A permutation of a list spells out its items at some permutation of their places. -/
theorem exists_places_of_perm
    {items others : List α} (h : items.Perm others) :
    ∃ places : List (Fin items.length),
      places.Perm (List.finRange items.length) ∧ places.map (fun i => items[i]) = others := by
  have hitems : (List.finRange items.length).map (fun i => items[i]) = items :=
    List.map_getElem_finRange items
  have hcut := congrFun₂ (List.eq_map_comp_perm fun i : Fin items.length => items[i]) others
    (List.finRange items.length)
  rw [hitems] at hcut
  obtain ⟨places, hothers, hplaces⟩ := hcut.mpr h.symm
  exact ⟨places, hplaces, hothers.symm⟩

/-- A reordering of a list tells where each of its items stands in the other list. -/
structure Reordering (items others : List α) where
  place : Fin items.length ≃ Fin others.length
  getElem_place : ∀ i, others[place i] = items[i]

namespace Reordering

variable {items others : List α} (reordering : Reordering items others)

/-- The items at two places, one before the other, stand the other way round after a reordering. -/
def Swaps (i j : Fin items.length) : Prop :=
  i < j ∧ reordering.place j < reordering.place i

instance (i j : Fin items.length) :
    Decidable (reordering.Swaps i j) :=
  inferInstanceAs (Decidable (_ ∧ _))

theorem perm_placesOf
    (test : α → Bool) :
    ((placesOf items test).map reordering.place).Perm (placesOf others test) := by
  have hnodup : ((placesOf items test).map reordering.place).Nodup :=
    ((pairwise_placesOf items test).imp Fin.ne_of_lt).map _ fun _ _ => reordering.place.injective.ne
  have hnodup' : (placesOf others test).Nodup :=
    (pairwise_placesOf others test).imp Fin.ne_of_lt
  rw [List.perm_ext_iff_of_nodup hnodup hnodup']
  intro i
  rw [List.mem_map, mem_placesOf]
  constructor
  · rintro ⟨j, hj, rfl⟩
    rw [reordering.getElem_place]
    exact mem_placesOf.1 hj
  · intro hi
    obtain ⟨j, rfl⟩ := reordering.place.surjective i
    rw [reordering.getElem_place] at hi
    exact ⟨j, mem_placesOf.2 hi, rfl⟩

theorem map_getElem_place
    (places : List (Fin items.length)) :
    (places.map reordering.place).map (fun i => others[i]) = places.map fun i => items[i] := by
  rw [List.map_map]
  exact List.map_congr_left fun i _ => reordering.getElem_place i

/-- The items that pass a test are the same in both lists. -/
theorem perm_filter
    (reordering : Reordering items others) (test : α → Bool) :
    (items.filter test).Perm (others.filter test) := by
  rw [← map_placesOf, ← map_placesOf, ← reordering.map_getElem_place]
  exact (reordering.perm_placesOf test).map _

theorem perm
    (reordering : Reordering items others) :
    items.Perm others := by
  simpa only [List.filter_true] using reordering.perm_filter fun _ => true

/-- Lists have a reordering exactly if they are permutations of each other. -/
theorem nonempty_iff_perm :
    Nonempty (Reordering items others) ↔ items.Perm others := by
  constructor
  · rintro ⟨reordering⟩
    exact reordering.perm
  · intro hperm
    obtain ⟨places, hplaces, rfl⟩ := exists_places_of_perm hperm
    have hnodup : places.Nodup := hplaces.nodup_iff.2 (List.nodup_finRange _)
    have hall (i : Fin items.length) : i ∈ places := hplaces.mem_iff.2 (List.mem_finRange i)
    let standing := hnodup.getEquivOfForallMemList places hall
    have hlength : places.length = (places.map fun i => items[i]).length :=
      (List.length_map _).symm
    refine ⟨⟨standing.symm.trans (finCongr hlength), fun i => ?_⟩⟩
    have hstanding : places[standing.symm i] = i := standing.apply_symm_apply i
    simpa using congrArg (fun i : Fin items.length => items[i]) hstanding

/-- Items that keep their order among each other are found in the same order in both lists. -/
theorem filter_eq
    {test : α → Bool}
    (h : ∀ i j, reordering.Swaps i j → test items[i] = true → test items[j] = true → False) :
    items.filter test = others.filter test := by
  have hascending :
      ((placesOf items test).map reordering.place).Pairwise (· < ·) := by
    rw [List.pairwise_map]
    refine (pairwise_placesOf items test).imp_of_mem fun {i j} hi hj hlt => ?_
    have hkept : ¬ reordering.place j < reordering.place i := fun hgt =>
      h i j ⟨hlt, hgt⟩ (mem_placesOf.1 hi) (mem_placesOf.1 hj)
    have hne : reordering.place i ≠ reordering.place j :=
      reordering.place.injective.ne (Fin.ne_of_lt hlt)
    omega
  have hplaces : (placesOf items test).map reordering.place = placesOf others test :=
    (reordering.perm_placesOf test).eq_of_pairwise
      (fun _ _ _ _ hlt hgt => absurd hgt (Fin.lt_asymm hlt)) hascending
      (pairwise_placesOf others test)
  rw [← map_placesOf, ← map_placesOf, ← hplaces, reordering.map_getElem_place]

end Reordering

end Lists

section LastRule

variable {rules rules' : List Rule} {test : Rule → Bool} {key value value' : Atom}

/-- The last rule that passes a test and sets a key stands at some place, and no such rule behind
it. -/
theorem exists_place_of_lastGiven?
    (h : lastGiven? (rules.filter test) key = some value) :
    ∃ i : Fin rules.length, test rules[i] = true ∧
      rules[i].attributes.get? key = some value ∧
      ∀ j : Fin rules.length, i < j → test rules[j] = true →
        rules[j].attributes.get? key = none := by
  obtain ⟨earlier, rule, later, rfl, htest, hvalue, hlater⟩ :=
    lastGives_of_lastGiven? (fun _ => Iff.rfl) h
  have hplace : earlier.length < (earlier ++ rule :: later).length := by
    simp
  have hrule : (earlier ++ rule :: later)[(⟨earlier.length, hplace⟩ : Fin _)] = rule := by
    simp
  refine ⟨⟨earlier.length, hplace⟩, ?_, ?_, ?_⟩
  · rw [hrule]
    exact htest
  · rw [hrule]
    exact hvalue
  · rintro ⟨j, hj⟩ hlt htest
    obtain ⟨k, rfl⟩ := Nat.exists_eq_add_of_lt hlt
    have hnumber : earlier.length + k + 1 - earlier.length = k + 1 := by
      omega
    have hother : (earlier ++ rule :: later)[earlier.length + k + 1] ∈ later := by
      rw [List.getElem_append_right (by omega)]
      simp only [hnumber, List.getElem_cons_succ]
      exact List.getElem_mem _
    exact hlater _ hother htest

/-- If two rules that pass a test agree whenever they change places, then the last value of a key
among these rules stays the same. -/
theorem lastGiven?_filter_reordered
    (reordering : Reordering rules rules')
    (h : ∀ i j, reordering.Swaps i j → test rules[i] = true → test rules[j] = true →
      ∀ value value', rules[i].attributes.get? key = some value →
        rules[j].attributes.get? key = some value' → value = value') :
    lastGiven? (rules.filter test) key = lastGiven? (rules'.filter test) key := by
  have hnone :
      lastGiven? (rules.filter test) key = none ↔ lastGiven? (rules'.filter test) key = none := by
    rw [lastGiven?_eq_none, lastGiven?_eq_none]
    exact forall_congr' fun rule =>
      imp_congr_left (reordering.perm_filter test).mem_iff
  cases hlast : lastGiven? (rules.filter test) key with
  | none =>
      exact (hnone.1 hlast).symm
  | some value =>
      cases hlast' : lastGiven? (rules'.filter test) key with
      | none =>
          rw [hnone.2 hlast'] at hlast
          cases hlast
      | some value' =>
          obtain ⟨i, hi, hvalue, hbehind⟩ := exists_place_of_lastGiven? hlast
          obtain ⟨i', hi', hvalue', hbehind'⟩ := exists_place_of_lastGiven? hlast'
          obtain ⟨j, rfl⟩ := reordering.place.surjective i'
          rw [reordering.getElem_place] at hi' hvalue'
          rcases lt_trichotomy i j with hlt | rfl | hgt
          · rw [hbehind j hlt hi'] at hvalue'
            cases hvalue'
          · rw [hvalue] at hvalue'
            rw [hvalue']
          · have hplace : reordering.place i ≤ reordering.place j := by
              by_contra hlt
              have hset := hbehind' (reordering.place i) (not_le.1 hlt)
              rw [reordering.getElem_place] at hset
              rw [hset hi] at hvalue
              cases hvalue
            have hswap : reordering.Swaps j i :=
              ⟨hgt, lt_of_le_of_ne hplace (reordering.place.injective.ne hgt.ne')⟩
            rw [h j i hswap hi' hi value' value hvalue' hvalue]

end LastRule

section Cascade

/-- The order of two rules makes no difference: they are not equally specific, or they do not both
become defaults and are about different kinds of element or agree about every key. -/
def Rule.Commutes (rule other : Rule) : Prop :=
  rule.selector.specificity ≠ other.selector.specificity ∨
    ¬ (rule.selector.givesDefaults = true ∧ other.selector.givesDefaults = true) ∧
      (rule.selector.entity ≠ other.selector.entity ∨
        ∀ key ∈ rule.attributes.keys, key ∈ other.attributes.keys →
          rule.attributes.get? key = other.attributes.get? key)

instance (rule other : Rule) :
    Decidable (rule.Commutes other) :=
  inferInstanceAs (Decidable (_ ∨ _))

/-- Rules that set something commute with those with which they change places. -/
def Reordering.IsHarmless
    {rules rules' : List Rule} (reordering : Reordering rules rules') : Prop :=
  ∀ i j, reordering.Swaps i j → rules[i].attributes.isEmpty = false →
    rules[j].attributes.isEmpty = false → rules[i].Commutes rules[j]

instance {rules rules' : List Rule} (reordering : Reordering rules rules') :
    Decidable reordering.IsHarmless :=
  inferInstanceAs (Decidable (∀ _ _, _ → _ → _ → _))

theorem mem_keys_of_get?
    {attributes : Attributes} {key value : Atom} (h : attributes.get? key = some value) :
    key ∈ attributes.keys :=
  List.mem_map.2 ⟨(key, value), mem_entries_iff.2 h, rfl⟩

/-- Equally specific rules for one kind of element that commute agree about the keys that both
set. -/
theorem Rule.Commutes.eq_of_get?
    {rule other : Rule} {key value value' : Atom} (h : rule.Commutes other)
    (hspecificity : rule.selector.specificity = other.selector.specificity)
    (hentity : rule.selector.entity = other.selector.entity)
    (hvalue : rule.attributes.get? key = some value)
    (hvalue' : other.attributes.get? key = some value') :
    value = value' := by
  rcases h with hspecific | ⟨-, hentities | hagree⟩
  · exact absurd hspecificity hspecific
  · exact absurd hentity hentities
  · have hsame := hagree key (mem_keys_of_get? hvalue) (mem_keys_of_get? hvalue')
    rw [hvalue, hvalue'] at hsame
    exact Option.some.inj hsame

theorem lastGiven?_flatMap_congr
    {key : Atom} {parts parts' : Nat → List Rule}
    (h : ∀ n, lastGiven? (parts n) key = lastGiven? (parts' n) key) (ranks : List Nat) :
    lastGiven? (ranks.flatMap parts) key = lastGiven? (ranks.flatMap parts') key := by
  induction ranks with
  | nil =>
      rfl
  | cons rank rest ih =>
      rw [List.flatMap_cons, List.flatMap_cons, lastGiven?_append, lastGiven?_append, ih, h]

variable {stylesheet stylesheet' : Stylesheet}

theorem maxClasses_reordered
    (reordering : Reordering stylesheet.rules stylesheet'.rules) :
    stylesheet.maxClasses = stylesheet'.maxClasses := by
  refine (reordering.perm.map _).foldr_eq' (fun x _ y _ z => ?_) 0
  exact max_left_comm y x z

variable {reordering : Reordering stylesheet.rules stylesheet'.rules}

/-- Among the rules for one kind of element, a harmless reordering keeps the last value of every
key in the order of precedence. -/
theorem lastGiven?_precedence_reordered
    (hreordering : reordering.IsHarmless) {test : Rule → Bool} (entity : Entity)
    (htest : ∀ rule, test rule = true → rule.selector.entity = entity) (key : Atom) :
    lastGiven? (stylesheet.precedence.filter test) key =
      lastGiven? (stylesheet'.precedence.filter test) key := by
  rw [Stylesheet.precedence, Stylesheet.precedence, maxClasses_reordered reordering,
    List.filter_flatMap, List.filter_flatMap]
  refine lastGiven?_flatMap_congr (fun n => ?_) _
  rw [List.filter_filter, List.filter_filter]
  refine lastGiven?_filter_reordered reordering fun i j hswap hi hj value value' => ?_
  simp only [Bool.and_eq_true, Bool.not_eq_true', decide_eq_true_eq] at hi hj
  have hcommutes := hreordering i j hswap hi.2.1 hj.2.1
  exact hcommutes.eq_of_get? (hi.2.2.trans hj.2.2.symm)
    ((htest _ hi.1).trans (htest _ hj.1).symm)

theorem specificity_of_givesDefaults
    {selector : Selector} (h : selector.givesDefaults = true) :
    selector.specificity = 0 := by
  rw [givesDefaults_eq, Bool.and_eq_true, Stylesheet.isGeneral_iff] at h
  exact Nat.lt_one_iff.1 h.1

/-- The rules that become defaults keep their order. -/
theorem directives_reordered
    (hreordering : reordering.IsHarmless) :
    stylesheet.directives = stylesheet'.directives := by
  rw [directives_eq_filterMap, directives_eq_filterMap]
  refine congrArg _ (reordering.filter_eq fun i j hswap hi hj => ?_)
  simp only [Bool.and_eq_true, Bool.not_eq_true'] at hi hj
  rcases hreordering i j hswap hi.1 hj.1 with hspecific | ⟨hdefaults, -⟩
  · exact hspecific <|
      (specificity_of_givesDefaults hi.2).trans (specificity_of_givesDefaults hj.2).symm
  · exact hdefaults ⟨hi.2, hj.2⟩

theorem same_generalContent_reordered
    (hreordering : reordering.IsHarmless) :
    (generalContent stylesheet.generalRules).same (generalContent stylesheet'.generalRules) =
      true := by
  refine Content.same_iff.2 ⟨Attributes.same_iff.2 fun key => ?_, ?_⟩
  · rw [get?_generalContent, get?_generalContent, Stylesheet.generalRules,
      Stylesheet.generalRules, Stylesheet.cascade_eq_precedence,
      Stylesheet.cascade_eq_precedence, List.filter_filter, List.filter_filter]
    refine lastGiven?_precedence_reordered hreordering .graph (fun rule hrule => ?_) key
    rw [Bool.and_eq_true, decide_eq_true_iff] at hrule
    exact hrule.1
  · rw [statements_generalContent, statements_generalContent, directives_reordered hreordering]
    exact .refl _

theorem styleAlike_reordered
    (hreordering : reordering.IsHarmless) :
    StyleAlike stylesheet.classRules stylesheet'.classRules := by
  intro entity own own' hown
  refine Attributes.same_iff.2 fun key => ?_
  rw [get?_styledAttributes, get?_styledAttributes, Attributes.same_iff.1 hown key,
    classes_of_same hown, Stylesheet.classRules, Stylesheet.classRules,
    Stylesheet.cascade_eq_precedence, Stylesheet.cascade_eq_precedence, List.filter_filter,
    List.filter_filter]
  refine congrArg _
    (lastGiven?_precedence_reordered hreordering entity (fun rule hrule => ?_) key)
  rw [Bool.and_eq_true, matchesElement_iff] at hrule
  exact hrule.1.1

/-- Rules may be put into another order if no two of them that set something and do not commute
change places. -/
theorem same_apply_of_reordering
    (hreordering : reordering.IsHarmless) (graph : Graph) :
    (stylesheet.apply graph).same (stylesheet'.apply graph) = true := by
  have hgraph : graph.same graph = true :=
    Graph.same_iff.2 ⟨rfl, rfl, rfl, Content.same_iff.2 ⟨Attributes.same_refl _, .refl _⟩⟩
  exact same_apply_of_styleAlike (same_generalContent_reordered hreordering)
    (styleAlike_reordered hreordering) hgraph

/-- Rules that agree, are about different kinds of element or are not equally specific, in reverse
order. -/
theorem same_apply_of_reordering_reverse :
    let gives (value : String) : Attributes := .ofList [(.text "k", .text value)]
    let agreeing : Rule := ⟨⟨.node, .ofList ["x"]⟩, gives "1"⟩
    let other : Rule := ⟨⟨.node, .ofList ["y"]⟩, gives "1"⟩
    let edges : Rule := ⟨⟨.edge, .ofList ["x"]⟩, gives "2"⟩
    let specific : Rule := ⟨⟨.node, .ofList ["x", "y"]⟩, gives "3"⟩
    let defaults : Rule := ⟨.general .node, gives "4"⟩
    let root : Rule := ⟨.general .graph, gives "5"⟩
    let rules := [agreeing, other, edges, specific, defaults, root]
    let rules' := [root, defaults, specific, edges, other, agreeing]
    let reordering : Reordering rules rules' := ⟨@Fin.revPerm 6, by decide⟩
    reordering.IsHarmless ∧
      ∀ graph, ((⟨rules⟩ : Stylesheet).apply graph).same ((⟨rules'⟩ : Stylesheet).apply graph) =
        true := by
  intro gives agreeing other edges specific defaults root rules rules' reordering
  have hreordering : reordering.IsHarmless := by decide
  have hsame (graph : Graph) :
      ((⟨rules⟩ : Stylesheet).apply graph).same ((⟨rules'⟩ : Stylesheet).apply graph) = true :=
    same_apply_of_reordering hreordering graph
  exact ⟨hreordering, hsame⟩

end Cascade

end DotCascade
