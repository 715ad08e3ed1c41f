import DotCascade.Proofs.Reading.Lookahead
import DotCascade.Proofs.Reading.States
import DotCascade.Reading.Stack

/-!
# Reading words

Reading is looked at here as it acts on words, whatever their spelling.  A word
completes the productions that are complete in front of it and is then taken, and
behind the last word the tree of the whole is left.

The words of a derivation are read, and the tree that is left is that derivation
(`readAll?_yield`); whatever tree is left, the words that were read are its yield
(`yield_of_readAll?`).  So the trees of a goal and the rows of words that are read
correspond one to one (`readAll?_eq_some_iff`), and no row of words has two
derivations (`eq_of_yield_eq`).
-/

namespace DotCascade
namespace Reading

open Grammar

section Machine

variable (goal : Phrase)

/-- The frames behind one more word, if the word can be taken. -/
def readWord? (frames : List Frame) (word : Word) : Option (List Frame) :=
  let settled := settle goal (.word word.terminal) frames
  if (stateBehind goal settled).takes word.terminal then
    some (push goal (.leaf word.terminal word.lexeme) settled)
  else none

/-- The frames behind some more words, if they can be taken one after the other. -/
def readWords? (frames : List Frame) : List Word → Option (List Frame)
  | [] => some frames
  | word :: words =>
      (readWord? goal frames word).bind fun behind => readWords? behind words

/-- The tree that some words leave when nothing comes behind them. -/
def readAll? (words : List Word) : Option (Tree (.phrase goal)) :=
  (readWords? goal [] words).bind fun frames => whole? goal (settle goal .finish frames)

end Machine

theorem readWords?_append
    {goal : Phrase} {frames : List Frame} (words later : List Word) :
    readWords? goal frames (words ++ later) =
      (readWords? goal frames words).bind fun behind => readWords? goal behind later := by
  induction words generalizing frames with
  | nil =>
      rfl
  | cons word words ih =>
      simp only [List.cons_append, readWords?, Option.bind_assoc]
      cases readWord? goal frames word with
      | none =>
          rfl
      | some behind =>
          exact ih

section Framed

/-- Frames whose states lie behind one another. -/
inductive Framed (goal : Phrase) : List Frame → Prop
  | nil : Framed goal []
  | push {symbol : Symbol} {frames : List Frame} (tree : Tree symbol)
      (h : Framed goal frames) : Framed goal (push goal tree frames)

/-- The goals of reading: a graph, or the rules of a stylesheet. -/
def IsGoal (goal : Phrase) : Prop :=
  goal = .graph ∨ goal = .rules

theorem reached_stateBehind
    {goal : Phrase} (hgoal : IsGoal goal)
    {frames : List Frame} (h : Framed goal frames) :
    State.Reached (stateBehind goal frames) := by
  induction h with
  | nil =>
      rcases hgoal with rfl | rfl
      · exact State.reached_start_graph
      · exact State.reached_start_rules
  | @push symbol frames tree _ ih =>
      exact .advance symbol ih

theorem framed_below
    {goal : Phrase} {symbols : List Symbol} {frames below : List Frame}
    {children : Forest symbols}
    (h : Framed goal frames)
    (hpop : pop? symbols frames = some (children, below)) :
    Framed goal below := by
  induction symbols generalizing below with
  | nil =>
      simp only [pop?, Option.some.injEq, Prod.mk.injEq] at hpop
      exact hpop.2 ▸ h
  | cons symbol rest ih =>
      simp only [pop?] at hpop
      split at hpop
      case h_2 =>
        simp at hpop
      case h_1 later frame frames' hrest =>
        split at hpop
        case isFalse =>
          simp at hpop
        case isTrue =>
          simp only [Option.some.injEq, Prod.mk.injEq] at hpop
          cases ih hrest with
          | push tree hbelow =>
              exact hpop.2 ▸ hbelow

/-- A completed production leaves a tree of its phrase on top. -/
theorem exists_push_of_complete?
    {goal : Phrase} {next : Lookahead} {frames frames' : List Frame}
    (h : complete? goal next frames = some frames') :
    ∃ (item : Item) (children : Forest item.symbols) (below : List Frame),
      pop? item.symbols frames = some (children, below) ∧
        frames' = push goal (.node item.production children) below := by
  unfold complete? at h
  split at h
  case h_1 =>
    simp at h
  case h_2 item _ =>
    split at h
    case h_1 =>
      simp at h
    case h_2 children below hpop =>
      simp only [Option.some.injEq] at h
      exact ⟨item, children, below, hpop, h.symm⟩

theorem settle_of_none
    {goal : Phrase} {next : Lookahead} {frames : List Frame}
    (h : complete? goal next frames = none) :
    settle goal next frames = frames := by
  rw [settle]
  split
  case h_1 =>
    rfl
  case h_2 hsome =>
    rw [h] at hsome
    simp at hsome

theorem settle_of_some
    {goal : Phrase} {next : Lookahead} {frames frames' : List Frame}
    (h : complete? goal next frames = some frames') :
    settle goal next frames = settle goal next frames' := by
  rw [settle]
  split
  case h_1 hnone =>
    rw [h] at hnone
    simp at hnone
  case h_2 hsome =>
    rw [h] at hsome
    simp only [Option.some.injEq] at hsome
    rw [hsome]

/-- What every completed production keeps, settling keeps. -/
theorem settle_induction
    {goal : Phrase} {next : Lookahead} {motive : List Frame → Prop}
    (hstep : ∀ {frames frames'}, motive frames →
      complete? goal next frames = some frames' → motive frames')
    {frames : List Frame} (h : motive frames) :
    motive (settle goal next frames) := by
  fun_induction settle goal next frames with
  | case1 frames hnone =>
      exact h
  | case2 frames frames' hsome _ ih =>
      exact ih (hstep h hsome)

theorem framed_settle
    {goal : Phrase} {next : Lookahead} {frames : List Frame}
    (h : Framed goal frames) :
    Framed goal (settle goal next frames) := by
  refine settle_induction (fun hframed hcomplete => ?_) h
  obtain ⟨item, children, below, hpop, rfl⟩ := exists_push_of_complete? hcomplete
  exact .push _ (framed_below hframed hpop)

theorem framed_readWord?
    {goal : Phrase} {frames behind : List Frame} {word : Word}
    (hframed : Framed goal frames)
    (h : readWord? goal frames word = some behind) :
    Framed goal behind := by
  simp only [readWord?] at h
  split at h
  case isFalse =>
    simp at h
  case isTrue =>
    simp only [Option.some.injEq] at h
    exact h ▸ .push _ (framed_settle hframed)

theorem framed_readWords?
    {goal : Phrase} {frames behind : List Frame} {words : List Word}
    (hframed : Framed goal frames)
    (h : readWords? goal frames words = some behind) :
    Framed goal behind := by
  induction words generalizing frames with
  | nil =>
      obtain rfl := Option.some.inj h
      exact hframed
  | cons word words ih =>
      obtain ⟨next, hword, hwords⟩ := Option.bind_eq_some_iff.1 h
      exact ih (framed_readWord? hframed hword) hwords

end Framed

section Soundness

/-- The words of the trees in some frames, the last frame first. -/
def framesYield : List Frame → List Word
  | [] => []
  | frame :: frames => framesYield frames ++ frame.tree.yield

theorem framesYield_push
    {goal : Phrase} {symbol : Symbol} (tree : Tree symbol) (frames : List Frame) :
    framesYield (push goal tree frames) = framesYield frames ++ tree.yield := by
  rfl

theorem framesYield_pop?
    {symbols : List Symbol} {frames below : List Frame} {children : Forest symbols}
    (h : pop? symbols frames = some (children, below)) :
    framesYield frames = framesYield below ++ children.yield := by
  induction symbols generalizing below with
  | nil =>
      simp only [pop?, Option.some.injEq, Prod.mk.injEq] at h
      obtain ⟨rfl, rfl⟩ := h
      simp [Forest.yield]
  | cons symbol rest ih =>
      simp only [pop?] at h
      split at h
      case h_2 =>
        simp at h
      case h_1 later frame frames' hrest =>
        split at h
        case isFalse =>
          simp at h
        case isTrue hsymbol =>
          simp only [Option.some.injEq, Prod.mk.injEq] at h
          obtain ⟨rfl, rfl⟩ := h
          rw [ih hrest]
          subst hsymbol
          simp [framesYield, Forest.yield, List.append_assoc]

theorem framesYield_settle
    {goal : Phrase} {next : Lookahead} (frames : List Frame) :
    framesYield (settle goal next frames) = framesYield frames := by
  refine settle_induction
    (motive := fun settled => framesYield settled = framesYield frames)
    (fun hyield hcomplete => ?_) rfl
  obtain ⟨item, children, below, hpop, rfl⟩ := exists_push_of_complete? hcomplete
  rw [framesYield_push, ← hyield, framesYield_pop? hpop]
  rfl

theorem framesYield_readWord?
    {goal : Phrase} {frames behind : List Frame} {word : Word}
    (h : readWord? goal frames word = some behind) :
    framesYield behind = framesYield frames ++ [word] := by
  simp only [readWord?] at h
  split at h
  case isFalse =>
    simp at h
  case isTrue =>
    simp only [Option.some.injEq] at h
    rw [← h, framesYield_push, framesYield_settle]
    rfl

theorem framesYield_readWords?
    {goal : Phrase} {frames behind : List Frame} {words : List Word}
    (h : readWords? goal frames words = some behind) :
    framesYield behind = framesYield frames ++ words := by
  induction words generalizing frames with
  | nil =>
      simp only [readWords?, Option.some.injEq] at h
      simp [h]
  | cons word words ih =>
      obtain ⟨next, hword, hwords⟩ := Option.bind_eq_some_iff.1 h
      rw [ih hwords, framesYield_readWord? hword, List.append_assoc]
      rfl

theorem framesYield_of_whole?
    {goal : Phrase} {frames : List Frame} {tree : Tree (.phrase goal)}
    (h : whole? goal frames = some tree) :
    framesYield frames = tree.yield := by
  unfold whole? at h
  split at h
  case h_2 =>
    simp at h
  case h_1 frame =>
    split at h
    case isFalse =>
      simp at h
    case isTrue hsymbol =>
      simp only [Option.some.injEq] at h
      subst h
      obtain ⟨tree, state⟩ := frame
      simp only at hsymbol
      subst hsymbol
      simp [framesYield]

/-- The words that were read are the yield of the tree that is left. -/
theorem yield_of_readAll?
    {goal : Phrase} {words : List Word} {tree : Tree (.phrase goal)}
    (h : readAll? goal words = some tree) :
    tree.yield = words := by
  obtain ⟨frames, hwords, hwhole⟩ := Option.bind_eq_some_iff.1 h
  rw [← framesYield_of_whole? hwhole, framesYield_settle, framesYield_readWords? hwords]
  rfl

end Soundness

section Completeness

/-- The frames with the trees of a forest put on top, one after the other. -/
def pushAll (goal : Phrase) :
    {symbols : List Symbol} → Forest symbols → List Frame → List Frame
  | _, .nil, frames => frames
  | _, .cons tree later, frames => pushAll goal later (push goal tree frames)

theorem framed_pushAll
    {goal : Phrase} :
    {symbols : List Symbol} → (forest : Forest symbols) → {frames : List Frame} →
    Framed goal frames → Framed goal (pushAll goal forest frames)
  | _, .nil, _, h => h
  | _, .cons tree later, _, h => framed_pushAll later (.push tree h)

/-- The trees of a forest that was put on top are taken off again. -/
theorem pop?_pushAll
    {goal : Phrase} :
    {symbols : List Symbol} → (forest : Forest symbols) → (frames : List Frame) →
    pop? symbols (pushAll goal forest frames) = some (forest, frames)
  | _, .nil, _ => rfl
  | _, .cons tree later, frames => by
      simp only [pushAll, pop?, pop?_pushAll later (push goal tree frames)]
      simp [push]

/-- Behind the symbols of a forest, an item goes on with what it still waits for. -/
theorem mem_stateBehind_pushAll
    {goal : Phrase} :
    {symbols : List Symbol} → (forest : Forest symbols) →
    {frames : List Frame} → {item : Item} → {rest : List Symbol} →
    item ∈ stateBehind goal frames → item.rest = symbols ++ rest →
    { item with rest := rest } ∈ stateBehind goal (pushAll goal forest frames)
  | _, .nil, _, item, rest, hitem, hrest => by
      have heq : { item with rest := rest } = item :=
        Item.ext_symbols rfl rfl hrest.symm
      rw [heq]
      exact hitem
  | _, @Forest.cons _ symbols tree later, _, item, rest, hitem, hrest => by
      have hadvance := State.mem_advance hitem hrest
      exact @mem_stateBehind_pushAll goal _ later (push goal tree _)
        { item with rest := symbols ++ rest } rest hadvance rfl

/-- A production whose symbols have all been read is completed in front of what may follow. -/
theorem complete?_pushAll
    {goal : Phrase} (hgoal : IsGoal goal)
    {result : Phrase} {symbols : List Symbol}
    (production : Production result symbols) (children : Forest symbols)
    {frames : List Frame} {next : Lookahead}
    (hframed : Framed goal frames)
    (hitem : ⟨production, symbols⟩ ∈ stateBehind goal frames)
    (hnext : next ∈ result.follow) :
    complete? goal next (pushAll goal children frames) =
      some (push goal (.node production children) frames) := by
  have hdone : (⟨production, []⟩ : Item) ∈ stateBehind goal (pushAll goal children frames) :=
    mem_stateBehind_pushAll children hitem (List.append_nil symbols).symm
  have hreached := reached_stateBehind hgoal (framed_pushAll children hframed)
  simp only [complete?, State.complete?_eq_some hreached hdone rfl hnext,
    pop?_pushAll children frames]

/-- Two stacks of frames that settle alike read the same words behind them. -/
theorem readWords?_congr
    {goal : Phrase} {frames frames' behind : List Frame} {words : List Word}
    {last : Lookahead}
    (hsettle :
      settle goal (comingNext words last) frames = settle goal (comingNext words last) frames')
    (h : readWords? goal frames' words = some behind) :
    ∃ behind', readWords? goal frames words = some behind' ∧
      settle goal last behind' = settle goal last behind := by
  cases words with
  | nil =>
      simp only [readWords?, Option.some.injEq] at h
      exact ⟨frames, rfl, h ▸ hsettle⟩
  | cons word words =>
      refine ⟨behind, ?_, rfl⟩
      rw [← h]
      simp only [comingNext] at hsettle
      simp only [readWords?, readWord?, hsettle]

mutual

/-- The words of a tree that is waited for are read, and settle to that tree. -/
theorem readWords?_tree
    {goal : Phrase} (hgoal : IsGoal goal) :
    {symbol : Symbol} → (tree : Tree symbol) →
    {frames : List Frame} → {next : Lookahead} → Framed goal frames →
    (∃ item ∈ stateBehind goal frames, item.rest.head? = some symbol) →
    (∀ phrase, symbol = .phrase phrase → next ∈ phrase.follow) →
    ∃ behind, readWords? goal frames tree.yield = some behind ∧
      settle goal next behind = settle goal next (push goal tree frames)
  | _, .leaf terminal lexeme, frames, next, hframed, hitem, _ => by
      have htakes := State.takes_iff.2 hitem
      have hnone := State.complete?_eq_none_of_takes (reached_stateBehind hgoal hframed) htakes
      have hsettle : settle goal (.word terminal) frames = frames := by
        apply settle_of_none
        simp only [complete?, hnone]
      refine ⟨push goal (.leaf terminal lexeme) frames, ?_, rfl⟩
      simp [Tree.yield, readWords?, readWord?, hsettle, htakes]
  | _, @Grammar.Tree.node result symbols production children, frames, next, hframed, hitem,
    hnext => by
      obtain ⟨item, hmem, hhead⟩ := hitem
      have hawaited : item.awaited? = some result := by
        obtain ⟨rest, hrest⟩ := List.head?_eq_some_iff.1 hhead
        simp [Item.awaited?, hrest]
      have hbegin : ⟨production, symbols⟩ ∈ stateBehind goal frames :=
        State.begin_mem (reached_stateBehind hgoal hframed) hmem hawaited
          production.mem_alternatives
      have hfollow := hnext result rfl
      obtain ⟨behind, hread, hsettle⟩ :=
        readWords?_forest hgoal children production hframed hbegin
          (chained_symbols production) hfollow
      refine ⟨behind, hread, ?_⟩
      rw [hsettle]
      exact settle_of_some (complete?_pushAll hgoal production children hframed hbegin hfollow)

/-- The words of a forest that an item waits for are read, and settle to that forest. -/
theorem readWords?_forest
    {goal : Phrase} (hgoal : IsGoal goal) :
    {rest : List Symbol} → (forest : Forest rest) →
    {result : Phrase} → {symbols : List Symbol} → (production : Production result symbols) →
    {frames : List Frame} → {next : Lookahead} → Framed goal frames →
    ⟨production, rest⟩ ∈ stateBehind goal frames →
    chained result rest = true → next ∈ result.follow →
    ∃ behind, readWords? goal frames forest.yield = some behind ∧
      settle goal next behind = settle goal next (pushAll goal forest frames)
  | _, .nil, _, _, _, frames, _, _, _, _, _ =>
      ⟨frames, rfl, rfl⟩
  | _, @Forest.cons first rest tree later, result, _, production, frames, next,
      hframed, hitem, hchained, hnext => by
      have hcoming :
          ∀ phrase, first = .phrase phrase →
            comingNext later.yield next ∈ phrase.follow := by
        rintro phrase rfl
        exact comingNext_mem_follow hchained hnext later
      obtain ⟨middle, hread, hmiddle⟩ :=
        readWords?_tree hgoal tree hframed ⟨_, hitem, rfl⟩ hcoming
      have hadvance := State.mem_advance hitem rfl
      obtain ⟨last, hlater, hlast⟩ :=
        readWords?_forest hgoal later production (.push tree hframed) hadvance
          (chained_tail hchained) hnext
      obtain ⟨behind, hbehind, hsettle⟩ := readWords?_congr hmiddle hlater
      refine ⟨behind, ?_, hsettle.trans hlast⟩
      simp only [Forest.yield, readWords?_append, hread, Option.bind_some, hbehind]

end

end Completeness

section Correspondence

/-- Behind the whole no production is complete. -/
theorem complete?_whole
    {goal : Phrase} (hgoal : IsGoal goal) (tree : Tree (.phrase goal)) :
    complete? goal .finish (push goal tree []) = none := by
  have hnone :
      ((State.start goal).advance (.phrase goal)).complete? .finish = none := by
    rcases hgoal with rfl | rfl <;> decide
  simp only [complete?, stateBehind, push, hnone]

theorem settle_whole
    {goal : Phrase} (hgoal : IsGoal goal) (tree : Tree (.phrase goal)) :
    settle goal .finish (push goal tree []) = push goal tree [] :=
  settle_of_none (complete?_whole hgoal tree)

theorem finish_mem_follow
    {goal : Phrase} (hgoal : IsGoal goal) :
    .finish ∈ goal.follow := by
  rcases hgoal with rfl | rfl <;> decide

/-- The words of a derivation are read, and the derivation is left. -/
theorem readAll?_yield
    {goal : Phrase} (hgoal : IsGoal goal) (tree : Tree (.phrase goal)) :
    readAll? goal tree.yield = some tree := by
  match tree with
  | .node production children =>
      have hbegin : ⟨production, _⟩ ∈ stateBehind goal [] :=
        State.mem_beginning.2
          ⟨goal, List.mem_singleton.2 rfl, goal, State.mem_corners goal,
            ⟨production⟩, production.mem_alternatives, rfl⟩
      have hfollow := finish_mem_follow hgoal
      obtain ⟨frames, hread, hsettle⟩ :=
        readWords?_forest hgoal children production .nil hbegin
          (chained_symbols production) hfollow
      have hcomplete := complete?_pushAll hgoal production children .nil hbegin hfollow
      rw [settle_of_some hcomplete, settle_whole hgoal] at hsettle
      simp only [readAll?, Tree.yield, hread, Option.bind_some, hsettle]
      simp [whole?, push]

/-- Reading some words leaves a tree exactly when they are its yield. -/
theorem readAll?_eq_some_iff
    {goal : Phrase} (hgoal : IsGoal goal)
    {words : List Word} {tree : Tree (.phrase goal)} :
    readAll? goal words = some tree ↔ tree.yield = words :=
  ⟨yield_of_readAll?, fun h => h ▸ readAll?_yield hgoal tree⟩

/-- No row of words has two derivations. -/
theorem eq_of_yield_eq
    {goal : Phrase} (hgoal : IsGoal goal)
    {tree tree' : Tree (.phrase goal)}
    (h : tree.yield = tree'.yield) :
    tree = tree' := by
  have hread := readAll?_yield hgoal tree
  rw [h, readAll?_yield hgoal tree'] at hread
  exact (Option.some.inj hread).symm

end Correspondence

end Reading
end DotCascade
