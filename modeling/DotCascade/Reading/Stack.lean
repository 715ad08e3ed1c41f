import DotCascade.Grammar.Tree
import DotCascade.Reading.State

/-!
# Trees that have been read

The trees that have been read are kept in frames, the last one first, each with
the state behind it.  When a production is complete, its trees are taken off and
a tree of its phrase comes in their place.

Every production lowers the weight of the frames, so that only finitely many
productions can be completed before the next word is taken.
-/

namespace DotCascade
namespace Reading

open Grammar

/-- A tree that has been read, and the state behind it. -/
structure Frame where
  {symbol : Symbol}
  tree : Tree symbol
  state : State

/-- The state behind the last tree; without trees the state in which reading begins. -/
def stateBehind (goal : Phrase) : List Frame → State
  | [] => .start goal
  | frame :: _ => frame.state

/-- The frames with one more tree. -/
def push {symbol : Symbol} (goal : Phrase) (tree : Tree symbol) (frames : List Frame) :
    List Frame :=
  ⟨tree, (stateBehind goal frames).advance symbol⟩ :: frames

/-- Takes off the trees of a row of symbols. -/
def pop? : (symbols : List Symbol) → List Frame → Option (Forest symbols × List Frame)
  | [], frames => some (.nil, frames)
  | symbol :: rest, frames =>
      match pop? rest frames with
      | some (later, frame :: frames) =>
          if h : frame.symbol = symbol then some (.cons (h ▸ frame.tree) later, frames)
          else none
      | _ => none

/-- Completes a production that is complete where the given thing comes next. -/
def complete? (goal : Phrase) (next : Lookahead) (frames : List Frame) :
    Option (List Frame) :=
  match (stateBehind goal frames).complete? next with
  | none => none
  | some item =>
      match pop? item.symbols frames with
      | none => none
      | some (children, below) => some (push goal (.node item.production children) below)

section Weight

/-- A phrase weighs less than the symbols of any of its productions. -/
def phraseWeight : Phrase → Nat
  | .entry | .bracketed | .pairEntry | .rule | .selector | .declaration => 2
  | .statement | .endpoint | .pair | .entity | .classes => 3
  | .nodeRefs | .chain | .subgraph => 4
  | .nodeRef | .block => 5
  | .atom => 6
  | .quoted => 7
  | _ => 1

/-- The weight of a symbol. -/
def symbolWeight : Symbol → Nat
  | .word _ => 8
  | .phrase phrase => phraseWeight phrase

/-- The weight of a row of symbols. -/
def weight : List Symbol → Nat
  | [] => 0
  | symbol :: rest => symbolWeight symbol + weight rest

/-- The weight of the trees in some frames. -/
def frameWeight (frames : List Frame) : Nat :=
  weight (frames.map Frame.symbol)

theorem phraseWeight_lt
    {result : Phrase} {symbols : List Symbol}
    (production : Production result symbols) :
    phraseWeight result < weight symbols := by
  cases production <;> decide

theorem frameWeight_push
    {symbol : Symbol} (goal : Phrase) (tree : Tree symbol) (frames : List Frame) :
    frameWeight (push goal tree frames) = symbolWeight symbol + frameWeight frames := by
  rfl

theorem frameWeight_pop?
    {symbols : List Symbol} {frames below : List Frame} {children : Forest symbols}
    (h : pop? symbols frames = some (children, below)) :
    frameWeight frames = weight symbols + frameWeight below := by
  induction symbols generalizing below with
  | nil =>
      simp only [pop?, Option.some.injEq, Prod.mk.injEq] at h
      simp [h.2, weight]
  | cons symbol rest ih =>
      simp only [pop?] at h
      split at h
      case h_2 => simp at h
      case h_1 later frame frames' hp =>
        split at h
        case isFalse => simp at h
        case isTrue hs =>
          simp only [Option.some.injEq, Prod.mk.injEq] at h
          have hw := ih hp
          rw [← h.2, hw, ← hs]
          simp [frameWeight, weight]
          omega

/-- Completing a production lowers the weight. -/
theorem frameWeight_complete?_lt
    {goal : Phrase} {next : Lookahead} {frames frames' : List Frame}
    (h : complete? goal next frames = some frames') :
    frameWeight frames' < frameWeight frames := by
  unfold complete? at h
  split at h
  case h_1 => simp at h
  case h_2 item _ =>
    split at h
    case h_1 => simp at h
    case h_2 children below hp =>
      simp only [Option.some.injEq] at h
      rw [← h, frameWeight_push, frameWeight_pop? hp]
      have := phraseWeight_lt item.production
      simp only [symbolWeight]
      omega

end Weight

/-- Completes productions as long as one is complete where the given thing comes next. -/
def settle (goal : Phrase) (next : Lookahead) (frames : List Frame) : List Frame :=
  match h : complete? goal next frames with
  | none => frames
  | some frames' =>
      have := frameWeight_complete?_lt h
      settle goal next frames'
termination_by frameWeight frames

/-- The tree of the whole source, if it is the only tree that has been read. -/
def whole? (goal : Phrase) : List Frame → Option (Tree (.phrase goal))
  | [frame] =>
      if h : frame.symbol = .phrase goal then some (h ▸ frame.tree) else none
  | _ => none

end Reading
end DotCascade
