import DotCascade.Proofs.Markup.Extent
import DotCascade.Proofs.Reading.Cut

/-!
# Where a markup word ends

The shape of a markup word is a pattern that refers to itself: between its brackets stand
characters that are no brackets and, again between brackets, texts of the same shape.  An
unfolding says which choices are made in the pattern, how often its repetitions go round and
what stands in each inner pair of brackets.  Reading does not unfold the pattern, it counts
brackets.

What unfolds the pattern between two brackets is balanced, and every balanced text unfolds it
(`balanced_iff_exists_unfolding`); so counting finds the text of an unfolding
(`piece?_markup_eq_some_iff`).  Two unfoldings that begin one source are the same
(`WordUnfolding.eq_of_isPrefix`), for in front of a closing bracket each character leaves one
choice only.  On the other hand, counting finds a word as soon as some beginning of the
source holds as many closing as opening brackets (`exists_toClosingBracket?`), and it finds
the shortest one.  Together this is `markup_ends_first`.
-/

namespace DotCascade
namespace Markup

open Reading

section Patterns

/-- How characters are put together.  The last constructor stands for a group that the pattern is
part of. -/
inductive Pattern where
  | one (accepts : Char → Bool)
  | both (first second : Pattern)
  | either (left right : Pattern)
  | many (inner : Pattern)
  | again

/-- A way to unfold a pattern that is part of a group. -/
inductive Unfolding (group : Pattern) : Pattern → Type where
  | one {accepts : Char → Bool} (c : Char) (hc : accepts c = true) :
      Unfolding group (.one accepts)
  | both {a b : Pattern} (first : Unfolding group a) (second : Unfolding group b) :
      Unfolding group (.both a b)
  | left {a b : Pattern} (inner : Unfolding group a) : Unfolding group (.either a b)
  | right {a b : Pattern} (inner : Unfolding group b) : Unfolding group (.either a b)
  | stop {a : Pattern} : Unfolding group (.many a)
  | more {a : Pattern} (first : Unfolding group a) (later : Unfolding group (.many a)) :
      Unfolding group (.many a)
  | again (inner : Unfolding group group) : Unfolding group .again

/-- The characters of an unfolding. -/
def Unfolding.text {group : Pattern} : {pattern : Pattern} → Unfolding group pattern → List Char
  | _, .one c _ => [c]
  | _, .both first second => first.text ++ second.text
  | _, .left inner | _, .right inner | _, .again inner => inner.text
  | _, .stop => []
  | _, .more first later => first.text ++ later.text

/-- A pattern between two brackets. -/
@[reducible] def Pattern.bracketed (inner : Pattern) : Pattern :=
  .both (.one (· == '<')) (.both inner (.one (· == '>')))

/-- What stands between the brackets of a markup word: characters that are no brackets, and the
same once more between brackets. -/
@[reducible] def bodyPattern : Pattern :=
  .many (.either (.one isRunChar) (.bracketed .again))

/-- A way to unfold what stands between the brackets of a markup word. -/
abbrev BodyUnfolding : Type :=
  Unfolding bodyPattern bodyPattern

/-- A way to unfold a markup word. -/
abbrev WordUnfolding : Type :=
  Unfolding bodyPattern (.bracketed bodyPattern)

end Patterns

section Unfoldings

namespace BodyUnfolding

/-- A character that is no bracket in front. -/
def plain (c : Char) (hc : isRunChar c = true) (later : BodyUnfolding) : BodyUnfolding :=
  .more (.left (.one c hc)) later

/-- A pair of brackets in front. -/
def nested (inner later : BodyUnfolding) : BodyUnfolding :=
  .more (.right (.both (.one '<' rfl) (.both (.again inner) (.one '>' rfl)))) later

@[simp] theorem text_stop :
    Unfolding.text (.stop : BodyUnfolding) = [] :=
  rfl

@[simp] theorem text_plain
    (c : Char) (hc : isRunChar c = true) (later : BodyUnfolding) :
    (plain c hc later).text = c :: later.text :=
  rfl

@[simp] theorem text_nested
    (inner later : BodyUnfolding) :
    (nested inner later).text = '<' :: (inner.text ++ '>' :: later.text) := by
  simp [nested, Unfolding.text]

/-- What holds of the empty unfolding, and goes on to hold with a character or a pair of brackets in
front, holds of every unfolding between two brackets. -/
@[elab_as_elim] theorem induction_on
    {motive : BodyUnfolding → Prop}
    (stop : motive .stop)
    (plain : ∀ c hc later, motive later → motive (plain c hc later))
    (nested : ∀ inner later, motive inner → motive later → motive (nested inner later)) :
    ∀ body, motive body
  | .stop => stop
  | .more (.left (.one c hc)) later =>
      plain c hc later (induction_on stop plain nested later)
  | .more (.right (.both (.one c hc) (.both (.again inner) (.one d hd)))) later => by
      obtain rfl := eq_of_beq hc
      obtain rfl := eq_of_beq hd
      have hinner := induction_on stop plain nested inner
      exact nested inner later hinner (induction_on stop plain nested later)
-- The pattern of the unfolding is no variable, so the recursion is on the number of characters.
termination_by body => body.text.length
decreasing_by
  · show later.text.length < ([c] ++ later.text).length
    simp
  · show inner.text.length < ([c] ++ (inner.text ++ [d]) ++ later.text).length
    simp only [List.length_append, List.length_singleton]
    omega
  · show later.text.length < ([c] ++ (inner.text ++ [d]) ++ later.text).length
    simp only [List.length_append, List.length_singleton]
    omega

/-- In front of a closing bracket a text has one unfolding at most, and the place of the bracket is
the same in all of them. -/
theorem eq_of_text_append
    {body other : BodyUnfolding} {rest behind : List Char}
    (h : body.text ++ '>' :: rest = other.text ++ '>' :: behind) :
    body = other ∧ rest = behind := by
  -- The first character says how both unfoldings begin.
  induction body using induction_on generalizing other rest behind with
  | stop =>
      cases other using induction_on with
      | stop =>
          simpa using h
      | plain c hc later =>
          obtain ⟨rfl, -⟩ := List.cons.inj h
          cases hc
      | nested inner later =>
          simp at h
  | plain c hc later ih =>
      cases other using induction_on with
      | stop =>
          obtain ⟨rfl, -⟩ := List.cons.inj h
          cases hc
      | plain d hd further =>
          obtain ⟨rfl, hlater⟩ := List.cons.inj h
          obtain ⟨rfl, hrest⟩ := ih hlater
          exact ⟨rfl, hrest⟩
      | nested inner further =>
          rw [text_plain, text_nested] at h
          obtain ⟨rfl, -⟩ := List.cons.inj h
          cases hc
  | nested inner later ihinner ihlater =>
      cases other using induction_on with
      | stop =>
          simp at h
      | plain d hd further =>
          rw [text_plain, text_nested] at h
          obtain ⟨rfl, -⟩ := List.cons.inj h
          cases hd
      | nested within further =>
          simp only [text_nested, List.cons_append, List.append_assoc, List.cons.injEq,
            true_and] at h
          obtain ⟨rfl, hbehind⟩ := ihinner h
          obtain ⟨rfl, hrest⟩ := ihlater hbehind
          exact ⟨rfl, hrest⟩

end BodyUnfolding

/-- The texts that unfold the pattern between two brackets are the balanced ones. -/
theorem balanced_iff_exists_unfolding
    {text : List Char} :
    Balanced text ↔ ∃ body : BodyUnfolding, body.text = text := by
  constructor
  · intro h
    induction h with
    | nil =>
        exact ⟨.stop, rfl⟩
    | @plain c rest hopen hclose _ ih =>
        obtain ⟨later, rfl⟩ := ih
        exact ⟨.plain c (isRunChar_iff.2 ⟨hopen, hclose⟩) later, rfl⟩
    | group _ _ ihinner ih =>
        obtain ⟨inner, rfl⟩ := ihinner
        obtain ⟨later, rfl⟩ := ih
        exact ⟨.nested inner later, BodyUnfolding.text_nested inner later⟩
  · rintro ⟨body, rfl⟩
    induction body using BodyUnfolding.induction_on with
    | stop =>
        exact .nil
    | plain c hc later ih =>
        obtain ⟨hopen, hclose⟩ := isRunChar_iff.1 hc
        exact .plain hopen hclose ih
    | nested inner later ihinner ih =>
        rw [BodyUnfolding.text_nested]
        exact .group ihinner ih

namespace WordUnfolding

/-- The unfolding of a word with the given unfolding between its brackets. -/
def enclose (body : BodyUnfolding) : WordUnfolding :=
  .both (.one '<' rfl) (.both body (.one '>' rfl))

@[simp] theorem text_enclose
    (body : BodyUnfolding) :
    (enclose body).text = '<' :: (body.text ++ ['>']) :=
  rfl

theorem exists_enclose :
    ∀ word : WordUnfolding, ∃ body, word = enclose body
  | .both (.one c hc) (.both body (.one d hd)) => by
      obtain rfl := eq_of_beq hc
      obtain rfl := eq_of_beq hd
      exact ⟨body, rfl⟩

/-- No two unfoldings begin the same source. -/
theorem eq_of_isPrefix
    {word other : WordUnfolding} {source : List Char}
    (h : word.text <+: source) (hother : other.text <+: source) :
    word = other := by
  obtain ⟨body, rfl⟩ := exists_enclose word
  obtain ⟨within, rfl⟩ := exists_enclose other
  obtain ⟨rest, rfl⟩ := h
  obtain ⟨behind, hbehind⟩ := hother
  have hinner : within.text ++ '>' :: behind = body.text ++ '>' :: rest := by
    simpa using hbehind
  rw [(BodyUnfolding.eq_of_text_append hinner).1]

/-- The text of an unfolding is found as markup, whatever stands behind it. -/
theorem piece?_text_append
    (word : WordUnfolding) (behind : List Char) :
    piece? .markup (word.text ++ behind) = some word.text := by
  obtain ⟨body, rfl⟩ := exists_enclose word
  have hbalanced : Balanced body.text := balanced_iff_exists_unfolding.2 ⟨body, rfl⟩
  have hend := toClosingBracket?_append hbalanced 0 ('>' :: behind)
  simp [piece?, markupPiece?, hend, toClosingBracket?]

end WordUnfolding

/-- What is found as markup is the text of an unfolding that begins the source. -/
theorem piece?_markup_eq_some_iff
    {source piece : List Char} :
    piece? .markup source = some piece ↔
      ∃ word : WordUnfolding, word.text = piece ∧ piece <+: source := by
  constructor
  · intro h
    obtain ⟨rest, hrest, -⟩ := steadyAt_piece? .markup source piece h
    have hspelling : Spelling .markup piece := spelling_of_piece? h
    obtain ⟨inner, rfl, hinner⟩ := hspelling
    obtain ⟨body, rfl⟩ := balanced_iff_exists_unfolding.1 hinner
    exact ⟨.enclose body, rfl, rest, hrest.symm⟩
  · rintro ⟨word, rfl, behind, rfl⟩
    exact word.piece?_text_append behind

end Unfoldings

section Counting

theorem surplus_eq_count
    (text : List Char) :
    surplus text = text.count '<' - text.count '>' := by
  fun_induction surplus text with
  | case1 =>
      rfl
  | case2 rest ih =>
      rw [ih, List.count_cons_self, List.count_cons_of_ne (by decide)]
      omega
  | case3 rest ih =>
      rw [ih, List.count_cons_self, List.count_cons_of_ne (by decide)]
      omega
  | case4 c rest hleft hright ih =>
      rw [ih, List.count_cons_of_ne hleft, List.count_cons_of_ne hright]

theorem surplus_eq_zero_iff
    {text : List Char} :
    surplus text = 0 ↔ text.count '>' = text.count '<' := by
  rw [surplus_eq_count]
  omega

/-- A beginning of some surplus goes on behind the first character of the text. -/
theorem exists_isPrefix_behind
    {c : Char} {front rest : List Char} {n : Int}
    (hfront : front <+: c :: rest) (hsurplus : surplus front = n) (hne : n ≠ 0) :
    ∃ behind, behind <+: rest ∧ surplus [c] + surplus behind = n := by
  cases front with
  | nil =>
      exact absurd hsurplus.symm hne
  | cons d behind =>
      obtain ⟨rfl, hbehind⟩ := List.cons_prefix_cons.1 hfront
      exact ⟨behind, hbehind, (surplus_cons d behind).symm.trans hsurplus⟩

/-- The closing bracket is found as soon as some beginning of the text closes one bracket more than
are open. -/
theorem exists_toClosingBracket?
    {depth : Nat} {text front : List Char}
    (hfront : front <+: text) (hsurplus : surplus front = -(depth + 1)) :
    ∃ piece, toClosingBracket? depth text = some piece := by
  fun_induction toClosingBracket? depth text generalizing front with
  | case1 depth rest ih =>
      obtain ⟨behind, hbehind, hsum⟩ := exists_isPrefix_behind hfront hsurplus (by omega)
      obtain ⟨piece, hpiece⟩ := ih hbehind (by simp only [surplus] at hsum; omega)
      exact ⟨'<' :: piece, by rw [hpiece]; rfl⟩
  | case2 =>
      exact ⟨['>'], rfl⟩
  | case3 depth rest ih =>
      obtain ⟨behind, hbehind, hsum⟩ := exists_isPrefix_behind hfront hsurplus (by omega)
      obtain ⟨piece, hpiece⟩ := ih hbehind (by simp only [surplus] at hsum; omega)
      exact ⟨'>' :: piece, by rw [hpiece]; rfl⟩
  | case4 depth c rest hleft hlast hright ih =>
      have hc : isRunChar c = true := isRunChar_iff.2 ⟨hleft, ne_closingBracket hlast hright⟩
      obtain ⟨behind, hbehind, hsum⟩ := exists_isPrefix_behind hfront hsurplus (by omega)
      rw [surplus_plain hc, surplus, Int.zero_add] at hsum
      obtain ⟨piece, hpiece⟩ := ih hbehind hsum
      exact ⟨c :: piece, by rw [hpiece]; rfl⟩
  | case5 =>
      obtain rfl := List.prefix_nil.1 hfront
      simp only [surplus] at hsurplus
      omega

/-- A beginning of a source that is not empty and holds as many closing as opening brackets. -/
structure IsEvenFront (source front : List Char) : Prop where
  begins : front <+: source
  ne_nil : front ≠ []
  even : front.count '>' = front.count '<'

/-- The shortest such beginning. -/
structure IsShortestEvenFront (source front : List Char) : Prop
    extends IsEvenFront source front where
  shortest : ∀ other, IsEvenFront source other → front.length ≤ other.length

theorem IsShortestEvenFront.unique
    {source front other : List Char}
    (h : IsShortestEvenFront source front) (hother : IsShortestEvenFront source other) :
    front = other := by
  have hle := h.shortest other hother.toIsEvenFront
  have hge := hother.shortest front h.toIsEvenFront
  exact (List.prefix_of_prefix_length_le h.begins hother.begins hle).eq_of_length (by omega)

/-- Behind an opening bracket, an even beginning closes one bracket more than it opens. -/
theorem IsEvenFront.exists_cons
    {rest front : List Char} (h : IsEvenFront ('<' :: rest) front) :
    ∃ behind, front = '<' :: behind ∧ behind <+: rest ∧ surplus behind = -1 := by
  have hsum := surplus_eq_zero_iff.2 h.even
  obtain ⟨hbegins, hne, -⟩ := h
  cases front with
  | nil =>
      exact absurd rfl hne
  | cons c behind =>
      obtain ⟨rfl, hbehind⟩ := List.cons_prefix_cons.1 hbegins
      rw [surplus] at hsum
      exact ⟨behind, rfl, hbehind, by omega⟩

/-- Where some beginning of a source is even, markup is found. -/
theorem IsEvenFront.exists_piece?
    {rest front : List Char} (h : IsEvenFront ('<' :: rest) front) :
    ∃ piece, piece? .markup ('<' :: rest) = some piece := by
  obtain ⟨behind, -, hbehind, hsum⟩ := h.exists_cons
  have hclosed : surplus behind = -((0 : Nat) + 1) := hsum
  obtain ⟨piece, hpiece⟩ := exists_toClosingBracket? hbehind hclosed
  exact ⟨'<' :: piece, by simp [piece?, markupPiece?, hpiece]⟩

/-- What is found as markup is the shortest even beginning of the source. -/
theorem isShortestEvenFront_of_piece?
    {rest piece : List Char} (h : piece? .markup ('<' :: rest) = some piece) :
    IsShortestEvenFront ('<' :: rest) piece := by
  obtain ⟨-, -, hbegins⟩ := piece?_markup_eq_some_iff.1 h
  obtain ⟨inner, hinner, rfl⟩ := Option.map_eq_some_iff.1 h
  obtain ⟨hall, hproper⟩ := closes_of_toClosingBracket? hinner
  have heven : surplus ('<' :: inner) = 0 := by
    rw [surplus, hall]
    rfl
  refine ⟨⟨hbegins, List.cons_ne_nil _ _, surplus_eq_zero_iff.1 heven⟩, fun other hother => ?_⟩
  by_contra hshort
  obtain ⟨back, hback⟩ :=
    List.prefix_of_prefix_length_le hother.begins hbegins (Nat.le_of_not_le hshort)
  obtain ⟨front, rfl, -, hfront⟩ := hother.exists_cons
  -- A shorter one closes the first bracket as well, which only the whole piece does.
  have hcut : front ++ back = inner := (List.cons.inj hback).2
  obtain rfl := hproper front back hcut.symm hfront
  simp [← hcut] at hshort

theorem piece?_markup_eq_some_iff_shortest
    {rest piece : List Char} :
    piece? .markup ('<' :: rest) = some piece ↔ IsShortestEvenFront ('<' :: rest) piece := by
  refine ⟨isShortestEvenFront_of_piece?, fun h => ?_⟩
  obtain ⟨found, hfound⟩ := h.exists_piece?
  rw [hfound, h.unique (isShortestEvenFront_of_piece? hfound)]

/-- The pattern of a markup word begins a source that opens with a bracket exactly if some beginning
of the source, other than the empty one, holds as many closing as opening brackets.  Then it begins
the source with the shortest such beginning and nothing else, and this is the word that is found.
It is unfolded in one way only, whatever stands behind the word. -/
theorem markup_ends_first :
    (∀ rest, (∃ word : WordUnfolding, word.text <+: '<' :: rest) ↔
      ∃ front, IsEvenFront ('<' :: rest) front) ∧
    (∀ rest piece, (∃ word : WordUnfolding, word.text = piece ∧ piece <+: '<' :: rest) ↔
      IsShortestEvenFront ('<' :: rest) piece) ∧
    (∀ rest piece, piece? .markup ('<' :: rest) = some piece ↔
      IsShortestEvenFront ('<' :: rest) piece) ∧
    ∀ (word : WordUnfolding) (behind : List Char),
      piece? .markup (word.text ++ behind) = some word.text ∧
      ∀ other : WordUnfolding, other.text <+: word.text ++ behind ↔ other = word := by
  refine ⟨fun rest => ⟨?_, ?_⟩, fun rest piece => ?_, fun rest piece => ?_, fun word behind => ?_⟩
  · rintro ⟨word, behind, hbehind⟩
    have hfound := word.piece?_text_append behind
    rw [hbehind] at hfound
    exact ⟨word.text, (isShortestEvenFront_of_piece? hfound).toIsEvenFront⟩
  · rintro ⟨front, hfront⟩
    obtain ⟨piece, hpiece⟩ := hfront.exists_piece?
    obtain ⟨word, rfl, hbegins⟩ := piece?_markup_eq_some_iff.1 hpiece
    exact ⟨word, hbegins⟩
  · rw [← piece?_markup_eq_some_iff, piece?_markup_eq_some_iff_shortest]
  · exact piece?_markup_eq_some_iff_shortest
  · refine ⟨word.piece?_text_append behind, fun other => ⟨fun hother => ?_, ?_⟩⟩
    · exact WordUnfolding.eq_of_isPrefix hother (List.prefix_append _ _)
    · rintro rfl
      exact List.prefix_append _ _

/-- Quotes guard no bracket, and an opening bracket that is never closed leaves no markup. -/
example :
    piece? .markup "<f a=\">\">".toList = some "<f a=\">".toList ∧
      piece? .markup "<<f>".toList = none := by
  decide +kernel

end Counting

end Markup
end DotCascade
