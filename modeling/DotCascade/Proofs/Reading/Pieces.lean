import DotCascade.Proofs.Atom.Faithful
import DotCascade.Proofs.Reading.Spelling
import Mathlib.Data.List.TakeWhile

/-!
# Pieces of a source are spelled words

What is found at the front of a text as a word of some kind is spelled as such a word
(`spelling_of_piece?`), so that all about the characters of a piece follows from the
spelling of its kind.  A piece of markup is followed bracket by bracket: a text that
closes some open brackets begins with a balanced text and the bracket that closes the
innermost one (`Closing`).
-/

namespace DotCascade
namespace Reading

open Grammar

section Letters

theorem isName_of_word?
    {text word : List Char} (h : Text.word? text = some word) :
    IsName word := by
  obtain ⟨c, rest, rfl, hc⟩ := exists_cons_of_word? h
  rw [Text.word?, if_pos hc] at h
  obtain rfl := Option.some.inj h
  exact ⟨c, _, rfl, hc, fun d hd => List.mem_takeWhile_imp hd⟩

/-- A bare word that is found is the longest word, and no keyword. -/
theorem identifierPiece?_eq_some_iff
    {text piece : List Char} :
    identifierPiece? text = some piece ↔
      Text.word? text = some piece ∧ String.ofList piece ∉ keywords := by
  unfold identifierPiece?
  cases Text.word? text with
  | none =>
      simp
  | some word =>
      by_cases hkeyword : String.ofList word ∈ keywords
      · simp only [List.contains_iff_mem, hkeyword, if_true, Option.some.injEq]
        constructor
        · intro h
          cases h
        · rintro ⟨rfl, hnot⟩
          exact absurd hkeyword hnot
      · simp only [List.contains_iff_mem, hkeyword, if_false, Option.some.injEq]
        exact ⟨fun heq => ⟨heq, heq ▸ hkeyword⟩, fun h => h.1⟩

end Letters

section Numbers

theorem digits?_eq_some
    {text digits : List Char} (h : digits? text = some digits) :
    IsDigits digits ∧ ∃ rest, text = digits ++ rest ∧ ∀ c ∈ rest.head?, c.isDigit = false := by
  unfold digits? at h
  simp only at h
  split at h
  case isTrue =>
    cases h
  case isFalse hne =>
    obtain rfl := Option.some.inj h
    refine ⟨⟨?_, fun c hc => List.mem_takeWhile_imp hc⟩, text.dropWhile Char.isDigit,
      List.takeWhile_append_dropWhile.symm, fun c hc => ?_⟩
    · simpa using hne
    · have hnot := List.head?_dropWhile_not Char.isDigit text
      rw [Option.mem_def.1 hc] at hnot
      simpa using hnot

theorem isUnsigned_of_unsignedPiece?
    {text piece : List Char} (h : unsignedPiece? text = some piece) :
    IsUnsigned piece := by
  unfold unsignedPiece? at h
  split at h
  case h_1 =>
    obtain ⟨fraction, hfraction, rfl⟩ := Option.map_eq_some_iff.1 h
    exact Or.inr (Or.inl ⟨fraction, rfl, (digits?_eq_some hfraction).1⟩)
  case h_2 =>
    split at h
    case h_1 =>
      cases h
    case h_2 whole hwhole =>
      have hdigits := (digits?_eq_some hwhole).1
      split at h
      case h_1 =>
        split at h
        case h_1 fraction hfraction =>
          obtain rfl := Option.some.inj h
          exact Or.inr (Or.inr ⟨whole, fraction, rfl, hdigits, (digits?_eq_some hfraction).1⟩)
        case h_2 =>
          obtain rfl := Option.some.inj h
          exact Or.inl hdigits
      case h_2 =>
        obtain rfl := Option.some.inj h
        exact Or.inl hdigits

end Numbers

section Enclosed

theorem quotable_of_toClosingQuote?
    {text piece : List Char} (h : toClosingQuote? text = some piece) :
    ∃ body, piece = body ++ ['"'] ∧ Quotable body := by
  fun_induction toClosingQuote? text generalizing piece with
  | case1 =>
      obtain rfl := Option.some.inj h
      exact ⟨[], rfl, .nil⟩
  | case2 c rest ih =>
      obtain ⟨inner, hinner, rfl⟩ := Option.map_eq_some_iff.1 h
      obtain ⟨body, rfl, hbody⟩ := ih hinner
      exact ⟨'\\' :: c :: body, rfl, .pair hbody⟩
  | case3 =>
      simp at h
  | case4 c rest hquote hpair hlast ih =>
      obtain ⟨inner, hinner, rfl⟩ := Option.map_eq_some_iff.1 h
      obtain ⟨body, rfl, hbody⟩ := ih hinner
      exact ⟨c :: body, rfl, .plain hquote (ne_backslash hpair hlast) hbody⟩
  | case5 =>
      simp at h

/-- A character at which the search for a closing bracket goes on at the same depth closes nothing. -/
theorem ne_closingBracket
    {depth : Nat} {c : Char}
    (hlast : depth = 0 → c = '>' → False)
    (hinner : ∀ below, depth = below + 1 → c = '>' → False) :
    c ≠ '>' := by
  intro hc
  cases depth with
  | zero =>
      exact hlast rfl hc
  | succ below =>
      exact hinner below rfl hc

/-- A text that closes as many open brackets and then one more, and ends there. -/
inductive Closing : Nat → List Char → Prop
  | last {body : List Char} (h : Balanced body) : Closing 0 (body ++ ['>'])
  | inner {body rest : List Char} {depth : Nat} (h : Balanced body) (hrest : Closing depth rest) :
      Closing (depth + 1) (body ++ '>' :: rest)

theorem Closing.behind
    {depth : Nat} {text : List Char} (h : Closing depth text) {front : List Char}
    (hfront : Balanced front) :
    Closing depth (front ++ text) := by
  cases h with
  | last hbody =>
      rw [← List.append_assoc]
      exact .last (hfront.append hbody)
  | inner hbody hrest =>
      rw [← List.append_assoc]
      exact .inner (hfront.append hbody) hrest

theorem closing_of_toClosingBracket?
    {depth : Nat} {text piece : List Char} (h : toClosingBracket? depth text = some piece) :
    Closing depth piece := by
  fun_induction toClosingBracket? depth text generalizing piece with
  | case1 depth rest ih =>
      obtain ⟨later, hlater, rfl⟩ := Option.map_eq_some_iff.1 h
      -- The bracket makes a group with the one that closes it.
      cases ih hlater with
      | @inner body rest _ hbody hrest =>
          have hgroup : Balanced ('<' :: body ++ '>' :: []) := .group hbody .nil
          simpa using hrest.behind hgroup
  | case2 =>
      obtain rfl := Option.some.inj h
      exact .last .nil
  | case3 depth rest ih =>
      obtain ⟨later, hlater, rfl⟩ := Option.map_eq_some_iff.1 h
      exact .inner .nil (ih hlater)
  | case4 depth c rest hopen hlast hinner ih =>
      obtain ⟨later, hlater, rfl⟩ := Option.map_eq_some_iff.1 h
      have hplain : Balanced [c] := .plain hopen (ne_closingBracket hlast hinner) .nil
      exact (ih hlater).behind hplain
  | case5 =>
      cases h

end Enclosed

/-- What is found as a word of some kind is spelled as such a word. -/
theorem spelling_of_piece?
    {terminal : Terminal} {text piece : List Char} (h : piece? terminal text = some piece) :
    Spelling terminal piece := by
  cases terminal with
  | identifier =>
      obtain ⟨hword, hkeyword⟩ := identifierPiece?_eq_some_iff.1 h
      exact ⟨isName_of_word? hword, hkeyword⟩
  | markup =>
      simp only [piece?, markupPiece?] at h
      split at h
      case h_1 =>
        obtain ⟨later, hlater, rfl⟩ := Option.map_eq_some_iff.1 h
        cases closing_of_toClosingBracket? hlater with
        | last hbody =>
            exact ⟨_, rfl, hbody⟩
      case h_2 =>
        cases h
  | number =>
      simp only [piece?, numberPiece?] at h
      split at h
      case h_1 =>
        obtain ⟨unsigned, hunsigned, rfl⟩ := Option.map_eq_some_iff.1 h
        exact Or.inr ⟨unsigned, rfl, isUnsigned_of_unsignedPiece? hunsigned⟩
      case h_2 =>
        exact Or.inl (isUnsigned_of_unsignedPiece? h)
  | className =>
      simp only [piece?, classPiece?] at h
      split at h
      case h_1 =>
        obtain ⟨name, hname, rfl⟩ := Option.map_eq_some_iff.1 h
        exact ⟨name, rfl, isName_of_word? hname⟩
      case h_2 =>
        cases h
  | string =>
      simp only [piece?, stringPiece?] at h
      split at h
      case h_1 =>
        obtain ⟨later, hlater, rfl⟩ := Option.map_eq_some_iff.1 h
        obtain ⟨body, rfl, hbody⟩ := quotable_of_toClosingQuote? hlater
        exact ⟨body, rfl, hbody⟩
      case h_2 =>
        cases h
  | edgeOperator =>
      simp only [piece?, Option.or_eq_some_iff] at h
      rcases h with h | ⟨-, h⟩
      · exact Or.inl (fixedPiece?_eq_some_iff.1 h).1
      · exact Or.inr (fixedPiece?_eq_some_iff.1 h).1
  | _ =>
      exact (fixedPiece?_eq_some_iff.1 h).1

end Reading
end DotCascade
