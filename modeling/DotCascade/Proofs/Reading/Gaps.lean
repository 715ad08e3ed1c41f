import DotCascade.Proofs.Reading.Renders
import Mathlib.Data.List.TakeWhile

/-!
# Gaps in a source

What is skipped in front of a word is a gap: it is skipped as well in front of any
other text (`skipsGap`).  Only a comment that the end of the source ends is no
gap by itself, but with a line feed behind it.
-/

namespace DotCascade
namespace Reading

section Comments

/-- A comment ends with the first star and slash. -/
theorem behindComment?_append
    {body : List Char} (hbody : ¬ ['*', '/'] <:+: body) (rest : List Char) :
    behindComment? (body ++ '*' :: '/' :: rest) = some rest := by
  induction body with
  | nil =>
      rfl
  | cons c body ih =>
      rw [List.cons_append, behindComment?]
      · exact ih fun hinner => hbody (hinner.trans (List.suffix_cons c body).isInfix)
      · intro later hstar heq
        subst hstar
        cases body with
        | nil =>
            cases heq
        | cons d body =>
            obtain ⟨rfl, -⟩ := List.cons.inj heq
            exact hbody (List.prefix_append ['*', '/'] body).isInfix

theorem exists_comment
    {text behind : List Char} (h : behindComment? text = some behind) :
    ∃ body, text = body ++ '*' :: '/' :: behind ∧ ¬ ['*', '/'] <:+: body := by
  fun_induction behindComment? text with
  | case1 rest =>
      obtain rfl := Option.some.inj h
      exact ⟨[], rfl, by simp⟩
  | case2 c rest hstar ih =>
      obtain ⟨body, rfl, hbody⟩ := ih h
      refine ⟨c :: body, rfl, fun hinner => ?_⟩
      rcases List.infix_cons_iff.1 hinner with hprefix | hlater
      · obtain ⟨later, heq⟩ := hprefix
        obtain ⟨rfl, rfl⟩ := List.cons.inj heq
        exact hstar _ rfl rfl
      · exact hbody hlater
  | case3 =>
      cases h

theorem isGap_comment
    {body : List Char} (hbody : ¬ ['*', '/'] <:+: body) :
    IsGap ('/' :: '*' :: (body ++ ['*', '/'])) := by
  intro rest
  have hbehind : behindComment? (body ++ ['*', '/'] ++ rest) = some rest := by
    rw [List.append_assoc]
    exact behindComment?_append hbody rest
  rw [List.cons_append, List.cons_append, skipGap]
  split
  case h_1 found hfound =>
    rw [hbehind] at hfound
    exact congrArg skipGap (Option.some.inj hfound).symm
  case h_2 hnone =>
    rw [hbehind] at hnone
    cases hnone

/-- A comment that does not end is not skipped. -/
theorem skipGap_of_endless
    {rest : List Char} (h : behindComment? rest = none) :
    skipGap ('/' :: '*' :: rest) = '/' :: '*' :: rest := by
  rw [skipGap]
  split
  case h_1 hsome =>
    rw [h] at hsome
    cases hsome
  case h_2 =>
    rfl

/-- A comment to the end of a line is a gap together with that end. -/
theorem isGap_line
    {line gap : List Char} (hline : ∀ c ∈ line, isLineChar c = true)
    (hgap : IsGap ('\n' :: gap)) :
    IsGap ('/' :: '/' :: (line ++ '\n' :: gap)) := by
  intro rest
  have hfeed : ¬ isLineChar '\n' = true := by
    decide
  rw [List.cons_append, List.cons_append, skipGap, List.append_assoc,
    List.dropWhile_append_of_pos hline, List.cons_append, List.dropWhile_cons_of_neg hfeed]
  exact hgap rest

end Comments

section Gaps

theorem isGap_append
    {gap later : List Char} (h : IsGap gap) (hlater : IsGap later) :
    IsGap (gap ++ later) := by
  intro rest
  rw [List.append_assoc, h, hlater]

/-- A line feed at the front of a text is skipped. -/
theorem exists_cons_of_lineFeed
    {gap rest : List Char} (h : '\n' :: rest = gap ++ skipGap ('\n' :: rest)) :
    ∃ inner, gap = '\n' :: inner := by
  cases gap with
  | nil =>
      have hskip : skipGap ('\n' :: rest) = skipGap rest := isGap_newline rest
      have hlength := length_skipGap_le rest
      rw [List.nil_append, hskip] at h
      rw [← h, List.length_cons] at hlength
      omega
  | cons c inner =>
      exact ⟨inner, by rw [(List.cons.inj h).1]⟩

/-- What is skipped at the front of a text is a gap, at the latest with a line feed behind it. -/
def SkipsGap (text : List Char) : Prop :=
  ∃ gap, text = gap ++ skipGap text ∧ IsGap (gap ++ ['\n']) ∧ (skipGap text ≠ [] → IsGap gap)

theorem skipsGap_line
    {rest : List Char} (h : SkipsGap (rest.dropWhile isLineChar)) :
    SkipsGap ('/' :: '/' :: rest) := by
  have hline : ∀ c ∈ rest.takeWhile isLineChar, isLineChar c = true := fun _ hc =>
    List.mem_takeWhile_imp hc
  have hrest := List.takeWhile_append_dropWhile (p := isLineChar) (l := rest)
  unfold SkipsGap
  rw [skipGap]
  cases hbehind : rest.dropWhile isLineChar with
  | nil =>
      rw [hbehind, List.append_nil] at hrest
      rw [hrest] at hline
      have hnil : skipGap [] = [] := by
        rw [skipGap]
      refine ⟨'/' :: '/' :: rest, ?_, isGap_line hline isGap_newline, absurd hnil⟩
      rw [hnil, List.append_nil]
  | cons c behind =>
      have hc : c = '\n' := by
        simpa [hbehind, isLineChar] using List.head?_dropWhile_not isLineChar rest
      subst hc
      rw [hbehind] at h hrest
      obtain ⟨gap, hcut, hclosed, hgap⟩ := h
      obtain ⟨inner, rfl⟩ := exists_cons_of_lineFeed hcut
      refine ⟨'/' :: '/' :: (rest.takeWhile isLineChar ++ '\n' :: inner), ?_, ?_, fun hne => ?_⟩
      · rw [List.cons_append, List.cons_append, List.append_assoc, ← hcut, hrest]
      · rw [List.cons_append, List.cons_append, List.append_assoc]
        exact isGap_line hline hclosed
      · exact isGap_line hline (hgap hne)

/-- A gap in front of a text is skipped with what is skipped of the text. -/
theorem SkipsGap.behind
    {text : List Char} (h : SkipsGap text) {front : List Char} (hfront : IsGap front) :
    SkipsGap (front ++ text) := by
  obtain ⟨gap, hcut, hclosed, hgap⟩ := h
  unfold SkipsGap
  rw [hfront]
  refine ⟨front ++ gap, ?_, ?_, fun hne => isGap_append hfront (hgap hne)⟩
  · rw [List.append_assoc, ← hcut]
  · rw [List.append_assoc]
    exact isGap_append hfront hclosed

theorem skipsGap
    (text : List Char) :
    SkipsGap text := by
  have hself {text : List Char} (h : skipGap text = text) : SkipsGap text :=
    ⟨[], h.symm, isGap_newline, fun _ => isGap_nil⟩
  fun_induction skipGap text with
  | case1 rest _ ih =>
      exact skipsGap_line ih
  | case2 rest behind hbehind _ ih =>
      obtain ⟨body, rfl, hbody⟩ := exists_comment hbehind
      have hskip := ih.behind (isGap_comment hbody)
      rwa [List.cons_append, List.cons_append, List.append_assoc] at hskip
  | case3 rest hnone =>
      exact hself (skipGap_of_endless hnone)
  | case4 c rest _ _ hblank ih =>
      exact ih.behind (isGap_cons hblank isGap_nil)
  | case5 c rest hline hcomment hblank =>
      exact hself (by rw [skipGap, if_neg hblank] <;> assumption)
  | case6 =>
      exact hself (by rw [skipGap])

theorem suffix_skipGap
    (text : List Char) :
    skipGap text <:+ text := by
  obtain ⟨gap, hcut, -⟩ := skipsGap text
  exact ⟨gap, hcut.symm⟩

/-- What is still to be read is an end of the source. -/
theorem Reaches.suffix
    {goal : Grammar.Phrase} {length : Nat} {progress later : Progress}
    (h : Reaches goal length progress later) :
    later.text <:+ progress.text := by
  induction h with
  | here =>
      exact List.suffix_refl _
  | taken hstep _ ih =>
      obtain ⟨htext, -, hnext⟩ := taken_of_step hstep
      rw [hnext, ← htext] at ih
      exact (ih.trans (List.drop_suffix _ _)).trans (suffix_skipGap _)

/-- So is what stands behind the gap. -/
theorem Reaches.skipGap_suffix
    {goal : Grammar.Phrase} {length : Nat} {progress later : Progress}
    (h : Reaches goal length progress later) :
    skipGap later.text <:+ progress.text :=
  (suffix_skipGap later.text).trans h.suffix

end Gaps

end Reading
end DotCascade
