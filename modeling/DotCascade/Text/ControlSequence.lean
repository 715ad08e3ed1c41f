/-!
# Control sequences

A terminal takes an escape character and an opening bracket for the beginning of
a control sequence, which goes on with parameters, then with intermediate
characters, and ends with one final character.  Text for anything else than a
terminal is printed without control sequences.

A text is gone through once, so what remains of it may look like a control
sequence again.
-/

namespace DotCascade
namespace Text

/-- The characters from which the parameters of a control sequence are made. -/
def isParameter (c : Char) : Bool :=
  0x30 ≤ c.toNat && c.toNat ≤ 0x3F

/-- The characters that may stand between the parameters and the final character. -/
def isIntermediate (c : Char) : Bool :=
  0x20 ≤ c.toNat && c.toNat ≤ 0x2F

/-- The characters with which a control sequence may end. -/
def isFinal (c : Char) : Bool :=
  0x40 ≤ c.toNat && c.toNat ≤ 0x7E

/-- The text behind a control sequence, read behind its bracket. -/
def behindSequence? (text : List Char) : Option (List Char) :=
  match (text.dropWhile isParameter).dropWhile isIntermediate with
  | c :: rest => if isFinal c then some rest else none
  | [] => none

/-- A control sequence takes at least one character behind its bracket. -/
theorem length_behindSequence?_lt
    {text rest : List Char}
    (h : behindSequence? text = some rest) :
    rest.length < text.length := by
  have h₁ := (List.dropWhile_suffix isParameter (l := text)).length_le
  have h₂ :=
    (List.dropWhile_suffix isIntermediate (l := text.dropWhile isParameter)).length_le
  unfold behindSequence? at h
  split at h
  case h_1 c behind hb =>
    split at h
    case isTrue =>
      simp only [Option.some.injEq] at h
      rw [hb, List.length_cons] at h₂
      rw [← h]
      omega
    case isFalse => simp at h
  case h_2 => simp at h

/-- A text without its control sequences. -/
def plain : List Char → List Char
  | '\x1b' :: '[' :: rest =>
      match h : behindSequence? rest with
      | some behind =>
          have := length_behindSequence?_lt h
          plain behind
      | none => '\x1b' :: '[' :: plain rest
  | c :: rest => c :: plain rest
  | [] => []
termination_by text => text.length

end Text
end DotCascade
