import DotCascade.Text.Blank

/-!
# Whole numbers as they are typed

A whole number may have white space around it, a sign, digits of any script and
single underscores between digits.  A number with too many digits is refused,
also when most of them are zeros.
-/

namespace DotCascade
namespace Text

/-- The code points of the digit zero in every script of Unicode 14; nine more digits follow each. -/
def zeros : List Nat := [
  0x30, 0x660, 0x6F0, 0x7C0, 0x966, 0x9E6, 0xA66, 0xAE6, 0xB66, 0xBE6, 0xC66, 0xCE6, 0xD66,
  0xDE6, 0xE50, 0xED0, 0xF20, 0x1040, 0x1090, 0x17E0, 0x1810, 0x1946, 0x19D0, 0x1A80,
  0x1A90, 0x1B50, 0x1BB0, 0x1C40, 0x1C50, 0xA620, 0xA8D0, 0xA900, 0xA9D0, 0xA9F0, 0xAA50,
  0xABF0, 0xFF10, 0x104A0, 0x10D30, 0x11066, 0x110F0, 0x11136, 0x111D0, 0x112F0, 0x11450,
  0x114D0, 0x11650, 0x116C0, 0x11730, 0x118E0, 0x11950, 0x11C50, 0x11D50, 0x11DA0, 0x16A60,
  0x16AC0, 0x16B50, 0x1D7CE, 0x1D7D8, 0x1D7E2, 0x1D7EC, 0x1D7F6, 0x1E140, 0x1E2F0, 0x1E950,
  0x1FBF0]

/-- The value of a digit. -/
def digitValue? (c : Char) : Option Nat :=
  (zeros.find? fun first => first ≤ c.toNat && c.toNat ≤ first + 9).map fun first =>
    c.toNat - first

/-- The value of further digits, given the value of those before them. -/
def moreDigits? (value : Nat) : List Char → Option Nat
  | [] => some value
  | '_' :: c :: rest =>
      match digitValue? c with
      | some digit => moreDigits? (10 * value + digit) rest
      | none => none
  | c :: rest =>
      match digitValue? c with
      | some digit => moreDigits? (10 * value + digit) rest
      | none => none

/-- The greatest number of digits. -/
def maxDigits : Nat :=
  4300

/-- The value of a row of digits. -/
def digits? (text : List Char) : Option Nat :=
  if (text.filter (· ≠ '_')).length ≤ maxDigits then
    match text with
    | [] => none
    | c :: rest =>
        match digitValue? c with
        | some digit => moreDigits? digit rest
        | none => none
  else none

/-- A text without the white space at its ends. -/
def trimmed (text : List Char) : List Char :=
  ((text.dropWhile isWhiteSpace).reverse.dropWhile isWhiteSpace).reverse

/-- The value of a whole number that is not below zero. -/
def natural? (text : String) : Option Nat :=
  match trimmed text.toList with
  | '+' :: rest => digits? rest
  | '-' :: rest =>
      match digits? rest with
      | some 0 => some 0
      | _ => none
  | rest => digits? rest

end Text
end DotCascade
