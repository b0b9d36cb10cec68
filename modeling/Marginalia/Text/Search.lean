/-!
# Finding and replacing

Where one text occurs in another, the part in front of its first occurrence, and the replacement of
all occurrences from left to right.
-/

namespace Marginalia.Text

/-- The offset of the first occurrence of `needle`. -/
def find? (needle : List Char) : List Char → Option Nat
  | [] => if needle.isEmpty then some 0 else none
  | c :: rest =>
    if needle.isPrefixOf (c :: rest) then some 0 else (find? needle rest).map (· + 1)

/-- Whether `needle` occurs in the text. -/
def occursIn (needle text : List Char) : Bool :=
  (find? needle text).isSome

/-- The part of the text in front of the first occurrence of `needle`, if it occurs. -/
def before? (needle text : List Char) : Option (List Char) :=
  (find? needle text).map text.take

/-- Every occurrence of `needle` is replaced, from left to right and without overlap.  `busy` counts
    the characters still inside the occurrence before. -/
def replaceFrom (needle replacement : List Char) : (busy : Nat) → List Char → List Char
  | _, [] => []
  | busy + 1, _ :: rest => replaceFrom needle replacement busy rest
  | 0, c :: rest =>
    if needle.isPrefixOf (c :: rest) then
      replacement ++ replaceFrom needle replacement (needle.length - 1) rest
    else
      c :: replaceFrom needle replacement 0 rest

/-- The text with every occurrence of the nonempty `needle` replaced. -/
def replaceAll (needle replacement text : List Char) : List Char :=
  replaceFrom needle replacement 0 text

/-- The lines of a text: only a newline ends one. -/
def lines (text : List Char) : List (List Char) :=
  text.splitOn '\n'

end Marginalia.Text
