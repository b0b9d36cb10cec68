/-!
# Scanning a text from left to right

A reader looks at the text from one place on and either recognises a token there, saying how many
characters it covers, or does not.  Scanning walks the text once: where the reader recognises a
token the scan records it and goes on behind it, elsewhere it goes on with the next character.  So
tokens never overlap and the leftmost one always wins.

The walk is a recursion on the text itself: the number of characters that are still inside the last
token is carried along and counted down.
-/

namespace Marginalia.Text

/-- A token recognised in a text: where it starts, how many characters it covers, what it is. -/
structure Hit (α : Type) where
  start : Nat
  length : Nat
  token : α
deriving Repr, DecidableEq

/-- The first place behind the token. -/
def Hit.stop {α : Type} (hit : Hit α) : Nat :=
  hit.start + hit.length

/-- The tokens of a text, from left to right.  `place` is the offset of the first character,
    `busy` the number of characters still covered by the token before. -/
def hitsFrom {σ α : Type} (read : List σ → Option (Nat × α)) :
    (place busy : Nat) → List σ → List (Hit α)
  | _, _, [] => []
  | place, busy + 1, _ :: rest => hitsFrom read (place + 1) busy rest
  | place, 0, c :: rest =>
    match read (c :: rest) with
    | none => hitsFrom read (place + 1) 0 rest
    | some (length, token) =>
      ⟨place, length, token⟩ :: hitsFrom read (place + 1) (length - 1) rest

/-- The tokens that `read` recognises in a text, from left to right and without overlap. -/
def hits {σ α : Type} (read : List σ → Option (Nat × α)) (text : List σ) : List (Hit α) :=
  hitsFrom read 0 0 text

end Marginalia.Text
