/-!
# File name patterns

Patterns for file names: `*` stands for any characters, `?` for one, and a bracket set for one of
its members or, with `!` in front, for any other character.  A bracket without its partner is an
ordinary character.  A span whose ends are reversed holds nothing and drops out of its set before
the set is looked at: what then stands in front of the set decides whether it is negated.
-/

namespace Marginalia.Text.Wildcard

/-- A member of a bracket set. -/
inductive Member where
  | one (c : Char)
  | span (low high : Char)
deriving Repr, DecidableEq

/-- Whether the member stands for the character. -/
def Member.holds (c : Char) : Member → Bool
  | .one other => c = other
  | .span low high => low ≤ c && c ≤ high

/-- A span is empty when its ends are reversed. -/
def Member.isEmpty : Member → Bool
  | .one _ => false
  | .span low high => high < low

/-- A piece of a pattern.  The set of all characters is the negation of the empty one. -/
inductive Piece where
  | star
  | literal (c : Char)
  | set (negated : Bool) (members : List Member)
deriving Repr, DecidableEq

/-- Whether the piece stands for the one character. -/
def Piece.accepts (c : Char) : Piece → Bool
  | .star => false
  | .literal other => c = other
  | .set negated members => members.any (·.holds c) != negated

/-- The members that the text between brackets spells. -/
def members : List Char → List Member
  | low :: '-' :: high :: rest => .span low high :: members rest
  | c :: rest => .one c :: members rest
  | [] => []

/-- The set that the nonempty text between brackets stands for. -/
def setOf (text : List Char) : Piece :=
  match text with
  | '!' :: rest => .set true ((members rest).filter fun member => !member.isEmpty)
  | _ =>
    match (members text).filter fun member => !member.isEmpty with
    | .one '!' :: rest => .set true rest
    | .span '!' high :: rest => .set true (.one '-' :: .one high :: rest)
    | kept => .set false kept

/-- How many characters the text between brackets has, given what follows the opening one: it ends
    at the first closing bracket that is neither first nor directly behind a `!` in front. -/
def setLength? (text : List Char) : Option Nat :=
  let ahead := match text with
    | '!' :: ']' :: _ => 2
    | '!' :: _ => 1
    | ']' :: _ => 1
    | _ => 0
  let body := (text.drop ahead).takeWhile (· != ']')
  if ahead + body.length < text.length then some (ahead + body.length) else none

/-- The pieces of a pattern.  `busy` counts the characters still inside the set before. -/
def piecesFrom : (busy : Nat) → List Char → List Piece
  | _, [] => []
  | busy + 1, _ :: rest => piecesFrom busy rest
  | 0, '*' :: rest => .star :: piecesFrom 0 rest
  | 0, '?' :: rest => .set true [] :: piecesFrom 0 rest
  | 0, '[' :: rest =>
    match setLength? rest with
    | none => .literal '[' :: piecesFrom 0 rest
    | some length => setOf (rest.take length) :: piecesFrom (length + 1) rest
  | 0, c :: rest => .literal c :: piecesFrom 0 rest

/-- The pieces of a pattern. -/
def pieces (pattern : List Char) : List Piece :=
  piecesFrom 0 pattern

/-- For each tail of a name, the whole name first and the empty one last, whether any tail from
    there on is marked. -/
def anyLater : List Bool → List Bool
  | [] => []
  | mark :: later => (mark || later.any id) :: anyLater later

/-- For each tail of the name, the whole name first and the empty one last, whether the pieces match
    it. -/
def matchTails (name : List Char) : List Piece → List Bool
  | [] => name.map (fun _ => false) ++ [true]
  | .star :: rest => anyLater (matchTails name rest)
  | piece :: rest =>
    List.zipWith (fun c later => piece.accepts c && later) name (matchTails name rest).tail ++ [false]

/-- Whether the whole name matches the pattern. -/
def matchesName (pattern name : String) : Bool :=
  (matchTails name.toList (pieces pattern.toList)).headD false

example : matchesName "a[!b]c" "axc" = true := by decide
example : matchesName "[a-c-e]" "d" = false ∧ matchesName "[a-c-e]" "-" = true := by decide
example : matchesName "[!c-a]" "a" = true ∧ matchesName "[c-a]" "a" = false := by decide

end Marginalia.Text.Wildcard
