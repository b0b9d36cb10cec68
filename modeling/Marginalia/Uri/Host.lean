import Marginalia.Text.Hex
import Marginalia.Text.Quoted

/-!
# Hosts of URIs

What may stand between the slashes of a URI's scheme and its path.  Brackets belong around an address
of eight groups, or of a later kind, behind which only a port may follow; and no character may turn
into a delimiter when it is put into its compatibility form.
-/

namespace Marginalia

/-- What is wrong with the host of a URI. -/
inductive HostFlaw where
  /-- One of the brackets around an address is missing, or something else than a port stands beside
      them. -/
  | misplacedBrackets
  /-- What brackets should stand around is no address. -/
  | notAnAddress (text : String)
  /-- Brackets should stand around an address of four numbers. -/
  | fourNumbers
  /-- An address of a later kind is broken. -/
  | laterKind
  /-- The host holds characters that compatibility forms turn into delimiters. -/
  | disguised (host : String)
deriving Repr, DecidableEq

def HostFlaw.message : HostFlaw → String
  | .misplacedBrackets => "Invalid IPv6 URL"
  | .notAnAddress text => s!"{Text.display text} does not appear to be an IPv4 or IPv6 address"
  | .fourNumbers => "An IPv4 address cannot be in brackets"
  | .laterKind => "IPvFuture address is invalid"
  | .disguised host => s!"netloc '{host}' contains invalid characters under NFKC normalization"

namespace Host

/-! ## Addresses -/

/-- Whether a text is a number of at most 255 in decimal digits, without zeros in front. -/
def isOctet (text : List Char) : Bool :=
  !text.isEmpty && text.length ≤ 3 && text.all Char.isDigit &&
    (text = ['0'] || text.head? != some '0') &&
    text.foldl (fun value c => 10 * value + (c.toNat - '0'.toNat)) 0 ≤ 255

/-- Whether a text is an address of four numbers. -/
def isFourNumbers (text : List Char) : Bool :=
  let numbers := text.splitOn '.'
  numbers.length = 4 && numbers.all isOctet

/-- Whether a text is a group of an address: one to four hexadecimal digits. -/
def isGroup (text : List Char) : Bool :=
  !text.isEmpty && text.length ≤ 4 && text.all fun c => (Text.hexValue? c).isSome

/-- The groups of an address, where four numbers at the end count as two groups; none if they are
    broken. -/
def groups? (text : List Char) : Option (List (List Char)) :=
  let groups := text.splitOn ':'
  match groups.getLast? with
  | some last =>
    if !last.contains '.' then some groups
    else if isFourNumbers last then some (groups.dropLast ++ [['0'], ['0']])
    else none
  | none => none

/-- The groups of one side of a gap.  The text may start or end with the gap. -/
def isSide (groups : List (List Char)) : Bool :=
  groups = [[]] || groups.all isGroup

/-- How many groups one side of a gap has. -/
def sideLength (groups : List (List Char)) : Nat :=
  if groups = [[]] then 0 else groups.length

/-- Whether groups make an address: eight of them, or fewer around a single gap. -/
def fillsAddress (groups : List (List Char)) : Bool :=
  let inner := (groups.drop 1).dropLast
  match inner.countP List.isEmpty with
  | 0 => groups.length = 8 && groups.all isGroup
  | 1 =>
    let before := groups.take (inner.findIdx List.isEmpty + 1)
    let behind := groups.drop (inner.findIdx List.isEmpty + 2)
    isSide before && isSide behind && sideLength before + sideLength behind < 8
  | _ => false

/-- Whether a text is an address of eight groups, with a zone behind a percent sign or without. -/
def isEightGroups (text : List Char) : Bool :=
  let address := text.takeWhile (· ≠ '%')
  let zone := text.drop (address.length + 1)
  let zoneFits := address.length = text.length || (!zone.isEmpty && !zone.contains '%')
  match groups? address with
  | some groups => zoneFits && 3 ≤ (address.splitOn ':').length && fillsAddress groups
  | none => false

/-- Whether a text is an address of a later kind: a version in hexadecimal digits behind a `v`, and
    something behind a point. -/
def isLaterKind (text : List Char) : Bool :=
  let version := (text.drop 1).takeWhile fun c => (Text.hexValue? c).isSome
  let behind := text.drop (version.length + 1)
  text.head? = some 'v' && !version.isEmpty && behind.head? = some '.' && 2 ≤ behind.length

/-- The flaw of an address, if it has one. -/
def addressFlaw? (text : List Char) : Option HostFlaw :=
  if text.head? = some 'v' then if isLaterKind text then none else some .laterKind
  else if isFourNumbers text then some .fourNumbers
  else if isEightGroups text then none
  else some (.notAnAddress (String.ofList text))

/-! ## Hosts -/

/-- The characters whose compatibility form holds one of `/`, `?`, `#`, `@` and `:`. -/
def disguises : List Nat :=
  [0x2047, 0x2048, 0x2049, 0x2100, 0x2101, 0x2105, 0x2106, 0x2A74, 0xFE13, 0xFE16, 0xFE55, 0xFE56,
    0xFE5F, 0xFE6B, 0xFF03, 0xFF0F, 0xFF1A, 0xFF1F, 0xFF20]

/-- The part of a host behind the user: the text behind the last `@`. -/
def behindUser (host : List Char) : List Char :=
  (host.reverse.takeWhile (· ≠ '@')).reverse

/-- The flaw of a host with brackets, if it has one.  Behind the user, an opening bracket comes first
    and a port is all that may follow the closing one.  Where no bracket opens there, the text up to
    the port is held to be the address. -/
def bracketFlaw? (host : List Char) : Option HostFlaw :=
  match behindUser host with
  | '[' :: inside =>
    let address := inside.takeWhile (· ≠ ']')
    match inside.drop (address.length + 1) with
    | [] | ':' :: _ => addressFlaw? address
    | _ => some .misplacedBrackets
  | rest =>
    if rest.contains '[' then some .misplacedBrackets
    else addressFlaw? (rest.takeWhile (· ≠ ':'))

/-- The flaw of a host, if it has one. -/
def flaw? (host : List Char) : Option HostFlaw :=
  if host.contains '[' != host.contains ']' then some .misplacedBrackets
  else
    let address := if host.contains '[' then bracketFlaw? host else none
    address.or <|
      if host.any fun c => disguises.contains c.toNat then some (.disguised (String.ofList host))
      else none

example : flaw? "[::1]".toList = none ∧ flaw? "[fe80::1%en0]:80".toList = none := by decide
example : flaw? "[::1.2.3.4]".toList = none ∧ flaw? "[x]@[v1.x]".toList = none := by decide
example : flaw? "bad]".toList = some .misplacedBrackets ∧
    flaw? "[::1]x".toList = some .misplacedBrackets := by decide
example : flaw? "[1.2.3.4]".toList = some .fourNumbers ∧
    flaw? "[::1]@h:80".toList = some (.notAnAddress "h") := by decide
example : flaw? "[1:2:3:4:5:6:7::8]".toList = some (.notAnAddress "1:2:3:4:5:6:7::8") := by decide

end Host

end Marginalia
