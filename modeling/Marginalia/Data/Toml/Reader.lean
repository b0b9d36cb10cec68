import Marginalia.Data.Toml.Token
import Marginalia.Data.Toml.Tree
import Marginalia.Stack
import Marginalia.Text.Machine

/-!
# Reading TOML

A TOML text as a value.  The reader is a machine: it reads statement by statement, keeps the arrays
and inline tables that are still open on a stack, and builds the tree of tables on its way.  All that
breaks a rule makes the text unreadable; only an integer with too many digits and values nested too
deep are told apart.
-/

namespace Marginalia.Toml

/-- What a key that is being read is for. -/
inductive KeyUse where
  /-- It is given a value. -/
  | assignment
  /-- It is the header of a table. -/
  | header
  /-- It is the header of one more table in an array. -/
  | item

/-- What is open around a value or a key that is being read. -/
inductive Frame where
  /-- A key of the section, whose value is expected. -/
  | assignment (key : List String)
  /-- An array, the last item in front. -/
  | array (items : List Value)
  /-- An inline table, and the key in it whose value is expected. -/
  | inline (entries : Entries) (key : List String)

inductive Phase where
  | statement
  /-- The end of the line behind a statement. -/
  | lineEnd
  /-- A part of a key, behind the parts so far. -/
  | part (use : KeyUse) (parts : List String)
  /-- What follows a part of a key. -/
  | joint (use : KeyUse) (parts : List String)
  | value
  /-- An item of an array, or its end. -/
  | item
  /-- What follows an item of an array. -/
  | behindItem
  /-- The first key of an inline table, or its end. -/
  | firstKey
  /-- What follows a value of an inline table. -/
  | behindEntry

/-- Whether lines may end and comments may stand where the machine reads next, because it reads
    inside an array. -/
def Phase.isOverLines : Phase → Bool
  | .item | .behindItem => true
  | _ => false

/-- The tables so far, the header of the section and its number, what is open and what is read
    next. -/
structure State where
  entries : Entries
  header : List String
  number : Nat
  frames : List Frame
  phase : Phase

/-- A rule is broken. -/
def refuse {α : Type} : Except Problem α := .error .unreadable

/-- What a rule allows. -/
def allow {α : Type} : Option α → Except Problem α
  | some result => .ok result
  | none => refuse

/-- The state with another thing to read next. -/
def State.goOn (state : State) (phase : Phase) : State :=
  { state with phase }

/-- The state with something more open. -/
def State.push (state : State) (frame : Frame) (phase : Phase) : State :=
  { state with frames := frame :: state.frames, phase }

/-- Files a value that was read: in what is open around it. -/
def State.deliver (state : State) (frames : List Frame) (value : Value) : Except Problem State :=
  match frames with
  | .assignment key :: outer =>
    (allow (state.entries.assignDotted? state.header state.number key value)).map fun entries =>
      { state with entries, frames := outer, phase := .lineEnd }
  | .array items :: outer =>
    .ok { state with frames := .array (value :: items) :: outer, phase := .behindItem }
  | .inline entries key :: outer =>
    (allow (entries.assignDotted? [] 0 key value)).map fun entries =>
      { state with frames := .inline entries [] :: outer, phase := .behindEntry }
  | [] => refuse

/-- Reads a part of a key. -/
def State.readPart (state : State) (use : KeyUse) (parts : List String) (text : List Char) :
    Except Problem (State × Nat) :=
  (allow (readKeyPart? text)).map fun (part, rest) =>
    (state.goOn (.joint use (parts ++ [part])), text.length - rest.length)

/-- Reads the beginning of a statement. -/
def State.readStatement (state : State) (text : List Char) : Except Problem (State × Nat) :=
  match text with
  | '[' :: '[' :: _ => .ok (state.goOn (.part .item []), 2)
  | '[' :: _ => .ok (state.goOn (.part .header []), 1)
  | _ => state.readPart .assignment [] text

/-- The state behind a header. -/
def State.enter (state : State) (key : List String) (entries : Option Entries) :
    Except Problem State :=
  (allow entries).map fun entries =>
    { state with entries, header := key, number := state.number + 1, phase := .lineEnd }

/-- The state in which the value of a key is expected. -/
def State.expectValue (state : State) (key : List String) : State :=
  match state.frames with
  | .inline entries _ :: outer =>
    { state with frames := .inline entries key :: outer, phase := .value }
  | _ => state.push (.assignment key) .value

/-- Reads what ends a key. -/
def State.closeKey (state : State) (use : KeyUse) (key : List String) (text : List Char) :
    Except Problem (State × Nat) :=
  match use, text with
  | .assignment, '=' :: _ => .ok (state.expectValue key, 1)
  | .header, ']' :: _ =>
    (state.enter key (state.entries.changeLast? Entries.open? key)).map (·, 1)
  | .item, ']' :: ']' :: _ =>
    (state.enter key (state.entries.changeLast? Entries.append? key)).map (·, 2)
  | _, _ => refuse

/-- How many calls something that is open takes. -/
def Frame.weight : Frame → Nat
  | .assignment _ => 0
  | .array _ => 2
  | .inline .. => 3

/-- How many calls there may be for what is open.  About twenty more are open around a reading. -/
def depthLimit : Nat := Stack.size - 20

/-- Opens an array or an inline table. -/
def State.openFrame (state : State) (frame : Frame) (phase : Phase) : Except Problem (State × Nat) :=
  let depth := (state.frames.map Frame.weight).foldl (· + ·) frame.weight
  if depthLimit < depth then .error .tooDeep else .ok (state.push frame phase, 1)

/-- Reads a value, or opens the array or inline table that it is. -/
def State.readValue (state : State) (text : List Char) : Except Problem (State × Nat) :=
  match text with
  | '[' :: _ => state.openFrame (.array []) .item
  | '\x7b' :: _ => state.openFrame (.inline [] []) .firstKey
  | _ =>
    (readScalar text).bind fun (value, rest) =>
      (state.deliver state.frames value).map (·, text.length - rest.length)

/-- Closes the array or inline table that is innermost. -/
def State.close (state : State) : Except Problem (State × Nat) :=
  match state.frames with
  | .array items :: outer => (state.deliver outer (.list items.reverse)).map (·, 1)
  | .inline entries _ :: outer => (state.deliver outer entries.value).map (·, 1)
  | _ => refuse

/-- Reads at a character that is no white space; a line end or a comment was read elsewhere. -/
def State.readAt (state : State) (c : Char) (text : List Char) : Except Problem (State × Nat) :=
  match state.phase with
  | .statement => state.readStatement text
  | .lineEnd => refuse
  | .part use parts => state.readPart use parts text
  | .joint use parts =>
    if c = '.' then .ok (state.goOn (.part use parts), 1) else state.closeKey use parts text
  | .value => state.readValue text
  | .item => if c = ']' then state.close else state.readValue text
  | .behindItem =>
    if c = ',' then .ok (state.goOn .item, 1) else if c = ']' then state.close else refuse
  | .firstKey => if c = '\x7d' then state.close else state.readPart .assignment [] text
  | .behindEntry =>
    if c = ',' then .ok (state.goOn (.part .assignment []), 1)
    else if c = '\x7d' then state.close
    else refuse

/-- Reads the end of a line. -/
def State.readLineEnd (state : State) : Except Problem (State × Nat) :=
  match state.phase with
  | .statement | .lineEnd => .ok (state.goOn .statement, 1)
  | phase => if phase.isOverLines then .ok (state, 1) else refuse

/-- Reads a comment, which stands in front of the text. -/
def State.readComment (state : State) (text : List Char) : Except Problem (State × Nat) :=
  let comment := text.takeWhile (· ≠ '\n')
  if !comment.all isLegal then refuse
  else
    match state.phase with
    | .statement | .lineEnd => .ok (state.goOn .lineEnd, comment.length)
    | phase => if phase.isOverLines then .ok (state, comment.length) else refuse

def step (_ : Nat) (state : State) (text : List Char) : Except Problem (State × Nat) :=
  match text with
  | [] => .ok (state, 0)
  | c :: _ =>
    if isSpace c then .ok (state, 1)
    else if c = '\n' then state.readLineEnd
    else if c = '#' then state.readComment text
    else state.readAt c text

/-- The value that a text spells, which is always a table. -/
def read (text : List Char) : Except Problem Value := do
  let unified := Text.replaceAll ['\r', '\n'] ['\n'] text
  let state ← Text.run step ⟨[], [], 0, [], .statement⟩ unified
  match state.phase with
  | .statement | .lineEnd => .ok state.entries.value
  | _ => refuse

end Marginalia.Toml
