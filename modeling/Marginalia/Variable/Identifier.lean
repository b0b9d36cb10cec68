/-!
# Variable names

Names of variables as they are written and as they are allowed.  A reference is recognised by a loose
rule, so that a badly spelled name is reported and not passed over; a variable may only be declared
under a name of capitals, digits and underscores.  The beginning of a name suggests what kind of
thing the variable stands for.
-/

namespace Marginalia

/-- A character that a written name can start with. -/
def isNameStart (c : Char) : Bool :=
  c.isAlpha || c = '_'

/-- A character that a written name can go on with. -/
def isNameRest (c : Char) : Bool :=
  c.isAlphanum || c = '_'

/-- Whether a variable may have this name: a capital, followed by capitals, digits and underscores. -/
def isValidName (name : String) : Bool :=
  match name.toList with
  | [] => false
  | first :: rest => first.isUpper && rest.all fun c => c.isUpper || c.isDigit || c = '_'

theorem isUpper_or_of_mem {name : String} {c : Char} (valid : isValidName name = true)
    (member : c ∈ name.toList) : (c.isUpper || c.isDigit || c = '_') = true := by
  unfold isValidName at valid
  split at valid
  next => cases valid
  next first rest whole =>
    rw [Bool.and_eq_true_iff, List.all_eq_true] at valid
    rw [whole, List.mem_cons] at member
    rcases member with rfl | inRest
    · rw [valid.1]
      rfl
    · exact valid.2 c inRest

/-- What a variable stands for. -/
inductive VariableKind where
  | symbol
  | file
  | domain
  | plain
deriving Repr, DecidableEq, Inhabited

namespace VariableKind

def all : List VariableKind := [.symbol, .file, .domain, .plain]

def word : VariableKind → String
  | .symbol => "symbol"
  | .file => "file"
  | .domain => "domain"
  | .plain => "string"

def ofWord? (word : String) : Option VariableKind :=
  all.find? fun kind => kind.word = word

/-- The beginnings of names that suggest a kind. -/
def beginnings : List (String × VariableKind) :=
  [("SYM_", .symbol), ("FILE_", .file), ("DOM_", .domain)]

/-- The kind that the beginning of a name suggests. -/
def suggestedBy? (name : String) : Option VariableKind :=
  (beginnings.find? fun entry => entry.1.toList.isPrefixOf name.toList).map (·.2)

theorem ofWord?_word (kind : VariableKind) : ofWord? kind.word = some kind := by
  cases kind <;> decide

theorem word_of_ofWord? {word : String} {kind : VariableKind} (found : ofWord? word = some kind) :
    kind.word = word := by
  rw [ofWord?] at found
  simpa using List.find?_some found

end VariableKind

/-- How a reference asks for a variable to be rendered, instead of its value. -/
inductive Modifier where
  | full
  | ref
  | signature
deriving Repr, DecidableEq

namespace Modifier

def all : List Modifier := [.full, .ref, .signature]

def word : Modifier → String
  | .full => "full"
  | .ref => "ref"
  | .signature => "signature"

def ofWord? (word : String) : Option Modifier :=
  all.find? fun modifier => modifier.word = word

theorem ofWord?_word (modifier : Modifier) : ofWord? modifier.word = some modifier := by
  cases modifier <;> decide

end Modifier

end Marginalia
