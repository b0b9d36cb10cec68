/-!
# Levels of notices

How urgent a notice is.  Only notices of a chosen level and above are shown.
-/

namespace Marginalia

inductive Level where
  | debug
  | info
  | warning
  | error
deriving Repr, DecidableEq

namespace Level

/-- All levels, the least urgent first. -/
def all : List Level := [.debug, .info, .warning, .error]

def word : Level → String
  | .debug => "DEBUG"
  | .info => "INFO"
  | .warning => "WARNING"
  | .error => "ERROR"

def ofWord? (word : String) : Option Level :=
  all.find? fun level => level.word = word

/-- The place of a level in the order of urgency. -/
def rank (level : Level) : Nat :=
  all.idxOf level

/-- Whether notices of the level are shown when those of `least` and above are. -/
def isShownFrom (least level : Level) : Bool :=
  least.rank ≤ level.rank

theorem ofWord?_word (level : Level) : ofWord? level.word = some level := by
  cases level <;> decide

theorem word_of_ofWord? {word : String} {level : Level} (found : ofWord? word = some level) :
    level.word = word := by
  rw [ofWord?] at found
  simpa using List.find?_some found

end Level

end Marginalia
