/-!
# Built-in variables

The variables that need no declaration.  Their values depend on the place of the reference; where
that is not known, an example value stands in.
-/

namespace Marginalia

inductive Builtin where
  | file
  | line
  | function
  | className
  | module
deriving Repr, DecidableEq

/-- What is known about the place of a reference. -/
structure Surroundings where
  file : Option String := none
  line : Option Int := none
  function : Option String := none
  className : Option String := none
  module : Option String := none
deriving Repr, DecidableEq, Inhabited

namespace Builtin

/-- All built-in variables, in the order in which they are listed. -/
def all : List Builtin := [.file, .line, .function, .className, .module]

def name : Builtin → String
  | .file => "FILE"
  | .line => "LINE"
  | .function => "FUNCTION"
  | .className => "CLASS"
  | .module => "MODULE"

/-- What the variable stands for. -/
def description : Builtin → String
  | .file => "Current file path relative to workspace root"
  | .line => "Current line number in the file"
  | .function => "Name of the enclosing function or method"
  | .className => "Name of the enclosing class"
  | .module => "Module name from @acp:module annotation"

/-- The value shown where the place of the reference is not known. -/
def sample : Builtin → String
  | .file => "src/example.ts"
  | .line => "42"
  | .function => "handleRequest"
  | .className => "UserService"
  | .module => "AuthModule"

/-- Every built-in variable depends on where it is referred to. -/
def isContextual (_ : Builtin) : Bool := true

/-- The built-in variable of a name. -/
def ofName? (name : String) : Option Builtin :=
  all.find? fun builtin => builtin.name = name

theorem ofName?_name (builtin : Builtin) : ofName? builtin.name = some builtin := by
  cases builtin <;> decide

end Builtin

/-- The value of a built-in variable at a place, as far as it is known. -/
def Surroundings.valueOf (place : Surroundings) : Builtin → Option String
  | .file => place.file
  | .line => place.line.map toString
  | .function => place.function
  | .className => place.className
  | .module => place.module

end Marginalia
