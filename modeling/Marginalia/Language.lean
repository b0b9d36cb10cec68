/-!
# Languages

The programming languages whose comments are read: how each writes comments and string literals, and
which file name endings belong to it.
-/

namespace Marginalia

/-- What opens a comment and what closes it. -/
structure Delimiters where
  opener : String
  closer : String
deriving Repr, DecidableEq

/-- A form of string or character literal, whose text holds no comments. -/
inductive LiteralForm where
  /-- Between double quotes, on one line, with backslash escapes. -/
  | doubleQuoted
  /-- Between single quotes, on one line, with backslash escapes. -/
  | singleQuoted
  /-- One character or escape between single quotes. -/
  | character
  /-- Between back quotes, over any lines, with backslash escapes. -/
  | template
  /-- Between back quotes, over any lines, without escapes. -/
  | rawString
deriving Repr, DecidableEq

/-- How a language writes its comments, and the literals that can hide what looks like one. -/
structure CommentStyle where
  line : String
  block : Delimiters
  /-- Comments that document what follows them. -/
  doc : Option Delimiters := none
  /-- The mark of documentation written line by line. -/
  lineDoc : Option String := none
  literals : List LiteralForm
deriving Repr, DecidableEq

/-- A language whose comments are read. -/
inductive Language where
  | typescript
  | javascript
  | typescriptReact
  | javascriptReact
  | java
  | python
  | rust
  | csharp
  | go
  | cpp
  | c
deriving Repr, DecidableEq

namespace Language

def all : List Language :=
  [.typescript, .javascript, .typescriptReact, .javascriptReact, .java, .python, .rust, .csharp,
    .go, .cpp, .c]

/-- The name by which editors know a language. -/
def name : Language → String
  | .typescript => "typescript"
  | .javascript => "javascript"
  | .typescriptReact => "typescriptreact"
  | .javascriptReact => "javascriptreact"
  | .java => "java"
  | .python => "python"
  | .rust => "rust"
  | .csharp => "csharp"
  | .go => "go"
  | .cpp => "cpp"
  | .c => "c"

/-- The language of a name. -/
def ofName? (name : String) : Option Language :=
  all.find? fun language => language.name = name

/-- The block comments that most of the languages share. -/
def slashBlock : Delimiters := ⟨"/*", "*/"⟩

/-- How the language writes its comments. -/
def style : Language → CommentStyle
  | .typescript | .javascript | .typescriptReact | .javascriptReact =>
    { line := "//", block := slashBlock, doc := some ⟨"/**", "*/"⟩
      literals := [.doubleQuoted, .singleQuoted, .template] }
  | .java =>
    { line := "//", block := slashBlock, doc := some ⟨"/**", "*/"⟩
      literals := [.doubleQuoted, .character] }
  | .python =>
    { line := "#", block := ⟨"\"\"\"", "\"\"\""⟩, doc := some ⟨"'''", "'''"⟩
      literals := [.doubleQuoted, .singleQuoted] }
  | .rust | .csharp =>
    { line := "//", block := slashBlock, lineDoc := some "///"
      literals := [.doubleQuoted, .character] }
  | .go =>
    { line := "//", block := slashBlock, literals := [.doubleQuoted, .rawString, .character] }
  | .cpp | .c =>
    { line := "//", block := slashBlock, literals := [.doubleQuoted, .character] }

/-- The file name endings of the languages that files are told apart by, in the order in which
    directories are searched for them. -/
def endings : List (Language × List String) :=
  [(.typescript, [".ts", ".tsx", ".mts", ".cts"]),
    (.javascript, [".js", ".jsx", ".mjs", ".cjs"]),
    (.python, [".py", ".pyi"]),
    (.rust, [".rs"]),
    (.go, [".go"]),
    (.java, [".java"]),
    (.csharp, [".cs"]),
    (.cpp, [".cpp", ".hpp", ".cc", ".hh", ".c", ".h"])]

/-- All file name endings, language by language. -/
def allEndings : List String :=
  endings.flatMap (·.2)

/-- The language that a file name ending belongs to. -/
def ofEnding? (ending : String) : Option Language :=
  (endings.find? fun entry => entry.2.contains ending).map (·.1)

theorem ofName?_name (language : Language) : ofName? language.name = some language := by
  cases language <;> decide

end Language

end Marginalia
