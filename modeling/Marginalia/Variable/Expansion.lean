import Marginalia.Text.Search
import Marginalia.Variable.Reference

/-!
# Expanding references in a text

Every reference of a text is replaced by what it stands for, and two dollar signs become one.  The
doubled dollar signs are hidden behind a mark first, so that what is put in place of a reference is
not read again; then the references are replaced from the last one to the first, so that the places
of those still to come remain right.
-/

namespace Marginalia

/-- What stands for two dollar signs while references are replaced. -/
def escapeMark : List Char := "\x00ESCAPED_DOLLAR\x00".toList

/-- The text with a mark for every two dollar signs. -/
def hideEscapes (text : List Char) : List Char :=
  Text.replaceAll ['$', '$'] escapeMark text

/-- The text with a dollar sign for every mark. -/
def showEscapes (text : List Char) : List Char :=
  Text.replaceAll escapeMark ['$'] text

/-- The text with another one in place of a range. -/
def splice (text : List Char) (range : Range) (replacement : List Char) : List Char :=
  text.take range.start.toNat ++ replacement ++ text.drop range.stop.toNat

/-- The text with each of the given references replaced by what it stands for, in the given order. -/
def replaceReferences {m : Type → Type} [Monad m] (render : Reference → m String)
    (text : List Char) : List Reference → m (List Char)
  | [] => return text
  | reference :: rest => do
    let replacement ← render reference
    replaceReferences render (splice text reference.range replacement.toList) rest

/-- The references that an expansion of the text replaces, in the order in which it does. -/
def referencesToExpand (text : List Char) : List Reference :=
  (referencesIn (hideEscapes text)).reverse

/-- The text with every reference replaced by what it stands for. -/
def expandReferences {m : Type → Type} [Monad m] (render : Reference → m String)
    (text : List Char) : m (List Char) := do
  return showEscapes (← replaceReferences render (hideEscapes text) (referencesToExpand text))

end Marginalia
