import Marginalia.Annotation.Record
import Marginalia.Variable.Builtin

/-!
# The surroundings of a place

The values of the built-in variables at a place of a document: they follow from the annotations of
the document.  The function and the class are those of the nearest annotation before the place, the
module is that of the first annotation that names one.
-/

namespace Marginalia

/-- The values of the annotations of some namespaces, in order. -/
def valuesOf (spaces : List String) (annotations : List Annotation) : List String :=
  annotations.filterMap fun note =>
    if spaces.contains note.space then note.value else none

/-- What is known about the place at `offset` of a document. -/
def Surroundings.ofPlace (path : String) (text : List Char) (offset : Int)
    (annotations : List Annotation) : Surroundings :=
  let ahead := annotations.filter fun note => note.range.start ≤ offset
  { file := some path
    line := some ((Range.slice ⟨0, offset⟩ text).count '\n' + 1)
    function := (valuesOf ["fn", "method"] ahead).getLast?
    className := (valuesOf ["class"] ahead).getLast?
    module := (valuesOf ["module"] annotations).head? }

end Marginalia
