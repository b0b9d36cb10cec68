/-!
# The stack of calls

What is nested is worked on by calls within calls, and the interpreter that runs them has room for a
certain number: work that needs more is broken off.  How deep something may be nested follows from the
calls that each of its levels takes and from those that are open around the work.  The limits that are
told from the size of the stack are those of a request that is asked for on its own; from within further
calls there is room for a few levels less.
-/

namespace Marginalia.Stack

/-- How many calls may be open at once. -/
def size : Nat := 1000

/-- What is said where there is no room for one more call. -/
def fullText : String := "maximum recursion depth exceeded"

end Marginalia.Stack
