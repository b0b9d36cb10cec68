/-!
# One kind of line end

Text files end their lines with a newline, a carriage return or both.  Reading makes each of the
three a newline.
-/

namespace Marginalia.Text

/-- Every line end as a newline.  `returned` tells whether a carriage return stands directly in
    front, whose newline was written already. -/
def unifyFrom : (returned : Bool) → List Char → List Char
  | _, [] => []
  | returned, c :: rest =>
    if c = '\r' then '\n' :: unifyFrom true rest
    else if returned && c = '\n' then unifyFrom false rest
    else c :: unifyFrom false rest

/-- The text with every line end as a newline. -/
def unifyNewlines (text : List Char) : List Char :=
  unifyFrom false text

example : unifyNewlines "a\r\nb\rc\n\r\n\n".toList = "a\nb\nc\n\n\n".toList := by decide

end Marginalia.Text
