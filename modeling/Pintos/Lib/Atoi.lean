import Pintos.Lib.FormatInteger

/-!
# Numbers printed and read back (lib/stdlib.c)

`atoi` accumulates the digits as a negative number, so the least `int` is read like the others.
-/

namespace Pintos.Lib.Stdio

example : formatInteger 1234567 true true baseD ⟨{ Flags.none with group := true }, 12, -1, .int⟩ =
    .ok "  -1,234,567".toList := by decide

end Pintos.Lib.Stdio
