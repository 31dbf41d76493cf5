import PakIndex.Name

/-!
# Paths

* `Path`: the segments that lead to a file.
-/

namespace PakIndex

/-- The segments that lead to a file, from the root down. -/
abbrev Path := List Bytes

end PakIndex
