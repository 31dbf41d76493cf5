/-!
# Copies within an output

* `copyBack`: repeats bytes that were put out before. A copy may reach into itself and so repeats
  what it has just written.
-/

namespace PakIndex

/-- `out` with `length` bytes more, each the one `distance` before it. -/
def copyBack (out : ByteArray) (distance : Nat) : (length : Nat) → ByteArray
  | 0 => out
  | length + 1 =>
    let b := out[out.size - distance]?.getD 0
    copyBack (out.push b) distance length

end PakIndex
