/-!
# Compression methods

* `Method`: how the payload of an entry is stored.
* `Method.ofCode`, `Method.code`: its 16-bit code.
* `Method.isStored`, `Method.isEnciphered`.
-/

namespace PakIndex

/-- How the payload of an entry is stored. -/
inductive Method
  | store
  | deflate
  | storeKeyTable
  | deflateKeyTable
  | zstd
  | unknown (code : UInt16)
  deriving Repr, DecidableEq, Inhabited

namespace Method

/-- The method with a given code. -/
def ofCode (code : UInt16) : Method :=
  if code = 0 then store
  else if code = 8 then deflate
  else if code = 13 then storeKeyTable
  else if code = 14 then deflateKeyTable
  else if code = 93 then zstd
  else unknown code

/-- The code of a method. -/
def code : Method → UInt16
  | store => 0
  | deflate => 8
  | storeKeyTable => 13
  | deflateKeyTable => 14
  | zstd => 93
  | unknown code => code

/-- Whether the payload is not compressed, so that both sizes must agree. -/
def isStored : Method → Bool
  | store | storeKeyTable => true
  | _ => false

/-- Whether the payload is also enciphered with the key table of the archive. -/
def isEnciphered : Method → Bool
  | storeKeyTable | deflateKeyTable => true
  | _ => false

@[simp] theorem code_ofCode (c : UInt16) : (ofCode c).code = c := by
  unfold ofCode
  repeat' split
  all_goals simp_all [code]

end Method

end PakIndex
