import PakIndex.Index.Basic

/-!
# Descriptions

* `Method.name`, `Encryption.name`, `Signing.name`: the words for methods and techniques.
* `Index.describe`: an index in one line.
-/

namespace PakIndex

/-- The word for a method. -/
def Method.name : Method → String
  | .store => "Store"
  | .deflate => "Deflate"
  | .storeKeyTable => "StoreAndStreamCipherKeyTable"
  | .deflateKeyTable => "DeflateAndStreamCipherKeyTable"
  | .zstd => "Zstd"
  | .unknown code => "Unknown(" ++ toString code.toNat ++ ")"

/-- The word for an encryption technique. -/
def Encryption.name : Encryption → String
  | .none => "None"
  | .streamCipher => "StreamCipher"
  | .tea => "Tea"
  | .streamCipherKeyTable => "StreamCipherKeyTable"

/-- The word for a signing technique. -/
def Signing.name : Signing → String
  | .none => "None"
  | .directorySigned => "DirectorySigned"

/-- A record in one line: its name and its fields with their values. -/
def describeFields (name : String) (fields : List (String × String)) : String :=
  name ++ " \x7b " ++ ", ".intercalate (fields.map fun (field, value) => field ++ ": " ++ value)
    ++ " \x7d"

/-- The state of an index in one line. -/
def IndexFlags.describe (f : IndexFlags) : String :=
  describeFields "IndexFlags" [
    ("read_only", toString f.readOnly),
    ("dirty", toString f.dirty),
    ("dont_compact", toString f.dontCompact)]

/-- An index in one line. -/
def Index.describe (i : Index) : String :=
  describeFields "Index" [
    ("entries", toString i.size),
    ("directory_offset", toString i.directoryOffset.toNat),
    ("directory_size", toString i.directorySize.toNat),
    ("encryption", i.headers.encryption.name),
    ("signing", i.headers.signing.name),
    ("flags", i.flags.describe),
    ("path", match i.path with
      | none => "None"
      | some path => "Some(" ++ path.quote ++ ")")]

end PakIndex
