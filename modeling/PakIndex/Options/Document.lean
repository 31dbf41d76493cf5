import PakIndex.Error
import PakIndex.Options
import PakIndex.Toml.Document

/-!
# Options from a document

* `Options.ofTable?`: the options in a table; a missing key leaves the default.
* `Options.parse`: the options in the text of a document.
* `Options.load`: the options in a file.
-/

namespace PakIndex

open Toml (Value Table)

/-- Whether a value holds nothing, as the value of a bare choice may. -/
def Toml.Value.isVoid : Value → Bool
  | .array [] | .table _ [] | .tables [] => true
  | _ => false

/-- The thoroughness that a value names: by a string, or by the only key of a table that holds
nothing else. -/
def Thoroughness.ofValue? : Value → Option Thoroughness
  | .string name => ofName? name
  | .table _ [(name, v)] => if v.isVoid then ofName? name else none
  | _ => none

namespace Options

/-- The switch under a key, or the default. -/
def switch? (t : Table) (key : String) (default : Bool) : Option Bool :=
  match t.lookup key with
  | none => some default
  | some (.boolean b) => some b
  | some _ => none

/-- The options in a table. Keys that are not known do not matter. -/
def ofTable? (t : Table) : Option Options := do
  let defaults : Options := {}
  let init ←
    match t.lookup "init_method" with
    | none => some defaults.init
    | some v => Thoroughness.ofValue? v
  return {
    init
    readOnly := ← switch? t "read_only" defaults.readOnly
    createNew := ← switch? t "create_new" defaults.createNew
    dontCompact := ← switch? t "dont_compact" defaults.dontCompact
    memorizePath := ← switch? t "memorize_path" defaults.memorizePath }

/-- The options in the text of a document. -/
def parse (text : String) : Except Error Options :=
  match Toml.parse text with
  | none => .error (.config "the document is malformed")
  | some t =>
    match ofTable? t with
    | none => .error (.config "an option has an unknown value")
    | some options => .ok options

/-- The options in a file with the given content, if there is one. -/
def load (content : Option ByteArray) : Except Error Options :=
  match content with
  | none => .error (.io .noSuchFile)
  | some bytes =>
    match String.fromUTF8? bytes with
    | none => .error (.io .notText)
    | some text => parse text

end Options

end PakIndex
