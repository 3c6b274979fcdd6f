import TextGrammar.Files.Basic
import TextGrammar.RuleSet.Json
import TextGrammar.RuleSet.Ron

/-!
# TextGrammar.RuleSet.Edit — loading and changing rule sets

The extension of a path says in which format its file is written.  The file is read before the extension
is looked at, so a file that cannot be read is reported as such whatever its name.  An edit brings entries
from somewhere and puts them in place of those with the same keys; an edit whose entries cannot be had
leaves the rule set as it is.

The words for an error leave out the place in a JSON text at which reading it failed (its line and
column), and of a RON text that cannot be read they say no more than that.
-/

namespace TextGrammar

namespace RuleSet

/-- Why a rule set cannot be had. -/
inductive Error where
  | file (e : FileError)
  | json (e : Json.Error)
  | ron
  /-- The extension of a path names no format. -/
  | unknownFormat (path : Text)

def Error.message : Error → Text
  | file e => "IO error: ".toList ++ e.message
  | json e => "JSON deserialization error: ".toList ++ e.message
  | ron => "RON deserialization error".toList
  | unknownFormat path =>
    "unknown rule set format for '".toList ++ path ++ "' (expected .json or .ron)".toList

/-- A format of rule sets. -/
inductive Format where
  | json
  | ron
deriving DecidableEq, Repr

def Format.ofPath? (path : Text) : Option Format :=
  match Path.extension? path with
  | some ['j', 's', 'o', 'n'] => some json
  | some ['r', 'o', 'n'] => some ron
  | _ => none

def Format.read : Format → Text → Except Error RuleSet
  | json, s => (readJson s).mapError .json
  | ron, s =>
    match readRon s with
    | some rules => .ok rules
    | none => .error .ron

/-- Read the rule set in the file at a path. -/
def load (files : Files) (path : Text) : Except Error RuleSet := do
  let s ← (files.readText path).mapError .file
  match Format.ofPath? path with
  | some format => format.read s
  | none => .error (.unknownFormat path)

/-- Where the path names a format, what counts is the content of the file. -/
theorem load_of_ok {files : Files} {path : Text} {bytes : ByteArray} {format : Format}
    (hformat : Format.ofPath? path = some format) (h : files path = .ok bytes) :
    load files path = (decodeText bytes).mapError .file >>= format.read := by
  rw [load, Files.readText_of_ok h, hformat]

end RuleSet

/-! ### Changing a rule set -/

/-- A change of a rule set. -/
inductive Edit where
  | insert (key : Text) (rule : Rule)
  | merge (rules : RuleSet)
  /-- Merge the rule set of a JSON text. -/
  | mergeJson (s : Text)
  /-- Merge the rule set of a file. -/
  | mergeFile (path : Text)

namespace Edit

/-- The rule set after an edit. -/
def apply (files : Files) (set : RuleSet) : Edit → Except RuleSet.Error RuleSet
  | insert key rule => .ok (KeyMap.insert set key rule)
  | merge rules => .ok (KeyMap.merge set rules)
  | mergeJson s => do return KeyMap.merge set (← RuleSet.Format.json.read s)
  | mergeFile path => do return KeyMap.merge set (← RuleSet.load files path)

/-- The rule set after an edit that may fail. -/
def perform (files : Files) (set : RuleSet) (e : Edit) : RuleSet :=
  match e.apply files set with
  | .ok changed => changed
  | .error _ => set

def performAll (files : Files) (set : RuleSet) (edits : List Edit) : RuleSet :=
  edits.foldl (perform files) set

end Edit

end TextGrammar
