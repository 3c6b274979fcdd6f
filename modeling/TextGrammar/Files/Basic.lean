import TextGrammar.Text.Basic

/-!
# TextGrammar.Files — paths and files

A path is a text whose components stand between slashes.  The last component is the name of a file,
and what follows the last period of a name is its extension.  `Files` says what reading the file at a path
yields: bytes, or the reason why there are none.  A file that holds a text holds it in UTF-8.

A directory lists places with what is found there.  A path is followed one component at a time, from
the directory itself or, when it is absolute, from outside.  Nothing is known of the outside but that
its places are directories without files.
-/

namespace TextGrammar

namespace Path

/-- The components of a path, empty ones included. -/
def components : Text → List Text
  | [] => [[]]
  | c :: rest =>
    if c = '/' then [] :: components rest
    else
      match components rest with
      | [] => [[c]]
      | first :: others => (c :: first) :: others

def name (path : Text) : Text := (components path).getLastD []

def isAbsolute (path : Text) : Bool := path.head? = some '/'

/-- The texts in front of and behind the last period. -/
def splitAtPeriod? : Text → Option (Text × Text)
  | [] => none
  | c :: rest =>
    match splitAtPeriod? rest with
    | some (before, after) => some (c :: before, after)
    | none => if c = '.' then some ([], rest) else none

/-- The extension of a path.  A name that begins with its only period has none. -/
def extension? (path : Text) : Option Text :=
  match splitAtPeriod? (name path) with
  | some (_ :: _, after) => some after
  | _ => none

end Path

/-! ### Reading files -/

/-- Why the text of a file cannot be read. -/
inductive FileError where
  /-- Nothing has the path. -/
  | notFound
  /-- The path leads through a file. -/
  | notDirectory
  /-- The path leads to a directory. -/
  | isDirectory
  /-- The bytes are no text. -/
  | notUtf8
  /-- The system refuses for a reason of its own, which has a number. -/
  | refused (reason : Text) (number : Nat)
deriving DecidableEq, Repr

namespace FileError

/-- A reason of the system with its number. -/
def numbered (reason : Text) (number : Nat) : Text :=
  reason ++ " (os error ".toList ++ Text.decimal number ++ [')']

def message : FileError → Text
  | notFound => numbered "No such file or directory".toList 2
  | notDirectory => numbered "Not a directory".toList 20
  | isDirectory => numbered "Is a directory".toList 21
  | notUtf8 => "stream did not contain valid UTF-8".toList
  | refused reason number => numbered reason number

end FileError

/-- The text of bytes in UTF-8. -/
def decodeText (bytes : ByteArray) : Except FileError Text :=
  match String.fromUTF8? bytes with
  | some s => .ok s.toList
  | none => .error .notUtf8

/-- The text of a string is read back from its bytes. -/
theorem decodeText_toUTF8 (s : String) : decodeText s.toUTF8 = .ok s.toList := by
  have hs : String.fromUTF8? s.toUTF8 = some s := dif_pos s.isValidUTF8
  rw [decodeText, hs]

/-- The bytes of a text in UTF-8. -/
def encodeText (t : Text) : ByteArray := (String.ofList t).toUTF8

@[simp] theorem decodeText_encodeText (t : Text) : decodeText (encodeText t) = .ok t := by
  rw [encodeText, decodeText_toUTF8, String.toList_ofList]

/-- What reading the file at a path yields. -/
abbrev Files := Text → Except FileError ByteArray

def Files.readText (files : Files) (path : Text) : Except FileError Text :=
  files path >>= decodeText

theorem Files.readText_of_ok {files : Files} {path : Text} {bytes : ByteArray}
    (h : files path = .ok bytes) : files.readText path = decodeText bytes := by
  rw [readText, h]
  rfl

/-! ### A directory held in memory -/

/-- What is found at a place. -/
inductive Content where
  | file (bytes : ByteArray)
  | folder

/-- A place that a path leads to. -/
inductive Place where
  /-- The place that names lead down to. -/
  | inside (names : List Text)
  /-- A directory around the one at hand. -/
  | outside
deriving DecidableEq, Repr

namespace Place

def start (path : Text) : Place := if Path.isAbsolute path then outside else inside []

def parent : Place → Place
  | inside [] => outside
  | inside names => inside names.dropLast
  | outside => outside

/-- Go from a folder to the place that a component names. -/
def descend (place : Place) (component : Text) : Except FileError Place :=
  if component = [] ∨ component = ['.'] then .ok place
  else if component = ['.', '.'] then .ok place.parent
  else
    match place with
    | inside names => .ok (inside (names ++ [component]))
    | outside => .error .notFound

/-- The places that components lead to, one after another. -/
def way (place : Place) : (components : List Text) → List Place
  | [] => [place]
  | component :: rest =>
    match place.descend component with
    | .ok next => place :: way next rest
    | .error _ => [place]

end Place

/-- A directory: places with what is found there.  Of several entries for a place the first one
counts. -/
structure Directory where
  entries : List (Place × Content)

namespace Directory

/-- Put something at the end of a path, with the folders on the way. -/
def write (d : Directory) (path : Text) (content : Content) : Directory :=
  let way := (Place.start path).way (Path.components path)
  ⟨(way.getLastD .outside, content) :: way.dropLast.map (·, .folder) ++ d.entries⟩

/-- The directory into which a list of paths is written in order. -/
def ofPaths (paths : List (Text × Content)) : Directory :=
  paths.foldl (fun d e => d.write e.1 e.2) ⟨[]⟩

def content? (d : Directory) : Place → Option Content
  | .outside => some .folder
  | .inside [] => some .folder
  | place => (d.entries.find? fun e => e.1 = place).map (·.2)

/-- Follow one component of a path. -/
def follow (d : Directory) (place : Place) (component : Text) : Except FileError Place :=
  match d.content? place with
  | none => .error .notFound
  | some (.file _) => .error .notDirectory
  | some .folder => place.descend component

/-- Read the file at a path. -/
def read (d : Directory) : Files := fun path =>
  if path.isEmpty then .error .notFound
  else do
    let place ← (Path.components path).foldlM d.follow (.start path)
    match d.content? place with
    | none => .error .notFound
    | some .folder => .error .isDirectory
    | some (.file bytes) => .ok bytes

end Directory

end TextGrammar
