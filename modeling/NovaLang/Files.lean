import NovaLang.Keyed
import NovaLang.Text.Line

namespace NovaLang

/-! # Files

The files a command line works on, by path. A path is a list of components
without empty ones and single dots. It is followed component by component: each
one but the last has to be a directory, and two dots lead to the directory above.
-/

/-- A path in normal form. -/
structure Path where
  /-- The slashes in front of an absolute path. -/
  root : String
  components : List String
  deriving DecidableEq, Repr

namespace Path

/-- The path that a text names. Two slashes in front are kept, any other number
of them counts as one. -/
def ofString (s : String) : Path :=
  let slashes := s.toList.takeWhile (· == '/')
  { root := match slashes.length with
      | 0 => ""
      | 2 => "//"
      | _ => "/"
    components := (s.splitOn "/").filter fun c => c != "" && c != "." }

/-- A path as text; the path without components is a dot. -/
def toString (p : Path) : String :=
  if p.root.isEmpty && p.components.isEmpty then "."
  else p.root ++ "/".intercalate p.components

/-- The path with a suffix added to its last component. -/
def addSuffix (p : Path) (suffix : String) : Path :=
  match p.components.reverse with
  | [] => p
  | name :: above => { p with components := ((name ++ suffix) :: above).reverse }

/-- The directory a path starts from. -/
def start (p : Path) : Path :=
  { root := if p.root.isEmpty then "" else "/", components := [] }

/-- A path below a directory. -/
def child (p : Path) (name : String) : Path :=
  { p with components := p.components ++ [name] }

/-- The directory above a directory; nothing is above the root. -/
def up (p : Path) : Path :=
  match p.components.getLast? with
  | none => if p.root.isEmpty then p.child ".." else p
  | some ".." => p.child ".."
  | some _ => { p with components := p.components.dropLast }

/-- Where one component leads from a directory. -/
def step (p : Path) (component : String) : Path :=
  if component = ".." then p.up else p.child component

/-- The path with two dots only in front, where they lead above the directory the
path starts from. A path whose directories exist leads to the same place. -/
def resolve (p : Path) : Path := p.components.foldl step p.start

end Path

/-- Files by their resolved paths, as text in bytes. -/
structure Files where
  contents : List (String × ByteArray) := []
  /-- Directories, besides those that files are in. -/
  directories : List String := []

namespace Files

/-- What lies at a path. -/
inductive Found where
  | file (content : ByteArray)
  | directory
  | missing
  /-- The path, or a component of it, is longer than a path may be. -/
  | tooLong

/-- The number of bytes a component may have. -/
def maxName : Nat := 255

/-- The number of bytes a path may have. -/
def maxPath : Nat := 4095

/-- A directory lies at a resolved path. -/
def isDirectory (files : Files) (path : String) : Bool :=
  files.directories.contains path ||
    files.contents.any fun f => (path ++ "/").toList.isPrefixOf f.1.toList

/-- What components lead to from a directory. A name is looked up only in a
directory, so that one that is too long is found out only there. -/
def follow (files : Files) (here : Path) : List String → Found
  | [] => .directory
  | component :: rest =>
    let there := here.step component
    if component = ".." then follow files there rest
    else if maxName < component.utf8ByteSize then .tooLong
    else match Keyed.get? files.contents there.toString with
      | some content => if rest.isEmpty then .file content else .missing
      | none => if files.isDirectory there.toString then follow files there rest else .missing

/-- What lies at a path. No path holds a null character. -/
def find (files : Files) (p : Path) : Found :=
  if p.toString.contains '\x00' then .missing
  else if maxPath < p.toString.utf8ByteSize then .tooLong
  else files.follow p.start p.components

/-- The files with a text written to one of them. -/
def write (files : Files) (p : Path) (text : String) : Files :=
  { files with contents := Keyed.set p.resolve.toString text.toUTF8 files.contents }

/-- The text of a file: valid UTF-8, with one kind of line end. -/
def decode? (content : ByteArray) : Option String :=
  (String.fromUTF8? content).map fun s => String.ofList (Text.unifyLines s.toList)

end Files

end NovaLang
