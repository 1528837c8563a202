/-!
# Files

What comes of reading a file, and directories whose files are known. A path is relative to a directory,
and nothing is known of what lies above it, or begins with a slash and is relative to the root of the
machine, of which little is known.
-/

namespace StateSearch

/-- What comes of opening a file and reading it to its end. -/
inductive Opened where
  /-- There is no such file. -/
  | missing
  /-- There is something, such as a directory, but it has no text. -/
  | unreadable
  | text (content : String)
  deriving DecidableEq, Repr

/-- A directory, given by the paths and texts of all files in it and in its subdirectories. -/
structure Directory where
  files : List (String × String)
  /-- Subdirectories that are there even if no file in them is known. -/
  folders : List String := []
  /-- Whether nothing lies above it. -/
  isRoot : Bool := false

namespace Directory

/-- A path as the names on it, the last one first. -/
def names (path : String) : List String := (path.splitOn "/").reverse

/-- The text of the file that is reached by these names. -/
def file? (directory : Directory) (names : List String) : Option String :=
  (directory.files.find? fun file => Directory.names file.1 == names).map Prod.snd

/-- Whether there is a subdirectory that is reached by these names. -/
def holds (directory : Directory) (names : List String) : Bool :=
  directory.folders.any (fun folder => Directory.names folder == names) ||
    directory.files.any fun file => names.isSuffixOf (Directory.names file.1)

/-- Follow a path from the subdirectory `here`, or from so many levels above the directory. -/
def follow (directory : Directory) (here : List String) (above : Nat) : List String → Opened
  | [] => .unreadable
  | name :: rest =>
    if name == "" || name == "." then directory.follow here above rest
    else if name == ".." then
      match here with
      | [] => directory.follow [] (if directory.isRoot then 0 else above + 1) rest
      | _ :: outer => directory.follow outer above rest
    else if 0 < above then .missing
    else
      match directory.file? (name :: here) with
      | some text => if rest.isEmpty then .text text else .missing
      | none => if directory.holds (name :: here) then directory.follow (name :: here) 0 rest
        else .missing

/-- What is known of every machine: a file without text, and where other files are kept. -/
def machine : Directory where
  files := [("dev/null", "")]
  folders := ["bin", "dev", "etc", "home", "lib", "media", "mnt", "opt", "proc", "root", "run", "sbin",
    "srv", "sys", "tmp", "usr", "var"]
  isRoot := true

/-- How many bytes a path may have. -/
def longestPath : Nat := 4095

/-- Read the file at a path. -/
def read (directory : Directory) (path : String) : Opened :=
  if path.isEmpty || longestPath < path.utf8ByteSize then .missing
  else (if path.startsWith "/" then machine else directory).follow [] 0 (path.splitOn "/")

end Directory

end StateSearch
