import AttributeAccess.OrderedMap
import AttributeAccess.Text.Quoted

/-!
# Directories of text files

A directory holds texts by their paths from it. `read` and `write` follow a path step by step and
say what stands in the way: a missing step, a file where a directory is needed, a directory where
a file is, or a name that is too long. A path from the root of all directories meets what every
system has there; a path that leaves the directory upwards meets no file.
-/

namespace AttributeAccess.CommandLine

/-! ## Faults -/

/-- Why a file could not be read or written. -/
inductive FileCause where
  | notFound
  | isDirectory
  | notDirectory
  | denied
  | nameTooLong
deriving DecidableEq, Repr

structure FileFault where
  cause : FileCause
  path : Text
deriving DecidableEq, Repr

def FileCause.message : FileCause → Text
  | notFound => "[Errno 2] No such file or directory".toText
  | isDirectory => "[Errno 21] Is a directory".toText
  | notDirectory => "[Errno 20] Not a directory".toText
  | denied => "[Errno 13] Permission denied".toText
  | nameTooLong => "[Errno 36] File name too long".toText

def FileFault.message (f : FileFault) : Text :=
  f.cause.message ++ ": ".toText ++ f.path.quoted

/-! ## Paths -/

/-- The steps of a path, without empty ones and those that lead nowhere else. -/
def pathSteps (t : Text) : List Text :=
  (Text.splitOn [.char '/'] t).filter fun s => !s.isEmpty && s ≠ [.char '.']

/-- The slashes that a path starts with: two remain two, more count as one. -/
def rootMark : Text → Text
  | .char '/' :: .char '/' :: .char '/' :: _ => [.char '/']
  | .char '/' :: .char '/' :: _ => [.char '/', .char '/']
  | .char '/' :: _ => [.char '/']
  | _ => []

/-- Whether a path starts at the root of all directories. -/
def isAbsolute (t : Text) : Bool :=
  !(rootMark t).isEmpty

/-- The path with its steps alone; an empty path is the current directory. -/
def normalPath (t : Text) : Text :=
  let path := rootMark t ++ Text.joinWith [.char '/'] (pathSteps t)
  if path.isEmpty then [.char '.'] else path

def parentStep : Text := [.char '.', .char '.']

/-- The most bytes of a name. -/
def nameLimit : Nat := 255

/-- The most bytes of a whole path. -/
def pathLimit : Nat := 4095

/-- The bytes of a code point in a path. A surrogate stands for one byte that is no character. -/
def pathBytes : CodePoint → Nat
  | .char c => c.utf8Size
  | .surrogate _ => 1

def exceeds (limit : Nat) (t : Text) : Bool :=
  limit < t.foldl (fun bytes c => bytes + pathBytes c) 0

/-- Whether every surrogate of a path stands for a byte: those from U+DC80 to U+DCFF do. -/
def isEncodable (t : Text) : Bool :=
  t.all fun c => !c.isSurrogate || (0xDC80 ≤ c.toNat && c.toNat ≤ 0xDCFF)

/-! ## Directories -/

structure Directory where
  /-- The files by the steps that lead to them. -/
  files : OrderedMap (List Text) Text
  /-- Directories that need not hold a file. -/
  directories : List (List Text)
  /-- Whether the directory is its own parent. -/
  isRoot : Bool
deriving DecidableEq, Repr

namespace Directory

/-- The directory that holds texts under the paths they are listed with. -/
def ofList (files : List (Text × Text)) : Directory :=
  ⟨OrderedMap.ofList (files.map fun (path, content) => (pathSteps path, content)), [], false⟩

/-- The root of every system: its directories, and the device that is always empty. -/
def root : Directory :=
  let directories := ["bin", "boot", "dev", "dev/shm", "etc", "home", "lib", "media", "mnt", "opt",
    "proc", "root", "run", "sbin", "srv", "sys", "tmp", "usr", "usr/bin", "usr/lib", "usr/local",
    "usr/share", "var", "var/lib", "var/log", "var/tmp"]
  ⟨OrderedMap.ofList [(pathSteps "dev/null".toText, [])],
    directories.map fun path => pathSteps path.toText, true⟩

/-- Whether steps lead to the directory itself, to one that holds a file of it or to another
directory in it. -/
def isDirectory (d : Directory) (steps : List Text) : Bool :=
  steps.isEmpty || d.directories.contains steps ||
    d.files.keys.any fun file => steps.isPrefixOf file && steps ≠ file

/-- Where steps lead to from the parent of a directory. It and its own parents can be written to,
and what else they hold is not known: none of it is there. -/
def beyond (steps : List Text) : Except FileCause (List Text) :=
  match steps.dropWhile (· = parentStep) with
  | [] => .error .isDirectory
  | step :: after =>
    if exceeds nameLimit step then .error .nameTooLong
    else if after.isEmpty then .ok [parentStep, step]
    else .error .notFound

/-- Where the steps of a path lead to. -/
def follow (d : Directory) (here : List Text) : List Text → Except FileCause (List Text)
  | [] => .ok here
  | step :: steps =>
    if d.files.contains here then .error .notDirectory
    else if !d.isDirectory here then .error .notFound
    else if step = parentStep then
      if here.isEmpty && !d.isRoot then beyond steps else d.follow here.dropLast steps
    else if exceeds nameLimit step then .error .nameTooLong
    else d.follow (here ++ [step]) steps

/-- The directory that a path starts from. -/
def origin (d : Directory) (path : Text) : Directory :=
  if isAbsolute path then root else d

/-- The place of a file that is there or may be put there. -/
def locate (d : Directory) (path : Text) : Except FileFault (List Text) :=
  let found : Except FileCause (List Text) :=
    if exceeds pathLimit (normalPath path) then .error .nameTooLong
    else
      match (d.origin path).follow [] (pathSteps path) with
      | .error cause => .error cause
      | .ok place => if (d.origin path).isDirectory place then .error .isDirectory else .ok place
  found.mapError fun cause => ⟨cause, normalPath path⟩

def read (d : Directory) (path : Text) : Except FileFault Text := do
  match (d.origin path).files.get? (← d.locate path) with
  | some content => .ok content
  | none => .error ⟨.notFound, normalPath path⟩

/-- A file written elsewhere is none of the directory. -/
def write (d : Directory) (path content : Text) : Except FileFault Directory := do
  let place ← d.locate path
  if isAbsolute path || place.head? = some parentStep then .ok d
  else .ok ⟨d.files.put place content, d.directories, d.isRoot⟩

end Directory

end AttributeAccess.CommandLine
