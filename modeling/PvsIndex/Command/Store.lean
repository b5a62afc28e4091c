import PvsIndex.Command.Path
import PvsIndex.Text.Quoted
import PvsIndex.Text.Utf8

/-!
# Files and folders

A folder is a list of named entries, each a file or a folder.  Reading a path
goes through its names one after the other: every name but the last has to be
a folder, the last has to be a file, and two dots lead back to the folder
before.  Nothing is known beyond the working folder; what lies there is taken
to be empty.  Making a folder that exists changes nothing in it.

`ReadFault` lists why a source cannot be had, and words it.
-/

namespace PvsIndex

/-- Why a source cannot be read.  No path was given, or it has a NUL character, which
no file name can have; a name on it does not exist, it leads to a folder, it goes
on below a file, or the system refuses for some other reason; or the bytes of the
file are not a text. -/
inductive ReadFault where
  | noPath
  | nulInPath
  | missing (p : Path)
  | isFolder (p : Path)
  | notFolder (p : Path)
  | refused (p : Path) (reason : String)
  | undecodable (f : Utf8.Fault)
deriving DecidableEq

/-- The wording of a fault in reading. -/
def ReadFault.message : ReadFault → String
  | noPath => "no input file"
  | nulInPath => "embedded null byte"
  | missing p => "[Errno 2] No such file or directory: " ++ quoted p.text
  | isFolder p => "[Errno 21] Is a directory: " ++ quoted p.text
  | notFolder p => "[Errno 20] Not a directory: " ++ quoted p.text
  | refused p reason => reason ++ ": " ++ quoted p.text
  | undecodable f => f.message

/-- A file with its bytes, or a folder with its entries. -/
inductive Entry where
  | file (bytes : List UInt8)
  | folder (entries : List (List Char × Entry))

/-- The entries of a folder. -/
abbrev Folder := List (List Char × Entry)

namespace Folder

/-- The entry with a name. -/
def get? (folder : Folder) (name : List Char) : Option Entry :=
  (folder.find? fun entry => entry.1 = name).map Prod.snd

/-- Put an entry under a name, in place of the one that was there. -/
def put (folder : Folder) (name : List Char) (entry : Entry) : Folder :=
  (folder.filter fun other => other.1 ≠ name) ++ [(name, entry)]

/-- The entries of the folder with a name; none if there is no such folder. -/
def entriesOf (folder : Folder) (name : List Char) : Folder :=
  match folder.get? name with
  | some (.folder entries) => entries
  | _ => []

/-- Make the folders along a row of names; a folder that exists keeps its entries. -/
def makeFolders (folder : Folder) : List (List Char) → Folder
  | [] => folder
  | name :: names => folder.put name (.folder (makeFolders (folder.entriesOf name) names))

/-- Write a file at the end of a row of names, making the folders on the way. -/
def writeFile (folder : Folder) (bytes : List UInt8) : List (List Char) → Folder
  | [] => folder
  | [name] => folder.put name (.file bytes)
  | name :: names => folder.put name (.folder (writeFile (folder.entriesOf name) bytes names))

/-- Follow names from the folder `here`, with the folders above it nearest first. -/
def find (p : Path) (above : List Folder) (here : Folder) :
    List (List Char) → Except ReadFault (List UInt8)
  | [] => .error (.isFolder p)
  | ['.', '.'] :: names =>
    match above with
    | [] => find p [] [] names
    | parent :: above => find p above parent names
  | name :: names =>
    match here.get? name with
    | none => .error (.missing p)
    | some (.folder entries) => find p (here :: above) entries names
    | some (.file bytes) => if names = [] then .ok bytes else .error (.notFolder p)

/-- The bytes of the file that a path leads to from this folder. -/
def read (working : Folder) (p : Path) : Except ReadFault (List UInt8) :=
  if p.text.contains '\x00' then .error .nulInPath
  else
    match p.anchor with
    | .here => find p [] working p.names
    | .root => find p [] [] p.names
    | .doubleRoot => find p [] [] p.names

end Folder

end PvsIndex
