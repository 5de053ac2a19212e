import SymbolicLtl.Text.Beginning

/-!
Files as a command finds them: a tree of folders, one of which it works in, and paths through the
tree.
-/
namespace SymbolicLtl

inductive PathError where
  | missing
  | notFolder
  | isFolder
  | denied
  | noDevice
  | nameTooLong
  | malformed
  | refused
deriving DecidableEq, Repr

def PathError.message : PathError → String
  | missing => "no such file or directory"
  | notFolder => "not a directory"
  | isFolder => "is a directory"
  | denied => "permission denied"
  | noDevice => "no such device or address"
  | nameTooLong => "file name too long"
  | malformed => "invalid argument"
  | refused => "connection refused"

/-- What stands at a path. Programs are of type `π`. -/
inductive Entry (π : Type) where
  | file (text : String)
  | program (name : String) (run : π)
  | socket
  | folder (entries : List (String × Entry π))

/-- All files, and the names of the folders that lead to the working one. -/
structure Files (π : Type) where
  root : Entry π
  here : List String

namespace Files

variable {π : Type}

/-- Follows names through the tree. The trail holds the entry that was reached and the folders
above it. -/
def follow : (trail : List (Entry π)) → List String → Except PathError (List (Entry π))
  | trail, [] => .ok trail
  | .folder entries :: above, name :: names =>
    if name = "" ∨ name = "." then follow (.folder entries :: above) names
    else if name = ".." then follow (if above.isEmpty then [.folder entries] else above) names
    else if 255 < name.utf8ByteSize then .error .nameTooLong
    else match entries.lookup name with
      | some e => follow (e :: .folder entries :: above) names
      | none => .error .missing
  | _, _ :: _ => .error .notFolder

/-- The entry at a path, which starts at the root if its first character is a slash. -/
def find (f : Files π) (path : String) : Except PathError (Entry π) := do
  if path = "" then throw .missing
  if path.contains (Char.ofNat 0) then throw .malformed
  if 4096 ≤ path.utf8ByteSize then throw .nameTooLong
  let names := (Text.splitBy '/' path.toList).map String.ofList
  let start ← if path.startsWith "/" then pure [f.root] else follow [f.root] f.here
  match ← follow start names with
  | e :: _ => return e
  | [] => throw .missing

def read (f : Files π) (path : String) : Except PathError String := do
  match ← f.find path with
  | .file text => return text
  | .program name _ => return name
  | .socket => throw .noDevice
  | .folder _ => throw .isFolder

/-- Connects to a socket. A name that begins with an at sign is not that of a file. -/
def connect (f : Files π) (path : String) : Except PathError Unit := do
  let isName := path.startsWith "@"
  if (if isName then 108 else 107) < path.utf8ByteSize then throw .malformed
  if isName then throw .refused
  match ← f.find path with
  | .socket => return ()
  | _ => throw .refused

def programName? (f : Files π) (path : String) : Option String :=
  match f.find path with
  | .ok (.program name _) => some name
  | _ => none

end Files
end SymbolicLtl
