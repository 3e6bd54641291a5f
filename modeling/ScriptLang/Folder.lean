import ScriptLang.Table

/-! Folders of files, and the paths that lead to them. -/
namespace ScriptLang

inductive PathError where
  | notFound
  | notFolder
  | isFolder
  | nameTooLong
  deriving DecidableEq

namespace PathError

def code : PathError → Nat
  | notFound => 2
  | notFolder => 20
  | isFolder => 21
  | nameTooLong => 36

def reason : PathError → String
  | notFound => "No such file or directory"
  | notFolder => "Not a directory"
  | isFolder => "Is a directory"
  | nameTooLong => "File name too long"

def message (e : PathError) : String := e.reason ++ " (os error " ++ toString e.code ++ ")"

end PathError

/-- The texts of files, each under the names on the way to it, divided by slashes. -/
abbrev Folder := Table String

namespace Folder

def isFolderAt (f : Folder) (path : String) : Bool := f.any (·.1.startsWith (path ++ "/"))

/-- Follows names from a folder inside of `f`, or from one outside, where nothing else is known. Behind
the name of a file nothing may stand. -/
def follow (f : Folder) (inside : Option (List String)) : List String → Except PathError String
  | [] => .error .isFolder
  | name :: rest =>
    if name = "" || name = "." then follow f inside rest
    else if name = ".." then
      follow f (inside.bind fun names => if names.isEmpty then none else some names.dropLast) rest
    else if 255 < name.utf8ByteSize then .error .nameTooLong
    else match inside with
      | none => .error .notFound
      | some names =>
        let path := "/".intercalate (names ++ [name])
        match f.get? path with
        | some text => if rest.isEmpty then .ok text else .error .notFolder
        | none => if f.isFolderAt path then follow f (some (names ++ [name])) rest else .error .notFound

def read (f : Folder) (path : String) : Except PathError String :=
  if path.isEmpty then .error .notFound
  else if 4096 ≤ path.utf8ByteSize then .error .nameTooLong
  else follow f (if path.startsWith "/" then none else some []) (path.splitOn "/")

end Folder

end ScriptLang
