import LoxExpr.Input

/-!
A directory that holds files only, and the paths that lead to them.

A path is followed name by name. It may stay in the directory, leave it for directories whose files
are not known, and end at a file; a file has nothing inside, not even itself.
-/

set_option autoImplicit false
set_option relaxedAutoImplicit false

namespace LoxExpr

abbrev Folder := List (String × ByteArray)

namespace Folder

/-- Where a path has led to. -/
inductive Place where
  | here
  /-- A directory outside, of which no file is known. -/
  | outside
  | file (content : ByteArray)

/-- Where a path starts: a slash in front leads outside. -/
def origin (path : String) : Place := if path.startsWith "/" then .outside else .here

/-- The next place on a path. An empty name and a point stay in a directory, and two points go to
the one around it. -/
def follow (folder : Folder) (place : Place) (name : String) : Except ReadError Place :=
  match place with
  | .file _ => .error .notADirectory
  | .outside => if ["", ".", ".."].contains name then .ok .outside else .error .notFound
  | .here =>
    if ["", "."].contains name then
      .ok .here
    else if name = ".." then
      .ok .outside
    else
      match folder.lookup name with
      | some content => .ok (.file content)
      | none => .error .notFound

def locate (folder : Folder) (path : String) : Except ReadError Place :=
  (path.splitOn "/").foldlM folder.follow (origin path)

def read (folder : Folder) (path : String) : Except ReadError ByteArray :=
  match folder.locate path with
  | .ok (.file content) => .ok content
  | .ok _ => .error .isDirectory
  | .error e => .error e

end Folder

end LoxExpr
