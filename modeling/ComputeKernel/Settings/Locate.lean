/-!
Where the settings of a directory are: in the file `shader.toml` of the directory or else of the
nearest directory above that has one. Paths are relative to a root, above which there is nothing, and
are followed as written: the directory above `a/..` is `a`.
-/

namespace ComputeKernel.Settings

/-- The directories and files below a root, by the names on the way to them. -/
structure FileTree where
  directories : List (List String)
  files : List (List String)

/-- The pieces of a path between slashes. -/
def pieces (path : String) : List String :=
  (path.toList.foldr
    (fun c acc =>
      if c = '/' then [] :: acc
      else
        match acc with
        | [] => [[c]]
        | piece :: rest => (c :: piece) :: rest)
    [[]]).map String.ofList

/-- Whether a piece of a path leads nowhere. -/
def isIdle (piece : String) : Bool := piece.isEmpty || piece = "."

namespace FileTree

/-- The tree with the given directories and files, and the directories on the way to them. -/
def ofPaths (directories files : List String) : FileTree :=
  let names := fun path => (pieces path).filter fun piece => ! isIdle piece
  ⟨directories.map names, files.map names⟩

/-- Whether a path is that of a directory: one that was made, or one on the way to something. -/
def isDirectory (t : FileTree) (path : List String) : Bool :=
  path.isEmpty || t.directories.any (path.isPrefixOf ·) ||
    t.files.any fun file => path.isPrefixOf file && path.length < file.length

/-- Whether there is something where the pieces of a path lead from a directory. -/
def leads (t : FileTree) (directory : List String) : List String → Bool
  | [] => true
  | piece :: rest =>
    if isIdle piece then t.leads directory rest
    else if piece = ".." then ! directory.isEmpty && t.leads directory.dropLast rest
    else
      let path := directory ++ [piece]
      if t.isDirectory path then t.leads path rest else rest.isEmpty && t.files.contains path

end FileTree

def fileName : String := "shader.toml"

/-- The file of the directory that reversed pieces lead to. -/
def candidate (reversed : List String) : List String :=
  ((fileName :: reversed).reverse).dropWhile isIdle

/-- Looks in the directory that reversed pieces lead to, then above, at most `limit` times. -/
def locateFrom (t : FileTree) : Nat → List String → Option (List String)
  | 0, _ => none
  | limit + 1, reversed =>
    if t.leads [] (candidate reversed) then some (candidate reversed)
    else
      match reversed.dropWhile isIdle with
      | [] => none
      | _ :: above => locateFrom t limit (above.dropWhile isIdle)

/-- The path of the settings file for a directory. There is none for a path that begins with a slash,
since that is not below the root. -/
def locate (t : FileTree) (start : String) : Option String :=
  if start.startsWith "/" then none
  else
    let reversed := match (pieces start).reverse with
      | "" :: rest => rest
      | rest => rest
    (locateFrom t (reversed.length + 1) reversed).map ("/".intercalate ·)

end ComputeKernel.Settings
