import TagFormula.Text.Basic

/-! Files and directories below the working directory, and what stands at a path. -/

namespace TagFormula

/-- What stands at a path. A directory comes with the fixture files in it. -/
inductive Place where
  | missing
  | directory (fixtures : List Text)
  | file
  deriving DecidableEq, Repr

namespace Place

/-- The parts of a path between slashes. -/
def components (path : Text) : List Text := (go [] path).filter fun c => !c.isEmpty
where
  go (current : Text) : Text → List Text
    | [] => [current.reverse]
    | b :: rest => if b == ch '/' then current.reverse :: go [] rest else go (b :: current) rest

/-- The last part of a path. -/
def fileName (path : Text) : Text := (path.reverse.takeWhile (· != ch '/')).reverse

/-- A file name without and with its extension, which starts at the last point but not at the start
of the name. -/
def splitExtension (name : Text) : Text × Text :=
  let back := name.reverse
  let extension := back.takeWhile (· != ch '.')
  match back.drop extension.length with
  | dot :: stem =>
    if stem.isEmpty || name == ascii ".." then (name, [])
    else (stem.reverse, (extension ++ [dot]).reverse)
  | [] => (name, [])

/-- Whether a file is taken for a fixture. -/
def isFixtureName (name : Text) : Bool := (splitExtension name).2 == ascii ".json"

end Place

/-- What was made below the working directory. -/
structure FileTree where
  directories : List Text
  files : List Text
  /-- Links that lead nowhere. -/
  links : List Text

namespace FileTree

/-- Whether the parts of a path lead to a directory. -/
def isDirectory (t : FileTree) (parts : List Text) : Bool :=
  parts.isEmpty || (t.directories.any fun d => parts.isPrefixOf (Place.components d))
    || (t.files ++ t.links).any fun f =>
      parts.isPrefixOf (Place.components f) && parts.length < (Place.components f).length

def isFile (t : FileTree) (parts : List Text) : Bool := t.files.any fun f => Place.components f == parts

/-- Follows the parts of a path from a directory; `none` if one of them leads nowhere. Above the
working directory nothing is known. -/
def follow (t : FileTree) (here : List Text) : List Text → Option (List Text)
  | [] => some here
  | part :: rest =>
    if !t.isDirectory here then none
    else if part == ascii "." then follow t here rest
    else if part == ascii ".." then
      if here.isEmpty then none else follow t here.dropLast rest
    else
      let next := here ++ [part]
      if t.isDirectory next || t.isFile next then follow t next rest else none

/-- The fixture files in a directory, by name. -/
def fixturesIn (t : FileTree) (path : Text) (parts : List Text) : List Text :=
  let names := t.files.filterMap fun f =>
    let c := Place.components f
    match c.getLast? with
    | some name => if c.dropLast == parts && Place.isFixtureName name then some name else none
    | none => none
  let dir := if path.getLast? == some (ch '/') then path else path ++ ascii "/"
  (names.map (dir ++ ·)).mergeSort fun a b => a ≤ b

def place (t : FileTree) (path : Text) : Place :=
  if path.isEmpty || path.head? == some (ch '/') then .missing
  else
    match t.follow [] (Place.components path) with
    | none => .missing
    | some parts =>
      if t.isDirectory parts then .directory (t.fixturesIn path parts)
      else if path.getLast? == some (ch '/') then .missing
      else .file

end FileTree
end TagFormula
