/-!
# Paths

A `Path` is the text of a path as it was written. Its components are what stands between slashes; empty ones,
and dots that do not stand first, mean nothing and are passed over where a path is taken apart. Two texts with
the same components name the same: `Path.key` is what they have in common.
-/

namespace DynScript

/-- A path as it was written. -/
structure Path where
  /-- The text. -/
  text : String
deriving DecidableEq, Repr, Inhabited

/-- What tells paths apart: where they start and their components. -/
structure PathKey where
  /-- Whether the path starts from the root. -/
  absolute : Bool
  /-- The components that mean something. -/
  components : List String
deriving DecidableEq, Repr, Inhabited

namespace Path

/-- A path is absolute when it starts with a slash. -/
def isAbsolute (p : Path) : Bool :=
  match p.text.toList with
  | '/' :: _ => true
  | _ => false

/-- What stands between the slashes of a text. -/
def splitSlashes : List Char → List (List Char)
  | [] => [[]]
  | c :: rest =>
    match splitSlashes rest with
    | [] => []
    | part :: parts => if c = '/' then [] :: part :: parts else (c :: part) :: parts

/-- What stands between the slashes of a path. -/
def parts (p : Path) : List String := (splitSlashes p.text.toList).map String.ofList

/-- The components of a path: empty parts mean nothing, and of single dots only one that stands first does. -/
def components (p : Path) : List String :=
  (p.parts.take 1).filter (· ≠ "") ++ (p.parts.drop 1).filter fun part => part ≠ "" && part ≠ "."

/-- What a path has in common with those that name the same. -/
def key (p : Path) : PathKey := ⟨p.isAbsolute, p.components⟩

/-- Follow `q` from `p`: an absolute path replaces what stands before it, any other is added after a slash. -/
def join (p : Path) (q : String) : Path :=
  if Path.isAbsolute ⟨q⟩ || p.text = "" then ⟨q⟩
  else if p.text.toList.getLast? = some '/' then ⟨p.text ++ q⟩
  else ⟨p.text ++ "/" ++ q⟩

/-- Follow several paths, one after the other. -/
def joinAll (p : Path) (qs : List String) : Path := qs.foldl join p

/-- A text, read from its end, without the slashes and single dots that name nothing there. -/
def trimBack : List Char → List Char
  | '/' :: rest => trimBack rest
  | '.' :: '/' :: rest => trimBack rest
  | rest => rest

/-- The characters of a path up to the end of its last component, read from there. -/
def backwards (p : Path) : List Char := trimBack p.text.toList.reverse

/-- The last component, unless it is the root or names a directory by dots. -/
def fileName? (p : Path) : Option String :=
  match (p.backwards.takeWhile (· ≠ '/')).reverse with
  | [] | ['.'] | ['.', '.'] => none
  | name => some (String.ofList name)

/-- A file name cut at its last point; a point at the front cuts nothing off. -/
def splitName (name : String) : String × Option String :=
  let back := name.toList.reverse
  let suffix := back.takeWhile (· ≠ '.')
  match back.drop suffix.length with
  | [] | ['.'] => (name, none)
  | _ :: stem => (String.ofList stem.reverse, some (String.ofList suffix.reverse))

/-- The extension of the last component. -/
def extension? (p : Path) : Option String := p.fileName?.bind fun name => (splitName name).2

/-- The path with another extension of its last component; nothing changes if that is no file name. -/
def withExtension (p : Path) (extension : String) : Path :=
  match p.fileName? with
  | none => p
  | some name =>
    let before := (p.backwards.drop name.length).reverse
    ⟨String.ofList before ++ (splitName name).1 ++ "." ++ extension⟩

/-- The path without its last component; the root and the empty path have none. -/
def parent? (p : Path) : Option Path :=
  match p.backwards with
  | [] => none
  | back =>
    match trimBack (back.dropWhile (· ≠ '/')) with
    | [] => some ⟨if p.isAbsolute then "/" else ""⟩
    | rest => some ⟨String.ofList rest.reverse⟩

end Path

end DynScript
