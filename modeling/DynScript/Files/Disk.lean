import DynScript.Files.Path

/-!
# Disks

A `Disk` is a tree of directories, files and symbolic links with a working directory, given by the places of all
its entries. `Disk.follow` goes along a path, part by part, and along every link that it comes to; `read`, `write`
and `reaches` are what programs do with it. Each way to fail has the text that the host shows for it.
-/

namespace DynScript

/-- Why something cannot be done with a path. -/
inductive FileError where
  /-- A component is not there. -/
  | notFound
  /-- A component that is no directory has others after it. -/
  | notADirectory
  /-- The path leads to a directory. -/
  | isADirectory
  /-- A component, or the whole path, is too long. -/
  | nameTooLong
  /-- The path holds a character that no path may hold. -/
  | nulCharacter
  /-- More links are met on the way than the host goes along. -/
  | tooManyLinks
  /-- The content of the file is no text. -/
  | invalidText
deriving DecidableEq, Repr

namespace FileError

/-- The words for a failure. -/
def text : FileError → String
  | notFound => "No such file or directory (os error 2)"
  | notADirectory => "Not a directory (os error 20)"
  | isADirectory => "Is a directory (os error 21)"
  | nameTooLong => "File name too long (os error 36)"
  | nulCharacter => "file name contained an unexpected NUL byte"
  | tooManyLinks => "Too many levels of symbolic links (os error 40)"
  | invalidText => "stream did not contain valid UTF-8"

end FileError

/-- The place of an entry: the names on the way from the root. -/
abbrev Location := List String

/-- What stands at a place. -/
inductive Entry where
  | file (content : ByteArray)
  | directory
  | link (target : Path)

/-- Files, directories and links, and the directory that relative paths start from. -/
structure Disk where
  /-- The entries below the root, which is a directory itself. -/
  entries : List (Location × Entry)
  /-- The working directory. -/
  working : Location
deriving Inhabited

namespace Disk

/-- A disk with an empty root as its working directory. -/
def empty : Disk := ⟨[], []⟩

/-- What stands at a place. -/
def entry? (d : Disk) (place : Location) : Option Entry :=
  if place.isEmpty then some .directory else d.entries.lookup place

/-- Whether a place is a directory. -/
def isDirectory (d : Disk) (place : Location) : Bool :=
  match d.entry? place with
  | some .directory => true
  | _ => false

/-- What the link at a place says, if there is one. -/
def link? (d : Disk) (place : Location) : Option Path :=
  match d.entry? place with
  | some (.link target) => some target
  | _ => none

/-- Put an entry at a place, for the one that stands there. -/
def put (d : Disk) (place : Location) (entry : Entry) : Disk :=
  { d with entries := (place, entry) :: d.entries.filter fun old => old.1 ≠ place }

/-- Make a directory and those that it lies in. -/
def addDirectory (d : Disk) (place : Location) : Disk :=
  (List.range (place.length + 1)).foldl (fun d n =>
    if (d.entry? (place.take n)).isSome then d else d.put (place.take n) .directory) d

/-- Make a file and the directories that it lies in. -/
def addFile (d : Disk) (place : Location) (content : ByteArray) : Disk :=
  (d.addDirectory place.dropLast).put place (.file content)

/-- Make a link and the directories that it lies in. -/
def addLink (d : Disk) (place : Location) (target : Path) : Disk :=
  (d.addDirectory place.dropLast).put place (.link target)

/-- The longest name, in bytes. -/
def maxName : Nat := 255

/-- The longest path, in bytes. -/
def maxPath : Nat := 4095

/-- How many links may be met on the way. -/
@[irreducible]
def maxLinks : Nat := 40

/-- Where one component leads to. A component has to stand in a directory. -/
def step (d : Disk) (here : Location) (component : String) : Except FileError Location :=
  if !d.isDirectory here then .error .notADirectory
  else if component = "" || component = "." then .ok here
  else if component = ".." then .ok here.dropLast
  else if component.utf8ByteSize > maxName then .error .nameTooLong
  else if (d.entry? (here ++ [component])).isSome then .ok (here ++ [component])
  else .error .notFound

/-- What stands between the slashes of a path, those at its front left out. One at its end leaves an empty
part behind, which asks for a directory. -/
def partsOf (p : Path) : List String := p.parts.dropWhile (· = "")

/-- The place that a path starts from: the root, or the directory `here` that it is relative to. -/
def origin (here : Location) (p : Path) : Location := if p.isAbsolute then [] else here

/-- How one part is taken: where it leads to from a place, when those that are given follow. -/
abbrev Step := Location → String → List String → Except FileError Location

/-- How far the way along a row of parts goes. -/
inductive Leg where
  /-- To its end. -/
  | done (there : Location)
  /-- To a link that is found in the directory `here`, with parts left. -/
  | link (here : Location) (target : Path) (rest : List String)

/-- Go along a row of parts up to the first link. -/
def advance (d : Disk) (step : Step) (here : Location) : List String → Except FileError Leg
  | [] => .ok (.done here)
  | part :: rest => do
    let there ← step here part rest
    match d.link? there with
    | some target => return .link here target rest
    | none => d.advance step there rest

/-- Where a row of parts leads to, when so many links may be met. A link stands for the parts of its target. -/
def follow (d : Disk) (step : Step) : Nat → Location → List String → Except FileError Location
  | 0, here, parts => do
    match ← d.advance step here parts with
    | .done there => return there
    | .link _ _ _ => throw .tooManyLinks
  | links + 1, here, parts => do
    match ← d.advance step here parts with
    | .done there => return there
    | .link here target rest => d.follow step links (origin here target) (partsOf target ++ rest)

/-- Where a path leads to. -/
def follows (d : Disk) (step : Step) (p : Path) : Except FileError Location :=
  d.follow step maxLinks (origin d.working p) (partsOf p)

/-- What is wrong with the text of a path, whatever its length. -/
def textError? (p : Path) : Option FileError :=
  if '\x00' ∈ p.text.toList then some .nulCharacter
  else if p.text = "" then some .notFound
  else none

/-- What is wrong with the text of a path that is handed over as a whole. -/
def wholeError? (p : Path) : Option FileError :=
  (textError? p).or (if p.text.utf8ByteSize > maxPath then some .nameTooLong else none)

/-- The place that a path leads to. -/
def resolve (d : Disk) (p : Path) : Except FileError Location :=
  match wholeError? p with
  | some e => .error e
  | none => d.follows (fun here part _ => d.step here part) p

/-- The path of a place. -/
def pathOf (place : Location) : Path := ⟨"/" ++ "/".intercalate place⟩

/-- Where one component leads to when the path of the place is written out, which must not become too long. -/
def writtenStep (d : Disk) (here : Location) (component : String) : Except FileError Location :=
  if component = "" || component = "." || component = ".." then d.step here component
  else if (pathOf (here ++ [component])).text.utf8ByteSize > maxPath then .error .nameTooLong
  else d.step here component

/-- The absolute path, without dots, of what a path leads to. The path itself may be of any length, for it is
followed part by part. -/
def canonical (d : Disk) (p : Path) : Except FileError Path :=
  match textError? p with
  | some e => .error e
  | none => (d.follows (fun here part _ => d.writtenStep here part) p).map pathOf

/-- Whether a path leads anywhere. -/
def reaches (d : Disk) (p : Path) : Bool :=
  match d.resolve p with
  | .ok _ => true
  | .error _ => false

/-- The text of the file that a path leads to. -/
def read (d : Disk) (p : Path) : Except FileError String :=
  match d.resolve p with
  | .error e => .error e
  | .ok place =>
    match d.entry? place with
    | some (.file content) =>
      match String.fromUTF8? content with
      | some text => .ok text
      | none => .error .invalidText
    | some .directory => .error .isADirectory
    | some (.link _) | none => .error .notFound

/-- Where one component leads to on the way to a file that is written. The last one need not be there; a slash
after it asks for a directory, whatever its name. -/
def writingStep (d : Disk) (here : Location) (component : String) (rest : List String) :
    Except FileError Location :=
  if rest.any (· ≠ "") then d.step here component
  else if !d.isDirectory here then .error .notADirectory
  else if component = "" || component = "." || component = ".." || !rest.isEmpty then .error .isADirectory
  else if component.utf8ByteSize > maxName then .error .nameTooLong
  else .ok (here ++ [component])

/-- The place at which a file is written: where the path leads to, which is no directory. -/
def target (d : Disk) (p : Path) : Except FileError Location := do
  if let some e := wholeError? p then throw e
  let place ← d.follows d.writingStep p
  if d.isDirectory place then throw .isADirectory
  return place

/-- Write a text to a file, which is made if it is not there. -/
def write (d : Disk) (p : Path) (text : String) : Except FileError Disk :=
  (d.target p).map fun place => d.put place (.file text.toUTF8)

end Disk

end DynScript
