import DynScript.Fault.Cause
import DynScript.Files.Disk
import DynScript.Tree.Node

/-!
# The files of modules

An import of `a.b.c` means the file `a/b/c.blu` below one of three directories: that of the importing unit,
that of the entry unit, or that of the standard library.
-/

namespace DynScript

/-- The directories that do not depend on the importing unit. -/
structure SearchRoots where
  /-- The directory of the entry unit. -/
  base : Path
  /-- The directory of the standard library. -/
  std : Path
deriving DecidableEq, Repr

/-- The extension of the files that hold units. -/
def unitExtension : String := "blu"

/-- The file that an import of a unit in `directory` means. -/
def SearchRoots.moduleFile (roots : SearchRoots) (root : ImportRoot) (segments : List String)
    (directory : Path) : Path :=
  let start := match root with
    | .relative => directory
    | .base => roots.base
    | .std => roots.std
  (start.joinAll segments).withExtension unitExtension

/-- The one path under which a module is known, however it is imported. -/
def Disk.canonicalModule (d : Disk) (file : Path) : Except Cause Path :=
  match d.canonical file with
  | .ok path => .ok path
  | .error .notFound => .error (.importNotFound file.text)
  | .error e => .error (.importFailed file.text e.text)

end DynScript
