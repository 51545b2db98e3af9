import DynScript.Files.Path
import DynScript.Value.Basic

/-!
# Module caches

A module is evaluated once in a session; all its importers see one record. A `ModuleCache` knows the records
of the modules that have been loaded and the units that are being evaluated, so that a unit which imports
itself, perhaps through others, is noticed. Paths that differ only in their spelling are the same to it.
-/

namespace DynScript

/-- The modules of a session, by path. -/
structure ModuleCache where
  /-- The records of the modules that have been loaded. -/
  modules : List (PathKey × RecordId)
  /-- The units that are being evaluated, the innermost first. -/
  loading : List PathKey
deriving Inhabited

/-- What a cache knows about a module. -/
inductive ModuleStatus where
  /-- The module has been loaded. -/
  | loaded (record : RecordId)
  /-- The unit is being evaluated. -/
  | inProgress
  /-- Neither. -/
  | unknown
deriving DecidableEq, Repr

namespace ModuleCache

/-- A cache of nothing. -/
def empty : ModuleCache := ⟨[], []⟩

/-- The record of a module that has been loaded. -/
def get? (cache : ModuleCache) (path : Path) : Option RecordId := cache.modules.lookup path.key

/-- How many modules have been loaded. -/
def size (cache : ModuleCache) : Nat := cache.modules.length

/-- What the cache knows about a module. -/
def status (cache : ModuleCache) (path : Path) : ModuleStatus :=
  match cache.get? path with
  | some record => .loaded record
  | none => if path.key ∈ cache.loading then .inProgress else .unknown

/-- Note that a unit is being evaluated. -/
def start (cache : ModuleCache) (path : Path) : ModuleCache :=
  { cache with loading := path.key :: cache.loading }

/-- Note that a unit is no longer being evaluated. -/
def stop (cache : ModuleCache) (path : Path) : ModuleCache :=
  { cache with loading := cache.loading.filter (· ≠ path.key) }

/-- Keep the record of a module, for the one that is kept. -/
def insert (cache : ModuleCache) (path : Path) (record : RecordId) : ModuleCache :=
  { cache with modules := (path.key, record) :: cache.modules.filter fun old => old.1 ≠ path.key }

/-- The values that the cache keeps. -/
def kept (cache : ModuleCache) : List Value := cache.modules.map fun entry => .record entry.2

end ModuleCache

end DynScript
