import ModAtlas.Json.Literal
import ModAtlas.Journal.Level

/-!
# Store of settings

Settings are values under keys, several profiles side by side in one store. Any JSON value may
stand under a key, since a store can be edited by hand. Opening a profile writes down the version
of its layout.
-/

namespace ModAtlas.Settings
open ModAtlas.Json ModAtlas.Journal

/-- Whether a store can be used. -/
inductive Status where
  | noError
  | accessError
  | formatError
deriving DecidableEq, Repr

/-- The name of a status. -/
def Status.name : Status → String
  | .noError => "NoError"
  | .accessError => "AccessError"
  | .formatError => "FormatError"

/-- The settings of all profiles, and whether they can be used. -/
structure Store where
  entries : Members
  status : Status
deriving Repr

/-- The file that holds the store. -/
def storeFile : String := "settings.conf"

/-- What is said while settings are changed: how grave, and what. -/
structure Notice where
  level : Level
  text : String
deriving DecidableEq, Repr

/-- The settings of one profile of a store. -/
structure Profile where
  name : String
  store : Store
deriving Repr

namespace Profile

/-- A key of the profile as a key of the store. -/
def fullKey (s : Profile) (key : String) : String := s.name ++ "/" ++ key

/-- The value under a key. -/
def value? (s : Profile) (key : String) : Option Value :=
  Members.get? s.store.entries (s.fullKey key)

/-- Writes a value under a key. -/
def put (s : Profile) (key : String) (value : Value) : Profile :=
  { s with store := { s.store with entries := Members.put (s.fullKey key) value s.store.entries } }

/-! ## Version -/

/-- The version of the layout of settings. -/
def currentVersion : String := "1.0"

/-- The key of the version. -/
def versionKey : String := "app/version"

/-- The key of the version that the settings had before. -/
def formerVersionKey : String := "app/migrated_from"

/-- Settings of another version are stamped with the current one. -/
def migrated (s : Profile) (version : String) : Profile × List Notice :=
  ((s.put versionKey (.str currentVersion)).put formerVersionKey (.str version),
    [⟨.info, "Migrating configuration from " ++ version ++ " to " ++ currentVersion⟩,
      ⟨.info, "Migration from " ++ version ++ " to " ++ currentVersion ++ " completed"⟩])

/-- Settings stamped with the current version. -/
def stamped (s : Profile) : Profile × List Notice :=
  let version := ((s.value? versionKey).map Value.plain).getD ""
  if version.isEmpty then
    (s.put versionKey (.str currentVersion),
      [⟨.info, "First run detected, initializing configuration"⟩])
  else if version = currentVersion then (s, [])
  else s.migrated version

end Profile

/-- The error of a store that cannot be used. -/
structure StoreError where
  status : Status
deriving DecidableEq, Repr

/-- The wording of the error. -/
def StoreError.message (e : StoreError) : String :=
  "Settings store at " ++ storeFile ++ " is not usable: " ++ e.status.name

/-- Opens a profile of a store. -/
def opened (store : Store) (profile : String) : Except StoreError Profile × List Notice :=
  let (settings, notices) := Profile.stamped ⟨profile, store⟩
  match store.status with
  | .noError => (.ok settings, notices)
  | status => (.error ⟨status⟩, notices)

end ModAtlas.Settings
