import ModAtlas.Text.Upper

/-!
# Levels

How grave a record is, and from which level on an outlet takes records. A threshold is named
freely in settings: in any case, by some older names too, and by anything else, which means
`INFO`.
-/

namespace ModAtlas.Journal

/-- How grave a record is. -/
inductive Level where
  | debug
  | info
  | warning
  | error
  | critical
deriving DecidableEq, Repr, Inhabited

namespace Level

/-- All levels, the least grave first. -/
def all : List Level := [.debug, .info, .warning, .error, .critical]

/-- The name of a level. -/
def name : Level → String
  | .debug => "DEBUG"
  | .info => "INFO"
  | .warning => "WARNING"
  | .error => "ERROR"
  | .critical => "CRITICAL"

/-- The level with a name. -/
def ofName? (name : String) : Option Level := all.find? (·.name == name)

/-- The place of a level in the order of gravity. -/
def rank : Level → Nat
  | .debug => 10
  | .info => 20
  | .warning => 30
  | .error => 40
  | .critical => 50

end Level

/-- The least grave records that an outlet takes: all, or those from a level on. -/
inductive Threshold where
  | all
  | at (level : Level)
deriving DecidableEq, Repr, Inhabited

/-- Why a name cannot be a threshold. -/
inductive ThresholdError where
  | unknownLevel
  | notLevel
deriving DecidableEq, Repr

namespace Threshold

/-- The name of a threshold. -/
def name : Threshold → String
  | .all => "NOTSET"
  | .at level => level.name

/-- Is a record of the level taken? -/
def takes : Threshold → Level → Bool
  | .all, _ => true
  | .at least, level => least.rank ≤ level.rank

/-- The threshold that a text names. Two names belong to layouts and are refused. -/
def ofText (text : String) : Except ThresholdError Threshold :=
  let name := Text.upper text
  match Level.ofName? name with
  | some level => .ok (.at level)
  | none =>
    match name with
    | "NOTSET" => .ok .all
    | "WARN" => .ok (.at .warning)
    | "FATAL" => .ok (.at .critical)
    | "BASIC_FORMAT" => .error .unknownLevel
    | "_STYLES" => .error .notLevel
    | _ => .ok (.at .info)

end Threshold
end ModAtlas.Journal
