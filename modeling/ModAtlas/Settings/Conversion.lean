import ModAtlas.Settings.Store
import ModAtlas.Number.Reading

/-!
# Conversion of stored values

How a stored value of any kind is read as a text, a number or a choice. What makes no sense gives
the default; a number too great for its kind is an error.

## Implementation notes

Any value is shown as a text here. Left out is that an integer of more than `Number.digitLimit`
digits cannot be shown, so that a setting which is read as a text cannot be read while such an
integer is kept for it, by itself or inside a list or an object.
-/

namespace ModAtlas.Settings
open ModAtlas.Json

/-- Why a setting cannot be read or changed. -/
inductive SettingError where
  | tooGreat
  | wrongKind
  | notText
  | readOnly
deriving DecidableEq, Repr

/-- A value as a whole number: a fraction is dropped, a text is read. -/
def toInteger (default : Int) : Value → Except SettingError Int
  | .str s => .ok ((Number.readInt? s.toList).getD default)
  | .bool b => .ok (if b then 1 else 0)
  | .num (.int n) => .ok n
  | .num (.real .nan) => .ok default
  | .num (.real x) =>
    match x.truncate? with
    | some n => .ok n
    | none => .error .tooGreat
  | _ => .ok default

/-- An integer as a floating point number, unless it is too great. -/
def realOfInteger (n : Int) : Except SettingError Binary64 :=
  let x := Binary64.ofInt n
  if x.isFinite then .ok x else .error .tooGreat

/-- A value as a floating point number. -/
def toReal (default : Binary64) : Value → Except SettingError Binary64
  | .str s => .ok ((Number.readReal? s.toList).getD default)
  | .bool b => .ok (.ofInt (if b then 1 else 0))
  | .num (.int n) => realOfInteger n
  | .num (.real x) => .ok x
  | _ => .ok default

/-- A value as a choice: of texts `true`, `1` and `yes` mean yes, in any case. -/
def toChoice (default : Bool) : Value → Bool
  | .null => default
  | .bool b => b
  | .str s => ["true", "1", "yes"].contains (String.ofList (s.toList.map Char.toLower))
  | v => v.isTruthy

namespace Profile

/-- The text under a key. -/
def text (s : Profile) (key default : String) : String :=
  match s.value? key with
  | none => default
  | some .null => default
  | some v => v.plain

/-- The whole number under a key. -/
def integer (s : Profile) (key : String) (default : Int) : Except SettingError Int :=
  toInteger default ((s.value? key).getD (.num (.int default)))

/-- The floating point number under a key. -/
def real (s : Profile) (key : String) (default : Binary64) : Except SettingError Binary64 :=
  toReal default ((s.value? key).getD (.num (.real default)))

/-- The choice under a key. -/
def choice (s : Profile) (key : String) (default : Bool) : Bool :=
  toChoice default ((s.value? key).getD (.bool default))

end Profile
end ModAtlas.Settings
