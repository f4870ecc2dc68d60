import ModAtlas.Number.Number

/-!
# Clock

Points in time by the calendar, in universal time, and how they are written: a format holds
letters after percent signs for year, month, day, hour, minute and second.
-/

namespace ModAtlas.Journal

/-- A point in time by the calendar. -/
structure Moment where
  year : Int
  month : Int
  day : Int
  hour : Int
  minute : Int
  second : Int
deriving DecidableEq, Repr, Inhabited

namespace Moment

/-- Days of a cycle of four hundred years. -/
def cycleDays : Int := 146097

/-- Year, month and day, for the days since the start of 1970. Years are counted from March on,
so that the day that leap years add is their last. -/
def date (days : Int) : Int × Int × Int :=
  let shifted := days + 719468
  let cycle := shifted.fdiv cycleDays
  let day := shifted - cycle * cycleDays
  let year := (day - day / 1460 + day / 36524 - day / 146096) / 365
  let dayOfYear := day - (365 * year + year / 4 - year / 100)
  let month := (5 * dayOfYear + 2) / 153
  let dayOfMonth := dayOfYear - (153 * month + 2) / 5 + 1
  if month < 10 then (cycle * 400 + year, month + 3, dayOfMonth)
  else (cycle * 400 + year + 1, month - 9, dayOfMonth)

/-- The point in time a number of seconds after the start of 1970. -/
def ofSeconds (seconds : Int) : Moment :=
  let days := seconds.fdiv 86400
  let rest := seconds - days * 86400
  let (year, month, day) := date days
  ⟨year, month, day, rest / 3600, rest / 60 % 60, rest % 60⟩

/-- A number with at least two digits. -/
def twoDigits (n : Int) : List Char :=
  if n < 10 then '0' :: (toString n).toList else (toString n).toList

/-- A point in time in a format. -/
def write (m : Moment) : List Char → List Char
  | '%' :: 'Y' :: rest => (toString m.year).toList ++ write m rest
  | '%' :: 'm' :: rest => twoDigits m.month ++ write m rest
  | '%' :: 'd' :: rest => twoDigits m.day ++ write m rest
  | '%' :: 'H' :: rest => twoDigits m.hour ++ write m rest
  | '%' :: 'M' :: rest => twoDigits m.minute ++ write m rest
  | '%' :: 'S' :: rest => twoDigits m.second ++ write m rest
  | '%' :: '%' :: rest => '%' :: write m rest
  | c :: rest => c :: write m rest
  | [] => []

end Moment

/-- The greatest whole number that is not above a number; 0 for what is not finite. -/
def floor (n : Number) : Int :=
  match n.ratio? with
  | some (num, den) => num.fdiv den
  | none => 0

/-- A whole number with at least three characters, zeros behind the sign. -/
def threeDigits (n : Int) : String :=
  let digits := (toString n.natAbs).toList
  let sign := if n < 0 then ['-'] else []
  String.ofList (sign ++ List.replicate (3 - sign.length - digits.length) '0' ++ digits)

end ModAtlas.Journal
