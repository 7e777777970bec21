import DesignTokens.Number.Integer64
import DesignTokens.Text.Blank

/-!
The date of a build: a number of seconds since the start of 1970 in universal time, written in the
Gregorian calendar, which is taken to hold for all times.
-/

namespace DesignTokens

/-- A day of the Gregorian calendar. -/
structure Date where
  year : Int
  month : Nat
  day : Nat
deriving DecidableEq, Repr

namespace Date

/-- The days from the first of March of the year 0 to the start of 1970. -/
def daysToEpoch : Int := 719468

/-- The days of 400 years. -/
def daysOfCycle : Int := 146097

/-- The date some days after the first of January 1970. Years are counted from March on, so that the
day that a leap year adds is their last one; 400 of them have the same days every time. -/
def ofDays (days : Int) : Date :=
  let sinceMarch := days + daysToEpoch
  let cycle := sinceMarch.fdiv daysOfCycle
  let day := (sinceMarch.fmod daysOfCycle).toNat
  let year := (day - day / 1460 + day / 36524 - day / 146096) / 365
  let dayOfYear := day - (365 * year + year / 4 - year / 100)
  let month := (5 * dayOfYear + 2) / 153
  let yearsOn : Int := if month < 10 then 0 else 1
  ⟨400 * cycle + year + yearsOn,
    if month < 10 then month + 3 else month - 9,
    dayOfYear - (153 * month + 2) / 5 + 1⟩

/-- A year with four digits; one outside 0 to 9999 has a sign and as many digits as it needs. -/
def yearText (year : Int) : String :=
  let digits := Text.zeroPadded 4 year.natAbs
  if year < 0 then "-" ++ digits
  else if 9999 < year then "+" ++ digits
  else digits

def text (d : Date) : String :=
  yearText d.year ++ "-" ++ Text.zeroPadded 2 d.month ++ "-" ++ Text.zeroPadded 2 d.day

end Date

/-- Why a text is no date of a build. -/
inductive BuildDateError where
  | notANumber (text : String) (cause : Integer64.Fault)
  | outOfRange (text : String)
deriving DecidableEq, Repr

def BuildDateError.message : BuildDateError → String
  | notANumber text cause =>
    "SOURCE_DATE_EPOCH `" ++ text ++ "` is not a number: " ++ cause.message
  | outOfRange text => "SOURCE_DATE_EPOCH `" ++ text ++ "` is out of range"

namespace BuildDate

/-- The text of a moment, to the second. -/
def text (seconds : Int) : String :=
  let second := (seconds.fmod 86400).toNat
  (Date.ofDays (seconds.fdiv 86400)).text ++ "T" ++ Text.zeroPadded 2 (second / 3600) ++ ":" ++
    Text.zeroPadded 2 (second / 60 % 60) ++ ":" ++ Text.zeroPadded 2 (second % 60) ++ "Z"

/-- The first second that has a date, in the year -262143. -/
def earliest : Int := -8334601228800

/-- The last second that has a date, in the year 262142. -/
def latest : Int := 8210266876799

/-- The date of a build that a text of seconds gives. Blanks around the number are left out. -/
def ofEpoch (epoch : String) : Except BuildDateError String :=
  match Integer64.read (Text.trim epoch.toList) with
  | .error e => .error (.notANumber epoch e)
  | .ok seconds =>
    if earliest ≤ seconds ∧ seconds ≤ latest then .ok (text seconds) else .error (.outOfRange epoch)

end BuildDate

end DesignTokens
