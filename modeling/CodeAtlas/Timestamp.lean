import CodeAtlas.Text.Split

/-!
# Timestamps

Points in time on the proleptic Gregorian calendar, and their written form
`2024-02-29T18:29:59.123+00:00`. Reading accepts any offset to universal time and any number of
decimals; writing uses universal time and the fewest groups of three decimals that suffice.
-/

namespace CodeAtlas

structure Timestamp where
  /-- Seconds since the beginning of 1970 in universal time. -/
  second : Int := 0
  /-- Nanoseconds after that second; within a leap second they count on past one second. -/
  nano : Nat := 0
  deriving DecidableEq, Repr, Inhabited

namespace Timestamp

/-! ## The calendar -/

structure Date where
  year : Int
  month : Nat
  day : Nat
  deriving DecidableEq, Repr, Inhabited

def isLeapYear (year : Int) : Bool :=
  year % 4 == 0 && (year % 100 != 0 || year % 400 == 0)

def daysInMonth (year : Int) (month : Nat) : Nat :=
  if month == 2 then if isLeapYear year then 29 else 28
  else if month == 4 || month == 6 || month == 9 || month == 11 then 30
  else 31

/-- The number of days from the beginning of 1970. Years are counted from March, so that a leap day
is the last day of its year. -/
def Date.toDays (d : Date) : Int :=
  let year := if d.month ≤ 2 then d.year - 1 else d.year
  let era := year / 400
  let yearOfEra := year - era * 400
  let dayOfYear : Int := (153 * ((d.month + 9) % 12) + 2) / 5 + d.day - 1
  let dayOfEra := yearOfEra * 365 + yearOfEra / 4 - yearOfEra / 100 + dayOfYear
  era * 146097 + dayOfEra - 719468

/-- The date so many days from the beginning of 1970. -/
def Date.ofDays (days : Int) : Date :=
  let shifted := days + 719468
  let era := shifted / 146097
  let dayOfEra := shifted - era * 146097
  let yearOfEra := (dayOfEra - dayOfEra / 1460 + dayOfEra / 36524 - dayOfEra / 146096) / 365
  let dayOfYear := dayOfEra - (365 * yearOfEra + yearOfEra / 4 - yearOfEra / 100)
  let marchMonth := (5 * dayOfYear + 2) / 153
  let day := (dayOfYear - (153 * marchMonth + 2) / 5 + 1).toNat
  let month := (if marchMonth < 10 then marchMonth + 3 else marchMonth - 9).toNat
  let year := yearOfEra + era * 400
  ⟨if month ≤ 2 then year + 1 else year, month, day⟩

/-- A time of day. A sixtieth second is a leap second. -/
structure Clock where
  hour : Nat
  minute : Nat
  second : Nat
  nano : Nat := 0
  deriving DecidableEq, Repr, Inhabited

/-- Seconds and nanoseconds since midnight; a leap second belongs to the second before it. -/
def Clock.sinceMidnight (c : Clock) : Nat × Nat :=
  let leap := c.second == 60
  (c.hour * 3600 + c.minute * 60 + (if leap then 59 else c.second),
    if leap then c.nano + 1000000000 else c.nano)

/-! ## Reading -/

def digit? (c : Char) : Option Nat :=
  if '0' ≤ c && c ≤ '9' then some (c.toNat - '0'.toNat) else none

/-- Exactly so many digits, and the rest. -/
def readDigits? : Nat → Nat → List Char → Option (Nat × List Char)
  | 0, value, cs => some (value, cs)
  | n + 1, value, c :: cs => (digit? c).bind fun d => readDigits? n (value * 10 + d) cs
  | _ + 1, _, [] => none

/-- A given character, and the rest. -/
def expect? (c : Char) : List Char → Option (List Char)
  | d :: cs => if c == d then some cs else none
  | [] => none

def leadingDigits (cs : List Char) : List Char := cs.takeWhile fun c => (digit? c).isSome

/-- Decimals of a second as nanoseconds; digits past the ninth do not count. -/
def readDecimals? (cs : List Char) : Option (Nat × List Char) :=
  let digits := leadingDigits cs
  if digits.isEmpty then none
  else (readDigits? 9 0 (digits.take 9 ++ List.replicate (9 - digits.length) '0')).map
    fun (nano, _) => (nano, cs.drop digits.length)

/-- Optional decimals after a point. -/
def readFraction? : List Char → Option (Nat × List Char)
  | '.' :: cs => readDecimals? cs
  | cs => some (0, cs)

/-- The number of seconds that an offset to universal time stands for. -/
def readOffset? : List Char → Option (Int × List Char)
  | [] => none
  | c :: cs =>
    if c == 'Z' || c == 'z' then some (0, cs)
    else do
      let negative ← if c == '+' then some false
        else if c == '-' || c == Char.ofNat 0x2212 then some true
        else none
      let (hours, cs) ← readDigits? 2 0 cs
      let cs ← expect? ':' cs
      let (minutes, cs) ← readDigits? 2 0 cs
      if hours < 24 && minutes < 60 then
        let seconds : Int := hours * 3600 + minutes * 60
        some (if negative then -seconds else seconds, cs)
      else none

def readDate? (cs : List Char) : Option (Date × List Char) := do
  let (year, cs) ← readDigits? 4 0 cs
  let cs ← expect? '-' cs
  let (month, cs) ← readDigits? 2 0 cs
  let cs ← expect? '-' cs
  let (day, cs) ← readDigits? 2 0 cs
  if 1 ≤ month && month ≤ 12 && 1 ≤ day && day ≤ daysInMonth year month then
    some (⟨year, month, day⟩, cs)
  else none

def readClock? (cs : List Char) : Option (Clock × List Char) := do
  let (hour, cs) ← readDigits? 2 0 cs
  let cs ← expect? ':' cs
  let (minute, cs) ← readDigits? 2 0 cs
  let cs ← expect? ':' cs
  let (second, cs) ← readDigits? 2 0 cs
  let (nano, cs) ← readFraction? cs
  if hour ≤ 23 && minute ≤ 59 && second ≤ 60 then some (⟨hour, minute, second, nano⟩, cs) else none

/-- Whether a character may stand between a date and a time. -/
def isDelimiter (c : Char) : Bool := c == 'T' || c == 't' || c == ' '

def parse? (s : String) : Option Timestamp := do
  let (date, cs) ← readDate? s.toList
  let cs ← match cs with
    | c :: cs => if isDelimiter c then some cs else none
    | [] => none
  let (clock, cs) ← readClock? cs
  let (offset, cs) ← readOffset? cs
  let (seconds, nano) := clock.sinceMidnight
  if cs.isEmpty then some ⟨date.toDays * 86400 + seconds - offset, nano⟩ else none

/-! ## Writing -/

/-- A number with at least so many digits. -/
def padded (width n : Nat) : String :=
  let digits := toString n
  String.ofList (List.replicate (width - digits.length) '0') ++ digits

/-- A year; one that has not four digits carries its sign. -/
def renderYear (year : Int) : String :=
  if 0 ≤ year ∧ year ≤ 9999 then padded 4 year.toNat
  else (if year < 0 then "-" else "+") ++ padded 4 year.natAbs

/-- The decimals of a second, in groups of three. -/
def renderNano (nano : Nat) : String :=
  if nano == 0 then ""
  else if nano % 1000000 == 0 then "." ++ padded 3 (nano / 1000000)
  else if nano % 1000 == 0 then "." ++ padded 6 (nano / 1000)
  else "." ++ padded 9 nano

def render (t : Timestamp) : String :=
  let days := t.second / 86400
  let date := Date.ofDays days
  let seconds := (t.second - days * 86400).toNat
  let second := seconds % 60 + t.nano / 1000000000
  renderYear date.year ++ "-" ++ padded 2 date.month ++ "-" ++ padded 2 date.day ++ "T"
    ++ padded 2 (seconds / 3600) ++ ":" ++ padded 2 (seconds / 60 % 60) ++ ":" ++ padded 2 second
    ++ renderNano (t.nano % 1000000000) ++ "+00:00"

end Timestamp

end CodeAtlas
