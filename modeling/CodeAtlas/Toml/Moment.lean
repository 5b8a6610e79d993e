import CodeAtlas.Timestamp

/-!
# Dates and times in TOML

A moment is a date, a time of day, or both; only both together may have an offset to universal time.
The written form has `T` between date and time, `Z` for universal time, and as many decimals of the
second as are needed.
-/

namespace CodeAtlas.Toml

open Timestamp

/-- An offset to universal time. -/
inductive Offset where
  | universal
  | minutes (n : Int)
  deriving DecidableEq, Repr, Inhabited

/-- A date, a time of day, or both. -/
structure Moment where
  date : Option Date := none
  time : Option Clock := none
  offset : Option Offset := none
  deriving DecidableEq, Repr, Inhabited

namespace Moment

/-! ## Reading -/

def readZone? : List Char → Option (Offset × List Char)
  | [] => none
  | c :: cs =>
    if c == 'Z' || c == 'z' then some (.universal, cs)
    else if c == '+' || c == '-' then
      (readOffset? (c :: cs)).map fun (seconds, rest) => (.minutes (seconds / 60), rest)
    else none

/-- The time and offset that may follow a date. -/
def readAfterDate (date : Date) (cs : List Char) : Moment × List Char :=
  match cs with
  | [] => ({ date := some date }, [])
  | c :: after =>
    match if isDelimiter c then readClock? after else none with
    | none => ({ date := some date }, cs)
    | some (time, rest) =>
      match readZone? rest with
      | some (offset, rest) =>
        ({ date := some date, time := some time, offset := some offset }, rest)
      | none => ({ date := some date, time := some time }, rest)

/-- A moment, and the rest of the text. -/
def read? (cs : List Char) : Option (Moment × List Char) :=
  match readDate? cs with
  | some (date, rest) => some (readAfterDate date rest)
  | none => (readClock? cs).map fun (time, rest) => ({ time := some time }, rest)

/-! ## Writing -/

/-- The decimals of a second, without zeros at the end. -/
def renderDecimals (nano : Nat) : String :=
  if nano == 0 then ""
  else "." ++ String.ofList
    (((padded 9 nano).toList.reverse.dropWhile (· == '0')).reverse)

def renderDate (d : Date) : String :=
  padded 4 d.year.toNat ++ "-" ++ padded 2 d.month ++ "-" ++ padded 2 d.day

def renderClock (c : Clock) : String :=
  padded 2 c.hour ++ ":" ++ padded 2 c.minute ++ ":" ++ padded 2 c.second ++ renderDecimals c.nano

def renderOffset : Offset → String
  | .universal => "Z"
  | .minutes n =>
    (if n < 0 then "-" else "+") ++ padded 2 (n.natAbs / 60) ++ ":" ++ padded 2 (n.natAbs % 60)

def render (m : Moment) : String :=
  (m.date.map renderDate).getD "" ++ (if m.date.isSome && m.time.isSome then "T" else "")
    ++ (m.time.map renderClock).getD "" ++ (m.offset.map renderOffset).getD ""

end Moment

end CodeAtlas.Toml
