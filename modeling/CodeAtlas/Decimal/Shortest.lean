/-!
# Shortest decimal text of a floating-point number

A finite number is written with the fewest digits that read back as the same number; of several
such texts, the one nearest to the number is taken, and of two equally near ones the one that ends
in an even digit. Where the point is moved instead of writing an exponent is a matter of the
format (`FloatFormat`).
-/

namespace CodeAtlas.Decimal

/-! ## Decoding -/

/-- The magnitude `mantissa · 2 ^ exponent` of a finite number. -/
structure Magnitude where
  mantissa : Nat
  exponent : Int
  deriving Repr, DecidableEq

/-- The magnitude of a finite number, from its bits. -/
def Magnitude.ofBits (bits : UInt64) : Magnitude :=
  let biased := ((bits >>> 52) &&& 0x7ff).toNat
  let fraction := (bits &&& 0xfffffffffffff).toNat
  if biased = 0 then ⟨fraction, -1074⟩ else ⟨fraction + 1 <<< 52, (biased : Int) - 1075⟩

/-- A number as a fraction, with the ends of the interval of reals that round to it, all over the
same denominator. -/
structure Rounding where
  low : Nat
  value : Nat
  high : Nat
  denominator : Nat
  /-- Whether the ends belong to the interval. -/
  closed : Bool

/-- The interval that rounds to a magnitude. The step below a power of two is half as wide. -/
def Magnitude.rounding (m : Magnitude) : Rounding :=
  let narrow := m.mantissa == 1 <<< 52 && m.exponent != -1074
  let scale := 1 <<< (m.exponent - 2).toNat
  { low := (4 * m.mantissa - (if narrow then 1 else 2)) * scale
    value := 4 * m.mantissa * scale
    high := (4 * m.mantissa + 2) * scale
    denominator := 1 <<< (2 - m.exponent).toNat
    closed := m.mantissa % 2 == 0 }

/-! ## Digits -/

def digitCount (n : Nat) : Nat := (Nat.toDigits 10 n).length

/-- The least `j ≤ fuel` with `b ≤ a · 10 ^ j`. -/
def leastShift (a b : Nat) : Nat → Nat
  | 0 => 0
  | fuel + 1 => if b ≤ a then 0 else leastShift (10 * a) b fuel + 1

/-- The exponent of the leading digit of `a / b`, for `0 < a` and `0 < b`. -/
def leadingExponent (a b : Nat) : Int :=
  if b ≤ a then (digitCount (a / b) : Int) - 1 else -(leastShift a b 400 : Int)

/-- The multiple of `10 ^ place` that is nearest to the number among its two neighbours, if one of
them rounds to the number. The result counts units of `10 ^ place`. -/
def Rounding.onGrid? (r : Rounding) (place : Int) : Option Nat :=
  let up := Nat.pow 10 (-place).toNat
  let unit := r.denominator * Nat.pow 10 place.toNat
  let low := r.low * up
  let value := r.value * up
  let high := r.high * up
  let below := value / unit
  let fits (c : Nat) : Bool :=
    if r.closed then low ≤ c * unit && c * unit ≤ high else low < c * unit && c * unit < high
  match fits below, fits (below + 1) with
  | true, true =>
    let down := value - below * unit
    let rise := (below + 1) * unit - value
    if down < rise then some below
    else if rise < down then some (below + 1)
    else some (if below % 2 == 0 then below else below + 1)
  | true, false => some below
  | false, true => some (below + 1)
  | false, false => none

/-- A decimal `coefficient · 10 ^ place`. -/
structure Scaled where
  coefficient : Nat
  place : Int
  deriving Repr, DecidableEq

/-- The first grid, from `n` digits on, that has a number rounding to the given one. -/
def Rounding.search (r : Rounding) (lead : Int) : Nat → Nat → Scaled
  | n, 0 => ⟨(r.onGrid? (lead - n)).getD 0, lead - n⟩
  | n, fuel + 1 =>
    match r.onGrid? (lead - n) with
    | some c => ⟨c, lead - n⟩
    | none => r.search lead (n + 1) fuel

/-- Move trailing zeros of the coefficient into the place. -/
def Scaled.normalize (s : Scaled) : Nat → Scaled
  | 0 => s
  | fuel + 1 =>
    if s.coefficient ≠ 0 ∧ s.coefficient % 10 = 0 then
      Scaled.normalize ⟨s.coefficient / 10, s.place + 1⟩ fuel
    else s

/-- The shortest decimal of a finite positive number. -/
def shortest (bits : UInt64) : Scaled :=
  let r := (Magnitude.ofBits bits).rounding
  (r.search (leadingExponent r.value r.denominator) 0 17).normalize 20

/-! ## Text -/

/-- The decisions of one way to write numbers. -/
structure FloatFormat where
  /-- Numbers whose leading digit stands at least at this exponent are written without one. -/
  leastPositional : Int
  /-- Numbers whose leading digit stands at most at this exponent are written without one. -/
  greatestPositional : Int

def zeros (n : Nat) : List Char := List.replicate n '0'

/-- The text of a positive decimal; a whole number keeps `.0`. -/
def FloatFormat.write (f : FloatFormat) (s : Scaled) : List Char :=
  let ds := Nat.toDigits 10 s.coefficient
  let lead := s.place + ds.length - 1
  if f.leastPositional ≤ lead ∧ lead ≤ f.greatestPositional then
    if 0 ≤ s.place then ds ++ zeros s.place.toNat ++ ['.', '0']
    else if 0 ≤ lead then ds.take (lead.toNat + 1) ++ '.' :: ds.drop (lead.toNat + 1)
    else '0' :: '.' :: zeros (-lead - 1).toNat ++ ds
  else
    let mantissa := match ds with
      | d :: d' :: rest => d :: '.' :: d' :: rest
      | ds => ds
    mantissa ++ 'e' :: (toString lead).toList

def FloatFormat.render (f : FloatFormat) (x : Float) : String :=
  if x.isNaN then "NaN"
  else
    let bits := x.toBits
    let sign := if bits >>> 63 == 1 then "-" else ""
    let body :=
      if x.isInf then "inf"
      else if bits <<< 1 == 0 then "0.0"
      else String.ofList (f.write (shortest bits))
    sign ++ body

/-- Scores are written without an exponent from `0.0001` to below `10 ^ 16`. -/
def scoreFormat : FloatFormat := ⟨-4, 15⟩

/-- Numbers in JSON are written without an exponent from `0.00001` to below `10 ^ 16`. -/
def jsonFormat : FloatFormat := ⟨-5, 15⟩

end CodeAtlas.Decimal
