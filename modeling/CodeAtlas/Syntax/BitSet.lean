/-!
# Finite sets of numbers

Tokens, classes of characters and the like are numbered from zero, and sets of them are the bits of
a natural number. Two sets with the same members are equal.
-/

namespace CodeAtlas.Syntax

/-- A finite set of natural numbers: `i` is a member if bit `i` is set. -/
structure BitSet where
  bits : Nat
  deriving DecidableEq, Repr

namespace BitSet

def empty : BitSet := ⟨0⟩

instance : Inhabited BitSet := ⟨empty⟩

instance : Hashable BitSet := ⟨fun s => hash (s.bits % 18446744073709551557)⟩

def single (i : Nat) : BitSet := ⟨1 <<< i⟩

/-- The numbers below a bound. -/
def below (bound : Nat) : BitSet := ⟨(1 <<< bound) - 1⟩

def has (s : BitSet) (i : Nat) : Bool := s.bits.testBit i

def isEmpty (s : BitSet) : Bool := s.bits == 0

def union (s t : BitSet) : BitSet := ⟨s.bits ||| t.bits⟩

def inter (s t : BitSet) : BitSet := ⟨s.bits &&& t.bits⟩

/-- The members of the first set that are not in the second. -/
def diff (s t : BitSet) : BitSet := ⟨s.bits ^^^ (s.bits &&& t.bits)⟩

def insert (s : BitSet) (i : Nat) : BitSet := s.union (single i)

/-- Whether two sets have a member in common. -/
def meets (s t : BitSet) : Bool := !(s.inter t).isEmpty

def ofList (l : List Nat) : BitSet := l.foldl insert empty

/-- The members, in order. -/
def toList (s : BitSet) : List Nat := (List.range (s.bits.log2 + 1)).filter s.has

end BitSet

end CodeAtlas.Syntax
