/-!
# Powers and widths

Powers of two and ten, and the integers that fit a number of bits.
-/

namespace Dataflow

def twoPow (n : Nat) : Nat := Nat.pow 2 n

def tenPow (n : Nat) : Nat := Nat.pow 10 n

/-- Whether an integer fits a signed word of `bits + 1` bits. -/
def fitsSigned (bits : Nat) (i : Int) : Bool := -(twoPow bits : Int) ≤ i && i < (twoPow bits : Int)

/-- Whether an integer fits 32 bits. -/
def fitsInt (i : Int) : Bool := fitsSigned 31 i

/-- Whether an integer fits 64 bits. -/
def fitsLong (i : Int) : Bool := fitsSigned 63 i

/-- Whether an integer fits 64 bits without a sign. -/
def fitsUnsigned (i : Int) : Bool := 0 ≤ i && i < (twoPow 64 : Int)

end Dataflow
