import Cdcl.Data.DenseMap

/-!
# Dense maps of integers

Maps from numbers to 64-bit integers, with arithmetic on all values at once. Sums and negatives
wrap around.
-/

namespace Cdcl

abbrev IntegerMap := DenseMap Nat Int64

namespace IntegerMap

def empty : IntegerMap := { fallback := 0 }

/-- Add its key to every value. -/
def addKeys (m : IntegerMap) : IntegerMap := m.mapEntries fun k v => v + Int64.ofNat k

/-- Negate every value. -/
def negateAll (m : IntegerMap) : IntegerMap := m.mapValues fun v => -v

end IntegerMap

end Cdcl
