import Cdcl.Search.Trail

/-!
# Counting levels

The number of distinct decision levels among literals. Instead of clearing a set each time, the
counter stamps each level with the number of the current count.
-/

namespace Cdcl

structure LevelCounter where
  /-- The latest count in which each level was seen. -/
  stamps : DenseMap Nat Nat := { fallback := 0 }
  now : Nat := 0

namespace LevelCounter

/-- Count a level, unless this count has seen it. -/
def visit (c : LevelCounter) (n : Nat) (level : Nat) : LevelCounter × Nat :=
  if c.stamps.get level == c.now then (c, n)
  else ({ c with stamps := c.stamps.insert level c.now }, n + 1)

/-- The number of distinct levels in a list. -/
def count (c : LevelCounter) (levels : List Nat) : LevelCounter × Nat :=
  levels.foldl (fun (c, n) level => c.visit n level) ({ c with now := c.now + 1 }, 0)

end LevelCounter

end Cdcl
