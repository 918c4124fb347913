/-!
# Fixed decimal places

The text of a double with a fixed number of decimal places. The double is taken for the exact
fraction it is, and rounded once; an exact half goes to the even neighbour.
-/

namespace Cdcl

/-- The integer nearest to `num / den`; of two equally near ones, the even one. -/
def roundDiv (num den : Nat) : Nat :=
  let q := num / den
  let twice := 2 * (num % den)
  if twice < den then q
  else if den < twice then q + 1
  else q + q % 2

/-- A finite double as `significand * 2 ^ (exponent - 1074)`, without its sign. -/
def Fixed.magnitude (x : Float) : Nat × Nat :=
  let bits := x.toBits.toNat
  let fraction := bits % 1 <<< 52
  let exponent := bits >>> 52 % 1 <<< 11
  if exponent = 0 then (fraction, 0) else (fraction + 1 <<< 52, exponent - 1)

/-- The text of a finite double with two decimal places. -/
def Fixed.twoPlaces (x : Float) : String :=
  let (significand, exponent) := Fixed.magnitude x
  let hundredths := roundDiv (significand <<< exponent * 100) (1 <<< 1074)
  let fraction := toString (hundredths % 100)
  let sign := if x.toBits.toNat >>> 63 = 1 then "-" else ""
  let zeros := String.ofList (List.replicate (2 - fraction.length) '0')
  sign ++ toString (hundredths / 100) ++ "." ++ zeros ++ fraction

/-- The text with blanks on its left, to at least `width` characters. -/
def padLeft (width : Nat) (text : String) : String :=
  String.ofList (List.replicate (width - text.length) ' ') ++ text

/-- The text with blanks on its right, to at least `width` characters. -/
def padRight (width : Nat) (text : String) : String :=
  text ++ String.ofList (List.replicate (width - text.length) ' ')

end Cdcl
