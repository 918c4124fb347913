/-!
# Single precision

A number of double precision is brought to single precision by rounding it to the nearest one, and to the
one with an even mantissa if two are equally near. Numbers too large become infinite.
-/

namespace Cdcl

open Float.Model in
/-- The number of single precision that is nearest. -/
def narrow (x : Float) : Float32 :=
  .ofModel <| .pack <|
    match x.toModel.unpack with
    | .finite sign mantissa exponent _ => UnpackedFloat.round .binary32 sign mantissa exponent
    | other => other

example : narrow 0.1 = 0.1 := by decide +kernel

end Cdcl
