/-!
# Numbers with a fixed number of places

A finite binary floating-point number is a whole number times a power of two, so it can be rounded
to decimal places exactly.

* `roundQuotient`: a quotient of whole numbers, rounded to the nearest one, a half to the even one;
* `fixedPlaces`: a number `m * 2 ^ e` with a fixed number of places;
* `toFixed`: a number that is finite and not negative.
-/

namespace BlockSync

/-- The quotient rounded to the nearest whole number; of two equally near the even one. -/
def roundQuotient (num den : Nat) : Nat :=
  let quotient := num / den
  let rest := num % den
  if 2 * rest < den then quotient
  else if den < 2 * rest then quotient + 1
  else quotient + quotient % 2

/-- A whole number of units of the last of `places` places. -/
def placePoint (places units : Nat) : String :=
  let digits := (Nat.toDigits 10 units).leftpad (places + 1) '0'
  let whole := digits.take (digits.length - places)
  let rest := digits.drop (digits.length - places)
  if places = 0 then String.ofList whole else String.ofList (whole ++ '.' :: rest)

/-- The number `m * 2 ^ e` with a fixed number of places. -/
def fixedPlaces (places m : Nat) (e : Int) : String :=
  let units := m * Nat.pow 10 places
  placePoint places <| if 0 ≤ e then units <<< e.toNat else roundQuotient units (1 <<< (-e).toNat)

/-- The whole number and the exponent of two whose product a finite number is. -/
def binaryParts (x : Float) : Nat × Int :=
  let bits := x.toBits
  let exponent := ((bits >>> 52) &&& 0x7FF).toNat
  let fraction := (bits &&& 0xFFFFFFFFFFFFF).toNat
  if exponent = 0 then (fraction, -1074) else (fraction + 0x10000000000000, (exponent : Int) - 1075)

/-- A number that is finite and not negative, with a fixed number of places. -/
def toFixed (places : Nat) (x : Float) : String :=
  let (m, e) := binaryParts x
  fixedPlaces places m e

end BlockSync
