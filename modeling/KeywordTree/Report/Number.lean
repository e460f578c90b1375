/-! Numbers in reports: shares, sizes and bars. -/
namespace KeywordTree.Report

/-- A quotient rounded to the nearest natural number, a tie to the even one. -/
def roundDiv (num den : Nat) : Nat :=
  let quotient := num / den
  match compare (2 * (num % den)) den with
  | .lt => quotient
  | .gt => quotient + 1
  | .eq => if quotient % 2 = 0 then quotient else quotient + 1

/-- The bit above the fraction of a double, its 53rd. -/
def hiddenBit : Nat := 0x10000000000000

def quotientOf (x : Float) : Nat × Nat :=
  let bits := x.toBits.toNat
  let fraction := bits % hiddenBit
  let exponent := bits / hiddenBit % 2048
  let significand := if exponent = 0 then fraction else hiddenBit + fraction
  let scale := max exponent 1
  if 1075 ≤ scale then (significand * Nat.pow 2 (scale - 1075), 1)
  else (significand, Nat.pow 2 (1075 - scale))

def padLeft (width : Nat) (fill : Char) (text : String) : String :=
  "".pushn fill (width - text.length) ++ text

/-- A finite non-negative double with a set number of places, at least one. The exact
value is rounded. -/
def fixed (places : Nat) (x : Float) : String :=
  let (num, den) := quotientOf x
  let scale := Nat.pow 10 places
  let units := roundDiv (num * scale) den
  toString (units / scale) ++ "." ++ padLeft places '0' (toString (units % scale))

/-- The share of a part in a total, in percent; of nothing it is zero. -/
def percentage (part total : Nat) : Float :=
  if total = 0 then 0 else Float.ofNat part / Float.ofNat total * 100

/-- A number of bytes, in units of 1024 from there on. -/
def byteCount (bytes : Nat) : String :=
  if bytes < 1024 then toString bytes ++ " B" else fixed 1 (Float.ofNat bytes / 1024) ++ " KiB"

def seconds (millis : Nat) : Float :=
  Float.ofNat (millis / 1000) + Float.ofNat (millis % 1000 * 1000000) / 1000000000

def bar (value maximum : Float) (width : Nat) : String :=
  let filled :=
    if maximum ≤ 0 then 0 else min (value / maximum * Float.ofNat width).toUInt64.toNat width
  ("".pushn '█' filled).pushn '░' (width - filled)

end KeywordTree.Report
