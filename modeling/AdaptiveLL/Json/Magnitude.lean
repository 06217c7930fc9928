/-!
The magnitude of decimal numbers. A number is kept as its leading digits, as many of them as
fit into 64 bits, and a power of ten; it is too large if no binary number of 64 bits with a
fraction comes near it.
-/
namespace AdaptiveLL.Json

def digitsValue (ds : List Char) : Nat :=
  ds.foldl (fun acc d => acc * 10 + (d.toNat - 48)) 0

/-- Append digits to a number as long as it fits into 64 bits. The digits that are left over
come with it. -/
def leading : Nat → List Char → Nat × List Char
  | n, [] => (n, [])
  | n, d :: ds =>
      let next := n * 10 + (d.toNat - 48)
      if next < 18446744073709551616 then leading next ds else (n, d :: ds)

/-- The nearest number with 53 binary digits in front of zeros. Of two that are equally near it
is the one whose last digit is zero. -/
def round53 (n : Nat) : Nat :=
  let unit := 1 <<< (n.log2 - 52)
  let q := n / unit
  let r := 2 * (n % unit)
  if unit < r || (unit = r && q % 2 = 1) then (q + 1) * unit else q * unit

/-- Whether `n` times a power of ten is too large, both factors and their product being
rounded. The largest number has 53 ones in front of 971 zeros, and what is rounded to the next
power of two is too large. -/
def isTooLarge (n exponent : Nat) : Bool :=
  n ≠ 0 && (308 < exponent ||
    18014398509481983 <<< 970 ≤ round53 n * round53 (Nat.pow 10 exponent))

/-- Whether the number with these digits in front of the point and behind it, times a power of
ten, is too large. Digits in front of the point that are left over still count as places,
those behind the point do not. -/
def isBeyondReals (whole fraction : List Char) (exponent : Int) : Bool :=
  let (n, places) := leading 0 whole
  let (n, unused) := leading n fraction
  let e := exponent + places.length - (fraction.length - unused.length : Nat)
  0 ≤ e && isTooLarge n e.toNat

end AdaptiveLL.Json
