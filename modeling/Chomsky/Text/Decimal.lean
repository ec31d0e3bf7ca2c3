/-!
# Decimal numbers
-/

namespace Chomsky.Text

/-- The decimal digits of a number, without leading zeros. -/
def decimal (n : Nat) : String := String.ofList (Nat.toDigits 10 n)

end Chomsky.Text
