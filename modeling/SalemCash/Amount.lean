import Mathlib.Algebra.Order.Ring.Int

/-!
# Amounts

`amount.h` counts value in `CAmount`, a signed 64-bit count of the smallest unit,
with `CASH` units to a coin and the range check `MoneyRange`. The amounts the
consensus code adds stay far below 2^63, so `CAmount` is an `Int` here. The wallet's
coin selection adds amounts no range check has bounded; its sums go through `wrap64`.
-/
namespace SalemCash

abbrev CAmount := Int

def CASH : CAmount := 100000000

def CENT : CAmount := 1000000

def MAX_MONEY : CAmount := 20000000 * CASH

def MoneyRange (nValue : CAmount) : Bool := 0 ≤ nValue && nValue ≤ MAX_MONEY

/-- `+` and `-` on `int64_t` amounts. Signed overflow is undefined in C++; the model takes
the two's-complement wrap the compiled code performs. -/
def wrap64 (x : Int) : CAmount := x.bmod (2 ^ 64)

theorem wrap64_of_abs_lt {x : Int} (h : |x| < 2 ^ 63) : wrap64 x = x := by
  obtain ⟨lower, upper⟩ := abs_lt.mp h
  exact Int.bmod_eq_of_le (by omega) (by omega)

end SalemCash
