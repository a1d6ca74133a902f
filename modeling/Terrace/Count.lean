/-
# Counts

Sizes, offsets, addresses and registers are counted in signed 64-bit words: a sum
that leaves the range comes back in at the other end. A long sum may be taken exactly
and reduced once, since reducing it on the way changes nothing.

Key definitions: `wrap`. Key theorems: `wrap_wrap_add`, `wrap_eq_self`.
-/

namespace Terrace

/-- An integer reduced to the signed 64-bit number with the same low bits. -/
def wrap (n : Int) : Int := n.bmod (Nat.pow 2 64)

/-- A part of a sum may be reduced before the rest is added. -/
@[simp] theorem wrap_wrap_add (a b : Int) : wrap (wrap a + b) = wrap (a + b) := by
  simp [wrap]

/-- A number in range is left alone. -/
theorem wrap_eq_self {n : Int} (hlow : -9223372036854775808 ≤ n) (hhigh : n < 9223372036854775808) :
    wrap n = n := by
  unfold wrap
  exact Int.bmod_eq_of_le hlow hhigh

end Terrace
