import Mathlib

/-!
# Machine integers

The numbers of values of the integer types, and addition that stays within 64 bits.
-/
namespace Naome

def u32Limit : ℕ := 2 ^ 32

def i64Limit : ℕ := 2 ^ 63

def u64Limit : ℕ := 2 ^ 64

def u64Max : ℕ := u64Limit - 1

def saturatingAdd (a b : ℕ) : ℕ := min (a + b) u64Max

theorem saturatingAdd_lt (a b : ℕ) : saturatingAdd a b < u64Limit := by
  unfold saturatingAdd u64Max u64Limit
  omega

theorem le_saturatingAdd {a : ℕ} (h : a < u64Limit) (b : ℕ) : a ≤ saturatingAdd a b := by
  unfold saturatingAdd u64Max
  unfold u64Limit at *
  omega

end Naome
