/-!
# Saturating arithmetic

Sizes are 64-bit words that stop at their largest value instead of wrapping. Here they are
natural numbers capped at that value, with multiplication and addition that cap after each
step.

Capping after every step gives the same number as capping the exact result once: a capped
factor is smaller only when the product is past the cap already or the other factor is zero
(`capU64_mul_left`), and a capped summand only when the sum is past the cap
(`capU64_add_left`). Folds of saturating steps are therefore capped exact folds
(`foldl_satMul`, `foldl_satAdd`). `total` is the exact sum of a list of counts.
-/

namespace RenderGraph

/-- The largest value of a 64-bit word. -/
def u64Max : Nat := 18446744073709551615

/-- Caps a number at the largest 64-bit value. -/
def capU64 (n : Nat) : Nat := min n u64Max

/-- Multiplication that stops at the largest 64-bit value. -/
def satMul (a b : Nat) : Nat := capU64 (a * b)

/-- Addition that stops at the largest 64-bit value. -/
def satAdd (a b : Nat) : Nat := capU64 (a + b)

theorem capU64_of_le {n : Nat} (h : n ≤ u64Max) : capU64 n = n := Nat.min_eq_left h

/-- Capping a factor first changes no capped product. -/
theorem capU64_mul_left (a b : Nat) : capU64 (capU64 a * b) = capU64 (a * b) := by
  unfold capU64
  by_cases ha : a ≤ u64Max
  · rw [Nat.min_eq_left ha]
  · have hcap : min a u64Max = u64Max := Nat.min_eq_right (by omega)
    rw [hcap]
    rcases Nat.eq_zero_or_pos b with hb | hb
    · simp [hb]
    · have h1 : u64Max ≤ u64Max * b := Nat.le_mul_of_pos_right _ hb
      have h2 : u64Max ≤ a * b := Nat.le_trans (by omega) (Nat.le_mul_of_pos_right a hb)
      rw [Nat.min_eq_right h1, Nat.min_eq_right h2]

/-- Capping a summand first changes no capped sum. -/
theorem capU64_add_left (a b : Nat) : capU64 (capU64 a + b) = capU64 (a + b) := by
  unfold capU64
  omega

/-- A saturating product is the capped exact product. -/
theorem foldl_satMul (a : Nat) (xs : List Nat) :
    xs.foldl satMul (capU64 a) = capU64 (xs.foldl (· * ·) a) := by
  induction xs generalizing a with
  | nil => rfl
  | cons x rest ih => rw [List.foldl_cons, satMul, capU64_mul_left, ih, List.foldl_cons]

/-- A saturating sum is the capped exact sum. -/
theorem foldl_satAdd (a : Nat) (xs : List Nat) :
    xs.foldl satAdd (capU64 a) = capU64 (xs.foldl (· + ·) a) := by
  induction xs generalizing a with
  | nil => rfl
  | cons x rest ih => rw [List.foldl_cons, satAdd, capU64_add_left, ih, List.foldl_cons]

/-- The exact sum of a list of numbers, added from the left. -/
def total (xs : List Nat) : Nat := xs.foldl (· + ·) 0

/-- Adding from a start value adds the start to the total. -/
theorem foldl_add_eq (a : Nat) (xs : List Nat) : xs.foldl (· + ·) a = a + total xs := by
  induction xs generalizing a with
  | nil => rfl
  | cons x rest ih =>
    show List.foldl (· + ·) (a + x) rest = a + List.foldl (· + ·) (0 + x) rest
    rw [ih, ih]
    omega

@[simp] theorem total_nil : total [] = 0 := rfl

@[simp] theorem total_cons (x : Nat) (xs : List Nat) : total (x :: xs) = x + total xs := by
  show List.foldl (· + ·) (0 + x) xs = _
  rw [foldl_add_eq]
  omega

end RenderGraph
