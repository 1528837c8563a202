/-!
# Costs

A cost is a 64-bit word. Sums that do not fit stay at the largest word, so a longer route never
looks cheaper than a shorter one. Main statement: `toNat_plus`, addition cut off at the top, from
which the algebra of `plus` follows: it is associative, monotone, and never lowers a cost.
-/

namespace StateSearch

/-- What a move costs, what a path has cost so far, or what is estimated to remain. -/
abbrev Cost := UInt64

namespace Cost

/-- The largest cost. It also stands for every sum that is too large to be written down. -/
def largest : Cost := 0xFFFFFFFFFFFFFFFF

/-- The sum of two costs, or `largest` where it does not fit. -/
def plus (a b : Cost) : Cost :=
  let sum := a + b
  if sum < a then largest else sum

theorem toNat_plus (a b : Cost) : (plus a b).toNat = min (a.toNat + b.toNat) largest.toNat := by
  have ha := a.toNat_lt
  have hb := b.toNat_lt
  simp only [plus, UInt64.lt_iff_toNat_lt, UInt64.toNat_add]
  split <;> simp only [largest, UInt64.toNat_add, UInt64.toNat_ofNat] <;> omega

theorem toNat_le_largest (a : Cost) : a.toNat ≤ largest.toNat := by
  have := a.toNat_lt
  simp only [largest, UInt64.toNat_ofNat]
  omega

@[simp] theorem zero_plus (a : Cost) : plus 0 a = a := by
  have := toNat_le_largest a
  refine UInt64.toNat_inj.mp ?_
  rw [toNat_plus, UInt64.toNat_zero]
  omega

@[simp] theorem plus_zero (a : Cost) : plus a 0 = a := by
  have := toNat_le_largest a
  refine UInt64.toNat_inj.mp ?_
  rw [toNat_plus, UInt64.toNat_zero]
  omega

theorem plus_assoc (a b c : Cost) : plus (plus a b) c = plus a (plus b c) := by
  refine UInt64.toNat_inj.mp ?_
  simp only [toNat_plus]
  omega

theorem plus_le_plus {a a' b b' : Cost} (ha : a ≤ a') (hb : b ≤ b') : plus a b ≤ plus a' b' := by
  rw [UInt64.le_iff_toNat_le] at *
  simp only [toNat_plus]
  omega

theorem le_plus_right (a b : Cost) : a ≤ plus a b := by
  have := toNat_le_largest a
  rw [UInt64.le_iff_toNat_le, toNat_plus]
  omega

theorem le_plus_iff {a b c : Cost} : a ≤ plus b c ↔ a.toNat ≤ b.toNat + c.toNat := by
  have := toNat_le_largest a
  rw [UInt64.le_iff_toNat_le, toNat_plus]
  omega

/-- A sum that is less than the largest cost was not cut off, so equal terms can be taken away. -/
theorem le_of_plus_le_plus {a b c d : Cost} (h : plus a c ≤ plus b c) (hd : plus b c < d) :
    a ≤ b := by
  have := toNat_le_largest d
  rw [UInt64.le_iff_toNat_le] at *
  rw [UInt64.lt_iff_toNat_lt] at hd
  simp only [toNat_plus] at h hd
  omega

/-- The cost of several moves in a row, starting from `start`. -/
def sumFrom (start : Cost) (steps : List Cost) : Cost :=
  steps.foldl plus start

@[simp] theorem sumFrom_nil (start : Cost) : sumFrom start [] = start := rfl

@[simp] theorem sumFrom_cons (start step : Cost) (steps : List Cost) :
    sumFrom start (step :: steps) = sumFrom (plus start step) steps := rfl

theorem sumFrom_append (start : Cost) (steps later : List Cost) :
    sumFrom start (steps ++ later) = sumFrom (sumFrom start steps) later :=
  List.foldl_append

end Cost

end StateSearch
