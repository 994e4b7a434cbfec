/-!
Time budgets of polled waits. A wait that looks at the hardware again and again sleeps in between,
one step at a time, until its budget is spent; only the last sleep may be shorter than a step.
-/

namespace Joybus.Transceiver

/-- The time that is left, and the longest single sleep, both in microseconds. -/
structure Budget where
  remaining : Nat
  step : Nat
  step_pos : 0 < step
deriving DecidableEq, Repr

namespace Budget

/-- A fresh budget. A step takes one microsecond at least. -/
def new (total step : Nat) : Budget := ⟨total, max step 1, by omega⟩

/-- The length of the next sleep: a step, or what is left if that is less. -/
def sleep (b : Budget) : Nat := min b.step b.remaining

/-- What is left after the next sleep. -/
def rest (b : Budget) : Budget := { b with remaining := b.remaining - b.sleep }

variable {b : Budget}

@[simp] theorem step_rest (b : Budget) : b.rest.step = b.step := rfl

theorem sleep_le (b : Budget) : b.sleep ≤ b.step := Nat.min_le_left _ _

theorem sleep_pos (h : b.remaining ≠ 0) : 0 < b.sleep := by
  have positive := b.step_pos
  simp only [sleep]
  omega

/-- A sleep takes off the budget what it takes. -/
theorem sleep_add_rest (b : Budget) : b.sleep + b.rest.remaining = b.remaining := by
  simp only [rest, sleep]
  omega

theorem rest_lt (h : b.remaining ≠ 0) : b.rest.remaining < b.remaining := by
  have slept := b.sleep_add_rest
  have positive := sleep_pos h
  omega

/-- The number of sleeps the budget pays for. -/
def naps (b : Budget) : Nat :=
  if b.remaining = 0 then 0 else b.rest.naps + 1
termination_by b.remaining
decreasing_by exact rest_lt ‹_›

theorem naps_spent (h : b.remaining = 0) : b.naps = 0 := by
  rw [naps, if_pos h]

theorem naps_unspent (h : b.remaining ≠ 0) : b.naps = b.rest.naps + 1 := by
  rw [naps, if_neg h]

/-- Induction over the sleeps of a budget. -/
@[induction_eliminator]
theorem induction {motive : Budget → Prop} (spent : ∀ b, b.remaining = 0 → motive b)
    (sleep : ∀ b, b.remaining ≠ 0 → motive b.rest → motive b) (b : Budget) : motive b :=
  naps.induct motive spent sleep b

/-- What is left is slept in steps, rounded up. -/
theorem naps_eq (b : Budget) : b.naps = (b.remaining + b.step - 1) / b.step := by
  induction b with
  | spent b h =>
    have positive := b.step_pos
    rw [naps_spent h, h, Nat.div_eq_of_lt (by omega)]
  | sleep b h ih =>
    have positive := b.step_pos
    have slept := b.sleep_add_rest
    rw [naps_unspent h, ih, step_rest, ← Nat.add_div_right _ positive]
    by_cases full : b.step ≤ b.remaining
    · rw [sleep, Nat.min_eq_left full] at slept
      congr 1
      omega
    · -- The last sleep is shorter than a step, and both sides are one.
      rw [sleep, Nat.min_eq_right (by omega)] at slept
      rw [Nat.div_eq_of_lt_le (k := 1) (by omega) (by omega),
        Nat.div_eq_of_lt_le (k := 1) (by omega) (by omega)]

end Budget

end Joybus.Transceiver
