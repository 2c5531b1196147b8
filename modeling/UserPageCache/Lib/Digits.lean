import Mathlib.Data.List.TakeWhile
import Mathlib.Data.Nat.Digits.Lemmas

-- Numbers whose digits end where the first zero digit stands.
namespace Digits

variable {b : ℕ} {digits : List ℕ}

def untilZero (digits : List ℕ) : List ℕ := digits.takeWhile (· ≠ 0)

theorem untilZero_zero_cons : untilZero (0 :: digits) = [] := by simp [untilZero]

theorem untilZero_cons {d : ℕ} (hd : d ≠ 0) : untilZero (d :: digits) = d :: untilZero digits := by
  simp [untilZero, hd]

theorem untilZero_append_zeros (digits : List ℕ) (n : ℕ) :
    untilZero (digits ++ List.replicate n 0) = untilZero digits := by
  induction digits with
  | nil => cases n <;> simp [untilZero, List.replicate_succ]
  | cons d digits ih =>
      by_cases hd : d = 0
      · rw [hd, List.cons_append, untilZero_zero_cons, untilZero_zero_cons]
      · rw [List.cons_append, untilZero_cons hd, untilZero_cons hd, ih]

-- What stands before the first zero and what follows it make up the number.
theorem ofDigits_untilZero_add (b : ℕ) (digits : List ℕ) :
    Nat.ofDigits b (untilZero digits) +
      b ^ (untilZero digits).length * Nat.ofDigits b (digits.dropWhile (· ≠ 0)) =
        Nat.ofDigits b digits := by
  rw [← Nat.ofDigits_append, untilZero, List.takeWhile_append_dropWhile]

theorem ofDigits_untilZero_le (b : ℕ) (digits : List ℕ) :
    Nat.ofDigits b (untilZero digits) ≤ Nat.ofDigits b digits := by
  have h := ofDigits_untilZero_add b digits
  omega

-- The last digit of a number is not zero, so nothing that follows a zero has the value zero.
theorem ofDigits_untilZero_eq_iff (hb : 1 < b) (n : ℕ) :
    Nat.ofDigits b (untilZero (Nat.digits b n)) = n ↔ 0 ∉ Nat.digits b n := by
  constructor
  · intro heq hzero
    have hadd := ofDigits_untilZero_add b (Nat.digits b n)
    rw [Nat.ofDigits_digits, heq, Nat.add_eq_left, Nat.mul_eq_zero] at hadd
    have hrest := hadd.resolve_left (Nat.pow_pos (by omega)).ne'
    have hne : (Nat.digits b n).dropWhile (· ≠ 0) ≠ [] := by
      intro hnil
      rw [List.dropWhile_eq_nil_iff] at hnil
      simpa using hnil 0 hzero
    have hn : n ≠ 0 := by
      rintro rfl
      simp at hzero
    refine Nat.getLast_digit_ne_zero b hn ?_
    refine Nat.digits_zero_of_eq_zero (by omega) hrest _ ?_
    rw [← (List.dropWhile_suffix _).getLast hne]
    exact List.getLast_mem hne
  · intro hnone
    have hall : untilZero (Nat.digits b n) = Nat.digits b n := by
      refine List.takeWhile_eq_self_iff.mpr fun d hd => ?_
      simpa using fun hz : d = 0 => hnone (hz ▸ hd)
    rw [hall, Nat.ofDigits_digits]

end Digits
