import Mathlib.Data.List.Basic
import Mathlib.Algebra.Order.Group.Nat

-- An unbounded array, seen through its chunks of `u` cells.
namespace Bytes

variable {α : Type*} {u : ℕ}

def chunk (u : ℕ) (data : ℕ → α) (q : ℕ) : Fin u → α := fun j => data (q * u + j)

def write (data : ℕ → α) (base len : ℕ) (src : ℕ → α) : ℕ → α :=
  fun i => if base ≤ i ∧ i < base + len then src (i - base) else data i

-- The cells of some chunks one after the other, then those of `rest`.
def gather (u : ℕ) (chunks : List (Fin u → α)) (rest : ℕ → α) : ℕ → α :=
  fun i => match chunks[i / u]? with
    | some c => if h : i % u < u then c ⟨i % u, h⟩ else rest i
    | none => rest i

-- The cells of one array below a bound, and those of another one from there on.
def splice (bound : ℕ) (data tail : ℕ → α) : ℕ → α := fun i => if i < bound then data i else tail i

theorem div_chunk (q : ℕ) (j : Fin u) : (q * u + j) / u = q := by
  have hu : 0 < u := Nat.zero_lt_of_lt j.isLt
  rw [Nat.mul_comm, Nat.mul_add_div hu, Nat.div_eq_of_lt j.isLt, Nat.add_zero]

theorem mod_chunk (q : ℕ) (j : Fin u) : (q * u + j) % u = j := by
  rw [Nat.mul_comm, Nat.mul_add_mod, Nat.mod_eq_of_lt j.isLt]

theorem chunk_write (data src : ℕ → α) (p cnt q : ℕ) :
    chunk u (write data (p * u) (cnt * u) src) q =
      if p ≤ q ∧ q < p + cnt then chunk u src (q - p) else chunk u data q := by
  funext j
  have hu : 0 < u := Nat.zero_lt_of_lt j.isLt
  have hlow : p * u ≤ q * u + j ↔ p ≤ q := by
    rw [← Nat.le_div_iff_mul_le hu, div_chunk]
  have hhigh : q * u + j < p * u + cnt * u ↔ q < p + cnt := by
    rw [← Nat.add_mul, ← Nat.div_lt_iff_lt_mul hu, div_chunk]
  unfold chunk write
  simp only [hlow, hhigh]
  split
  · rename_i h
    have hsub : q * u + j - p * u = (q - p) * u + j := by
      rw [Nat.sub_mul]
      have := Nat.mul_le_mul_right u h.1
      omega
    rw [hsub]
  · rfl

theorem chunk_write_outside (data src : ℕ → α) {p cnt len q : ℕ} (hlen : len ≤ cnt * u)
    (hq : ¬(p ≤ q ∧ q < p + cnt)) : chunk u (write data (p * u) len src) q = chunk u data q := by
  funext j
  have hj := j.isLt
  unfold chunk write
  rw [if_neg]
  rintro ⟨hlow, hhigh⟩
  refine hq ⟨?_, ?_⟩
  · rw [← Nat.lt_succ_iff]
    refine Nat.lt_of_mul_lt_mul_right (a := u) ?_
    rw [Nat.succ_mul]
    omega
  · refine Nat.lt_of_mul_lt_mul_right (a := u) ?_
    rw [Nat.add_mul]
    omega

theorem chunk_gather (chunks : List (Fin u → α)) (rest : ℕ → α) {k : ℕ} (hk : k < chunks.length) :
    chunk u (gather u chunks rest) k = chunks[k] := by
  funext j
  unfold chunk gather
  rw [div_chunk, List.getElem?_eq_getElem hk]
  simp only [mod_chunk, j.isLt, dite_true]

-- The first chunk of a gathered list, and the others.
theorem gather_cons (hu : 0 < u) (c : Fin u → α) (chunks : List (Fin u → α)) (rest : ℕ → α)
    (i : ℕ) : gather u (c :: chunks) rest i = if h : i < u then c ⟨i, h⟩
      else gather u chunks (fun k => rest (u + k)) (i - u) := by
  unfold gather
  by_cases hlt : i < u
  · simp only [Nat.div_eq_of_lt hlt, List.getElem?_cons_zero, Nat.mod_eq_of_lt hlt, hlt, dite_true]
  · have hle : u ≤ i := Nat.not_lt.mp hlt
    have hdiv : i / u = (i - u) / u + 1 := Nat.div_eq_sub_div hu hle
    have hmod : i % u = (i - u) % u := Nat.mod_eq_sub_mod hle
    simp only [hlt, dite_false, hdiv, List.getElem?_cons_succ, hmod, Nat.add_sub_cancel' hle]

theorem gather_congr {rest rest' : ℕ → α} (chunks : List (Fin u → α)) {n : ℕ}
    (h : ∀ i < n, rest i = rest' i) :
    ∀ i < n, gather u chunks rest i = gather u chunks rest' i := by
  intro i hi
  unfold gather
  rw [h i hi]

theorem write_congr {src src' : ℕ → α} (data : ℕ → α) (base : ℕ) {len : ℕ}
    (h : ∀ i < len, src i = src' i) : write data base len src = write data base len src' := by
  funext i
  unfold write
  split
  · rw [h (i - base) (by omega)]
  · rfl

theorem splice_below (data tail : ℕ → α) {bound i : ℕ} (h : i < bound) :
    splice bound data tail i = data i := if_pos h

-- A write below the bound.
theorem splice_write (data src tail : ℕ → α) {base len bound : ℕ} (h : base + len ≤ bound) :
    splice bound (write data base len src) tail = write (splice bound data tail) base len src := by
  funext i
  unfold splice write
  by_cases hin : base ≤ i ∧ i < base + len
  · rw [if_pos (by omega), if_pos hin, if_pos hin]
  · rw [if_neg hin, if_neg hin]

theorem write_zero (data src : ℕ → α) (base : ℕ) : write data base 0 src = data := by
  funext i
  unfold write
  rw [if_neg (by omega)]

end Bytes
