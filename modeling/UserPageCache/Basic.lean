import Mathlib.Tactic.Ring

namespace UserPageCache

-- A C string is its characters before the terminator, so strcmp is equality
-- and strcpy is assignment.
abbrev CChar := {c : UInt8 // c ≠ 0}

abbrev CString := List CChar

theorem nonzero_a : (97 : UInt8) ≠ 0 := by decide

-- `char` is signed on the target: adding one to an unsigned value extends its sign.
def CChar.toUnsigned (c : CChar) : Nat :=
  if c.val.toNat < 128 then c.val.toNat else c.val.toNat + 2 ^ 32 - 2 ^ 8

-- The ways in which a C function fails to return.
inductive Fault where
  | nullDereference
  | divergence
  | exit (code : Nat)
deriving DecidableEq

theorem bind_eq_ok {ε α β : Type} {x : Except ε α} {f : α → Except ε β} {y : β} :
    x >>= f = .ok y ↔ ∃ v, x = .ok v ∧ f v = .ok y := by
  cases x with
  | error e => simp [bind, Except.bind]
  | ok v => simp [bind, Except.bind]

def u32 (n : Nat) : Nat := n % 2 ^ 32

def inc (n : Nat) : Nat := u32 (n + 1)

def dec (n : Nat) : Nat := u32 (n + (2 ^ 32 - 1))

theorem u32_of_lt {n : Nat} (h : n < 2 ^ 32) : u32 n = n := Nat.mod_eq_of_lt h

theorem inc_of_lt {n : Nat} (h : n + 1 < 2 ^ 32) : inc n = n + 1 := u32_of_lt h

theorem dec_succ {n : Nat} (h : n < 2 ^ 32) : dec (n + 1) = n := by
  simp only [dec, u32]
  omega

def CBLOCK_SHIFT : Nat := 15

def CACHE_BLOCK_SIZE : Nat := 2 ^ 15

def CACHE_BLOCK_NUMBER : Nat := 2 ^ 15

def BUCKETS_NUMBER : Nat := 2 ^ 17

def PAGE_SHIFT : Nat := 12

def PAGE_SIZE : Nat := 2 ^ 12

def MOD_PAGE_PER_CBLOCK_SHIFT : Nat := 0b111

def MAX_PATH_SIZE : Nat := 32

def MAX_WORKQUEUE_SIZE : Nat := 16

end UserPageCache
