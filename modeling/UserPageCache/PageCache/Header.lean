import UserPageCache.Basic
import UserPageCache.Lib.Digits

namespace UserPageCache.PageCache

def PAGE_HEADER_SIZE : Nat := 10

-- A store through the caller's pointer; there is none outside of the buffer.
def store (len : List UInt8) (index : Nat) (c : UInt8) : Option (List UInt8) :=
  if index < len.length then some (len.set index c) else none

def charOf (digit : Nat) : UInt8 := .ofNat (48 + digit)

-- The do-while loop: a number has at least one digit.
def writeDigits (num index : Nat) (len : List UInt8) : Option (Nat × List UInt8) := do
  let len ← store len index (charOf (num % 10))
  if num / 10 > 0 then writeDigits (num / 10) (inc index) len else return (inc index, len)
termination_by num
decreasing_by omega

def writePadding (index : Nat) (len : List UInt8) : Option (List UInt8) := do
  if index < PAGE_HEADER_SIZE then writePadding (index + 1) (← store len index 48) else return len
termination_by PAGE_HEADER_SIZE - index

def convertUnsignedIntToString (num : Nat) (len : List UInt8) : Option (List UInt8) := do
  let (index, len) ← writeDigits num 0 len
  writePadding index len

-- A char less '0' is an int, which the product makes unsigned.
def digitOf (c : UInt8) : Nat := ((c.toInt8.toInt - 48) % 2 ^ 32).toNat

-- `i` counts down from PAGE_HEADER_SIZE, the buffer is what lies from `i` on.
def sumDigits : Nat → List UInt8 → Nat → Nat → Option Nat
  | 0, _, result, _ => some result
  | _ + 1, [], _, _ => none
  | i + 1, c :: buffer, result, multiplier =>
      if c ≠ 48 then
        sumDigits i buffer (u32 (result + u32 (digitOf c * multiplier))) (u32 (multiplier * 10))
      else some result

def convertStringToUnsignedInt (buffer : List UInt8) : Option Nat :=
  sumDigits PAGE_HEADER_SIZE buffer 0 1

-- The turns of the decoder's loop with the values that the integers have: each value that a turn
-- uses fits.
def NoWrap : Nat → List UInt8 → Nat → Nat → Prop
  | i + 1, c :: buffer, result, multiplier =>
      c ≠ 48 → digitOf c = c.toInt8.toInt - 48 ∧ multiplier < 2 ^ 32 ∧
        digitOf c * multiplier < 2 ^ 32 ∧ result + digitOf c * multiplier < 2 ^ 32 ∧
        NoWrap i buffer (result + digitOf c * multiplier) (multiplier * 10)
  | _, _, _, _ => True

-- The characters of some digits.
def charsOf (digits : List Nat) : List UInt8 := digits.map charOf

section Encoder

variable {num : Nat}

theorem store_append (left right : List UInt8) (old c : UInt8) :
    store (left ++ old :: right) left.length c = some (left ++ c :: right) := by
  unfold store
  rw [if_pos (by simp), List.set_append_right _ _ (Nat.le_refl _), Nat.sub_self, List.set_cons_zero]

-- The digits that the do-while loop writes.
def digitsOf (num : Nat) : List Nat := if num = 0 then [0] else Nat.digits 10 num

theorem digitsOf_length (hnum : num < 2 ^ 32) : (digitsOf num).length ≤ PAGE_HEADER_SIZE := by
  unfold digitsOf PAGE_HEADER_SIZE
  split
  · exact Nat.le_of_ble_eq_true rfl
  · exact (Nat.digits_length_le_iff (by omega) num).mpr (hnum.trans (by norm_num))

theorem digitsOf_small (hnum : num / 10 = 0) : digitsOf num = [num % 10] := by
  unfold digitsOf
  split
  · next hzero => rw [hzero]
  · next hpos =>
      rw [Nat.digits_def' (by omega) (Nat.pos_of_ne_zero hpos), hnum, Nat.digits_zero]

theorem digitsOf_large (hnum : num / 10 ≠ 0) : digitsOf num = num % 10 :: digitsOf (num / 10) := by
  unfold digitsOf
  rw [if_neg hnum, if_neg (by omega), Nat.digits_def' (by omega) (by omega)]

theorem writeDigits_append (num : Nat) (right : List UInt8) : ∀ left middle : List UInt8,
    middle.length = (digitsOf num).length → left.length + middle.length < 2 ^ 32 →
    writeDigits num left.length (left ++ middle ++ right) =
      some (left.length + middle.length, left ++ charsOf (digitsOf num) ++ right) := by
  induction num using Nat.strongRecOn with
  | ind num ih =>
      intro left middle hlen hfits
      have hinc : middle ≠ [] → inc left.length = left.length + 1 := fun hne =>
        inc_of_lt (by have := List.length_pos_of_ne_nil hne; omega)
      by_cases hnum : num / 10 = 0
      · rw [digitsOf_small hnum] at hlen ⊢
        obtain ⟨old, rfl⟩ := List.length_eq_one_iff.mp hlen
        rw [writeDigits, List.append_assoc, List.singleton_append, store_append]
        simp [hnum, hinc, charsOf]
      · rw [digitsOf_large hnum] at hlen ⊢
        obtain ⟨old, middle, rfl⟩ := List.exists_cons_of_length_eq_add_one hlen
        have hrest := ih (num / 10) (by omega) (left ++ [charOf (num % 10)]) middle
          (by simpa using hlen) (by simpa [Nat.add_assoc, Nat.add_comm 1] using hfits)
        rw [writeDigits, List.append_assoc, List.cons_append, store_append]
        simp only [List.append_assoc, List.cons_append, List.nil_append, List.length_append,
          List.length_singleton] at hrest
        simp only [Option.bind_eq_bind, Option.bind_some, hinc (List.cons_ne_nil _ _),
          List.append_assoc, hrest, gt_iff_lt, Nat.pos_of_ne_zero hnum, ite_true]
        simp [charsOf, Nat.add_comm 1, Nat.add_assoc]

theorem writePadding_append (n : Nat) (right : List UInt8) : ∀ left middle : List UInt8,
    middle.length = n → left.length + n = PAGE_HEADER_SIZE →
    writePadding left.length (left ++ middle ++ right) =
      some (left ++ charsOf (List.replicate n 0) ++ right) := by
  induction n with
  | zero =>
      intro left middle hlen hsize
      rw [List.length_eq_zero_iff.mp hlen, writePadding, if_neg (by omega)]
      rfl
  | succ n ih =>
      intro left middle hlen hsize
      obtain ⟨old, middle, rfl⟩ := List.exists_cons_of_length_eq_add_one hlen
      have hrest := ih (left ++ [48]) middle (by simpa using hlen) (by simp; omega)
      rw [writePadding, if_pos (by omega), List.append_assoc, List.cons_append, store_append]
      simp only [List.append_assoc, List.cons_append, List.nil_append, List.length_append,
        List.length_singleton] at hrest
      simp only [Option.bind_eq_bind, Option.bind_some, List.append_assoc, hrest]
      rfl

theorem convertUnsignedIntToString_eq (hnum : num < 2 ^ 32) {len : List UInt8}
    (hlen : PAGE_HEADER_SIZE ≤ len.length) :
    convertUnsignedIntToString num len =
      some (charsOf (digitsOf num ++ List.replicate (PAGE_HEADER_SIZE - (digitsOf num).length) 0) ++
        len.drop PAGE_HEADER_SIZE) := by
  have hk := digitsOf_length hnum
  have hbound : PAGE_HEADER_SIZE < 2 ^ 32 := by decide
  obtain ⟨k, hkdef⟩ : ∃ k, k = (digitsOf num).length := ⟨_, rfl⟩
  have hparts : len = [] ++ len.take k ++ ((len.drop k).take (PAGE_HEADER_SIZE - k) ++
      len.drop PAGE_HEADER_SIZE) := by
    have hdrop : len.drop PAGE_HEADER_SIZE = (len.drop k).drop (PAGE_HEADER_SIZE - k) := by
      rw [List.drop_drop]
      congr 1
      omega
    rw [hdrop, List.take_append_drop, List.nil_append, List.take_append_drop]
  have htake : (len.take k).length = (digitsOf num).length := by
    rw [List.length_take]
    omega
  have hdigits := writeDigits_append num ((len.drop k).take (PAGE_HEADER_SIZE - k) ++
    len.drop PAGE_HEADER_SIZE) [] (len.take k) htake (by simp; omega)
  have hchars : (charsOf (digitsOf num)).length = k := by simp [charsOf, hkdef]
  have hpadding := writePadding_append (PAGE_HEADER_SIZE - k) (len.drop PAGE_HEADER_SIZE)
    (charsOf (digitsOf num)) ((len.drop k).take (PAGE_HEADER_SIZE - k)) (by simp; omega) (by omega)
  rw [← hparts] at hdigits
  unfold convertUnsignedIntToString
  rw [List.length_nil] at hdigits
  rw [hdigits]
  simp only [Option.bind_eq_bind, Option.bind_some, List.nil_append, ← List.append_assoc, htake,
    Nat.zero_add, ← hkdef]
  rw [hchars] at hpadding
  rw [hpadding]
  simp [charsOf]

end Encoder

section Decoder

variable {digits : List Nat} {result multiplier : Nat}

theorem charOf_eq_zero {d : Nat} (hd : d < 10) : charOf d = 48 ↔ d = 0 := by
  revert d
  decide

theorem digitOf_charOf {d : Nat} (hd : d < 10) :
    digitOf (charOf d) = d ∧ digitOf (charOf d) = (charOf d).toInt8.toInt - 48 := by
  revert d
  decide

-- One turn: the digit and its weight fit as the number itself does.
theorem turn_fits {d : Nat} (hd : d ≠ 0)
    (hfits : result + multiplier * Nat.ofDigits 10 (Digits.untilZero (d :: digits)) < 2 ^ 32) :
    multiplier < 2 ^ 32 ∧ d * multiplier < 2 ^ 32 ∧ result + d * multiplier < 2 ^ 32 ∧
      result + multiplier * Nat.ofDigits 10 (Digits.untilZero (d :: digits)) =
        result + d * multiplier +
          multiplier * 10 * Nat.ofDigits 10 (Digits.untilZero digits) := by
  have hsum : result + multiplier * Nat.ofDigits 10 (Digits.untilZero (d :: digits)) =
      result + d * multiplier +
        multiplier * 10 * Nat.ofDigits 10 (Digits.untilZero digits) := by
    rw [Digits.untilZero_cons hd, Nat.ofDigits_cons]
    ring
  have hle : multiplier ≤ d * multiplier := Nat.le_mul_of_pos_left _ (Nat.pos_of_ne_zero hd)
  refine ⟨?_, ?_, ?_, hsum⟩ <;> omega

theorem sumDigits_charsOf : ∀ result multiplier, (∀ d ∈ digits, d < 10) →
    result + multiplier * Nat.ofDigits 10 (Digits.untilZero digits) < 2 ^ 32 →
    sumDigits digits.length (charsOf digits) result (u32 multiplier) =
        some (result + multiplier * Nat.ofDigits 10 (Digits.untilZero digits)) ∧
      NoWrap digits.length (charsOf digits) result multiplier := by
  induction digits with
  | nil =>
      intro result multiplier _ _
      exact ⟨rfl, trivial⟩
  | cons d digits ih =>
      intro result multiplier hsmall hfits
      have hd := hsmall d (List.mem_cons_self ..)
      obtain ⟨hdigit, hint⟩ := digitOf_charOf hd
      by_cases hzero : d = 0
      · subst hzero
        have hc : charOf 0 = 48 := rfl
        rw [Digits.untilZero_zero_cons]
        exact ⟨by simp [charsOf, sumDigits, hc], fun hne => absurd hc hne⟩
      · have hc : charOf d ≠ 48 := fun h => hzero ((charOf_eq_zero hd).mp h)
        obtain ⟨hmultiplier, hproduct, hresult, hsum⟩ := turn_fits hzero hfits
        obtain ⟨hrest, hnoWrap⟩ := ih (result + d * multiplier) (multiplier * 10)
          (fun d' hd' => hsmall d' (List.mem_cons_of_mem _ hd')) (hsum ▸ hfits)
        rw [hsum]
        refine ⟨?_, fun _ => ⟨hint, hmultiplier, ?_⟩⟩
        · rw [charsOf, List.map_cons, List.length_cons, sumDigits, if_pos hc, hdigit,
            u32_of_lt hmultiplier, u32_of_lt hproduct, u32_of_lt hresult]
          exact hrest
        · rw [hdigit]
          exact ⟨hproduct, hresult, hnoWrap⟩

end Decoder

theorem untilZero_digitsOf (num n : Nat) :
    Digits.untilZero (digitsOf num ++ List.replicate n 0) =
      Digits.untilZero (Nat.digits 10 num) := by
  rw [Digits.untilZero_append_zeros]
  unfold digitsOf
  split
  · next hzero =>
      rw [hzero, Digits.untilZero_zero_cons]
      simp [Digits.untilZero]
  · rfl

theorem digitsOf_lt {num d : Nat} (hd : d ∈ digitsOf num) : d < 10 := by
  unfold digitsOf at hd
  split at hd
  · obtain rfl := List.mem_singleton.mp hd
    omega
  · exact Nat.digits_lt_base (by omega) hd

-- The encoder writes PAGE_HEADER_SIZE characters and nothing behind them, and the decoder's
-- integers do not wrap; but the first digit zero looks like padding, so the number comes back
-- exactly when it has none. The number zero has no digits.
theorem header_round_trip_iff {num : Nat} (hnum : num < 2 ^ 32) {len : List UInt8}
    (hlen : PAGE_HEADER_SIZE ≤ len.length) : ∃ header : List UInt8,
      header.length = PAGE_HEADER_SIZE ∧
      convertUnsignedIntToString num len = some (header ++ len.drop PAGE_HEADER_SIZE) ∧
      NoWrap PAGE_HEADER_SIZE header 0 1 ∧
      (convertStringToUnsignedInt header = some num ↔ 0 ∉ Nat.digits 10 num) := by
  have hk := digitsOf_length hnum
  have huntil := untilZero_digitsOf num (PAGE_HEADER_SIZE - (digitsOf num).length)
  have hle := Digits.ofDigits_untilZero_le 10 (Nat.digits 10 num)
  rw [Nat.ofDigits_digits] at hle
  generalize hdigits : digitsOf num ++
    List.replicate (PAGE_HEADER_SIZE - (digitsOf num).length) 0 = digits at huntil
  have hsize : digits.length = PAGE_HEADER_SIZE := by
    rw [← hdigits, List.length_append, List.length_replicate]
    omega
  have hsmall : ∀ d ∈ digits, d < 10 := by
    rw [← hdigits]
    intro d hd
    rcases List.mem_append.mp hd with hd | hd
    · exact digitsOf_lt hd
    · rw [List.eq_of_mem_replicate hd]
      omega
  obtain ⟨hsum, hnoWrap⟩ := sumDigits_charsOf 0 1 hsmall (by rw [huntil]; omega)
  rw [hsize] at hsum hnoWrap
  refine ⟨charsOf digits, by simp [charsOf, hsize], ?_, hnoWrap, ?_⟩
  · rw [← hdigits]
    exact convertUnsignedIntToString_eq hnum hlen
  · unfold convertStringToUnsignedInt
    rw [show (1 : Nat) = u32 1 from rfl, hsum, huntil, Option.some_inj, Nat.zero_add, Nat.one_mul]
    exact Digits.ofDigits_untilZero_eq_iff (by omega) num

theorem header_round_trip_4294967295 : ∃ header : List UInt8,
    convertUnsignedIntToString 4294967295 (List.replicate 10 0) = some header ∧
      convertStringToUnsignedInt header = some 4294967295 := by
  have hlen : PAGE_HEADER_SIZE ≤ (List.replicate 10 (0 : UInt8)).length := by decide
  obtain ⟨header, -, hwritten, -, hread⟩ := header_round_trip_iff
    (show 4294967295 < 2 ^ 32 by decide) hlen
  have hrest : (List.replicate 10 (0 : UInt8)).drop PAGE_HEADER_SIZE = [] := rfl
  rw [hrest, List.append_nil] at hwritten
  exact ⟨header, hwritten, hread.mpr (by norm_num)⟩

-- The 105 comes back as 5.
theorem header_loses_105 : ∃ header : List UInt8,
    convertUnsignedIntToString 105 (List.replicate 10 0) = some header ∧
      convertStringToUnsignedInt header = some 5 :=
  ⟨charsOf [5, 0, 1, 0, 0, 0, 0, 0, 0, 0], by decide +kernel, by decide⟩

end UserPageCache.PageCache
