import Mathlib
import AccuAsm.Image

/-!
# Numbers, written and read

Numbers are written in decimal and read in any base, up to 32 bits.  What is written
is read back, as far as 32 bits go.

There are two groups.

* Digits.  `decimal` writes digits and a sign and nothing else (`mem_decimal`), and no
  leading zero (`inBase_eq_cons`).
* Reading.  `ofDigits?_inBase` reads digits, and `Image.number?_decimal` a signed number of
  a listing: it has no mark of a base, no underscore, and a zero in front only if it is
  zero.
-/

namespace AccuAsm

namespace Numeral

/-! ## Digits -/

/-- The bytes of the decimal digits. -/
def IsDecimal (byte : UInt8) : Prop := 48 ≤ byte.toNat ∧ byte.toNat ≤ 57

instance (byte : UInt8) : Decidable (IsDecimal byte) :=
  inferInstanceAs (Decidable (48 ≤ byte.toNat ∧ byte.toNat ≤ 57))

theorem toNat_digit {value : Nat} (h : value < 10) : (digit value).toNat = 48 + value := by
  rw [digit, if_pos h, UInt8.toNat_ofNat']
  omega

theorem isDecimal_digit {value : Nat} (h : value < 10) : IsDecimal (digit value) := by
  have := toNat_digit h
  unfold IsDecimal
  omega

theorem mem_inBase {n : Nat} {byte : UInt8} (h : byte ∈ inBase 10 n) : IsDecimal byte := by
  induction n using Nat.strong_induction_on with
  | _ n ih =>
    rw [inBase] at h
    split at h
    · next hsmall =>
      rw [List.mem_singleton.mp h]
      exact isDecimal_digit (by omega)
    · next hlarge =>
      rcases List.mem_append.mp h with h | h
      · exact ih (n / 10) (by omega) h
      · rw [List.mem_singleton.mp h]
        exact isDecimal_digit (by omega)

theorem mem_decimal {n : Int} {byte : UInt8} (h : byte ∈ decimal n) :
    byte = ascii '-' ∨ IsDecimal byte := by
  unfold decimal at h
  split at h
  · rcases List.mem_cons.mp h with h | h
    · exact .inl h
    · exact .inr (mem_inBase h)
  · exact .inr (mem_inBase h)

theorem inBase_ne_nil (n : Nat) : inBase 10 n ≠ [] := by
  rw [inBase]
  split <;> simp

theorem inBase_eq_cons {n : Nat} (h : 0 < n) :
    ∃ first rest, inBase 10 n = first :: rest ∧ first ≠ ascii '0' := by
  induction n using Nat.strong_induction_on with
  | _ n ih =>
    rw [inBase]
    split
    · next hsmall =>
      refine ⟨digit n, [], rfl, fun heq => ?_⟩
      have hzero : (ascii '0').toNat = 48 := by decide
      have := @toNat_digit n (by omega)
      rw [heq] at this
      omega
    · next hlarge =>
      obtain ⟨first, rest, hfront, hfirst⟩ := ih (n / 10) (by omega) (by omega)
      exact ⟨first, rest ++ [digit (n % 10)], by rw [hfront, List.cons_append], hfirst⟩

/-! ## Reading -/

theorem digitValue?_digit {value : Nat} (h : value < 10) :
    digitValue? (digit value) = some value := by
  have hdigit := toNat_digit h
  have hlow : ascii '0' ≤ digit value := by
    apply UInt8.le_iff_toNat_le.mpr
    rw [hdigit]
    show 48 ≤ 48 + value
    omega
  have hhigh : digit value ≤ ascii '9' := by
    apply UInt8.le_iff_toNat_le.mpr
    rw [hdigit]
    show 48 + value ≤ 57
    omega
  rw [digitValue?, if_pos (by simp [hlow, hhigh]), hdigit, Nat.add_sub_cancel_left]

theorem shiftIn_digit {value next : Nat} (h : next < 10) :
    shiftIn 10 (some value) (digit next) = some (min ceiling (value * 10 + next)) := by
  simp [shiftIn, digitValue?_digit h, h]

theorem ofDigits?_inBase (n : Nat) : ofDigits? 10 (inBase 10 n) = some (min ceiling n) := by
  unfold ofDigits?
  induction n using Nat.strong_induction_on with
  | _ n ih =>
    rw [inBase]
    split
    · next hsmall =>
      rw [List.foldl_cons, List.foldl_nil, shiftIn_digit (by omega), Nat.zero_mul, Nat.zero_add]
    · next hlarge =>
      rw [List.foldl_append, ih (n / 10) (by omega), List.foldl_cons, List.foldl_nil,
        shiftIn_digit (by omega), min_ceiling_step _ _ _ (by omega), Nat.div_add_mod' n 10]

theorem splitSign_decimal (n : Int) :
    splitSign (decimal n) = (decide (n < 0), inBase 10 n.natAbs) := by
  unfold decimal
  split
  · next hneg => simp [splitSign, hneg]
  · next hpos =>
    -- a number without a sign starts with a digit
    have hfirst {byte : UInt8} (h : byte ∈ inBase 10 n.natAbs) :
        byte ≠ ascii '-' ∧ byte ≠ ascii '+' := by
      have hdigit := mem_inBase h
      constructor
      · rintro rfl
        exact absurd hdigit (by decide)
      · rintro rfl
        exact absurd hdigit (by decide)
    cases hdigits : inBase 10 n.natAbs with
    | nil => simp [splitSign, hpos]
    | cons byte rest =>
      obtain ⟨hminus, hplus⟩ := hfirst (hdigits ▸ List.mem_cons_self)
      rw [splitSign, if_neg hminus, if_neg hplus]
      simp [hpos]

end Numeral

namespace Image

open Numeral

theorem dropUnderscores?_inBase (n : Nat) :
    dropUnderscores? false (inBase 10 n) = some (inBase 10 n) := by
  have hsingle : (inBase 10 n).splitOn (ascii '_') = [inBase 10 n] := by
    apply List.splitOnP_eq_singleton
    intro byte hbyte
    rw [beq_eq_false_iff_ne]
    rintro rfl
    exact absurd (mem_inBase hbyte) (by decide)
  rw [dropUnderscores?, hsingle]
  simp [inBase_ne_nil n]

theorem splitBase_inBase {n : Nat} (h : 0 < n) :
    splitBase (inBase 10 n) = (10, false, inBase 10 n) := by
  obtain ⟨first, rest, hdigits, hfirst⟩ := inBase_eq_cons h
  rw [hdigits]
  match rest with
  | [] | [_] | _ :: _ :: _ => simp only [splitBase, if_neg hfirst]

theorem signed32?_natAbs (n : Int) :
    signed32? (decide (n < 0)) (min ceiling n.natAbs) =
      if -2147483648 ≤ n ∧ n ≤ 2147483647 then some n else none := by
  have hceiling : ceiling = 18446744073709551616 := rfl
  unfold signed32?
  by_cases hsmall : n.natAbs ≤ ceiling
  · -- below the ceiling the number is its sign and its magnitude
    have hn : (if decide (n < 0) = true then -((min ceiling n.natAbs : Nat) : Int)
        else ((min ceiling n.natAbs : Nat) : Int)) = n := by
      rw [Nat.min_eq_right hsmall]
      split
      · next hneg =>
        have := of_decide_eq_true hneg
        omega
      · next hpos =>
        have := of_decide_eq_false (Bool.not_eq_true _ ▸ hpos)
        omega
    rw [hn]
  · rw [Nat.min_eq_left (by omega), if_neg, if_neg]
    · omega
    · split <;> omega

/-- A number is read back if it has 32 bits. -/
theorem number?_decimal (n : Int) :
    number? (decimal n) = if -2147483648 ≤ n ∧ n ≤ 2147483647 then some n else none := by
  by_cases hzero : n = 0
  · have hdigits : decimal 0 = [ascii '0'] := by
      rw [decimal, inBase]
      rfl
    rw [hzero, hdigits]
    decide
  · rw [number?, splitSign_decimal]
    show (dropUnderscores? (splitBase (inBase 10 n.natAbs)).2.1
        (splitBase (inBase 10 n.natAbs)).2.2 >>= ofDigits? (splitBase (inBase 10 n.natAbs)).1 >>=
      signed32? (decide (n < 0))) = _
    rw [splitBase_inBase (by omega), dropUnderscores?_inBase]
    show (ofDigits? 10 (inBase 10 n.natAbs) >>= signed32? (decide (n < 0))) = _
    rw [ofDigits?_inBase]
    exact signed32?_natAbs n

end Image

end AccuAsm
