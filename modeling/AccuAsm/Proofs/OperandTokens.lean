import AccuAsm.Scope
import AccuAsm.Proofs.Literals
import AccuAsm.Proofs.Steps

/-!
# Operands, written and read

A value is written with the mark of its addressing mode and its number in decimal.  A token can
spell a number in many ways, with marks of bases, leading zeros and signs, but each value has one
token of its own.

There are two groups.

* Numbers.  `Literal.parse_decimal` reads a number that was written in decimal, and
  `Numeral.ofWord_injective` says that different machine numbers are written differently.
* Operands.  `Value.ofToken_token` reads a value back, `Value.ofToken_ok` says which values a token
  can denote, and `Value.token_inj` that they have different tokens.
-/

namespace AccuAsm

/-! ## Numbers -/

namespace Numeral

theorem denotes_inBase (n : Nat) : Denotes 10 (inBase 10 n) n := by
  have hdigit {value : Nat} (h : value < 10) : IsDigit 10 (digit value) value :=
    (isDigit_iff (by decide)).mpr ⟨digitValue?_digit h, h⟩
  induction n using Nat.strong_induction_on with
  | _ n ih =>
    rw [inBase]
    split
    · next hsmall =>
      have hless : n < 10 := by omega
      exact denotes_concat.mpr ⟨0, n, denotes_nil.mpr rfl, hdigit hless, by omega⟩
    · next hlarge =>
      have hless : n % 10 < 10 := by omega
      exact denotes_concat.mpr ⟨n / 10, n % 10, ih (n / 10) (by omega), hdigit hless, by omega⟩

theorem signed_decimal (n : Int) : Signed (Digits 10) (decimal n) n := by
  have hdigits : Digits 10 (inBase 10 n.natAbs) n.natAbs :=
    ⟨inBase_ne_nil n.natAbs, denotes_inBase n.natAbs⟩
  unfold decimal
  split
  · next hneg =>
    have hn : n = -(n.natAbs : Int) := by omega
    rw [hn, Int.natAbs_neg, Int.natAbs_natCast]
    exact .minus hdigits
  · next hpos =>
    have hn : n = (n.natAbs : Int) := by omega
    rw [hn, Int.natAbs_natCast]
    exact .plain hdigits

/-- Different machine numbers are written differently: their magnitudes stay below the ceiling, so
reading the digits tells them apart. -/
theorem ofWord_injective : Function.Injective ofWord := by
  intro a b h
  have hsplit := congrArg splitSign h
  rw [ofWord, ofWord, splitSign_decimal, splitSign_decimal, Prod.mk.injEq, decide_eq_decide]
    at hsplit
  obtain ⟨hsign, hdigits⟩ := hsplit
  have hread := congrArg (ofDigits? 10) hdigits
  rw [ofDigits?_inBase, ofDigits?_inBase, Option.some.injEq] at hread
  have hceiling : ceiling = 18446744073709551616 := rfl
  have ha := Int64.toInt_lt a
  have ha' := Int64.le_toInt a
  have hb := Int64.toInt_lt b
  have hb' := Int64.le_toInt b
  apply Int64.toInt_inj.mp
  omega

/-- A number starts with no mark: a mark is neither a sign nor a digit. -/
theorem stripPrefix?_ofWord (n : Int64) : (ofWord n).stripPrefix? "&" = none ∧
    (ofWord n).stripPrefix? "~" = none ∧ (ofWord n).stripPrefix? "$" = none := by
  have hnone {mark : UInt8} (hmark : mark ≠ ascii '-' ∧ ¬IsDecimal mark) :
      (ofWord n).stripPrefix? [mark] = none := by
    rw [Option.eq_none_iff_forall_ne_some]
    intro rest hrest
    rw [Text.stripPrefix?, List.isPrefixOf?_eq_some_iff_append_eq] at hrest
    have hmem : mark ∈ decimal n.toInt := by
      rw [← ofWord, ← hrest]
      exact List.mem_cons_self
    exact (mem_decimal hmem).elim hmark.1 hmark.2
  exact ⟨hnone (by decide), hnone (by decide), hnone (by decide)⟩

end Numeral

open Numeral

/-- A number in decimal is a literal of itself, if it has 32 bits. -/
theorem Literal.parse_decimal (n : Int) : parse (decimal n) = .ok n ↔ Has32Bits n := by
  have hspells : Spells (decimal n) n := .decimal (.inl rfl) (signed_decimal n)
  rw [parse_eq_ok_iff]
  exact and_iff_right hspells

/-- A literal leaves its range to the machine number that it becomes. -/
theorem Literal.has32Bits_of_parse {text : Text} {n : Int} (h : parse text = .ok n) :
    Has32Bits (Int64.ofInt n).toInt := by
  obtain ⟨_, hlow, hhigh⟩ := parse_eq_ok_iff.mp h
  rw [Int64.toInt_ofInt_of_le (by omega) (by omega)]
  exact ⟨hlow, hhigh⟩

/-! ## Operands -/

namespace Value

variable {v w : Value} {token : Text}

/-- The addressing modes that the statement language has. -/
def HasMode (v : Value) : Prop := v.kind = .immediate ∨ v.kind = .register ∨ v.kind = .ram

instance (v : Value) : Decidable v.HasMode := inferInstanceAs (Decidable (_ ∨ _ ∨ _))

/-- A token is read by its mode, and its number as a literal. -/
theorem ofToken_token_eq (hmode : v.HasMode) :
    ofToken v.token = (fun n => ⟨v.kind, Int64.ofInt n⟩) <$> Literal.parse (ofWord v.payload) := by
  obtain ⟨kind, payload⟩ := v
  obtain rfl | rfl | rfl : kind = .immediate ∨ kind = .register ∨ kind = .ram := hmode
  · obtain ⟨hcell, hregister, _⟩ := stripPrefix?_ofWord payload
    show ofToken (ofWord payload) = _
    rw [ofToken, hcell, hregister]
    rfl
  · rfl
  · rfl

/-- A value is read back if its number has 32 bits. -/
theorem ofToken_token (hmode : v.HasMode) :
    ofToken v.token = .ok v ↔ Has32Bits v.payload.toInt := by
  rw [ofToken_token_eq hmode]
  constructor
  · intro h
    obtain ⟨n, hn, hv⟩ := exists_of_map_ok h
    rw [← hv]
    exact Literal.has32Bits_of_parse hn
  · intro hrange
    rw [ofWord, (Literal.parse_decimal _).mpr hrange]
    show Except.ok (⟨v.kind, Int64.ofInt v.payload.toInt⟩ : Value) = _
    rw [Int64.ofInt_toInt]

/-- Every value that a token denotes has a mode and a number of 32 bits, however it is spelled. -/
theorem ofToken_ok (h : ofToken token = .ok v) : v.HasMode ∧ Has32Bits v.payload.toInt := by
  unfold ofToken at h
  split at h
  · obtain ⟨n, hn, hv⟩ := exists_of_bind_ok h
    rw [← Except.ok.inj hv]
    exact ⟨.inr (.inr rfl), Literal.has32Bits_of_parse hn⟩
  · split at h
    · obtain ⟨n, hn, hv⟩ := exists_of_bind_ok h
      rw [← Except.ok.inj hv]
      exact ⟨.inr (.inl rfl), Literal.has32Bits_of_parse hn⟩
    · obtain ⟨n, hn, hv⟩ := exists_of_bind_ok h
      rw [← Except.ok.inj hv]
      exact ⟨.inl rfl, Literal.has32Bits_of_parse hn⟩

/-- The beginning of a token tells its mode. -/
theorem kind_of_token (hmode : v.HasMode) :
    v.kind = if (v.token.stripPrefix? "&").isSome then .ram
      else if (v.token.stripPrefix? "~").isSome then .register else .immediate := by
  obtain ⟨kind, payload⟩ := v
  obtain rfl | rfl | rfl : kind = .immediate ∨ kind = .register ∨ kind = .ram := hmode
  · obtain ⟨hcell, hregister, _⟩ := stripPrefix?_ofWord payload
    show _ = if ((ofWord payload).stripPrefix? "&").isSome then _
      else if ((ofWord payload).stripPrefix? "~").isSome then _ else _
    rw [hcell, hregister]
    rfl
  · rfl
  · rfl

/-- No value is written as a variable. -/
theorem stripPrefix?_token (hmode : v.HasMode) : v.token.stripPrefix? "$" = none := by
  obtain ⟨kind, payload⟩ := v
  obtain rfl | rfl | rfl : kind = .immediate ∨ kind = .register ∨ kind = .ram := hmode
  · exact (stripPrefix?_ofWord payload).2.2
  · rfl
  · rfl

/-- Values with different modes or numbers have different tokens, whatever the range. -/
theorem token_inj (hv : v.HasMode) (hw : w.HasMode) : v.token = w.token ↔ v = w := by
  refine ⟨fun h => ?_, congrArg token⟩
  have hkind : v.kind = w.kind := by
    rw [kind_of_token hv, kind_of_token hw, h]
  rw [token, token, hkind] at h
  have hpayload : v.payload = w.payload := ofWord_injective (List.append_cancel_left h)
  obtain ⟨kind, payload⟩ := v
  subst hkind hpayload
  rfl

end Value

theorem ScopeTable.resolve_eq_ofToken {t : ScopeTable} {scope : Nat} {parents : Bool} {token : Text}
    (h : token.stripPrefix? "$" = none) :
    t.resolve scope token parents = Value.ofToken token := by
  rw [resolve, h]

/-- Operands are written and read back in every scope.  A value in one of the modes is read back
from its token exactly if its number has 32 bits.  Whatever a token other than a variable denotes
is such a value, so its own token denotes it again.  Values in different modes or with different
numbers have different tokens, also outside 32 bits. -/
theorem ScopeTable.operand_round_trip (t : ScopeTable) (scope : Nat) (parents : Bool) :
    (∀ v : Value, v.HasMode →
      (t.resolve scope v.token parents = .ok v ↔
        -2 ^ 31 ≤ v.payload.toInt ∧ v.payload.toInt ≤ 2 ^ 31 - 1)) ∧
    (∀ (token : Text) (v : Value), ¬("$" : Text) <+: token → t.resolve scope token parents = .ok v →
      v.HasMode ∧ t.resolve scope v.token parents = .ok v) ∧
    ∀ v w : Value, v.HasMode → w.HasMode → (v.token = w.token ↔ v = w) := by
  have hread {v : Value} (hmode : v.HasMode) :
      t.resolve scope v.token parents = .ok v ↔ Has32Bits v.payload.toInt := by
    rw [resolve_eq_ofToken (Value.stripPrefix?_token hmode)]
    exact Value.ofToken_token hmode
  refine ⟨fun v hmode => hread hmode, ?_, fun v w hv hw => Value.token_inj hv hw⟩
  intro token v hvariable h
  have hnone : token.stripPrefix? "$" = none := by
    rw [Option.eq_none_iff_forall_ne_some]
    intro name hname
    exact hvariable ⟨name, List.isPrefixOf?_eq_some_iff_append_eq.mp hname⟩
  rw [resolve_eq_ofToken hnone] at h
  obtain ⟨hmode, hrange⟩ := Value.ofToken_ok h
  exact ⟨hmode, (hread hmode).mpr hrange⟩

-- one value in three spellings, the last of which is its token
example : Value.ofToken "&0d-007" = .ok (.cell (-7)) ∧ Value.ofToken "&-07" = .ok (.cell (-7)) ∧
    Value.ofToken "&-7" = .ok (.cell (-7)) ∧ (Value.cell (-7)).token = "&-7" :=
  ⟨rfl, rfl, rfl, by cbv⟩

end AccuAsm
