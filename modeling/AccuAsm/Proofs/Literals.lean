import AccuAsm.Literal
import AccuAsm.Proofs.Numerals

/-!
# The grammar of literals

Which texts are numbers of the statement language, and which number each of them is.  The
grammar knows nothing of 32 bits or of ceilings: it says what a text denotes, however long
it is.

There are three groups.

* Digits.  `Numeral.Denotes` is the number of a run of digits in positional notation, and
  `Numeral.ofDigits?_eq_some_iff` says that reading gives it, up to the ceiling.
* Signs.  `Numeral.Signed` puts an optional sign in front of a number, and
  `Numeral.signed_iff` takes it away again.
* Literals.  `Literal.Spells` is the grammar.  `Literal.spells_iff` reads it along the mark of
  a literal, and `Literal.literal_grammar` says that the reader accepts just what it spells.
-/

namespace AccuAsm

theorem exists_of_mem_forall₂ {α β : Type} {R : α → β → Prop} {l : List α} {found : List β} {a : α}
    (h : List.Forall₂ R l found) (ha : a ∈ l) : ∃ b ∈ found, R a b := by
  induction h with
  | nil => cases ha
  | cons hfirst _ ih =>
    rcases List.mem_cons.mp ha with rfl | ha
    · exact ⟨_, List.mem_cons_self, hfirst⟩
    · obtain ⟨b, hb, hab⟩ := ih ha
      exact ⟨b, List.mem_cons_of_mem _ hb, hab⟩

namespace Numeral

/-! ## Digits -/

/-- The digits in the order of their values. -/
def smallDigits : Text := "0123456789abcdef"

/-- The same digits, with capital letters. -/
def capitalDigits : Text := "0123456789ABCDEF"

/-- A byte is the digit of a base, up to sixteen, with a value. -/
def IsDigit (base : Nat) (byte : UInt8) (value : Nat) : Prop :=
  value < base ∧ (smallDigits[value]? = some byte ∨ capitalDigits[value]? = some byte)

/-- A run of digits denotes a number; the last digit counts least. -/
def Denotes (base : Nat) (digits : Text) (n : Nat) : Prop :=
  ∃ values, List.Forall₂ (IsDigit base) digits.reverse values ∧ n = Nat.ofDigits base values

/-- At least one digit, and the number that they denote. -/
def Digits (base : Nat) (digits : Text) (n : Nat) : Prop := digits ≠ [] ∧ Denotes base digits n

variable {base n value : Nat} {byte : UInt8} {digits text : Text}

theorem digitValue?_of_getElem?
    (h : smallDigits[value]? = some byte ∨ capitalDigits[value]? = some byte) :
    digitValue? byte = some value := by
  have hvalue : value < 16 := by
    rcases h with h | h <;> exact (List.getElem?_eq_some_iff.mp h).1
  have hsmall : ∀ v < 16, smallDigits[v]?.bind digitValue? = some v := by decide
  have hcapital : ∀ v < 16, capitalDigits[v]?.bind digitValue? = some v := by decide
  rcases h with h | h
  · simpa [h] using hsmall value hvalue
  · simpa [h] using hcapital value hvalue

theorem getElem?_of_digitValue? (h : digitValue? byte = some value) (hvalue : value < 16) :
    smallDigits[value]? = some byte ∨ capitalDigits[value]? = some byte := by
  have hsmall : ∀ v < 16, smallDigits[v]? = some (digit v) := by decide
  have hcapital : ∀ v < 16, 10 ≤ v → capitalDigits[v]? = some (UInt8.ofNat (55 + v)) := by decide
  have hbyte (m : Nat) (hm : byte.toNat = m) : UInt8.ofNat m = byte := by
    rw [← hm, UInt8.ofNat_toNat]
  unfold digitValue? at h
  simp only [Bool.and_eq_true, decide_eq_true_eq, UInt8.le_iff_toNat_le] at h
  split_ifs at h with hdecimal hletter hupper
  · have hzero : (ascii '0').toNat = 48 := by decide
    have hnine : (ascii '9').toNat = 57 := by decide
    have hvalue' : byte.toNat - 48 = value := Option.some.inj h
    left
    rw [hsmall value hvalue, digit, if_pos (by omega), hbyte _ (by omega)]
  · have ha : (ascii 'a').toNat = 97 := by decide
    have hvalue' : byte.toNat - 87 = value := Option.some.inj h
    left
    rw [hsmall value hvalue, digit, if_neg (by omega), hbyte _ (by omega)]
  · have ha : (ascii 'A').toNat = 65 := by decide
    have hvalue' : byte.toNat - 55 = value := Option.some.inj h
    right
    rw [hcapital value hvalue (by omega), hbyte _ (by omega)]

/-- A digit is what the reader takes for one. -/
theorem isDigit_iff (hbase : base ≤ 16) :
    IsDigit base byte value ↔ digitValue? byte = some value ∧ value < base := by
  constructor
  · rintro ⟨hvalue, hbyte⟩
    exact ⟨digitValue?_of_getElem? hbyte, hvalue⟩
  · rintro ⟨hbyte, hvalue⟩
    exact ⟨hvalue, getElem?_of_digitValue? hbyte (by omega)⟩

theorem denotes_nil : Denotes base [] n ↔ n = 0 := by
  simp [Denotes]

theorem denotes_concat : Denotes base (digits ++ [byte]) n ↔
    ∃ m value, Denotes base digits m ∧ IsDigit base byte value ∧ n = m * base + value := by
  unfold Denotes
  rw [List.reverse_append, List.reverse_singleton, List.singleton_append]
  constructor
  · rintro ⟨values, hvalues, rfl⟩
    obtain ⟨value, rest, hvalue, hrest, rfl⟩ := List.forall₂_cons_left_iff.mp hvalues
    exact ⟨_, value, ⟨rest, hrest, rfl⟩, hvalue, by rw [Nat.ofDigits_cons]; ring⟩
  · rintro ⟨m, value, ⟨rest, hrest, rfl⟩, hvalue, rfl⟩
    exact ⟨value :: rest, .cons hvalue hrest, by rw [Nat.ofDigits_cons]; ring⟩

/-- Every byte of a number is a digit. -/
theorem Denotes.isDigit (h : Denotes base digits n) (hbyte : byte ∈ digits) :
    ∃ value, IsDigit base byte value := by
  obtain ⟨values, hvalues, _⟩ := h
  obtain ⟨value, _, hdigit⟩ := exists_of_mem_forall₂ hvalues (List.mem_reverse.mpr hbyte)
  exact ⟨value, hdigit⟩

/-- A run of digits is read as the number that it denotes, up to the ceiling. -/
theorem ofDigits?_eq_some_iff (hpos : 0 < base) (hbase : base ≤ 16) (m : Nat) :
    ofDigits? base digits = some m ↔ ∃ n, Denotes base digits n ∧ m = min ceiling n := by
  induction digits using List.reverseRecOn generalizing m with
  | nil => simp [ofDigits?, denotes_nil, eq_comm]
  | append_singleton digits byte ih =>
    have hstep : ofDigits? base (digits ++ [byte]) = shiftIn base (ofDigits? base digits) byte := by
      rw [ofDigits?, List.foldl_append]
      rfl
    rw [hstep]
    constructor
    · intro h
      simp only [shiftIn, Option.bind_eq_bind, Option.bind_eq_some_iff] at h
      obtain ⟨soFar, hsoFar, value, hvalue, h⟩ := h
      split_ifs at h with hless
      obtain ⟨n, hn, rfl⟩ := (ih soFar).mp hsoFar
      refine ⟨n * base + value, denotes_concat.mpr ⟨n, value, hn, ?_, rfl⟩, ?_⟩
      · exact (isDigit_iff hbase).mpr ⟨hvalue, hless⟩
      · rw [← Option.some.inj h, min_ceiling_step n base value hpos]
    · rintro ⟨_, hdenotes, rfl⟩
      obtain ⟨n, value, hn, hdigit, rfl⟩ := denotes_concat.mp hdenotes
      obtain ⟨hvalue, hless⟩ := (isDigit_iff hbase).mp hdigit
      rw [(ih _).mpr ⟨n, hn, rfl⟩]
      simp [shiftIn, hvalue, hless, min_ceiling_step n base value hpos]

/-! ## Signs -/

/-- A number with an optional sign in front of it. -/
inductive Signed (unsigned : Text → Nat → Prop) : Text → Int → Prop where
  | plain {text : Text} {n : Nat} (h : unsigned text n) : Signed unsigned text n
  | plus {text : Text} {n : Nat} (h : unsigned text n) : Signed unsigned (ascii '+' :: text) n
  | minus {text : Text} {n : Nat} (h : unsigned text n) : Signed unsigned (ascii '-' :: text) (-n)

/-- The range of 32 bits. -/
def Has32Bits (n : Int) : Prop := -2 ^ 31 ≤ n ∧ n ≤ 2 ^ 31 - 1

/-- A magnitude with its sign. -/
def withSign (negative : Bool) (magnitude : Nat) : Int := if negative then -magnitude else magnitude

/-- A sign is taken off, if the numbers themselves never start with one. -/
theorem signed_iff {unsigned : Text → Nat → Prop}
    (hplain : ∀ text n, unsigned text n → splitSign text = (false, text)) {n : Int} :
    Signed unsigned text n ↔
      ∃ m, unsigned (splitSign text).2 m ∧ n = withSign (splitSign text).1 m := by
  constructor
  · rintro (h | h | h)
    · rw [hplain _ _ h]
      exact ⟨_, h, rfl⟩
    · exact ⟨_, h, rfl⟩
    · exact ⟨_, h, rfl⟩
  · rintro ⟨m, h, rfl⟩
    match text with
    | [] => exact .plain h
    | byte :: rest =>
      simp only [splitSign] at h ⊢
      split_ifs at h ⊢ with hminus hplus
      · exact hminus ▸ .minus h
      · exact hplus ▸ .plus h
      · exact .plain h

/-- The ceiling is out of range, so it hides nothing. -/
theorem signed32?_eq_some_iff (negative : Bool) (m : Nat) (n : Int) :
    signed32? negative (min ceiling m) = some n ↔ n = withSign negative m ∧ Has32Bits n := by
  have hceiling : ceiling = 18446744073709551616 := rfl
  unfold signed32? withSign Has32Bits
  dsimp only
  rcases Nat.le_total m ceiling with hsmall | hlarge
  · rw [Nat.min_eq_right hsmall]
    split_ifs with hsign hrange hrange <;> simp <;> omega
  · rw [Nat.min_eq_left hlarge]
    split_ifs with hsign hrange hrange <;> simp <;> omega

theorem Digits.splitSign (h : Digits base digits n) (hbase : base ≤ 16) :
    splitSign digits = (false, digits) := by
  obtain ⟨hne, hdenotes⟩ := h
  obtain ⟨byte, rest, rfl⟩ := List.exists_cons_of_ne_nil hne
  obtain ⟨value, hdigit⟩ := hdenotes.isDigit List.mem_cons_self
  obtain ⟨hvalue, _⟩ := (isDigit_iff hbase).mp hdigit
  have hplus : digitValue? (ascii '+') = none := by decide
  have hminus : digitValue? (ascii '-') = none := by decide
  rw [Numeral.splitSign, if_neg, if_neg]
  · rintro rfl
    rw [hplus] at hvalue
    cases hvalue
  · rintro rfl
    rw [hminus] at hvalue
    cases hvalue

/-- An optional sign and digits are read as the number that they denote, if it has 32 bits. -/
theorem signed?_eq_some_iff (hpos : 0 < base) (hbase : base ≤ 16) (n : Int) :
    signed? base text = some n ↔ Signed (Digits base) text n ∧ Has32Bits n := by
  rw [signed_iff fun _ _ h => h.splitSign hbase]
  unfold signed?
  obtain ⟨negative, digits⟩ := splitSign text
  cases digits with
  | nil => simp [Digits]
  | cons byte rest =>
    simp only [Option.bind_eq_bind, Option.bind_eq_some_iff, ofDigits?_eq_some_iff hpos hbase]
    constructor
    · rintro ⟨_, ⟨m, hm, rfl⟩, hn⟩
      obtain ⟨hsign, hrange⟩ := (signed32?_eq_some_iff negative m n).mp hn
      exact ⟨⟨m, ⟨List.cons_ne_nil _ _, hm⟩, hsign⟩, hrange⟩
    · rintro ⟨⟨m, ⟨_, hm⟩, hsign⟩, hrange⟩
      exact ⟨_, ⟨m, hm, rfl⟩, (signed32?_eq_some_iff negative m n).mpr ⟨hsign, hrange⟩⟩

end Numeral

/-! ## Literals -/

namespace Literal

open Numeral

variable {text body : Text} {n : Int}

/-- The texts that are literals, and their numbers. -/
inductive Spells : Text → Int → Prop where
  /-- Binary digits behind `0b`. -/
  | binary {digits : Text} {n : Nat} (h : Digits 2 digits n) : Spells ("0b" ++ digits) n
  /-- Hexadecimal digits behind `0x`. -/
  | hexadecimal {digits : Text} {n : Nat} (h : Digits 16 digits n) : Spells ("0x" ++ digits) n
  /-- Decimal digits, with an optional sign, behind `0d` or without a mark. -/
  | decimal {mark body : Text} {n : Int} (hmark : mark = "" ∨ mark = "0d")
      (h : Signed (Digits 10) body n) : Spells (mark ++ body) n

/-- What the part behind the mark denotes in the base that the mark selects. -/
def Body (base : Nat) (body : Text) (n : Int) : Prop :=
  if base = 10 then Signed (Digits 10) body n else ∃ m : Nat, Digits base body m ∧ n = m

/-- Only the first byte of a decimal number is no digit. -/
theorem isDigit_of_mem_tail (h : Signed (Digits 10) text n) {byte : UInt8}
    (hbyte : byte ∈ text.tail) :
    ∃ value, IsDigit 10 byte value := by
  rcases h with h | h | h
  · exact h.2.isDigit (List.mem_of_mem_tail hbyte)
  · exact h.2.isDigit hbyte
  · exact h.2.isDigit hbyte

/-- A decimal number does not start with the mark of a base. -/
theorem stripPrefix?_eq_none (h : Signed (Digits 10) text n) {letter : UInt8}
    (hletter : ∀ value < 10, digitValue? letter ≠ some value) :
    text.stripPrefix? [ascii '0', letter] = none := by
  rw [Option.eq_none_iff_forall_ne_some]
  intro rest hrest
  rw [Text.stripPrefix?, List.isPrefixOf?_eq_some_iff_append_eq] at hrest
  have hmem : letter ∈ text.tail := by simp [← hrest]
  obtain ⟨value, hdigit⟩ := isDigit_of_mem_tail h hmem
  obtain ⟨hvalue, hless⟩ := (isDigit_iff (by decide)).mp hdigit
  exact hletter value hless hvalue

theorem split_of_signed (h : Signed (Digits 10) text n) : split text = (10, text) := by
  have hb : text.stripPrefix? "0b" = none := stripPrefix?_eq_none h (by decide)
  have hx : text.stripPrefix? "0x" = none := stripPrefix?_eq_none h (by decide)
  have hd : text.stripPrefix? "0d" = none := stripPrefix?_eq_none h (by decide)
  simp only [split, hb, hx, hd]

/-- The grammar, read along the mark of a literal. -/
theorem spells_iff : Spells text n ↔ Body (split text).1 (split text).2 n := by
  constructor
  · rintro (h | h | ⟨rfl | rfl, h⟩)
    · exact ⟨_, h, rfl⟩
    · exact ⟨_, h, rfl⟩
    · show Body (split _).1 (split _).2 n
      rw [show ("" : Text) ++ _ = _ from List.nil_append _, split_of_signed h]
      exact h
    · exact h
  · intro h
    have hprefix {mark rest : Text} (hrest : text.stripPrefix? mark = some rest) :
        mark ++ rest = text :=
      List.isPrefixOf?_eq_some_iff_append_eq.mp hrest
    unfold split at h
    split at h
    · next body hbody =>
      obtain ⟨m, hm, rfl⟩ := h
      exact hprefix hbody ▸ .binary hm
    · split at h
      · next body hbody =>
        obtain ⟨m, hm, rfl⟩ := h
        exact hprefix hbody ▸ .hexadecimal hm
      · split at h
        · next body hbody => exact hprefix hbody ▸ .decimal (.inr rfl) h
        · exact .decimal (.inl rfl) h

theorem base_of_split (text : Text) :
    (split text).1 = 10 ∨ (split text).1 = 2 ∨ (split text).1 = 16 := by
  unfold split
  split
  · exact .inr (.inl rfl)
  · split
    · exact .inr (.inr rfl)
    · split <;> exact .inl rfl

theorem splitSign_eq_iff (text : Text) : splitSign text = (false, text) ↔ hasSign text = false := by
  match text with
  | [] => simp [splitSign, hasSign]
  | byte :: rest =>
    simp only [splitSign, hasSign]
    split_ifs with hminus hplus <;> simp_all

/-- Digits and nothing else, in a base that allows no sign. -/
theorem signed?_unsigned {base : Nat} (hpos : 0 < base) (hbase : base ≤ 16)
    (hsign : hasSign body = false) :
    signed? base body = some n ↔ (∃ m : Nat, Digits base body m ∧ n = m) ∧ Has32Bits n := by
  rw [signed?_eq_some_iff hpos hbase, signed_iff fun _ _ h => h.splitSign hbase,
    (splitSign_eq_iff body).mpr hsign]
  rfl

/-- What the reader does behind the mark. -/
theorem parse_eq_ok_iff : parse text = .ok n ↔ Spells text n ∧ Has32Bits n := by
  have hbase := base_of_split text
  rw [spells_iff]
  unfold parse
  generalize split text = found at hbase ⊢
  obtain ⟨base, body⟩ := found
  dsimp only at hbase ⊢
  by_cases hempty : body = []
  · -- neither grammar has a literal without digits
    subst hempty
    have hnone : ¬Body base [] n := by
      unfold Body
      split_ifs
      · rintro (h | h | h)
        exact h.1 rfl
      · rintro ⟨m, h, _⟩
        exact h.1 rfl
    simp [hnone]
  rw [if_neg (by simpa using hempty)]
  rcases hbase with rfl | hother
  · have hread : Body 10 body n ∧ Has32Bits n ↔ signed? 10 body = some n :=
      (signed?_eq_some_iff (by decide) (by decide) n).symm
    rw [if_neg (by simp), hread]
    cases signed? 10 body <;> simp
  · have hten : base ≠ 10 := by omega
    rw [Body, if_neg hten]
    cases hsign : hasSign body with
    | true =>
      rw [if_pos ⟨hten, rfl⟩]
      refine iff_of_false (by simp) ?_
      rintro ⟨⟨m, h, _⟩, _⟩
      have hplain := (splitSign_eq_iff body).mp (h.splitSign (by omega))
      rw [hsign] at hplain
      cases hplain
    | false =>
      rw [if_neg (by simp), ← signed?_unsigned (by omega) (by omega) hsign]
      cases signed? base body <;> simp

/-- Whatever is wrong with a literal, the diagnostic is about the whole of it. -/
theorem parse_error {d : Diagnostic} (h : parse text = .error d) :
    d.category = .malformedLiteral ∧ d.token = text := by
  unfold parse at h
  dsimp only at h
  split_ifs at h
  · cases h
    exact ⟨rfl, rfl⟩
  · cases h
    exact ⟨rfl, rfl⟩
  · split at h
    · cases h
    · cases h
      exact ⟨rfl, rfl⟩

/-- A literal is read if and only if the grammar spells a number of 32 bits with it, and then it is
this number.  Every other text is refused as a malformed literal, and the diagnostic has all of
the text as its token. -/
theorem literal_grammar (text : Text) :
    (∀ n, parse text = .ok n ↔ Spells text n ∧ -2 ^ 31 ≤ n ∧ n ≤ 2 ^ 31 - 1) ∧
    ((¬∃ n, Spells text n ∧ -2 ^ 31 ≤ n ∧ n ≤ 2 ^ 31 - 1) →
      ∃ d, parse text = .error d ∧ d.category = .malformedLiteral ∧ d.token = text) := by
  refine ⟨fun n => parse_eq_ok_iff, ?_⟩
  intro hnone
  cases hparse : parse text with
  | ok n => exact absurd ⟨n, parse_eq_ok_iff.mp hparse⟩ hnone
  | error d => exact ⟨d, rfl, parse_error hparse⟩

end Literal

end AccuAsm
