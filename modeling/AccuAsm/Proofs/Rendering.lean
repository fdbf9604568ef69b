import AccuAsm.Program.Workbench
import AccuAsm.Proofs.Dialogue
import AccuAsm.Proofs.Literals

/-!
# The two ways to show a program

A program is shown in two ways.  One instruction is shown as far as its addresses are known, with
question marks for the rest; the lines of the listing are made of words, and there are none as long
as a single address is missing.  Both say the same about every program, also about one that no
source leads to: with instructions that stand in it more than once or that were filled in after they
were placed, and with addresses that count from any instruction.

There are four groups.

* Places.  Addresses count from the last place of an instruction (`addressOf?_eq_some_iff`).
* Operands.  `Knows` says which operands have a number.  All others are shown as question marks
  (`knows_iff_formatOperand`) and are refused (`resolveOperand_of_not_knows`).
* Instructions.  `operandTexts` cuts the operands out of the text of an instruction, and
  `exists_of_resolve_error` finds the instruction that a program is refused for.
* Workbenches.  `Aligned` says that what stands in the program is what was drafted, and
  `Aligned.on` and `aligned_run` that all calls keep this.
-/

namespace AccuAsm

/-- A row of checks that fails does so at the first element whose check fails. -/
theorem exists_of_mapM_error {ε α β : Type} {f : α → Except ε β} {l : List α} {e : ε}
    (h : l.mapM f = .error e) :
    ∃ (k : Nat) (a : α), l[k]? = some a ∧ f a = .error e ∧
      ∀ j < k, ∀ b, l[j]? = some b → ∃ found, f b = .ok found := by
  induction l with
  | nil => cases h
  | cons a rest ih =>
    rw [List.mapM_cons] at h
    cases hfirst : f a with
    | error e' =>
      rw [hfirst] at h
      obtain rfl : e' = e := Except.error.inj h
      exact ⟨0, a, rfl, hfirst, fun j hj => absurd hj (Nat.not_lt_zero j)⟩
    | ok found =>
      rw [hfirst] at h
      cases hrest : rest.mapM f with
      | ok others =>
        rw [hrest] at h
        cases h
      | error e' =>
        rw [hrest] at h
        obtain rfl : e' = e := Except.error.inj h
        obtain ⟨k, b, hb, hfails, hfront⟩ := ih hrest
        refine ⟨k + 1, b, hb, hfails, fun j hj c hc => ?_⟩
        cases j with
        | zero => exact ⟨found, Option.some.inj hc ▸ hfirst⟩
        | succ j => exact hfront j (by omega) c hc

/-- Changing every field is changing every element of the list of fields. -/
theorem Args.toList_mapM {ε α β : Type} (f : α → Except ε β) (args : Args α) :
    toList <$> args.mapM f = args.toList.mapM f := by
  obtain ⟨left, right, dest⟩ := args
  simp only [mapM, toList, List.mapM_cons, List.mapM_nil]
  cases f left with
  | error e => rfl
  | ok a =>
    cases f right with
    | error e => rfl
    | ok b => cases f dest <;> rfl

namespace Program

variable {p : Program} {i : Instr} {operand : Operand} {serial index : Nat}

/-! ## Places -/

/-- The last place of an instruction. -/
def IsLastPlace (p : Program) (serial index : Nat) : Prop :=
  p.code[index]?.map (·.serial) = some serial ∧
    ∀ later > index, p.code[later]?.map (·.serial) ≠ some serial

theorem lastBelow_succ (code : Array Instr) (serial bound : Nat) :
    lastBelow code serial (bound + 1) =
      if code[bound]?.map (·.serial) = some serial then some bound
      else lastBelow code serial bound := by
  rw [lastBelow]
  cases code[bound]? with
  | none => rfl
  | some i => simp

/-- The search from behind: it ends at a place of the instruction, and there is none behind it. -/
theorem lastBelow_spec (code : Array Instr) (serial bound : Nat) :
    (∀ index ∈ lastBelow code serial bound, code[index]?.map (·.serial) = some serial) ∧
    ∀ later < bound, (∀ index ∈ lastBelow code serial bound, index < later) →
      code[later]?.map (·.serial) ≠ some serial := by
  induction bound with
  | zero =>
    refine ⟨fun index hindex => ?_, fun later hlater => absurd hlater (Nat.not_lt_zero later)⟩
    cases hindex
  | succ bound ih =>
    obtain ⟨hplace, hlast⟩ := ih
    rw [lastBelow_succ]
    split
    · next hhere =>
      refine ⟨fun index hindex => Option.some.inj hindex ▸ hhere, fun later hlater hbehind => ?_⟩
      have hless : bound < later := hbehind bound rfl
      omega
    · next hother =>
      refine ⟨hplace, fun later hlater hbehind => ?_⟩
      rcases Nat.lt_or_eq_of_le (Nat.le_of_lt_succ hlater) with hless | rfl
      · exact hlast later hless hbehind
      · exact hother

theorem place?_eq_some_iff : p.place? serial = some index ↔ p.IsLastPlace serial index := by
  constructor
  · intro h
    obtain ⟨hplace, hlast⟩ := lastBelow_spec p.code serial p.code.size
    refine ⟨hplace index h, fun later hlater => ?_⟩
    by_cases hbound : later < p.code.size
    · apply hlast later hbound
      intro other hother
      obtain rfl : index = other := Option.some.inj (h.symm.trans hother)
      exact hlater
    · rw [Array.getElem?_eq_none (Nat.le_of_not_lt hbound)]
      exact Option.some_ne_none serial ∘ Eq.symm
  · rintro ⟨hplace, hlast⟩
    obtain ⟨i, hi, rfl⟩ := Option.map_eq_some_iff.mp hplace
    refine lastBelow_eq hi (Array.getElem?_eq_some_iff.mp hi).1 ?_
    intro later hlater j hj hsame
    apply hlast later hlater
    rw [hj, ← hsame]
    rfl

theorem place?_eq_none_iff : p.place? serial = none ↔ serial ∉ p.code.toList.map (·.serial) := by
  constructor
  · intro hnone hmem
    obtain ⟨index, hindex⟩ := List.mem_iff_getElem?.mp hmem
    rw [List.getElem?_map, Array.getElem?_toList] at hindex
    have hbound : index < p.code.size := by
      obtain ⟨i, hi, _⟩ := Option.map_eq_some_iff.mp hindex
      exact (Array.getElem?_eq_some_iff.mp hi).1
    refine (lastBelow_spec p.code serial p.code.size).2 index hbound ?_ hindex
    intro other hother
    cases hnone.symm.trans hother
  · intro hmissing
    apply lastBelow_eq_none
    intro i hi hserial
    exact hmissing (List.mem_map.mpr ⟨i, Array.mem_toList_iff.mpr hi, hserial⟩)

/-- Addresses count from the last place of an instruction. -/
theorem addressOf?_eq_some_iff {place : Target} {a : Int64} :
    p.addressOf? place = some a ↔ ∃ index, p.IsLastPlace place.anchor index ∧
      a = address (Int64.ofNat index + place.offset) := by
  rw [addressOf?, Option.map_eq_some_iff]
  simp only [place?_eq_some_iff, eq_comm (b := a)]

/-! ## Operands -/

/-- An operand has a number if it is one, or if it counts from an instruction of the program. -/
def Knows (p : Program) : Operand → Prop
  | .literal _ => True
  | .target place => place.anchor ∈ p.code.toList.map (·.serial)
  | .pending => False

theorem knows_iff : p.Knows operand ↔ ∃ n, operand.at? p.place? = some n := by
  cases operand with
  | literal n => exact iff_of_true trivial ⟨n, rfl⟩
  | pending => exact iff_of_false id fun ⟨n, hn⟩ => Option.some_ne_none n hn.symm
  | target place =>
    rw [← Option.isSome_iff_exists, Operand.at?, Option.isSome_map, ← Option.ne_none_iff_isSome]
    exact not_not.symm.trans (not_congr place?_eq_none_iff.symm)

theorem addressOf?_of_not_knows {place : Target} (h : ¬p.Knows (.target place)) :
    p.addressOf? place = none := by
  rw [addressOf?, place?_eq_none_iff.mpr h]
  rfl

/-- An operand that has no number is refused, with the index and the line of its instruction. -/
theorem resolveOperand_of_not_knows (h : ¬p.Knows operand) (index : Nat) (line : Int) :
    ∃ complaint, (complaint = .unfilled index ∨ complaint = .unplaced index) ∧
      p.resolveOperand index line operand = .error { complaint, line } := by
  cases operand with
  | literal n => exact absurd trivial h
  | pending => exact ⟨_, .inl rfl, rfl⟩
  | target place =>
    refine ⟨_, .inr rfl, ?_⟩
    rw [resolveOperand, addressOf?_of_not_knows h]

/-- The operands that have no number are the ones that are shown as question marks. -/
theorem knows_iff_formatOperand : p.Knows operand ↔ p.formatOperand operand ≠ "?" := by
  constructor
  · intro h
    obtain ⟨n, hn⟩ := knows_iff.mp h
    rw [formatOperand_eq hn]
    exact Numeral.ofWord_ne_question n
  · intro h
    by_contra hunknown
    apply h
    cases operand with
    | literal n => exact absurd trivial hunknown
    | pending => rfl
    | target place => rw [formatOperand, addressOf?_of_not_knows hunknown]

/-! ## Instructions -/

/-- All operands of an instruction have a number. -/
def Resolvable (p : Program) (i : Instr) : Prop := ∀ operand ∈ i.args.toList, p.Knows operand

/-- The operands in the text of an instruction: the three parts behind the opcode. -/
def operandTexts (p : Program) (i : Instr) : List Text :=
  (((p.format i).splitOn Text.space).drop 1).take 3

/-- Fields with a space in front of each but the first are found again in front of what follows. -/
theorem take_splitOn_fields {first : Text} {rest : List Text} {ending : Text}
    (hfields : ∀ field ∈ first :: rest, Text.space ∉ field)
    (hending : ending = [] ∨ ∃ behind, ending = Text.space :: behind) :
    ((first ++ (rest.flatMap (Text.space :: ·) ++ ending)).splitOn Text.space).take
      (rest.length + 1) = first :: rest := by
  induction rest generalizing first with
  | nil =>
    have hfirst := hfields first List.mem_cons_self
    rcases hending with rfl | ⟨behind, rfl⟩
    · simp [List.splitOn_eq_singleton hfirst]
    · simp [List.splitOn_append_cons_self_of_not_mem hfirst]
  | cons next rest ih =>
    have hrest := ih fun field hfield => hfields field (List.mem_cons_of_mem first hfield)
    rw [List.flatMap_cons, List.cons_append, List.cons_append, List.append_assoc,
      List.splitOn_append_cons_self_of_not_mem (hfields first List.mem_cons_self),
      List.length_cons, List.take_succ_cons, hrest]

theorem operandTexts_eq (p : Program) (i : Instr) :
    p.operandTexts i = i.args.toList.map p.formatOperand := by
  have hoperand := Translator.space_not_mem_formatOperand p
  have hfields : ∀ field ∈ Numeral.ofWord i.opcode :: i.args.toList.map p.formatOperand,
      Text.space ∉ field := by
    intro field hfield
    rcases List.mem_cons.mp hfield with rfl | hfield
    · exact hoperand (.literal i.opcode)
    · obtain ⟨operand, _, rfl⟩ := List.mem_map.mp hfield
      exact hoperand operand
  have hending : (if i.comment.isEmpty then [] else Text.ofString " ; " ++ i.comment) = [] ∨
      ∃ behind, (if i.comment.isEmpty then [] else Text.ofString " ; " ++ i.comment) =
        Text.space :: behind := by
    split
    · exact .inl rfl
    · exact .inr ⟨_, rfl⟩
  have hsplit := take_splitOn_fields hfields hending
  rw [← List.append_assoc] at hsplit
  show (((p.format i).splitOn Text.space).drop 1).take (4 - 1) = _
  rw [← List.drop_take]
  exact congrArg (List.drop 1) hsplit

/-- An instruction is shown with a question mark as long as one of its operands has no number. -/
theorem resolvable_iff : p.Resolvable i ↔ ("?" : Text) ∉ p.operandTexts i := by
  rw [operandTexts_eq, List.mem_map]
  constructor
  · rintro h ⟨operand, hoperand, htext⟩
    exact knows_iff_formatOperand.mp (h operand hoperand) htext
  · intro h operand hoperand
    exact knows_iff_formatOperand.mpr fun htext => h ⟨operand, hoperand, htext⟩

theorem resolveInstr_ok {w : Word} (h : p.resolveInstr i index = .ok w) : p.Resolvable i := by
  obtain ⟨args, hargs, _⟩ := exists_of_bind_ok h
  have hlist : i.args.toList.mapM (p.resolveOperand index i.line) = .ok args.toList := by
    rw [← Args.toList_mapM, hargs]
    rfl
  intro operand hoperand
  obtain ⟨n, _, hn⟩ := exists_of_mem_forall₂ (forall₂_of_mapM_ok hlist) hoperand
  by_contra hunknown
  obtain ⟨complaint, _, herror⟩ := resolveOperand_of_not_knows hunknown index i.line
  cases hn.symm.trans herror

/-- An instruction that is refused has an operand without a number. -/
theorem resolveInstr_error {d : Diagnostic} (h : p.resolveInstr i index = .error d) :
    ¬p.Resolvable i ∧ d.line = i.line ∧
      (d.complaint = .unfilled index ∨ d.complaint = .unplaced index) := by
  have hlist : i.args.toList.mapM (p.resolveOperand index i.line) = .error d := by
    rw [← Args.toList_mapM]
    rw [resolveInstr] at h
    cases hargs : i.args.mapM (p.resolveOperand index i.line) with
    | error e =>
      rw [hargs] at h
      rw [← Except.error.inj h]
      rfl
    | ok args =>
      rw [hargs] at h
      cases h
  obtain ⟨k, operand, hoperand, herror, _⟩ := exists_of_mapM_error hlist
  have hunknown : ¬p.Knows operand := by
    intro hknown
    obtain ⟨n, hn⟩ := knows_iff.mp hknown
    cases (resolveOperand_eq i.line hn).symm.trans herror
  obtain ⟨complaint, hcomplaint, hd⟩ := resolveOperand_of_not_knows hunknown index i.line
  obtain rfl : d = { complaint, line := i.line } := Except.error.inj (herror.symm.trans hd)
  exact ⟨fun hall => hunknown (hall operand (List.mem_of_getElem? hoperand)), rfl, hcomplaint⟩

/-- A program is refused for its first instruction that has an operand without a number. -/
theorem exists_of_resolve_error {d : Diagnostic} (h : p.resolve = .error d) :
    ∃ index i, p.code[index]? = some i ∧ ¬p.Resolvable i ∧ d.line = i.line ∧
      (d.complaint = .unfilled index ∨ d.complaint = .unplaced index) ∧
      ∀ earlier < index, ∀ j, p.code[earlier]? = some j → p.Resolvable j := by
  obtain ⟨k, entry, hentry, herror, hfront⟩ := exists_of_mapM_error h
  rw [List.getElem?_zipIdx, Option.map_eq_some_iff] at hentry
  obtain ⟨i, hi, rfl⟩ := hentry
  rw [Array.getElem?_toList] at hi
  rw [Nat.zero_add] at herror
  obtain ⟨hunknown, hline, hcomplaint⟩ := resolveInstr_error herror
  refine ⟨k, i, hi, hunknown, hline, hcomplaint, fun earlier hearlier j hj => ?_⟩
  have hentry : p.code.toList.zipIdx[earlier]? = some (j, earlier) := by
    rw [List.getElem?_zipIdx, Array.getElem?_toList, hj, Nat.zero_add]
    rfl
  obtain ⟨w, hw⟩ := hfront earlier hearlier _ hentry
  exact resolveInstr_ok hw

/-- A program whose operands all have numbers is listed as its instructions are shown. -/
theorem resolve_of_resolvable (h : ∀ i ∈ p.code, p.Resolvable i) :
    ∃ words, p.resolve = .ok words ∧ words.map Word.text = p.formatAll := by
  have hknown : ∀ i ∈ p.code.toList, ∀ field, ∃ n, (i.args.get field).at? p.place? = some n := by
    intro i hi field
    have hmem : i.args.get field ∈ i.args.toList := by
      cases field <;> simp [Args.get, Args.toList]
    exact knows_iff.mp (h i (Array.mem_toList_iff.mp hi) _ hmem)
  obtain ⟨words, hwords, htexts⟩ := exists_words hknown
  exact ⟨words, resolve_eq hwords, htexts⟩

theorem exists_resolve_iff : (∃ words, p.resolve = .ok words) ↔ ∀ i ∈ p.code, p.Resolvable i := by
  constructor
  · rintro ⟨words, hwords⟩ i hi
    obtain ⟨index, hindex⟩ := List.mem_iff_getElem?.mp (Array.mem_toList_iff.mpr hi)
    have hentry : (i, index) ∈ p.code.toList.zipIdx :=
      List.mk_mem_zipIdx_iff_getElem?.mpr hindex
    obtain ⟨w, _, hw⟩ := exists_of_mem_forall₂ (forall₂_of_mapM_ok hwords) hentry
    exact resolveInstr_ok hw
  · intro h
    obtain ⟨words, hwords, _⟩ := resolve_of_resolvable h
    exact ⟨words, hwords⟩

end Program

/-! ## Workbenches -/

namespace Workbench

variable {w : Workbench}

/-- A call that changes a workbench. -/
inductive Call where
  /-- Draft an instruction. -/
  | draft (opcode : Int64) (args : Args Operand) (line : Int) (comment : Text)
  /-- Place drafts at the end of the program. -/
  | append (serials : List Nat)
  /-- Place a draft at an index. -/
  | insert (site : Int) (serial : Nat)
  /-- Fill in the missing addresses of a draft. -/
  | fill (serial : Nat) (place : Target)
  deriving DecidableEq, Repr

/-- The workbench behind a call.  It stays as it is if a draft would go outside the program. -/
def Call.on (w : Workbench) : Call → Workbench
  | .draft opcode args line comment => w.draft opcode args line comment
  | .append serials => w.append serials
  | .insert site serial => (w.drafts[serial]?.bind fun i => (w.insert site i).toOption).getD w
  | .fill serial place => w.fill serial place

/-- The workbench behind a sequence of calls. -/
def run (calls : List Call) : Workbench := calls.foldl Call.on {}

/-- What calls keep: drafts are known by their serial numbers, and what stands in the program is
the draft as it is now, however often it was placed. -/
structure Aligned (w : Workbench) : Prop where
  numbered : ∀ (serial : Nat) (i : Instr), w.drafts[serial]? = some i → i.serial = serial
  placed : ∀ i ∈ w.program.code, w.drafts[i.serial]? = some i

theorem Aligned.draft (h : Aligned w) (opcode : Int64) (args : Args Operand) (line : Int)
    (comment : Text) : Aligned (w.draft opcode args line comment) where
  numbered serial i hi := by
    rw [show (w.draft opcode args line comment).drafts = w.drafts.push _ from rfl,
      Array.getElem?_push] at hi
    split at hi
    · next hlast =>
      rw [← Option.some.inj hi]
      exact hlast.symm
    · exact h.numbered serial i hi
  placed i hi := by
    have hold := h.placed i hi
    have hless := (Array.getElem?_eq_some_iff.mp hold).1
    show (w.drafts.push _)[i.serial]? = some i
    rw [Array.getElem?_push, if_neg (Nat.ne_of_lt hless), hold]

theorem Aligned.append (h : Aligned w) (serials : List Nat) : Aligned (w.append serials) where
  numbered := h.numbered
  placed i hi := by
    have hmem : i ∈ (w.program.code ++ serials.filterMap (w.drafts[·]?)).toList :=
      Array.mem_toList_iff.mpr hi
    rw [Array.toList_appendList] at hmem
    rcases List.mem_append.mp hmem with hold | hnew
    · exact h.placed i (Array.mem_toList_iff.mp hold)
    · obtain ⟨serial, _, hserial⟩ := List.mem_filterMap.mp hnew
      rw [← h.numbered serial i hserial] at hserial
      exact hserial

theorem Aligned.insert {w' : Workbench} {site : Int} {serial : Nat} {i : Instr} (h : Aligned w)
    (hi : w.drafts[serial]? = some i) (hinsert : w.insert site i = .ok w') : Aligned w' := by
  obtain ⟨program, hprogram, hw'⟩ := exists_of_bind_ok hinsert
  rw [← Except.ok.inj hw']
  refine ⟨h.numbered, fun j hj => ?_⟩
  rw [Program.insert] at hprogram
  split at hprogram
  · next hsite =>
    have hmem : j ∈ w.program.code.insertIdx site.toNat i hsite.2 := by
      rw [← Except.ok.inj hprogram] at hj
      exact hj
    rcases Array.mem_insertIdx.mp hmem with rfl | hold
    · rw [← h.numbered serial j hi] at hi
      exact hi
    · exact h.placed j hold
  · cases hprogram

/-- A draft is filled in together with all of its copies. -/
theorem Aligned.fill (h : Aligned w) (serial : Nat) (place : Target) :
    Aligned (w.fill serial place) where
  numbered other i hi := by
    rw [show (w.fill serial place).drafts = w.drafts.modify serial (·.fill place) from rfl,
      Array.getElem?_modify] at hi
    split at hi
    · obtain ⟨old, hold, rfl⟩ := Option.map_eq_some_iff.mp hi
      exact h.numbered other old hold
    · exact h.numbered other i hi
  placed i hi := by
    obtain ⟨old, hold, rfl⟩ := Array.mem_map.mp hi
    have hdraft := h.placed old hold
    by_cases hsame : old.serial = serial
    · rw [if_pos hsame]
      show (w.drafts.modify serial (·.fill place))[old.serial]? = _
      rw [Array.getElem?_modify, if_pos hsame.symm, hdraft]
      rfl
    · rw [if_neg hsame]
      show (w.drafts.modify serial (·.fill place))[old.serial]? = _
      rw [Array.getElem?_modify, if_neg (Ne.symm hsame), hdraft]

/-- The step lemma. -/
theorem Aligned.on (h : Aligned w) (c : Call) : Aligned (c.on w) := by
  cases c with
  | draft opcode args line comment => exact h.draft opcode args line comment
  | append serials => exact h.append serials
  | fill serial place => exact h.fill serial place
  | insert site serial =>
    rw [Call.on]
    cases hi : w.drafts[serial]? with
    | none => exact h
    | some i =>
      cases hinsert : w.insert site i with
      | error m =>
        simp only [Option.bind_some, hinsert]
        exact h
      | ok w' =>
        simp only [Option.bind_some, hinsert]
        exact h.insert hi hinsert

/-- The run lemma. -/
theorem aligned_run (calls : List Call) : Aligned (run calls) := by
  have hempty : Aligned {} := by
    refine ⟨fun serial i hi => ?_, fun i hi => ?_⟩
    · cases hi
    · exact absurd hi (Array.not_mem_empty i)
  have hrun : ∀ (w : Workbench), Aligned w → Aligned (calls.foldl Call.on w) := by
    induction calls with
    | nil => exact fun w h => h
    | cons c rest ih => exact fun w h => ih (c.on w) (h.on c)
  exact hrun {} hempty

/-- The two ways to show a program agree, whatever was drafted, placed and filled in, and in
whatever order.  What stands in the program is the draft as it is now.  The program has words
exactly if each operand of each placed instruction is a number or counts from a placed instruction,
which is exactly if no operand of a placed instruction is shown as a question mark; addresses count
from the last place.  Then each line of the listing is the instruction at its index as it is shown.
Otherwise the program is refused with the line of its first instruction that has such an operand. -/
theorem renderers_agree (calls : List Call) :
    let w := run calls
    let p := w.program
    (∀ i ∈ p.code, w.drafts[i.serial]? = some i) ∧
    ((∃ words, p.resolve = .ok words) ↔
      ∀ i ∈ p.code, ∀ operand ∈ i.args.toList, p.Knows operand) ∧
    ((∃ words, p.resolve = .ok words) ↔ ∀ i ∈ p.code, ("?" : Text) ∉ p.operandTexts i) ∧
    (∀ place a, p.addressOf? place = some a ↔ ∃ index, p.IsLastPlace place.anchor index ∧
      a = address (Int64.ofNat index + place.offset)) ∧
    (∀ words, p.resolve = .ok words → ∃ lines, p.lines = .ok lines ∧
      ∀ index : Nat, lines[index]? = p.code[index]?.map p.format) ∧
    ∀ d, p.resolve = .error d → ∃ (index : Nat) (i : Instr), p.code[index]? = some i ∧
      (∃ operand ∈ i.args.toList, ¬p.Knows operand) ∧
      (∀ earlier < index, ∀ j, p.code[earlier]? = some j →
        ∀ operand ∈ j.args.toList, p.Knows operand) ∧
      d.line = i.line ∧ (d.complaint = .unfilled index ∨ d.complaint = .unplaced index) := by
  intro w p
  refine ⟨(aligned_run calls).placed, Program.exists_resolve_iff, ?_,
    fun _ _ => Program.addressOf?_eq_some_iff, ?_, ?_⟩
  · rw [Program.exists_resolve_iff]
    exact forall₂_congr fun _ _ => Program.resolvable_iff
  · intro words hwords
    have hresolvable := Program.exists_resolve_iff.mp ⟨words, hwords⟩
    obtain ⟨found, hfound, htexts⟩ := Program.resolve_of_resolvable hresolvable
    refine ⟨p.formatAll, ?_, fun index => ?_⟩
    · rw [Program.lines, hfound, ← htexts]
      rfl
    · rw [Program.formatAll, List.getElem?_map, Array.getElem?_toList]
  · intro d hd
    obtain ⟨index, i, hi, hunknown, hline, hcomplaint, hearlier⟩ :=
      Program.exists_of_resolve_error hd
    refine ⟨index, i, hi, ?_, hearlier, hline, hcomplaint⟩
    by_contra hnone
    exact hunknown fun operand hoperand =>
      by_contra fun hmissing => hnone ⟨operand, hoperand, hmissing⟩

-- an address counts from the last of three places, and another one is filled in after its
-- instruction was placed
example : (run [.draft 5 ⟨.literal 0, .literal 0, .literal 0⟩ 1 [],
    .draft 208 ⟨.pending, .literal 2, .target ⟨0, 1⟩⟩ 2 "x", .append [0, 1, 0], .insert 0 0,
    .fill 1 ⟨1, -1⟩]).program.lines.toOption =
      some [("5 0 0 0" : Text), ("5 0 0 0" : Text), ("208 4 2 16 ; x" : Text),
        ("5 0 0 0" : Text)] := by cbv

end Workbench

end AccuAsm
