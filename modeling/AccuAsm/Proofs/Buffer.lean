import AccuAsm.Proofs.Numerals
import AccuAsm.Proofs.Operands
import AccuAsm.Proofs.Pass
import AccuAsm.Proofs.Refusals

/-!
# The program while it is being built

What holds of the program behind every line of a run, whether blocks are open or not
and whether lines were refused or not.

There are two groups.

* Places.  Where serial numbers are not used twice, the first and the last place of an
  instruction are the same.
* All together.  `Coherent` collects the invariants of a run, `Intact` says what they are
  good for, and `program_intact` is the result.
-/

namespace AccuAsm

/-! ## Places -/

namespace Program

variable {p : Program} {serial : Nat}

theorem lastBelow_eq_none {code : Array Instr} (h : ∀ i ∈ code, i.serial ≠ serial) (bound : Nat) :
    lastBelow code serial bound = none := by
  induction bound with
  | zero => rfl
  | succ bound ih =>
    rw [lastBelow]
    split
    · next i hi => rw [if_neg (h i (Array.mem_of_getElem? hi)), ih]
    · exact ih

/-- Where serial numbers are not used twice, the first place is the last one. -/
theorem place?_eq_indexOf? (hnodup : (p.code.toList.map (·.serial)).Nodup) (serial : Nat) :
    p.place? serial = p.indexOf? serial := by
  cases hfirst : p.indexOf? serial with
  | none =>
    rw [indexOf?, Array.findIdx?_eq_none_iff] at hfirst
    apply lastBelow_eq_none
    intro i hi
    simpa using hfirst i hi
  | some index =>
    rw [indexOf?, Array.findIdx?_eq_some_iff_getElem] at hfirst
    obtain ⟨hlt, hserial, _⟩ := hfirst
    obtain rfl : p.code[index].serial = serial := by simpa using hserial
    exact place?_eq hnodup (by simp)

theorem indexOf?_eq_none_iff :
    p.indexOf? serial = none ↔ serial ∉ p.code.toList.map (·.serial) := by
  simp [indexOf?]

theorem addressOf?_eq (hnodup : (p.code.toList.map (·.serial)).Nodup) (place : Target) :
    p.addressOf? place =
      (p.indexOf? place.anchor).map fun index => address (Int64.ofNat index + place.offset) := by
  rw [addressOf?, place?_eq_indexOf? hnodup]

theorem addressOf?_eq_none_iff (hnodup : (p.code.toList.map (·.serial)).Nodup) :
    p.addressOf? (.after serial) = none ↔ serial ∉ p.code.toList.map (·.serial) := by
  rw [addressOf?_eq hnodup, Option.map_eq_none_iff]
  exact indexOf?_eq_none_iff

end Program

theorem Numeral.ofWord_ne_question (n : Int64) : Numeral.ofWord n ≠ "?" := by
  intro heq
  have hmem : ascii '?' ∈ Numeral.decimal n.toInt := by
    rw [← Numeral.ofWord, heq]
    decide
  rcases Numeral.mem_decimal hmem with hsign | hdigit
  · exact absurd hsign (by decide)
  · exact absurd hdigit (by decide)

/-! ## All together -/

namespace Translator

variable {t : Translator} {history : List Transition}

/-- What every accepted line keeps. -/
structure Coherent (t : Translator) (history : List Transition) : Prop where
  traced : Traced t history
  recorded : Recorded t history
  drafted : Drafted t
  wired : Wired t history
  housed : Housed t

theorem coherent_feedEach (config : Config) (lines : List Line) :
    Coherent ((new config).feedEach lines) ((new config).transitions lines) := by
  apply run_induction
  case hnew =>
    exact ⟨traced_new config, recorded_new config, drafted_new config, wired_new config,
      housed_new config⟩
  case hstep =>
    intro t t' line emitted history hseated hstacked h hfeed
    exact {
      traced := h.traced.feed hseated hstacked hfeed
      recorded := h.recorded.feed h.traced hseated hstacked hfeed
      drafted := h.drafted.feed hfeed
      wired := h.wired.feed h.recorded h.drafted hseated hstacked hfeed
      housed := h.housed.feed hfeed }

section Coherent

variable {i : Instr} {field : Field}

theorem Coherent.operand_of_awaits (h : Coherent t history) (hawaits : Awaits t history i field) :
    ∃ b ∈ t.openBlocks, b.skip ∉ t.serials ∧ i.args.get field = .target (.after b.skip) := by
  obtain ⟨s, hs, b, hopen, henters⟩ := hawaits
  obtain ⟨hoperand, hopened⟩ := h.wired.enters s hs i field b henters
  refine ⟨b, hopen, ?_, hoperand⟩
  intro hplaced
  exact (h.traced.placed_iff b hopened).mp hplaced hopen

theorem Coherent.unresolved_iff (h : Coherent t history) (hi : i ∈ t.program.code.toList)
    {place : Target} (hplace : i.args.get field = .target place) :
    t.program.addressOf? place = none ↔ Awaits t history i field := by
  have hnone (serial : Nat) :
      t.program.addressOf? (.after serial) = none ↔ serial ∉ t.serials :=
    Program.addressOf?_eq_none_iff h.traced.nodup
  constructor
  · intro hmissing
    rcases h.wired.operands i hi field with
      ⟨n, hn⟩ | ⟨serial, hserial, hbehind⟩ | ⟨s, hs, b, henters⟩
    · simp [hplace] at hn
    · obtain rfl : place = .after serial := Operand.target.inj (hplace.symm.trans hbehind)
      exact absurd hserial ((hnone serial).mp hmissing)
    · obtain ⟨hoperand, hopened⟩ := h.wired.enters s hs i field b henters
      obtain rfl : place = .after b.skip := Operand.target.inj (hplace.symm.trans hoperand)
      refine ⟨s, hs, b, ?_, henters⟩
      -- a block whose jump is not there is open
      by_contra hclosed
      exact (hnone b.skip).mp hmissing ((h.traced.placed_iff b hopened).mpr hclosed)
  · intro hawaits
    obtain ⟨b, _, hmissing, hoperand⟩ := h.operand_of_awaits hawaits
    obtain rfl : place = .after b.skip := Operand.target.inj (hplace.symm.trans hoperand)
    exact (hnone b.skip).mpr hmissing

theorem Coherent.operand_ne_pending (h : Coherent t history) (hi : i ∈ t.program.code.toList)
    (field : Field) : i.args.get field ≠ .pending := by
  rcases h.wired.operands i hi field with ⟨n, hn⟩ | ⟨serial, _, hbehind⟩ | ⟨s, hs, b, henters⟩
  · simp [hn]
  · simp [hbehind]
  · simp [(h.wired.enters s hs i field b henters).1]

theorem Coherent.isPending_eq_false (h : Coherent t history) (hi : i ∈ t.program.code.toList) :
    i.isPending = false := by
  have hfield (field : Field) : (i.args.get field).isPending = false := by
    cases hoperand : i.args.get field with
    | pending => exact absurd hoperand (h.operand_ne_pending hi field)
    | literal | target => rfl
  have hleft := hfield .left
  have hright := hfield .right
  have hdest := hfield .dest
  simp only [Args.get] at hleft hright hdest
  simp [Instr.isPending, Args.toList, hleft, hright, hdest]

theorem Coherent.formatOperand_iff (h : Coherent t history) (hi : i ∈ t.program.code.toList)
    (field : Field) :
    t.program.formatOperand (i.args.get field) = "?" ↔ Awaits t history i field := by
  cases hoperand : i.args.get field with
  | pending => exact absurd hoperand (h.operand_ne_pending hi field)
  | literal n =>
    refine ⟨fun heq => absurd heq (Numeral.ofWord_ne_question n), fun hawaits => ?_⟩
    obtain ⟨b, _, _, htarget⟩ := h.operand_of_awaits hawaits
    simp [hoperand] at htarget
  | target place =>
    rw [← h.unresolved_iff hi hoperand, Program.formatOperand]
    cases haddress : t.program.addressOf? place with
    | none => simp
    | some n => simp [Numeral.ofWord_ne_question]

end Coherent

/-- An operand is shown with digits and a sign, or as a question mark. -/
theorem mem_formatOperand {p : Program} {operand : Operand} {byte : UInt8}
    (h : byte ∈ p.formatOperand operand) :
    byte = ascii '?' ∨ byte = ascii '-' ∨ Numeral.IsDecimal byte := by
  cases operand with
  | literal n => exact .inr (Numeral.mem_decimal h)
  | pending => exact .inl (List.mem_singleton.mp h)
  | target place =>
    rw [Program.formatOperand] at h
    split at h
    · exact .inr (Numeral.mem_decimal h)
    · exact .inl (List.mem_singleton.mp h)

theorem space_not_mem_formatOperand (p : Program) (operand : Operand) :
    Text.space ∉ p.formatOperand operand := by
  intro hmem
  rcases mem_formatOperand hmem with hquestion | hsign | hdigit
  · exact absurd hquestion (by decide)
  · exact absurd hsign (by decide)
  · exact absurd hdigit (by decide)

theorem Stacked.nodup (h : Stacked t) : t.openBlocks.Nodup := by
  have hstack (kind : BlockKind) : (t.openOf kind).Nodup :=
    (h.descending kind).imp fun hlt heq => by
      rw [heq] at hlt
      exact Nat.lt_irrefl _ hlt
  rw [openBlocks, List.nodup_append]
  refine ⟨hstack _, hstack _, ?_⟩
  intro a ha b hb heq
  have hdefinition := kind_of_mem_openOf ha
  rw [heq, kind_of_mem_openOf hb] at hdefinition
  cases hdefinition

/-- The program behind a run, with blocks open or not. -/
structure Intact (t : Translator) (history : List Transition) : Prop where
  /-- No instruction stands in the program twice. -/
  nodup : t.serials.Nodup
  /-- The open blocks are those of both stacks, and each has been opened once. -/
  depth : t.openBlocks.length = t.definitions.depth + t.conditions.depth
  blocks : t.openBlocks.Perm ((opened history).filter (· ∈ t.openBlocks))
  /-- The jump over a block stands in the program exactly if the block is closed. -/
  placed : ∀ b ∈ opened history, b.skip ∈ t.serials ↔ b ∉ t.openBlocks
  /-- The definitions are blocks of the run, and their records tell which ones are closed. -/
  definitions : ∀ d ∈ t.definitions.records, d.block ∈ opened history ∧
    (d.closed = true ↔ d.block ∉ t.openBlocks)
  /-- In the order in which the open blocks were opened, their sites do not descend. -/
  sites : ((opened history).filter (· ∈ t.openBlocks)).Pairwise fun a b => a.site ≤ b.site
  inside : ∀ b ∈ t.openBlocks, 0 ≤ b.site ∧ b.site ≤ t.program.size
  /-- No address is missing. -/
  filled : ∀ i ∈ t.program.code.toList, i.isPending = false
  /-- An address is not known exactly if it belongs to a jump into a block that is still open. -/
  unresolved : ∀ i ∈ t.program.code.toList, ∀ field place, i.args.get field = .target place →
    (t.program.addressOf? place = none ↔ Awaits t history i field)
  /-- These are the operands that are shown as question marks. -/
  formats : ∀ i ∈ t.program.code.toList, ∃ texts : Args Text,
    t.program.format i = renderFields i.opcode texts i.comment ∧
      ∀ field, Text.space ∉ texts.get field ∧ (texts.get field = "?" ↔ Awaits t history i field)
  /-- Addresses count from the index of the instruction that they name. -/
  indexed : ∀ place, t.program.addressOf? place =
    (t.program.indexOf? place.anchor).map fun index => address (Int64.ofNat index + place.offset)
  /-- A line that is not accepted is refused with a diagnostic. -/
  refused : ∀ line fault next, t.feed line = (.error fault, next) → ∃ d, fault = .rejected d
  /-- Every open definition and every scope that is gone back to is known. -/
  recorded : ∀ position ∈ t.definitions.stack, position < t.definitions.records.size
  housed : Housed t

/-- The program is intact behind every run, whatever the lines and the instruction set. -/
theorem program_intact (config : Config) (lines : List Line) :
    Intact ((new config).feedEach lines) ((new config).transitions lines) := by
  have h := coherent_feedEach config lines
  have hseated : Seated ((new config).feedEach lines) := (seated_new config).feedEach lines
  have hstacked : Stacked ((new config).feedEach lines) :=
    (stacked_new config).feedEach (seated_new config) lines
  have hnodup : (opened ((new config).transitions lines)).Nodup :=
    h.traced.ascending.imp fun hlt heq => by
      rw [heq] at hlt
      exact Nat.lt_irrefl _ hlt
  constructor
  case nodup => exact h.traced.nodup
  case depth =>
    rw [openBlocks, List.length_append, hseated.length_openOf_definition, length_openOf_condition]
  case blocks =>
    rw [List.perm_ext_iff_of_nodup hstacked.nodup (hnodup.filter _)]
    intro b
    rw [List.mem_filter, decide_eq_true_eq]
    exact ⟨fun hopen => ⟨h.traced.mem_opened b hopen, hopen⟩, And.right⟩
  case placed => exact h.traced.placed_iff
  case definitions =>
    intro d hd
    rw [block_mem_openBlocks]
    exact ⟨h.recorded.mem_opened d hd, h.recorded.closed_iff d hd⟩
  case sites =>
    refine (h.traced.ascending.filter _).imp_of_mem ?_
    intro a b ha hb hlt
    exact hstacked.sites a (by simpa using (List.mem_filter.mp ha).2) b
      (by simpa using (List.mem_filter.mp hb).2) hlt
  case inside => exact hstacked.inside
  case filled => exact fun i hi => h.isPending_eq_false hi
  case unresolved => exact fun i hi field place hplace => h.unresolved_iff hi hplace
  case formats =>
    intro i hi
    refine ⟨i.args.map ((new config).feedEach lines).program.formatOperand, rfl, ?_⟩
    intro field
    rw [Args.get_map]
    exact ⟨space_not_mem_formatOperand _ _, h.formatOperand_iff hi field⟩
  case indexed => exact Program.addressOf?_eq h.traced.nodup
  case refused => exact fun line fault next hfault => hseated.refused_of_feed hfault
  case recorded =>
    intro position hposition
    obtain ⟨d, hd, _⟩ := hseated.definitions position hposition
    exact (Array.getElem?_eq_some_iff.mp hd).1
  case housed => exact h.housed

-- a call from inside the body of its definition and the head of an open IF wait for their blocks
example : ((new {}).feedEach [⟨1, ["DEF", "F"], []⟩, ⟨2, ["CALL", "F"], []⟩,
    ⟨3, ["IF", "EQ", "1", "2"], []⟩]).program.formatAll =
      [("128 8 0 1" : Text), ("128 ? 0 2" : Text), ("216 1 2 ?" : Text)] := by cbv

end Translator

end AccuAsm
