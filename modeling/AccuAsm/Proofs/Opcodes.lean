import AccuAsm.Proofs.Machine
import AccuAsm.Proofs.Operands
import AccuAsm.Proofs.Validity

/-!
# Compositions of opcodes

An opcode is the sum of a group, a code and some flags.  Where the summands share no bits,
the sum is their union, and they can be read off it.

There are four groups.

* Summands.  `plus` adds a flag to a number that does not touch it, and `plus_inj` takes it
  off again.
* Valid sets.  What `InstructionSet.Valid` comes to for sums: flags, the ALU group and the
  codes do not touch each other.  The group is not held against the codes of its own
  operations.
* Compositions.  `Composition` lists what an opcode can be composed of.  Within a group an
  opcode has one composition.  Across the groups this needs an ALU group that does not
  touch the code of the operation.
* Programs.  `Translator.opcode_composition` adds that every instruction behind a run has a
  composed opcode.
-/

namespace AccuAsm

/-! ## Summands -/

section Summands

variable {x y flag mask : Int64} {chosen chosen' : Bool}

theorem add_eq_or (h : x &&& y = 0) : x + y = x ||| y :=
  Int64.toBitVec_inj.mp (BitVec.add_eq_or_of_and_eq_zero _ _ (Int64.toBitVec_inj.mpr h))

/-- A number with a flag, if it is chosen. -/
def plus (x : Int64) (chosen : Bool) (flag : Int64) : Int64 := x + if chosen then flag else 0

theorem plus_eq_or (h : x &&& flag = 0) :
    plus x chosen flag = x ||| if chosen then flag else 0 := by
  unfold plus
  cases chosen with
  | false => simp
  | true => exact add_eq_or h

/-- A flag does not change the bits of a mask that it does not touch. -/
theorem plus_and (h : x &&& flag = 0) (hmask : flag &&& mask = 0) :
    plus x chosen flag &&& mask = x &&& mask := by
  rw [plus_eq_or h, or_and_distrib]
  cases chosen with
  | false => simp
  | true => simp [hmask]

theorem plus_and_self (h : x &&& flag = 0) :
    plus x chosen flag &&& flag = if chosen then flag else 0 := by
  rw [plus_eq_or h, or_and_distrib, h]
  cases chosen <;> simp

/-- A flag can be taken off a sum. -/
theorem plus_inj (hx : x &&& flag = 0) (hy : y &&& flag = 0) (hflag : flag ≠ 0)
    (h : plus x chosen flag = plus y chosen' flag) : x = y ∧ chosen = chosen' := by
  have hbits : (if chosen then flag else 0) = if chosen' then flag else 0 := by
    rw [← plus_and_self hx, ← plus_and_self hy, h]
  obtain rfl : chosen = chosen' := by
    cases chosen <;> cases chosen' <;> simp_all
  exact ⟨(Int64.add_left_inj _).mp h, rfl⟩

end Summands

namespace InstructionSet

/-! ## Valid sets -/

variable {set : InstructionSet} (h : set.Valid)
include h

theorem Valid.flag_ne_zero (flag : OpcodeFlag) : set.flag flag ≠ 0 := by
  intro hzero
  have hpositive := h.positive flag
  rw [hzero] at hpositive
  exact Int64.lt_irrefl hpositive

theorem Valid.flag_and (flag other : OpcodeFlag) (hne : flag ≠ other) :
    set.flag flag &&& set.flag other = 0 := shareNoBit_iff.mp (h.flags flag other hne)

theorem Valid.alu_and (flag : OpcodeFlag) : set.alu &&& set.flag flag = 0 :=
  shareNoBit_iff.mp (h.group flag)

theorem Valid.aluCode_and (operation : Option Operation) (flag : OpcodeFlag) :
    set.aluCode operation &&& set.flag flag = 0 :=
  shareNoBit_iff.mp (h.operations.apart operation _ rfl flag)

theorem Valid.aluCode_inj {operation operation' : Option Operation}
    (heq : set.aluCode operation = set.aluCode operation') : operation = operation' :=
  h.operations.distinct operation operation' _ (congrArg some heq) rfl

theorem Valid.code_and {code : Int64} (hcode : code ∈ set.codes) (flag : OpcodeFlag) :
    code &&& set.flag flag = 0 := by
  obtain ⟨⟨keyword, code⟩, hentry, rfl⟩ := List.mem_map.mp hcode
  exact shareNoBit_iff.mp
    (h.conditions.apart keyword code (Dictionary.mem_entries_iff.mp hentry) flag)

/-! ## Compositions -/

end InstructionSet

/-- What an opcode is composed of. -/
inductive Composition where
  /-- The ALU group.  Without an operation, a move. -/
  | alu (operation : Option Operation) (high left right : Bool)
  /-- The group of the comparisons. -/
  | condition (code : Int64) (jump left right : Bool)
  deriving DecidableEq, Repr

/-- Whether the group is that of the ALU. -/
def Composition.isAlu : Composition → Bool
  | .alu .. => true
  | .condition .. => false

namespace InstructionSet

variable {set : InstructionSet} {x y : Composition}

/-- The sum of the parts. -/
def compose (set : InstructionSet) : Composition → Int64
  | .alu operation high left right =>
    set.flagged (set.alu + set.aluCode operation + if high then set.wordHigh else 0) left right
  | .condition code jump left right =>
    set.flagged (set.condition + code + if jump then set.jump else 0) left right

/-- Whether the parts are of the set. -/
def Admits (set : InstructionSet) : Composition → Prop
  | .alu .. => True
  | .condition code .. => code ∈ set.codes

/-- Whether the group and the code share a bit, so that their sum can carry into other bits. -/
def Carries (set : InstructionSet) : Composition → Prop
  | .alu operation .. => set.alu &&& set.aluCode operation ≠ 0
  | .condition .. => False

/-- Whether a number is an opcode of the set. -/
def Composed (set : InstructionSet) (opcode : Int64) : Prop :=
  ∃ x, set.Admits x ∧ set.compose x = opcode

theorem flagged_eq_plus (base : Int64) (left right : Bool) :
    set.flagged base left right = plus (plus base left set.immediate0) right set.immediate1 := rfl

/-- A number that no flag touches which can be added to it, `extra` being the flag of its group. -/
structure Clear (set : InstructionSet) (extra base : Int64) : Prop where
  extra : base &&& extra = 0
  left : base &&& set.immediate0 = 0
  right : base &&& set.immediate1 = 0

/-- The flags that can be added to a code, `extra` being the flag of its group. -/
structure Addable (set : InstructionSet) (extra : Int64) : Prop where
  nonzero : extra ≠ 0
  nonzero_left : set.immediate0 ≠ 0
  nonzero_right : set.immediate1 ≠ 0
  extra_left : extra &&& set.immediate0 = 0
  extra_right : extra &&& set.immediate1 = 0
  left_right : set.immediate0 &&& set.immediate1 = 0
  extra_condition : extra &&& set.condition = 0
  left_condition : set.immediate0 &&& set.condition = 0
  right_condition : set.immediate1 &&& set.condition = 0

/-- Each of the other flags can be that of a group. -/
theorem Valid.addable (h : set.Valid) (extra : OpcodeFlag) (hleft : extra ≠ .immediate0)
    (hright : extra ≠ .immediate1) (hcondition : extra ≠ .condition) :
    set.Addable (set.flag extra) where
  nonzero := h.flag_ne_zero extra
  nonzero_left := h.flag_ne_zero .immediate0
  nonzero_right := h.flag_ne_zero .immediate1
  extra_left := h.flag_and extra .immediate0 hleft
  extra_right := h.flag_and extra .immediate1 hright
  left_right := h.flag_and .immediate0 .immediate1 (by decide)
  extra_condition := h.flag_and extra .condition hcondition
  left_condition := h.flag_and .immediate0 .condition (by decide)
  right_condition := h.flag_and .immediate1 .condition (by decide)

theorem Valid.addable_wordHigh (h : set.Valid) : set.Addable set.wordHigh :=
  h.addable .wordHigh (by decide) (by decide) (by decide)

theorem Valid.addable_jump (h : set.Valid) : set.Addable set.jump :=
  h.addable .jump (by decide) (by decide) (by decide)

section Sums

variable {extra base base' : Int64} {chosen chosen' left left' right right' : Bool}

theorem Clear.plus_left (h : set.Clear extra base) (hextra : set.Addable extra) :
    plus base chosen extra &&& set.immediate0 = 0 := by
  rw [plus_and h.extra hextra.extra_left, h.left]

theorem Clear.plus_right (h : set.Clear extra base) (hextra : set.Addable extra) :
    plus (plus base chosen extra) left set.immediate0 &&& set.immediate1 = 0 := by
  rw [plus_and (h.plus_left hextra) hextra.left_right, plus_and h.extra hextra.extra_right, h.right]

theorem Clear.flagged_and_condition (h : set.Clear extra base) (hextra : set.Addable extra) :
    set.flagged (plus base chosen extra) left right &&& set.condition = base &&& set.condition := by
  rw [flagged_eq_plus, plus_and (h.plus_right hextra) hextra.right_condition,
    plus_and (h.plus_left hextra) hextra.left_condition, plus_and h.extra hextra.extra_condition]

/-- A code and its flags can be read off their sum. -/
theorem Clear.flagged_inj (h : set.Clear extra base) (h' : set.Clear extra base')
    (hextra : set.Addable extra)
    (heq : set.flagged (plus base chosen extra) left right =
      set.flagged (plus base' chosen' extra) left' right') :
    base = base' ∧ chosen = chosen' ∧ left = left' ∧ right = right' := by
  rw [flagged_eq_plus, flagged_eq_plus] at heq
  obtain ⟨heq, hright⟩ :=
    plus_inj (h.plus_right hextra) (h'.plus_right hextra) hextra.nonzero_right heq
  obtain ⟨heq, hleft⟩ :=
    plus_inj (h.plus_left hextra) (h'.plus_left hextra) hextra.nonzero_left heq
  obtain ⟨heq, hchosen⟩ := plus_inj h.extra h'.extra hextra.nonzero heq
  exact ⟨heq, hchosen, hleft, hright⟩

theorem Clear.add (h : set.Clear extra base) (h' : set.Clear extra base')
    (hdisjoint : base &&& base' = 0) : set.Clear extra (base + base') := by
  constructor
  · rw [add_eq_or hdisjoint, or_and_distrib, h.extra, h'.extra, Int64.or_self]
  · rw [add_eq_or hdisjoint, or_and_distrib, h.left, h'.left, Int64.or_self]
  · rw [add_eq_or hdisjoint, or_and_distrib, h.right, h'.right, Int64.or_self]

end Sums

/-- What touches no flag is clear of three of them. -/
theorem clear_of_flags {base : Int64} (extra : OpcodeFlag)
    (h : ∀ flag, base &&& set.flag flag = 0) : set.Clear (set.flag extra) base :=
  ⟨h extra, h .immediate0, h .immediate1⟩

section Codes

variable (h : set.Valid)
include h

theorem Valid.condition_and_code {code : Int64} (hcode : code ∈ set.codes) :
    set.condition &&& code = 0 := and_eq_zero_comm.mp (h.code_and hcode .condition)

theorem Valid.clear_condition {code : Int64} (hcode : code ∈ set.codes) :
    set.Clear set.jump (set.condition + code) := by
  have hgroup : set.Clear set.jump set.condition :=
    ⟨h.flag_and .condition .jump (by decide), h.flag_and .condition .immediate0 (by decide),
      h.flag_and .condition .immediate1 (by decide)⟩
  exact hgroup.add (clear_of_flags .jump (h.code_and hcode)) (h.condition_and_code hcode)

/-- Within the ALU group an opcode has one composition. -/
theorem Valid.compose_alu_inj {operation operation' : Option Operation}
    {high high' left left' right right' : Bool}
    (heq : set.compose (.alu operation high left right) =
      set.compose (.alu operation' high' left' right')) :
    Composition.alu operation high left right = .alu operation' high' left' right' := by
  -- the group is the first summand on both sides, whatever bits it has
  have hsum (operation : Option Operation) (high left right : Bool) :
      set.compose (.alu operation high left right) =
        set.alu + set.flagged (plus (set.aluCode operation) high set.wordHigh) left right := by
    simp only [compose, flagged, plus, Int64.add_assoc]
  have hclear (operation : Option Operation) : set.Clear set.wordHigh (set.aluCode operation) :=
    clear_of_flags .wordHigh (h.aluCode_and operation)
  rw [hsum, hsum, Int64.add_right_inj] at heq
  obtain ⟨hcode, rfl, rfl, rfl⟩ :=
    (hclear operation).flagged_inj (hclear operation') h.addable_wordHigh heq
  rw [h.aluCode_inj hcode]

/-- Within the group of the comparisons an opcode has one composition. -/
theorem Valid.compose_condition_inj {code code' : Int64}
    {jump jump' left left' right right' : Bool} (hcode : code ∈ set.codes)
    (hcode' : code' ∈ set.codes)
    (heq : set.compose (.condition code jump left right) =
      set.compose (.condition code' jump' left' right')) :
    Composition.condition code jump left right = .condition code' jump' left' right' := by
  obtain ⟨hsum, rfl, rfl, rfl⟩ := (h.clear_condition hcode).flagged_inj (h.clear_condition hcode')
    h.addable_jump heq
  rw [(Int64.add_right_inj _).mp hsum]

/-- The bits of the comparisons tell the groups apart, unless the ALU group carries. -/
theorem Valid.compose_alu_ne_condition {operation : Option Operation} {code : Int64}
    {high left right jump left' right' : Bool} (hcode : code ∈ set.codes)
    (hcarry : set.alu &&& set.aluCode operation = 0) :
    set.compose (.alu operation high left right) ≠
      set.compose (.condition code jump left' right') := by
  intro heq
  have hleft : set.compose (.alu operation high left right) &&& set.condition = 0 := by
    have hclear : set.Clear set.wordHigh (set.alu + set.aluCode operation) :=
      (clear_of_flags .wordHigh h.alu_and).add
        (clear_of_flags .wordHigh (h.aluCode_and operation)) hcarry
    calc set.compose (.alu operation high left right) &&& set.condition
      _ = (set.alu + set.aluCode operation) &&& set.condition :=
        hclear.flagged_and_condition h.addable_wordHigh
      _ = set.alu &&& set.condition ||| set.aluCode operation &&& set.condition := by
        rw [add_eq_or hcarry, or_and_distrib]
      _ = 0 := Int64.or_eq_zero_iff.mpr ⟨h.alu_and .condition, h.aluCode_and operation .condition⟩
  have hright : set.compose (.condition code jump left' right') &&& set.condition =
      set.condition := by
    calc set.compose (.condition code jump left' right') &&& set.condition
      _ = (set.condition + code) &&& set.condition :=
        (h.clear_condition hcode).flagged_and_condition h.addable_jump
      _ = set.condition := by
        rw [add_eq_or (h.condition_and_code hcode), or_and_distrib, Int64.and_self,
          and_eq_zero_comm.mp (h.condition_and_code hcode), Int64.or_zero]
  exact h.flag_ne_zero .condition (hright.symm.trans (heq ▸ hleft))

end Codes

/-- Two compositions of one opcode are the same, or in different groups of which that of the ALU
carries. -/
theorem Valid.compose_eq (h : set.Valid) (hx : set.Admits x) (hy : set.Admits y)
    (heq : set.compose x = set.compose y) :
    x = y ∨ x.isAlu ≠ y.isAlu ∧ (set.Carries x ∨ set.Carries y) := by
  cases x with
  | alu operation high left right =>
    cases y with
    | alu => exact .inl (h.compose_alu_inj heq)
    | condition =>
      refine .inr ⟨nofun, .inl ?_⟩
      intro hcarry
      exact h.compose_alu_ne_condition hy hcarry heq
  | condition code jump left right =>
    cases y with
    | alu =>
      refine .inr ⟨nofun, .inr ?_⟩
      intro hcarry
      exact h.compose_alu_ne_condition hx hcarry heq.symm
    | condition => exact .inl (h.compose_condition_inj hx hy heq)

/-! ## Programs -/

theorem composed_moveOp (set : InstructionSet) (source : Operand) (constant : Bool)
    (dest : Int64) : set.Composed (set.moveOp source constant dest).opcode := by
  refine ⟨.alu none false constant false, trivial, ?_⟩
  simp [compose, flagged, aluCode, moveOp]

theorem composed_of_mem_stageSource {scratch flag : Int64} {v : Value} {op : Op}
    (hop : op ∈ (set.stageSource scratch flag v).code) : set.Composed op.opcode := by
  unfold stageSource at hop
  split at hop
  · rcases List.mem_pair.mp hop with rfl | rfl <;> exact composed_moveOp ..
  · cases hop
  · cases hop
  · cases hop

theorem composed_of_mem_binaryOps {opcode : Int64} {a b : Value} {front : List Op}
    {dest : Operand} (hopcode : ∀ left right, set.Composed (set.flagged opcode left right))
    (hfront : ∀ op ∈ front, set.Composed op.opcode) {op : Op}
    (hop : op ∈ set.binaryOps opcode a b front dest) : set.Composed op.opcode := by
  simp only [binaryOps, List.mem_append, List.mem_singleton] at hop
  rcases hop with ((hleft | hright) | hfront') | rfl
  · exact composed_of_mem_stageSource hleft
  · exact composed_of_mem_stageSource hright
  · exact hfront op hfront'
  · rw [opcode_eq_flagged]
    exact hopcode _ _

theorem composed_of_mem_storeOps {opcode : Int64} {a b dest : Value}
    (hopcode : ∀ left right, set.Composed (set.flagged opcode left right)) {op : Op}
    (hop : op ∈ set.storeOps opcode a b dest) : set.Composed op.opcode := by
  refine composed_of_mem_binaryOps hopcode ?_ hop
  intro op hop
  split at hop
  · rw [List.mem_singleton.mp hop]
    exact composed_moveOp ..
  · cases hop

theorem composed_of_mem_assignOps {dest source : Value} {op : Op}
    (hop : op ∈ set.assignOps dest source) : set.Composed op.opcode := by
  unfold assignOps at hop
  dsimp only at hop
  split at hop <;> simp only [List.mem_cons, List.not_mem_nil, or_false] at hop
  · rcases hop with rfl | rfl | rfl | rfl <;> exact composed_moveOp ..
  · rcases hop with rfl | rfl <;> exact composed_moveOp ..
  · rcases hop with rfl | rfl <;> exact composed_moveOp ..
  · rw [hop]
    exact composed_moveOp ..

end InstructionSet

namespace Translator

variable {t t' : Translator} {line : Line} {emitted : List Instr} {ops : List Op}

/-- Every operation of a line has a composed opcode. -/
theorem composed_of_process {next : Translator} (hrun : (process line).on t = (.ok ops, next)) :
    ∀ op ∈ ops, t.set.Composed op.opcode := by
  intro op hop
  cases effect_of_process hrun with
  | names change memory hk =>
    cases lowered_of_process hk hrun with
    | nothing => cases hop
    | assign => exact InstructionSet.composed_of_mem_assignOps hop
    | arithmetic hcall operation high =>
      refine InstructionSet.composed_of_mem_storeOps ?_ hop
      intro left right
      exact ⟨.alu (some operation) high left right, trivial, rfl⟩
    | comparison hcall code hcode =>
      refine InstructionSet.composed_of_mem_storeOps ?_ hop
      intro left right
      refine ⟨.condition code false left right, hcode, ?_⟩
      simp [InstructionSet.compose]
    | call => rcases List.mem_pair.mp hop with rfl | rfl <;> exact t.set.composed_moveOp ..
  | define | endCondition => cases hop
  | @condition keyword comparison a b rest code left right hk hfields hcode =>
    refine InstructionSet.composed_of_mem_binaryOps ?_ (by simp) hop
    intro left right
    exact ⟨.condition code true left right, InstructionSet.mem_codes hcode, rfl⟩
  | endDefine =>
    rw [List.mem_singleton.mp hop]
    exact t.set.composed_moveOp ..

/-- Every instruction of a program has a composed opcode. -/
def AllComposed (t : Translator) : Prop := ∀ i ∈ t.program.code.toList, t.set.Composed i.opcode

theorem AllComposed.feed (h : AllComposed t) (hdrafted : Drafted t)
    (hfeed : t.feed line = (.ok emitted, t')) : AllComposed t' := by
  intro i hi
  rw [show t'.set = t.set from congrArg Config.set (feed_config hfeed)]
  rcases hdrafted.mem_code hfeed hi with hold | hnew | ⟨anchor, _, hskip⟩
  · exact h i hold
  · obtain ⟨ops, next, hrun, hemit⟩ := feed_ok hfeed
    obtain rfl : (next.emit line ops).1 = emitted := by rw [hemit]
    exact composed_of_process hrun i.op (op_mem_of_mem_number hnew)
  · rw [show i.opcode = (t.set.skipOp.fill (.after anchor)).opcode from congrArg Op.opcode hskip]
    exact t.set.composed_moveOp ..

theorem allComposed_feedEach (config : Config) (lines : List Line) :
    AllComposed ((new config).feedEach lines) := by
  have hboth : Drafted ((new config).feedEach lines) ∧ AllComposed ((new config).feedEach lines) :=
    @run_induction (fun t _ => Drafted t ∧ AllComposed t) config
      ⟨drafted_new config, by simp [AllComposed, new]⟩
      (fun _ _ _ ⟨hdrafted, hall⟩ hfeed => ⟨hdrafted.feed hfeed, hall.feed hdrafted hfeed⟩) lines
  exact hboth.2

/-- With a valid set every instruction of a program has a composed opcode, and two compositions of
one opcode are the same unless they are in different groups and the ALU group carries. -/
theorem opcode_composition {config : Config} (hvalid : config.set.validate = .ok ()) :
    (∀ lines, ∀ i ∈ ((new config).feedEach lines).program.code.toList,
      ∃ x, config.set.Admits x ∧ config.set.compose x = i.opcode) ∧
    ∀ x y, config.set.Admits x → config.set.Admits y →
      config.set.compose x = config.set.compose y →
        x = y ∨ x.isAlu ≠ y.isAlu ∧ (config.set.Carries x ∨ config.set.Carries y) := by
  refine ⟨?_, ?_⟩
  · intro lines i hi
    have hconfig : ((new config).feedEach lines).config = config :=
      (seated_new config).feedEach_config lines
    have hcomposed := allComposed_feedEach config lines i hi
    rwa [show ((new config).feedEach lines).set = config.set from
      congrArg Config.set hconfig] at hcomposed
  · intro x y hx hy heq
    exact (InstructionSet.valid_of_validate hvalid).compose_eq hx hy heq

/-- The ALU group of the reference CPU has no bits, so it never carries. -/
theorem opcode_composition_standard :
    InstructionSet.standard.validate = .ok () ∧
      ∀ x y, InstructionSet.standard.Admits x → InstructionSet.standard.Admits y →
        InstructionSet.standard.compose x = InstructionSet.standard.compose y → x = y := by
  have hvalid : InstructionSet.standard.validate = .ok () := by decide
  have hcarry (x : Composition) : ¬InstructionSet.standard.Carries x := by
    cases x with
    | alu => simp [InstructionSet.Carries, InstructionSet.standard]
    | condition => exact not_false
  refine ⟨hvalid, ?_⟩
  intro x y hx hy heq
  rcases (@opcode_composition {} hvalid).2 x y hx hy heq with hsame | ⟨_, hcarries | hcarries⟩
  · exact hsame
  · exact absurd hcarries (hcarry x)
  · exact absurd hcarries (hcarry y)

/-- A set whose ALU group shares its bit with the code of an addition.  The sum of the two is the
flag of the comparisons. -/
def carrying : InstructionSet := { InstructionSet.standard with alu := 8, add := 8, jump := 256 }

/-- The set is valid, and yet an addition and a comparison are the same instruction. -/
theorem opcodes_collide :
    carrying.validate = .ok () ∧
      carrying.Admits (.condition 0 false true true) ∧
      carrying.compose (.alu (some .add) false true true) =
        carrying.compose (.condition 0 false true true) ∧
      ((new { set := carrying }).feedEach
        [⟨1, ["ADD", "1", "2", "~3"], []⟩, ⟨2, ["EQ", "1", "2", "~3"], []⟩]).program.formatAll =
          [("208 1 2 3" : Text), ("208 1 2 3" : Text)] := by
  refine ⟨by decide, ?_, by decide, ?_⟩
  · show (0 : Int64) ∈ carrying.codes
    decide
  · cbv

end Translator

end AccuAsm
