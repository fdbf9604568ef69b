import AccuAsm.Proofs.Layout

/-!
# The machine

What the words of a program do.  Registers and RAM hold integers.  One register gives
access to the RAM cell that the latch selects, and another one is the program counter.
What the circuits compute is left open.

There are two groups.

* The machine.  `Machine.execute` runs one word, and `Machine.run` runs a program.
  `Reaches` says that a run passes through a state, and `StandsAt` that words stand at an
  index of a program.
* Opcodes.  `InstructionSet.decode_move`, `InstructionSet.decode_arithmetic`,
  `InstructionSet.decode_comparison` and `InstructionSet.decode_branch` say what an opcode
  is taken for, with the flags of constant operands added to it.
-/

namespace AccuAsm

/-! ## The machine -/

/-- Registers and RAM. -/
structure Store where
  /-- The registers. -/
  registers : Int64 → Int
  /-- The RAM cells. -/
  ram : Int → Int

namespace Store

/-- Write a register. -/
def setRegister (s : Store) (number : Int64) (n : Int) : Store :=
  { s with registers := fun other => if other = number then n else s.registers other }

/-- Write a RAM cell. -/
def setCell (s : Store) (cell n : Int) : Store :=
  { s with ram := fun other => if other = cell then n else s.ram other }

end Store

/-- Registers, RAM and program counter. -/
structure Machine extends Store where
  /-- The address of the next word. -/
  pc : Int

/-- What the circuits of the machine compute. -/
structure Circuit where
  /-- The calculations by their codes; with `high`, the high word of the result. -/
  alu : (code : Int64) → (high : Bool) → Int → Int → Int
  /-- The comparisons by their codes. -/
  holds : (code : Int64) → Int → Int → Bool
  /-- The number that stands for the outcome of a comparison. -/
  truth : Bool → Int

/-- Whether an opcode has a flag. -/
def hasFlag (opcode flag : Int64) : Bool := opcode &&& flag != 0

/-- What an opcode is composed of. -/
structure Decoded where
  /-- The first source is a constant. -/
  left : Bool
  /-- The second source is a constant. -/
  right : Bool
  /-- A comparison. -/
  condition : Bool
  /-- The comparison jumps. -/
  jump : Bool
  /-- The high word of the result is wanted. -/
  high : Bool
  /-- What is left without the flags. -/
  code : Int64
  deriving DecidableEq

/-- Take an opcode apart. -/
def InstructionSet.decode (set : InstructionSet) (opcode : Int64) : Decoded where
  left := hasFlag opcode set.immediate0
  right := hasFlag opcode set.immediate1
  condition := hasFlag opcode set.condition
  jump := hasFlag opcode set.jump
  high := hasFlag opcode set.wordHigh
  code := set.flags.foldl (fun rest flag => rest &&& ~~~flag.2) opcode

/-- The number that a word writes: the outcome of a comparison, a copy of the first source, or the
result of a calculation. -/
def Circuit.output (circuit : Circuit) (set : InstructionSet) (d : Decoded) (a b : Int) : Int :=
  if d.condition then circuit.truth (circuit.holds d.code a b)
  else if d.code = set.move then a
  else circuit.alu d.code d.high a b

namespace Machine

/-- Read a register.  The RAM register stands for the selected cell. -/
def read (r : Registers) (m : Machine) (number : Int64) : Int :=
  if number = r.ram then m.ram (m.registers r.latch)
  else if number = r.counter then m.pc
  else m.registers number

/-- The value of a source field: a constant, or the content of a register. -/
def source (r : Registers) (m : Machine) (constant : Bool) (field : Int64) : Int :=
  if constant then field.toInt else m.read r field

/-- Write a register and go on.  A write to the program counter is a jump. -/
def write (r : Registers) (m : Machine) (number : Int64) (n : Int) : Machine :=
  if number = r.counter then { m with pc := n }
  else if number = r.ram then
    { m.setCell (m.registers r.latch) n with pc := m.pc + instructionWidth }
  else { m.setRegister number n with pc := m.pc + instructionWidth }

/-- Execute a word.  A comparison with the flag for it jumps when it holds.  Everything else writes
a number. -/
def execute (set : InstructionSet) (circuit : Circuit) (m : Machine) (opcode : Int64)
    (args : Args Int64) : Machine :=
  let d := set.decode opcode
  let a := m.source set.registers d.left args.left
  let b := m.source set.registers d.right args.right
  if d.condition && d.jump then
    { m with pc := if circuit.holds d.code a b then args.dest.toInt else m.pc + instructionWidth }
  else m.write set.registers args.dest (circuit.output set d a b)

/-- The word that the program counter points at. -/
def fetch (words : List Word) (m : Machine) : Option Word :=
  if 0 ≤ m.pc ∧ m.pc % instructionWidth = 0 then words[(m.pc / instructionWidth).toNat]? else none

/-- Execute so many words of a program.  Outside the program nothing happens. -/
def run (set : InstructionSet) (circuit : Circuit) (words : List Word) : Nat → Machine → Machine
  | 0, m => m
  | count + 1, m =>
    match m.fetch words with
    | some w => run set circuit words count (m.execute set circuit w.opcode w.args)
    | none => m

end Machine

section Reaches

variable {set : InstructionSet} {circuit : Circuit} {words : List Word} {m m' m'' : Machine}

theorem Machine.run_add (first second : Nat) (m : Machine) :
    m.run set circuit words (first + second) =
      (m.run set circuit words first).run set circuit words second := by
  induction first generalizing m with
  | zero => rw [Nat.zero_add, run]
  | succ first ih =>
    rw [Nat.succ_add, run, run]
    cases hfetch : m.fetch words with
    | some w => exact ih _
    | none =>
      cases second with
      | zero => rfl
      | succ second => rw [run, hfetch]

/-- A run of the program passes from one state to another. -/
def Reaches (set : InstructionSet) (circuit : Circuit) (words : List Word) (m m' : Machine) :
    Prop :=
  ∃ count, m.run set circuit words count = m'

theorem Reaches.refl (m : Machine) : Reaches set circuit words m m := ⟨0, rfl⟩

theorem Reaches.trans (h : Reaches set circuit words m m')
    (h' : Reaches set circuit words m' m'') : Reaches set circuit words m m'' := by
  obtain ⟨first, rfl⟩ := h
  obtain ⟨second, rfl⟩ := h'
  exact ⟨first + second, Machine.run_add first second m⟩

theorem reaches_execute {w : Word} (h : m.fetch words = some w) :
    Reaches set circuit words m (m.execute set circuit w.opcode w.args) := by
  refine ⟨1, ?_⟩
  simp only [Machine.run, h]

end Reaches

/-- The program holds these words from an index on. -/
def StandsAt (words : List Word) (base : Nat) (piece : List Word) : Prop :=
  ∃ front back, words = front ++ piece ++ back ∧ front.length = base

section StandsAt

variable {words piece piece' : List Word} {base : Nat} {w : Word} {m : Machine}

theorem StandsAt.left (h : StandsAt words base (piece ++ piece')) : StandsAt words base piece := by
  obtain ⟨front, back, rfl, rfl⟩ := h
  exact ⟨front, piece' ++ back, by simp, rfl⟩

theorem StandsAt.right (h : StandsAt words base (piece ++ piece')) :
    StandsAt words (base + piece.length) piece' := by
  obtain ⟨front, back, rfl, rfl⟩ := h
  exact ⟨front ++ piece, back, by simp, by simp⟩

theorem StandsAt.tail (h : StandsAt words base (w :: piece)) : StandsAt words (base + 1) piece :=
  @right words [w] piece base h

theorem StandsAt.length_le (h : StandsAt words base piece) :
    base + piece.length ≤ words.length := by
  obtain ⟨front, back, rfl, rfl⟩ := h
  simp

theorem StandsAt.fetch (h : StandsAt words base (w :: piece)) (hpc : m.pc = 4 * base) :
    m.fetch words = some w := by
  obtain ⟨front, back, rfl, rfl⟩ := h
  have hindex : (m.pc / instructionWidth).toNat = front.length := by
    rw [hpc, instructionWidth]
    omega
  rw [Machine.fetch, if_pos (by rw [hpc, instructionWidth]; omega), hindex]
  simp

end StandsAt

theorem toInt_address {index : Nat} (h : 4 * index < 2 ^ 63) :
    (Operand.index index).number.toInt = 4 * index := by
  have hwidth : address (Int64.ofNat index) = Int64.ofNat (index * 4) := by
    rw [Int64.ofNat_mul]
    rfl
  rw [Operand.index, Operand.number_literal, hwidth, Int64.toInt_ofNat_of_lt (by omega)]
  omega

/-! ## Opcodes -/

namespace InstructionSet

/-- An opcode with the flags of constant sources. -/
def flagged (set : InstructionSet) (opcode : Int64) (left right : Bool) : Int64 :=
  opcode + (if left then set.immediate0 else 0) + if right then set.immediate1 else 0

theorem stageSource_flag (set : InstructionSet) (scratch flag : Int64) (v : Value) :
    (set.stageSource scratch flag v).flag = if v.kind = .immediate then flag else 0 := by
  rcases v with ⟨kind, payload⟩
  cases kind <;> rfl

/-- The opcode of an operation on two sources. -/
theorem opcode_eq_flagged (set : InstructionSet) (opcode : Int64) (a b : Value) :
    opcode + (set.stageLeft a).flag + (set.stageRight b).flag =
      set.flagged opcode (a.kind = .immediate) (b.kind = .immediate) := by
  simp [flagged, stageLeft, stageRight, stageSource_flag]

theorem decode_move (constant : Bool) :
    standard.decode (standard.alu + standard.move + if constant then standard.immediate0 else 0) =
      ⟨constant, false, false, false, false, standard.move⟩ := by
  cases constant <;> decide

theorem decode_arithmetic (operation : Operation) (high left right : Bool) :
    standard.decode (standard.flagged (standard.alu + standard.operationCode operation +
      if high then standard.wordHigh else 0) left right) =
        ⟨left, right, false, false, high, standard.operationCode operation⟩ := by
  cases operation <;> cases high <;> cases left <;> cases right <;> decide

theorem operationCode_ne_move (operation : Operation) :
    standard.operationCode operation ≠ standard.move := by
  cases operation <;> decide

theorem decode_comparison {code : Int64} (hcode : code ∈ standard.codes) (left right : Bool) :
    standard.decode (standard.flagged (standard.condition + code) left right) =
      ⟨left, right, true, false, false, code⟩ := by
  have hall : standard.codes.all (fun code => decide (∀ left right : Bool,
      standard.decode (standard.flagged (standard.condition + code) left right) =
        ⟨left, right, true, false, false, code⟩)) := by
    decide +kernel
  exact of_decide_eq_true (List.all_eq_true.mp hall code hcode) left right

theorem decode_branch {code : Int64} (hcode : code ∈ standard.codes) (left right : Bool) :
    standard.decode (standard.flagged (standard.condition + code + standard.jump) left right) =
      ⟨left, right, true, true, false, code⟩ := by
  have hall : standard.codes.all (fun code => decide (∀ left right : Bool,
      standard.decode (standard.flagged (standard.condition + code + standard.jump) left right) =
        ⟨left, right, true, true, false, code⟩)) := by
    decide +kernel
  exact of_decide_eq_true (List.all_eq_true.mp hall code hcode) left right

end InstructionSet

end AccuAsm
