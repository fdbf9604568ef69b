import AccuAsm.Proofs.Reading

/-!
# The layout of a program

A program is built in one pass: jumps over blocks are put in when the block closes, and
addresses are worked out at the very end.  The layout goes through the statements once,
from left to right, and knows where everything stands.

There are two groups.

* The layout.  `Body.layout` gives the words of statements from the index of their first
  instruction and the entries of the definitions before them.
* Addresses.  `Instr.word?` is the word of an instruction once it is known where the
  instructions stand, and `Settles` compares operations that name other instructions
  with operations that hold addresses.
-/

namespace AccuAsm

/-! ## The layout -/

/-- The operand that holds the address of the instruction at an index. -/
def Operand.index (index : Nat) : Operand := .literal (address (Int64.ofNat index))

/-- The number in an operand that names no other instruction. -/
def Operand.number : Operand → Int64
  | .literal n => n
  | .target _ | .pending => 0

namespace Op

/-- The word of an operation that names no other instruction. -/
def word (op : Op) (line : Int) (comment : Text) : Word where
  opcode := op.opcode
  args := op.args.map Operand.number
  line := line
  comment := comment

/-- The words of a statement; the comment goes to the first. -/
def words (line : Int) (comment : Text) : List Op → List Word
  | [] => []
  | op :: rest => op.word line comment :: words line [] rest

theorem length_words (line : Int) (comment : Text) (ops : List Op) :
    (words line comment ops).length = ops.length := by
  induction ops generalizing comment with
  | nil => rfl
  | cons op rest ih => rw [words, List.length_cons, List.length_cons, ih]

theorem exists_words_concat (line : Int) (comment : Text) (ops : List Op) (op : Op) :
    ∃ comment', words line comment (ops ++ [op]) =
      words line comment ops ++ [op.word line comment'] := by
  induction ops generalizing comment with
  | nil => exact ⟨comment, rfl⟩
  | cons first rest ih =>
    obtain ⟨comment', hrest⟩ := ih []
    exact ⟨comment', by rw [List.cons_append, words, words, hrest, List.cons_append]⟩

end Op

namespace InstructionSet

variable (set : InstructionSet) (code : Int64) (left right : Value) (place : Operand)

theorem length_branchOps :
    (set.branchOps code left right place).length =
      ((set.stageLeft left).code ++ (set.stageRight right).code).length + 1 := by
  rw [branchOps, binaryOps, List.append_nil, List.length_append]
  rfl

theorem length_branchOps_eq :
    (set.branchOps code left right place).length =
      (set.branchOps code left right .pending).length := by
  rw [length_branchOps, length_branchOps]

end InstructionSet

/-- The comment, if comments are wanted. -/
def Config.remark (config : Config) (comment : Text) : Text :=
  if config.annotate then comment else []

/-- The index of the jump over each definition. -/
abbrev Entries := Text → Nat

/-- The entries with one more definition. -/
def Entries.insert (entries : Entries) (name : Text) (index : Nat) : Entries :=
  fun other => if other = name then index else entries other

/-- A stretch of a layout: its words, and the entries behind it.  It depends on the index of its
first instruction and the entries in front of it. -/
abbrev Piece := Nat → Entries → List Word × Entries

namespace Piece

/-- No instruction. -/
def nil : Piece := fun _ entries => ([], entries)

/-- One stretch behind another. -/
def append (first second : Piece) : Piece := fun base entries =>
  let front := first base entries
  let back := second (base + front.1.length) front.2
  (front.1 ++ back.1, back.2)

/-- A plain line.  A call resumes behind its two instructions and enters behind the jump over the
definition. -/
def plain (config : Config) (line : Line) (action : Action) : Piece := fun base entries =>
  let ops := action.ops config.set (.index (base + 2)) fun name => .index (entries name + 1)
  (Op.words line.number (config.remark line.text) ops, entries)

/-- A definition: a jump behind the return, the body, and the return. -/
def definition (config : Config) (head : Line) (name : Text) (body : Piece) (tail : Line) : Piece :=
  fun base entries =>
    let inner := body (base + 1) (entries.insert name base)
    let skip := config.set.jumpOp (.index (base + 1 + inner.1.length + 1)) true
    (skip.word head.number (config.remark ("skip DEF " ++ name)) ::
      (inner.1 ++ [config.set.returnOp.word tail.number (config.remark tail.text)]), inner.2)

/-- A condition: a head that jumps into the body, a jump behind the body, and the body. -/
def condition (config : Config) (head : Line) (code : Int64) (left right : Value) (body : Piece) :
    Piece := fun base entries =>
  let site := base + (config.set.branchOps code left right .pending).length
  let inner := body (site + 1) entries
  let front := config.set.branchOps code left right (.index (site + 1))
  let skip := config.set.jumpOp (.index (site + 1 + inner.1.length)) true
  (Op.words head.number (config.remark head.text) front ++
    skip.word head.number (config.remark "skip IF") :: inner.1, inner.2)

end Piece

/-- Statements, laid out from left to right. -/
def Body.layout (config : Config) : Body → Piece
  | .nil => .nil
  | .action line a rest => (Piece.plain config line a).append (rest.layout config)
  | .definition head name body tail rest =>
    (Piece.definition config head name (body.layout config) tail).append (rest.layout config)
  | .condition head code left right body rest =>
    (Piece.condition config head code left right (body.layout config)).append (rest.layout config)

/-- The words of a whole program. -/
def Body.words (config : Config) (body : Body) : List Word := (body.layout config 0 fun _ => 0).1

/-! ## Addresses -/

/-- The number that an operand stands for, if it is known where instructions stand. -/
def Operand.at? (place : Nat → Option Nat) : Operand → Option Int64
  | .literal n => some n
  | .target p => (place p.anchor).map fun index => address (Int64.ofNat index + p.offset)
  | .pending => none

@[simp] theorem Operand.number_literal (n : Int64) : (Operand.literal n).number = n := rfl

@[simp] theorem Operand.at?_literal (place : Nat → Option Nat) (n : Int64) :
    (Operand.literal n).at? place = some n := rfl

theorem Operand.at?_after {place : Nat → Option Nat} {serial index : Nat}
    (h : place serial = some index) :
    (Operand.target (.after serial)).at? place = some (Operand.index (index + 1)).number := by
  simp [at?, Target.after, h, Operand.index, number, Int64.ofNat_add]

/-- The word of an operation, if it is known where instructions stand. -/
def Op.word? (place : Nat → Option Nat) (op : Op) (line : Int) (comment : Text) : Option Word := do
  let left ← op.args.left.at? place
  let right ← op.args.right.at? place
  let dest ← op.args.dest.at? place
  return { opcode := op.opcode, args := ⟨left, right, dest⟩, line, comment }

/-- The word of an instruction, if it is known where instructions stand. -/
def Instr.word? (place : Nat → Option Nat) (i : Instr) : Option Word :=
  Op.word? place ⟨i.opcode, i.args⟩ i.line i.comment

/-- Operations that name other instructions against operations that hold their addresses. -/
def Settles (place : Nat → Option Nat) (ops settled : List Op) : Prop :=
  ∀ line comment, ops.map (·.word? place line comment) =
    settled.map fun op => some (op.word line comment)

section Settles

variable {place : Nat → Option Nat} {ops ops' settled settled' : List Op}

theorem Settles.append (h : Settles place ops settled) (h' : Settles place ops' settled') :
    Settles place (ops ++ ops') (settled ++ settled') := by
  intro line comment
  rw [List.map_append, List.map_append, h, h']

theorem settles_single {opcode left right : Int64} {dest dest' : Operand}
    (h : dest.at? place = some dest'.number) :
    Settles place [⟨opcode, ⟨.literal left, .literal right, dest⟩⟩]
      [⟨opcode, ⟨.literal left, .literal right, dest'⟩⟩] := by
  intro line comment
  simp [Op.word?, Op.word, Args.map, h]

theorem settles_moveOp (set : InstructionSet) {source source' : Operand} (constant : Bool)
    (dest : Int64) (h : source.at? place = some source'.number) :
    Settles place [set.moveOp source constant dest] [set.moveOp source' constant dest] := by
  intro line comment
  simp [Op.word?, Op.word, InstructionSet.moveOp, Args.map, h]

/-- Bringing a source into place names no other instruction. -/
theorem settles_stageSource (set : InstructionSet) (scratch flag : Int64) (v : Value) :
    Settles place (set.stageSource scratch flag v).code (set.stageSource scratch flag v).code := by
  rcases v with ⟨kind, payload⟩
  intro line comment
  cases kind <;> rfl

/-- Two sources and a destination that names an instruction. -/
theorem settles_binaryOps {set : InstructionSet} {opcode : Int64} {a b : Value} {front : List Op}
    {dest dest' : Operand} (hfront : Settles place front front)
    (h : dest.at? place = some dest'.number) :
    Settles place (set.binaryOps opcode a b front dest) (set.binaryOps opcode a b front dest') :=
  (((settles_stageSource set _ _ a).append (settles_stageSource set _ _ b)).append hfront).append
    (settles_single h)

theorem settles_storeOps (set : InstructionSet) (opcode : Int64) (a b dest : Value) :
    Settles place (set.storeOps opcode a b dest) (set.storeOps opcode a b dest) := by
  refine settles_binaryOps ?_ rfl
  rcases dest with ⟨kind, payload⟩
  intro line comment
  cases kind <;> rfl

theorem settles_assignOps (set : InstructionSet) (dest source : Value) :
    Settles place (set.assignOps dest source) (set.assignOps dest source) := by
  rcases dest with ⟨kind, payload⟩
  rcases source with ⟨kind', payload'⟩
  intro line comment
  cases kind <;> cases kind' <;> rfl

/-- The operations of an action.  Only a call names other instructions. -/
theorem settles_ops {set : InstructionSet} {resume resume' : Operand}
    {entry entry' : Text → Operand} (action : Action)
    (hresume : ∀ name, action = .call name → resume.at? place = some resume'.number)
    (hentry : ∀ name, action = .call name → (entry name).at? place = some (entry' name).number) :
    Settles place (action.ops set resume entry) (action.ops set resume' entry') := by
  cases action with
  | nothing => exact fun _ _ => rfl
  | assign dest source => exact settles_assignOps set dest source
  | arithmetic operation high left right dest => exact settles_storeOps set _ left right dest
  | comparison code left right dest => exact settles_storeOps set _ left right dest
  | call name =>
    exact (settles_moveOp set true _ (hresume name rfl)).append
      (settles_moveOp set true _ (hentry name rfl))

/-- Instructions with serial numbers have the words of their operations. -/
theorem Settles.number (h : Settles place ops settled) (serial : Nat) (line : Int)
    (comment : Text) :
    (Translator.number serial line comment ops).map (·.word? place) =
      (Op.words line comment settled).map some := by
  induction ops generalizing serial comment settled with
  | nil =>
    have hnil : settled = [] := by simpa using (h line comment).symm
    rw [hnil]
    rfl
  | cons op rest ih =>
    cases settled with
    | nil => simp [Settles] at h
    | cons op' rest' =>
      have hhead := h line comment
      rw [List.map_cons, List.map_cons, List.cons.injEq] at hhead
      rw [Translator.number, Op.words, List.map_cons, List.map_cons]
      refine congr (congrArg List.cons hhead.1) (ih ?_ (serial + 1) [])
      intro line comment
      exact (List.cons.inj (h line comment)).2

end Settles

end AccuAsm
