import AccuAsm.Proofs.Execution
import AccuAsm.Proofs.Pass

/-!
# The meaning of a source

A source has a meaning of its own: its statements act on registers and RAM, one after
the other, the body of a condition only when the comparison holds, and the body of a
definition where it is called.  The words of a program do the same on the machine.

There are three groups.

* The meaning.  `Body.run` runs statements, and `Body.routines` is what the definitions
  among them do.
* Pieces of a program.  `Executes` says what a stretch of words does when it is run through
  from its first address, and `Linked` what happens behind the entries of definitions.
  There is one lemma for each kind of statement.
* The program.  `Body.linked_and_executes` is the induction over the statements, and
  `translation_preserves_meaning` the result.
-/

namespace AccuAsm

open InstructionSet (standard)

/-! ## The meaning -/

/-- What the definitions do. -/
abbrev Routines := Text → Store → Store

/-- The routines with one more definition. -/
def Routines.insert (routines : Routines) (name : Text) (f : Store → Store) : Routines :=
  fun other => if other = name then f else routines other

/-- Perform an action. -/
def Action.run (set : InstructionSet) (circuit : Circuit) (routines : Routines) (s : Store) :
    Action → Store
  | .nothing => s
  | .assign dest source => s.assign dest (s.value source)
  | .arithmetic operation high left right dest =>
    s.assign dest (circuit.alu (set.operationCode operation) high (s.value left) (s.value right))
  | .comparison code left right dest =>
    s.assign dest (circuit.truth (circuit.holds code (s.value left) (s.value right)))
  | .call name => routines name s

mutual

/-- Run statements.  A definition does nothing where it stands, and the body of a condition is run
if the comparison holds. -/
def Body.run (set : InstructionSet) (circuit : Circuit) : Body → Routines → Store → Store
  | .nil, _, s => s
  | .action _ a rest, routines, s => rest.run set circuit routines (a.run set circuit routines s)
  | .definition _ name body _ rest, routines, s =>
    let routines := routines.insert name (body.run set circuit routines)
    rest.run set circuit (body.routines set circuit routines) s
  | .condition _ code left right body rest, routines, s =>
    let holds := circuit.holds code (s.value left) (s.value right)
    rest.run set circuit (body.routines set circuit routines)
      (if holds then body.run set circuit routines s else s)

/-- What definitions do, among them those inside of blocks.  A call can stand anywhere behind the
definition, whether or not the block around the definition has been run. -/
def Body.routines (set : InstructionSet) (circuit : Circuit) : Body → Routines → Routines
  | .nil, routines => routines
  | .action _ _ rest, routines => rest.routines set circuit routines
  | .definition _ name body _ rest, routines =>
    let routines := routines.insert name (body.run set circuit routines)
    rest.routines set circuit (body.routines set circuit routines)
  | .condition _ _ _ _ body rest, routines =>
    rest.routines set circuit (body.routines set circuit routines)

end

/-- The action is a call. -/
def Action.isCall : Action → Bool
  | .call _ => true
  | .nothing | .assign _ _ | .arithmetic _ _ _ _ _ | .comparison _ _ _ _ => false

/-- No operand is a reserved register. -/
def Action.ordinary (r : Registers) : Action → Bool
  | .nothing | .call _ => true
  | .assign dest source => dest.val.ordinary r && source.ordinary r
  | .arithmetic _ _ left right dest | .comparison _ left right dest =>
    left.ordinary r && right.ordinary r && dest.val.ordinary r

namespace Body

/-- No operand is a reserved register. -/
def ordinary (r : Registers) : Body → Bool
  | .nil => true
  | .action _ a rest => a.ordinary r && rest.ordinary r
  | .definition _ _ body _ rest => body.ordinary r && rest.ordinary r
  | .condition _ _ left right body rest =>
    left.ordinary r && right.ordinary r && body.ordinary r && rest.ordinary r

/-- There is a call somewhere. -/
def calls : Body → Bool
  | .nil => false
  | .action _ a rest => a.isCall || rest.calls
  | .definition _ _ body _ rest => body.calls || rest.calls
  | .condition _ _ _ _ body rest => body.calls || rest.calls

/-- There is no call inside a definition. -/
def flat : Body → Bool
  | .nil => true
  | .action _ _ rest => rest.flat
  | .definition _ _ body _ rest => !body.calls && rest.flat
  | .condition _ _ _ _ body rest => body.flat && rest.flat

theorem flat_of_calls_eq_false {body : Body} (h : body.calls = false) : body.flat := by
  induction body with
  | nil => rfl
  | action line a rest ih => exact ih (Bool.or_eq_false_iff.mp h).2
  | definition head name body tail rest _ ihrest =>
    obtain ⟨hbody, hrest⟩ := Bool.or_eq_false_iff.mp h
    simp [flat, hbody, ihrest hrest]
  | condition head code left right body rest ihbody ihrest =>
    obtain ⟨hbody, hrest⟩ := Bool.or_eq_false_iff.mp h
    simp [flat, ihbody hbody, ihrest hrest]

end Body

/-! ## Pieces of a program -/

/-- The words from an index on take what a source knows from one state to another and then go on
behind their last.  They keep the return address if they make no call. -/
def Executes (circuit : Circuit) (words : List Word) (base count : Nat) (f : Store → Store)
    (calls : Bool) : Prop :=
  ∀ (m : Machine) (s : Store) (resume : Int), m.pc = 4 * base → m.Shows s resume →
    ∃ m' resume', Reaches standard circuit words m m' ∧ m'.pc = 4 * (base + count : Nat) ∧
      m'.Shows (f s) resume' ∧ (calls = false → resume' = resume)

/-- Behind the entry of a definition the machine does what the definition does, and resumes at the
return address. -/
def Linked (circuit : Circuit) (words : List Word) (entries : Entries) (routines : Routines)
    (known : List Text) : Prop :=
  ∀ name ∈ known, entries name < words.length ∧
    ∀ (m : Machine) (s : Store) (resume : Int), m.pc = 4 * (entries name + 1 : Nat) →
      m.Shows s resume →
      ∃ m', Reaches standard circuit words m m' ∧ m'.pc = resume ∧
        m'.Shows (routines name s) resume

section Pieces

variable {circuit : Circuit} {words : List Word} {m : Machine} {s : Store} {resume : Int}
  {base count count' : Nat} {f g : Store → Store} {calls calls' : Bool} {entries : Entries}
  {routines : Routines} {known : List Text}

theorem executes_nil : Executes circuit words base 0 (fun s => s) false :=
  fun m _ resume hpc hshows => ⟨m, resume, .refl m, hpc, hshows, fun _ => rfl⟩

theorem Executes.append (h : Executes circuit words base count f calls)
    (h' : Executes circuit words (base + count) count' g calls') :
    Executes circuit words base (count + count') (fun s => g (f s)) (calls || calls') := by
  intro m s resume hpc hshows
  obtain ⟨m₁, resume₁, hreach₁, hpc₁, hshows₁, hkeeps₁⟩ := h m s resume hpc hshows
  obtain ⟨m₂, resume₂, hreach₂, hpc₂, hshows₂, hkeeps₂⟩ := h' m₁ (f s) resume₁ hpc₁ hshows₁
  refine ⟨m₂, resume₂, hreach₁.trans hreach₂, by rw [hpc₂, Nat.add_assoc], hshows₂, ?_⟩
  intro hcalls
  obtain ⟨hcalls₁, hcalls₂⟩ := Bool.or_eq_false_iff.mp hcalls
  rw [hkeeps₂ hcalls₂, hkeeps₁ hcalls₁]

theorem executes_of_passes {ops : List Op} {line : Int} {comment : Text}
    (hcode : StandsAt words base (Op.words line comment ops))
    (h : ∀ m s resume, m.Shows s resume →
      ∃ m', Passes circuit ops m m' ∧ m'.Shows (f s) resume) :
    Executes circuit words base (Op.words line comment ops).length f false := by
  intro m s resume hpc hshows
  obtain ⟨m', hpass, hshows'⟩ := h m s resume hshows
  obtain ⟨hreach, hpc'⟩ := hpass.reaches hcode hpc
  exact ⟨m', resume, hreach, by rw [hpc', Op.length_words], hshows', fun _ => rfl⟩

variable (circuit) in
theorem reaches_jumpOp {place : Operand} {constant : Bool} {line : Int} {comment : Text}
    {rest : List Word}
    (hcode : StandsAt words base ((standard.jumpOp place constant).word line comment :: rest))
    (hpc : m.pc = 4 * base) :
    Reaches standard circuit words m
      { m with pc := m.source standard.registers constant place.number } := by
  have hexec : m.exec circuit (standard.jumpOp place constant) =
      { m with pc := m.source standard.registers constant place.number } :=
    exec_moveOp circuit place constant standard.registers.counter
  exact hexec ▸ reaches_exec circuit hcode hpc

variable (circuit) in
theorem reaches_jump_index {target : Nat} {line : Int} {comment : Text} {rest : List Word}
    (hcode : StandsAt words base
      ((standard.jumpOp (.index target) true).word line comment :: rest))
    (hpc : m.pc = 4 * base) (htarget : 4 * target < 2 ^ 63) :
    Reaches standard circuit words m { m with pc := 4 * target } := by
  have hreach := reaches_jumpOp circuit hcode hpc
  have hsource : m.source standard.registers true (Operand.index target).number = 4 * target :=
    toInt_address htarget
  exact hsource ▸ hreach

variable (circuit) in
/-- Both outcomes of a comparison that jumps. -/
theorem Machine.Shows.reaches_branchOps {code : Int64} {left right : Value} {target : Nat}
    {line : Int} {comment : Text} (h : m.Shows s resume)
    (hcode : StandsAt words base
      (Op.words line comment (standard.branchOps code left right (.index target))))
    (hmem : code ∈ standard.codes) (hleft : left.ordinary standard.registers)
    (hright : right.ordinary standard.registers) (hpc : m.pc = 4 * base)
    (htarget : 4 * target < 2 ^ 63) :
    ∃ m', Reaches standard circuit words m m' ∧ m'.Shows s resume ∧
      m'.pc = if circuit.holds code (s.value left) (s.value right) then 4 * (target : Int)
        else 4 * (base + (standard.branchOps code left right .pending).length : Nat) := by
  obtain ⟨comment', hwords⟩ :=
    Op.exists_words_concat line comment (standard.prelude left right none) _
  rw [standard.branchOps_eq, hwords] at hcode
  obtain ⟨hreach, hpc₁⟩ := (passes_prelude circuit m left right none).reaches hcode.left hpc
  have hlast := hcode.right
  rw [Op.length_words] at hlast
  have hdecode := InstructionSet.decode_branch hmem
  have hstep := reaches_exec circuit hlast hpc₁
  rw [h.exec_lastOp circuit ⟨false, false, true, true, false, code⟩ hdecode hleft hright] at hstep
  have hshows : (m.stage standard.registers left right none).Shows s resume :=
    h.ready (Machine.ready_stage InstructionSet.apart_standard)
  refine ⟨_, hreach.trans hstep, hshows.jump _, ?_⟩
  have hend : (m.stage standard.registers left right none).pc + instructionWidth =
      4 * (base + (standard.branchOps code left right .pending).length : Nat) := by
    rw [hpc₁, standard.branchOps_eq, List.length_append, List.length_singleton, instructionWidth]
    omega
  rw [← hend, ← toInt_address htarget]
  rfl

/-- A call comes back behind itself, whatever the return address was. -/
theorem executes_call {name : Text} {line : Int} {comment : Text}
    (hsize : 4 * words.length < 2 ^ 63)
    (hcode : StandsAt words base (Op.words line comment
      (Action.ops standard (.index (base + 2)) (fun name => .index (entries name + 1))
        (.call name))))
    (hlinked : Linked circuit words entries routines known) (hname : name ∈ known) :
    Executes circuit words base 2 (routines name) true := by
  intro m s resume hpc hshows
  obtain ⟨hentry, hroutine⟩ := hlinked name hname
  have hlength : base + 2 ≤ words.length := hcode.length_le
  have hback : m.source standard.registers true (Operand.index (base + 2)).number =
      4 * (base + 2 : Nat) := toInt_address (by omega)
  have hcounter : standard.registers.stack ≠ standard.registers.counter := by decide
  -- the return address goes to its register
  have hstore := passes_moveOp circuit m (.index (base + 2)) true hcounter
  obtain ⟨hreach, hpc₁⟩ := hstore.reaches (@StandsAt.left _ [_] _ _ hcode) hpc
  have hshows₁ := hshows.write_stack
    (m.source standard.registers true (Operand.index (base + 2)).number)
  -- then the definition is entered
  have hjump := reaches_jump_index circuit hcode.tail hpc₁ (by omega)
  obtain ⟨m', hrun, hpc', hshows'⟩ :=
    hroutine _ s _ rfl (hshows₁.jump (4 * (entries name + 1 : Nat)))
  exact ⟨m', _, (hreach.trans hjump).trans hrun, hpc'.trans hback, hshows', nofun⟩

/-- A plain line does what its action says. -/
theorem executes_plain {config : Config} (hset : config.set = standard) {line : Line}
    {action : Action} (hsize : 4 * words.length < 2 ^ 63)
    (hcode : StandsAt words base (Piece.plain config line action base entries).1)
    (hsound : action.Sound standard known) (hordinary : action.ordinary standard.registers)
    (hlinked : action.isCall = false ∨ Linked circuit words entries routines known) :
    Executes circuit words base (Piece.plain config line action base entries).1.length
      (fun s => action.run standard circuit routines s) action.isCall := by
  rw [Piece.plain, hset] at *
  dsimp only at hcode ⊢
  cases action with
  | nothing => exact executes_nil
  | assign dest source =>
    obtain ⟨hdest, hsource⟩ := Bool.and_eq_true_iff.mp hordinary
    exact executes_of_passes hcode fun m s resume hshows =>
      hshows.pass_assignOps circuit hsource hdest
  | arithmetic operation high left right dest =>
    simp only [Action.ordinary, Bool.and_eq_true] at hordinary
    obtain ⟨⟨hleft, hright⟩, hdest⟩ := hordinary
    refine executes_of_passes hcode fun m s resume hshows => ?_
    let d : Decoded := ⟨false, false, false, false, high, standard.operationCode operation⟩
    have houtput : circuit.output standard d (s.value left) (s.value right) =
        circuit.alu (standard.operationCode operation) high (s.value left) (s.value right) :=
      if_neg (InstructionSet.operationCode_ne_move operation)
    rw [Action.run, ← houtput]
    exact hshows.pass_storeOps circuit d (InstructionSet.decode_arithmetic operation high) rfl
      hleft hright hdest
  | comparison code left right dest =>
    simp only [Action.ordinary, Bool.and_eq_true] at hordinary
    obtain ⟨⟨hleft, hright⟩, hdest⟩ := hordinary
    exact executes_of_passes hcode fun m s resume hshows =>
      hshows.pass_storeOps circuit ⟨false, false, true, false, false, code⟩
        (InstructionSet.decode_comparison hsound) rfl hleft hright hdest
  | call name =>
    obtain hcall | hlinked := hlinked
    · exact nomatch hcall
    · exact executes_call hsize hcode hlinked hsound

section Blocks

variable {config : Config} {head tail : Line} {name : Text} {body : Piece}

variable (circuit) in
/-- A definition is jumped over. -/
theorem executes_definition (hset : config.set = standard) (hsize : 4 * words.length < 2 ^ 63)
    (hcode : StandsAt words base (Piece.definition config head name body tail base entries).1) :
    Executes circuit words base
      (Piece.definition config head name body tail base entries).1.length (fun s => s) false := by
  intro m s resume hpc hshows
  have hlength := hcode.length_le
  have hend : base + (Piece.definition config head name body tail base entries).1.length =
      base + 1 + (body (base + 1) (entries.insert name base)).1.length + 1 := by
    simp only [Piece.definition, List.length_cons, List.length_append, List.length_nil]
    omega
  rw [hend] at hlength ⊢
  rw [Piece.definition, hset] at hcode
  have hjump := reaches_jump_index circuit hcode hpc (by omega)
  exact ⟨_, resume, hjump, rfl, hshows.jump _, fun _ => rfl⟩

/-- A definition can be called from behind its head, if its body makes no call. -/
theorem linked_definition (hset : config.set = standard)
    (hcode : StandsAt words base (Piece.definition config head name body tail base entries).1)
    (hbody : Executes circuit words (base + 1)
      (body (base + 1) (entries.insert name base)).1.length f false)
    (hlinked : Linked circuit words entries routines known) :
    Linked circuit words (entries.insert name base) (routines.insert name f) (name :: known) := by
  intro other hother
  rw [Entries.insert, Routines.insert]
  by_cases heq : other = name
  · rw [if_pos heq, if_pos heq]
    have hlength := hcode.length_le
    rw [Piece.definition, hset] at hcode
    refine ⟨by rw [Piece.definition, List.length_cons] at hlength; omega, ?_⟩
    intro m s resume hpc hshows
    obtain ⟨m₁, resume', hreach, hpc₁, hshows₁, hkeeps⟩ := hbody m s resume hpc hshows
    rw [hkeeps rfl] at hshows₁
    -- the register of the return address is where the caller left it
    have hresume : m₁.source standard.registers false standard.registers.stack = resume :=
      hshows₁.stack
    have hreturn := reaches_jumpOp circuit hcode.tail.right hpc₁
    refine ⟨_, hreach.trans hreturn, hresume, hshows₁.jump _⟩
  · rw [if_neg heq, if_neg heq]
    exact hlinked other ((List.mem_cons.mp hother).resolve_left heq)

theorem StandsAt.inside_condition (hset : config.set = standard) {code : Int64}
    {left right : Value}
    (h : StandsAt words base (Piece.condition config head code left right body base entries).1) :
    StandsAt words (base + (standard.branchOps code left right .pending).length + 1)
      (body (base + (standard.branchOps code left right .pending).length + 1) entries).1 := by
  rw [Piece.condition, hset] at h
  have hskip := h.right.tail
  rwa [Op.length_words, InstructionSet.length_branchOps_eq] at hskip

/-- A condition runs its body if the comparison holds. -/
theorem executes_condition (hset : config.set = standard) {code : Int64} {left right : Value}
    (hsize : 4 * words.length < 2 ^ 63)
    (hcode : StandsAt words base
      (Piece.condition config head code left right body base entries).1)
    (hmem : code ∈ standard.codes) (hleft : left.ordinary standard.registers)
    (hright : right.ordinary standard.registers)
    (hbody : Executes circuit words
      (base + (standard.branchOps code left right .pending).length + 1)
      (body (base + (standard.branchOps code left right .pending).length + 1) entries).1.length f
      calls) :
    Executes circuit words base
      (Piece.condition config head code left right body base entries).1.length
      (fun s => if circuit.holds code (s.value left) (s.value right) then f s else s) calls := by
  intro m s resume hpc hshows
  rw [Piece.condition, hset] at hcode ⊢
  dsimp only at hcode ⊢
  -- the jump over the body stands behind the head
  have hskip := hcode.right
  rw [List.length_append, List.length_cons, Op.length_words, InstructionSet.length_branchOps_eq]
  rw [Op.length_words, InstructionSet.length_branchOps_eq] at hskip
  have hlength := hskip.length_le
  rw [List.length_cons] at hlength
  obtain ⟨m₁, hreach, hshows₁, hpc₁⟩ :=
    hshows.reaches_branchOps circuit hcode.left hmem hleft hright hpc (by omega)
  split at hpc₁
  · next hholds =>
    obtain ⟨m₂, resume', hreach', hpc₂, hshows₂, hkeeps⟩ := hbody m₁ s resume hpc₁ hshows₁
    refine ⟨m₂, resume', hreach.trans hreach', ?_, by rwa [if_pos hholds], hkeeps⟩
    rw [hpc₂]
    omega
  · next hholds =>
    have hjump := reaches_jump_index circuit hskip hpc₁ (by omega)
    refine ⟨_, resume, hreach.trans hjump, ?_, ?_, fun _ => rfl⟩
    · dsimp only
      omega
    · rw [if_neg hholds]
      exact hshows₁.jump _

end Blocks

end Pieces

/-! ## The program -/

/-- The words of statements do what the statements do, and so do the definitions among them.
Statements without calls need no definition to be in place: this is what the body of a definition
relies on, which is entered from elsewhere. -/
theorem Body.linked_and_executes {circuit : Circuit} {words : List Word} {config : Config}
    (hset : config.set = standard) (hsize : 4 * words.length < 2 ^ 63) (body : Body)
    (routines : Routines) {base : Nat} {entries : Entries} {known : List Text}
    (hcode : StandsAt words base (body.layout config base entries).1)
    (hsound : body.Sound standard known) (hordinary : body.ordinary standard.registers)
    (hflat : body.flat) :
    (Linked circuit words entries routines known →
      Linked circuit words (body.layout config base entries).2
        (body.routines standard circuit routines) (body.known known)) ∧
    (body.calls = false ∨ Linked circuit words entries routines known →
      Executes circuit words base (body.layout config base entries).1.length
        (body.run standard circuit routines) body.calls) := by
  induction body generalizing base entries routines known with
  | nil => exact ⟨id, fun _ => executes_nil⟩
  | action line a rest ih =>
    obtain ⟨hsounda, hsoundrest⟩ := hsound
    obtain ⟨hordinarya, hordinaryrest⟩ := Bool.and_eq_true_iff.mp hordinary
    obtain ⟨hlink, hexec⟩ := ih routines hcode.right hsoundrest hordinaryrest hflat
    refine ⟨hlink, fun hready => ?_⟩
    have hfirst := executes_plain hset hsize hcode.left hsounda hordinarya
      (hready.imp_left fun h => (Bool.or_eq_false_iff.mp h).1)
    have hrest := hexec (hready.imp_left fun h => (Bool.or_eq_false_iff.mp h).2)
    exact List.length_append ▸ hfirst.append hrest
  | definition head name body tail rest ihbody ihrest =>
    obtain ⟨hsoundbody, hsoundrest⟩ := hsound
    obtain ⟨hordinarybody, hordinaryrest⟩ := Bool.and_eq_true_iff.mp hordinary
    simp only [flat, Bool.and_eq_true, Bool.not_eq_true'] at hflat
    obtain ⟨hcalls, hflatrest⟩ := hflat
    have hinner : StandsAt words (base + 1)
        (body.layout config (base + 1) (entries.insert name base)).1 := hcode.left.tail.left
    have hflatbody := flat_of_calls_eq_false hcalls
    -- the body can be run before anything is known about its own name
    have hbody := (ihbody routines hinner hsoundbody hordinarybody hflatbody).2 (.inl hcalls)
    rw [hcalls] at hbody
    have hlink := fun (hlinked : Linked circuit words entries routines known) =>
      (ihbody _ hinner hsoundbody hordinarybody hflatbody).1
        (linked_definition hset hcode.left hbody hlinked)
    obtain ⟨hlinkrest, hexecrest⟩ := ihrest _ hcode.right hsoundrest hordinaryrest hflatrest
    refine ⟨fun hlinked => hlinkrest (hlink hlinked), fun hready => ?_⟩
    have hfirst := executes_definition circuit hset hsize hcode.left
    have hrest := hexecrest (hready.imp (fun h => (Bool.or_eq_false_iff.mp h).2) hlink)
    rw [calls, hcalls]
    exact List.length_append ▸ hfirst.append hrest
  | condition head code left right body rest ihbody ihrest =>
    obtain ⟨hmem, hsoundbody, hsoundrest⟩ := hsound
    simp only [ordinary, Bool.and_eq_true] at hordinary
    obtain ⟨⟨⟨hleft, hright⟩, hordinarybody⟩, hordinaryrest⟩ := hordinary
    obtain ⟨hflatbody, hflatrest⟩ := Bool.and_eq_true_iff.mp hflat
    obtain ⟨hlink, hexec⟩ :=
      ihbody routines (hcode.left.inside_condition hset) hsoundbody hordinarybody hflatbody
    have hlink : Linked circuit words entries routines known → Linked circuit words
        (Piece.condition config head code left right (body.layout config) base entries).2
        (body.routines standard circuit routines) (body.known known) := by
      rwa [Piece.condition, hset]
    obtain ⟨hlinkrest, hexecrest⟩ :=
      ihrest (body.routines standard circuit routines) hcode.right hsoundrest hordinaryrest
        hflatrest
    refine ⟨fun hlinked => hlinkrest (hlink hlinked), fun hready => ?_⟩
    have hfirst := executes_condition hset hsize hcode.left hmem hleft hright
      (hexec (hready.imp_left fun h => (Bool.or_eq_false_iff.mp h).1))
    have hrest := hexecrest (hready.imp (fun h => (Bool.or_eq_false_iff.mp h).2) hlink)
    exact List.length_append ▸ hfirst.append hrest

open Translator in
/-- Translation preserves meaning.  A source that the reference CPU accepts to its end resolves to
words, and if its operands are no reserved registers and its definitions make no calls, then the
words, run from address 0, come to the address behind the last one.  RAM and all registers but the
hidden ones are then as the statements of the source leave them.  The operands of a word are 64 bits
wide, so addresses have to fit into them. -/
theorem translation_preserves_meaning (config : Config) (hset : config.set = standard)
    (source : Text) {t : Translator} {program : Program}
    (hrun : (new config).run source = (.ok (), t)) (hfinish : t.finish = .ok program) :
    ∃ body words, Body.ofLines standard (Line.tokenize source) = some body ∧
      program.resolve = .ok words ∧
      (body.ordinary standard.registers → body.flat → 4 * words.length < 2 ^ 63 →
        ∀ (circuit : Circuit) (m : Machine), m.pc = 0 →
          let s := body.run standard circuit (fun _ s => s) m.toStore
          ∃ count, let m' := m.run standard circuit words count
            m'.pc = 4 * words.length ∧ m'.ram = s.ram ∧
              ∀ n, n ∉ standard.registers.hidden → m'.registers n = s.registers n) := by
  have hseparate : config.set.Separate := hset ▸ by decide +kernel
  obtain ⟨outline, houtline, body, names, new, hread, _, happends, hlays⟩ :=
    covers_run hseparate hrun hfinish
  have hread : outline.read config.set (.initial config.set) = some (body, names) := hread
  rw [hset] at hread
  have hsound := (Outline.sound_of_read hread).1
  rw [finish_ok hfinish]
  refine ⟨body, body.words config, Body.ofLines_eq houtline hread, happends.resolve hlays, ?_⟩
  intro hordinary hflat hsize circuit m hpc
  have hcode : StandsAt (body.words config) 0 (body.layout config 0 fun _ => 0).1 :=
    ⟨[], [], by simp [Body.words], rfl⟩
  have hlinked : Linked circuit (body.words config) (fun _ => 0) (fun _ s => s) [] := nofun
  have hexec := (body.linked_and_executes hset hsize _ hcode hsound hordinary hflat).2
    (.inr hlinked)
  have hshows : m.Shows m.toStore (m.registers standard.registers.stack) :=
    ⟨rfl, fun _ _ => rfl, rfl⟩
  obtain ⟨m', _, ⟨count, rfl⟩, hend, hshows', _⟩ := hexec m _ _ (by rw [hpc]; rfl) hshows
  rw [Nat.zero_add] at hend
  exact ⟨count, hend, hshows'.ram, hshows'.registers⟩

open Translator in
/-- A call inside a condition that holds: the definition writes a RAM cell from a register and a
constant. -/
theorem call_inside_condition_runs :
    let source : Text := "DEF f\nADD ~20 3 &7\nENDDEF\nIF EQ ~20 5\nCALL f\nENDIF\n"
    let circuit : Circuit := ⟨fun _ _ a b => a + b, fun _ a b => a = b, fun c => if c then 1 else 0⟩
    let m : Machine := { registers := fun _ => 5, ram := fun _ => 0, pc := 0 }
    ∃ words count, ((new {}).run source).2.program.resolve = .ok words ∧ words.length = 8 ∧
      (m.run standard circuit words count).pc = 32 ∧
      (m.run standard circuit words count).ram 7 = 8 := by
  intro source circuit m
  have hrun : (new {}).run source = (.ok (), ((new {}).run source).2) :=
    Prod.ext (eq_ok_of_toOption (by decide +kernel)) rfl
  have hfinish : ((new {}).run source).2.finish = .ok ((new {}).run source).2.program :=
    eq_ok_of_toOption (by decide +kernel)
  obtain ⟨body, words, hbody, hresolve, hmeaning⟩ :=
    translation_preserves_meaning {} rfl source hrun hfinish
  have hlength : (((new {}).run source).2.program.resolve.toOption.map List.length) = some 8 := by
    decide +kernel
  have hlength : words.length = 8 := by simpa [hresolve, Except.toOption] using hlength
  have hfacts : (Body.ofLines standard (Line.tokenize source)).map (fun b =>
      (b.ordinary standard.registers, b.flat,
        (b.run standard circuit (fun _ s => s) m.toStore).ram 7)) = some (true, true, 8) := by
    decide +kernel
  rw [hbody, Option.map_some, Option.some.injEq, Prod.mk.injEq, Prod.mk.injEq] at hfacts
  obtain ⟨hordinary, hflat, hcell⟩ := hfacts
  obtain ⟨count, hpc, hram, _⟩ := hmeaning hordinary hflat (by omega) circuit m rfl
  exact ⟨words, count, hresolve, hlength, by rw [hpc, hlength]; rfl, by rw [hram, hcell]⟩

end AccuAsm
