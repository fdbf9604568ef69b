import AccuAsm.Proofs.Outline

/-!
# Sources with their names resolved

What the statements of a source say once names have been replaced by what they stand
for.  Scopes are a stack of frames here: a definition adds a frame for its body and
drops it at its end, and a condition shares the frame around it.

There are two groups.

* The reading.  `Names.read` reads one plain line, and `Outline.read` a tree of blocks.
  Only what an accepted source can contain has a reading.
* Soundness.  `Outline.sound_of_read` says what holds of everything that has been read:
  comparisons have a code of the instruction set, and calls go to definitions.
-/

namespace AccuAsm

/-! ## The reading -/

/-- A place that a result can be written to. -/
abbrev Place := { v : Value // v.writable = true }

/-- The calculations. -/
inductive Operation where
  | add
  | subtract
  | multiply
  | divide
  deriving DecidableEq, Repr

/-- The code of a calculation. -/
def InstructionSet.operationCode (set : InstructionSet) : Operation → Int64
  | .add => set.add
  | .subtract => set.subtract
  | .multiply => set.multiply
  | .divide => set.divide

/-- The codes of the comparisons. -/
def InstructionSet.codes (set : InstructionSet) : List Int64 := set.conditions.entries.map (·.2)

/-- What a plain line does. -/
inductive Action where
  /-- The line is about names, or starts with no keyword. -/
  | nothing
  /-- SET. -/
  | assign (dest : Place) (source : Value)
  /-- ADD, SUB, MUL and DIV; with `high`, the high word of the result. -/
  | arithmetic (operation : Operation) (high : Bool) (left right : Value) (dest : Place)
  /-- A comparison whose result is stored. -/
  | comparison (code : Int64) (left right : Value) (dest : Place)
  /-- CALL. -/
  | call (name : Text)
  deriving DecidableEq, Repr

/-- The statements of a source with their names resolved. -/
inductive Body where
  /-- No statement. -/
  | nil
  /-- A plain line. -/
  | action (line : Line) (action : Action) (rest : Body)
  /-- From DEF to ENDDEF. -/
  | definition (head : Line) (name : Text) (body : Body) (tail : Line) (rest : Body)
  /-- From IF to ENDIF. -/
  | condition (head : Line) (code : Int64) (left right : Value) (body rest : Body)
  deriving DecidableEq, Repr

/-- The operations of an action.  A call stores where to resume and jumps to an entry. -/
def Action.ops (set : InstructionSet) (resume : Operand) (entry : Text → Operand) :
    Action → List Op
  | .nothing => []
  | .assign dest source => set.assignOps dest source
  | .arithmetic operation high left right dest =>
    set.arithmeticOps (set.operationCode operation) (if high then set.wordHigh else 0) left right
      dest
  | .comparison code left right dest => set.compareOps code left right dest
  | .call name => [set.moveOp resume true set.registers.stack, set.jumpOp (entry name) true]

/-- The names that a statement can use. -/
structure Names where
  /-- The bindings of the scopes around the statement, the innermost first. -/
  frames : List (Dictionary Value)
  /-- The number of RAM cells that variables have been given. -/
  cells : Nat := 0
  /-- The definitions so far, the latest first. -/
  routines : List Text := []
  deriving DecidableEq, Repr

namespace Names

/-- The names in front of the first statement: those of the registers. -/
def initial (set : InstructionSet) : Names where
  frames := [.ofList ((Translator.registerNames set.registers).map fun (name, number) =>
    (name, .register number))]

/-- The innermost binding of a name. -/
def lookup (names : Names) (name : Text) : Option Value :=
  names.frames.findSome? (·.find? name)

/-- The value of an operand. -/
def resolve (names : Names) (token : Text) : Option Value :=
  match token.stripPrefix? "$" with
  | some name => names.lookup name
  | none => (Value.ofToken token).toOption

/-- The place that an operand stands for. -/
def destination (names : Names) (token : Text) : Option Place := do
  let value ← names.resolve token
  if h : value.writable = true then some ⟨value, h⟩ else none

/-- Change the innermost frame. -/
def change (names : Names) (f : Dictionary Value → Dictionary Value) : Names :=
  { names with frames := names.frames.modifyHead f }

/-- Bind a name in the innermost frame. -/
def bind (names : Names) (name : Text) (value : Value) : Names := names.change (·.insert name value)

/-- Drop a name from the innermost frame. -/
def unbind (names : Names) (name : Text) : Names := names.change (·.erase name)

/-- The place that SET writes to.  A variable that has no binding gets the next cell. -/
def assignee (names : Names) (token : Text) : Option (Place × Names) :=
  let existing := (names.destination token).map fun place => (place, names)
  match token.stripPrefix? "$" with
  | none => existing
  | some name =>
    if (names.lookup name).isSome then existing
    else
      let cell := Memory.cell names.cells
      some (⟨cell, rfl⟩, { names.bind name cell with cells := names.cells + 1 })

/-- Two sources and a destination. -/
def operands3 (names : Names) (a b dest : Text) : Option (Value × Value × Place) := do
  let left ← names.resolve a
  let right ← names.resolve b
  return (left, right, ← names.destination dest)

/-- A calculation on two sources. -/
def arithmetic (names : Names) (operation : Operation) (high : Bool) :
    List Text → Option (Action × Names)
  | a :: b :: dest :: _ => do
    let (left, right, place) ← names.operands3 a b dest
    return (.arithmetic operation high left right place, names)
  | _ => none

/-- A calculation whose first operand selects a word of the result. -/
def wideArithmetic (names : Names) (operation : Operation) : List Text → Option (Action × Names)
  | selector :: operands => do
    names.arithmetic operation (← (Selector.parse selector).toOption) operands
  | _ => none

/-- A comparison whose result is stored. -/
def comparison (names : Names) (code : Int64) : List Text → Option (Action × Names)
  | a :: b :: dest :: _ => do
    let (left, right, place) ← names.operands3 a b dest
    return (.comparison code left right place, names)
  | _ => none

/-- What a plain statement does, and the names behind it. -/
def perform (operands : List Text) (names : Names) :
    Keyword → Option (Action × Names)
  | .constant =>
    match operands with
    | name :: literal :: _ => do
      let n ← (Literal.parse literal).toOption
      return (.nothing, names.bind name (.immediate (Int64.ofInt n)))
    | _ => none
  | .assign =>
    match operands with
    | dest :: source :: _ => do
      let value ← names.resolve source
      let (place, names) ← names.assignee dest
      return (.assign place value, names)
    | _ => none
  | .setAddress =>
    match operands with
    | dest :: source :: _ => do
      let name ← dest.stripPrefix? "$"
      return (.nothing, names.bind name (← names.resolve source))
    | _ => none
  | .unset => do
    let dropped ← operands.mapM (Text.stripPrefix? · "$")
    return (.nothing, dropped.foldl unbind names)
  | .add => names.arithmetic .add false operands
  | .subtract => names.arithmetic .subtract false operands
  | .multiply => names.wideArithmetic .multiply operands
  | .divide => names.wideArithmetic .divide operands
  | .call =>
    match operands with
    | name :: _ => if names.routines.contains name then some (.call name, names) else none
    | _ => none
  | .define | .endDefine | .condition | .endCondition => none

/-- What a plain line does, and the names behind it. -/
def read (set : InstructionSet) (line : Line) (names : Names) : Option (Action × Names) :=
  match line.fields with
  | [] => some (.nothing, names)
  | keyword :: operands =>
    match set.conditionCode? keyword with
    | some code => names.comparison code operands
    | none =>
      match Keyword.ofText? keyword with
      | some k => names.perform operands k
      | none => some (.nothing, names)

/-- The names inside a definition. -/
def enter (names : Names) (name : Text) : Names :=
  { names with frames := .empty :: names.frames, routines := name :: names.routines }

end Names

/-- The comparison of an IF: its code and the values that it compares. -/
def Names.head (set : InstructionSet) (line : Line) (names : Names) :
    Option (Int64 × Value × Value) :=
  match line.fields with
  | _ :: comparison :: a :: b :: _ => do
    return (← set.conditionCode? comparison, ← names.resolve a, ← names.resolve b)
  | _ => none

/-- The statements of a tree of blocks, and the names behind them. -/
def Outline.read (set : InstructionSet) : Outline → Names → Option (Body × Names)
  | .nil, names => some (.nil, names)
  | .plain line _ rest, names => do
    let (action, names) ← names.read set line
    let (rest, names) ← rest.read set names
    return (.action line action rest, names)
  | .block .definition head _ body tail _ rest, names => do
    let name ← head.fields[1]?
    let (body, inner) ← body.read set (names.enter name)
    let (rest, names) ← rest.read set { inner with frames := names.frames }
    return (.definition head name body tail rest, names)
  | .block .condition head _ body _ _ rest, names => do
    let (code, left, right) ← names.head set head
    let (body, names) ← body.read set names
    let (rest, names) ← rest.read set names
    return (.condition head code left right body rest, names)

/-- The statements of a source. -/
def Body.ofLines (set : InstructionSet) (lines : List Line) : Option Body := do
  let outline ← Outline.ofLines lines
  let (body, _) ← outline.read set (.initial set)
  return body

/-! ## Soundness -/

/-- The code of a comparison keyword is the code of a comparison. -/
theorem InstructionSet.mem_codes {set : InstructionSet} {keyword : Text} {code : Int64}
    (h : set.conditionCode? keyword = some code) : code ∈ set.codes := by
  obtain ⟨front, back, hentries, _⟩ := List.lookup_eq_some_iff.mp h
  simp [codes, hentries]

/-- The action compares by a comparison of the instruction set, or calls something known. -/
def Action.Sound (set : InstructionSet) (known : List Text) : Action → Prop
  | .comparison code _ _ _ => code ∈ set.codes
  | .call name => name ∈ known
  | .nothing | .assign _ _ | .arithmetic _ _ _ _ _ => True

/-- The definitions behind statements, given those in front of them. -/
def Body.known : Body → List Text → List Text
  | .nil, known => known
  | .action _ _ rest, known => rest.known known
  | .definition _ name body _ rest, known => rest.known (body.known (name :: known))
  | .condition _ _ _ _ body rest, known => rest.known (body.known known)

/-- Every action is sound, and so is every condition. -/
def Body.Sound (set : InstructionSet) : Body → List Text → Prop
  | .nil, _ => True
  | .action _ a rest, known => a.Sound set known ∧ rest.Sound set known
  | .definition _ name body _ rest, known =>
    body.Sound set (name :: known) ∧ rest.Sound set (body.known (name :: known))
  | .condition _ code _ _ body rest, known =>
    code ∈ set.codes ∧ body.Sound set known ∧ rest.Sound set (body.known known)

namespace Names

variable {set : InstructionSet} {operands : List Text} {k : Keyword} {line : Line}
  {names names' : Names} {action : Action}

theorem arithmetic_some {operation : Operation} {high : Bool}
    (h : names.arithmetic operation high operands = some (action, names')) :
    (∃ left right dest, action = .arithmetic operation high left right dest) ∧ names' = names := by
  match operands with
  | [] | [_] | [_, _] => simp [arithmetic] at h
  | a :: b :: dest :: rest =>
    obtain ⟨⟨left, right, place⟩, _, h⟩ := Option.bind_eq_some_iff.mp h
    obtain ⟨rfl, rfl⟩ := Prod.mk.inj (Option.some.inj h)
    exact ⟨⟨left, right, place, rfl⟩, rfl⟩

theorem wideArithmetic_some {operation : Operation}
    (h : names.wideArithmetic operation operands = some (action, names')) :
    (∃ high left right dest, action = .arithmetic operation high left right dest) ∧
      names' = names := by
  match operands with
  | [] => simp [wideArithmetic] at h
  | selector :: rest =>
    obtain ⟨high, _, h⟩ := Option.bind_eq_some_iff.mp h
    obtain ⟨⟨left, right, dest, rfl⟩, rfl⟩ := arithmetic_some h
    exact ⟨⟨high, left, right, dest, rfl⟩, rfl⟩

theorem comparison_some {code : Int64}
    (h : names.comparison code operands = some (action, names')) :
    (∃ left right dest, action = .comparison code left right dest) ∧ names' = names := by
  match operands with
  | [] | [_] | [_, _] => simp [comparison] at h
  | a :: b :: dest :: rest =>
    obtain ⟨⟨left, right, place⟩, _, h⟩ := Option.bind_eq_some_iff.mp h
    obtain ⟨rfl, rfl⟩ := Prod.mk.inj (Option.some.inj h)
    exact ⟨⟨left, right, place, rfl⟩, rfl⟩

theorem assignee_routines {token : Text} {place : Place}
    (h : names.assignee token = some (place, names')) : names'.routines = names.routines := by
  rw [assignee] at h
  split at h
  · obtain ⟨_, _, h⟩ := Option.map_eq_some_iff.mp h
    rw [← (Prod.mk.inj h).2]
  · split at h
    · obtain ⟨_, _, h⟩ := Option.map_eq_some_iff.mp h
      rw [← (Prod.mk.inj h).2]
    · rw [← (Prod.mk.inj (Option.some.inj h)).2]
      rfl

theorem foldl_unbind_routines (dropped : List Text) (names : Names) :
    (dropped.foldl unbind names).routines = names.routines := by
  induction dropped generalizing names with
  | nil => rfl
  | cons name rest ih => exact ih (names.unbind name)

/-- A plain statement calls what is known, and defines nothing. -/
theorem perform_sound (h : names.perform operands k = some (action, names')) :
    action.Sound set names.routines ∧ names'.routines = names.routines := by
  cases k with
  | constant =>
    match operands with
    | [] | [_] => simp [perform] at h
    | name :: literal :: rest =>
      obtain ⟨n, _, h⟩ := Option.bind_eq_some_iff.mp h
      obtain ⟨rfl, rfl⟩ := Prod.mk.inj (Option.some.inj h)
      exact ⟨trivial, rfl⟩
  | assign =>
    match operands with
    | [] | [_] => simp [perform] at h
    | dest :: source :: rest =>
      obtain ⟨value, _, h⟩ := Option.bind_eq_some_iff.mp h
      obtain ⟨⟨place, other⟩, hplace, h⟩ := Option.bind_eq_some_iff.mp h
      obtain ⟨rfl, rfl⟩ := Prod.mk.inj (Option.some.inj h)
      exact ⟨trivial, assignee_routines hplace⟩
  | setAddress =>
    match operands with
    | [] | [_] => simp [perform] at h
    | dest :: source :: rest =>
      obtain ⟨name, _, h⟩ := Option.bind_eq_some_iff.mp h
      obtain ⟨value, _, h⟩ := Option.bind_eq_some_iff.mp h
      obtain ⟨rfl, rfl⟩ := Prod.mk.inj (Option.some.inj h)
      exact ⟨trivial, rfl⟩
  | unset =>
    obtain ⟨dropped, _, h⟩ := Option.bind_eq_some_iff.mp h
    obtain ⟨rfl, rfl⟩ := Prod.mk.inj (Option.some.inj h)
    exact ⟨trivial, foldl_unbind_routines dropped names⟩
  | add | subtract =>
    obtain ⟨⟨_, _, _, rfl⟩, rfl⟩ := arithmetic_some h
    exact ⟨trivial, rfl⟩
  | multiply | divide =>
    obtain ⟨⟨_, _, _, _, rfl⟩, rfl⟩ := wideArithmetic_some h
    exact ⟨trivial, rfl⟩
  | call =>
    match operands with
    | [] => simp [perform] at h
    | name :: rest =>
      simp only [perform] at h
      split at h
      · next hknown =>
        obtain ⟨rfl, rfl⟩ := Prod.mk.inj (Option.some.inj h)
        exact ⟨List.contains_iff_mem.mp hknown, rfl⟩
      · simp at h
  | define | endDefine | condition | endCondition => simp [perform] at h

/-- A plain line compares by a comparison of the instruction set, calls what is known, and defines
nothing. -/
theorem read_sound (h : names.read set line = some (action, names')) :
    action.Sound set names.routines ∧ names'.routines = names.routines := by
  rw [read] at h
  split at h
  · obtain ⟨rfl, rfl⟩ := Prod.mk.inj (Option.some.inj h)
    exact ⟨trivial, rfl⟩
  · split at h
    · next code hcode =>
      obtain ⟨⟨_, _, _, rfl⟩, rfl⟩ := comparison_some h
      exact ⟨InstructionSet.mem_codes hcode, rfl⟩
    · split at h
      · exact perform_sound h
      · obtain ⟨rfl, rfl⟩ := Prod.mk.inj (Option.some.inj h)
        exact ⟨trivial, rfl⟩

end Names

theorem Names.mem_codes_of_head {set : InstructionSet} {line : Line} {names : Names} {code : Int64}
    {left right : Value} (h : names.head set line = some (code, left, right)) :
    code ∈ set.codes := by
  rw [head] at h
  split at h
  · obtain ⟨found, hfound, h⟩ := Option.bind_eq_some_iff.mp h
    obtain ⟨_, _, h⟩ := Option.bind_eq_some_iff.mp h
    obtain ⟨_, _, h⟩ := Option.bind_eq_some_iff.mp h
    rw [← (Prod.mk.inj (Option.some.inj h)).1]
    exact InstructionSet.mem_codes hfound
  · simp at h

/-- What is read from a tree of blocks is sound. -/
theorem Outline.sound_of_read {set : InstructionSet} {outline : Outline} {names names' : Names}
    {body : Body} (h : outline.read set names = some (body, names')) :
    body.Sound set names.routines ∧ names'.routines = body.known names.routines := by
  induction outline generalizing names names' body with
  | nil =>
    obtain ⟨rfl, rfl⟩ := Prod.mk.inj (Option.some.inj h)
    exact ⟨trivial, rfl⟩
  | plain line hrole rest ih =>
    obtain ⟨⟨a, names₁⟩, hread, h⟩ := Option.bind_eq_some_iff.mp h
    obtain ⟨⟨behind, names₂⟩, hrest, h⟩ := Option.bind_eq_some_iff.mp h
    obtain ⟨rfl, rfl⟩ := Prod.mk.inj (Option.some.inj h)
    obtain ⟨hsound, hsame⟩ := Names.read_sound hread
    obtain ⟨hsound', hknown⟩ := ih hrest
    rw [hsame] at hsound' hknown
    exact ⟨⟨hsound, hsound'⟩, hknown⟩
  | block kind head hhead body tail htail rest ihbody ihrest =>
    cases kind with
    | definition =>
      obtain ⟨name, _, h⟩ := Option.bind_eq_some_iff.mp h
      obtain ⟨⟨inside, inner⟩, hbody, h⟩ := Option.bind_eq_some_iff.mp h
      obtain ⟨⟨behind, names₂⟩, hrest, h⟩ := Option.bind_eq_some_iff.mp h
      obtain ⟨rfl, rfl⟩ := Prod.mk.inj (Option.some.inj h)
      obtain ⟨hsound, hknown⟩ := ihbody hbody
      obtain ⟨hsound', hknown'⟩ := ihrest hrest
      -- the frame of the body is dropped, its definitions are not
      have hknown : Names.routines { inner with frames := names.frames } = _ := hknown
      rw [hknown] at hsound' hknown'
      exact ⟨⟨hsound, hsound'⟩, hknown'⟩
    | condition =>
      obtain ⟨⟨code, left, right⟩, hcompare, h⟩ := Option.bind_eq_some_iff.mp h
      obtain ⟨⟨inside, inner⟩, hbody, h⟩ := Option.bind_eq_some_iff.mp h
      obtain ⟨⟨behind, names₂⟩, hrest, h⟩ := Option.bind_eq_some_iff.mp h
      obtain ⟨rfl, rfl⟩ := Prod.mk.inj (Option.some.inj h)
      obtain ⟨hsound, hknown⟩ := ihbody hbody
      obtain ⟨hsound', hknown'⟩ := ihrest hrest
      rw [hknown] at hsound' hknown'
      exact ⟨⟨Names.mem_codes_of_head hcompare, hsound, hsound'⟩, hknown'⟩

end AccuAsm
