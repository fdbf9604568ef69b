import Mathlib
import AccuAsm.Translator.Run

/-!
# What a statement can do

A statement is a chain of steps on the state of a translator.  This module runs such
chains and says, once for every statement, what the state looks like behind it.  Later
modules derive their invariants from `Effect` and do not open the statements again.

There are three groups.

* Running steps.  `Step.on_bind` runs a chain, and `Step.on_bind_ok` takes a successful
  one apart.
* The statements.  Each statement has a lemma that reads off what it did when it was
  accepted: `constant_ok`, `assign_ok`, `setAddress_ok`, `unset_ok`, `define_ok`,
  `condition_ok`, `endDefine_ok` and `endCondition_ok`.
* All statements together.  `Effect` lists the five things that an accepted statement can
  do, and `effect_of_process` is the inversion.
-/

namespace AccuAsm

/-- A chain of checks that succeeds, one check at a time. -/
theorem exists_of_bind_ok {ε α β : Type} {x : Except ε α} {f : α → Except ε β} {b : β}
    (h : (x >>= f) = .ok b) : ∃ a, x = .ok a ∧ f a = .ok b := by
  cases x with
  | error e => simp [Bind.bind, Except.bind] at h
  | ok a => exact ⟨a, rfl, h⟩

theorem exists_of_map_ok {ε α β : Type} {x : Except ε α} {f : α → β} {b : β}
    (h : f <$> x = .ok b) : ∃ a, x = .ok a ∧ f a = b := by
  cases x with
  | error e => cases h
  | ok a => exact ⟨a, rfl, Except.ok.inj h⟩

/-- A row of checks that succeeds finds one thing for each element. -/
theorem forall₂_of_mapM_ok {ε α β : Type} {f : α → Except ε β} {l : List α} {found : List β}
    (h : l.mapM f = .ok found) : List.Forall₂ (fun a b => f a = .ok b) l found := by
  induction l generalizing found with
  | nil =>
    obtain rfl : [] = found := Except.ok.inj h
    exact .nil
  | cons a rest ih =>
    rw [List.mapM_cons] at h
    obtain ⟨first, hfirst, h⟩ := exists_of_bind_ok h
    obtain ⟨others, hothers, h⟩ := exists_of_bind_ok h
    obtain rfl : first :: others = found := Except.ok.inj h
    exact .cons hfirst (ih hothers)

theorem exists_of_mem_mapM {ε α β : Type} {f : α → Except ε β} {l : List α} {found : List β}
    {b : β} (h : l.mapM f = .ok found) (hb : b ∈ found) : ∃ a ∈ l, f a = .ok b := by
  have hall := forall₂_of_mapM_ok h
  clear h
  induction hall with
  | nil => cases hb
  | @cons a first rest others hfirst _ ih =>
    rcases List.mem_cons.mp hb with rfl | hb
    · exact ⟨a, List.mem_cons_self, hfirst⟩
    · obtain ⟨a', ha', hf⟩ := ih hb
      exact ⟨a', List.mem_cons_of_mem _ ha', hf⟩

theorem eq_ok_of_toOption {ε α : Type} {x : Except ε α} {a : α} (h : x.toOption = some a) :
    x = .ok a := by
  cases x with
  | error e => simp [Except.toOption] at h
  | ok b => rw [Option.some.inj h]

namespace Step

variable {α β : Type}

/-! ## Running steps -/

theorem on_bind (x : Step α) (f : α → Step β) (t : Translator) :
    Step.on (x >>= f) t =
      match x.on t with
      | (.ok a, next) => (f a).on next
      | (.error fault, next) => (.error fault, next) := by
  show StateT.bind (ExceptT.run x) (ExceptT.bindCont f) t = _
  unfold StateT.bind Step.on
  rcases ExceptT.run x t with ⟨fault | a, next⟩ <;> rfl

@[simp] theorem on_pure (a : α) (t : Translator) : Step.on (pure a) t = (.ok a, t) := rfl

@[simp] theorem on_get (t : Translator) : Step.on get t = (.ok t, t) := rfl

@[simp] theorem on_modify (f : Translator → Translator) (t : Translator) :
    Step.on (modify f) t = (.ok (), f t) := rfl

@[simp] theorem on_throw (fault : Fault) (t : Translator) :
    Step.on (throw fault : Step α) t = (.error fault, t) := rfl

@[simp] theorem on_refuse (d : Diagnostic) (t : Translator) :
    (refuse d : Step α).on t = (.error (.rejected d), t) := rfl

@[simp] theorem on_check_ok (a : α) (t : Translator) :
    (check (.ok a)).on t = (.ok a, t) := rfl

@[simp] theorem on_check_error (d : Diagnostic) (t : Translator) :
    (check (.error d) : Step α).on t = (.error (.rejected d), t) := rfl

theorem on_get_bind (f : Translator → Step β) (t : Translator) :
    Step.on (get >>= f) t = (f t).on t := by
  rw [on_bind, on_get]

theorem on_bind_of_ok {x : Step α} {f : α → Step β} {t next : Translator} {a : α}
    (h : x.on t = (.ok a, next)) : Step.on (x >>= f) t = (f a).on next := by
  rw [on_bind, h]

theorem on_bind_of_error {x : Step α} {f : α → Step β} {t next : Translator} {fault : Fault}
    (h : x.on t = (.error fault, next)) : Step.on (x >>= f) t = (.error fault, next) := by
  rw [on_bind, h]

/-- A successful chain is a successful first step and a successful rest. -/
theorem on_bind_ok {x : Step α} {f : α → Step β} {t t' : Translator} {b : β}
    (h : Step.on (x >>= f) t = (.ok b, t')) :
    ∃ a next, x.on t = (.ok a, next) ∧ (f a).on next = (.ok b, t') := by
  rw [on_bind] at h
  rcases hx : x.on t with ⟨fault | a, next⟩
  · simp [hx] at h
  · rw [hx] at h
    exact ⟨a, next, rfl, h⟩

theorem check_ok {e : Except Diagnostic α} {t t' : Translator} {a : α}
    (h : (check e).on t = (.ok a, t')) : e = .ok a ∧ t' = t := by
  cases e with
  | error d => simp at h
  | ok b =>
    simp only [on_check_ok, Prod.mk.injEq, Except.ok.injEq] at h
    exact ⟨by rw [h.1], h.2.symm⟩

theorem check_bind_ok {e : Except Diagnostic α} {f : α → Step β} {t t' : Translator} {b : β}
    (h : Step.on (check e >>= f) t = (.ok b, t')) :
    ∃ a, e = .ok a ∧ (f a).on t = (.ok b, t') := by
  cases e with
  | error d => simp [on_bind] at h
  | ok a => exact ⟨a, rfl, by simpa [on_bind] using h⟩

theorem require_bind_ok {c : Bool} {d : Diagnostic} {f : Unit → Step β} {t t' : Translator}
    {b : β} (h : Step.on (require c d >>= f) t = (.ok b, t')) :
    c = true ∧ (f ()).on t = (.ok b, t') := by
  cases c with
  | false => simp [on_bind, require] at h
  | true => exact ⟨rfl, by simpa [on_bind, require] using h⟩

/-! ## The single steps -/

@[simp] theorem on_require {c : Bool} {d : Diagnostic} {t : Translator} (h : c = true) :
    (require c d).on t = (.ok (), t) := by
  rw [require, if_pos h, on_pure]

@[simp] theorem on_declare (name : Text) (value : Value) (t : Translator) :
    (declare name value).on t = (.ok (), t.bind name value) := rfl

theorem on_allocate {t : Translator} {index : Nat} (h : t.memory.next = .ok index) :
    allocate.on t = (.ok (Memory.cell index), { t with memory := t.memory.take index }) := by
  rw [allocate, on_get_bind, h]
  rfl

@[simp] theorem on_draftSkip (line : Int) (comment : Text) (t : Translator) :
    (draftSkip line comment).on t =
      (.ok (t.skip line comment), { t with nextSerial := t.nextSerial + 1 }) := rfl

theorem on_enterDefinition {t : Translator} {d : Definition} {definitions : Definitions}
    (h : t.definitions.enter d = .ok definitions) :
    (enterDefinition d).on t = (.ok (), { t with definitions }) := by
  rw [enterDefinition, on_get_bind, h]
  rfl

theorem on_leaveDefinition {t : Translator} {d : Definition} {definitions : Definitions}
    (h : t.definitions.leave = .ok (d, definitions)) :
    leaveDefinition.on t = (.ok d, { t with definitions }) := by
  rw [leaveDefinition, on_get_bind, h]
  rfl

@[simp] theorem on_enterCondition (c : Condition) (t : Translator) :
    (enterCondition c).on t = (.ok (), { t with conditions := t.conditions.enter c }) := rfl

theorem on_leaveCondition {t : Translator} {c : Condition} {conditions : Conditions}
    (h : t.conditions.leave = .ok (c, conditions)) :
    leaveCondition.on t = (.ok c, { t with conditions }) := by
  rw [leaveCondition, on_get_bind, h]
  rfl

theorem on_addScope {t : Translator} {name : Text} {scopes : ScopeTable}
    (h : t.scopes.add name (some t.scope) = .ok scopes) :
    (addScope name).on t = (.ok (), { t with scopes }) := by
  rw [addScope, on_get_bind, h]
  rfl

@[simp] theorem on_selectScope (scope : Nat) (t : Translator) :
    (selectScope scope).on t = (.ok (), { t with scopes := t.scopes.select scope }) := rfl

theorem on_place {t : Translator} {site : Int} {i : Instr} {program : Program}
    (h : t.program.insert site i = .ok program) :
    (place site i).on t = (.ok (), { t with program }) := by
  rw [place, on_get_bind, h]
  rfl

theorem on_place_error {t : Translator} {site : Int} {i : Instr} {m : Misplacement}
    (h : t.program.insert site i = .error m) :
    (place site i).on t = (.error (.misplaced m), t) := by
  rw [place, on_get_bind, h]
  rfl

end Step

namespace Translator

open Step

variable {t t' : Translator} {line : Line} {keyword : Text} {operands : List Text} {ops : List Op}

/-! ## Names -/

/-- An accepted CONST binds a name that was not visible. -/
theorem constant_ok (h : (constant keyword operands).on t = (.ok ops, t')) :
    ∃ name literal rest n, operands = name :: literal :: rest ∧ t.checkName name = .ok () ∧
      Literal.parse literal = .ok n ∧ t.visible name = false ∧ ops = [] ∧
      t' = t.bind name (.immediate (Int64.ofInt n)) := by
  match operands with
  | [] | [_] => simp [constant] at h
  | name :: literal :: rest =>
    rw [constant, on_get_bind] at h
    obtain ⟨_, hname, h⟩ := check_bind_ok h
    obtain ⟨n, hn, h⟩ := check_bind_ok h
    obtain ⟨hvisible, h⟩ := require_bind_ok h
    simp only [on_bind, on_declare, on_pure, Prod.mk.injEq, Except.ok.injEq] at h
    exact ⟨name, literal, rest, n, rfl, hname, hn, by simpa using hvisible, h.1.symm, h.2.symm⟩

/-- The destination of an accepted SET: a place that exists, or a new variable. -/
theorem assignee_ok {token : Text} {place : Value} (h : (assignee token).on t = (.ok place, t')) :
    ((∀ name, token.stripPrefix? "$" = some name → t.visible name = true) ∧
        t.destination token = .ok place ∧ t' = t) ∨
      ∃ name index, token.stripPrefix? "$" = some name ∧ t.visible name = false ∧
        t.checkName name = .ok () ∧ t.memory.next = .ok index ∧ place = Memory.cell index ∧
        t' = { t.bind name place with memory := t.memory.take index } := by
  rw [assignee, on_get_bind] at h
  split at h
  · next hstrip =>
    obtain ⟨hdest, rfl⟩ := check_ok h
    exact .inl ⟨by simp [hstrip], hdest, rfl⟩
  · next name hstrip =>
    split at h
    · next hvisible =>
      obtain ⟨hdest, rfl⟩ := check_ok h
      refine .inl ⟨?_, hdest, rfl⟩
      intro other hother
      rw [hstrip, Option.some.injEq] at hother
      rw [← hother, hvisible]
    · next hhidden =>
      -- the name is checked before a cell is taken
      obtain ⟨_, hname, h⟩ := check_bind_ok h
      obtain ⟨index, hindex⟩ : ∃ index, t.memory.next = .ok index := by
        obtain ⟨value, next, hvalue, _⟩ := on_bind_ok h
        rw [allocate, on_get_bind] at hvalue
        obtain ⟨index, hindex, _⟩ := check_bind_ok hvalue
        exact ⟨index, hindex⟩
      simp only [on_bind, on_allocate hindex, on_declare, on_pure, Prod.mk.injEq,
        Except.ok.injEq] at h
      obtain ⟨rfl, rfl⟩ := h
      exact .inr ⟨name, index, hstrip, by simpa using hhidden, hname, hindex, rfl, rfl⟩

theorem assign_ok (h : (assign keyword operands).on t = (.ok ops, t')) :
    ∃ dest source rest value place, operands = dest :: source :: rest ∧
      t.resolve source = .ok value ∧ (assignee dest).on t = (.ok place, t') ∧
      ops = t.set.assignOps place value := by
  match operands with
  | [] | [_] => simp [assign] at h
  | dest :: source :: rest =>
    rw [assign, on_get_bind] at h
    obtain ⟨value, hvalue, h⟩ := check_bind_ok h
    obtain ⟨place, next, hplace, h⟩ := on_bind_ok h
    simp only [on_pure, Prod.mk.injEq, Except.ok.injEq] at h
    exact ⟨dest, source, rest, value, place, rfl, hvalue, h.2 ▸ hplace, h.1.symm⟩

/-- An accepted SETADR binds its first operand to the place of its second one. -/
theorem setAddress_ok (h : (setAddress keyword operands).on t = (.ok ops, t')) :
    ∃ dest source rest name value, operands = dest :: source :: rest ∧
      dest.stripPrefix? "$" = some name ∧ t.resolve source = .ok value ∧
      value.kind ≠ .immediate ∧ t.checkAlias name = .ok () ∧ ops = [] ∧
      t' = t.bind name value := by
  match operands with
  | [] | [_] => simp [setAddress] at h
  | dest :: source :: rest =>
    rw [setAddress] at h
    split at h
    · simp at h
    · next name hstrip =>
      rw [on_get_bind] at h
      obtain ⟨value, hvalue, h⟩ := check_bind_ok h
      obtain ⟨hkind, h⟩ := require_bind_ok h
      obtain ⟨_, halias, h⟩ := check_bind_ok h
      simp only [on_bind, on_declare, on_pure, Prod.mk.injEq, Except.ok.injEq] at h
      exact ⟨dest, source, rest, name, value, rfl, hstrip, hvalue, of_decide_eq_true hkind, halias,
        h.1.symm, h.2.symm⟩

theorem on_forM_unbind (names : List Text) (t : Translator) :
    Step.on (names.forM fun name => modify (·.unbind name)) t =
      (.ok (), names.foldl (·.unbind ·) t) := by
  induction names generalizing t with
  | nil => rfl
  | cons name rest ih =>
    show Step.on (modify (·.unbind name) >>= fun _ => rest.forM _) t = _
    rw [on_bind, on_modify]
    exact ih _

theorem unset_ok (h : (unset keyword operands).on t = (.ok ops, t')) :
    ∃ names, operands.mapM t.localName = .ok names ∧ ops = [] ∧
      t' = names.foldl (·.unbind ·) t := by
  rw [unset] at h
  split at h
  · simp at h
  · rw [on_get_bind] at h
    obtain ⟨names, hnames, h⟩ := check_bind_ok h
    simp only [on_bind, on_forM_unbind, on_pure, Prod.mk.injEq, Except.ok.injEq] at h
    exact ⟨names, hnames, h.1.symm, h.2.symm⟩

/-! ## Opening a block -/

/-- The state behind an accepted DEF. -/
def defined (t : Translator) (line : Line) (name : Text) : Translator :=
  { t with
    definitions :=
      { records := t.definitions.records.push
          (t.newDefinition line.number name (t.skip line.number ("skip DEF " ++ name)))
        stack := t.definitions.records.size :: t.definitions.stack }
    scopes :=
      { scopes := t.scopes.scopes.push (.fresh (t.bodyName name) (some t.scope))
        current := t.scopes.size }
    nextSerial := t.nextSerial + 1 }

/-- Once the checks of DEF have passed, none of the later steps fails. -/
theorem on_define {name : Text} {rest : List Text} (hname : t.checkName name = .ok ())
    (hfresh : t.definitions.contains name = false)
    (hscope : t.scopes.find? (t.bodyName name) = none) :
    (define line keyword (name :: rest)).on t = (.ok [], t.defined line name) := by
  -- registry and scope table make the checks of DEF once more
  have henter (skip : Instr) :
      t.definitions.enter (t.newDefinition line.number name skip) =
        .ok { records := t.definitions.records.push (t.newDefinition line.number name skip)
              stack := t.definitions.records.size :: t.definitions.stack } := by
    rw [Definitions.enter, if_neg]
    show ¬t.definitions.contains name = true
    simp [hfresh]
  have hadd : t.scopes.add (t.bodyName name) (some t.scope) =
      .ok { t.scopes with
        scopes := t.scopes.scopes.push (.fresh (t.bodyName name) (some t.scope)) } := by
    rw [ScopeTable.add, hscope]
  rw [define, on_get_bind, hname]
  refine (on_bind_of_ok (on_check_ok () t)).trans ?_
  refine (on_bind_of_ok (on_require (by simp [hfresh]))).trans ?_
  refine (on_bind_of_ok (on_require (by simp [hscope]))).trans ?_
  refine (on_bind_of_ok (on_draftSkip _ _ t)).trans ?_
  refine (on_bind_of_ok (on_enterDefinition (by exact henter _))).trans ?_
  exact (on_bind_of_ok (on_addScope (by exact hadd))).trans rfl

/-- An accepted DEF introduces a new name and opens a scope. -/
theorem define_ok (h : (define line keyword operands).on t = (.ok ops, t')) :
    ∃ name rest, operands = name :: rest ∧ t.checkName name = .ok () ∧
      t.definitions.contains name = false ∧ t.scopes.find? (t.bodyName name) = none ∧
      ops = [] ∧ t' = t.defined line name := by
  match operands with
  | [] => simp [define] at h
  | name :: rest =>
    have hrun := h
    rw [define, on_get_bind] at h
    obtain ⟨_, hname, h⟩ := check_bind_ok h
    obtain ⟨hfresh, h⟩ := require_bind_ok h
    obtain ⟨hscope, h⟩ := require_bind_ok h
    have hfresh : t.definitions.contains name = false := by simpa using hfresh
    have hscope : t.scopes.find? (t.bodyName name) = none := by simpa using hscope
    rw [on_define hname hfresh hscope] at hrun
    simp only [Prod.mk.injEq, Except.ok.injEq] at hrun
    exact ⟨name, rest, rfl, hname, hfresh, hscope, hrun.1.symm, hrun.2.symm⟩

/-- The state behind an accepted IF with a head of `size` operations. -/
def conditioned (t : Translator) (line : Line) (size : Nat) : Translator :=
  { t with
    conditions := t.conditions.enter
      (t.newCondition line.number size (t.skip line.number "skip IF"))
    nextSerial := t.nextSerial + 1 }

theorem map_fill_branchOps (set : InstructionSet) (code : Int64) (a b : Value) (place : Target) :
    (set.branchOps code a b .pending).map (·.fill place) =
      set.branchOps code a b (.target place) := by
  have hstage (scratch flag : Int64) (v : Value) :
      (set.stageSource scratch flag v).code.map (·.fill place) =
        (set.stageSource scratch flag v).code := by
    rcases v with ⟨kind, payload⟩
    cases kind <;> rfl
  simp only [InstructionSet.branchOps, InstructionSet.binaryOps, InstructionSet.stageLeft,
    InstructionSet.stageRight, List.map_append, hstage, List.map_cons, List.map_nil]
  rfl

/-- An accepted IF compares two values and opens a condition. -/
theorem condition_ok (h : (condition line keyword operands).on t = (.ok ops, t')) :
    ∃ comparison a b rest code left right, operands = comparison :: a :: b :: rest ∧
      t.set.conditionCode? comparison = some code ∧ t.resolve a = .ok left ∧
      t.resolve b = .ok right ∧
      ops = t.set.branchOps code left right (.target (.after t.nextSerial)) ∧
      t' = t.conditioned line ops.length := by
  match operands with
  | [] => simp [condition] at h
  | comparison :: operands =>
    rw [condition, on_get_bind] at h
    split at h
    · simp at h
    · next code hcode =>
      obtain ⟨head, hhead, hrest⟩ := check_bind_ok h
      match operands with
      | [] | [_] => simp [branch] at hhead
      | a :: b :: rest =>
        obtain ⟨left, hleft, hhead⟩ := exists_of_bind_ok hhead
        obtain ⟨right, hright, hhead⟩ := exists_of_bind_ok hhead
        have hhead : head = t.set.branchOps code left right .pending := (Except.ok.inj hhead).symm
        simp only [on_bind, on_draftSkip, on_enterCondition, on_pure, Prod.mk.injEq,
          Except.ok.injEq] at hrest
        obtain ⟨rfl, rfl⟩ := hrest
        refine ⟨comparison, a, b, rest, code, left, right, rfl, hcode, hleft, hright, ?_, ?_⟩
        · rw [hhead]
          exact map_fill_branchOps t.set code left right _
        · rw [List.length_map]
          rfl

/-! ## Closing a block -/

theorem current?_eq_some {ds : Definitions} {d : Definition} (h : ds.current? = some d) :
    ∃ position rest, ds.stack = position :: rest ∧ ds.records[position]? = some d := by
  rw [Definitions.current?] at h
  cases hstack : ds.stack with
  | nil => simp [hstack] at h
  | cons position rest => exact ⟨position, rest, rfl, by simpa [hstack] using h⟩

/-- The state behind an accepted ENDDEF. -/
def endedDefinition (t : Translator) (d : Definition) (position : Nat) (rest : List Nat)
    (program : Program) : Translator :=
  { t with
    definitions :=
      { records := t.definitions.records.modify position fun _ => { d with closed := true }
        stack := rest }
    program
    scopes := t.scopes.select (t.outerScope d) }

/-- The jump over a definition whose return comes next. -/
def definitionSkip (t : Translator) (d : Definition) : Instr := d.skip.fill (.after t.nextSerial)

theorem on_endDefine_none (h : t.definitions.current? = none) :
    endDefine.on t = (.error (.rejected Definitions.noneOpen), t) := by
  rw [endDefine, on_get_bind, h]
  rfl

theorem on_endDefine_crossing {d : Definition} (h : t.definitions.current? = some d)
    (hdepth : t.conditions.depth ≠ d.conditionDepth) :
    endDefine.on t = (.error (.rejected
      { complaint := .conditionOpen d.name, token := Keyword.endDefine.spelling }), t) := by
  rw [endDefine, on_get_bind, h]
  simp [on_bind, require, hdepth]

theorem leave_eq {ds : Definitions} {d : Definition} {position : Nat} {rest : List Nat}
    (hstack : ds.stack = position :: rest) (hrecord : ds.records[position]? = some d) :
    ds.leave = .ok ({ d with closed := true },
      { records := ds.records.modify position fun _ => { d with closed := true }
        stack := rest }) := by
  simp [Definitions.leave, Definitions.current?, hstack, hrecord]

/-- ENDDEF closes the innermost definition if no condition of its body is open.  The definition is
closed by the time that the jump over it is placed. -/
theorem on_endDefine {d : Definition} {position : Nat} {rest : List Nat}
    (hstack : t.definitions.stack = position :: rest)
    (hrecord : t.definitions.records[position]? = some d)
    (hdepth : t.conditions.depth = d.conditionDepth) :
    endDefine.on t =
      match t.program.insert d.site (t.definitionSkip d) with
      | .ok program => (.ok [t.set.returnOp], t.endedDefinition d position rest program)
      | .error m => (.error (.misplaced m),
        { t with definitions :=
            { records := t.definitions.records.modify position fun _ => { d with closed := true }
              stack := rest } }) := by
  have hcurrent : t.definitions.current? = some d := by
    simp [Definitions.current?, hstack, hrecord]
  rw [endDefine, on_get_bind, hcurrent]
  refine (on_bind_of_ok (on_require (by simp [hdepth]))).trans ?_
  refine (on_bind_of_ok (on_leaveDefinition (leave_eq hstack hrecord))).trans ?_
  cases hinsert : t.program.insert d.site (t.definitionSkip d) with
  | ok program => exact (on_bind_of_ok (on_place (by exact hinsert))).trans rfl
  | error m => exact on_bind_of_error (on_place_error (by exact hinsert))

theorem endDefine_ok (h : endDefine.on t = (.ok ops, t')) :
    ∃ d position rest program, t.definitions.stack = position :: rest ∧
      t.definitions.records[position]? = some d ∧ t.conditions.depth = d.conditionDepth ∧
      t.program.insert d.site (t.definitionSkip d) = .ok program ∧
      ops = [t.set.returnOp] ∧ t' = t.endedDefinition d position rest program := by
  cases hcurrent : t.definitions.current? with
  | none => simp [on_endDefine_none hcurrent] at h
  | some d =>
    by_cases hdepth : t.conditions.depth = d.conditionDepth
    · obtain ⟨position, rest, hstack, hrecord⟩ := current?_eq_some hcurrent
      rw [on_endDefine hstack hrecord hdepth] at h
      split at h
      · next program hinsert =>
        simp only [Prod.mk.injEq, Except.ok.injEq] at h
        exact ⟨d, position, rest, program, hstack, hrecord, hdepth, hinsert, h.1.symm, h.2.symm⟩
      · simp at h
    · simp [on_endDefine_crossing hcurrent hdepth] at h

/-- The state behind an accepted ENDIF. -/
def endedCondition (t : Translator) (rest : List Condition) (program : Program) : Translator :=
  { t with conditions := { stack := rest }, program }

/-- The jump over a condition that ends here. -/
def conditionSkip (t : Translator) (c : Condition) : Instr := c.skip.fill (.after (t.lastOf c))

theorem on_endCondition_none (h : t.conditions.stack = []) :
    endCondition.on t = (.error (.rejected Conditions.noneOpen), t) := by
  rw [endCondition, on_get_bind]
  simp [Conditions.current?, h]

theorem on_endCondition_crossing {c : Condition} {rest : List Condition}
    (h : t.conditions.stack = c :: rest) (hdepth : t.definitions.depth ≠ c.definitionDepth) :
    endCondition.on t = (.error (.rejected
      { complaint := .definitionOpen c.line, token := Keyword.endCondition.spelling }), t) := by
  rw [endCondition, on_get_bind]
  simp [Conditions.current?, h, on_bind, require, hdepth]

/-- ENDIF closes the innermost condition if no definition of its body is open.  The condition is
closed by the time that the jump over it is placed. -/
theorem on_endCondition {c : Condition} {rest : List Condition}
    (hstack : t.conditions.stack = c :: rest) (hdepth : t.definitions.depth = c.definitionDepth) :
    endCondition.on t =
      match t.program.insert c.site (t.conditionSkip c) with
      | .ok program => (.ok [], t.endedCondition rest program)
      | .error m => (.error (.misplaced m), { t with conditions := { stack := rest } }) := by
  have hleave : t.conditions.leave = .ok (c, { stack := rest }) := by
    simp [Conditions.leave, hstack]
  rw [endCondition, on_get_bind, Conditions.current?, hstack]
  refine (on_bind_of_ok (on_require (by simp [hdepth]))).trans ?_
  refine (on_bind_of_ok (on_leaveCondition hleave)).trans ?_
  cases hinsert : t.program.insert c.site (t.conditionSkip c) with
  | ok program => exact (on_bind_of_ok (on_place (by exact hinsert))).trans rfl
  | error m => exact on_bind_of_error (on_place_error (by exact hinsert))

theorem endCondition_ok (h : endCondition.on t = (.ok ops, t')) :
    ∃ c rest program, t.conditions.stack = c :: rest ∧
      t.definitions.depth = c.definitionDepth ∧
      t.program.insert c.site (t.conditionSkip c) = .ok program ∧
      ops = [] ∧ t' = t.endedCondition rest program := by
  cases hstack : t.conditions.stack with
  | nil => simp [on_endCondition_none hstack] at h
  | cons c rest =>
    by_cases hdepth : t.definitions.depth = c.definitionDepth
    · rw [on_endCondition hstack hdepth] at h
      split at h
      · next program hinsert =>
        simp only [Prod.mk.injEq, Except.ok.injEq] at h
        exact ⟨c, rest, program, rfl, hdepth, hinsert, h.1.symm, h.2.symm⟩
      · simp at h
    · simp [on_endCondition_crossing hstack hdepth] at h

end Translator

/-! ## All statements together -/

/-- Whether a statement opens or closes a block. -/
def Keyword.isBlock : Keyword → Bool
  | .define | .endDefine | .condition | .endCondition => true
  | _ => false

/-- The statement that a line is.  Comparisons come first and are none. -/
def InstructionSet.statement? (set : InstructionSet) (line : Line) : Option Keyword :=
  match line.fields with
  | [] => none
  | keyword :: _ => if (set.conditionCode? keyword).isSome then none else Keyword.ofText? keyword

namespace ScopeTable

theorem modifyBindings_modifyBindings (t : ScopeTable) (scope : Nat)
    (f g : Dictionary Value → Dictionary Value) :
    (t.modifyBindings scope f).modifyBindings scope g = t.modifyBindings scope (g ∘ f) := by
  simp only [modifyBindings, mk.injEq, and_true]
  ext i h1 h2
  · simp
  · simp only [Array.getElem_modify, Function.comp_apply]
    split <;> rfl

@[simp] theorem modifyBindings_id (t : ScopeTable) (scope : Nat) :
    t.modifyBindings scope id = t := by
  cases t with
  | mk scopes current =>
    simp only [modifyBindings, mk.injEq, and_true]
    ext i h1 h2
    · simp
    · simp only [Array.getElem_modify, id_eq]
      split <;> rfl

end ScopeTable

namespace Translator

open Step

variable {t t' : Translator} {line : Line} {keyword : Text} {operands : List Text} {ops : List Op}

/-- A line that is a statement is performed as that statement. -/
theorem on_process {k : Keyword} (h : t.set.statement? line = some k) :
    ∃ keyword operands, line.fields = keyword :: operands ∧
      t.set.conditionCode? keyword = none ∧ Keyword.ofText? keyword = some k ∧
      (process line).on t = (perform line keyword operands k).on t := by
  rw [InstructionSet.statement?] at h
  split at h
  · simp at h
  · next keyword operands hfields =>
    split at h
    · simp at h
    · next hcode =>
      have hcode : t.set.conditionCode? keyword = none := by simpa using hcode
      refine ⟨keyword, operands, hfields, hcode, h, ?_⟩
      rw [process, on_get_bind, hfields]
      simp only [hcode, h]

/-- A line that is no statement is a comparison, or nothing. -/
theorem on_process_of_none (h : t.set.statement? line = none) :
    (∃ keyword operands code, line.fields = keyword :: operands ∧
        t.set.conditionCode? keyword = some code ∧
        (process line).on t = (check (t.comparison keyword code operands)).on t) ∨
      ((∀ keyword operands, line.fields = keyword :: operands →
          t.set.conditionCode? keyword = none ∧ Keyword.ofText? keyword = none) ∧
        (process line).on t = (.ok [], t)) := by
  rw [InstructionSet.statement?] at h
  split at h
  · next hfields =>
    refine .inr ⟨by simp [hfields], ?_⟩
    rw [process, on_get_bind, hfields]
    rfl
  · next keyword operands hfields =>
    cases hcode : t.set.conditionCode? keyword with
    | some code =>
      refine .inl ⟨keyword, operands, code, hfields, hcode, ?_⟩
      rw [process, on_get_bind, hfields]
      simp only [hcode]
      rfl
    | none =>
      simp only [hcode, Option.isSome_none, Bool.false_eq_true, if_false] at h
      refine .inr ⟨?_, ?_⟩
      · intro other rest hother
        obtain ⟨rfl, rfl⟩ := List.cons.inj (hfields.symm.trans hother)
        exact ⟨hcode, h⟩
      · rw [process, on_get_bind, hfields]
        simp only [hcode, h]
        rfl

/-- What an accepted statement can do: change names of the current scope, or open or close a block
of one of the two kinds. -/
inductive Effect (t : Translator) (line : Line) : List Op → Translator → Prop where
  /-- A statement that neither opens nor closes a block changes names and memory at most. -/
  | names {ops : List Op} (change : Dictionary Value → Dictionary Value) (memory : Memory)
      (hk : ∀ k, t.set.statement? line = some k → k.isBlock = false) :
      Effect t line ops { t with scopes := t.scopes.modifyBindings t.scope change, memory }
  /-- DEF. -/
  | define {keyword name : Text} {rest : List Text} (hk : t.set.statement? line = some .define)
      (hfields : line.fields = keyword :: name :: rest) (hname : t.checkName name = .ok ())
      (hfresh : t.definitions.contains name = false)
      (hscope : t.scopes.find? (t.bodyName name) = none) : Effect t line [] (t.defined line name)
  /-- IF. -/
  | condition {keyword comparison a b : Text} {rest : List Text} {code : Int64}
      {left right : Value} (hk : t.set.statement? line = some .condition)
      (hfields : line.fields = keyword :: comparison :: a :: b :: rest)
      (hcode : t.set.conditionCode? comparison = some code) (hleft : t.resolve a = .ok left)
      (hright : t.resolve b = .ok right) :
      Effect t line (t.set.branchOps code left right (.target (.after t.nextSerial)))
        (t.conditioned line
          (t.set.branchOps code left right (.target (.after t.nextSerial))).length)
  /-- ENDDEF. -/
  | endDefine {d : Definition} {position : Nat} {rest : List Nat} {program : Program}
      (hk : t.set.statement? line = some .endDefine)
      (hstack : t.definitions.stack = position :: rest)
      (hrecord : t.definitions.records[position]? = some d)
      (hdepth : t.conditions.depth = d.conditionDepth)
      (hinsert : t.program.insert d.site (t.definitionSkip d) = .ok program) :
      Effect t line [t.set.returnOp] (t.endedDefinition d position rest program)
  /-- ENDIF. -/
  | endCondition {c : Condition} {rest : List Condition} {program : Program}
      (hk : t.set.statement? line = some .endCondition)
      (hstack : t.conditions.stack = c :: rest)
      (hdepth : t.definitions.depth = c.definitionDepth)
      (hinsert : t.program.insert c.site (t.conditionSkip c) = .ok program) :
      Effect t line [] (t.endedCondition rest program)

theorem Effect.refl (hk : ∀ k, t.set.statement? line = some k → k.isBlock = false) :
    Effect t line ops t := by
  have h : Effect t line ops
      { t with scopes := t.scopes.modifyBindings t.scope id, memory := t.memory } :=
    .names id t.memory hk
  simpa using h

theorem plain_ok {outcome : Translator → Except Diagnostic (List Op)}
    (h : (plain outcome).on t = (.ok ops, t')) : outcome t = .ok ops ∧ t' = t := by
  rw [plain, on_get_bind] at h
  exact check_ok h

/-- Dropping names is a change of the bindings of the current scope. -/
theorem foldl_unbind (names : List Text) (t : Translator) :
    ∃ change, names.foldl (·.unbind ·) t =
      { t with scopes := t.scopes.modifyBindings t.scope change } := by
  induction names generalizing t with
  | nil => exact ⟨id, by simp⟩
  | cons name rest ih =>
    obtain ⟨change, hchange⟩ := ih (t.unbind name)
    refine ⟨change ∘ (·.erase name), ?_⟩
    rw [List.foldl_cons, hchange, ← ScopeTable.modifyBindings_modifyBindings]
    rfl

/-- The effect of a performed statement that neither opens nor closes a block. -/
theorem effect_of_perform_names {k : Keyword} (hk : t.set.statement? line = some k)
    (hblock : k.isBlock = false) (h : (perform line keyword operands k).on t = (.ok ops, t')) :
    Effect t line ops t' := by
  have hnames : ∀ k, t.set.statement? line = some k → k.isBlock = false := by
    intro other hother
    rw [hk, Option.some.injEq] at hother
    exact hother ▸ hblock
  cases k with
  | define | endDefine | condition | endCondition => simp [Keyword.isBlock] at hblock
  | constant =>
    obtain ⟨name, _, _, n, _, _, _, _, _, rfl⟩ := constant_ok h
    exact .names _ t.memory hnames
  | assign =>
    obtain ⟨_, _, _, _, _, _, _, hplace, _⟩ := assign_ok h
    obtain ⟨_, _, rfl⟩ | ⟨name, index, _, _, _, _, _, rfl⟩ := assignee_ok hplace
    · exact .refl hnames
    · exact .names (·.insert name _) _ hnames
  | setAddress =>
    obtain ⟨_, _, _, _, _, _, _, _, _, _, _, rfl⟩ := setAddress_ok h
    exact .names _ t.memory hnames
  | unset =>
    obtain ⟨names, _, _, rfl⟩ := unset_ok h
    obtain ⟨change, hchange⟩ := foldl_unbind names t
    rw [hchange]
    exact .names change t.memory hnames
  | add | subtract | multiply | divide | call =>
    obtain ⟨_, rfl⟩ := plain_ok h
    exact .refl hnames

/-- Every accepted statement has one of the effects. -/
theorem effect_of_process (h : (process line).on t = (.ok ops, t')) : Effect t line ops t' := by
  cases hk : t.set.statement? line with
  | none =>
    have hnames : ∀ k, t.set.statement? line = some k → k.isBlock = false := by simp [hk]
    obtain ⟨keyword, operands, code, _, _, hrun⟩ | ⟨_, hrun⟩ := on_process_of_none hk
    · rw [hrun] at h
      obtain ⟨_, rfl⟩ := check_ok h
      exact .refl hnames
    · simp only [hrun, Prod.mk.injEq, Except.ok.injEq] at h
      obtain ⟨_, rfl⟩ := h
      exact .refl hnames
  | some k =>
    obtain ⟨keyword, operands, hfields, _, _, hrun⟩ := on_process hk
    rw [hrun] at h
    cases hblock : k.isBlock with
    | false => exact effect_of_perform_names hk hblock h
    | true =>
      cases k with
      | constant | assign | setAddress | unset | add | subtract | multiply | divide | call =>
        simp [Keyword.isBlock] at hblock
      | define =>
        obtain ⟨name, rest, rfl, hname, hfresh, hscope, rfl, rfl⟩ := define_ok h
        exact .define hk hfields hname hfresh hscope
      | condition =>
        obtain ⟨_, a, b, rest, code, left, right, rfl, hcode, hleft, hright, rfl, rfl⟩ :=
          condition_ok h
        exact .condition hk hfields hcode hleft hright
      | endDefine =>
        obtain ⟨d, position, rest, program, hstack, hrecord, hdepth, hinsert, rfl, rfl⟩ :=
          endDefine_ok h
        exact .endDefine hk hstack hrecord hdepth hinsert
      | endCondition =>
        obtain ⟨c, rest, program, hstack, hdepth, hinsert, rfl, rfl⟩ := endCondition_ok h
        exact .endCondition hk hstack hdepth hinsert

/-- An accepted line is a processed line whose operations are put at the end of the program. -/
theorem feed_ok {instrs : List Instr} (h : t.feed line = (.ok instrs, t')) :
    ∃ ops next, (process line).on t = (.ok ops, next) ∧ next.emit line ops = (instrs, t') := by
  rw [feed] at h
  split at h
  · next ops next hrun =>
    simp only [Prod.mk.injEq, Except.ok.injEq] at h
    exact ⟨ops, next, hrun, Prod.ext h.1 h.2⟩
  · simp at h
  · simp at h

theorem feedAll_cons_ok {rest : List Line} (h : t.feedAll (line :: rest) = (.ok (), t')) :
    ∃ instrs next, t.feed line = (.ok instrs, next) ∧ next.feedAll rest = (.ok (), t') := by
  rw [feedAll] at h
  split at h
  · next instrs next hfeed => exact ⟨instrs, next, hfeed, h⟩
  · simp at h

theorem feedAll_append_ok {lines rest : List Line}
    (h : t.feedAll (lines ++ rest) = (.ok (), t')) :
    ∃ next, t.feedAll lines = (.ok (), next) ∧ next.feedAll rest = (.ok (), t') := by
  induction lines generalizing t with
  | nil => exact ⟨t, rfl, h⟩
  | cons line lines ih =>
    obtain ⟨instrs, next, hfeed, hrest⟩ := feedAll_cons_ok h
    obtain ⟨behind, hlines, hrest⟩ := ih hrest
    refine ⟨behind, ?_, hrest⟩
    rw [feedAll, hfeed]
    exact hlines

theorem feed_config {instrs : List Instr} (h : t.feed line = (.ok instrs, t')) :
    t'.config = t.config := by
  obtain ⟨ops, next, hrun, hemit⟩ := feed_ok h
  have ht' : t' = (next.emit line ops).2 := by rw [hemit]
  have hnext : next.config = t.config := by
    cases effect_of_process hrun <;> rfl
  exact ht' ▸ hnext

/-- A refused line is a line that could not be processed, and its state is the one behind it. -/
theorem feed_error {fault : Fault} (h : t.feed line = (.error fault, t')) :
    ∃ cause, (process line).on t = (.error cause, t') := by
  rw [feed] at h
  split at h
  · simp at h
  · next d next hrun =>
    simp only [Prod.mk.injEq] at h
    exact ⟨.rejected d, h.2 ▸ hrun⟩
  · next cause next _ hrun =>
    simp only [Prod.mk.injEq] at h
    exact ⟨cause, h.2 ▸ hrun⟩

end Translator

end AccuAsm
