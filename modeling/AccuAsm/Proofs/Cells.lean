import AccuAsm.Proofs.OpenBlocks
import AccuAsm.Proofs.Refusals

/-!
# The RAM cells of a run

SET creates a variable if its destination has a name that is not visible.  The variable gets
the lowest cell that is free, and no cell is ever given back.

There are four groups.

* Memory.  `Memory.Filled` says that cells have been handed out from the lowest one up.
* Lines.  `freshName?` is the variable that a line would create.  `created_of_feed` and
  `memory_of_feed` say what an accepted line does to the memory: one that creates a variable
  takes a cell, and every other one takes none.
* Histories.  `creations` lists the variables that a run created.  `Allotted.feed` is the
  step lemma and `allotted_feedEach` the run lemma.
* Results.  `refuses_outOfMemory` says what happens when all cells have been handed out, and
  `cells_in_order` puts the parts together.
-/

namespace AccuAsm

/-! ## Memory -/

namespace Memory

variable {m : Memory}

/-- Cells have been handed out from the lowest one up. -/
structure Filled (m : Memory) : Prop where
  ordered : m.taken = (List.range m.used).reverse
  within : m.used ≤ capacity

theorem filled_empty : Filled {} := ⟨rfl, Nat.zero_le _⟩

theorem Filled.mem_taken_iff (h : m.Filled) (index : Nat) :
    index ∈ m.taken ↔ index < m.used := by
  rw [h.ordered, List.mem_reverse, List.mem_range]

theorem Filled.take (h : m.Filled) (hroom : m.used < capacity) : (m.take m.used).Filled where
  ordered := by
    show m.used :: m.taken = (List.range (m.used + 1)).reverse
    rw [List.range_succ, List.reverse_append, ← h.ordered]
    rfl
  within := hroom

theorem Filled.occupied_iff (h : m.Filled) (index : Int) :
    m.occupied index = true ↔ 0 ≤ index ∧ index < m.used := by
  unfold occupied
  rw [Bool.and_eq_true, decide_eq_true_iff, List.contains_iff_mem, h.mem_taken_iff]
  omega

/-- Different cells of the pool have different values. -/
theorem eq_of_cell_eq {i j : Nat} (hi : i < capacity) (hj : j < capacity) (h : cell i = cell j) :
    i = j := by
  have hcapacity : capacity = 255 := rfl
  have hpayload : Int64.ofNat i = Int64.ofNat j := congrArg Value.payload h
  have hint : (Int64.ofNat i).toInt = (Int64.ofNat j).toInt := congrArg Int64.toInt hpayload
  rw [Int64.toInt_ofNat_of_lt (by omega), Int64.toInt_ofNat_of_lt (by omega)] at hint
  omega

end Memory

/-- A name that has just been bound in a scope. -/
theorem ScopeTable.lookupIn_declare {t : ScopeTable} {scope : Nat} (h : scope < t.size)
    (name : Text) (value : Value) :
    (t.declare scope name value).lookupIn scope name = some value := by
  have hscope : t.scopes[scope]? = some t.scopes[scope] := Array.getElem?_eq_getElem h
  simp [lookupIn, declare, modifyBindings, Array.getElem?_modify, hscope]

/-! ## Lines -/

namespace Translator

open Step

variable {t t' : Translator} {line : Line} {emitted : List Instr} {ops : List Op} {name : Text}

/-- The variable that a line would create: the destination of a SET, if its name is not visible. -/
def freshName? (t : Translator) (line : Line) : Option Text :=
  match t.set.statement? line, line.fields with
  | some .assign, _ :: dest :: _ => (dest.stripPrefix? "$").filter (!t.visible ·)
  | _, _ => none

theorem freshName?_eq_some (h : t.freshName? line = some name) :
    t.set.statement? line = some .assign ∧ ∃ keyword dest rest,
      line.fields = keyword :: dest :: rest ∧ dest.stripPrefix? "$" = some name ∧
        t.visible name = false := by
  unfold freshName? at h
  split at h
  · next keyword dest rest hk hfields =>
    obtain ⟨hstrip, hhidden⟩ := Option.filter_eq_some_iff.mp h
    exact ⟨hk, keyword, dest, rest, hfields, hstrip, by simpa using hhidden⟩
  · cases h

theorem freshName?_of_assign {keyword dest : Text} {rest : List Text}
    (hk : t.set.statement? line = some .assign) (hfields : line.fields = keyword :: dest :: rest)
    (hstrip : dest.stripPrefix? "$" = some name) (hhidden : t.visible name = false) :
    t.freshName? line = some name := by
  unfold freshName?
  rw [hk, hfields]
  exact Option.filter_eq_some_iff.mpr ⟨hstrip, by simp [hhidden]⟩

/-- A line that is accepted and would create a variable does so. -/
theorem created_of_feed (hfeed : t.feed line = (.ok emitted, t'))
    (hname : t.freshName? line = some name) : ∃ index, t.memory.next = .ok index ∧
      t'.memory = t.memory.take index ∧
      t'.scopes = t.scopes.declare t.scope name (Memory.cell index) := by
  obtain ⟨ops, next, hrun, hemit⟩ := feed_ok hfeed
  have ht' : t' = (next.emit line ops).2 := by rw [hemit]
  obtain ⟨hk, keyword, dest, rest, hfields, hstrip, hhidden⟩ := freshName?_eq_some hname
  obtain ⟨keyword', operands, hfields', _, _, hprocess⟩ := on_process hk
  rw [hprocess] at hrun
  obtain ⟨dest', source, rest', value, place, rfl, _, hassignee, _⟩ := assign_ok hrun
  obtain rfl : dest' = dest := by
    rw [hfields] at hfields'
    exact (List.cons.inj (List.cons.inj hfields').2).1.symm
  obtain ⟨hvisible, _⟩ | ⟨name', index, hstrip', _, _, hnext, rfl, rfl⟩ := assignee_ok hassignee
  · rw [hvisible name hstrip] at hhidden
    cases hhidden
  · obtain rfl : name' = name := Option.some.inj (hstrip'.symm.trans hstrip)
    exact ⟨index, hnext, by rw [ht']; rfl, by rw [ht']; rfl⟩

theorem memory_of_process (hrun : (process line).on t = (.ok ops, t'))
    (hname : t.freshName? line = none) : t'.memory = t.memory := by
  cases hk : t.set.statement? line with
  | none =>
    obtain ⟨_, _, _, _, _, hprocess⟩ | ⟨_, hprocess⟩ := on_process_of_none hk
    · rw [hprocess] at hrun
      rw [(check_ok hrun).2]
    · rw [hprocess] at hrun
      rw [(Prod.mk.inj hrun).2]
  | some k =>
    obtain ⟨keyword, operands, hfields, _, _, hprocess⟩ := on_process hk
    rw [hprocess] at hrun
    cases k with
    | constant =>
      obtain ⟨_, _, _, _, _, _, _, _, _, rfl⟩ := constant_ok hrun
      rfl
    | assign =>
      obtain ⟨dest, source, rest, _, _, rfl, _, hassignee, _⟩ := assign_ok hrun
      obtain ⟨_, _, rfl⟩ | ⟨name, _, hstrip, hhidden, _, _, _, _⟩ := assignee_ok hassignee
      · rfl
      · rw [freshName?_of_assign hk hfields hstrip hhidden] at hname
        cases hname
    | setAddress =>
      obtain ⟨_, _, _, _, _, _, _, _, _, _, _, rfl⟩ := setAddress_ok hrun
      rfl
    | unset =>
      obtain ⟨names, _, _, rfl⟩ := unset_ok hrun
      obtain ⟨change, hchange⟩ := foldl_unbind names t
      rw [hchange]
    | add | subtract | multiply | divide | call => rw [(plain_ok hrun).2]
    | define =>
      obtain ⟨_, _, _, _, _, _, _, rfl⟩ := define_ok hrun
      rfl
    | condition =>
      obtain ⟨_, _, _, _, _, _, _, _, _, _, _, _, rfl⟩ := condition_ok hrun
      rfl
    | endDefine =>
      obtain ⟨_, _, _, _, _, _, _, _, _, rfl⟩ := endDefine_ok hrun
      rfl
    | endCondition =>
      obtain ⟨_, _, _, _, _, _, _, rfl⟩ := endCondition_ok hrun
      rfl

/-- An accepted line that creates no variable takes no cell. -/
theorem memory_of_feed (hfeed : t.feed line = (.ok emitted, t'))
    (hname : t.freshName? line = none) : t'.memory = t.memory := by
  obtain ⟨ops, next, hrun, hemit⟩ := feed_ok hfeed
  have hkeep : t'.memory = next.memory := by
    have ht' : t' = (next.emit line ops).2 := by rw [hemit]
    rw [ht']
    rfl
  rw [hkeep, memory_of_process hrun hname]

/-! ## Histories -/

/-- A variable that was created: the line that did it, and its name. -/
structure Creation where
  /-- The line with the states around it. -/
  step : Transition
  /-- The name of the variable. -/
  name : Text

/-- What the name is bound to behind the line, in the scope that was current in front of it. -/
def Creation.value? (c : Creation) : Option Value :=
  c.step.after.scopes.lookupIn c.step.before.scope c.name

/-- The variables that a run created, in the order in which that happened. -/
def creations (history : List Transition) : List Creation :=
  history.filterMap fun s => (s.before.freshName? s.line).map (⟨s, ·⟩)

variable {history : List Transition}

theorem creations_concat (history : List Transition) (s : Transition) :
    creations (history ++ [s]) =
      creations history ++ ((s.before.freshName? s.line).map (⟨s, ·⟩)).toList := by
  unfold creations
  rw [List.filterMap_append]
  cases hname : s.before.freshName? s.line <;> simp [hname]

/-- The cells of the variables that a run created. -/
structure Allotted (t : Translator) (history : List Transition) : Prop where
  housed : Housed t
  filled : t.memory.Filled
  /-- As many cells are in use as variables were created. -/
  used : t.memory.used = (creations history).length
  /-- Each variable was bound to the next cell, and the current scope stayed the current one. -/
  cells : ∀ (k : Nat) (c : Creation), (creations history)[k]? = some c →
    c.step.after.scope = c.step.before.scope ∧ c.value? = some (Memory.cell k)

theorem allotted_new (config : Config) : Allotted (new config) [] where
  housed := housed_new config
  filled := Memory.filled_empty
  used := rfl
  cells := by simp [creations]

theorem Allotted.next_ok (h : Allotted t history) {index : Nat}
    (hnext : t.memory.next = .ok index) :
    t.memory.used < Memory.capacity ∧ index = t.memory.used := by
  rw [Memory.next_eq h.filled.ordered] at hnext
  split at hnext
  · next hroom => exact ⟨hroom, (Except.ok.inj hnext).symm⟩
  · cases hnext

/-- What one accepted line does to the cells. -/
theorem Allotted.feed (h : Allotted t history) (hfeed : t.feed line = (.ok emitted, t')) :
    Allotted t' (history ++ [⟨t, line, emitted, t'⟩]) := by
  have hhoused := h.housed.feed hfeed
  have hconcat := creations_concat history ⟨t, line, emitted, t'⟩
  cases hname : t.freshName? line with
  | none =>
    have hsame : creations (history ++ [⟨t, line, emitted, t'⟩]) = creations history := by
      rw [hconcat]
      simp [hname]
    have hmemory := memory_of_feed hfeed hname
    exact ⟨hhoused, hmemory ▸ h.filled, by rw [hmemory, hsame, h.used], hsame ▸ h.cells⟩
  | some name =>
    have hone : creations (history ++ [⟨t, line, emitted, t'⟩]) =
        creations history ++ [⟨⟨t, line, emitted, t'⟩, name⟩] := by
      rw [hconcat]
      simp [hname]
    obtain ⟨index, hnext, hmemory, hscopes⟩ := created_of_feed hfeed hname
    obtain ⟨hroom, rfl⟩ := h.next_ok hnext
    refine ⟨hhoused, hmemory ▸ h.filled.take hroom, ?_, ?_⟩
    · rw [hmemory, hone, List.length_append, ← h.used]
      rfl
    · intro k c hc
      rw [hone, List.getElem?_append] at hc
      split at hc
      · exact h.cells k c hc
      · next hlast =>
        -- the new variable is the only one behind the old ones
        obtain ⟨hk, rfl⟩ : k = t.memory.used ∧ c = ⟨⟨t, line, emitted, t'⟩, name⟩ := by
          rw [List.getElem?_singleton] at hc
          split at hc
          · exact ⟨by rw [h.used]; omega, (Option.some.inj hc).symm⟩
          · cases hc
        refine ⟨?_, ?_⟩
        · show t'.scopes.current = t.scopes.current
          rw [hscopes]
          rfl
        · show t'.scopes.lookupIn t.scope name = _
          rw [hscopes, hk, ScopeTable.lookupIn_declare h.housed.current]

theorem allotted_feedEach (config : Config) (lines : List Line) :
    Allotted ((new config).feedEach lines) ((new config).transitions lines) := by
  apply run_induction
  case hnew => exact allotted_new config
  case hstep =>
    intro t t' line emitted history _ _ h hfeed
    exact h.feed hfeed

/-! ## Results -/

/-- No two variables were bound to the same cell. -/
theorem Allotted.nodup (h : Allotted t history) :
    ((creations history).map Creation.value?).Nodup := by
  have hlength : (creations history).length ≤ Memory.capacity := h.used ▸ h.filled.within
  rw [List.nodup_iff_getElem?_ne_getElem?]
  intro i j hij hj heq
  rw [List.length_map] at hj
  have hvalue (k : Nat) (hk : k < (creations history).length) :
      ((creations history).map Creation.value?)[k]? = some (some (Memory.cell k)) := by
    rw [List.getElem?_map, List.getElem?_eq_getElem hk, Option.map_some]
    exact congrArg some (h.cells k _ (List.getElem?_eq_getElem hk)).2
  rw [hvalue i (by omega), hvalue j hj] at heq
  have hsame : i = j :=
    Memory.eq_of_cell_eq (by omega) (by omega) (Option.some.inj (Option.some.inj heq))
  omega

/-- With all cells in use, a line that would create a variable is refused for that reason, unless
there is another one. -/
theorem refuses_outOfMemory (hfull : t.memory.next = .error { complaint := .memoryFull 255 })
    {source : Text} {value : Value} (hname : t.freshName? line = some name)
    (hsource : line.fields[2]? = some source) (hvalue : t.resolve source = .ok value)
    (hvalid : t.checkName name = .ok ()) : Refuses t line .outOfMemory := by
  obtain ⟨hk, keyword, dest, rest, hfields, hstrip, hhidden⟩ := freshName?_eq_some hname
  obtain ⟨keyword', operands, hfields', _, _, hprocess⟩ := on_process hk
  rw [hfields] at hfields' hsource
  obtain ⟨rfl, rfl⟩ := List.cons.inj hfields'
  obtain ⟨others, rfl⟩ : ∃ others, rest = source :: others := by
    cases rest with
    | nil => cases hsource
    | cons first others => exact ⟨others, by rw [Option.some.inj hsource]⟩
  have hallocate : allocate.on t = (.error (.rejected { complaint := .memoryFull 255 }), t) := by
    rw [allocate, on_get_bind, hfull]
    exact on_bind_of_error rfl
  have hassignee : (assignee dest).on t =
      (.error (.rejected { complaint := .memoryFull 255 }), t) := by
    rw [assignee, on_get_bind, hstrip]
    simp only [hhidden, Bool.false_eq_true, if_false, hvalid]
    rw [on_bind_of_ok (on_check_ok () t)]
    exact on_bind_of_error hallocate
  have hrun : (process line).on t =
      (.error (.rejected { complaint := .memoryFull 255 }), t) := by
    rw [hprocess]
    show (assign keyword (dest :: source :: others)).on t = _
    rw [assign, on_get_bind, hvalue, on_bind_of_ok (on_check_ok value t)]
    exact on_bind_of_error hassignee
  exact refuses_of_process hrun

/-- Cells are handed out in order, one for each variable that SET creates, and none is handed out
twice.  Behind any lines, as many cells are in use as variables were created, and they are the
lowest ones.  When all are in use, no variable can be created.  No other line touches the memory,
accepted or not. -/
theorem cells_in_order (config : Config) (lines : List Line) :
    let t := (new config).feedEach lines
    let created := creations ((new config).transitions lines)
    t.memory.used = created.length ∧ t.memory.used ≤ 255 ∧
    (∀ index : Int, t.memory.occupied index = true ↔ 0 ≤ index ∧ index < t.memory.used) ∧
    (∀ (k : Nat) (c : Creation), created[k]? = some c →
      c.step.after.scope = c.step.before.scope ∧ c.value? = some (Memory.cell k)) ∧
    (created.map Creation.value?).Nodup ∧
    (t.memory.used = 255 → ∀ (line : Line) (name source : Text) (value : Value),
      t.freshName? line = some name → line.fields[2]? = some source →
      t.resolve source = .ok value → t.checkName name = .ok () → Refuses t line .outOfMemory) ∧
    ∀ line : Line, ¬((t.freshName? line).isSome ∧ Accepts t line) →
      (t.feed line).2.memory = t.memory := by
  intro t created
  have h : Allotted t ((new config).transitions lines) := allotted_feedEach config lines
  have hseated : Seated t := (seated_new config).feedEach lines
  refine ⟨h.used, h.filled.within, h.filled.occupied_iff, h.cells, h.nodup, ?_, ?_⟩
  · intro hfull line name source value hname hsource hvalue hvalid
    refine refuses_outOfMemory ?_ hname hsource hvalue hvalid
    rw [Memory.next_eq h.filled.ordered, if_neg (by rw [hfull]; decide)]
    rfl
  · intro line hother
    rcases hfeed : t.feed line with ⟨fault | emitted, next⟩
    · exact congrArg Translator.memory (hseated.feed_error_eq hfeed)
    · refine memory_of_feed hfeed (Option.not_isSome_iff_eq_none.mp fun hsome => ?_)
      exact hother ⟨hsome, emitted, next, hfeed⟩

end Translator

end AccuAsm
