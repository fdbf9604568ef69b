import AccuAsm.Proofs.Agreement

/-!
# The registry of definitions

Definitions are kept in the order in which they were opened, and the positions of the open ones on a
stack.  Two calls change them: one opens a definition and one closes the innermost open one.  This
module says what every sequence of such calls keeps, refused ones included.

There are three groups.

* Calls.  `Call.on` is one call and `run` a sequence of them.  `opened` collects the definitions
  that the calls of a sequence opened.
* The invariant.  `Registered` compares the records with the definitions that were opened.
  `Registered.on` is the step lemma and `registered_run` the run lemma.
* Results.  `Registered.opens` says that the stack holds the records that are not closed, and
  `Registered.find_eq_ok_iff` that each definition is found by its name.
-/

namespace AccuAsm

/-- A definition without the mark of a closed one: as it was when it was opened. -/
def Definition.reopened (d : Definition) : Definition := { d with closed := false }

/-- A definition with the mark of a closed one. -/
def Definition.shut (d : Definition) : Definition := { d with closed := true }

namespace Definitions

variable {ds : Definitions} {begun : List Definition} {name : Text} {site : Int} {skip : Instr}
  {d : Definition} {position : Nat} {rest : List Nat}

/-! ## Calls -/

/-- A call that changes the definitions. -/
inductive Call where
  /-- Open a definition. -/
  | enter (name : Text) (site : Int) (skip : Instr)
  /-- Close the innermost open one. -/
  | leave
  deriving DecidableEq, Repr

/-- The answer to a call, and the definitions behind it. -/
def Call.on (ds : Definitions) : Call → Except Diagnostic Definition × Definitions
  | .enter name site skip =>
    match ds.enter (.new name site skip) with
    | .ok ds' => (.ok (.new name site skip), ds')
    | .error e => (.error e, ds)
  | .leave =>
    match ds.leave with
    | .ok (d, ds') => (.ok d, ds')
    | .error e => (.error e, ds)

/-- The definition that a call opens, unless it is refused or closes one. -/
def Call.opens? (ds : Definitions) : Call → Option Definition
  | .enter name site skip => ((Call.enter name site skip).on ds).1.toOption
  | .leave => none

/-- The definitions behind a sequence of calls. -/
def run (ds : Definitions) (calls : List Call) : Definitions :=
  calls.foldl (fun ds c => (c.on ds).2) ds

/-- The definitions that a sequence of calls opens, in the order of the calls. -/
def opened (ds : Definitions) : List Call → List Definition
  | [] => []
  | c :: rest => (c.opens? ds).toList ++ opened (c.on ds).2 rest

/-! ## The invariant -/

/-- What calls keep.  The records are the definitions that were opened, in the same order, and only
the mark of the closed ones is new.  The stack holds the positions of those without the mark, the
last one first. -/
structure Registered (ds : Definitions) (begun : List Definition) : Prop where
  order : ds.all.map Definition.reopened = begun
  distinct : (begun.map (·.name)).Nodup
  entries : ∀ b ∈ begun, b.entry = .after b.skip.serial
  descending : ds.stack.Pairwise (· > ·)
  mem_stack : ∀ position, position ∈ ds.stack ↔
    ∃ d, ds.records[position]? = some d ∧ d.closed = false

theorem registered_empty : Registered {} [] where
  order := rfl
  distinct := List.nodup_nil
  entries b hb := by cases hb
  descending := .nil
  mem_stack position := by simp

theorem Registered.names_eq (h : Registered ds begun) :
    ds.all.map (·.name) = begun.map (·.name) := by
  rw [← h.order, List.map_map]
  rfl

theorem Registered.lt_size (h : Registered ds begun) (hposition : position ∈ ds.stack) :
    position < ds.records.size := by
  obtain ⟨d, hd, _⟩ := (h.mem_stack position).mp hposition
  exact (Array.getElem?_eq_some_iff.mp hd).1

/-- A definition is opened unless its name is taken. -/
theorem enter_eq (ds : Definitions) (d : Definition) :
    ds.enter d =
      if d.name ∈ ds.all.map (·.name) then
        .error { complaint := .definitionExists, token := d.name }
      else .ok ⟨ds.records.push d, ds.records.size :: ds.stack⟩ := by
  have hiff : ds.contains d.name = true ↔ d.name ∈ ds.all.map (·.name) := by
    rw [contains_iff, List.mem_map]
    simp only [all, Array.mem_toList_iff]
  unfold enter
  simp only [hiff]

theorem on_eq_enter (name : Text) (site : Int) (skip : Instr) :
    (Call.enter name site skip).on ds =
      if name ∈ ds.all.map (·.name) then
        (.error { complaint := .definitionExists, token := name }, ds)
      else (.ok (.new name site skip),
        ⟨ds.records.push (.new name site skip), ds.records.size :: ds.stack⟩) := by
  rw [Call.on, enter_eq]
  by_cases htaken : name ∈ ds.all.map (·.name)
  · rw [if_pos htaken, if_pos (show (Definition.new name site skip).name ∈ _ from htaken)]
    rfl
  · rw [if_neg htaken, if_neg (show ¬(Definition.new name site skip).name ∈ _ from htaken)]

theorem Registered.enter (h : Registered ds begun) (hfree : name ∉ ds.all.map (·.name)) :
    Registered ⟨ds.records.push (.new name site skip), ds.records.size :: ds.stack⟩
      (begun ++ [.new name site skip]) where
  order := by
    rw [← h.order]
    simp only [all, Array.toList_push, List.map_append]
    rfl
  distinct := by
    rw [List.map_append, List.nodup_append]
    refine ⟨h.distinct, List.nodup_singleton _, ?_⟩
    intro taken htaken fresh hfresh hsame
    rw [hsame, List.mem_singleton.mp hfresh, ← h.names_eq] at htaken
    exact hfree htaken
  entries b hb := by
    rcases List.mem_append.mp hb with hold | hnew
    · exact h.entries b hold
    · rw [List.mem_singleton.mp hnew]
      rfl
  descending := List.pairwise_cons.mpr ⟨fun _ hposition => h.lt_size hposition, h.descending⟩
  mem_stack position := by
    rw [List.mem_cons, Array.getElem?_push]
    split
    · next hlast => exact iff_of_true (.inl hlast) ⟨_, rfl, rfl⟩
    · next hother => exact (or_iff_right hother).trans (h.mem_stack position)

/-- Closing fails if no definition is open, and else marks the one on top of the stack. -/
theorem Registered.leave_cases (h : Registered ds begun) :
    (ds.stack = [] ∧ ds.leave = .error noneOpen) ∨
    ∃ position rest d, ds.stack = position :: rest ∧ ds.records[position]? = some d ∧
      ds.leave = .ok (d.shut, ⟨ds.records.modify position fun _ => d.shut, rest⟩) := by
  cases hstack : ds.stack with
  | nil =>
    refine .inl ⟨rfl, ?_⟩
    unfold leave
    rw [hstack]
  | cons position rest =>
    obtain ⟨d, hd, _⟩ := (h.mem_stack position).mp (hstack ▸ List.mem_cons_self)
    exact .inr ⟨position, rest, d, rfl, hd, Translator.leave_eq hstack hd⟩

theorem Registered.leave (h : Registered ds begun) (hstack : ds.stack = position :: rest)
    (hd : ds.records[position]? = some d) :
    Registered ⟨ds.records.modify position fun _ => d.shut, rest⟩ begun where
  order := by
    rw [← h.order]
    apply List.ext_getElem?
    intro other
    simp only [all, List.getElem?_map, Array.getElem?_toList, Array.getElem?_modify]
    split
    · next hsame =>
      rw [← hsame, hd]
      rfl
    · rfl
  distinct := h.distinct
  entries := h.entries
  descending := (List.pairwise_cons.mp (hstack ▸ h.descending)).2
  mem_stack other := by
    have hbelow := (List.pairwise_cons.mp (hstack ▸ h.descending)).1
    have hold := h.mem_stack other
    rw [hstack, List.mem_cons] at hold
    rw [Array.getElem?_modify]
    split
    · next hsame =>
      rw [← hsame, hd]
      refine iff_of_false (fun hmem => Nat.lt_irrefl _ (hbelow _ hmem)) ?_
      rintro ⟨e, he, hopen⟩
      rw [← Option.some.inj he] at hopen
      cases hopen
    · next hother => exact (or_iff_right (Ne.symm hother)).symm.trans hold

/-- The step lemma. -/
theorem Registered.on (h : Registered ds begun) (c : Call) :
    Registered (c.on ds).2 (begun ++ (c.opens? ds).toList) := by
  cases c with
  | enter name site skip =>
    rw [Call.opens?, on_eq_enter]
    split
    · exact (List.append_nil begun).symm ▸ h
    · next hfree => exact h.enter hfree
  | leave =>
    rw [Call.opens?, Option.toList_none, List.append_nil, Call.on]
    obtain ⟨_, hleave⟩ | ⟨position, rest, d, hstack, hd, hleave⟩ := h.leave_cases
    · rw [hleave]
      exact h
    · rw [hleave]
      exact h.leave hstack hd

/-- The run lemma. -/
theorem Registered.run (h : Registered ds begun) (calls : List Call) :
    Registered (ds.run calls) (begun ++ ds.opened calls) := by
  induction calls generalizing ds begun with
  | nil => exact (List.append_nil begun).symm ▸ h
  | cons c rest ih =>
    rw [opened, ← List.append_assoc]
    exact ih (h.on c)

/-! ## Results -/

/-- The positions of the definitions that are not closed, in order. -/
def openPositions (ds : Definitions) : List Nat :=
  (List.range ds.records.size).filter fun position => ds.records[position]?.any (!·.closed)

theorem Registered.reverse_stack (h : Registered ds begun) :
    ds.stack.reverse = ds.openPositions := by
  -- two ascending lists with the same members are the same
  refine List.Pairwise.eq_of_mem_iff (r := (· < ·)) (List.pairwise_reverse.mpr h.descending)
    (List.pairwise_lt_range.filter _) fun position => ?_
  rw [List.mem_reverse, h.mem_stack, openPositions, List.mem_filter, List.mem_range]
  cases hd : ds.records[position]? with
  | none => simp
  | some d => simp [(Array.getElem?_eq_some_iff.mp hd).1]

/-- The elements at the positions of those that are kept. -/
theorem map_getElem?_filter_range {α : Type} (l : List α) (keep : α → Bool) :
    ((List.range l.length).filter fun i => l[i]?.any keep).map (l[·]?) =
      (l.filter keep).map some := by
  induction l with
  | nil => rfl
  | cons a rest ih =>
    have hrest : (((List.range rest.length).map Nat.succ).filter fun i =>
        (a :: rest)[i]?.any keep).map ((a :: rest)[·]?) = (rest.filter keep).map some := by
      rw [List.filter_map, List.map_map]
      exact ih
    rw [List.length_cons, List.range_succ_eq_map, List.filter_cons, List.filter_cons]
    simp only [List.getElem?_cons_zero, Option.any_some]
    split
    · rw [List.map_cons, List.map_cons, hrest]
      rfl
    · exact hrest

/-- The stack holds the records that are not closed, in the same order. -/
theorem Registered.opens (h : Registered ds begun) :
    ds.stack.reverse.map (ds.records[·]?) = (ds.all.filter (!·.closed)).map some := by
  rw [h.reverse_stack, openPositions]
  simpa [all] using map_getElem?_filter_range ds.all (!·.closed)

theorem Registered.stack_eq_nil_iff (h : Registered ds begun) :
    ds.stack = [] ↔ ∀ d ∈ ds.all, d.closed = true := by
  have hlength := congrArg List.length h.opens
  rw [List.length_map, List.length_map, List.length_reverse] at hlength
  rw [← List.length_eq_zero_iff, hlength, List.length_eq_zero_iff, List.filter_eq_nil_iff]
  simp

theorem Registered.getElem?_begun (h : Registered ds begun) (position : Nat) :
    begun[position]? = ds.records[position]?.map Definition.reopened := by
  rw [← h.order, List.getElem?_map, all, Array.getElem?_toList]

/-- A definition is found by its name, at the position that it was given when it was opened. -/
theorem Registered.find_eq_ok_iff (h : Registered ds begun) :
    ds.find name = .ok d ↔
      ∃ (position : Nat) (b : Definition), begun[position]? = some b ∧ b.name = name ∧
        ds.records[position]? = some d := by
  constructor
  · intro hfind
    obtain ⟨hmem, hname⟩ := find_ok hfind
    obtain ⟨position, hposition⟩ := List.mem_iff_getElem?.mp (Array.mem_toList_iff.mpr hmem)
    rw [Array.getElem?_toList] at hposition
    refine ⟨position, d.reopened, ?_, hname, hposition⟩
    rw [h.getElem?_begun, hposition]
    rfl
  · rintro ⟨position, b, hb, hname, hposition⟩
    rw [h.getElem?_begun, hposition] at hb
    have hd : d.name = name := by
      rw [← hname, ← Option.some.inj hb]
      rfl
    have hmem : d ∈ ds.records := Array.mem_of_getElem? hposition
    -- another record of the name would use it a second time
    obtain ⟨found, hfound⟩ := exists_find (contains_iff.mpr ⟨d, hmem, hd⟩)
    obtain ⟨hfoundMem, hfoundName⟩ := find_ok hfound
    have hsame : found = d := by
      apply List.inj_on_of_nodup_map (h.names_eq ▸ h.distinct)
        (Array.mem_toList_iff.mpr hfoundMem) (Array.mem_toList_iff.mpr hmem)
      rw [hfoundName, hd]
    rw [hfound, hsame]

theorem find_of_unknown (h : ∀ d ∈ ds.all, d.name ≠ name) :
    ds.find name = .error { complaint := .unknownDefinition, token := name } := by
  rw [find]
  split
  · next d hd =>
    have hmem := Array.mem_toList_iff.mpr (Array.mem_of_find?_eq_some hd)
    have hname : d.name = name := by simpa using Array.find?_some hd
    exact absurd hname (h d hmem)
  · rfl

/-- Closing takes the last one off the open definitions. -/
theorem Registered.filter_leave (h : Registered ds begun) (hstack : ds.stack = position :: rest)
    (hd : ds.records[position]? = some d) :
    ds.all.filter (!·.closed) =
      (Definitions.mk (ds.records.modify position fun _ => d.shut) rest).all.filter (!·.closed) ++
        [d.shut.reopened] := by
  have hbelow := (List.pairwise_cons.mp (hstack ▸ h.descending)).1
  have hopen : d.shut.reopened = d := by
    obtain ⟨e, he, hclosed⟩ := (h.mem_stack position).mp (hstack ▸ List.mem_cons_self)
    obtain rfl : d = e := Option.some.inj (hd.symm.trans he)
    show { d with closed := false } = d
    rw [← hclosed]
  have hothers : rest.reverse.map ((ds.records.modify position fun _ => d.shut)[·]?) =
      rest.reverse.map (ds.records[·]?) := by
    apply List.map_congr_left
    intro other hother
    have hless : other < position := hbelow other (List.mem_reverse.mp hother)
    rw [Array.getElem?_modify, if_neg (by omega)]
  apply List.map_injective_iff.mpr (Option.some_injective Definition)
  rw [← h.opens, List.map_append, ← (h.leave hstack hd).opens, hothers, hstack, List.reverse_cons,
    List.map_append, hopen, List.map_singleton, List.map_singleton, hd]

theorem on_of_error {c : Call} {e : Diagnostic} (h : (c.on ds).1 = .error e) :
    (c.on ds).2 = ds := by
  cases c with
  | enter name site skip =>
    rw [Call.on] at h ⊢
    split at h
    · cases h
    · rfl
  | leave =>
    rw [Call.on] at h ⊢
    split at h
    · cases h
    · rfl

theorem on_enterDefinition_of_error {u : Translator} {e : Diagnostic}
    (h : u.definitions.enter d = .error e) :
    (Step.enterDefinition d).on u = (.error (.rejected e), u) := by
  rw [Step.enterDefinition, Step.on_get_bind, h]
  rfl

theorem on_leaveDefinition_of_error {u : Translator} {e : Diagnostic}
    (h : u.definitions.leave = .error e) :
    Step.leaveDefinition.on u = (.error (.rejected e), u) := by
  rw [Step.leaveDefinition, Step.on_get_bind, h]
  rfl

/-- Definitions, and the ones that were opened to get there. -/
structure Lawful (ds : Definitions) (begun : List Definition) : Prop where
  /-- The records are the definitions that were opened, in the same order.  Some are closed. -/
  order : ds.all.map Definition.reopened = begun
  /-- No name is used twice. -/
  distinct : (ds.all.map (·.name)).Nodup
  /-- The stack holds the records that are not closed, in the same order. -/
  opens : ds.stack.reverse.map (ds.records[·]?) = (ds.all.filter (!·.closed)).map some
  /-- A name leads to the record of the one definition that was opened with it, open or closed. -/
  find_iff : ∀ name d, ds.find name = .ok d ↔ ∃ (position : Nat) (b : Definition),
    begun[position]? = some b ∧ b.name = name ∧ ds.records[position]? = some d
  unknown : ∀ name, (∀ b ∈ begun, b.name ≠ name) →
    ds.find name = .error { complaint := .unknownDefinition, token := name }
  /-- A definition is entered right behind the jump over it. -/
  entry : ∀ d ∈ ds.all, d.entry.anchor = d.skip.serial ∧ d.entry.offset = 1
  /-- A definition is opened unless its name is taken. -/
  enter_refused : ∀ name site skip e, ((Call.enter name site skip).on ds).1 = .error e ↔
    (∃ b ∈ begun, b.name = name) ∧ e = { complaint := .definitionExists, token := name }
  /-- One is closed unless all are, and it is the last of the open ones. -/
  leave_refused : ∀ e, (Call.leave.on ds).1 = .error e ↔
    (∀ d ∈ ds.all, d.closed = true) ∧ e = noneOpen
  leave_closes : ∀ d ds', Call.leave.on ds = (.ok d, ds') → d.closed = true ∧
    ds.all.filter (!·.closed) = ds'.all.filter (!·.closed) ++ [d.reopened]
  /-- A call that is refused changes nothing, neither here nor in a translator. -/
  unchanged : ∀ (c : Call) (e : Diagnostic), (c.on ds).1 = .error e → (c.on ds).2 = ds
  enter_unchanged : ∀ (u : Translator) (d : Definition) (e : Diagnostic), u.definitions = ds →
    ds.enter d = .error e → (Step.enterDefinition d).on u = (.error (.rejected e), u)
  leave_unchanged : ∀ (u : Translator) (e : Diagnostic), u.definitions = ds →
    ds.leave = .error e → Step.leaveDefinition.on u = (.error (.rejected e), u)

/-- The registry is lawful behind every sequence of calls, whether they are refused or not. -/
theorem registry_laws (calls : List Call) : Lawful (run {} calls) (opened {} calls) := by
  have h : Registered (run {} calls) (opened {} calls) := registered_empty.run calls
  generalize run {} calls = ds, opened {} calls = begun at h ⊢
  have hname (name : Text) : name ∈ ds.all.map (·.name) ↔ ∃ b ∈ begun, b.name = name := by
    rw [h.names_eq, List.mem_map]
  constructor
  case order => exact h.order
  case distinct => exact h.names_eq ▸ h.distinct
  case opens => exact h.opens
  case find_iff => exact fun name d => h.find_eq_ok_iff
  case unknown =>
    intro name hunknown
    apply find_of_unknown
    intro d hd hsame
    obtain ⟨b, hb, hb'⟩ := (hname name).mp (List.mem_map.mpr ⟨d, hd, hsame⟩)
    exact hunknown b hb hb'
  case entry =>
    intro d hd
    have hentry : d.entry = .after d.skip.serial :=
      h.entries d.reopened (h.order ▸ List.mem_map_of_mem hd)
    rw [hentry]
    exact ⟨rfl, rfl⟩
  case enter_refused =>
    intro name site skip e
    rw [on_eq_enter, ← hname]
    split
    · next htaken => simp [htaken, eq_comm]
    · next hfree => simp [hfree]
  case leave_refused =>
    intro e
    rw [← h.stack_eq_nil_iff, Call.on]
    obtain ⟨hstack, hleave⟩ | ⟨position, rest, d, hstack, hd, hleave⟩ := h.leave_cases
    · rw [hleave]
      simp [hstack, eq_comm]
    · rw [hleave]
      simp [hstack]
  case leave_closes =>
    intro d ds' hon
    rw [Call.on] at hon
    obtain ⟨hstack, hleave⟩ | ⟨position, rest, e, hstack, he, hleave⟩ := h.leave_cases
    · rw [hleave] at hon
      cases hon
    · rw [hleave] at hon
      cases hon
      exact ⟨rfl, h.filter_leave hstack he⟩
  case unchanged => exact fun c e => on_of_error
  case enter_unchanged =>
    rintro u d e rfl hrefused
    exact on_enterDefinition_of_error hrefused
  case leave_unchanged =>
    rintro u e rfl hrefused
    exact on_leaveDefinition_of_error hrefused

-- a name is taken also after its definition was closed, and nothing is left for a third ENDDEF
example :
    let skip (serial : Nat) : Instr :=
      { serial, opcode := 0, args := ⟨.literal 0, .literal 0, .literal 0⟩ }
    (run {} [.enter "f" 0 (skip 0), .enter "g" 1 (skip 1), .leave, .enter "g" 2 (skip 2), .leave,
        .leave, .enter "h" 3 (skip 3)]).all.map (fun d => (d.name, d.site, d.closed)) =
      [(("f" : Text), 0, true), (("g" : Text), 1, true), (("h" : Text), 3, false)] := by cbv

end Definitions

end AccuAsm
