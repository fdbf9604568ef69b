import AccuAsm.Proofs.Enclosure

/-!
# The tree of scopes

Every definition opens one scope, inside the scope of the definition around it.  So the
table of scopes and the list of definitions go side by side: behind the outermost scope,
the scopes stand in the order of the DEFs.

The name of a scope is the name of the scope around it, a dot, and the name of the
definition.  DEF asks whether a scope has that name already.  None ever has, because
definitions have different names and no name has a dot in it.

There are three groups.

* Names.  `Name.dot_notMem_of_check` says that names have no dot.
* The tree.  `Enclosed` says that the open definitions lie inside each other.  `Declared`
  is what a DEF leaves behind, and `InStep` the invariant.  `InStep.feed` is the step lemma
  and `inStep_feedEach` the run lemma.
* Results.  `InStep.eq_of_name_eq` says that a scope is known by its name, and
  `InStep.not_reopens` that no DEF is refused because of a scope.
-/

namespace AccuAsm

/-! ## Names -/

namespace Name

theorem isPart_of_mem_identifier {name : Text} (h : isIdentifier name = true) {byte : UInt8}
    (hbyte : byte ∈ name) : isPart byte = true := by
  cases name with
  | nil => cases hbyte
  | cons first rest =>
    obtain ⟨hfirst, hrest⟩ := Bool.and_eq_true_iff.mp h
    rcases List.mem_cons.mp hbyte with rfl | hbyte
    · rw [isPart, hfirst, Bool.true_or]
    · exact List.all_eq_true.mp hrest byte hbyte

/-- A line end behind the name is the one byte that the rule for names does not look at. -/
theorem mem_body_of_mem {name : Text} {byte : UInt8} (h : byte ∈ name)
    (hother : byte ≠ Text.newline) : byte ∈ body name := by
  unfold body
  split
  · next hlast =>
    rw [← List.dropLast_append_getLast? _ hlast] at h
    exact (List.mem_append.mp h).resolve_right fun hmem => hother (List.mem_singleton.mp hmem)
  · exact h

theorem dot_notMem_of_check {comparisons : List Text} {name : Text}
    (h : check comparisons name = .ok ()) : ascii '.' ∉ name := by
  intro hdot
  have hidentifier : isIdentifier (body name) = true := by
    unfold check isAllowed at h
    split at h
    · next hallowed =>
      rw [Bool.and_eq_true, Bool.and_eq_true] at hallowed
      exact hallowed.1.1
    · cases h
  have hpart := isPart_of_mem_identifier hidentifier (mem_body_of_mem hdot (by decide))
  exact absurd hpart (by decide)

end Name

namespace ScopeTable

theorem childName_eq (outer name : Text) :
    childName (some outer) name = outer ++ ascii '.' :: name :=
  List.append_assoc outer [ascii '.'] name

/-- The name of a definition is what stands behind the last dot of the name of its scope. -/
theorem takeWhile_reverse_childName (outer : Text) {name : Text} (h : ascii '.' ∉ name) :
    (childName (some outer) name).reverse.takeWhile (· ≠ ascii '.') = name.reverse := by
  rw [childName_eq, List.reverse_append, List.reverse_cons, List.append_assoc,
    List.takeWhile_append_of_pos]
  · simp
  · intro byte hbyte
    have hother : byte ≠ ascii '.' := by
      rintro rfl
      exact h (List.mem_reverse.mp hbyte)
    exact decide_eq_true hother

theorem eq_of_childName_eq {outer outer' name name' : Text} (hname : ascii '.' ∉ name)
    (hname' : ascii '.' ∉ name')
    (h : childName (some outer) name = childName (some outer') name') : name = name' := by
  apply List.reverse_injective
  rw [← takeWhile_reverse_childName outer hname, h, takeWhile_reverse_childName outer' hname']

theorem childName_ne_globalName (outer name : Text) :
    childName (some outer) name ≠ globalName := by
  intro h
  have hdot : ascii '.' ∈ globalName := by
    rw [← h, childName_eq]
    simp
  exact absurd hdot (by decide)

end ScopeTable

/-! ## The tree -/

namespace Translator

variable {t t' : Translator} {line : Line} {emitted : List Instr} {history : List Transition}

/-- The scope of the innermost open definition, or the outermost scope if none is open. -/
def innermostScope (t : Translator) : Nat :=
  (t.definitions.current?.map (·.scope)).getD ScopeTable.root

/-- The scope of the innermost one of some open definitions.  Scopes stand in the order of the
definitions, behind the outermost one. -/
def scopeOf : List Nat → Nat
  | [] => ScopeTable.root
  | position :: _ => position + 1

/-- The open definitions lie inside each other, and so do their scopes. -/
inductive Enclosed (scopes : Array Scope) : List Nat → Prop where
  | nil : Enclosed scopes []
  | cons {position : Nat} {rest : List Nat} {s : Scope} (hs : scopes[position + 1]? = some s)
      (hparent : s.parent = some (scopeOf rest)) (hbelow : ∀ other ∈ rest, other < position)
      (hrest : Enclosed scopes rest) : Enclosed scopes (position :: rest)

section Enclosed

variable {scopes scopes' : Array Scope} {stack : List Nat}

theorem Enclosed.lt_size (h : Enclosed scopes stack) {position : Nat} (hmem : position ∈ stack) :
    position + 1 < scopes.size := by
  induction h with
  | nil => cases hmem
  | cons hs _ _ _ ih =>
    rcases List.mem_cons.mp hmem with rfl | hmem
    · exact (Array.getElem?_eq_some_iff.mp hs).1
    · exact ih hmem

theorem Enclosed.scopeOf_lt (h : Enclosed scopes stack) (hroot : 0 < scopes.size) :
    scopeOf stack < scopes.size := by
  cases h with
  | nil => exact hroot
  | cons hs => exact (Array.getElem?_eq_some_iff.mp hs).1

/-- The innermost definition is the one that was opened last. -/
theorem Enclosed.le_scopeOf (h : Enclosed scopes stack) {position : Nat} (hmem : position ∈ stack) :
    position + 1 ≤ scopeOf stack := by
  cases h with
  | nil => cases hmem
  | cons _ _ hbelow =>
    rcases List.mem_cons.mp hmem with rfl | hmem
    · exact Nat.le_refl _
    · have := hbelow position hmem
      simp only [scopeOf]
      omega

theorem Enclosed.change (h : Enclosed scopes stack)
    (hscopes : ∀ (i : Nat) (s : Scope), scopes[i]? = some s →
      ∃ s', scopes'[i]? = some s' ∧ s'.name = s.name ∧ s'.parent = s.parent) :
    Enclosed scopes' stack := by
  induction h with
  | nil => exact .nil
  | cons hs hparent hbelow _ ih =>
    obtain ⟨s', hs', _, hsame⟩ := hscopes _ _ hs
    exact .cons hs' (hsame.trans hparent) hbelow ih

end Enclosed

/-- The DEFs of a run that were accepted. -/
def declarations (history : List Transition) : List Transition :=
  history.filter fun s => s.before.set.statement? s.line = some .define

theorem declarations_concat (history : List Transition) (s : Transition) :
    declarations (history ++ [s]) = declarations history ++
      if s.before.set.statement? s.line = some .define then [s] else [] := by
  simp [declarations, List.filter_append, List.filter_cons]

/-- What the DEF with a number has left behind: a definition and a scope.  The scope lies in that of
the definition that was the innermost open one. -/
structure Declared (t : Translator) (s : Transition) (k : Nat) (d : Definition) (body : Scope) :
    Prop where
  record : t.definitions.records[k]? = some d
  /-- The definition has the name from the line. -/
  operand : s.line.fields[1]? = some d.name
  dotless : ascii '.' ∉ d.name
  scope : d.scope = k + 1
  found : t.scopes.scopes[k + 1]? = some body
  parent : body.parent = some s.before.innermostScope
  parent_le : s.before.innermostScope ≤ k
  name : body.name = t.scopes.nameOf s.before.innermostScope ++ "." ++ d.name

/-- Scopes and definitions are in step. -/
structure InStep (t : Translator) (history : List Transition) : Prop where
  records : t.definitions.records.size = (declarations history).length
  scopes : t.scopes.size = (declarations history).length + 1
  root : ∃ s, t.scopes.scopes[ScopeTable.root]? = some s ∧ s.name = ScopeTable.globalName ∧
    s.parent = none
  declared : ∀ (k : Nat) (s : Transition), (declarations history)[k]? = some s →
    ∃ d body, Declared t s k d body
  enclosed : Enclosed t.scopes.scopes t.definitions.stack
  current : t.scope = scopeOf t.definitions.stack

theorem inStep_new (config : Config) : InStep (new config) [] := by
  have hscopes := foldl_declare_root (registerNames config.set.registers) .empty
  have hscopes : ∃ bindings, (new config).scopes = onlyRoot bindings := ⟨_, hscopes⟩
  obtain ⟨bindings, hscopes⟩ := hscopes
  constructor
  case records => rfl
  case scopes =>
    rw [hscopes]
    rfl
  case root =>
    rw [hscopes]
    exact ⟨_, rfl, rfl, rfl⟩
  case declared => simp [declarations]
  case enclosed => exact .nil
  case current =>
    rw [scope, hscopes]
    rfl

theorem nameOf_of_feed (hfeed : t.feed line = (.ok emitted, t')) {i : Nat}
    (hi : i < t.scopes.size) : t'.scopes.nameOf i = t.scopes.nameOf i := by
  have hs : t.scopes.scopes[i]? = some t.scopes.scopes[i] := Array.getElem?_eq_getElem hi
  obtain ⟨s', hs', hname, _⟩ := heading_of_feed hfeed hs
  rw [ScopeTable.nameOf, ScopeTable.nameOf, hs, hs', Option.map_some, Option.map_some, hname]

/-- Later lines leave alone what a DEF has left behind. -/
theorem Declared.feed {s : Transition} {k : Nat} {d : Definition} {body : Scope}
    (h : Declared t s k d body) (hfeed : t.feed line = (.ok emitted, t')) :
    ∃ d' body', Declared t' s k d' body' := by
  obtain ⟨d', hd', hname, hscope⟩ := record_of_feed hfeed h.record
  obtain ⟨body', hbody', hname', hparent⟩ := heading_of_feed hfeed h.found
  have hin : s.before.innermostScope < t.scopes.size := by
    have := (Array.getElem?_eq_some_iff.mp h.found).1
    have := h.parent_le
    show _ < t.scopes.scopes.size
    omega
  exact ⟨d', body',
    { record := hd'
      operand := hname ▸ h.operand
      dotless := hname ▸ h.dotless
      scope := hscope.trans h.scope
      found := hbody'
      parent := hparent.trans h.parent
      parent_le := h.parent_le
      name := by rw [hname', h.name, hname, nameOf_of_feed hfeed hin] }⟩

namespace InStep

/-- Every definition has been declared. -/
theorem exists_declared (h : InStep t history) {k : Nat} {d : Definition}
    (hd : t.definitions.records[k]? = some d) :
    ∃ s body, (declarations history)[k]? = some s ∧ Declared t s k d body := by
  have hk := (Array.getElem?_eq_some_iff.mp hd).1
  rw [h.records] at hk
  obtain ⟨e, body, hdeclared⟩ := h.declared k _ (List.getElem?_eq_getElem hk)
  obtain rfl : d = e := Option.some.inj (hd.symm.trans hdeclared.record)
  exact ⟨_, body, List.getElem?_eq_getElem hk, hdeclared⟩

theorem size_eq (h : InStep t history) : t.scopes.size = t.definitions.records.size + 1 := by
  rw [h.scopes, h.records]

/-- The current scope is that of the innermost open definition. -/
theorem current_eq (h : InStep t history) : t.scope = t.innermostScope := by
  rw [h.current, innermostScope, Definitions.current?]
  have henclosed := h.enclosed
  cases hstack : t.definitions.stack with
  | nil => rfl
  | cons position rest =>
    rw [hstack] at henclosed
    have hposition : position < t.definitions.records.size := by
      have hlt : position + 1 < t.scopes.size := henclosed.lt_size List.mem_cons_self
      rw [h.size_eq] at hlt
      omega
    obtain ⟨_, _, _, hdeclared⟩ := h.exists_declared (Array.getElem?_eq_getElem hposition)
    show position + 1 = (t.definitions.records[position]?.map (·.scope)).getD _
    rw [Array.getElem?_eq_getElem hposition]
    exact hdeclared.scope.symm

theorem current_lt (h : InStep t history) : t.scope < t.scopes.size := by
  rw [h.current]
  apply h.enclosed.scopeOf_lt
  show 0 < t.scopes.size
  rw [h.scopes]
  omega

/-- A line that opens no definition. -/
theorem keep (h : InStep t history) (hfeed : t.feed line = (.ok emitted, t'))
    (hk : t.set.statement? line ≠ some .define)
    (hrecords : t'.definitions.records.size = t.definitions.records.size)
    (hscopes : t'.scopes.size = t.scopes.size)
    (henclosed : Enclosed t.scopes.scopes t'.definitions.stack)
    (hcurrent : t'.scope = scopeOf t'.definitions.stack) :
    InStep t' (history ++ [⟨t, line, emitted, t'⟩]) := by
  have hsame : declarations (history ++ [⟨t, line, emitted, t'⟩]) = declarations history := by
    rw [declarations_concat, if_neg hk, List.append_nil]
  constructor
  case records => rw [hrecords, h.records, hsame]
  case scopes => rw [hscopes, h.scopes, hsame]
  case root =>
    obtain ⟨s, hs, hname, hparent⟩ := h.root
    obtain ⟨s', hs', hname', hparent'⟩ := heading_of_feed hfeed hs
    exact ⟨s', hs', hname'.trans hname, hparent'.trans hparent⟩
  case declared =>
    intro k s hs
    rw [hsame] at hs
    obtain ⟨d, body, hdeclared⟩ := h.declared k s hs
    exact hdeclared.feed hfeed
  case enclosed => exact henclosed.change fun i s hs => heading_of_feed hfeed hs
  case current => exact hcurrent

/-- What a DEF leaves behind at once. -/
theorem declared_defined (h : InStep t history) {keyword name : Text} {rest : List Text}
    (hfeed : t.feed line = (.ok emitted, t.defined line name))
    (hfields : line.fields = keyword :: name :: rest) (hname : t.checkName name = .ok ()) :
    Declared (t.defined line name) ⟨t, line, emitted, t.defined line name⟩
      t.definitions.records.size
      (t.newDefinition line.number name (t.skip line.number ("skip DEF " ++ name)))
      (.fresh (t.bodyName name) (some t.scope)) := by
  have hsize := h.size_eq
  have hcurrent := h.current_eq
  have hin := h.current_lt
  rw [hcurrent] at hin
  exact
    { record := Array.getElem?_push_size
      operand := by
        rw [hfields]
        rfl
      dotless := Name.dot_notMem_of_check hname
      scope := hsize
      found := by
        rw [← hsize]
        exact Array.getElem?_push_size
      parent := congrArg some hcurrent
      parent_le := by
        show t.innermostScope ≤ _
        omega
      name := by
        show t.scopes.nameOf t.scope ++ "." ++ name = _
        rw [hcurrent, nameOf_of_feed hfeed hin]
        rfl }

/-- DEF adds a definition and its scope. -/
theorem define (h : InStep t history) {keyword name : Text} {rest : List Text}
    (hfeed : t.feed line = (.ok emitted, t.defined line name))
    (hk : t.set.statement? line = some .define) (hfields : line.fields = keyword :: name :: rest)
    (hname : t.checkName name = .ok ()) :
    InStep (t.defined line name) (history ++ [⟨t, line, emitted, t.defined line name⟩]) := by
  have hconcat : declarations (history ++ [⟨t, line, emitted, t.defined line name⟩]) =
      declarations history ++ [⟨t, line, emitted, t.defined line name⟩] := by
    rw [declarations_concat, if_pos hk]
  have hsize := h.size_eq
  constructor
  case records =>
    rw [hconcat, List.length_append, ← h.records]
    exact Array.size_push _
  case scopes =>
    rw [hconcat, List.length_append, List.length_singleton, ← h.scopes]
    exact Array.size_push _
  case root =>
    obtain ⟨s, hs, hname, hparent⟩ := h.root
    obtain ⟨s', hs', hname', hparent'⟩ := heading_of_feed hfeed hs
    exact ⟨s', hs', hname'.trans hname, hparent'.trans hparent⟩
  case declared =>
    intro k s hs
    rw [hconcat, List.getElem?_append] at hs
    split at hs
    · obtain ⟨d, body, hdeclared⟩ := h.declared k s hs
      exact hdeclared.feed hfeed
    · next hlast =>
      rw [List.getElem?_singleton, Option.ite_none_right_eq_some, Option.some.injEq] at hs
      obtain ⟨hzero, rfl⟩ := hs
      have hk : k = t.definitions.records.size := by
        rw [h.records]
        omega
      exact hk ▸ ⟨_, _, h.declared_defined hfeed hfields hname⟩
  case enclosed =>
    refine .cons (s := .fresh (t.bodyName name) (some t.scope)) ?_ (congrArg some h.current) ?_ ?_
    · rw [← hsize]
      exact Array.getElem?_push_size
    · intro other hother
      have hlt : other + 1 < t.scopes.size := h.enclosed.lt_size hother
      omega
    · exact h.enclosed.change fun i s hs => heading_of_feed hfeed hs
  case current => exact hsize

/-- What one accepted line does to scopes and definitions. -/
theorem feed (h : InStep t history) (hfeed : t.feed line = (.ok emitted, t')) :
    InStep t' (history ++ [⟨t, line, emitted, t'⟩]) := by
  obtain ⟨ops, next, heffect, rfl⟩ := effect_of_feed hfeed
  cases heffect with
  | names change memory hk =>
    refine h.keep hfeed (fun hdefine => ?_) rfl (Array.size_modify ..) h.enclosed h.current
    exact absurd (hk _ hdefine) (by decide)
  | condition hk | endCondition hk =>
    exact h.keep hfeed (by rw [hk]; decide) rfl rfl h.enclosed h.current
  | define hk hfields hname =>
    rw [emit_nil] at hfeed ⊢
    exact h.define hfeed hk hfields hname
  | @endDefine d position rest program hk hstack hrecord =>
    have henclosed := h.enclosed
    rw [hstack] at henclosed
    cases henclosed with
    | @cons _ _ body hbody hparent _ hrest =>
      refine h.keep hfeed (by rw [hk]; decide) (Array.size_modify ..) rfl hrest ?_
      -- the scope around the body is that of the definition around this one
      obtain ⟨_, _, _, hdeclared⟩ := h.exists_declared hrecord
      show (t.scopes.scopes[d.scope]? >>= (·.parent)).getD _ = scopeOf rest
      rw [hdeclared.scope, hbody]
      show body.parent.getD _ = _
      rw [hparent]
      rfl

end InStep

/-- Scopes and definitions are in step behind every run. -/
theorem inStep_feedEach (config : Config) (lines : List Line) :
    InStep ((new config).feedEach lines) ((new config).transitions lines) := by
  apply run_induction
  case hnew => exact inStep_new config
  case hstep =>
    intro t t' line emitted history _ _ h hfeed
    exact h.feed hfeed

/-! ## Results -/

namespace InStep

/-- Every scope but the outermost one belongs to a definition. -/
theorem exists_body (h : InStep t history) {k : Nat} {body : Scope}
    (hbody : t.scopes.scopes[k + 1]? = some body) :
    ∃ s d, (declarations history)[k]? = some s ∧ Declared t s k d body := by
  have hk : k + 1 < t.scopes.size := (Array.getElem?_eq_some_iff.mp hbody).1
  rw [h.size_eq] at hk
  obtain ⟨s, body', hs, hdeclared⟩ :=
    h.exists_declared (Array.getElem?_eq_getElem (show k < t.definitions.records.size by omega))
  obtain rfl : body = body' := Option.some.inj (hbody.symm.trans hdeclared.found)
  exact ⟨s, _, hs, hdeclared⟩

/-- A scope with the name of a definition's scope belongs to a definition of that name. -/
theorem exists_record_of_name (h : InStep t history) {i : Nat} {s : Scope}
    (hs : t.scopes.scopes[i]? = some s) {outer name : Text} (hdot : ascii '.' ∉ name)
    (hname : s.name = ScopeTable.childName (some outer) name) :
    ∃ k d, i = k + 1 ∧ t.definitions.records[k]? = some d ∧ d.name = name := by
  cases i with
  | zero =>
    obtain ⟨root, hroot, hglobal, _⟩ := h.root
    obtain rfl : s = root := Option.some.inj (hs.symm.trans hroot)
    exact absurd (hname.symm.trans hglobal) (ScopeTable.childName_ne_globalName outer name)
  | succ k =>
    obtain ⟨_, d, _, hdeclared⟩ := h.exists_body hs
    refine ⟨k, d, rfl, hdeclared.record, ?_⟩
    exact ScopeTable.eq_of_childName_eq hdeclared.dotless hdot (hdeclared.name.symm.trans hname)

/-- A scope is known by its name. -/
theorem eq_of_name_eq (h : InStep t history) (hdistinct : DistinctNames t) {i j : Nat}
    {s s' : Scope} (hs : t.scopes.scopes[i]? = some s) (hs' : t.scopes.scopes[j]? = some s')
    (hname : s.name = s'.name) : i = j := by
  cases j with
  | zero =>
    obtain ⟨root, hroot, hglobal, _⟩ := h.root
    obtain rfl : s' = root := Option.some.inj (hs'.symm.trans hroot)
    cases i with
    | zero => rfl
    | succ k =>
      obtain ⟨_, d, _, hdeclared⟩ := h.exists_body hs
      have := hdeclared.name.symm.trans (hname.trans hglobal)
      exact absurd this (ScopeTable.childName_ne_globalName _ d.name)
  | succ k =>
    obtain ⟨_, d, _, hdeclared⟩ := h.exists_body hs'
    obtain ⟨l, e, rfl, he, hsame⟩ :=
      h.exists_record_of_name hs hdeclared.dotless (hname.trans hdeclared.name)
    rw [hdistinct l k e d he hdeclared.record hsame]

theorem nodup_names (h : InStep t history) (hdistinct : DistinctNames t) :
    (t.scopes.scopes.toList.map (·.name)).Nodup := by
  rw [List.nodup_iff_getElem?_ne_getElem?]
  intro i j hij hj heq
  rw [List.length_map, Array.length_toList] at hj
  rw [List.getElem?_map, List.getElem?_map, Array.getElem?_toList, Array.getElem?_toList,
    Array.getElem?_eq_getElem (Nat.lt_trans hij hj), Array.getElem?_eq_getElem hj] at heq
  have := h.eq_of_name_eq hdistinct (Array.getElem?_eq_getElem (Nat.lt_trans hij hj))
    (Array.getElem?_eq_getElem hj) (Option.some.inj heq)
  omega

/-- No scope has the name that DEF is about to use. -/
theorem not_reopens (h : InStep t history) (line : Line) : ¬Reopens t line := by
  rintro ⟨keyword, name, rest, _, hname, hfresh, hfound⟩
  obtain ⟨i, hi⟩ := Option.ne_none_iff_exists'.mp hfound
  rw [ScopeTable.find?_eq, Array.findIdx?_eq_some_iff_getElem] at hi
  obtain ⟨hlt, hsame, _⟩ := hi
  obtain ⟨k, d, _, hd, hsame⟩ := h.exists_record_of_name (Array.getElem?_eq_getElem hlt)
    (Name.dot_notMem_of_check hname) (eq_of_beq hsame)
  have hknown := Definitions.contains_iff.mpr ⟨d, Array.mem_of_getElem? hd, hsame⟩
  rw [hfresh] at hknown
  cases hknown

end InStep

/-- Scopes and definitions stay in step.  Behind any lines the table of scopes is the outermost
scope and, behind it, one scope for each DEF that was accepted, in their order.  Each of these has
the name of the scope that it lies in, a dot, and the name of its definition, and it lies in the
scope of the definition that was the innermost open one.  No two scopes have one name, the current
scope is that of the innermost open definition, and no line is ever refused because of a scope. -/
theorem scopes_match_definitions (config : Config) (lines : List Line) :
    let t := (new config).feedEach lines
    let declared := declarations ((new config).transitions lines)
    t.definitions.records.size = declared.length ∧ t.scopes.size = declared.length + 1 ∧
    (∃ s, t.scopes.scopes[ScopeTable.root]? = some s ∧ s.name = ScopeTable.globalName ∧
      s.parent = none) ∧
    (∀ (k : Nat) (s : Transition), declared[k]? = some s → ∃ d body, Declared t s k d body) ∧
    (t.scopes.scopes.toList.map (·.name)).Nodup ∧ t.scope = t.innermostScope ∧
    ∀ line : Line, ¬Refuses t line .duplicateScope := by
  intro t declared
  have h : InStep t ((new config).transitions lines) := inStep_feedEach config lines
  have hdistinct : DistinctNames t := (housed_and_distinct config lines).2
  have hseated : Seated t := (seated_new config).feedEach lines
  refine ⟨h.records, h.scopes, h.root, h.declared, h.nodup_names hdistinct, h.current_eq, ?_⟩
  intro line hrefuses
  exact h.not_reopens line (hseated.reopens_of_refuses hrefuses)

end Translator

end AccuAsm
