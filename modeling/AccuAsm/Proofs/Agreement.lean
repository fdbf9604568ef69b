import AccuAsm.Proofs.Reading

/-!
# The translator against the reading

A translator keeps its scopes in a table that only grows, with a link from each scope to
the one around it.  The reading keeps a stack of frames.  This module relates the two.

There are two groups.

* Frames.  `ScopeTable.frames` is the stack of frames that a table of scopes stands for,
  and `ScopeTable.Grows` what statements leave alone in a table.
* Agreement.  `Agrees` relates a translator to the names of the reading.
  `Agrees.read` says that an accepted plain line has a reading and emits its operations;
  `Agrees.define` and `Agrees.leave` are the two ends of a definition.
-/

namespace AccuAsm

/-! ## Frames -/

namespace ScopeTable

variable {t t' : ScopeTable} {scope : Nat}

theorem getElem?_push {i : Nat} (h : i < t.size) (s : Scope) :
    (t.scopes.push s)[i]? = t.scopes[i]? := by
  rw [Array.getElem?_push, if_neg]
  exact Nat.ne_of_lt h

/-- The bindings of a scope and of those around it, the nearest first. -/
def frames (t : ScopeTable) (scope : Nat) : List (Dictionary Value) :=
  (t.chain scope).filterMap fun s => t.scopes[s]?.map (·.bindings)

theorem frames_eq {s : Scope} (h : t.scopes[scope]? = some s) :
    t.frames scope = s.bindings ::
      match s.parent with
      | none => []
      | some outer => if outer < scope then t.frames outer else [] := by
  rw [frames, chain, h]
  simp only [List.filterMap_cons, h, Option.map_some]
  cases s.parent with
  | none => rfl
  | some outer =>
    dsimp only
    split <;> rfl

/-- A look-up through the scopes is a look-up through the frames. -/
theorem lookup_eq_findSome? (name : Text) :
    t.lookup scope name true = (t.frames scope).findSome? (·.find? name) := by
  rw [lookup, if_pos rfl, frames]
  induction t.chain scope with
  | nil => rfl
  | cons s rest ih =>
    rw [List.findSome?_cons, lookupIn, List.filterMap_cons, ih]
    cases t.scopes[s]? <;> rfl

/-- The frames of a scope depend on the scopes up to it alone. -/
theorem frames_congr (h : ∀ s ≤ scope, t'.scopes[s]? = t.scopes[s]?) :
    t'.frames scope = t.frames scope := by
  induction scope using Nat.strongRecOn with
  | ind scope ih =>
    have hhere := h scope (Nat.le_refl _)
    cases hs : t.scopes[scope]? with
    | none =>
      rw [frames, chain, hhere, hs, frames, chain, hs]
      rfl
    | some s =>
      rw [frames_eq (hhere.trans hs), frames_eq hs]
      cases s.parent with
      | none => rfl
      | some outer =>
        dsimp only
        split
        · next hlt => rw [ih outer hlt fun i hi => h i (by omega)]
        · rfl

theorem frames_modifyBindings (f : Dictionary Value → Dictionary Value) (h : scope < t.size) :
    (t.modifyBindings scope f).frames scope = (t.frames scope).modifyHead f := by
  have hs : t.scopes[scope]? = some t.scopes[scope] := Array.getElem?_eq_getElem h
  have hs' : (t.modifyBindings scope f).scopes[scope]? =
      some { t.scopes[scope] with bindings := f t.scopes[scope].bindings } := by
    simp [modifyBindings, Array.getElem?_modify, hs]
  rw [frames_eq hs', frames_eq hs, List.modifyHead_cons]
  congr 1
  cases t.scopes[scope].parent with
  | none => rfl
  | some outer =>
    dsimp only
    split
    · next hlt =>
      refine frames_congr fun i hi => ?_
      rw [modifyBindings, Array.getElem?_modify, if_neg (by omega)]
    · rfl

theorem frames_push {s : Scope} (hscope : scope < t.size) (hparent : s.parent = some scope)
    (hbindings : s.bindings = {}) (current : Nat) :
    ({ scopes := t.scopes.push s, current } : ScopeTable).frames t.size =
      .empty :: t.frames scope := by
  rw [frames_eq Array.getElem?_push_size, hparent, hbindings]
  simp only [hscope, if_true]
  congr 1
  exact frames_congr fun i hi => getElem?_push (by omega) s

/-- Statements work in the current scope and in scopes that they open.  All others stay, and so does
the way from a scope to the one around it. -/
structure Grows (t t' : ScopeTable) : Prop where
  /-- The current scope is the same. -/
  current : t'.current = t.current
  /-- Scopes around the current one have not changed. -/
  others : ∀ s, s < t.size → s ≠ t.current → t'.scopes[s]? = t.scopes[s]?
  /-- Every scope lies where it lay. -/
  parent : ∀ (s : Nat) (found : Scope), t.scopes[s]? = some found →
    ∃ found', t'.scopes[s]? = some found' ∧ found'.parent = found.parent

theorem Grows.refl (t : ScopeTable) : Grows t t where
  current := rfl
  others := fun _ _ _ => rfl
  parent := fun _ found h => ⟨found, h, rfl⟩

theorem Grows.size_le (h : Grows t t') : t.size ≤ t'.size := by
  refine Nat.le_of_not_lt fun hlt => ?_
  obtain ⟨found, hfound, _⟩ := h.parent t'.size _ (Array.getElem?_eq_getElem hlt)
  have := (Array.getElem?_eq_some_iff.mp hfound).1
  simp only [size] at this
  omega

theorem Grows.trans {t'' : ScopeTable} (h : Grows t t') (h' : Grows t' t'') : Grows t t'' where
  current := h'.current.trans h.current
  others := by
    intro s hs hne
    have := h.size_le
    rw [h'.others s (by omega) (h.current ▸ hne), h.others s hs hne]
  parent := by
    intro s found hfound
    obtain ⟨found', hfound', hparent⟩ := h.parent s found hfound
    obtain ⟨found'', hfound'', hparent'⟩ := h'.parent s found' hfound'
    exact ⟨found'', hfound'', hparent'.trans hparent⟩

theorem Grows.modifyBindings (t : ScopeTable) (f : Dictionary Value → Dictionary Value) :
    Grows t (t.modifyBindings t.current f) where
  current := rfl
  others := by
    intro s _ hne
    rw [ScopeTable.modifyBindings, Array.getElem?_modify, if_neg (fun h => hne h.symm)]
  parent := by
    intro s found hfound
    rw [ScopeTable.modifyBindings, Array.getElem?_modify, hfound]
    split
    · exact ⟨_, rfl, rfl⟩
    · exact ⟨found, rfl, rfl⟩

/-- Statements inside a scope that was opened for them leave the scopes in front of it alone. -/
theorem Grows.unchanged {s : Scope} (h : Grows { scopes := t.scopes.push s, current := t.size } t')
    (i : Nat) (hi : i < t.size) : t'.scopes[i]? = t.scopes[i]? := by
  have hsize : t.scopes.size = t.size := rfl
  refine (h.others i ?_ (Nat.ne_of_lt hi)).trans (getElem?_push hi s)
  simp only [size, Array.size_push]
  omega

theorem Grows.leave {s : Scope}
    (h : Grows { scopes := t.scopes.push s, current := t.size } t') :
    Grows t (t'.select t.current) where
  current := rfl
  others := fun i hi _ => h.unchanged i hi
  parent := by
    intro i found hfound
    have hi := (Array.getElem?_eq_some_iff.mp hfound).1
    exact ⟨found, (h.unchanged i hi).trans hfound, rfl⟩

end ScopeTable

namespace Definitions

variable {ds : Definitions} {name : Text}

theorem contains_iff : ds.contains name = true ↔ ∃ d, d ∈ ds.records ∧ d.name = name := by
  simp [contains, Array.any_eq_true', -Array.any_eq_true]

theorem find_ok {d : Definition} (h : ds.find name = .ok d) : d ∈ ds.records ∧ d.name = name := by
  rw [find] at h
  split at h
  · next found hfound =>
    have hfound' : found = d := Except.ok.inj h
    subst hfound'
    exact ⟨Array.mem_of_find?_eq_some hfound, by simpa using Array.find?_some hfound⟩
  · simp at h

theorem exists_find (h : ds.contains name = true) : ∃ d, ds.find name = .ok d := by
  obtain ⟨d, hd, hname⟩ := contains_iff.mp h
  rw [find]
  split
  · exact ⟨_, rfl⟩
  · next hnone =>
    have := Array.find?_eq_none.mp hnone d hd
    simp [hname] at this

end Definitions

/-- Where cells have been handed out from the lowest one up, the next one is the one behind them. -/
theorem Memory.next_eq {m : Memory} {n : Nat} (h : m.taken = (List.range n).reverse) :
    m.next = if n < capacity then .ok n else .error { complaint := .memoryFull capacity } := by
  have hused : m.used = n := by simp [used, h]
  unfold next lowestFree?
  by_cases hroom : n < capacity
  · have hfound : (List.range capacity).find? (fun index => !m.taken.contains index) = some n := by
      rw [List.find?_range_eq_some]
      refine ⟨by simp [h], List.mem_range.mpr hroom, fun index hindex => ?_⟩
      simpa [h] using hindex
    rw [if_neg (by omega), if_pos hroom, hfound]
  · rw [if_pos (by omega), if_neg hroom]

namespace Translator

variable {t t' : Translator} {names : Names} {line : Line} {ops : List Op}

/-! ## Agreement -/

/-- The names of a translator are those of a reading. -/
structure Agrees (t : Translator) (names : Names) : Prop where
  /-- The current scope exists. -/
  inside : t.scope < t.scopes.size
  /-- The scopes are the frames. -/
  frames : t.scopes.frames t.scope = names.frames
  /-- Cells have been handed out from the lowest one up. -/
  memory : t.memory.taken = (List.range names.cells).reverse
  /-- The definitions are the routines. -/
  routines : ∀ name, name ∈ names.routines ↔ t.definitions.contains name = true

theorem Agrees.lookup (h : Agrees t names) (name : Text) :
    names.lookup name = t.scopes.lookup t.scope name true := by
  rw [ScopeTable.lookup_eq_findSome?, h.frames, Names.lookup]

theorem Agrees.isSome_lookup (h : Agrees t names) (name : Text) :
    (names.lookup name).isSome = t.visible name := by
  rw [h.lookup]
  rfl

/-- An operand that the translator accepts has the same value in the reading. -/
theorem Agrees.resolve (h : Agrees t names) {token : Text} {value : Value}
    (hresolve : t.resolve token = .ok value) : names.resolve token = some value := by
  rw [Translator.resolve, ScopeTable.resolve] at hresolve
  rw [Names.resolve]
  cases hstrip : token.stripPrefix? "$" with
  | none =>
    simp only [hstrip] at hresolve ⊢
    rw [hresolve]
    rfl
  | some name =>
    simp only [hstrip] at hresolve ⊢
    rw [h.lookup]
    split at hresolve
    · next found hfound =>
      rw [hfound]
      simpa using hresolve
    · simp at hresolve

/-- A destination that the translator accepts is the same place in the reading. -/
theorem Agrees.destination (h : Agrees t names) {token : Text} {value : Value}
    (hdestination : t.destination token = .ok value) :
    ∃ hwritable, names.destination token = some ⟨value, hwritable⟩ := by
  obtain ⟨found, hresolve, hdestination⟩ := exists_of_bind_ok hdestination
  split at hdestination
  · next hwritable =>
    have hfound : found = value := Except.ok.inj hdestination
    subst hfound
    refine ⟨hwritable, ?_⟩
    rw [Names.destination, h.resolve hresolve, Option.bind_eq_bind, Option.bind_some,
      dif_pos hwritable]
  · simp [throw, throwThe, MonadExceptOf.throw] at hdestination

theorem Agrees.change (h : Agrees t names) (f : Dictionary Value → Dictionary Value) :
    Agrees { t with scopes := t.scopes.modifyBindings t.scope f } (names.change f) where
  inside := by
    have := h.inside
    simpa [ScopeTable.modifyBindings, ScopeTable.size, scope] using this
  frames := by
    rw [Names.change, ← h.frames]
    exact ScopeTable.frames_modifyBindings f h.inside
  memory := h.memory
  routines := h.routines

theorem Agrees.bind (h : Agrees t names) (name : Text) (value : Value) :
    Agrees (t.bind name value) (names.bind name value) := h.change _

theorem Agrees.unbind (h : Agrees t names) (dropped : List Text) :
    Agrees (dropped.foldl (·.unbind ·) t) (dropped.foldl (·.unbind ·) names) := by
  induction dropped generalizing t names with
  | nil => exact h
  | cons name rest ih => exact ih (h.change (·.erase name))

/-- The cell that the translator hands out is the next one. -/
theorem Agrees.next_eq (h : Agrees t names) {index : Nat} (hnext : t.memory.next = .ok index) :
    index = names.cells := by
  rw [Memory.next_eq h.memory] at hnext
  split at hnext
  · exact (Except.ok.inj hnext).symm
  · cases hnext

theorem Agrees.take (h : Agrees t names) :
    Agrees { t with memory := t.memory.take names.cells }
      { names with cells := names.cells + 1 } where
  inside := h.inside
  frames := h.frames
  memory := by
    rw [List.range_succ, List.reverse_append, ← h.memory]
    rfl
  routines := h.routines

theorem Agrees.assignee (h : Agrees t names) {token : Text} {place : Value}
    (hassignee : (assignee token).on t = (.ok place, t')) :
    ∃ hwritable names', names.assignee token = some (⟨place, hwritable⟩, names') ∧
      Agrees t' names' := by
  rw [Names.assignee]
  obtain ⟨hvisible, hdestination, rfl⟩ | ⟨name, index, hstrip, hhidden, _, hnext, rfl, rfl⟩ :=
    assignee_ok hassignee
  · obtain ⟨hwritable, hplace⟩ := h.destination hdestination
    refine ⟨hwritable, names, ?_, h⟩
    cases hstrip : token.stripPrefix? "$" with
    | none => simp [hplace]
    | some name => simp [hplace, h.isSome_lookup, hvisible name hstrip]
  · have hindex := h.next_eq hnext
    subst hindex
    refine ⟨rfl, _, ?_, (h.bind name _).take⟩
    simp only [hstrip, h.isSome_lookup, hhidden]
    rfl

theorem Agrees.operands3 (h : Agrees t names) {a b dest : Text} {left right place : Value}
    (hoperands : t.operands3 a b dest = .ok (left, right, place)) :
    ∃ hwritable, names.operands3 a b dest = some (left, right, ⟨place, hwritable⟩) := by
  obtain ⟨l, hleft, hoperands⟩ := exists_of_bind_ok hoperands
  obtain ⟨r, hright, hoperands⟩ := exists_of_bind_ok hoperands
  obtain ⟨p, hplace, hoperands⟩ := exists_of_bind_ok hoperands
  simp only [Pure.pure, Except.pure, Except.ok.injEq, Prod.mk.injEq] at hoperands
  obtain ⟨rfl, rfl, rfl⟩ := hoperands
  obtain ⟨hwritable, hdestination⟩ := h.destination hplace
  refine ⟨hwritable, ?_⟩
  simp [Names.operands3, h.resolve hleft, h.resolve hright, hdestination]

/-- Where a call of a definition enters. -/
def entryOf (t : Translator) (name : Text) : Operand :=
  match t.definitions.find name with
  | .ok d => .target d.entry
  | .error _ => .pending

/-- A statement has a reading, and emits the operations of its action. -/
def Reads (t : Translator) (reading : Option (Action × Names)) (ops : List Op)
    (t' : Translator) : Prop :=
  ∃ action names', reading = some (action, names') ∧ Agrees t' names' ∧
    ops = action.ops t.set (.target (.after (t.nextSerial + 1))) t.entryOf

theorem Agrees.arithmetic (h : Agrees t names) {keyword : Text} {operation : Operation}
    {operands : List Text}
    (hrun : t.arithmetic keyword (t.set.operationCode operation) operands = .ok ops) :
    Reads t (names.arithmetic operation false operands) ops t := by
  match operands with
  | [] | [_] | [_, _] => simp [Translator.arithmetic] at hrun
  | a :: b :: dest :: rest =>
    obtain ⟨⟨left, right, place⟩, hoperands, hops⟩ := exists_of_bind_ok hrun
    obtain ⟨hwritable, hread⟩ := h.operands3 hoperands
    refine ⟨.arithmetic operation false left right ⟨place, hwritable⟩, names, ?_, h, ?_⟩
    · simp [Names.arithmetic, hread]
    · exact (Except.ok.inj hops).symm

theorem Agrees.wideArithmetic (h : Agrees t names) {keyword : Text} {operation : Operation}
    {operands : List Text}
    (hrun : t.wideArithmetic keyword (t.set.operationCode operation) operands = .ok ops) :
    Reads t (names.wideArithmetic operation operands) ops t := by
  match operands with
  | [] | [_] | [_, _] | [_, _, _] => simp [Translator.wideArithmetic] at hrun
  | selector :: a :: b :: dest :: rest =>
    obtain ⟨high, hhigh, hrun⟩ := exists_of_bind_ok hrun
    obtain ⟨⟨left, right, place⟩, hoperands, hops⟩ := exists_of_bind_ok hrun
    obtain ⟨hwritable, hread⟩ := h.operands3 hoperands
    refine ⟨.arithmetic operation high left right ⟨place, hwritable⟩, names, ?_, h, ?_⟩
    · simp [Names.wideArithmetic, Names.arithmetic, hhigh, hread, Except.toOption]
    · exact (Except.ok.inj hops).symm

theorem Agrees.comparison (h : Agrees t names) {keyword : Text} {code : Int64}
    {operands : List Text} (hrun : t.comparison keyword code operands = .ok ops) :
    Reads t (names.comparison code operands) ops t := by
  match operands with
  | [] | [_] | [_, _] => simp [Translator.comparison] at hrun
  | a :: b :: dest :: rest =>
    obtain ⟨⟨left, right, place⟩, hoperands, hops⟩ := exists_of_bind_ok hrun
    obtain ⟨hwritable, hread⟩ := h.operands3 hoperands
    refine ⟨.comparison code left right ⟨place, hwritable⟩, names, ?_, h, ?_⟩
    · simp [Names.comparison, hread]
    · exact (Except.ok.inj hops).symm

theorem Agrees.call (h : Agrees t names) {keyword : Text} {operands : List Text}
    (hrun : t.call keyword operands = .ok ops) :
    Reads t (names.perform operands .call) ops t := by
  match operands with
  | [] => simp [Translator.call] at hrun
  | name :: rest =>
    obtain ⟨d, hfind, hops⟩ := exists_of_bind_ok hrun
    have hknown : name ∈ names.routines :=
      (h.routines name).mpr (Definitions.contains_iff.mpr ⟨d, Definitions.find_ok hfind⟩)
    refine ⟨.call name, names, by simp [Names.perform, hknown], h, ?_⟩
    simp only [Action.ops, entryOf, hfind]
    exact (Except.ok.inj hops).symm

theorem stripPrefix?_of_localName {token name : Text} (h : t.localName token = .ok name) :
    token.stripPrefix? "$" = some name := by
  rw [localName] at h
  split at h
  · simp at h
  · next found hfound =>
    split at h
    · rw [hfound, Except.ok.inj h]
    · simp at h

theorem mapM_localName_ok {operands dropped : List Text}
    (h : operands.mapM t.localName = .ok dropped) :
    operands.mapM (Text.stripPrefix? · "$") = some dropped := by
  have hall := forall₂_of_mapM_ok h
  clear h
  induction hall with
  | nil => rfl
  | cons hname _ ih => simp [List.mapM_cons, stripPrefix?_of_localName hname, ih]

/-- An accepted statement that neither opens nor closes a block. -/
theorem Agrees.perform (h : Agrees t names) {keyword : Text} {operands : List Text} {k : Keyword}
    (hblock : k.isBlock = false)
    (hrun : (perform line keyword operands k).on t = (.ok ops, t')) :
    Reads t (names.perform operands k) ops t' := by
  cases k with
  | define | endDefine | condition | endCondition => simp [Keyword.isBlock] at hblock
  | constant =>
    obtain ⟨name, literal, rest, n, rfl, _, hn, _, rfl, rfl⟩ := constant_ok hrun
    exact ⟨.nothing, _, by simp [Names.perform, hn, Except.toOption], h.bind name _, rfl⟩
  | assign =>
    obtain ⟨dest, source, rest, value, place, rfl, hvalue, hplace, rfl⟩ := assign_ok hrun
    obtain ⟨hwritable, names', hread, hagrees⟩ := h.assignee hplace
    exact ⟨.assign ⟨place, hwritable⟩ value, names',
      by simp [Names.perform, h.resolve hvalue, hread], hagrees, rfl⟩
  | setAddress =>
    obtain ⟨dest, source, rest, name, value, rfl, hstrip, hvalue, _, _, rfl, rfl⟩ :=
      setAddress_ok hrun
    exact ⟨.nothing, _, by simp [Names.perform, hstrip, h.resolve hvalue], h.bind name value, rfl⟩
  | unset =>
    obtain ⟨dropped, hdropped, rfl, rfl⟩ := unset_ok hrun
    exact ⟨.nothing, _, by simp [Names.perform, mapM_localName_ok hdropped], h.unbind dropped, rfl⟩
  | add =>
    obtain ⟨hops, rfl⟩ := plain_ok hrun
    exact @Agrees.arithmetic _ _ _ h _ .add _ hops
  | subtract =>
    obtain ⟨hops, rfl⟩ := plain_ok hrun
    exact @Agrees.arithmetic _ _ _ h _ .subtract _ hops
  | multiply =>
    obtain ⟨hops, rfl⟩ := plain_ok hrun
    exact @Agrees.wideArithmetic _ _ _ h _ .multiply _ hops
  | divide =>
    obtain ⟨hops, rfl⟩ := plain_ok hrun
    exact @Agrees.wideArithmetic _ _ _ h _ .divide _ hops
  | call =>
    obtain ⟨hops, rfl⟩ := plain_ok hrun
    exact h.call hops

/-- An accepted plain line has a reading and emits the operations of its action. -/
theorem Agrees.read (h : Agrees t names) (hseparate : t.set.Separate) (hrole : line.role = .plain)
    (hrun : (process line).on t = (.ok ops, t')) : Reads t (names.read t.set line) ops t' := by
  rw [Names.read]
  cases hk : t.set.statement? line with
  | some k =>
    obtain ⟨keyword, operands, hfields, hcode, hkeyword, hprocess⟩ := on_process hk
    rw [hprocess] at hrun
    simp only [hfields, hcode, hkeyword]
    refine h.perform ?_ hrun
    rw [Line.role, ← hseparate.statement?_eq, hk] at hrole
    cases k <;> simp_all [Keyword.role, Keyword.isBlock]
  | none =>
    obtain ⟨keyword, operands, code, hfields, hcode, hprocess⟩ | ⟨hnothing, hprocess⟩ :=
      on_process_of_none hk
    · simp only [hfields, hcode]
      rw [hprocess] at hrun
      obtain ⟨hcompare, rfl⟩ := Step.check_ok hrun
      exact h.comparison hcompare
    · rw [hprocess] at hrun
      simp only [Prod.mk.injEq, Except.ok.injEq] at hrun
      obtain ⟨rfl, rfl⟩ := hrun
      refine ⟨.nothing, names, ?_, h, rfl⟩
      cases hfields : line.fields with
      | nil => rfl
      | cons keyword operands =>
        obtain ⟨hcode, hkeyword⟩ := hnothing keyword operands hfields
        simp only [hcode, hkeyword]

/-- The names inside a definition that has just been opened. -/
theorem Agrees.define (h : Agrees t names) (line : Line) (name : Text) :
    Agrees (t.defined line name) (names.enter name) where
  inside := by simp [defined, scope, ScopeTable.size]
  frames := by
    rw [Names.enter, ← h.frames]
    exact ScopeTable.frames_push h.inside rfl rfl _
  memory := h.memory
  routines := by
    intro other
    have hother := h.routines other
    rw [Definitions.contains_iff] at hother ⊢
    simp only [Names.enter, List.mem_cons, hother, defined, Array.mem_push]
    constructor
    · rintro (rfl | ⟨d, hd, hname⟩)
      · exact ⟨_, .inr rfl, rfl⟩
      · exact ⟨d, .inl hd, hname⟩
    · rintro ⟨d, hd | rfl, hname⟩
      · exact .inr ⟨d, hd, hname⟩
      · exact .inl hname.symm

/-- The scope around a definition, seen from the end of its body. -/
theorem outerScope_eq {d : Definition} {s : Scope} (hscope : d.scope = t.scopes.size)
    (hparent : s.parent = some t.scope)
    (hgrows : ScopeTable.Grows
      { scopes := t.scopes.scopes.push s, current := t.scopes.size } t'.scopes) :
    t'.outerScope d = t.scope := by
  obtain ⟨found, hfound, hsame⟩ := hgrows.parent t.scopes.size s Array.getElem?_push_size
  simp [outerScope, hscope, hfound, hsame, hparent]

/-- The names behind a definition: the frame of its body is gone, cells and definitions stay. -/
theorem Agrees.leave {inner : Names} {s : Scope} (h : Agrees t names) (h' : Agrees t' inner)
    (hgrows : ScopeTable.Grows
      { scopes := t.scopes.scopes.push s, current := t.scopes.size } t'.scopes)
    (d : Definition) {position : Nat} (hrecord : t'.definitions.records[position]? = some d)
    (houter : t'.outerScope d = t.scope) (rest : List Nat) (program : Program) :
    Agrees (t'.endedDefinition d position rest program) { inner with frames := names.frames } where
  inside := by
    have hinside := h.inside
    have := hgrows.leave.size_le
    simp only [endedDefinition, scope, ScopeTable.select, houter, ScopeTable.size] at *
    omega
  frames := by
    rw [← h.frames]
    show ScopeTable.frames (t'.scopes.select _) (t'.outerScope d) = _
    rw [houter]
    -- the frames of the outer scope lie in front of the scope of the body, which was pushed last
    exact ScopeTable.frames_congr fun i hi => hgrows.unchanged i (Nat.lt_of_le_of_lt hi h.inside)
  memory := h'.memory
  routines := by
    intro name
    rw [h'.routines, Definitions.contains_iff, Definitions.contains_iff]
    simp only [endedDefinition, Array.mem_iff_getElem?]
    constructor
    · rintro ⟨e, ⟨i, hi⟩, hname⟩
      obtain ⟨e', he', rfl⟩ := getElem?_modify_closed hrecord i e hi
      refine ⟨_, ⟨i, he'⟩, ?_⟩
      split <;> exact hname
    · rintro ⟨e, hi, hname⟩
      obtain ⟨e', he', rfl | rfl⟩ :=
        exists_of_mem_modify_closed hrecord (Array.mem_iff_getElem?.mpr hi)
      · exact ⟨e, Array.mem_iff_getElem?.mp he', hname⟩
      · exact ⟨e', Array.mem_iff_getElem?.mp he', hname⟩

/-- A table with the outermost scope alone. -/
def onlyRoot (bindings : Dictionary Value) : ScopeTable :=
  ScopeTable.initial.modifyBindings ScopeTable.root fun _ => bindings

theorem frames_onlyRoot (bindings : Dictionary Value) :
    (onlyRoot bindings).frames (onlyRoot bindings).current = [bindings] := by
  have hroot : (onlyRoot bindings).scopes[(onlyRoot bindings).current]? =
      some { name := ScopeTable.globalName, parent := none, bindings } := rfl
  rw [ScopeTable.frames_eq hroot]

theorem foldl_declare_root (registers : List (Text × Int64)) (bindings : Dictionary Value) :
    registers.foldl
        (fun scopes (name, number) => scopes.declare ScopeTable.root name (.register number))
        (onlyRoot bindings) =
      onlyRoot ((registers.map fun (name, number) => (name, Value.register number)).foldl
        (fun d entry => d.insert entry.1 entry.2) bindings) := by
  induction registers generalizing bindings with
  | nil => rfl
  | cons entry rest ih => exact ih (bindings.insert entry.1 (.register entry.2))

/-- The registers are bound in front of the first statement. -/
theorem agrees_new (config : Config) : Agrees (new config) (.initial config.set) := by
  have hscopes : (new config).scopes = onlyRoot (.ofList
      ((registerNames config.set.registers).map fun (name, number) => (name, .register number))) :=
    foldl_declare_root (registerNames config.set.registers) .empty
  exact
    { inside := by
        rw [scope, hscopes]
        exact Nat.zero_lt_one
      frames := by
        rw [scope, hscopes]
        exact frames_onlyRoot _
      memory := rfl
      routines := by simp [Names.initial, new, Definitions.contains] }

end Translator

end AccuAsm
