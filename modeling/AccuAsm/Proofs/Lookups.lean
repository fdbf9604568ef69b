import AccuAsm.Proofs.Constants

/-!
# Scopes and look-ups

A table of scopes is changed by four calls: one opens a scope, two bind or drop a name in a
scope, and one makes another scope the current one.  This module says what every sequence of such
calls keeps, and what look-ups find behind a binding and behind its removal.

There are three groups.

* Look-ups.  A look-up goes along the chain of a scope.  `Sees` says that it gets as far as a
  given scope.  `lookup_of_sees` and `lookup_of_not_sees` say what becomes of a look-up when the
  bindings of that scope change, and `lookup_of_find?_eq` is about the other names.
* Calls.  `Reached` says that a table comes about by calls, and `WellFormed` is the invariant.
  `WellFormed.on` is the step lemma and `Reached.wellFormed` the run lemma.
* Results.  `WellFormed.find?_eq_some_iff` says that the index of names and the list of scopes
  hold the same.  `Leads` follows the links from scope to scope, and `WellFormed.leads` says that
  they end.
-/

namespace AccuAsm

namespace ScopeTable

variable {t t' : ScopeTable} {scope target outer i : Nat} {s : Scope} {name other : Text}
  {parent : Option Nat} {value : Value}

/-! ## Look-ups -/

/-- Whether a look-up of a name that starts at a scope gets as far as another one: that scope is
on its chain, and none of the nearer ones binds the name. -/
def Sees (t : ScopeTable) (scope target : Nat) (name : Text) : Prop :=
  target ∈ t.chain scope ∧
    ∀ nearer ∈ (t.chain scope).takeWhile (· ≠ target), t.lookupIn nearer name = none

instance (t : ScopeTable) (scope target : Nat) (name : Text) :
    Decidable (t.Sees scope target name) :=
  inferInstanceAs (Decidable (_ ∧ _))

/-- The nearest binding of a name in the scopes around a scope. -/
def lookupAround (t : ScopeTable) (scope : Nat) (name : Text) : Option Value :=
  (t.chain scope).tail.findSome? (t.lookupIn · name)

theorem findSome?_congr {scopes : List Nat} {f g : Nat → Option Value}
    (h : ∀ i ∈ scopes, f i = g i) : scopes.findSome? f = scopes.findSome? g := by
  induction scopes with
  | nil => rfl
  | cons i rest ih =>
    rw [List.findSome?_cons, List.findSome?_cons, h i List.mem_cons_self,
      ih fun j hj => h j (List.mem_cons_of_mem i hj)]

theorem ne_of_mem_takeWhile {scopes : List Nat} (h : i ∈ scopes.takeWhile (· ≠ target)) :
    i ≠ target := by
  have hne := List.mem_takeWhile_imp h
  exact of_decide_eq_true hne

/-- The chain of a scope ends with the chain of each of its members. -/
theorem chain_eq_append (h : target ∈ t.chain scope) :
    t.chain scope = (t.chain scope).takeWhile (· ≠ target) ++ t.chain target := by
  induction scope using Nat.strongRecOn with
  | ind scope ih =>
    obtain ⟨hchain, _⟩ | hchain | ⟨outer, houter, hchain⟩ := t.chain_cases scope
    · rw [hchain] at h
      cases h
    · rw [hchain] at h
      rw [List.mem_singleton.mp h, hchain]
      simp
    · by_cases hhere : scope = target
      · rw [← hhere, hchain]
        simp
      · rw [hchain] at h
        have hbeyond : target ∈ t.chain outer :=
          (List.mem_cons.mp h).resolve_left (Ne.symm hhere)
        rw [hchain, List.takeWhile_cons_of_pos, List.cons_append, ← ih outer houter hbeyond]
        exact decide_eq_true hhere

/-- A scope lies in front of those around it and not among them. -/
theorem chain_of_mem (h : target ∈ t.chain scope) :
    t.chain target = target :: (t.chain target).tail ∧ target ∉ (t.chain target).tail := by
  obtain ⟨hchain, _⟩ | hchain | ⟨outer, houter, hchain⟩ := t.chain_cases target
  · rw [chain_eq_append h, hchain, List.append_nil] at h
    exact absurd rfl (ne_of_mem_takeWhile h)
  · rw [hchain]
    exact ⟨rfl, List.not_mem_nil⟩
  · rw [hchain]
    refine ⟨rfl, fun hmem => ?_⟩
    have hle : target ≤ outer := le_of_mem_chain hmem
    omega

section Change

variable {change : Dictionary Value → Dictionary Value}

/-- What a scope has besides its bindings stays. -/
theorem map_modifyBindings {α : Type} {f : Scope → α}
    (h : ∀ (s : Scope) (bindings : Dictionary Value), f { s with bindings } = f s) (i : Nat) :
    (t.modifyBindings target change).scopes[i]?.map f = t.scopes[i]?.map f := by
  show (t.scopes.modify target _)[i]?.map f = _
  rw [Array.getElem?_modify]
  split
  · cases t.scopes[i]? with
    | none => rfl
    | some s => exact congrArg some (h s _)
  · rfl

theorem chain_modifyBindings : (t.modifyBindings target change).chain scope = t.chain scope := by
  have hsame (i : Nat) : (t.modifyBindings target change).scopes[i]?.map (·.parent) =
      t.scopes[i]?.map (·.parent) := map_modifyBindings (fun _ _ => rfl) i
  by_cases hscope : scope < t.size
  · apply chain_congr _ hscope
    intro i s hs
    apply Option.map_eq_some_iff.mp
    rw [hsame i, hs]
    rfl
  · have hs : t.scopes[scope]? = none := Array.getElem?_eq_none (Nat.le_of_not_lt hscope)
    have hs' : (t.modifyBindings target change).scopes[scope]? = none := by
      rw [← Option.map_eq_none_iff, hsame scope, hs]
      rfl
    rw [chain, hs', chain, hs]

/-- A name whose bindings stay. -/
theorem lookup_of_find?_eq (h : ∀ bindings, (change bindings).find? name = bindings.find? name)
    (scope : Nat) (parents : Bool) :
    (t.modifyBindings target change).lookup scope name parents = t.lookup scope name parents := by
  cases parents with
  | false => exact lookupIn_modifyBindings h
  | true =>
    show List.findSome? _ _ = List.findSome? _ _
    rw [chain_modifyBindings]
    exact findSome?_congr fun i _ => lookupIn_modifyBindings h

/-- A look-up that gets as far as the scope that changes finds the name there, or in the scopes
around it. -/
theorem lookup_of_sees (h : t.Sees scope target name) :
    (t.modifyBindings target change).lookup scope name true =
      ((t.modifyBindings target change).lookupIn target name).or (t.lookupAround target name) := by
  obtain ⟨hmem, hnearer⟩ := h
  obtain ⟨hchain, hfront⟩ := chain_of_mem hmem
  have hnone : ((t.chain scope).takeWhile (· ≠ target)).findSome?
      ((t.modifyBindings target change).lookupIn · name) = none := by
    rw [List.findSome?_eq_none_iff]
    intro i hi
    rw [lookupIn_other (ne_of_mem_takeWhile hi)]
    exact hnearer i hi
  have haround : (t.chain target).tail.findSome?
      ((t.modifyBindings target change).lookupIn · name) = t.lookupAround target name := by
    apply findSome?_congr
    intro i hi
    apply lookupIn_other
    exact fun hsame => hfront (hsame ▸ hi)
  show List.findSome? _ _ = _
  rw [chain_modifyBindings, chain_eq_append hmem, List.findSome?_append, hnone, hchain,
    List.findSome?_cons, haround]
  cases (t.modifyBindings target change).lookupIn target name <;> rfl

/-- A look-up that does not get there finds what it found before. -/
theorem lookup_of_not_sees (h : ¬t.Sees scope target name) :
    (t.modifyBindings target change).lookup scope name true = t.lookup scope name true := by
  show List.findSome? _ _ = List.findSome? _ _
  rw [chain_modifyBindings]
  by_cases hmem : target ∈ t.chain scope
  · -- a nearer scope binds the name, and it is not the one that changes
    have hsome : ((t.chain scope).takeWhile (· ≠ target)).findSome? (t.lookupIn · name) ≠ none := by
      intro hnone
      exact h ⟨hmem, List.findSome?_eq_none_iff.mp hnone⟩
    have hfront : ((t.chain scope).takeWhile (· ≠ target)).findSome?
        ((t.modifyBindings target change).lookupIn · name) =
          ((t.chain scope).takeWhile (· ≠ target)).findSome? (t.lookupIn · name) := by
      apply findSome?_congr
      intro i hi
      exact lookupIn_other (ne_of_mem_takeWhile hi)
    obtain ⟨value, hvalue⟩ := Option.ne_none_iff_exists'.mp hsome
    rw [chain_eq_append hmem, List.findSome?_append, List.findSome?_append, hfront, hvalue]
    rfl
  · apply findSome?_congr
    intro i hi
    apply lookupIn_other
    exact fun hsame => hmem (hsame ▸ hi)

end Change

theorem lookupIn_remove_self : (t.remove target name).lookupIn target name = none := by
  show (t.scopes.modify target _)[target]? >>= _ = _
  rw [Array.getElem?_modify, if_pos rfl]
  cases t.scopes[target]? with
  | none => rfl
  | some s => exact (Dictionary.find?_erase _ _ _).trans (if_pos rfl)

/-- What look-ups find when one scope binds a name anew or drops it.  The scope itself has `own`
then, and `seen` is what a look-up finds that gets as far as the scope. -/
structure Rebound (t t' : ScopeTable) (target : Nat) (name : Text) (own seen : Option Value) :
    Prop where
  own : t'.lookup target name false = own
  elsewhere : ∀ scope ≠ target, t'.lookup scope name false = t.lookup scope name false
  seen : ∀ scope, t.Sees scope target name → t'.lookup scope name true = seen
  unseen : ∀ scope, ¬t.Sees scope target name →
    t'.lookup scope name true = t.lookup scope name true
  others : ∀ (other : Text) (scope : Nat) (parents : Bool), other ≠ name →
    t'.lookup scope other parents = t.lookup scope other parents

theorem rebound_declare (h : target < t.size) :
    Rebound t (t.declare target name value) target name (some value) (some value) where
  own := lookupIn_declare h name value
  elsewhere _ hscope := lookupIn_other hscope
  seen scope hsees := by
    refine (lookup_of_sees hsees).trans ?_
    show ((t.declare target name value).lookupIn target name).or _ = _
    rw [lookupIn_declare h, Option.some_or]
  unseen _ hsees := lookup_of_not_sees hsees
  others other scope parents hother := by
    apply lookup_of_find?_eq
    intro bindings
    rw [Dictionary.find?_insert, if_neg hother]

theorem rebound_remove :
    Rebound t (t.remove target name) target name none (t.lookupAround target name) where
  own := lookupIn_remove_self
  elsewhere _ hscope := lookupIn_other hscope
  seen scope hsees := by
    refine (lookup_of_sees hsees).trans ?_
    show ((t.remove target name).lookupIn target name).or _ = _
    rw [lookupIn_remove_self, Option.none_or]
  unseen _ hsees := lookup_of_not_sees hsees
  others other scope parents hother := by
    apply lookup_of_find?_eq
    intro bindings
    rw [Dictionary.find?_erase, if_neg hother]

/-! ## Calls -/

/-- A call that changes a table. -/
inductive Call where
  /-- Open a scope. -/
  | add (name : Text) (parent : Option Nat)
  /-- Bind a name in a scope. -/
  | declare (scope : Nat) (name : Text) (value : Value)
  /-- Drop a name from a scope. -/
  | remove (scope : Nat) (name : Text)
  /-- Make a scope the current one. -/
  | select (scope : Nat)
  deriving DecidableEq, Repr

/-- A call is about scopes of the table. -/
def Call.Fits (t : ScopeTable) : Call → Prop
  | .add _ parent => ∀ outer ∈ parent, outer < t.size
  | .declare scope _ _ | .remove scope _ | .select scope => scope < t.size

instance (t : ScopeTable) : (c : Call) → Decidable (c.Fits t)
  | .add _ parent => inferInstanceAs (Decidable (∀ outer ∈ parent, outer < t.size))
  | .declare scope _ _ | .remove scope _ | .select scope =>
    inferInstanceAs (Decidable (scope < t.size))

/-- The answer to a call, and the table behind it. -/
def Call.on (t : ScopeTable) : Call → Except Diagnostic Unit × ScopeTable
  | .add name parent =>
    match t.add name parent with
    | .ok t' => (.ok (), t')
    | .error d => (.error d, t)
  | .declare scope name value => (.ok (), t.declare scope name value)
  | .remove scope name => (.ok (), t.remove scope name)
  | .select scope => (.ok (), t.select scope)

/-- The tables that calls lead to. -/
inductive Reached : ScopeTable → Prop where
  | initial : Reached initial
  | call {t : ScopeTable} (h : Reached t) (c : Call) (hfits : c.Fits t) : Reached (c.on t).2

/-- What calls keep: names are different, and a scope lies inside an earlier one. -/
structure WellFormed (t : ScopeTable) : Prop where
  nodup : (t.scopes.toList.map (·.name)).Nodup
  parent_lt : ∀ (i : Nat) (s : Scope), t.scopes[i]? = some s → ∀ outer ∈ s.parent, outer < i

theorem wellFormed_initial : WellFormed initial where
  nodup := List.nodup_singleton _
  parent_lt i s hs outer houter := by
    rw [show initial.scopes = #[.fresh globalName none] from rfl, Array.getElem?_singleton] at hs
    split at hs
    · rw [← Option.some.inj hs] at houter
      cases houter
    · cases hs

theorem WellFormed.modifyBindings (h : WellFormed t) (target : Nat)
    (change : Dictionary Value → Dictionary Value) :
    WellFormed (t.modifyBindings target change) where
  nodup := by
    have hsame : (t.modifyBindings target change).scopes.toList.map (·.name) =
        t.scopes.toList.map (·.name) := by
      apply List.ext_getElem?
      intro i
      rw [List.getElem?_map, List.getElem?_map, Array.getElem?_toList, Array.getElem?_toList]
      exact map_modifyBindings (fun _ _ => rfl) i
    rw [hsame]
    exact h.nodup
  parent_lt i s' hs' := by
    have hparent : t.scopes[i]?.map (·.parent) = some s'.parent := by
      rw [← map_modifyBindings (fun _ _ => rfl) i, hs']
      rfl
    obtain ⟨s, hs, hsame⟩ := Option.map_eq_some_iff.mp hparent
    rw [← hsame]
    exact h.parent_lt i s hs

theorem find?_eq_none_iff : t.find? name = none ↔ name ∉ t.scopes.toList.map (·.name) := by
  rw [find?_eq, Array.findIdx?_eq_none_iff]
  simp

/-- A scope is opened unless another one has its name. -/
theorem add_eq (t : ScopeTable) (name : Text) (parent : Option Nat) :
    t.add name parent =
      if name ∈ t.scopes.toList.map (·.name) then
        .error { complaint := .scopeExists, token := name }
      else .ok { t with scopes := t.scopes.push (.fresh name parent) } := by
  unfold add
  split
  · next hfound =>
    rw [if_pos]
    by_contra hfree
    rw [find?_eq_none_iff.mpr hfree] at hfound
    cases hfound
  · next hfree => rw [if_neg (find?_eq_none_iff.mp hfree)]

theorem WellFormed.push (h : WellFormed t) (hfree : name ∉ t.scopes.toList.map (·.name))
    (hparent : ∀ outer ∈ parent, outer < t.size) :
    WellFormed { t with scopes := t.scopes.push (.fresh name parent) } where
  nodup := by
    rw [Array.toList_push, List.map_append, List.nodup_append]
    refine ⟨h.nodup, List.nodup_singleton _, ?_⟩
    intro taken htaken fresh hfresh hsame
    rw [hsame, List.mem_singleton.mp hfresh] at htaken
    exact hfree htaken
  parent_lt i s hs := by
    rw [Array.getElem?_push] at hs
    split at hs
    · next hlast =>
      rw [← Option.some.inj hs, hlast]
      exact hparent
    · exact h.parent_lt i s hs

/-- The step lemma. -/
theorem WellFormed.on (h : WellFormed t) (c : Call) (hfits : c.Fits t) :
    WellFormed (c.on t).2 := by
  cases c with
  | add name parent =>
    rw [Call.on, add_eq]
    split
    · next t' hadd =>
      split at hadd
      · cases hadd
      · next hfree =>
        rw [← Except.ok.inj hadd]
        exact h.push hfree hfits
    · exact h
  | declare scope name value => exact h.modifyBindings scope (·.insert name value)
  | remove scope name => exact h.modifyBindings scope (·.erase name)
  | select scope => exact ⟨h.nodup, h.parent_lt⟩

/-- The run lemma. -/
theorem Reached.wellFormed (h : Reached t) : WellFormed t := by
  induction h with
  | initial => exact wellFormed_initial
  | call _ c hfits ih => exact ih.on c hfits

/-! ## Results -/

/-- The index leads to a scope exactly by its name. -/
theorem WellFormed.find?_eq_some_iff (h : WellFormed t) :
    t.find? name = some i ↔ ∃ s, t.scopes[i]? = some s ∧ s.name = name := by
  rw [find?_eq, Array.findIdx?_eq_some_iff_getElem]
  constructor
  · intro hfound
    obtain ⟨hi, hname, _⟩ := hfound
    exact ⟨t.scopes[i], Array.getElem?_eq_getElem hi, eq_of_beq hname⟩
  · intro hs
    obtain ⟨s, hs, hname⟩ := hs
    obtain ⟨hi, hget⟩ := Array.getElem?_eq_some_iff.mp hs
    refine ⟨hi, by rw [hget, hname]; exact beq_self_eq_true name, fun j hj => ?_⟩
    -- an earlier scope of the name would be a second one
    intro hsame
    have hj' : j < t.scopes.size := by omega
    have hne := (List.nodup_iff_getElem?_ne_getElem?.mp h.nodup) j i hj (by simpa using hi)
    apply hne
    rw [List.getElem?_map, List.getElem?_map, Array.getElem?_toList, Array.getElem?_toList, hs,
      Array.getElem?_eq_getElem hj', Option.map_some, Option.map_some, eq_of_beq hsame, hname]

/-- The scopes that the links lead to, from one scope up to one that lies in none. -/
inductive Leads (t : ScopeTable) : Nat → List Nat → Prop where
  | outermost {scope : Nat} {s : Scope} (hs : t.scopes[scope]? = some s)
      (hparent : s.parent = none) : Leads t scope [scope]
  | inner {scope outer : Nat} {s : Scope} {rest : List Nat} (hs : t.scopes[scope]? = some s)
      (hparent : s.parent = some outer) (hrest : Leads t outer rest) : Leads t scope (scope :: rest)

/-- The links from each scope end, and they are its chain. -/
theorem WellFormed.leads (h : WellFormed t) (hscope : scope < t.size) :
    Leads t scope (t.chain scope) := by
  induction scope using Nat.strongRecOn with
  | ind scope ih =>
    have hs : t.scopes[scope]? = some t.scopes[scope] := Array.getElem?_eq_getElem hscope
    cases hparent : t.scopes[scope].parent with
    | none =>
      have hchain : t.chain scope = [scope] := by
        rw [chain, hs]
        dsimp only
        rw [hparent]
      rw [hchain]
      exact .outermost hs hparent
    | some outer =>
      have houter : outer < scope := h.parent_lt scope _ hs outer hparent
      rw [chain_eq_cons hs hparent houter]
      exact .inner hs hparent (ih outer houter (by omega))

/-- The one thing that a call is refused for. -/
def Call.Taken (t : ScopeTable) (c : Call) (d : Diagnostic) : Prop :=
  ∃ name parent, c = .add name parent ∧ name ∈ t.scopes.toList.map (·.name) ∧
    d = { complaint := .scopeExists, token := name }

theorem on_eq_error_iff {c : Call} {d : Diagnostic} :
    (c.on t).1 = .error d ↔ c.Taken t d := by
  constructor
  · intro h
    cases c with
    | add name parent =>
      rw [Call.on, add_eq] at h
      by_cases htaken : name ∈ t.scopes.toList.map (·.name)
      · rw [if_pos htaken] at h
        exact ⟨name, parent, rfl, htaken, (Except.error.inj h).symm⟩
      · rw [if_neg htaken] at h
        cases h
    | declare scope name value => cases h
    | remove scope name => cases h
    | select scope => cases h
  · intro h
    obtain ⟨name, parent, hc, htaken, hd⟩ := h
    rw [hc, hd, Call.on, add_eq, if_pos htaken]

theorem on_of_error {c : Call} {d : Diagnostic} (h : (c.on t).1 = .error d) : (c.on t).2 = t := by
  cases c with
  | add name parent =>
    rw [Call.on] at h ⊢
    split at h
    · cases h
    · rfl
  | declare scope name value => cases h
  | remove scope name => cases h
  | select scope => cases h

theorem on_addScope_of_taken {u : Translator} (h : name ∈ u.scopes.scopes.toList.map (·.name)) :
    (Step.addScope name).on u =
      (.error (.rejected { complaint := .scopeExists, token := name }), u) := by
  rw [Step.addScope, Step.on_get_bind, add_eq, if_pos h]
  rfl

/-- A table of scopes, behind any calls.  Its scopes have different names, and the index leads to
each scope by its name and nowhere else.  Every scope lies in one that was opened before it, so the
links from a scope end.  The one call that is refused opens a scope whose name is taken, and it
changes nothing, neither in the table nor in a translator that opens a scope.  A name that is bound
in a scope is found from all scopes whose look-up gets there, and a name that is dropped there
gives way to the next binding around it; all other look-ups find what they found before. -/
theorem scope_table_laws (h : Reached t) :
    (t.scopes.toList.map (·.name)).Nodup ∧
    (∀ name i, t.find? name = some i ↔ ∃ s, t.scopes[i]? = some s ∧ s.name = name) ∧
    (∀ (i : Nat) (s : Scope), t.scopes[i]? = some s → ∀ outer ∈ s.parent, outer < i) ∧
    (∀ scope < t.size, Leads t scope (t.chain scope)) ∧
    (∀ (c : Call) (d : Diagnostic), (c.on t).1 = .error d ↔ c.Taken t d) ∧
    (∀ (c : Call) (d : Diagnostic), (c.on t).1 = .error d → (c.on t).2 = t) ∧
    (∀ (u : Translator) (name : Text), u.scopes = t → name ∈ t.scopes.toList.map (·.name) →
      (Step.addScope name).on u =
        (.error (.rejected { complaint := .scopeExists, token := name }), u)) ∧
    ∀ target < t.size, ∀ name,
      (∀ value, Rebound t (t.declare target name value) target name (some value) (some value)) ∧
      Rebound t (t.remove target name) target name none (t.lookupAround target name) := by
  have hwell := h.wellFormed
  refine ⟨hwell.nodup, fun _ _ => hwell.find?_eq_some_iff, hwell.parent_lt,
    fun _ hscope => hwell.leads hscope, fun _ _ => on_eq_error_iff,
    fun _ _ hrefused => on_of_error hrefused, ?_, ?_⟩
  · intro u name hu htaken
    rw [← hu] at htaken
    exact on_addScope_of_taken htaken
  · intro target htarget name
    exact ⟨fun value => rebound_declare htarget, rebound_remove⟩

theorem inner_binding_gives_way :
    let calls : List Call := [.add "global.f" (some 0), .declare 0 "x" (.immediate 1),
      .add "global.f.g" (some 1), .declare 1 "x" (.immediate 2)]
    let t := calls.foldl (fun t c => (c.on t).2) initial
    Reached t ∧ t.Sees 2 1 "x" ∧ t.lookup 2 "x" true = some (.immediate 2) ∧
      (t.remove 1 "x").lookup 2 "x" true = some (.immediate 1) := by
  have hreached : Reached _ := .call (.call (.call (.call .initial
    (.add "global.f" (some 0)) (by decide +kernel))
    (.declare 0 "x" (.immediate 1)) (by decide +kernel))
    (.add "global.f.g" (some 1)) (by decide +kernel))
    (.declare 1 "x" (.immediate 2)) (by decide +kernel)
  obtain ⟨_, _, _, _, _, _, _, hrebound⟩ := scope_table_laws hreached
  refine ⟨hreached, by decide +kernel, by decide +kernel, ?_⟩
  have hremoved := (hrebound 1 (by decide +kernel) "x").2.seen 2 (by decide +kernel)
  exact hremoved.trans (by decide +kernel)

end ScopeTable

end AccuAsm
