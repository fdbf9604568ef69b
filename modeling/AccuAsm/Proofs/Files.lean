import Mathlib
import AccuAsm.Storage

/-!
# Files, written and read

What is written to a path is read from it again, also after another file has been written
next to it.

There are three groups.

* Paths.  A path is a front and a name without a slash.  `Path.withExtension` changes the name
  only, and never into itself.
* Directories.  Writing a file adds directories and takes none away, so a path that led to a
  directory still leads there (`Storage.walk_place`).
* Contents.  `Storage.read_write` reads what was written, and `Storage.read_write_other` reads
  it after a file with another name was written next to it.
-/

namespace AccuAsm

/-! ## Paths -/

namespace Path

variable {front name wanted : Text}

theorem dropWhile_stops {p : UInt8 → Bool} {text rest : Text} {byte : UInt8}
    (h : text.dropWhile p = byte :: rest) : p byte = false := by
  have hstop := List.head?_dropWhile_not p text
  rwa [h] at hstop

/-- A text that can stand in front of the last part of a path. -/
def IsFront (front : Text) : Prop := front = [] ∨ ∃ above, front = above ++ [slash]

theorem exists_name (path : Text) :
    ∃ front name, path = front ++ name ∧ IsFront front ∧ slash ∉ name := by
  refine ⟨(path.reverse.dropWhile (· ≠ slash)).reverse,
    (path.reverse.takeWhile (· ≠ slash)).reverse, ?_, ?_, ?_⟩
  · rw [← List.reverse_append, List.takeWhile_append_dropWhile, List.reverse_reverse]
  · cases hrest : path.reverse.dropWhile (· ≠ slash) with
    | nil => exact .inl rfl
    | cons head tail =>
      have hhead : head = slash := by simpa using dropWhile_stops hrest
      exact .inr ⟨tail.reverse, by rw [hhead, List.reverse_cons]⟩
  · intro hmem
    simpa using List.mem_takeWhile_imp (List.mem_reverse.mp hmem)

/-- The last part of a path is what stands behind its front. -/
theorem splitOn_front (hfront : IsFront front) :
    ∃ init, ∀ name, slash ∉ name → (front ++ name).splitOn slash = init ++ [name] := by
  rcases hfront with rfl | ⟨above, rfl⟩
  · exact ⟨[], fun name hname => List.splitOn_eq_singleton hname⟩
  · refine ⟨above.splitOn slash, fun name hname => ?_⟩
    rw [List.append_assoc, List.singleton_append, List.splitOn_append_cons_self,
      List.splitOn_eq_singleton hname]

theorem takeWhile_reverse (hfront : IsFront front) (hname : slash ∉ name) :
    ((front ++ name).reverse.takeWhile (· ≠ slash)).reverse = name := by
  have hall : ∀ byte ∈ name.reverse, decide (byte ≠ slash) = true := by
    intro byte hbyte
    refine decide_eq_true ?_
    rintro rfl
    exact hname (List.mem_reverse.mp hbyte)
  rw [List.reverse_append, List.takeWhile_append_of_pos hall]
  rcases hfront with rfl | ⟨above, rfl⟩ <;> simp

theorem extension_append (hfront : IsFront front) (hname : slash ∉ name) :
    extension (front ++ name) = extension name := by
  have hsame := takeWhile_reverse (.inl rfl) hname
  rw [List.nil_append] at hsame
  unfold extension
  rw [takeWhile_reverse hfront hname, hsame]

/-- A path ends in its extension. -/
theorem exists_stem (path : Text) : ∃ stem, path = stem ++ extension path := by
  obtain ⟨front, name, rfl, hfront, hname⟩ := exists_name path
  unfold extension
  rw [takeWhile_reverse hfront hname]
  dsimp only
  cases hdot : name.reverse.dropWhile (· ≠ ascii '.') with
  | nil => exact ⟨front ++ name, (List.append_nil _).symm⟩
  | cons dot rest =>
    have hhead : dot = ascii '.' := by simpa using dropWhile_stops hdot
    refine ⟨front ++ rest.reverse, ?_⟩
    have hsplit := congrArg List.reverse
      (@List.takeWhile_append_dropWhile _ (· ≠ ascii '.') name.reverse)
    rw [hdot, List.reverse_append, List.reverse_reverse, List.reverse_cons, hhead,
      List.append_assoc, List.singleton_append] at hsplit
    rw [List.append_assoc, hsplit]

/-- An extension is appended, or takes the place of another one. -/
theorem withExtension_cases (path wanted : Text) :
    (extension path = [] ∨ extension path = wanted) ∧ withExtension path wanted = path ++ wanted ∨
      ¬(extension path = [] ∨ extension path = wanted) ∧
        ∃ stem, path = stem ++ extension path ∧ withExtension path wanted = stem ++ wanted := by
  unfold withExtension
  dsimp only
  by_cases hold : extension path = [] ∨ extension path = wanted
  · rw [if_pos (by simpa using hold)]
    exact .inl ⟨hold, rfl⟩
  · rw [if_neg (by simpa using hold)]
    obtain ⟨stem, hstem⟩ := exists_stem path
    refine .inr ⟨hold, stem, hstem, ?_⟩
    generalize extension path = old at hstem
    rw [hstem, List.length_append, Nat.add_sub_cancel, List.take_left]

theorem withExtension_append (hfront : IsFront front) (hname : slash ∉ name) (wanted : Text) :
    withExtension (front ++ name) wanted = front ++ withExtension name wanted := by
  obtain ⟨stem, hstem⟩ := exists_stem name
  have hlength : (extension name).length ≤ name.length := by
    have := congrArg List.length hstem
    rw [List.length_append] at this
    omega
  unfold withExtension
  rw [extension_append hfront hname]
  dsimp only
  split_ifs
  · rw [List.append_assoc]
  · rw [List.length_append, Nat.add_sub_assoc hlength, List.take_length_add_append,
      List.append_assoc]

theorem slash_notMem_withExtension (hname : slash ∉ name) (hwanted : slash ∉ wanted) :
    slash ∉ withExtension name wanted := by
  unfold withExtension
  dsimp only
  split_ifs
  · simp [hname, hwanted]
  · rw [List.mem_append]
    rintro (hmem | hmem)
    · exact hname (List.mem_of_mem_take hmem)
    · exact hwanted hmem

theorem withExtension_ne (path : Text) (hwanted : wanted ≠ []) :
    withExtension path wanted ≠ path := by
  rcases withExtension_cases path wanted with ⟨_, hsame⟩ | ⟨hold, stem, hpath, hsame⟩
  · rw [hsame]
    simpa using hwanted
  · rw [hsame]
    intro heq
    exact hold (.inr (List.append_cancel_left (hpath.symm.trans heq.symm)))

end Path

/-! ## Directories -/

theorem Dictionary.mem_names_iff {α : Type} {d : Dictionary α} {name : Text} :
    name ∈ d.names ↔ (d.find? name).isSome = true := by
  unfold names find?
  rw [← not_iff_not, Bool.not_eq_true, Option.isSome_eq_false_iff, Option.isNone_iff_eq_none,
    List.lookup_eq_none_iff]
  simp only [List.mem_map, not_exists, not_and, bne_iff_ne]
  constructor
  · intro h entry hentry heq
    exact h entry hentry heq.symm
  · intro h entry hentry heq
    exact h entry hentry heq.symm

theorem Dictionary.mem_names_insert {α : Type} {d : Dictionary α} {name other : Text} {value : α} :
    other ∈ (d.insert name value).names ↔ other = name ∨ other ∈ d.names := by
  rw [mem_names_iff, mem_names_iff, find?_insert]
  by_cases h : other = name <;> simp [h]

namespace Storage

variable {s s' : Storage} {directory path full content : Text} {name name' : Text}
  {init : List Text} {node : Node}

/-- The tree with one more file, or another content of one. -/
def store (s : Storage) (full content : Text) : Storage :=
  { s with files := s.files.insert full content }

/-- The directories of another tree are among those of this one. -/
def Covers (s' s : Storage) : Prop := ∀ path, s.isDirectory path = true → s'.isDirectory path = true

theorem isDirectory_store : (s.store full content).isDirectory path =
    (s.isDirectory path || (path ++ "/" : Text).isPrefixOf full) := by
  have hnames : (s.store full content).files.names.any ((path ++ "/" : Text).isPrefixOf ·) =
      (s.files.names.any ((path ++ "/" : Text).isPrefixOf ·) ||
        (path ++ "/" : Text).isPrefixOf full) := by
    rw [Bool.eq_iff_iff, Bool.or_eq_true, List.any_eq_true, List.any_eq_true]
    constructor
    · rintro ⟨other, hother, hinside⟩
      rcases Dictionary.mem_names_insert.mp hother with rfl | hother
      · exact .inr hinside
      · exact .inl ⟨other, hother, hinside⟩
    · rintro (⟨other, hother, hinside⟩ | hinside)
      · exact ⟨other, Dictionary.mem_names_insert.mpr (.inr hother), hinside⟩
      · exact ⟨full, Dictionary.mem_names_insert.mpr (.inl rfl), hinside⟩
  unfold isDirectory
  dsimp only
  rw [hnames, ← Bool.or_assoc]
  rfl

theorem covers_store : (s.store full content).Covers s := by
  intro path hpath
  rw [isDirectory_store, hpath, Bool.true_or]

/-- The path of the file that a node stands for, if it can be written. -/
def Node.place? : Node → Option Text
  | .file full _ false => some full
  | .absent full false => some full
  | _ => none

/-- Whether a part of a path is a name. -/
def IsName (name : Text) : Prop :=
  ¬(name = "" ∨ name = ".") ∧ name ≠ ".." ∧ ¬nameLimit < name.length

theorem walk_name (h : IsName name) : s.walk directory [name] =
    if s.isDirectory (directory ++ "/" ++ name) then .ok .directory
    else match s.files.find? (directory ++ "/" ++ name) with
      | some content => .ok (.file (directory ++ "/" ++ name) content false)
      | none => .ok (.absent (directory ++ "/" ++ name) false) := by
  obtain ⟨hproper, hup, hlength⟩ := h
  simp only [walk, if_neg hproper, if_neg hup, if_neg hlength]
  rfl

theorem walk_name_place (h : s.walk directory [name] = .ok node)
    (hplace : node.place? = some full) :
    IsName name ∧ full = directory ++ "/" ++ name ∧ s.isDirectory full = false := by
  have hname : IsName name := by
    by_cases hproper : name = "" ∨ name = "."
    · simp only [walk, if_pos hproper] at h
      cases h
      cases hplace
    by_cases hup : name = ".."
    · simp only [walk, if_neg hproper, if_pos hup] at h
      cases h
      cases hplace
    by_cases hlength : nameLimit < name.length
    · simp only [walk, if_neg hproper, if_neg hup, if_pos hlength] at h
      cases h
      cases hplace
    exact ⟨hproper, hup, hlength⟩
  refine ⟨hname, ?_⟩
  rw [walk_name hname] at h
  by_cases hdirectory : s.isDirectory (directory ++ "/" ++ name) = true
  · rw [if_pos hdirectory] at h
    cases h
    cases hplace
  rw [if_neg hdirectory] at h
  cases hfile : s.files.find? (directory ++ "/" ++ name) with
  | some content =>
    simp only [hfile] at h
    cases h
    cases hplace
    exact ⟨rfl, Bool.not_eq_true _ ▸ hdirectory⟩
  | none =>
    simp only [hfile] at h
    cases h
    cases hplace
    exact ⟨rfl, Bool.not_eq_true _ ▸ hdirectory⟩

/-- Everything in front of the name of a file leads to a directory, and goes on leading there. -/
theorem walk_place (h : s.walk directory (init ++ [name]) = .ok node)
    (hplace : node.place? = some full) :
    ∃ above, s.walk above [name] = .ok node ∧ ∀ s' : Storage, s'.Covers s → ∀ name',
      s'.walk directory (init ++ [name']) = s'.walk above [name'] := by
  induction init generalizing directory with
  | nil => exact ⟨directory, h, fun _ _ _ => rfl⟩
  | cons part rest ih =>
    simp only [List.cons_append, walk] at h ⊢
    by_cases hproper : part = "" ∨ part = "."
    · simp only [if_pos hproper] at h ⊢
      exact ih h
    by_cases hup : part = ".."
    · simp only [if_neg hproper, if_pos hup] at h ⊢
      exact ih h
    -- a part with others behind it is a directory, or the walk ends without a place
    have hslash : (!(rest ++ [name]).isEmpty) = true := by simp
    simp only [if_neg hproper, if_neg hup, hslash] at h ⊢
    by_cases hlength : nameLimit < part.length
    · rw [if_pos hlength] at h
      split_ifs at h
      cases h
      cases hplace
    simp only [if_neg hlength] at h ⊢
    by_cases hdirectory : s.isDirectory (directory ++ "/" ++ part) = true
    · rw [if_pos hdirectory] at h
      obtain ⟨above, hnode, hall⟩ := ih h
      refine ⟨above, hnode, fun s' hs' name' => ?_⟩
      rw [if_pos (hs' _ hdirectory)]
      exact hall s' hs' name'
    rw [if_neg hdirectory] at h
    cases hfile : s.files.find? (directory ++ "/" ++ part) with
    | some content =>
      simp only [hfile] at h
      split_ifs at h
      cases h
      cases hplace
    | none =>
      simp only [hfile] at h
      split_ifs at h
      cases h
      cases hplace

/-! ## Contents -/

theorem write_ok (h : s.write path content = .ok s') :
    ∃ node full, s.locate path = .ok node ∧ node.place? = some full ∧
      s' = s.store full content := by
  unfold write at h
  split at h
  · next hnode => exact ⟨_, _, hnode, rfl, (Except.ok.inj h).symm⟩
  · next hnode => exact ⟨_, _, hnode, rfl, (Except.ok.inj h).symm⟩
  · cases h
  · cases h
  · cases h

/-- Where a path starts. -/
def startOf (s : Storage) (path : Text) : Text :=
  if Path.isAbsolute path ∨ s.workingDirectory = "/" then [] else s.workingDirectory

theorem locate_eq_walk (s : Storage) (hempty : path ≠ []) (hlength : path.length ≤ pathLimit) :
    s.locate path = s.walk (s.startOf path) (path.splitOn Path.slash) := by
  unfold locate
  rw [if_neg (by simpa using hempty), if_neg (by omega)]
  rfl

theorem locate_ok (h : s.locate path = .ok node) : path ≠ [] ∧ path.length ≤ pathLimit := by
  unfold locate at h
  by_cases hempty : path.isEmpty = true
  · rw [if_pos hempty] at h
    cases h
  by_cases hlength : pathLimit < path.length
  · rw [if_neg hempty, if_pos hlength] at h
    cases h
  exact ⟨by simpa using hempty, by omega⟩

theorem startOf_front {front : Text} (hfront : Path.IsFront front) (hname : Path.slash ∉ name)
    (hname' : Path.slash ∉ name') (hwork : s'.workingDirectory = s.workingDirectory) :
    s'.startOf (front ++ name') = s.startOf (front ++ name) := by
  have habsolute {last : Text} (hlast : Path.slash ∉ last) :
      Path.isAbsolute (front ++ last) = Path.isAbsolute front := by
    unfold Path.isAbsolute
    rcases hfront with rfl | ⟨above, rfl⟩
    · have hhead : last.head? ≠ some Path.slash := fun hhead => hlast (List.mem_of_head? hhead)
      simp [hhead]
    · cases above <;> simp
  unfold startOf
  rw [habsolute hname, habsolute hname', hwork]

/-- A path of a file leads to a directory and a name, and other names at the same front of a path
stand for files in the same directory. -/
theorem locate_front {front : Text} (hfront : Path.IsFront front) (hname : Path.slash ∉ name)
    (h : s.locate (front ++ name) = .ok node) (hplace : node.place? = some full) :
    ∃ above, IsName name ∧ full = above ++ "/" ++ name ∧ s.isDirectory full = false ∧
      s.walk above [name] = .ok node ∧
      ∀ (u : Storage) (name' : Text), u.Covers s → u.workingDirectory = s.workingDirectory →
        Path.slash ∉ name' → front ++ name' ≠ [] → (front ++ name').length ≤ pathLimit →
          u.locate (front ++ name') = u.walk above [name'] := by
  obtain ⟨hempty, hlength⟩ := locate_ok h
  obtain ⟨init, hinit⟩ := Path.splitOn_front hfront
  rw [locate_eq_walk s hempty hlength, hinit name hname] at h
  obtain ⟨above, hlast, hall⟩ := walk_place h hplace
  obtain ⟨hproper, rfl, hfile⟩ := walk_name_place hlast hplace
  refine ⟨above, hproper, rfl, hfile, hlast, ?_⟩
  intro u name' hcovers hwork hname' hempty' hlength'
  rw [locate_eq_walk u hempty' hlength', hinit name' hname',
    startOf_front hfront hname hname' hwork]
  exact hall u hcovers name'

theorem walk_file (h : IsName name) (hfile : s.isDirectory (directory ++ "/" ++ name) = false)
    (hcontent : s.files.find? (directory ++ "/" ++ name) = some content) :
    s.walk directory [name] = .ok (.file (directory ++ "/" ++ name) content false) := by
  rw [walk_name h, if_neg (by rw [hfile]; exact Bool.false_ne_true)]
  simp only [hcontent]

theorem read_of_locate (h : s.locate path = .ok (.file full content false)) :
    s.read path = .ok content := by
  unfold read
  rw [h]

/-- A file is not inside one that is next to it. -/
theorem isPrefixOf_beside (above name : Text) (hname' : Path.slash ∉ name') :
    (above ++ "/" ++ name ++ "/" : Text).isPrefixOf (above ++ "/" ++ name') = false := by
  rw [Bool.eq_false_iff, ne_eq, List.isPrefixOf_iff_prefix]
  rintro ⟨rest, hrest⟩
  rw [List.append_assoc, List.append_assoc] at hrest
  refine hname' (List.append_cancel_left hrest ▸ ?_)
  apply List.mem_append_right
  apply List.mem_append_left
  show Path.slash ∈ Text.ofString "/"
  decide

theorem locate_of_read (h : s.read path = .ok content) :
    ∃ full, s.locate path = .ok (.file full content false) := by
  unfold read at h
  split at h
  · next full found hlocate =>
    cases h
    exact ⟨full, hlocate⟩
  all_goals cases h

theorem find?_of_walk (h : IsName name)
    (hwalk : s.walk directory [name] = .ok (.file full content false)) :
    s.files.find? (directory ++ "/" ++ name) = some content := by
  rw [walk_name h] at hwalk
  split_ifs at hwalk
  · cases hwalk
  · split at hwalk
    · next found hfile =>
      cases hwalk
      exact hfile
    · cases hwalk

/-- A file has the content that was written. -/
theorem read_write (h : s.write path content = .ok s') :
    s'.read path = .ok content ∧ s'.workingDirectory = s.workingDirectory := by
  obtain ⟨front, name, rfl, hfront, hname⟩ := Path.exists_name path
  obtain ⟨node, full, hnode, hplace, rfl⟩ := write_ok h
  obtain ⟨hempty, hlength⟩ := locate_ok hnode
  obtain ⟨above, hproper, rfl, hfile, _, hlocate⟩ := locate_front hfront hname hnode hplace
  refine ⟨?_, rfl⟩
  refine read_of_locate ((hlocate _ name covers_store rfl hname hempty hlength).trans
    (walk_file hproper ?_ ?_))
  · rw [isDirectory_store, hfile, isPrefixOf_beside above name hname]
    rfl
  · simp [store]

/-- A file keeps its content when one with another name is written next to it. -/
theorem read_write_other {front other : Text} (hfront : Path.IsFront front)
    (hname : Path.slash ∉ name) (hname' : Path.slash ∉ name') (hne : name ≠ name')
    (h : s.read (front ++ name) = .ok content) (h' : s.write (front ++ name') other = .ok s') :
    s'.read (front ++ name) = .ok content := by
  obtain ⟨full, hnode⟩ := locate_of_read h
  obtain ⟨hempty, hlength⟩ := locate_ok hnode
  obtain ⟨node', full', hnode', hplace', rfl⟩ := write_ok h'
  obtain ⟨hempty', hlength'⟩ := locate_ok hnode'
  obtain ⟨above, hproper, rfl, hfile, hwalk, hlocate⟩ := locate_front hfront hname hnode rfl
  -- both files are in the same directory
  rw [hlocate s name' (fun _ hpath => hpath) rfl hname' hempty' hlength'] at hnode'
  obtain ⟨_, rfl, _⟩ := walk_name_place hnode' hplace'
  refine read_of_locate ((hlocate _ name covers_store rfl hname hempty hlength).trans
    (walk_file hproper ?_ ?_))
  · rw [isDirectory_store, hfile, isPrefixOf_beside above name hname']
    rfl
  · have hfound := find?_of_walk hproper hwalk
    rw [List.append_assoc] at hfound
    simp [store, hne, hfound]

/-- A file keeps its content when one with another extension is written next to it. -/
theorem read_write_beside {s₁ s₂ : Storage} {wanted other : Text} (hwanted : wanted ≠ [])
    (hslash : Path.slash ∉ wanted) (h : s.write path content = .ok s₁)
    (h' : s₁.write (Path.withExtension path wanted) other = .ok s₂) :
    s₂.read path = .ok content := by
  obtain ⟨front, name, rfl, hfront, hname⟩ := Path.exists_name path
  rw [Path.withExtension_append hfront hname] at h'
  exact read_write_other hfront hname (Path.slash_notMem_withExtension hname hslash)
    (Path.withExtension_ne name hwanted).symm (read_write h).1 h'

end Storage

end AccuAsm
