import AccuAsm.Proofs.Delivery

/-!
# Default outputs

Without a name for it, an output is named after the input.  `build` and `pack` then leave the
input as it is and keep everything they write, with one exception: the map of an image takes the
place of an input that is itself called `.map`.

There are three groups.

* Names.  An output has the extension that was wanted.  It differs from the path it is named
  after, but the second of two outputs is the input again if the input has its extension
  (`Path.withExtension_withExtension_eq_iff`).
* Spared files.  `Spares` says that an action leaves a file as it is, whether it succeeds or not.
* Commands.  `default_outputs` says what becomes of the input and of the outputs.
-/

namespace AccuAsm

/-! ## Names -/

namespace Path

variable {path wanted first second : Text}

/-- A dot and a word without further dots. -/
def IsExtension (wanted : Text) : Prop :=
  ∃ word, wanted = ascii '.' :: word ∧ ascii '.' ∉ word ∧ slash ∉ word

theorem isExtension_tc : IsExtension ".tc" := ⟨"tc", by decide⟩

theorem isExtension_bin : IsExtension ".bin" := ⟨"bin", by decide⟩

theorem isExtension_map : IsExtension ".map" := ⟨"map", by decide⟩

theorem IsExtension.ne_nil (h : IsExtension wanted) : wanted ≠ [] := by
  obtain ⟨word, rfl, _⟩ := h
  exact List.cons_ne_nil _ _

theorem IsExtension.slash_notMem (h : IsExtension wanted) : slash ∉ wanted := by
  obtain ⟨word, rfl, _, hslash⟩ := h
  rw [List.mem_cons, not_or]
  exact ⟨by decide, hslash⟩

theorem IsExtension.extension_append (h : IsExtension wanted) (path : Text) :
    extension (path ++ wanted) = wanted := by
  obtain ⟨front, name, rfl, hfront, hname⟩ := exists_name path
  have hslash : slash ∉ name ++ wanted := by
    rw [List.mem_append, not_or]
    exact ⟨hname, h.slash_notMem⟩
  unfold extension
  rw [List.append_assoc, takeWhile_reverse hfront hslash]
  dsimp only
  obtain ⟨word, rfl, hdot, _⟩ := h
  have hword : ∀ byte ∈ word.reverse, decide (byte ≠ ascii '.') = true := by
    intro byte hbyte
    refine decide_eq_true ?_
    rintro rfl
    exact hdot (List.mem_reverse.mp hbyte)
  rw [List.reverse_append, List.reverse_cons, List.append_assoc, List.singleton_append,
    List.dropWhile_append_of_pos hword, List.takeWhile_append_of_pos hword]
  simp

theorem extension_withExtension (h : IsExtension wanted) (path : Text) :
    extension (withExtension path wanted) = wanted := by
  rcases withExtension_cases path wanted with ⟨_, hsame⟩ | ⟨_, stem, _, hsame⟩
  · rw [hsame, h.extension_append]
  · rw [hsame, h.extension_append]

/-- An output of an output is named after the same stem. -/
theorem withExtension_withExtension (hfirst : IsExtension first) (hne : first ≠ second)
    {stem : Text} (hstem : withExtension path first = stem ++ first) :
    withExtension (withExtension path first) second = stem ++ second := by
  have hold := extension_withExtension hfirst path
  rcases withExtension_cases (withExtension path first) second with
    ⟨hsame, _⟩ | ⟨_, other, hother, hsecond⟩
  · rw [hold] at hsame
    exact absurd hsame (not_or.mpr ⟨hfirst.ne_nil, hne⟩)
  · rw [hold, hstem] at hother
    rw [hsecond, List.append_cancel_right hother]

theorem withExtension_withExtension_eq_iff (hfirst : IsExtension first)
    (hsecond : IsExtension second) (hne : first ≠ second) (path : Text) :
    withExtension (withExtension path first) second = path ↔ extension path = second := by
  rcases withExtension_cases path first with ⟨hold, hsame⟩ | ⟨_, stem, hpath, hsame⟩
  · -- the whole path stands in front of the extension, so the output is longer
    rw [withExtension_withExtension hfirst hne hsame]
    refine iff_of_false (by simpa using hsecond.ne_nil) ?_
    rintro rfl
    exact hold.elim hsecond.ne_nil fun heq => hne heq.symm
  · rw [withExtension_withExtension hfirst hne hsame]
    constructor
    · intro heq
      exact List.append_cancel_left (hpath.symm.trans heq.symm)
    · intro heq
      rw [← heq, ← hpath]

/-- Two paths in the same place that differ in their names. -/
def Beside (path other : Text) : Prop :=
  ∃ front name name', IsFront front ∧ path = front ++ name ∧ other = front ++ name' ∧
    slash ∉ name ∧ slash ∉ name' ∧ name ≠ name'

theorem exists_withExtension (h : IsExtension wanted) {front name : Text} (hfront : IsFront front)
    (hname : slash ∉ name) :
    ∃ name', withExtension (front ++ name) wanted = front ++ name' ∧ slash ∉ name' :=
  ⟨withExtension name wanted, withExtension_append hfront hname wanted,
    slash_notMem_withExtension hname h.slash_notMem⟩

theorem beside_withExtension (h : IsExtension wanted) (path : Text) :
    Beside path (withExtension path wanted) := by
  obtain ⟨front, name, rfl, hfront, hname⟩ := exists_name path
  obtain ⟨name', hpath', hname'⟩ := exists_withExtension h hfront hname
  refine ⟨front, name, name', hfront, rfl, hpath', hname, hname', ?_⟩
  rintro rfl
  exact withExtension_ne _ h.ne_nil hpath'

theorem beside_withExtension_withExtension (hfirst : IsExtension first)
    (hsecond : IsExtension second) (hne : first ≠ second) (hpath : extension path ≠ second) :
    Beside path (withExtension (withExtension path first) second) := by
  have hdiffer := mt (withExtension_withExtension_eq_iff hfirst hsecond hne path).mp hpath
  obtain ⟨front, name, rfl, hfront, hname⟩ := exists_name path
  obtain ⟨name₁, hpath₁, hname₁⟩ := exists_withExtension hfirst hfront hname
  obtain ⟨name₂, hpath₂, hname₂⟩ := exists_withExtension hsecond hfront hname₁
  rw [← hpath₁] at hpath₂
  refine ⟨front, name, name₂, hfront, rfl, hpath₂, hname, hname₂, ?_⟩
  rintro rfl
  exact hdiffer hpath₂

end Path

theorem Storage.read_write_of_beside {s s' : Storage} {path other content written : Text}
    (hbeside : Path.Beside path other) (h : s.read path = .ok content)
    (h' : s.write other written = .ok s') : s'.read path = .ok content := by
  obtain ⟨front, name, name', hfront, rfl, rfl, hname, hname', hne⟩ := hbeside
  exact read_write_other hfront hname hname' hne h h'

namespace CommandLine

open AccuAsm.CommandLine.Action

/-! ## Spared files -/

section Spares

variable {α β : Type} {path : Text} {c : Console}

/-- A file that could be read has the same content behind the action, also if the action fails. -/
def Spares (action : Action α) (c : Console) (path : Text) : Prop :=
  ∀ content, c.storage.read path = .ok content →
    (on action c).2.storage.read path = .ok content

theorem Spares.of_quiet {action : Action α} (h : Quiet action) : Spares action c path := by
  intro content hread
  rw [h c]
  exact hread

theorem Spares.bind {x : Action α} {f : α → Action β} (hx : Spares x c path)
    (hf : ∀ a c', on x c = (.ok a, c') → Spares (f a) c' path) : Spares (x >>= f) c path := by
  intro content hread
  have hbehind := hx content hread
  rw [on_bind]
  rcases hon : on x c with ⟨message | a, c'⟩
  · rwa [hon] at hbehind
  · rw [hon] at hbehind
    exact hf a c' hon content hbehind

theorem spares_writeFile {other : Text} (h : Path.Beside path other) (message : Text → Text)
    (content : Text) : Spares (writeFile message other content) c path := by
  intro kept hread
  cases hwrite : c.storage.write other content with
  | ok s =>
    rw [on_writeFile_ok hwrite]
    exact Storage.read_write_of_beside h hread hwrite
  | error e =>
    rw [on_writeFile_error hwrite]
    exact hread

end Spares

/-! ## Commands -/

/-- The path of the listing of a source. -/
def listingPath (input : Text) : Text := Path.withExtension input ".tc"

/-- The path of the image of a source or of a listing. -/
def imagePath (input : Text) : Text := Path.withExtension input ".bin"

/-- The path of the map of the image. -/
def mapPath (input : Text) : Text := Path.withExtension (imagePath input) ".map"

theorem mapPath_eq_iff (input : Text) : mapPath input = input ↔ Path.extension input = ".map" :=
  Path.withExtension_withExtension_eq_iff Path.isExtension_bin Path.isExtension_map (by decide)
    input

theorem outputPath_of_out {o : Options} (h : o.out = []) (input wanted : Text) :
    outputPath o input wanted = Path.withExtension input wanted := by
  rw [outputPath, h]
  rfl

/-- Both files of an image have their contents. -/
def Holds (s : Storage) (input : Text) (image : Image) : Prop :=
  s.read (imagePath input) = .ok image.bytes.toList ∧ s.read (mapPath input) = .ok image.map.text

theorem Holds.replaced {s : Storage} {input : Text} {image : Image} (h : Holds s input image)
    (hmap : Path.extension input = ".map") : s.read input = .ok image.map.text := by
  rw [← h.2, (mapPath_eq_iff input).mpr hmap]

/-- The end of both commands that make an image: the image, its map, and some words. -/
def writeImage (input : Text) (image : Image) (before : Action Unit) (after : Text → Action Unit) :
    Action Unit := do
  Action.writeFile (writeFailure (imagePath input)) (imagePath input) image.bytes.toList
  before
  let path ← writeSourceMap (imagePath input) image.map
  after path

theorem spares_writeImage {before : Action Unit} {after : Text → Action Unit} {input : Text}
    {c : Console} (hbefore : Quiet before) (hafter : ∀ path, Quiet (after path))
    (hinput : Path.extension input ≠ ".map") (image : Image) :
    Spares (writeImage input image before after) c input := by
  refine (spares_writeFile (Path.beside_withExtension Path.isExtension_bin input) _ _).bind ?_
  intro _ c₁ _
  refine (Spares.of_quiet hbefore).bind ?_
  intro _ c₂ _
  have hmap : Path.Beside input (mapPath input) :=
    Path.beside_withExtension_withExtension Path.isExtension_bin Path.isExtension_map (by decide)
      hinput
  refine ((spares_writeFile hmap _ _).bind fun _ _ _ => .of_quiet (quiet_pure _)).bind ?_
  intro path c₃ _
  exact .of_quiet (hafter path)

theorem writeImage_ok {before : Action Unit} {after : Text → Action Unit} {input : Text}
    {image : Image} {c c' : Console} (hbefore : Quiet before) (hafter : ∀ path, Quiet (after path))
    (h : on (writeImage input image before after) c = (.ok (), c')) :
    Holds c'.storage input image := by
  obtain ⟨_, c₁, himage, h⟩ := on_bind_ok h
  obtain ⟨_, c₂, hon₂, h⟩ := on_bind_ok h
  obtain ⟨path, c₃, hsource, h⟩ := on_bind_ok h
  obtain ⟨_, c₄, hmap, hpure⟩ := on_bind_ok hsource
  have hwritten := Storage.read_write (writeFile_ok himage)
  rw [← hbefore.storage_eq hon₂] at hwritten
  have hlast : c'.storage = c₄.storage := by
    rw [(hafter path).storage_eq h, (quiet_pure _).storage_eq hpure]
  rw [hlast]
  refine ⟨?_, (Storage.read_write (writeFile_ok hmap)).1⟩
  exact Storage.read_write_of_beside (Path.beside_withExtension Path.isExtension_map _) hwritten.1
    (writeFile_ok hmap)

section Commands

variable {o : Options} {c c' : Console}

theorem build_of_unknown (htext : o.format ≠ "text") (hbin : o.format ≠ "bin") :
    on (build o) c =
      (.error ("unknown format " ++ o.format.quoted ++ ", want text or bin"), c) := by
  unfold build
  rw [if_pos ⟨htext, hbin⟩]
  rfl

theorem build_of_text (hout : o.out = []) (h : o.format = "text") :
    build o = (translated o >>= fun source => do
      Action.writeFile (writeFailure (listingPath source.1)) (listingPath source.1)
        (listingText source.2)
      report o source.2 (listingPath source.1)) := by
  have hbuild := build_text o
  rw [← h] at hbuild
  simp only [outputPath_of_out hout] at hbuild
  exact hbuild

theorem build_of_bin (hout : o.out = []) (h : o.format = "bin") :
    build o = (translated o >>= fun source => do
      let image ← Action.ofExcept (fun f : ImageFault => "packing failed: " ++ f.message)
        (Image.pack source.2)
      writeImage source.1 image (report o source.2 (imagePath source.1))
        fun path => Action.log o.verbose ("source map -> " ++ path)) := by
  have hbuild := build_bin o
  rw [← h] at hbuild
  simp only [outputPath_of_out hout] at hbuild
  exact hbuild

/-- The last words of `pack`. -/
def reportPacked (o : Options) (input : Text) (image : Image) (path : Text) : Action Unit := do
  Action.log o.verbose ("source map -> " ++ path)
  Action.print ("packed " ++ Numeral.ofNat image.bytes.size ++ " bytes -> " ++
    Style.green.paint (!o.noColour) (imagePath input) ++ "\n")

theorem quiet_reportPacked (o : Options) (input : Text) (image : Image) (path : Text) :
    Quiet (reportPacked o input image path) :=
  ((harmless_log _ _).bind (harmless_print _)).quiet

theorem on_pack_of_out {listing : Text} (hout : o.out = [])
    (h : c.storage.read (inputOf o c) = .ok listing) :
    on (pack o) c = on (do
      let image ← Action.ofExcept (fun f : ImageFault => "packing failed: " ++ f.message)
        (Image.assemble listing)
      writeImage (inputOf o c) image (pure ()) (reportPacked o (inputOf o c) image)) c := by
  rw [on_pack h]
  simp only [outputPath_of_out hout, writeImage, reportPacked, imagePath, pure_bind]

theorem spares_build (hout : o.out = [])
    (h : ¬(o.format = "bin" ∧ Path.extension (inputOf o c) = ".map")) :
    Spares (build o) c (inputOf o c) := by
  by_cases htext : o.format = "text"
  · rw [build_of_text hout htext]
    refine (Spares.of_quiet (quiet_translated o)).bind ?_
    rintro ⟨input, words⟩ c₁ hon
    obtain ⟨rfl, _⟩ := translated_ok hon
    refine (spares_writeFile (Path.beside_withExtension Path.isExtension_tc _) _ _).bind ?_
    intro _ c₂ _
    exact .of_quiet (harmless_print _).quiet
  by_cases hbin : o.format = "bin"
  · rw [build_of_bin hout hbin]
    refine (Spares.of_quiet (quiet_translated o)).bind ?_
    rintro ⟨input, words⟩ c₁ hon
    obtain ⟨rfl, _⟩ := translated_ok hon
    refine (Spares.of_quiet (quiet_ofExcept _ _)).bind ?_
    intro image c₂ _
    exact spares_writeImage (harmless_print _).quiet (fun _ => (harmless_log _ _).quiet)
      (fun hmap => h ⟨hbin, hmap⟩) image
  · intro content hread
    rw [build_of_unknown htext hbin]
    exact hread

theorem spares_pack (hout : o.out = []) (h : Path.extension (inputOf o c) ≠ ".map") :
    Spares (pack o) c (inputOf o c) := by
  intro listing hread
  rw [on_pack_of_out hout hread]
  refine Spares.bind (.of_quiet (quiet_ofExcept _ _)) ?_ listing hread
  intro image c₁ _
  exact spares_writeImage (quiet_pure _) (quiet_reportPacked o _ image) h image

theorem build_ok (hout : o.out = []) (h : on (build o) c = (.ok (), c')) :
    ∃ words c₁, on (translated o) c = (.ok (inputOf o c, words), c₁) ∧
      (o.format = "text" ∧
          c'.storage.read (listingPath (inputOf o c)) = .ok (listingText words) ∨
        o.format = "bin" ∧ ∃ image, Image.pack words = .ok image ∧
          Holds c'.storage (inputOf o c) image) := by
  by_cases htext : o.format = "text"
  · rw [build_of_text hout htext] at h
    obtain ⟨⟨input, words⟩, c₁, htranslated, h⟩ := on_bind_ok h
    obtain ⟨rfl, _⟩ := translated_ok htranslated
    obtain ⟨_, c₂, hwrite, h⟩ := on_bind_ok h
    refine ⟨words, c₁, htranslated, .inl ⟨htext, ?_⟩⟩
    rw [(harmless_print _).quiet.storage_eq h]
    exact (Storage.read_write (writeFile_ok hwrite)).1
  by_cases hbin : o.format = "bin"
  · rw [build_of_bin hout hbin] at h
    obtain ⟨⟨input, words⟩, c₁, htranslated, h⟩ := on_bind_ok h
    obtain ⟨rfl, _⟩ := translated_ok htranslated
    obtain ⟨image, c₂, hpack, h⟩ := on_bind_ok h
    refine ⟨words, c₁, htranslated, .inr ⟨hbin, image, (ofExcept_ok hpack).1, ?_⟩⟩
    exact writeImage_ok (harmless_print _).quiet (fun _ => (harmless_log _ _).quiet) h
  · rw [build_of_unknown htext hbin] at h
    cases h

theorem pack_ok (hout : o.out = []) (h : on (pack o) c = (.ok (), c')) :
    ∃ listing image, c.storage.read (inputOf o c) = .ok listing ∧
      Image.assemble listing = .ok image ∧ Holds c'.storage (inputOf o c) image := by
  cases hread : c.storage.read (inputOf o c) with
  | error e =>
    -- `pack` ends where it reads the listing
    unfold pack at h
    rw [on_bind_of_ok (on_inputPath o c)] at h
    obtain ⟨listing, c₁, hlisting, _⟩ := on_bind_ok h
    rw [on_readFile, hread, on_ofExcept_error] at hlisting
    cases hlisting
  | ok listing =>
    rw [on_pack_of_out hout hread] at h
    obtain ⟨image, c₁, himage, h⟩ := on_bind_ok h
    refine ⟨listing, image, rfl, (ofExcept_ok himage).1, ?_⟩
    exact writeImage_ok (quiet_pure _) (quiet_reportPacked o _ image) h

/-- Without a name for the output, no output has the path of the input, and the image and its
map have different paths, but the map of an image has the path of an input with the extension of a
map.  In all other cases `build` and `pack` leave the input as it is, whether they succeed or not.
What they write is there in the end, so an input with the extension of a map is replaced by
the map. -/
theorem default_outputs (o : Options) (c : Console) (hout : o.out = []) :
    (∀ input, outputPath o input ".tc" = listingPath input ∧
      outputPath o input ".bin" = imagePath input ∧ listingPath input ≠ input ∧
      imagePath input ≠ input ∧ mapPath input ≠ imagePath input ∧
      (mapPath input = input ↔ Path.extension input = ".map")) ∧
    (¬(o.format = "bin" ∧ Path.extension (inputOf o c) = ".map") →
      Spares (build o) c (inputOf o c)) ∧
    (Path.extension (inputOf o c) ≠ ".map" → Spares (pack o) c (inputOf o c)) ∧
    (∀ c', on (build o) c = (.ok (), c') →
      ∃ words c₁, on (translated o) c = (.ok (inputOf o c, words), c₁) ∧
        (o.format = "text" ∧
            c'.storage.read (listingPath (inputOf o c)) = .ok (listingText words) ∨
          o.format = "bin" ∧ ∃ image, Image.pack words = .ok image ∧
            Holds c'.storage (inputOf o c) image ∧
            (Path.extension (inputOf o c) = ".map" →
              c'.storage.read (inputOf o c) = .ok image.map.text))) ∧
    ∀ c', on (pack o) c = (.ok (), c') →
      ∃ listing image, c.storage.read (inputOf o c) = .ok listing ∧
        Image.assemble listing = .ok image ∧ Holds c'.storage (inputOf o c) image ∧
        (Path.extension (inputOf o c) = ".map" →
          c'.storage.read (inputOf o c) = .ok image.map.text) := by
  refine ⟨?_, spares_build hout, spares_pack hout, ?_, ?_⟩
  · intro input
    exact ⟨outputPath_of_out hout _ _, outputPath_of_out hout _ _,
      Path.withExtension_ne _ Path.isExtension_tc.ne_nil,
      Path.withExtension_ne _ Path.isExtension_bin.ne_nil,
      Path.withExtension_ne _ Path.isExtension_map.ne_nil, mapPath_eq_iff input⟩
  · intro c' hbuild
    obtain ⟨words, c₁, htranslated, hwritten | ⟨hbin, image, hpack, hholds⟩⟩ :=
      build_ok hout hbuild
    · exact ⟨words, c₁, htranslated, .inl hwritten⟩
    · exact ⟨words, c₁, htranslated, .inr ⟨hbin, image, hpack, hholds, hholds.replaced⟩⟩
  · intro c' hpack
    obtain ⟨listing, image, hread, hassemble, hholds⟩ := pack_ok hout hpack
    exact ⟨listing, image, hread, hassemble, hholds, hholds.replaced⟩

/-- One file in the working directory, a listing of one instruction. -/
def oneListing (path : Text) : Console where
  storage := { workingDirectory := "/work", files := .ofList [(path, "1 2 3 4\n")] }

theorem pack_spares_listing :
    (on (pack { positional := ["prog.tc"] }) (oneListing "/work/prog.tc")).2.storage.read
      "/work/prog.tc" = .ok "1 2 3 4\n" := by
  have hinput : inputOf { positional := ["prog.tc"] } (oneListing "/work/prog.tc") =
      "/work/prog.tc" := by
    decide
  have hspares := (default_outputs { positional := ["prog.tc"] } (oneListing "/work/prog.tc")
    rfl).2.2.1
  rw [hinput] at hspares
  exact hspares (by decide) "1 2 3 4\n" (by decide +kernel)

/-- A listing that is called `.map` is lost: its file holds the map of its image. -/
theorem map_replaces_listing :
    (oneListing "/work/prog.map").storage.read "/work/prog.map" = .ok "1 2 3 4\n" ∧
      mapPath "/work/prog.map" = "/work/prog.map" ∧
      (on (pack { positional := ["prog.map"] }) (oneListing "/work/prog.map")).2.storage.read
        "/work/prog.map" = .ok "0 1\n" := by
  decide +kernel

end Commands

end CommandLine

end AccuAsm
