import AccuAsm.Proofs.Numerals

/-!
# Listings of words

A program can become an image in two ways: straight from its words, or by way of their
listing.  The second way prints numbers, cuts the text into lines, drops comments, splits
at blanks and reads the numbers again.

There are four groups.

* Visible bytes.  Texts of visible bytes are cut where the blanks are (`Text.words_fields`).
* Lines.  `Image.listingFields_text` gets the numbers of a word back from its line, whatever
  the comment is.
* Encoders.  `Image.ofWords` is the image of words that fit.  `Image.foldlM_eq_ofWords` says
  of any encoder with the right step that it makes this image, or none if the words do not
  fit.  `Image.pack_eq_ok_iff` and `Image.assemble_eq_ok_iff` say that both ways are such
  encoders.
* Images.  `Image.Shows` says where the bytes and the lines of words are in an image.
-/

namespace AccuAsm

/-! ## Visible bytes -/

namespace Text

variable {text first : Text} {byte : UInt8}

/-- The bytes of printable ASCII characters other than the space. -/
def IsVisible (byte : UInt8) : Prop := 32 < byte.toNat ∧ byte.toNat < 127

/-- The glyph of an ASCII byte. -/
def asciiGlyph (byte : UInt8) : Glyph := .char (Char.ofNat byte.toNat)

theorem toNat_charOfNat {n : Nat} (h : n < 128) : (Char.ofNat n).toNat = n := by
  decide +revert

theorem glyphs_ascii (h : ∀ byte ∈ text, byte.toNat < 128) :
    text.glyphs = text.map asciiGlyph := by
  have hfrom (done : List Glyph) :
      glyphsFrom done 0 text = done.reverse ++ text.map asciiGlyph := by
    induction text generalizing done with
    | nil => simp [glyphsFrom]
    | cons byte rest ih =>
      have hbyte : byte < 0x80 := UInt8.lt_iff_toNat_lt.mpr (h byte List.mem_cons_self)
      have hhead : headChar? (byte :: rest) = some (Char.ofNat byte.toNat, 1) := by
        unfold headChar?
        exact if_pos hbyte
      simp only [glyphsFrom, hhead]
      rw [ih (fun other hother => h other (List.mem_cons_of_mem _ hother))]
      simp [asciiGlyph]
  exact hfrom []

theorem encode_ascii (h : ∀ byte ∈ text, byte.toNat < 128) :
    encode (text.map asciiGlyph) = text := by
  induction text with
  | nil => rfl
  | cons byte rest ih =>
    have hbyte : byte.toNat < 128 := h byte List.mem_cons_self
    have hval : (Char.ofNat byte.toNat).val.toNat = byte.toNat := toNat_charOfNat hbyte
    have hhead : (asciiGlyph byte).bytes = [byte] := by
      unfold asciiGlyph Glyph.bytes String.utf8EncodeChar
      dsimp only
      rw [hval, if_pos (by omega), UInt8.ofNat_toNat]
    have hrest : encode (rest.map asciiGlyph) = rest :=
      ih (fun other hother => h other (List.mem_cons_of_mem _ hother))
    rw [encode] at hrest ⊢
    rw [List.map_cons, List.flatMap_cons, hhead, hrest, List.singleton_append]

theorem isBlank_visible (h : IsVisible byte) : isBlank (asciiGlyph byte) = false := by
  obtain ⟨hlow, hhigh⟩ := h
  have hcode : (Char.ofNat byte.toNat).toNat = byte.toNat := toNat_charOfNat (by omega)
  simp only [isBlank, asciiGlyph, Glyph.isChar, isBlankChar, hcode, Bool.or_eq_false_iff,
    Bool.and_eq_false_iff, decide_eq_false_iff_not, beq_eq_false_iff_ne]
  omega

theorem isBlank_of_mem_map (h : ∀ byte ∈ text, IsVisible byte) :
    ∀ glyph ∈ text.map asciiGlyph, isBlank glyph = false := by
  intro glyph hglyph
  obtain ⟨byte, hbyte, rfl⟩ := List.mem_map.mp hglyph
  exact isBlank_visible (h byte hbyte)

/-- Fields with a space in front of each but the first, and perhaps one behind the last. -/
theorem splitOnP_fields {rest : List Text} {ending : Text}
    (hall : ∀ field ∈ first :: rest, ∀ byte ∈ field, IsVisible byte)
    (hending : ending = [] ∨ ending = [space]) :
    ((first ++ rest.flatMap (space :: ·) ++ ending).map asciiGlyph).splitOnP isBlank =
      (first :: rest).map (List.map asciiGlyph) ++ if ending = [] then [] else [[]] := by
  have hspace : isBlank (asciiGlyph space) = true := by decide
  induction rest generalizing first with
  | nil =>
    have hfirst := isBlank_of_mem_map (hall first List.mem_cons_self)
    rcases hending with rfl | rfl
    · simpa using List.splitOnP_eq_singleton hfirst
    · simpa using List.splitOnP_append_cons_of_forall_mem hfirst (asciiGlyph space) hspace []
  | cons next rest ih =>
    have hfirst := isBlank_of_mem_map (hall first List.mem_cons_self)
    have hrest := ih (fun field hfield => hall field (List.mem_cons_of_mem _ hfield))
    rw [List.flatMap_cons, List.cons_append, List.append_assoc, List.cons_append, List.map_append,
      List.map_cons, List.splitOnP_append_cons_of_forall_mem hfirst _ hspace, hrest]
    rfl

theorem words_fields {rest : List Text} {ending : Text}
    (hall : ∀ field ∈ first :: rest, ∀ byte ∈ field, IsVisible byte)
    (hnonempty : ∀ field ∈ first :: rest, field ≠ [])
    (hending : ending = [] ∨ ending = [space]) :
    (first ++ rest.flatMap (space :: ·) ++ ending).words = first :: rest := by
  have hascii : ∀ byte ∈ first ++ rest.flatMap (space :: ·) ++ ending, byte.toNat < 128 := by
    intro byte hbyte
    have hspace : space.toNat < 128 := by decide
    rw [List.mem_append, List.mem_append, List.mem_flatMap] at hbyte
    rcases hbyte with (hbyte | ⟨field, hfield, hbyte⟩) | hbyte
    · have := (hall first List.mem_cons_self byte hbyte).2
      omega
    · rcases List.mem_cons.mp hbyte with rfl | hbyte
      · exact hspace
      · have := (hall field (List.mem_cons_of_mem _ hfield) byte hbyte).2
        omega
    · rcases hending with rfl | rfl
      · cases hbyte
      · rw [List.mem_singleton.mp hbyte]
        exact hspace
  rw [words, glyphs_ascii hascii, splitOnP_fields hall hending, List.filter_append]
  have hkept : ((first :: rest).map (List.map asciiGlyph)).filter (!·.isEmpty) =
      (first :: rest).map (List.map asciiGlyph) := by
    refine List.filter_eq_self.mpr ?_
    intro part hpart
    obtain ⟨field, hfield, rfl⟩ := List.mem_map.mp hpart
    simpa using hnonempty field hfield
  have hdropped : (if ending = [] then ([] : List (List Glyph)) else [[]]).filter (!·.isEmpty) =
      [] := by
    split <;> rfl
  rw [hkept, hdropped, List.append_nil, List.map_map]
  refine (List.map_congr_left ?_).trans (List.map_id _)
  intro field hfield
  refine encode_ascii ?_
  intro byte hbyte
  have := (hall field hfield byte hbyte).2
  omega

theorem before_of_notMem {mark : Text} {byte : UInt8} (h : byte ∉ text) :
    before text (byte :: mark) = text := by
  unfold before
  induction text with
  | nil => rfl
  | cons head rest ih =>
    have hhead : byte ≠ head := fun heq => h (heq ▸ List.mem_cons_self)
    have hrest : byte ∉ rest := fun hmem => h (List.mem_cons_of_mem _ hmem)
    rw [beforeFrom, if_neg (by simp [List.isPrefixOf, hhead]), beforeFrom_eq_append, ih hrest]
    rfl

end Text

/-! ## Lines -/

theorem Numeral.isVisible_of_mem_decimal {n : Int} {byte : UInt8} (h : byte ∈ decimal n) :
    Text.IsVisible byte ∧ byte ≠ ascii ';' ∧ byte ≠ ascii '/' := by
  have hsign : (ascii '-').toNat = 45 := by decide
  have hsemicolon : (ascii ';').toNat = 59 := by decide
  have hslash : (ascii '/').toNat = 47 := by decide
  have hbyte : byte.toNat = 45 ∨ 48 ≤ byte.toNat ∧ byte.toNat ≤ 57 := by
    rcases mem_decimal h with rfl | hdigit
    · exact .inl hsign
    · exact .inr hdigit
  refine ⟨⟨by omega, by omega⟩, ?_, ?_⟩
  · rintro rfl
    omega
  · rintro rfl
    omega

theorem Numeral.decimal_ne_nil (n : Int) : decimal n ≠ [] := by
  unfold decimal
  split
  · simp
  · exact inBase_ne_nil n.natAbs

namespace Word

variable {w : Word} {byte : UInt8}

/-- The numbers of a line. -/
def numbers (w : Word) : Text :=
  Numeral.ofWord w.opcode ++ (w.args.toList.map Numeral.ofWord).flatMap (Text.space :: ·)

/-- The space between the numbers and a comment. -/
def gap (w : Word) : Text := if w.comment.isEmpty then [] else [Text.space]

theorem gap_cases (w : Word) : w.gap = [] ∨ w.gap = [Text.space] := by
  unfold gap
  split
  · exact .inl rfl
  · exact .inr rfl

/-- Behind the numbers stands nothing, or a semicolon and the comment. -/
theorem text_eq (w : Word) : w.text = w.numbers ++ w.gap ∨
    w.text = w.numbers ++ w.gap ++ ascii ';' :: Text.space :: w.comment := by
  have htext : w.text = w.numbers ++
      if w.comment.isEmpty then [] else Text.ofString " ; " ++ w.comment := rfl
  rw [htext]
  unfold gap
  split
  · exact .inl rfl
  · refine .inr ?_
    rw [List.append_assoc]
    rfl

theorem exists_of_mem_fields {field : Text} (h : field ∈ w.fields.map Numeral.ofWord) :
    ∃ n, field = Numeral.decimal n := by
  obtain ⟨n, _, rfl⟩ := List.mem_map.mp h
  exact ⟨n.toInt, rfl⟩

/-- A byte in front of the comment is a space or one of a number. -/
theorem mem_numbers_gap (h : byte ∈ w.numbers ++ w.gap) :
    byte = Text.space ∨ ∃ n, byte ∈ Numeral.decimal n := by
  unfold numbers at h
  rw [List.mem_append, List.mem_append, List.mem_flatMap] at h
  rcases h with (h | ⟨field, hfield, h⟩) | h
  · exact .inr ⟨w.opcode.toInt, h⟩
  · obtain ⟨n, rfl⟩ := exists_of_mem_fields (List.mem_cons_of_mem _ hfield)
    rcases List.mem_cons.mp h with heq | h
    · exact .inl heq
    · exact .inr ⟨n, h⟩
  · rcases w.gap_cases with hnil | hone
    · rw [hnil] at h
      cases h
    · rw [hone] at h
      exact .inl (List.mem_singleton.mp h)

theorem newline_notMem_text (h : Text.newline ∉ w.comment) : Text.newline ∉ w.text := by
  have hspace : Text.newline ≠ Text.space := by decide
  have hsemicolon : Text.newline ≠ ascii ';' := by decide
  have hnumbers : Text.newline ∉ w.numbers ++ w.gap := by
    intro hmem
    rcases mem_numbers_gap hmem with heq | ⟨n, hmem⟩
    · exact hspace heq
    · have hvisible := (Numeral.isVisible_of_mem_decimal hmem).1.1
      have hnewline : Text.newline.toNat = 10 := by decide
      omega
  rcases w.text_eq with htext | htext
  · rwa [htext]
  · rw [htext, List.mem_append, List.mem_cons, List.mem_cons]
    rintro (hmem | heq | heq | hmem)
    · exact hnumbers hmem
    · exact hsemicolon heq
    · exact hspace heq
    · exact h hmem

theorem takeWhile_text (w : Word) :
    w.text.takeWhile (· ≠ ascii ';') = w.numbers ++ w.gap := by
  have hclear : ∀ byte ∈ w.numbers ++ w.gap, decide (byte ≠ ascii ';') = true := by
    intro byte hbyte
    refine decide_eq_true ?_
    rcases mem_numbers_gap hbyte with rfl | ⟨n, hbyte⟩
    · decide
    · exact (Numeral.isVisible_of_mem_decimal hbyte).2.1
  rcases w.text_eq with htext | htext
  · rw [htext, List.takeWhile_eq_self_iff]
    exact hclear
  · rw [htext, List.takeWhile_append_of_pos hclear]
    simp

end Word

namespace Image

/-- The fields of the line of a word are its numbers. -/
theorem listingFields_text (w : Word) : listingFields w.text = w.fields.map Numeral.ofWord := by
  have hbefore : Text.before (w.numbers ++ w.gap) "//" = w.numbers ++ w.gap := by
    refine Text.before_of_notMem fun hslash => ?_
    rcases Word.mem_numbers_gap hslash with heq | ⟨n, hslash⟩
    · exact absurd heq (by decide)
    · exact (Numeral.isVisible_of_mem_decimal hslash).2.2 rfl
  rw [listingFields, w.takeWhile_text, hbefore]
  refine @Text.words_fields (Numeral.ofWord w.opcode) (w.args.toList.map Numeral.ofWord) w.gap
    ?_ ?_ w.gap_cases
  · intro field hfield byte hbyte
    obtain ⟨n, rfl⟩ := Word.exists_of_mem_fields hfield
    exact (Numeral.isVisible_of_mem_decimal hbyte).1
  · intro field hfield
    obtain ⟨n, rfl⟩ := Word.exists_of_mem_fields hfield
    exact Numeral.decimal_ne_nil n

end Image

/-! ## Encoders -/

section Except

variable {ε α β : Type}

theorem toOption_bind (x : Except ε α) (f : α → Except ε β) :
    (x >>= f).toOption = x.toOption.bind fun a => (f a).toOption := by
  cases x <;> rfl

theorem eq_ok_iff {x : Except ε α} {p : Prop} [Decidable p] {a : α}
    (h : x.toOption = if p then some a else none) (found : α) : x = .ok found ↔ p ∧ found = a := by
  by_cases hp : p
  · rw [if_pos hp] at h
    cases x with
    | error e => cases h
    | ok b =>
      cases h
      simp [hp, eq_comm]
  · rw [if_neg hp] at h
    cases x with
    | error e => simp [hp]
    | ok b => cases h

theorem toOption_mapM {f : α → Except ε β} {g : α → β} {p : α → Prop} [DecidablePred p]
    (hf : ∀ a, (f a).toOption = if p a then some (g a) else none) (l : List α) :
    (l.mapM f).toOption = if ∀ a ∈ l, p a then some (l.map g) else none := by
  induction l with
  | nil => simp [Except.toOption, pure, Except.pure]
  | cons a rest ih =>
    rw [List.mapM_cons, toOption_bind, hf]
    by_cases ha : p a
    · rw [if_pos ha, Option.bind_some, toOption_bind, ih]
      by_cases hrest : ∀ a ∈ rest, p a
      · rw [if_pos hrest, if_pos (List.forall_mem_cons.mpr ⟨ha, hrest⟩)]
        rfl
      · rw [if_neg hrest, if_neg (fun hall => hrest (List.forall_mem_cons.mp hall).2)]
        rfl
    · rw [if_neg ha, if_neg (fun hall => ha (List.forall_mem_cons.mp hall).1)]
      rfl

end Except

/-- The byte of a number that fits: what is left of it modulo 256. -/
def lowByte (n : Int64) : UInt8 := UInt8.ofNat (n.toInt % 256).toNat

namespace Word

/-- Whether every number is a byte, with a sign or without one. -/
def Fits (w : Word) : Prop := ∀ n ∈ w.fields, -128 ≤ n.toInt ∧ n.toInt ≤ 255

instance (w : Word) : Decidable w.Fits :=
  inferInstanceAs (Decidable (∀ n ∈ w.fields, -128 ≤ n.toInt ∧ n.toInt ≤ 255))

/-- The bytes of a word. -/
def bytes (w : Word) : List UInt8 := w.fields.map lowByte

theorem length_bytes (w : Word) : w.bytes.length = 4 := rfl

end Word

/-- Whether there is an address for every word, and every number is a byte. -/
def Packable (words : List Word) : Prop := words.length ≤ 16384 ∧ ∀ w ∈ words, w.Fits

instance (words : List Word) : Decidable (Packable words) :=
  inferInstanceAs (Decidable (_ ∧ _))

theorem packable_concat {words : List Word} {w : Word} :
    Packable (words ++ [w]) ↔ Packable words ∧ words.length < 16384 ∧ w.Fits := by
  simp only [Packable, List.length_append, List.length_singleton, List.forall_mem_append,
    List.forall_mem_singleton]
  constructor
  · rintro ⟨hlength, hwords, hw⟩
    exact ⟨⟨by omega, hwords⟩, by omega, hw⟩
  · rintro ⟨⟨_, hwords⟩, hlength, hw⟩
    exact ⟨by omega, hwords, hw⟩

namespace Image

/-- The image with one more word, whose line is given by `line`. -/
def extend (line : Word → Nat → Int) (image : Image) (w : Word) (index : Nat) : Image where
  bytes := image.bytes ++ w.bytes
  map := image.map.insert (UInt16.ofNat (4 * index)) (line w index)

/-- The image of words that fit. -/
def ofWords (line : Word → Nat → Int) (words : List Word) : Image :=
  words.zipIdx.foldl (fun image entry => image.extend line entry.1 entry.2) {}

variable {line : Word → Nat → Int} {words : List Word} {w : Word}

theorem ofWords_concat :
    ofWords line (words ++ [w]) = (ofWords line words).extend line w words.length := by
  simp [ofWords, List.zipIdx_append]

theorem toList_bytes_ofWords : (ofWords line words).bytes.toList = words.flatMap Word.bytes := by
  induction words using List.reverseRecOn with
  | nil => rfl
  | append_singleton words w ih => simp [ofWords_concat, extend, ih]

theorem bytes_ofWords_eq {line' : Word → Nat → Int} :
    (ofWords line words).bytes = (ofWords line' words).bytes := by
  refine Array.toList_inj.mp ?_
  rw [toList_bytes_ofWords, toList_bytes_ofWords]

theorem size_bytes_ofWords : (ofWords line words).bytes.size = 4 * words.length := by
  induction words using List.reverseRecOn with
  | nil => rfl
  | append_singleton words w ih =>
    rw [ofWords_concat, List.length_append, List.length_singleton, Nat.mul_add, ← ih]
    show ((ofWords line words).bytes ++ w.bytes).size = _
    rw [← Array.length_toList, Array.toList_appendList, List.length_append, Word.length_bytes,
      Array.length_toList]

/-- An encoder whose step appends one word, if it fits and has an address, makes the image of the
words, or none if they do not fit. -/
theorem foldlM_eq_ofWords {ε : Type} {step : Image → Nat → Word → Except ε Image}
    (hstep : ∀ image index w, image.bytes.size = 4 * index → (step image index w).toOption =
      if index < 16384 ∧ w.Fits then some (image.extend line w index) else none)
    (words : List Word) :
    (words.zipIdx.foldlM (fun image entry => step image entry.2 entry.1) {}).toOption =
      if Packable words then some (ofWords line words) else none := by
  induction words using List.reverseRecOn with
  | nil => rfl
  | append_singleton words w ih =>
    have hlast (image : Image) : [(w, words.length)].foldlM
        (fun image entry => step image entry.2 entry.1) image = step image words.length w := by
      simp
    rw [List.zipIdx_append, List.foldlM_append, toOption_bind, ih, Nat.zero_add,
      List.zipIdx_singleton]
    by_cases hwords : Packable words
    · rw [if_pos hwords, Option.bind_some, hlast, hstep _ _ _ size_bytes_ofWords, ofWords_concat]
      exact if_congr (by rw [packable_concat]; tauto) rfl rfl
    · rw [if_neg hwords, if_neg (fun hconcat => hwords (packable_concat.mp hconcat).1)]
      rfl

theorem toOption_mapM_fields {ε : Type} {f : Int64 → Except ε UInt8}
    (hf : ∀ n, (f n).toOption =
      if -128 ≤ n.toInt ∧ n.toInt ≤ 255 then some (lowByte n) else none) (w : Word) :
    (w.fields.mapM f).toOption = if w.Fits then some w.bytes else none := by
  rw [toOption_mapM hf]
  by_cases hfits : w.Fits
  · rw [if_pos hfits]
    exact if_pos hfits
  · rw [if_neg hfits]
    exact if_neg hfits

theorem toOption_wordByte (index : Nat) (number : Int) (n : Int64) :
    (wordByte index number n).toOption =
      if -128 ≤ n.toInt ∧ n.toInt ≤ 255 then some (lowByte n) else none := by
  unfold wordByte byte?
  split_ifs <;> rfl

/-- A number that is written and read again has the byte that it had before. -/
theorem toOption_fieldByte (number : Nat) (n : Int64) :
    (fieldByte number (Numeral.ofWord n)).toOption =
      if -128 ≤ n.toInt ∧ n.toInt ≤ 255 then some (lowByte n) else none := by
  unfold fieldByte
  rw [Numeral.ofWord, number?_decimal]
  by_cases hrange : -2147483648 ≤ n.toInt ∧ n.toInt ≤ 2147483647
  · rw [if_pos hrange]
    unfold byte?
    dsimp only
    split_ifs <;> rfl
  · rw [if_neg hrange, if_neg (by omega)]
    rfl

theorem toOption_addWord {image : Image} {index : Nat} (w : Word) :
    (image.addWord index w).toOption = if index < 16384 ∧ w.Fits then
      some (image.extend (fun w _ => w.line) w index) else none := by
  unfold addWord
  dsimp only
  by_cases hindex : index < 16384
  · rw [if_neg (by rw [lastAddress, instructionWidth]; omega), toOption_bind,
      toOption_mapM_fields (toOption_wordByte index w.line)]
    by_cases hfits : w.Fits
    · rw [if_pos hfits, if_pos ⟨hindex, hfits⟩, extend, Nat.mul_comm 4 index]
      rfl
    · rw [if_neg hfits, if_neg (fun h => hfits h.2)]
      rfl
  · rw [if_pos (by rw [lastAddress, instructionWidth]; omega), if_neg (fun h => hindex h.1)]
    rfl

theorem toOption_addLine {image : Image} {index : Nat} (w : Word)
    (hsize : image.bytes.size = 4 * index) :
    (image.addLine (index + 1) w.text).toOption = if index < 16384 ∧ w.Fits then
      some (image.extend (fun _ index => (index + 1 : Nat)) w index) else none := by
  unfold addLine
  rw [listingFields_text, hsize]
  dsimp only
  rw [if_neg (by simp [Word.fields]), if_neg (by simp [Word.fields, Args.toList, instructionWidth])]
  by_cases hindex : index < 16384
  · rw [if_neg (by rw [lastAddress]; omega), List.mapM_map, toOption_bind,
      @toOption_mapM_fields _ (fieldByte (index + 1) ∘ Numeral.ofWord)
        (toOption_fieldByte (index + 1))]
    by_cases hfits : w.Fits
    · rw [if_pos hfits, if_pos ⟨hindex, hfits⟩]
      rfl
    · rw [if_neg hfits, if_neg (fun h => hfits h.2)]
      rfl
  · rw [if_pos (by rw [lastAddress]; omega), if_neg (fun h => hindex h.1)]
    rfl

/-- An image of words maps addresses to the source lines of the words. -/
theorem pack_eq_ok_iff (words : List Word) (image : Image) :
    pack words = .ok image ↔ Packable words ∧ image = ofWords (fun w _ => w.line) words :=
  eq_ok_iff (foldlM_eq_ofWords (fun _ _ w _ => toOption_addWord w) words) image

end Image

/-- The listing of a program: a line for each word. -/
def listingText (words : List Word) : Text := words.flatMap (·.text ++ [Text.newline])

/-- Rows with a line end behind each of them. -/
def Text.ofRows (rows : List Text) : Text := rows.flatMap (· ++ [newline])

theorem Text.lines_ofRows {rows : List Text} (h : ∀ row ∈ rows, newline ∉ row) :
    (ofRows rows).lines = rows ++ [[]] := by
  unfold lines ofRows
  induction rows with
  | nil => rfl
  | cons row rest ih =>
    have hrest := ih fun other hother => h other (List.mem_cons_of_mem _ hother)
    rw [List.flatMap_cons, List.append_assoc, List.singleton_append,
      List.splitOn_append_cons_self_of_not_mem (h row List.mem_cons_self), hrest, List.cons_append]

theorem lines_listingText {words : List Word} (h : ∀ w ∈ words, Text.newline ∉ w.comment) :
    (listingText words).lines = words.map Word.text ++ [[]] := by
  have hrows : listingText words = Text.ofRows (words.map Word.text) := by
    rw [Text.ofRows, List.flatMap_map, listingText]
  rw [hrows]
  refine Text.lines_ofRows fun row hrow => ?_
  obtain ⟨w, hw, rfl⟩ := List.mem_map.mp hrow
  exact Word.newline_notMem_text (h w hw)

namespace Image

/-- An image of a listing maps addresses to the lines of the listing. -/
theorem assemble_eq_ok_iff {words : List Word} (h : ∀ w ∈ words, Text.newline ∉ w.comment)
    (image : Image) : assemble (listingText words) = .ok image ↔
      Packable words ∧ image = ofWords (fun _ index => (index + 1 : Nat)) words := by
  have hlines : (listingText words).lines.zipIdx 1 =
      words.zipIdx.map (fun entry => (entry.1.text, entry.2 + 1)) ++ [([], words.length + 1)] := by
    rw [lines_listingText h, List.zipIdx_append, List.zipIdx_map, List.length_map,
      List.zipIdx_singleton, Nat.add_comm 1, List.zipIdx_succ, List.map_map]
    rfl
  -- the last line end is followed by an empty line, which adds nothing
  have hlast (image : Image) : image.addLine (words.length + 1) [] = .ok image := by
    rfl
  have hfold := foldlM_eq_ofWords
    (fun (image : Image) index (w : Word) hsize => @toOption_addLine image index w hsize) words
  refine eq_ok_iff ?_ image
  unfold assemble
  rw [hlines, List.foldlM_append, List.foldlM_map, toOption_bind, hfold]
  by_cases hwords : Packable words
  · simp only [if_pos hwords, Option.bind_some, List.foldlM_cons, List.foldlM_nil, hlast]
    rfl
  · rw [if_neg hwords, Option.bind_none]

/-! ## Images -/

/-- An image has the bytes of the words in their order, four for each, and its map has the address
of every word and no other, with the line that `line` gives. -/
structure Shows (image : Image) (words : List Word) (line : Word → Nat → Int) : Prop where
  size : image.bytes.size = 4 * words.length
  byte : ∀ (i : Nat) (w : Word), words[i]? = some w → ∀ (j : Nat) (n : Int64),
    w.fields[j]? = some n → image.bytes[4 * i + j]? = some (UInt8.ofNat (n.toInt % 256).toNat)
  entries : image.map.size = words.length
  lines : ∀ address : UInt16, image.map[address]? =
    if address.toNat % 4 = 0 then
      words[address.toNat / 4]?.map fun w => line w (address.toNat / 4)
    else none

section Shows

variable {line : Word → Nat → Int} {words : List Word}

theorem getElem?_flatMap_bytes {i j : Nat} {w : Word} {n : Int64} (hw : words[i]? = some w)
    (hn : w.fields[j]? = some n) : (words.flatMap Word.bytes)[4 * i + j]? = some (lowByte n) := by
  have hj : j < 4 := (List.getElem?_eq_some_iff.mp hn).1
  induction words generalizing i with
  | nil => cases hw
  | cons first rest ih =>
    rw [List.flatMap_cons]
    cases i with
    | zero =>
      obtain rfl : first = w := Option.some.inj hw
      rw [List.getElem?_append_left (by rw [Word.length_bytes]; omega), Nat.mul_zero, Nat.zero_add,
        Word.bytes, List.getElem?_map, hn]
      rfl
    | succ i =>
      rw [List.getElem?_append_right (by rw [Word.length_bytes]; omega), Word.length_bytes,
        show 4 * (i + 1) + j - 4 = 4 * i + j by omega]
      exact ih hw

/-- An address of a word has sixteen bits. -/
theorem toNat_address {index : Nat} (h : index < 16384) :
    (UInt16.ofNat (4 * index)).toNat = 4 * index :=
  UInt16.toNat_ofNat_of_lt' (by rw [UInt16.size]; omega)

theorem getElem?_map_ofWords (h : words.length ≤ 16384) (address : UInt16) :
    (ofWords line words).map[address]? =
      if address.toNat % 4 = 0 then
        words[address.toNat / 4]?.map fun w => line w (address.toNat / 4)
      else none := by
  induction words using List.reverseRecOn with
  | nil =>
    show (∅ : SourceMap)[address]? = _
    simp
  | append_singleton words w ih =>
    rw [List.length_append, List.length_singleton] at h
    -- four times the number of a word is an address, so only the new one has this key
    have hkey : compare (UInt16.ofNat (4 * words.length)) address = .eq ↔
        address.toNat = 4 * words.length := by
      rw [Std.compare_eq_iff_eq, ← UInt16.toNat_inj, toNat_address (by omega)]
      exact eq_comm
    rw [ofWords_concat]
    show (Std.TreeMap.insert _ _ _)[address]? = _
    rw [Std.TreeMap.getElem?_insert, ih (by omega)]
    by_cases hnew : address.toNat = 4 * words.length
    · have hindex : address.toNat / 4 = words.length := by omega
      rw [if_pos (hkey.mpr hnew), if_pos (by omega), hindex]
      simp
    · rw [if_neg (fun heq => hnew (hkey.mp heq))]
      by_cases haligned : address.toNat % 4 = 0
      · rw [if_pos haligned, if_pos haligned]
        by_cases hold : address.toNat / 4 < words.length
        · rw [List.getElem?_append_left hold]
        · rw [List.getElem?_eq_none (by omega),
            List.getElem?_eq_none (by rw [List.length_append, List.length_singleton]; omega)]
      · rw [if_neg haligned, if_neg haligned]

theorem size_map_ofWords (h : words.length ≤ 16384) :
    (ofWords line words).map.size = words.length := by
  induction words using List.reverseRecOn with
  | nil => rfl
  | append_singleton words w ih =>
    rw [List.length_append, List.length_singleton] at h ⊢
    have hfresh : (ofWords line words).map[UInt16.ofNat (4 * words.length)]? = none := by
      rw [getElem?_map_ofWords (by omega), toNat_address (by omega),
        Nat.mul_div_cancel_left _ (by omega)]
      simp
    rw [ofWords_concat]
    show (Std.TreeMap.insert _ _ _).size = _
    rw [Std.TreeMap.size_insert, Std.TreeMap.contains_eq_isSome_getElem?, hfresh, ih (by omega)]
    rfl

theorem shows_ofWords (h : words.length ≤ 16384) : (ofWords line words).Shows words line where
  size := size_bytes_ofWords
  byte i w hw j n hn := by
    rw [← Array.getElem?_toList, toList_bytes_ofWords]
    exact getElem?_flatMap_bytes hw hn
  entries := size_map_ofWords h
  lines := getElem?_map_ofWords h

end Shows

end Image

end AccuAsm
