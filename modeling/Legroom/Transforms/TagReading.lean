import Legroom.Transforms.TagProtector

/-!
# Reading tags

A tag ends with the first `>` that is not quoted, and what stands behind it does not
matter.  So a text can be read in pieces: a piece that ends where a tag does reads
the same whatever follows it, unless a `<` that begins no tag there comes to begin one.
-/

namespace Legroom.Transforms

open Bedrock (asciiLower)

/-! ## One tag -/

variable {bytes : Bytes}

/-- The end of a tag, found without a look behind it. -/
theorem scanAttributes_spec {selfClosing : Bool} {quote : Option Byte} {found : ℕ × Bool}
    (hscan : scanAttributes selfClosing quote bytes = some found) :
    ∃ inner rest, bytes = inner ++ greaterThan :: rest ∧ found.1 = inner.length + 1 ∧
      ∀ other, scanAttributes selfClosing quote (inner ++ greaterThan :: other) = some found := by
  induction bytes generalizing selfClosing quote found with
  | nil => cases quote <;> cases hscan
  | cons byte bytes ih =>
      have hmore : ∀ {selfClosing' quote' more},
          scanAttributes selfClosing' quote' bytes = some more → (more.1 + 1, more.2) = found →
          (∀ rest, scanAttributes selfClosing quote (byte :: rest) =
            (scanAttributes selfClosing' quote' rest).map fun found => (found.1 + 1, found.2)) →
          ∃ inner rest, byte :: bytes = inner ++ greaterThan :: rest ∧
            found.1 = inner.length + 1 ∧ ∀ other,
              scanAttributes selfClosing quote (inner ++ greaterThan :: other) = some found := by
        rintro selfClosing' quote' more hfound rfl hstep
        obtain ⟨inner, rest, hbytes, hinner, hother⟩ := ih hfound
        refine ⟨byte :: inner, rest, by rw [hbytes]; rfl, by rw [hinner]; rfl, fun other => ?_⟩
        rw [List.cons_append, hstep, hother]
        rfl
      cases quote with
      | some quote =>
          obtain ⟨more, hfound, heq⟩ := Option.map_eq_some_iff.mp hscan
          split_ifs at hfound with hend
          · exact hmore hfound heq fun rest => by rw [scanAttributes, if_pos hend]
          · exact hmore hfound heq fun rest => by rw [scanAttributes, if_neg hend]
      | none =>
          rw [scanAttributes] at hscan
          by_cases hend : byte = greaterThan
          · rw [if_pos hend] at hscan
            cases hscan
            refine ⟨[], bytes, by rw [hend]; rfl, rfl, fun other => ?_⟩
            rw [List.nil_append, scanAttributes, if_pos rfl]
          · rw [if_neg hend] at hscan
            obtain ⟨more, hfound, heq⟩ := Option.map_eq_some_iff.mp hscan
            split_ifs at hfound with hslash hquote hspace
            · exact hmore hfound heq fun rest => by
                rw [scanAttributes, if_neg hend, if_pos hslash]
            · exact hmore hfound heq fun rest => by
                rw [scanAttributes, if_neg hend, if_neg hslash, if_pos hquote]
            · exact hmore hfound heq fun rest => by
                rw [scanAttributes, if_neg hend, if_neg hslash, if_neg hquote, if_pos hspace]
            · exact hmore hfound heq fun rest => by
                rw [scanAttributes, if_neg hend, if_neg hslash, if_neg hquote, if_neg hspace]

/-- What is read as a tag: its name and its length. -/
def TagParse.tag? : TagParse → Option (Bytes × ℕ)
  | .open name length _ => some (name, length)
  | .close name length => some (name, length)
  | .notTag => none

theorem TagParse.tag?_eq_none_iff {parsed : TagParse} : parsed.tag? = none ↔ parsed = .notTag := by
  cases parsed <;> simp [TagParse.tag?]

variable {name : Bytes}

/-- A name is the same in front of anything that begins with the byte behind it. -/
theorem parseName_spec {rest : Bytes} (hname : parseName bytes = some (name, rest)) :
    bytes = name ++ rest ∧ ∀ first tail other, rest = first :: tail →
      parseName (name ++ first :: other) = some (name, first :: other) := by
  cases bytes with
  | nil => cases hname
  | cons start more =>
      rw [parseName] at hname
      split_ifs at hname with hstart
      cases hname
      refine ⟨congrArg (start :: ·) List.takeWhile_append_dropWhile.symm, ?_⟩
      intro first tail other hrest
      have hfirst : isNameCont first = false := by
        have hhead := List.head?_dropWhile_not isNameCont more
        rw [hrest, List.head?_cons] at hhead
        simpa using hhead
      have htaken : ∀ byte ∈ more.takeWhile isNameCont, isNameCont byte = true :=
        fun byte hbyte => List.all_eq_true.mp List.all_takeWhile byte hbyte
      rw [List.cons_append, parseName, if_pos hstart, List.takeWhile_append_of_pos htaken,
        List.dropWhile_append_of_pos htaken, List.takeWhile_cons_of_neg (by simp [hfirst]),
        List.dropWhile_cons_of_neg (by simp [hfirst]), List.append_nil]

theorem parseName_end {inner rest : Bytes}
    (hname : parseName bytes = some (name, inner ++ greaterThan :: rest)) (other : Bytes) :
    parseName (name ++ (inner ++ greaterThan :: other)) =
      some (name, inner ++ greaterThan :: other) := by
  cases inner with
  | nil => exact (parseName_spec hname).2 _ rest other rfl
  | cons first inner => exact (parseName_spec hname).2 first _ (inner ++ greaterThan :: other) rfl

variable {length : ℕ}

theorem parseClosing_spec (hparse : (parseClosing bytes).tag? = some (name, length)) :
    ∃ inner rest, bytes = inner ++ greaterThan :: rest ∧ length = inner.length + 3 ∧
      ∀ other, parseClosing (inner ++ greaterThan :: other) = parseClosing bytes := by
  rw [parseClosing] at hparse ⊢
  split at hparse
  · rename_i found rest hname
    split_ifs at hparse with hend
    · cases hparse
      obtain ⟨behind, hbehind⟩ := List.head?_eq_some_iff.mp hend
      have hrest : rest = rest.takeWhile isAsciiWhitespace ++ greaterThan :: behind := by
        rw [← hbehind, List.takeWhile_append_dropWhile]
      refine ⟨name ++ rest.takeWhile isAsciiWhitespace, behind, ?_, ?_, fun other => ?_⟩
      · rw [(parseName_spec hname).1, List.append_assoc, ← hrest]
      · rw [List.length_append]
        omega
      · have hspaces : ∀ byte ∈ rest.takeWhile isAsciiWhitespace, isAsciiWhitespace byte = true :=
          fun byte hbyte => List.all_eq_true.mp List.all_takeWhile byte hbyte
        have hname' := hname
        rw [hrest] at hname'
        rw [List.append_assoc, parseClosing, parseName_end hname' other]
        simp only [List.dropWhile_append_of_pos hspaces, List.takeWhile_append_of_pos hspaces]
        rw [List.dropWhile_cons_of_neg (by decide), List.takeWhile_cons_of_neg (by decide)]
        simp [hend]
    · cases hparse
  · cases hparse

theorem parseOpening_spec (hparse : (parseOpening bytes).tag? = some (name, length)) :
    ∃ inner rest, bytes = inner ++ greaterThan :: rest ∧ length = inner.length + 2 ∧
      ∀ other, parseOpening (inner ++ greaterThan :: other) = parseOpening bytes := by
  rw [parseOpening] at hparse ⊢
  split at hparse
  · rename_i found rest hname
    split at hparse
    · rename_i size isSelfClosing hscan
      cases hparse
      obtain ⟨inner, behind, hrest, hsize, hother⟩ := scanAttributes_spec hscan
      refine ⟨name ++ inner, behind, ?_, ?_, fun other => ?_⟩
      · rw [(parseName_spec hname).1, hrest, List.append_assoc]
      · rw [List.length_append]
        have hsize' : size = inner.length + 1 := hsize
        omega
      · have hname' := hname
        rw [hrest] at hname'
        rw [List.append_assoc, parseOpening, parseName_end hname' other]
        simp only [hother other]
    · cases hparse
  · cases hparse

/-- A tag ends with the `>` behind its name, and what follows does not matter. -/
theorem parseTagAt_spec {byte : Byte}
    (hparse : (parseTagAt (byte :: bytes)).tag? = some (name, length)) :
    ∃ inner rest, bytes = inner ++ greaterThan :: rest ∧ length = inner.length + 2 ∧
      ∀ other, parseTagAt (byte :: (inner ++ greaterThan :: other)) =
        parseTagAt (byte :: bytes) := by
  cases bytes with
  | nil => cases hparse
  | cons first more =>
      rw [parseTagAt] at hparse
      split_ifs at hparse with hslash
      · obtain ⟨inner, rest, hmore, hlength, hother⟩ := parseClosing_spec hparse
        refine ⟨first :: inner, rest, by rw [hmore]; rfl, by rw [hlength]; rfl, fun other => ?_⟩
        rw [List.cons_append, parseTagAt, if_pos hslash, parseTagAt, if_pos hslash, hother]
      · obtain ⟨inner, rest, hbytes, hlength, hother⟩ := parseOpening_spec hparse
        refine ⟨inner, rest, hbytes, hlength, fun other => ?_⟩
        have hreads : ∀ tail, parseTagAt (byte :: (inner ++ greaterThan :: tail)) =
            parseOpening (inner ++ greaterThan :: tail) := by
          intro tail
          cases inner with
          | nil => rfl
          | cons start inner =>
              obtain ⟨rfl, -⟩ := List.cons.inj hbytes
              rw [List.cons_append, parseTagAt, if_neg hslash]
        rw [hreads, hother, parseTagAt, if_neg hslash]

/-! ## Pieces -/

/-- What reading a piece finds: its tags, what stands behind each `<` that begins none,
and how many bytes the last tag goes on behind the piece. -/
structure Reading where
  tags : List TagParse
  strays : List Bytes
  overrun : ℕ

/-- The piece in front of `back`, behind the bytes of a tag that are skipped. -/
def readPiece (back : Bytes) : ℕ → Bytes → Reading
  | skip, [] => ⟨[], [], skip⟩
  | skip + 1, _ :: piece => readPiece back skip piece
  | 0, byte :: piece =>
      if byte ≠ lessThan then readPiece back 0 piece
      else
        match (parseTagAt (byte :: (piece ++ back))).tag? with
        | some (_, length) =>
            let rest := readPiece back (length - 1) piece
            { rest with tags := parseTagAt (byte :: (piece ++ back)) :: rest.tags }
        | none =>
            let rest := readPiece back 0 piece
            { rest with strays := (byte :: piece) :: rest.strays }

/-- The tags of a text. -/
def tagsOf (text : Bytes) : List TagParse := (readPiece [] 0 text).tags

section

variable {back other : Bytes}

theorem readPiece_nil (skip : ℕ) : readPiece back skip [] = ⟨[], [], skip⟩ := by
  cases skip <;> rfl

theorem readPiece_byte {byte : Byte} (hbyte : byte ≠ lessThan) (piece : Bytes) :
    readPiece back 0 (byte :: piece) = readPiece back 0 piece := by
  rw [readPiece, if_pos hbyte]

variable {piece : Bytes}

theorem readPiece_tag {name : Bytes} {length : ℕ}
    (hparse : (parseTagAt (lessThan :: (piece ++ back))).tag? = some (name, length)) :
    readPiece back 0 (lessThan :: piece) =
      { readPiece back (length - 1) piece with
        tags := parseTagAt (lessThan :: (piece ++ back)) ::
          (readPiece back (length - 1) piece).tags } := by
  rw [readPiece, if_neg (not_not.mpr rfl)]
  simp only [hparse]

theorem readPiece_stray (hparse : parseTagAt (lessThan :: (piece ++ back)) = .notTag) :
    readPiece back 0 (lessThan :: piece) =
      { readPiece back 0 piece with
        strays := (lessThan :: piece) :: (readPiece back 0 piece).strays } := by
  rw [readPiece, if_neg (not_not.mpr rfl)]
  simp only [hparse, TagParse.tag?]

/-- A byte is plain, or it begins a tag, or it is a `<` that begins none. -/
theorem byte_cases (byte : Byte) (bytes : Bytes) :
    byte ≠ lessThan ∨ byte = lessThan ∧
      ((∃ name length, (parseTagAt (lessThan :: bytes)).tag? = some (name, length)) ∨
        parseTagAt (lessThan :: bytes) = .notTag) := by
  by_cases hbyte : byte = lessThan
  · refine .inr ⟨hbyte, ?_⟩
    cases hparse : (parseTagAt (lessThan :: bytes)).tag? with
    | none => exact .inr (TagParse.tag?_eq_none_iff.mp hparse)
    | some found => exact .inl ⟨found.1, found.2, rfl⟩
  · exact .inl hbyte

/-- Two pieces are read one after the other. -/
theorem readPiece_append (skip : ℕ) (front piece : Bytes) :
    (readPiece back skip (front ++ piece)).tags =
        (readPiece (piece ++ back) skip front).tags ++
          (readPiece back (readPiece (piece ++ back) skip front).overrun piece).tags ∧
      (readPiece back skip (front ++ piece)).overrun =
        (readPiece back (readPiece (piece ++ back) skip front).overrun piece).overrun := by
  induction front generalizing skip with
  | nil =>
      rw [readPiece_nil]
      exact ⟨rfl, rfl⟩
  | cons byte front ih =>
      cases skip with
      | succ skip => exact ih skip
      | zero =>
          have happend : front ++ (piece ++ back) = front ++ piece ++ back :=
            (List.append_assoc _ _ _).symm
          rw [List.cons_append]
          rcases byte_cases byte (front ++ piece ++ back) with
            hbyte | ⟨rfl, ⟨name, length, hparse⟩ | hparse⟩
          · rw [readPiece_byte hbyte, readPiece_byte hbyte]
            exact ih 0
          · have hsplit := hparse
            rw [← happend] at hsplit
            rw [readPiece_tag hparse, readPiece_tag hsplit, happend]
            obtain ⟨htags, hoverrun⟩ := ih (length - 1)
            exact ⟨congrArg (_ :: ·) htags, hoverrun⟩
          · have hsplit := hparse
            rw [← happend] at hsplit
            rw [readPiece_stray hparse, readPiece_stray hsplit]
            exact ih 0

/-- A tag that ends in its piece is read whatever follows the piece. -/
theorem parseTagAt_of_le {name : Bytes} {length : ℕ}
    (hparse : (parseTagAt (lessThan :: (piece ++ back))).tag? = some (name, length))
    (hlength : length ≤ piece.length + 1) (other : Bytes) :
    parseTagAt (lessThan :: (piece ++ other)) = parseTagAt (lessThan :: (piece ++ back)) := by
  obtain ⟨inner, rest, hbytes, rfl, hother⟩ := parseTagAt_spec hparse
  have hfront : inner ++ [greaterThan] <+: piece ++ back :=
    ⟨rest, by rw [hbytes, List.append_assoc]; rfl⟩
  obtain ⟨tail, rfl⟩ := List.prefix_of_prefix_length_le hfront (List.prefix_append piece back)
    (by rw [List.length_append, List.length_singleton]; omega)
  rw [List.append_assoc, List.append_assoc, List.singleton_append, hother]

theorem le_overrun (skip : ℕ) (piece : Bytes) :
    skip ≤ piece.length + (readPiece back skip piece).overrun := by
  induction piece generalizing skip with
  | nil => rw [readPiece_nil]; exact Nat.le_add_left skip 0
  | cons byte piece ih =>
      cases skip with
      | zero => exact Nat.zero_le _
      | succ skip =>
          have hle := ih skip
          rw [List.length_cons, readPiece]
          omega

/-- A piece that ends where its last tag does reads the same in front of anything that
makes no tag of its strays. -/
theorem readPiece_congr {skip : ℕ} (hclosed : (readPiece back skip piece).overrun = 0)
    (hstrays : ∀ stray ∈ (readPiece back skip piece).strays,
      parseTagAt (stray ++ other) = .notTag) :
    readPiece other skip piece = readPiece back skip piece := by
  induction piece generalizing skip with
  | nil => rw [readPiece_nil, readPiece_nil]
  | cons byte piece ih =>
      cases skip with
      | succ skip => exact ih hclosed hstrays
      | zero =>
          rcases byte_cases byte (piece ++ back) with hbyte | ⟨rfl, ⟨name, length, hparse⟩ | hparse⟩
          · rw [readPiece_byte hbyte] at hclosed hstrays ⊢
            rw [readPiece_byte hbyte]
            exact ih hclosed hstrays
          · rw [readPiece_tag hparse] at hclosed hstrays ⊢
            dsimp only at hclosed hstrays
            have hle := @le_overrun back (length - 1) piece
            have hsame := parseTagAt_of_le hparse (by omega) other
            have hother := hparse
            rw [← hsame] at hother
            rw [readPiece_tag hother, ih hclosed hstrays, hsame]
          · rw [readPiece_stray hparse] at hclosed hstrays ⊢
            obtain ⟨hstray, hstrays⟩ := List.forall_mem_cons.mp hstrays
            rw [readPiece_stray hstray, ih hclosed hstrays]

/-- A `<` that begins no tag begins none if less follows. -/
theorem parseTagAt_of_append {stray : Bytes} (hstray : stray.head? = some lessThan)
    (hparse : parseTagAt (stray ++ back) = .notTag) : parseTagAt stray = .notTag := by
  obtain ⟨rest, rfl⟩ := List.head?_eq_some_iff.mp hstray
  rw [← TagParse.tag?_eq_none_iff, Option.eq_none_iff_forall_not_mem]
  rintro ⟨name, length⟩ hfound
  obtain ⟨inner, tail, rfl, -, hother⟩ := parseTagAt_spec hfound
  rw [List.cons_append, List.append_assoc, List.cons_append, hother] at hparse
  rw [hparse] at hfound
  cases hfound

theorem strays_spec {skip : ℕ} {stray : Bytes}
    (hstray : stray ∈ (readPiece back skip piece).strays) :
    stray.head? = some lessThan ∧ parseTagAt (stray ++ back) = .notTag := by
  induction piece generalizing skip with
  | nil =>
      rw [readPiece_nil] at hstray
      exact absurd hstray List.not_mem_nil
  | cons byte piece ih =>
      cases skip with
      | succ skip => exact ih hstray
      | zero =>
          rcases byte_cases byte (piece ++ back) with hbyte | ⟨rfl, ⟨name, length, hparse⟩ | hparse⟩
          · rw [readPiece_byte hbyte] at hstray
            exact ih hstray
          · rw [readPiece_tag hparse] at hstray
            exact ih hstray
          · rw [readPiece_stray hparse] at hstray
            rcases List.mem_cons.mp hstray with rfl | hstray
            · exact ⟨rfl, hparse⟩
            · exact ih hstray

/-- A piece that ends where its last tag does reads the same on its own. -/
theorem tagsOf_piece (hclosed : (readPiece back 0 piece).overrun = 0) :
    tagsOf piece = (readPiece back 0 piece).tags := by
  rw [tagsOf, readPiece_congr hclosed]
  intro stray hstray
  obtain ⟨hhead, hparse⟩ := strays_spec hstray
  rw [List.append_nil]
  exact parseTagAt_of_append hhead hparse

end

/-! ## Places between tags -/

/-- No tag of the text goes on behind this place. -/
def Boundary (text : Bytes) (position : ℕ) : Prop :=
  position ≤ text.length ∧ (readPiece (text.drop position) 0 (text.take position)).overrun = 0

section

variable {text : Bytes} {start stop : ℕ}

theorem boundary_zero (text : Bytes) : Boundary text 0 := ⟨Nat.zero_le _, rfl⟩

/-- No tag goes on behind the end of the text. -/
theorem overrun_le_length {back : Bytes} {skip : ℕ} {piece : Bytes}
    (hskip : skip ≤ piece.length + back.length) :
    (readPiece back skip piece).overrun ≤ back.length := by
  induction piece generalizing skip with
  | nil =>
      rw [readPiece_nil]
      rwa [List.length_nil, Nat.zero_add] at hskip
  | cons byte piece ih =>
      rw [List.length_cons] at hskip
      cases skip with
      | succ skip => exact ih (by omega)
      | zero =>
          rcases byte_cases byte (piece ++ back) with hbyte | ⟨rfl, ⟨name, length, hparse⟩ | hparse⟩
          · rw [readPiece_byte hbyte]
            exact ih (Nat.zero_le _)
          · rw [readPiece_tag hparse]
            obtain ⟨inner, rest, hbytes, rfl, -⟩ := parseTagAt_spec hparse
            have hlength := congrArg List.length hbytes
            rw [List.length_append, List.length_append, List.length_cons] at hlength
            exact ih (by omega)
          · rw [readPiece_stray hparse]
            exact ih (Nat.zero_le _)

theorem boundary_length (text : Bytes) : Boundary text text.length := by
  refine ⟨le_rfl, ?_⟩
  rw [List.drop_length]
  exact Nat.le_zero.mp (overrun_le_length (Nat.zero_le _))

/-- From one place to another. -/
theorem closed_sliceRange (hstart : Boundary text start) (hstop : Boundary text stop)
    (hle : start ≤ stop) :
    (readPiece (text.drop stop) 0 (sliceRange text start stop)).overrun = 0 := by
  have hread := (@readPiece_append (text.drop stop) 0 (text.take start)
    (sliceRange text start stop)).2
  rw [take_append_sliceRange hle, hstop.2, sliceRange_append_drop hle, hstart.2] at hread
  exact hread.symm

theorem overrun_of_length (back : Bytes) {skip : ℕ} {piece : Bytes}
    (hlength : piece.length = skip) : (readPiece back skip piece).overrun = 0 := by
  induction piece generalizing skip with
  | nil =>
      rw [readPiece_nil, ← hlength]
      rfl
  | cons byte piece ih =>
      cases hlength
      exact ih rfl

/-- A tag at a place of the text. -/
structure TagAt (text : Bytes) (position : ℕ) (name : Bytes) (length : ℕ) : Prop where
  boundary : Boundary text position
  behind : Boundary text (position + length)
  positive : 0 < length
  first : text[position]? = some lessThan
  last : text[position + length - 1]? = some greaterThan
  parsed : (parseTagAt (text.drop position)).tag? = some (name, length)

theorem tagAt_of_parse {position length : ℕ} {name : Bytes} (hboundary : Boundary text position)
    (hfirst : text[position]? = some lessThan)
    (hparse : (parseTagAt (text.drop position)).tag? = some (name, length)) :
    TagAt text position name length := by
  obtain ⟨bytes, hbytes⟩ : ∃ bytes, text.drop position = lessThan :: bytes := by
    rw [← List.head?_drop] at hfirst
    exact List.head?_eq_some_iff.mp hfirst
  have hlength : text.length = position + bytes.length + 1 := by
    have hdrop := congrArg List.length hbytes
    rw [List.length_drop, List.length_cons] at hdrop
    omega
  have hparse' := hparse
  rw [hbytes] at hparse'
  obtain ⟨inner, rest, rfl, rfl, -⟩ := parseTagAt_spec hparse'
  rw [List.length_append, List.length_cons] at hlength
  have hsplit : text.drop position = lessThan :: (inner ++ [greaterThan]) ++ rest := by
    rw [hbytes, List.cons_append, List.append_assoc]
    rfl
  have hwidth : (lessThan :: (inner ++ [greaterThan])).length = inner.length + 2 := by simp
  have hslice : sliceRange text position (position + (inner.length + 2)) =
      lessThan :: (inner ++ [greaterThan]) := by
    rw [sliceRange, List.drop_take, hsplit, Nat.add_sub_cancel_left, List.take_left' hwidth]
  have hbehind : text.drop (position + (inner.length + 2)) = rest := by
    rw [← List.drop_drop, hsplit, List.drop_left' hwidth]
  refine ⟨hboundary, ⟨by omega, ?_⟩, by omega, hfirst, ?_, hparse⟩
  · have hread := (@readPiece_append rest 0 (text.take position)
      (lessThan :: (inner ++ [greaterThan]))).2
    rw [← hslice, take_append_sliceRange (Nat.le_add_right _ _), ← hbehind,
      sliceRange_append_drop (Nat.le_add_right _ _), hboundary.2, hslice, hbehind] at hread
    have htag : (parseTagAt (lessThan :: (inner ++ [greaterThan] ++ rest))).tag? =
        some (name, inner.length + 2) := by
      rw [List.append_assoc, List.singleton_append]
      exact hparse'
    rw [hbehind, hread, readPiece_tag htag]
    exact overrun_of_length rest (by simp)
  · have hat : (text.drop position)[inner.length + 1]? = some greaterThan := by
      rw [hbytes, List.getElem?_cons_succ, List.getElem?_append_right le_rfl]
      simp
    rw [List.getElem?_drop] at hat
    exact hat

end

/-! ## The walk -/

/-- What the walk keeps from one place between tags to the next, it keeps over a text. -/
theorem Walk.run_invariant {text : Bytes} {compressTaggedContent : Bool} {Inv : ℕ → Walk → Prop}
    (hinit : Inv 0 .init)
    (hbyte : ∀ position walk, Inv position walk → Inv (position + 1) walk)
    (hopen : ∀ position walk name length isSelfClosing, TagAt text position name length →
      parseTagAt (text.drop position) = .open name length isSelfClosing → Inv position walk →
        Inv (position + length)
          (walk.openTag compressTaggedContent position name length isSelfClosing))
    (hclose : ∀ position walk name length, TagAt text position name length →
      parseTagAt (text.drop position) = .close name length → Inv position walk →
        Inv (position + length) (walk.closeTag compressTaggedContent position name length)) :
    Inv text.length (Walk.run compressTaggedContent 0 0 text .init) := by
  suffices hrun : ∀ skip position bytes walk, text.drop position = bytes →
      position + skip ≤ text.length →
      (readPiece (text.drop position) 0 (text.take position)).overrun = skip →
      Inv (position + skip) walk →
      Inv text.length (Walk.run compressTaggedContent skip position bytes walk) from
    hrun 0 0 text .init rfl (Nat.zero_le _) rfl hinit
  intro skip position bytes walk
  induction bytes generalizing skip position walk with
  | nil =>
      intro hbytes hle _ hwalk
      have hend : text.length ≤ position := List.drop_eq_nil_iff.mp hbytes
      rw [Walk.run]
      rwa [show position + skip = text.length by omega] at hwalk
  | cons byte bytes ih =>
      intro hbytes hle hread hwalk
      have hrest : text.drop (position + 1) = bytes := by
        rw [← List.tail_drop, hbytes, List.tail_cons]
      have hfirst : text[position]? = some byte := by
        rw [← List.head?_drop, hbytes, List.head?_cons]
      have hlength : text.length = position + bytes.length + 1 := by
        have hdrop := congrArg List.length hbytes
        rw [List.length_drop, List.length_cons] at hdrop
        omega
      -- One more byte is read.
      have hnext : (readPiece (text.drop (position + 1)) 0 (text.take (position + 1))).overrun =
          (readPiece bytes skip [byte]).overrun := by
        have happend := (@readPiece_append bytes 0 (text.take position) [byte]).2
        rw [List.singleton_append, ← hbytes, hread] at happend
        rw [hrest, ← happend, List.take_add_one, hfirst]
        rfl
      cases skip with
      | succ skip =>
          rw [Walk.run]
          refine ih skip (position + 1) walk hrest (by omega) ?_ ?_
          · rw [hnext, readPiece, readPiece_nil]
          · rwa [Nat.add_right_comm, Nat.add_assoc]
      | zero =>
          have hboundary : Boundary text position := ⟨by omega, hread⟩
          rw [Walk.run]
          rcases byte_cases byte bytes with hplain | ⟨rfl, htag⟩
          · rw [if_pos hplain]
            refine ih 0 (position + 1) walk hrest (by omega) ?_ (hbyte position walk hwalk)
            rw [hnext, readPiece_byte hplain, readPiece_nil]
          rw [if_neg (not_not.mpr rfl)]
          rcases htag with ⟨name, length, hparse⟩ | hparse
          · have hat : TagAt text position name length :=
              tagAt_of_parse hboundary hfirst (by rw [hbytes]; exact hparse)
            have hbound := hat.behind.1
            have hpositive := hat.positive
            have hend : position + 1 + (length - 1) = position + length := by omega
            have hskip : (readPiece (text.drop (position + 1)) 0
                (text.take (position + 1))).overrun = length - 1 := by
              rw [hnext, readPiece_tag (by rw [List.nil_append]; exact hparse), readPiece_nil]
            cases hparsed : parseTagAt (lessThan :: bytes) with
            | «open» found size isSelfClosing =>
                rw [hparsed] at hparse
                cases hparse
                refine ih (length - 1) (position + 1) _ hrest (by omega) hskip ?_
                rw [hend]
                exact hopen position walk name length isSelfClosing hat
                  (by rw [hbytes, hparsed]) hwalk
            | close found size =>
                rw [hparsed] at hparse
                cases hparse
                refine ih (length - 1) (position + 1) _ hrest (by omega) hskip ?_
                rw [hend]
                exact hclose position walk name length hat (by rw [hbytes, hparsed]) hwalk
            | notTag =>
                rw [hparsed] at hparse
                cases hparse
          · rw [hparse]
            refine ih 0 (position + 1) walk hrest (by omega) ?_ (hbyte position walk hwalk)
            rw [hnext, readPiece_stray (by rw [List.nil_append]; exact hparse), readPiece_nil]

/-!
## The spans of a text

The spans that are replaced are in order and apart from each other; each begins
with `<` and ends with `>`.
-/

/-! ## The walk -/

/-- Spans and open tags that were found before a limit. -/
structure Walk.Ordered (text : Bytes) (limit : ℕ) (walk : Walk) : Prop where
  tags : ∀ span ∈ walk.spans, span.start < span.stop ∧ span.stop ≤ limit ∧
    text[span.start]? = some lessThan ∧ text[span.stop - 1]? = some greaterThan
  sorted : walk.spans.Pairwise fun left right => left.stop ≤ right.start
  opens : ∀ opened ∈ walk.stack,
    opened.openStart < limit ∧ text[opened.openStart]? = some lessThan
  nested : walk.stack.Pairwise fun top below => below.openStart < top.openStart
  apart : ∀ opened ∈ walk.stack, ∀ span ∈ walk.spans,
    span.start < opened.openStart → span.stop ≤ opened.openStart

namespace Walk.Ordered

variable {text : Bytes} {limit stop : ℕ} {walk : Walk}

theorem init (text : Bytes) : Walk.Ordered text 0 .init where
  tags _ hspan := absurd hspan List.not_mem_nil
  sorted := .nil
  opens _ hopened := absurd hopened List.not_mem_nil
  nested := .nil
  apart _ hopened := absurd hopened List.not_mem_nil

theorem mono (hwalk : Walk.Ordered text limit walk) (hstop : limit ≤ stop) :
    Walk.Ordered text stop walk where
  tags span hspan :=
    let ⟨hlt, hle, hfirst, hlast⟩ := hwalk.tags span hspan
    ⟨hlt, hle.trans hstop, hfirst, hlast⟩
  sorted := hwalk.sorted
  opens opened hopened :=
    let ⟨hlt, hfirst⟩ := hwalk.opens opened hopened
    ⟨hlt.trans_le hstop, hfirst⟩
  nested := hwalk.nested
  apart := hwalk.apart

/-- A span of one more tag. -/
theorem push (stats : ProtectStats) {kind : SpanKind} {stack : List OpenTag}
    (hwalk : Walk.Ordered text limit walk) (hstack : stack <:+ walk.stack) (hlimit : limit < stop)
    (hfirst : text[limit]? = some lessThan) (hlast : text[stop - 1]? = some greaterThan) :
    Walk.Ordered text stop ⟨walk.spans ++ [⟨limit, stop, kind⟩], stack, stats⟩ where
  tags span hspan := by
    rcases List.mem_append.mp hspan with hspan | hspan
    · exact (hwalk.mono hlimit.le).tags span hspan
    · rw [List.mem_singleton.mp hspan]
      exact ⟨hlimit, le_rfl, hfirst, hlast⟩
  sorted := by
    refine List.pairwise_append.mpr ⟨hwalk.sorted, List.pairwise_singleton _ _, ?_⟩
    intro span hspan new hnew
    rw [List.mem_singleton.mp hnew]
    exact (hwalk.tags span hspan).2.1
  opens opened hopened := (hwalk.mono hlimit.le).opens opened (hstack.subset hopened)
  nested := hwalk.nested.sublist hstack.sublist
  apart opened hopened span hspan hstart := by
    rcases List.mem_append.mp hspan with hspan | hspan
    · exact hwalk.apart opened (hstack.subset hopened) span hspan hstart
    · rw [List.mem_singleton.mp hspan] at hstart
      exact absurd hstart (hwalk.opens opened (hstack.subset hopened)).1.not_gt

/-- The walk as it was when a tag on the stack was opened. -/
theorem restrict (stats : ProtectStats) {opened : OpenTag} {below : List OpenTag}
    (hwalk : Walk.Ordered text limit walk) (hstack : opened :: below <:+ walk.stack) :
    Walk.Ordered text opened.openStart
      ⟨walk.spans.filter fun span => span.start < opened.openStart, below, stats⟩ where
  tags span hspan := by
    obtain ⟨hspan, hstart⟩ := List.mem_filter.mp hspan
    obtain ⟨hlt, -, hfirst, hlast⟩ := hwalk.tags span hspan
    exact ⟨hlt, hwalk.apart opened (hstack.subset List.mem_cons_self) span hspan
      (of_decide_eq_true hstart), hfirst, hlast⟩
  sorted := hwalk.sorted.sublist List.filter_sublist
  opens other hother :=
    ⟨List.rel_of_pairwise_cons (hwalk.nested.sublist hstack.sublist) hother,
      (hwalk.opens other (hstack.subset (List.mem_cons_of_mem _ hother))).2⟩
  nested := (hwalk.nested.sublist hstack.sublist).of_cons
  apart other hother span hspan :=
    hwalk.apart other (hstack.subset (List.mem_cons_of_mem _ hother)) span
      (List.mem_of_mem_filter hspan)

/-- One more tag on the stack. -/
theorem pushOpen {start : ℕ} {nameLower : Bytes} {stats : ProtectStats}
    (hwalk : Walk.Ordered text limit walk) (hstart : start < limit)
    (hfirst : text[start]? = some lessThan)
    (hopens : ∀ opened ∈ walk.stack, opened.openStart < start)
    (hspans : ∀ span ∈ walk.spans, span.start < start → span.stop ≤ start) :
    Walk.Ordered text limit ⟨walk.spans, ⟨nameLower, start⟩ :: walk.stack, stats⟩ where
  tags := hwalk.tags
  sorted := hwalk.sorted
  opens := List.forall_mem_cons.mpr ⟨⟨hstart, hfirst⟩, hwalk.opens⟩
  nested := List.pairwise_cons.mpr ⟨hopens, hwalk.nested⟩
  apart := List.forall_mem_cons.mpr ⟨hspans, hwalk.apart⟩

theorem stats {stats : ProtectStats} (hwalk : Walk.Ordered text limit walk) :
    Walk.Ordered text limit { walk with stats := stats } :=
  ⟨hwalk.tags, hwalk.sorted, hwalk.opens, hwalk.nested, hwalk.apart⟩

theorem openTag {compressTaggedContent isSelfClosing : Bool} {name : Bytes} {length : ℕ}
    (hwalk : Walk.Ordered text limit walk) (hlength : 0 < length)
    (hfirst : text[limit]? = some lessThan)
    (hlast : text[limit + length - 1]? = some greaterThan) :
    Walk.Ordered text (limit + length)
      (walk.openTag compressTaggedContent limit name length isSelfClosing) := by
  have hlimit : limit < limit + length := Nat.lt_add_of_pos_right hlength
  rw [Walk.openTag]
  split_ifs
  · exact (hwalk.mono hlimit.le).stats
  · exact hwalk.push _ List.suffix_rfl hlimit hfirst hlast
  · refine (hwalk.push walk.stats List.suffix_rfl hlimit hfirst hlast).pushOpen hlimit
      hfirst (fun opened hopened => (hwalk.opens opened hopened).1) fun span hspan hstart => ?_
    rcases List.mem_append.mp hspan with hspan | hspan
    · exact (hwalk.tags span hspan).2.1
    · rw [List.mem_singleton.mp hspan] at hstart
      exact absurd hstart (lt_irrefl limit)
  · exact (hwalk.mono hlimit.le).pushOpen hlimit hfirst
      (fun opened hopened => (hwalk.opens opened hopened).1)
      fun span hspan _ => (hwalk.tags span hspan).2.1

theorem closeTag {compressTaggedContent : Bool} {name : Bytes} {length : ℕ}
    (hwalk : Walk.Ordered text limit walk) (hlength : 0 < length)
    (hfirst : text[limit]? = some lessThan)
    (hlast : text[limit + length - 1]? = some greaterThan) :
    Walk.Ordered text (limit + length)
      (walk.closeTag compressTaggedContent limit name length) := by
  have hlimit : limit < limit + length := Nat.lt_add_of_pos_right hlength
  rw [Walk.closeTag]
  split_ifs with hhtml hmarkers
  · exact (hwalk.mono hlimit.le).stats
  · split
    · rename_i opened below hmatch
      have hsuffix : opened :: below <:+ walk.stack := hmatch ▸ List.dropWhile_suffix _
      exact hwalk.push _ ((List.tail_suffix below).trans
        ((List.suffix_cons opened below).trans hsuffix)) hlimit hfirst hlast
    · exact (hwalk.mono hlimit.le).stats
  · split
    · rename_i opened below hmatch
      have hsuffix : opened :: below <:+ walk.stack := hmatch ▸ List.dropWhile_suffix _
      obtain ⟨hopened, htag⟩ := hwalk.opens opened (hsuffix.subset List.mem_cons_self)
      exact (hwalk.restrict walk.stats hsuffix).push _ List.suffix_rfl
        (hopened.trans hlimit) htag hlast
    · exact (hwalk.mono hlimit.le).stats

end Walk.Ordered

/-- The walk keeps the order. -/
theorem ordered_run (text : Bytes) (compressTaggedContent : Bool) :
    Walk.Ordered text text.length (Walk.run compressTaggedContent 0 0 text .init) := by
  apply Walk.run_invariant (.init text)
  · intro position walk hwalk
    exact hwalk.mono (Nat.le_succ position)
  · intro position walk name length isSelfClosing htag _ hwalk
    exact hwalk.openTag htag.positive htag.first htag.last
  · intro position walk name length htag _ hwalk
    exact hwalk.closeTag htag.positive htag.first htag.last

/-- The spans of a text are in order, in the text, and enclosed in `<` and `>`. -/
theorem ordered_identifySpans (text : Bytes) (compressTaggedContent : Bool) :
    (∀ span ∈ (identifySpans text compressTaggedContent).1, span.start < span.stop ∧
      span.stop ≤ text.length ∧ text[span.start]? = some lessThan ∧
      text[span.stop - 1]? = some greaterThan) ∧
    (identifySpans text compressTaggedContent).1.Pairwise
      fun left right => left.stop ≤ right.start :=
  ⟨(ordered_run text compressTaggedContent).tags, (ordered_run text compressTaggedContent).sorted⟩

end Legroom.Transforms
