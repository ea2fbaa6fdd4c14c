import Legroom.Lib.Json.Lines
import Legroom.Sse.HeardBlocks

/-!
# Frames line by line

What the framer makes of a line in front of a block, of a `data:` line, of lines
without a field, and of blank space between frames.  Here lines may hold carriage
returns, which the white space of a JSON text does.
-/

namespace Legroom.Sse

open Utf8 Json

/-! ## The terminator search -/

theorem findDoubleNewlineFrom_add (index shift : ℕ) (buf : Bytes) :
    findDoubleNewlineFrom (shift + index) buf =
      (findDoubleNewlineFrom index buf).map fun found => (shift + found.1, found.2) := by
  induction index, buf using findDoubleNewlineFrom.induct with
  | case1 index first second rest hpair =>
      rw [findDoubleNewlineFrom, findDoubleNewlineFrom, if_pos hpair, if_pos hpair]
      rfl
  | case2 index first second rest hpair hquad =>
      rw [findDoubleNewlineFrom, findDoubleNewlineFrom, if_neg hpair, if_neg hpair,
        if_pos hquad, if_pos hquad]
      rfl
  | case3 index first second rest hpair hquad ih =>
      rw [findDoubleNewlineFrom, findDoubleNewlineFrom, if_neg hpair, if_neg hpair,
        if_neg hquad, if_neg hquad, Nat.add_assoc]
      exact ih
  | case4 index buf hshort =>
      rw [findDoubleNewlineFrom, findDoubleNewlineFrom]
      · rfl
      · exact hshort
      · exact hshort

/-- No terminator starts inside a line, unless at the carriage return that ends it. -/
theorem le_of_findDoubleNewlineFrom {line : Bytes} {index blockEnd termLen : ℕ}
    {rest : Bytes} (hline : Byte.lf ∉ line)
    (hfind : findDoubleNewlineFrom index (line ++ rest) = some (blockEnd, termLen)) :
    index + line.length ≤ blockEnd ∨
      index + line.length = blockEnd + 1 ∧ line.getLast? = some Byte.cr ∧ termLen = 4 := by
  induction line generalizing index with
  | nil => exact Or.inl (by simpa using (findDoubleNewlineFrom_bounds hfind).1)
  | cons byte line ih =>
      rw [List.mem_cons, not_or] at hline
      cases htext : line ++ rest with
      | nil =>
          rw [List.cons_append, htext] at hfind
          cases hfind
      | cons second behind =>
          rw [List.cons_append, htext, findDoubleNewlineFrom,
            if_neg fun hpair => hline.1 hpair.1.symm] at hfind
          split_ifs at hfind with hquad
          · cases hfind
            cases line with
            | nil => exact Or.inr ⟨rfl, by rw [hquad.1]; rfl, rfl⟩
            | cons third line =>
                have hthird : third = Byte.lf := by
                  rw [List.cons_append] at htext
                  rw [(List.cons.inj htext).1]
                  exact hquad.2.1
                exact absurd (by rw [hthird]; simp) hline.2
          · rw [← htext] at hfind
            rcases ih hline.2 hfind with hle | ⟨hlength, hlast, hterm⟩
            · exact Or.inl (by simp only [List.length_cons]; omega)
            · refine Or.inr ⟨by simp only [List.length_cons]; omega, ?_, hterm⟩
              cases line with
              | nil => cases hlast
              | cons third line => simpa using hlast

theorem exists_findDoubleNewlineFrom (index : ℕ) (front rest : Bytes) :
    ∃ found, findDoubleNewlineFrom index (front ++ Byte.lf :: Byte.lf :: rest) =
      some found := by
  induction front generalizing index with
  | nil => exact ⟨_, findDoubleNewlineFrom_lf index _⟩
  | cons byte front ih =>
      obtain ⟨second, behind, hbehind⟩ :
          ∃ second behind, front ++ Byte.lf :: Byte.lf :: rest = second :: behind := by
        cases front with
        | nil => exact ⟨_, _, rfl⟩
        | cons second front => exact ⟨_, _, rfl⟩
      rw [List.cons_append, hbehind, findDoubleNewlineFrom, ← hbehind]
      split_ifs
      · exact ⟨_, rfl⟩
      · exact ⟨_, rfl⟩
      · exact ih (index + 1)

/-- A line in front of one that starts with a field name belongs to its block. -/
theorem findDoubleNewline_line {line tail : Bytes} (hline : Byte.lf ∉ line)
    (htail : ∀ byte ∈ tail.head?, byte ≠ Byte.lf ∧ byte ≠ Byte.cr) :
    findDoubleNewline (line ++ Byte.lf :: tail) =
      (findDoubleNewline tail).map fun found => (line.length + 1 + found.1, found.2) := by
  have hskip : ∀ index, findDoubleNewlineFrom index (line ++ Byte.lf :: tail) =
      findDoubleNewlineFrom (index + (line.length + 1)) tail := by
    induction line with
    | nil =>
        intro index
        rw [List.nil_append, findDoubleNewlineFrom_lf, if_neg]
        · simp
        · exact fun hhead => (htail _ hhead).1 rfl
    | cons byte line ih =>
        intro index
        rw [List.mem_cons, not_or] at hline
        have hlater : index + (line.length + 1 + 1) = index + 1 + (line.length + 1) := by
          omega
        rw [List.length_cons, hlater, ← ih hline.2 (index + 1)]
        by_cases hcr : byte = Byte.cr
        · cases line with
          | nil =>
              have htake : tail.take 2 ≠ [Byte.cr, Byte.lf] := by
                intro htake
                cases tail with
                | nil => cases htake
                | cons first tail =>
                    exact (htail first rfl).2 (List.cons.inj htake).1
              rw [hcr, List.singleton_append, findDoubleNewlineFrom_cr, if_neg htake]
              rfl
          | cons second line =>
              rw [List.mem_cons, not_or] at hline
              rw [List.cons_append, List.cons_append, findDoubleNewlineFrom,
                if_neg fun hpair => hline.1 hpair.1.symm,
                if_neg fun hquad => hline.2.1 hquad.2.1.symm]
        · exact findDoubleNewlineFrom_skip index _ ⟨hcr, fun hlf => hline.1 hlf.symm⟩
  rw [findDoubleNewline, hskip, Nat.zero_add]
  exact findDoubleNewlineFrom_add 0 (line.length + 1) tail

/-! ## Lines without a field -/

theorem head_of_mem_blockLines {bytes : Bytes} (hstarts : LineStarts bytes) :
    ∀ line ∈ blockLines bytes, ∀ byte ∈ line.head?, mayStart byte = true := by
  induction hlength : bytes.length using Nat.strong_induction_on generalizing bytes with
  | _ length ih =>
      subst hlength
      by_cases hlf : Byte.lf ∈ bytes
      · obtain ⟨first, rest, rfl, hfirst⟩ := List.eq_append_cons_of_mem hlf
        rw [blockLines_line rest hfirst]
        intro line hline
        rcases List.mem_cons.mp hline with rfl | hline
        · exact (hstarts.of_prefix (List.prefix_append line _)).head
        · exact ih rest.length (by simp only [List.length_append, List.length_cons]; omega)
            hstarts.of_behind rfl line hline
      · rw [blockLines_last hlf]
        intro line hline
        split_ifs at hline
        · cases hline
        · rw [List.mem_singleton.mp hline]
          exact hstarts.head

variable (fields : EventFields)

/-- A line that starts like a JSON token is no `event` and no `data` line. -/
theorem readLine_mayStart {line : Bytes} (hline : ∀ byte ∈ line.head?, mayStart byte = true) :
    readLine fields line = .ok fields := by
  have hfield : ∀ name : Bytes, name.head?.all (!mayStart ·) = true → name ≠ [] →
      fieldName line ≠ name := by
    rintro name hname hne rfl
    cases line with
    | nil => exact hne rfl
    | cons byte line =>
        have hstart := hline byte rfl
        by_cases hcolon : byte = Byte.colon
        · exact hne (by rw [fieldName, hcolon]; rfl)
        · rw [show mayStart byte = false by simpa [fieldName, hcolon] using hname] at hstart
          cases hstart
  rw [readLine, if_neg (hfield _ (by decide) (by decide)),
    if_neg (hfield _ (by decide) (by decide))]
  split_ifs <;> rfl

theorem head_stripCr {line : Bytes} {byte : Byte} (hbyte : byte ∈ (stripCr line).head?) :
    byte ∈ line.head? := by
  rw [stripCr] at hbyte
  split_ifs at hbyte
  · cases line with
    | nil => exact hbyte
    | cons first line =>
        cases line with
        | nil => cases hbyte
        | cons second line => exact hbyte
  · exact hbyte

theorem readLines_lineStarts {bytes : Bytes} (hstarts : LineStarts bytes) :
    readLines fields (blockLines bytes) = .ok fields := by
  have hlines := head_of_mem_blockLines hstarts
  rw [readLines]
  generalize blockLines bytes = lines at hlines
  induction lines with
  | nil => rfl
  | cons line lines ih =>
      rw [List.foldlM_cons, readLine_mayStart fields fun byte hbyte =>
        hlines line List.mem_cons_self byte (head_stripCr hbyte)]
      exact ih fun other hother => hlines other (List.mem_cons_of_mem _ hother)

/-! ## Blank space between frames -/

/-- A block of white space has no event. -/
theorem parseEventBlock_blank {block : Bytes} (hblank : ∀ byte ∈ block, isSpace byte = true) :
    parseEventBlock block = .ok none := by
  have hstarts : LineStarts block := .of_all fun byte hbyte => by
    rw [mayStart, hblank byte hbyte]
    rfl
  rw [parseEventBlock, readLines_lineStarts _ hstarts]
  rfl

/-- Blank space behind which a frame ends yields nothing and leaves a line feed at
most. -/
theorem drain_blank {front blank : Bytes} (hblank : ∀ byte ∈ blank, isSpace byte = true)
    (hsuffix : blank <:+ front ++ [Byte.lf, Byte.lf]) :
    ∃ kept, (kept = [] ∨ kept = [Byte.lf]) ∧
      ∀ more, frameDecoder.drain (blank ++ more) = frameDecoder.drain (kept ++ more) := by
  induction hlength : blank.length using Nat.strong_induction_on generalizing blank with
  | _ length ih =>
      subst hlength
      have hdouble : front ++ [Byte.lf, Byte.lf] = (front ++ [Byte.lf]) ++ [Byte.lf] := by simp
      rw [hdouble, List.suffix_concat_iff] at hsuffix
      rcases hsuffix with rfl | ⟨init, rfl, hinit⟩
      · exact ⟨[], Or.inl rfl, fun more => rfl⟩
      rcases List.suffix_concat_iff.mp hinit with rfl | ⟨start, rfl, hstart⟩
      · exact ⟨[Byte.lf], Or.inr rfl, fun more => rfl⟩
      obtain ⟨⟨blockEnd, termLen⟩, hfind⟩ :
          ∃ found, findDoubleNewline (start ++ [Byte.lf] ++ [Byte.lf]) = some found := by
        rw [List.append_assoc]
        exact exists_findDoubleNewlineFrom 0 start []
      generalize hbuf : start ++ [Byte.lf] ++ [Byte.lf] = buf at *
      have hbounds := findDoubleNewline_bounds hfind
      have hrest : (buf.drop blockEnd).drop termLen <:+ buf := by
        rw [List.drop_drop]
        exact List.drop_suffix _ _
      obtain ⟨kept, hkept, hlater⟩ := ih ((buf.drop blockEnd).drop termLen).length
        (by simp; omega) (fun byte hbyte => hblank byte (hrest.subset hbyte))
        (hrest.trans (by
          rw [hdouble, ← hbuf]
          exact List.suffix_append_self_iff.mpr (List.suffix_append_self_iff.mpr hstart))) rfl
      refine ⟨kept, hkept, fun more => ?_⟩
      rw [← hlater more]
      refine frameDecoder.drain_congr ?_
      obtain ⟨htake, hdrop⟩ := block_append more hfind
      have hempty : parseEventBlock (buf.take blockEnd) = .ok none :=
        parseEventBlock_blank fun byte hbyte => hblank byte (List.mem_of_mem_take hbyte)
      show nextFrame (buf ++ more) = nextFrame _
      rw [nextFrame_eq, findDoubleNewline_append more hfind]
      simp only [htake, hempty, hdrop]

/-! ## The block of a frame -/

/-- A field line in front of a block: `parse_event_block` reads it first. -/
structure CutAt (buf block rest : Bytes) : Prop where
  found : ∃ blockEnd termLen, findDoubleNewline buf = some (blockEnd, termLen) ∧
    buf.take blockEnd = block ∧ (buf.drop blockEnd).drop termLen = rest

theorem CutAt.line {line tail block rest : Bytes} (hcut : CutAt tail block rest)
    (hline : Byte.lf ∉ line) (htail : ∀ byte ∈ tail.head?, byte ≠ Byte.lf ∧ byte ≠ Byte.cr) :
    CutAt (line ++ Byte.lf :: tail) (line ++ Byte.lf :: block) rest := by
  obtain ⟨blockEnd, termLen, hfind, hblock, hrest⟩ := hcut.found
  have hlength : line.length + 1 + blockEnd = line.length + (blockEnd + 1) := by omega
  refine ⟨line.length + 1 + blockEnd, termLen, ?_, ?_, ?_⟩
  · rw [findDoubleNewline_line hline htail, hfind]
    rfl
  · rw [hlength, List.take_length_add_append, List.take_succ_cons, hblock]
  · rw [hlength, List.drop_length_add_append, List.drop_succ_cons, hrest]

theorem CutAt.append {buf block rest : Bytes} (hcut : CutAt buf block rest) (more : Bytes) :
    CutAt (buf ++ more) block (rest ++ more) := by
  obtain ⟨blockEnd, termLen, hfind, hblock, hrest⟩ := hcut.found
  have hbounds := findDoubleNewline_bounds hfind
  refine ⟨blockEnd, termLen, findDoubleNewline_append more hfind, ?_, ?_⟩
  · rw [List.take_append_of_le_length (by omega), hblock]
  · rw [List.drop_drop, List.drop_append_of_le_length (by omega), ← List.drop_drop, hrest]

theorem nextFrame_of_cutAt {buf block rest : Bytes} {event : SseEvent}
    (hcut : CutAt buf block rest) (hparse : parseEventBlock block = .ok (some event)) :
    nextFrame buf = (some (.ok event), rest) := by
  obtain ⟨blockEnd, termLen, hfind, hblock, hrest⟩ := hcut.found
  rw [nextFrame_eq, hfind]
  simp only [hblock, hparse, hrest]

theorem stripCr_append {front line : Bytes} (hfront : front.getLast? ≠ some Byte.cr) :
    stripCr (front ++ line) = front ++ stripCr line := by
  cases line with
  | nil => rw [stripCr, List.append_nil, if_neg hfront, stripCr, if_neg (by simp),
      List.append_nil]
  | cons byte line =>
      rw [stripCr, stripCr, List.getLast?_append_of_ne_nil _ (List.cons_ne_nil _ _)]
      split_ifs
      · rw [List.dropLast_append_of_ne_nil (List.cons_ne_nil _ _)]
      · rfl

theorem exists_stripCr (line : Bytes) :
    ∃ spare, line = stripCr line ++ spare ∧ ∀ byte ∈ spare, byte = Byte.cr := by
  rw [stripCr]
  split_ifs with hlast
  · obtain ⟨front, rfl⟩ := List.getLast?_eq_some_iff.mp hlast
    exact ⟨[Byte.cr], by simp, by simp⟩
  · exact ⟨[], by simp, by simp⟩

theorem readLine_data (data : Bytes) :
    readLine fields (ascii "data: " ++ data) =
      .ok { fields with dataParts := fields.dataParts ++ [data] } := rfl

theorem readLine_event (name : Utf8String) :
    readLine fields (ascii "event: " ++ name.bytes) =
      .ok { fields with eventName := some name } := by
  have hvalue : fieldValue (ascii "event: " ++ name.bytes) = name.bytes := rfl
  have hname : fieldName (ascii "event: " ++ name.bytes) = ascii "event" := rfl
  rw [readLine, if_neg (by simp [ascii]), if_neg (by simp [ascii]; decide), if_pos hname,
    hvalue, fromUtf8_of_valid name.valid]

theorem readLines_cons (line : Bytes) (lines : List Bytes) :
    readLines fields (line :: lines) =
      (readLine fields (stripCr line)).bind fun fields => readLines fields lines := rfl

/-- The block that starts with a `data` line: its value is the line, less carriage
returns at its end, and what follows in the block has no field. -/
theorem exists_cutAt_data {line tail : Bytes} (hline : Byte.lf ∉ line)
    (htail : LineStarts tail) (hends : [Byte.lf, Byte.lf] <:+ Byte.lf :: tail) :
    ∃ block data spare rest, CutAt (ascii "data: " ++ line ++ Byte.lf :: tail) block rest ∧
      line = data ++ spare ∧ (∀ byte ∈ spare, byte = Byte.cr) ∧
      rest <:+ Byte.lf :: tail ∧
      ∀ fields, readLines fields (blockLines block) =
        .ok { fields with dataParts := fields.dataParts ++ [data] } := by
  have hlead : (ascii "data: ").getLast? ≠ some Byte.cr := by decide
  have hnone : Byte.lf ∉ ascii "data: " ++ line := by
    rw [List.mem_append, not_or]
    exact ⟨by decide, hline⟩
  obtain ⟨⟨blockEnd, termLen⟩, hfind⟩ : ∃ found, findDoubleNewline
      (ascii "data: " ++ line ++ Byte.lf :: tail) = some found := by
    obtain ⟨front, hfront⟩ := hends
    rw [← hfront, ← List.append_assoc]
    exact exists_findDoubleNewlineFrom 0 _ []
  have hbounds := findDoubleNewline_bounds hfind
  generalize htext : ascii "data: " ++ line = text at *
  have hbehind : ∀ position, text.length ≤ position →
      (text ++ Byte.lf :: tail).drop position <:+ Byte.lf :: tail := by
    intro position hposition
    rw [List.drop_append, List.drop_eq_nil_of_le hposition, List.nil_append]
    exact List.drop_suffix _ _
  rcases le_of_findDoubleNewlineFrom hnone hfind with hle | ⟨hshort, hlast, hterm⟩
  · obtain ⟨spare, hspare, hcr⟩ := exists_stripCr line
    refine ⟨_, stripCr line, spare, _, ⟨blockEnd, termLen, hfind, rfl, rfl⟩, hspare, hcr,
      ?_, fun fields => ?_⟩
    · rw [List.drop_drop]
      exact hbehind _ (by omega)
    · have hread : readLine fields (stripCr text) =
          .ok { fields with dataParts := fields.dataParts ++ [stripCr line] } := by
        rw [← htext, stripCr_append hlead, readLine_data]
      rw [List.take_append, List.take_of_length_le (by omega)]
      cases hmore : blockEnd - text.length with
      | zero =>
          rw [List.take_zero, List.append_nil, blockLines_last hnone, if_neg, readLines_cons,
            hread]
          · rfl
          · rw [← htext]
            simp [ascii]
      | succ more =>
          rw [List.take_succ_cons, blockLines_line _ hnone, readLines_cons, hread]
          exact readLines_lineStarts _ (htail.of_prefix (List.take_prefix _ _))
  · obtain ⟨init, hinit⟩ : ∃ init, line = init ++ [Byte.cr] := by
      rcases List.eq_nil_or_concat line with rfl | ⟨init, byte, rfl⟩
      · rw [← htext] at hlast
        cases hlast
      · rw [← htext, List.concat_eq_append, ← List.append_assoc, List.getLast?_concat] at hlast
        exact ⟨init, by rw [Option.some.inj hlast, List.concat_eq_append]⟩
    obtain ⟨spare, hspare, hcr⟩ := exists_stripCr init
    have hblock : (text ++ Byte.lf :: tail).take blockEnd = ascii "data: " ++ init := by
      have hlength : blockEnd = (ascii "data: " ++ init).length := by
        have hsum := congrArg List.length htext
        rw [hinit] at hsum
        simp only [List.length_append, List.length_singleton] at hsum ⊢
        omega
      rw [← htext, hinit, hlength, ← List.append_assoc, List.append_assoc, List.take_left]
    refine ⟨ascii "data: " ++ init, stripCr init, spare ++ [Byte.cr], _,
      ⟨blockEnd, termLen, hfind, hblock, rfl⟩, ?_, ?_, ?_, fun fields => ?_⟩
    · rw [← List.append_assoc, ← hspare, hinit]
    · intro byte hbyte
      rcases List.mem_append.mp hbyte with hbyte | hbyte
      · exact hcr byte hbyte
      · exact List.mem_singleton.mp hbyte
    · rw [List.drop_drop]
      exact hbehind _ (by omega)
    · have hinitLf : Byte.lf ∉ ascii "data: " ++ init := by
        rw [← htext, hinit, ← List.append_assoc] at hnone
        exact fun hmem => hnone (List.mem_append_left _ hmem)
      rw [blockLines_last hinitLf, if_neg (by simp [ascii]), readLines_cons,
        stripCr_append hlead, readLine_data]
      rfl

end Legroom.Sse
