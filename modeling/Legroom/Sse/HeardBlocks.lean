import Legroom.Sse.Framing

/-!
# The line grammar of event streams

The reference for an event stream reads lines.  A line ends in LF or CRLF, a
blank line dispatches the event collected since the previous one, a line that
starts with a colon is a comment, and every other line sets a field: the last
`event` names the event and all `data` values are joined by line feeds.  An
event without data is not dispatched.

This file states that reference and an abstraction of the framer to the same
lines.  The framer looks for `\n\n` and `\r\n\r\n`, so it hears a blank line
only when it ends in LF or when the line before it ends in CRLF.
-/

namespace Legroom.Sse

open Utf8

/-- An event as the grammar sees it. -/
structure GrammarEvent where
  name : Option Bytes
  data : Bytes
  deriving DecidableEq

/-! ## The reference -/

/-- The event being collected. -/
structure Pending where
  name : Option Bytes
  data : List Bytes
  deriving DecidableEq

namespace Pending

def empty : Pending := ⟨none, []⟩

/-- One line that is not blank. -/
def feed (pending : Pending) (line : Bytes) : Pending :=
  if line.head? = some Byte.colon then pending
  else if fieldName line = ascii "event" then
    { pending with name := some (fieldValue line) }
  else if fieldName line = ascii "data" then
    { pending with data := pending.data ++ [fieldValue line] }
  else pending

def dispatch (pending : Pending) : List GrammarEvent :=
  if pending.data = [] then []
  else [⟨pending.name, [Byte.lf].intercalate pending.data⟩]

end Pending

/-- Lines that end in LF or CRLF, without their line ends. -/
def splitLines : Bytes → List Bytes
  | [] => []
  | byte :: rest =>
      if byte = Byte.lf then [] :: splitLines rest
      else if byte = Byte.cr ∧ rest.head? = some Byte.lf then splitLines rest
      else
        match splitLines rest with
        | [] => [[byte]]
        | line :: lines => (byte :: line) :: lines

def grammarFrom : Pending → List Bytes → List GrammarEvent
  | _, [] => []
  | pending, [] :: lines => pending.dispatch ++ grammarFrom .empty lines
  | pending, line :: lines => grammarFrom (pending.feed line) lines

/-- The events that the line grammar finds in a stream. -/
def grammarEvents (stream : Bytes) : List GrammarEvent :=
  grammarFrom .empty (splitLines stream)

/-! ## Streams made of lines -/

inductive LineEnd where
  | lf
  | crlf
  deriving DecidableEq, Repr

def LineEnd.bytes : LineEnd → Bytes
  | .lf => [Byte.lf]
  | .crlf => [Byte.cr, Byte.lf]

/-- A line of an event stream: its content has no line break of its own. -/
structure Line where
  content : Bytes
  lineEnd : LineEnd
  noBreak : Byte.cr ∉ content ∧ Byte.lf ∉ content

namespace Line

theorem ne_break (line : Line) :
    ∀ byte ∈ line.content, byte ≠ Byte.cr ∧ byte ≠ Byte.lf := by
  intro byte hbyte
  exact ⟨ne_of_mem_of_not_mem hbyte line.noBreak.1,
    ne_of_mem_of_not_mem hbyte line.noBreak.2⟩

def bytes (line : Line) : Bytes :=
  line.content ++ line.lineEnd.bytes

/-- The byte stream that the lines make up. -/
def stream (lines : List Line) : Bytes :=
  lines.flatMap bytes

def contents (lines : List Line) : List Bytes :=
  lines.map content

@[simp]
theorem stream_nil : stream [] = [] := rfl

@[simp]
theorem stream_cons (line : Line) (lines : List Line) :
    stream (line :: lines) =
      line.content ++ (line.lineEnd.bytes ++ stream lines) := by
  simp [stream, bytes]

@[simp]
theorem stream_append (left right : List Line) :
    stream (left ++ right) = stream left ++ stream right := by
  simp [stream]

theorem splitLines_content {content : Bytes} (lineEnd : LineEnd) (rest : Bytes)
    (hcontent : ∀ byte ∈ content, byte ≠ Byte.cr ∧ byte ≠ Byte.lf) :
    splitLines (content ++ (lineEnd.bytes ++ rest)) =
      content :: splitLines rest := by
  induction content with
  | nil => cases lineEnd <;> simp [LineEnd.bytes, splitLines, Byte.cr, Byte.lf]
  | cons byte content ih =>
      have hbyte := hcontent byte List.mem_cons_self
      have hrest := ih fun byte hbyte => hcontent byte (List.mem_cons_of_mem _ hbyte)
      rw [List.cons_append, splitLines, if_neg hbyte.2,
        if_neg (fun hpair => hbyte.1 hpair.1), hrest]

/-- The reference splits a stream of lines back into the lines. -/
theorem splitLines_stream (lines : List Line) :
    splitLines (stream lines) = contents lines := by
  induction lines with
  | nil => rfl
  | cons line lines ih =>
      rw [stream_cons, splitLines_content _ _ line.ne_break, ih]
      rfl

/-- The lines of a UTF-8 stream are UTF-8. -/
theorem valid_content {lines : List Line} (hvalid : Valid (stream lines)) :
    ∀ line ∈ lines, Valid line.content := by
  induction lines with
  | nil => simp
  | cons line lines ih =>
      rw [stream_cons] at hvalid
      have hsplit : Valid line.content ∧ Valid (stream lines) := by
        cases hend : line.lineEnd with
        | lf =>
            rw [hend] at hvalid
            exact hvalid.split (by decide)
        | crlf =>
            rw [hend] at hvalid
            have hcr : Valid line.content ∧ Valid (Byte.lf :: stream lines) :=
              hvalid.split (by decide)
            exact ⟨hcr.1, (valid_cons_ascii (by decide) _).mp hcr.2⟩
      intro other hother
      rcases List.mem_cons.mp hother with rfl | hother
      · exact hsplit.1
      · exact ih hsplit.2 other hother

end Line

/-! ## What the framer hears -/

/-- The framer recognises the blank line `line` behind `prev`. -/
def Hears (prev line : Line) : Prop :=
  line.content = [] ∧ (line.lineEnd = .lf ∨ prev.lineEnd = .crlf)

instance (prev line : Line) : Decidable (Hears prev line) :=
  inferInstanceAs (Decidable (_ ∧ _))

/-- Lines collected by the framer and the blank line that ends them. -/
structure HeardBlock where
  lines : List Line
  stop : Line

/-- The blocks that the framer cuts, and the lines behind the last one. -/
def heardBlocks : List Line → List HeardBlock × List Line
  | [] => ([], [])
  | [line] => ([], [line])
  | prev :: line :: rest =>
      if Hears prev line then
        (⟨[prev], line⟩ :: (heardBlocks rest).1, (heardBlocks rest).2)
      else
        match heardBlocks (line :: rest) with
        | ([], tail) => ([], prev :: tail)
        | (block :: blocks, tail) =>
            (⟨prev :: block.lines, block.stop⟩ :: blocks, tail)

/-- The event that the framer makes of the lines of one block. -/
def blockEvents (lines : List Bytes) : List GrammarEvent :=
  (lines.foldl Pending.feed .empty).dispatch

/-!
## The framer on a stream of lines

On a stream made of lines the framer's terminator search finds exactly the
blank lines that it hears, and parsing the block in front of one folds the
field rules over the lines of the block.  So draining the framer yields the
events of the heard blocks, one block at a time.
-/

/-! ## The terminator search over lines -/

variable (index : ℕ)
variable (rest : Bytes)

theorem findDoubleNewlineFrom_skip {byte : Byte} (hbyte : byte ≠ Byte.cr ∧ byte ≠ Byte.lf) :
    findDoubleNewlineFrom index (byte :: rest) =
      findDoubleNewlineFrom (index + 1) rest := by
  cases rest with
  | nil => rfl
  | cons second rest =>
      rw [findDoubleNewlineFrom, if_neg (fun hpair => hbyte.2 hpair.1),
        if_neg (fun hquad => hbyte.1 hquad.1)]

theorem findDoubleNewlineFrom_lf :
    findDoubleNewlineFrom index (Byte.lf :: rest) =
      if rest.head? = some Byte.lf then some (index, 2)
      else findDoubleNewlineFrom (index + 1) rest := by
  cases rest with
  | nil => rfl
  | cons second rest =>
      by_cases hsecond : second = Byte.lf
      · simp [findDoubleNewlineFrom, hsecond]
      · rw [findDoubleNewlineFrom, if_neg (fun hpair => hsecond hpair.2),
          if_neg (fun hquad => absurd hquad.1 (by decide)),
          if_neg (by simpa using hsecond)]

theorem findDoubleNewlineFrom_cr :
    findDoubleNewlineFrom index (Byte.cr :: Byte.lf :: rest) =
      if rest.take 2 = [Byte.cr, Byte.lf] then some (index, 4)
      else findDoubleNewlineFrom (index + 1) (Byte.lf :: rest) := by
  rw [findDoubleNewlineFrom, if_neg (by decide)]
  simp only [true_and]

theorem findDoubleNewlineFrom_content {content : Bytes}
    (hcontent : ∀ byte ∈ content, byte ≠ Byte.cr ∧ byte ≠ Byte.lf) :
    findDoubleNewlineFrom index (content ++ rest) =
      findDoubleNewlineFrom (index + content.length) rest := by
  induction content generalizing index with
  | nil => rfl
  | cons byte content ih =>
      rw [List.cons_append, findDoubleNewlineFrom_skip index _
          (hcontent byte List.mem_cons_self),
        ih (index + 1) fun byte hbyte => hcontent byte (List.mem_cons_of_mem _ hbyte),
        List.length_cons]
      congr 1
      omega

/-! ## Heard blocks -/

/-- What the cutting guarantees of a block: its lines end with one behind which
the stop line is heard. -/
def HeardBlock.WellFormed (block : HeardBlock) : Prop :=
  ∃ init last, block.lines = init ++ [last] ∧ Hears last block.stop

theorem wellFormed_of_mem_heardBlocks (lines : List Line) :
    ∀ block ∈ (heardBlocks lines).1, block.WellFormed := by
  induction lines using heardBlocks.induct with
  | case1 => simp [heardBlocks]
  | case2 line => simp [heardBlocks]
  | case3 prev line rest hhears ih =>
      intro block hblock
      rw [heardBlocks, if_pos hhears] at hblock
      rcases List.mem_cons.mp hblock with rfl | hblock
      · exact ⟨[], prev, rfl, hhears⟩
      · exact ih block hblock
  | case4 prev line rest hhears tail hblocks ih =>
      rw [heardBlocks, if_neg hhears, hblocks]
      simp
  | case5 prev line rest hhears first blocks tail hblocks ih =>
      intro block hblock
      rw [heardBlocks, if_neg hhears, hblocks] at hblock
      rw [hblocks] at ih
      rcases List.mem_cons.mp hblock with rfl | hblock
      · obtain ⟨init, last, hlines, hlast⟩ := ih first List.mem_cons_self
        exact ⟨prev :: init, last, by simp [hlines], hlast⟩
      · exact ih block (List.mem_cons_of_mem _ hblock)

variable {lines : List Line} {block : HeardBlock}

/-- The first heard block, its stop line and what is cut later make up the
lines. -/
theorem heardBlocks_cons {tail : List Line} {blocks : List HeardBlock}
    (hblocks : heardBlocks lines = (block :: blocks, tail)) :
    ∃ rest, lines = block.lines ++ block.stop :: rest ∧
      heardBlocks rest = (blocks, tail) := by
  induction lines using heardBlocks.induct generalizing block blocks with
  | case1 => simp [heardBlocks] at hblocks
  | case2 line => simp [heardBlocks] at hblocks
  | case3 prev line rest hhears _ =>
      rw [heardBlocks, if_pos hhears] at hblocks
      cases hblocks
      exact ⟨rest, rfl, rfl⟩
  | case4 prev line rest hhears tail hlater _ =>
      rw [heardBlocks, if_neg hhears, hlater] at hblocks
      cases hblocks
  | case5 prev line rest hhears first later tail' hlater ih =>
      rw [heardBlocks, if_neg hhears, hlater] at hblocks
      cases hblocks
      obtain ⟨rest', hlines, hrest⟩ := ih hlater
      exact ⟨rest', by simp [hlines], hrest⟩

/-- Without a heard block all lines are left over. -/
theorem heardBlocks_nil {tail : List Line} (hblocks : heardBlocks lines = ([], tail)) :
    tail = lines := by
  induction lines using heardBlocks.induct generalizing tail with
  | case1 =>
      cases hblocks
      rfl
  | case2 line =>
      cases hblocks
      rfl
  | case3 prev line rest hhears _ =>
      rw [heardBlocks, if_pos hhears] at hblocks
      cases hblocks
  | case4 prev line rest hhears later hlater ih =>
      rw [heardBlocks, if_neg hhears, hlater] at hblocks
      cases hblocks
      rw [ih hlater]
  | case5 prev line rest hhears first later tail' hlater _ =>
      rw [heardBlocks, if_neg hhears, hlater] at hblocks
      cases hblocks

/-- Length of the terminator that a heard blank line completes. -/
def termLen (stop : Line) : ℕ :=
  2 * stop.lineEnd.bytes.length

/-- Where the terminator of a heard block starts, counted from the block. -/
def HeardBlock.textLen (block : HeardBlock) : ℕ :=
  (Line.stream block.lines).length + block.stop.lineEnd.bytes.length -
    termLen block.stop

theorem HeardBlock.WellFormed.termLen_le (hblock : block.WellFormed) :
    termLen block.stop ≤
      (Line.stream block.lines).length + block.stop.lineEnd.bytes.length := by
  obtain ⟨init, last, hlines, -, hends⟩ := hblock
  rw [hlines, termLen]
  cases hlast : last.lineEnd <;> cases hstop : block.stop.lineEnd <;>
    simp [hlast, hstop, LineEnd.bytes] at hends ⊢
  all_goals omega

variable {prev line : Line}

/-- A heard blank line completes a terminator right behind the line before it. -/
theorem findDoubleNewlineFrom_heard (rest : List Line) (hhears : Hears prev line) :
    findDoubleNewlineFrom index (Line.stream (prev :: line :: rest)) =
      some (index + HeardBlock.textLen ⟨[prev], line⟩, termLen line) := by
  obtain ⟨hblank, hends⟩ := hhears
  rw [Line.stream_cons, findDoubleNewlineFrom_content _ _ prev.ne_break,
    Line.stream_cons, hblank]
  cases hprev : prev.lineEnd <;> cases hline : line.lineEnd <;>
    simp [hprev, hline, LineEnd.bytes, findDoubleNewlineFrom_lf,
      findDoubleNewlineFrom_cr, HeardBlock.textLen, termLen] at hends ⊢
  · simp [Byte.cr, Byte.lf]
    omega

/-- The first byte of a line is no line feed unless the line is blank. -/
theorem head_stream_ne_lf (rest : List Line) (hhears : ¬Hears prev line) :
    (Line.stream (line :: rest)).head? ≠ some Byte.lf := by
  rw [Line.stream_cons]
  cases hcontent : line.content with
  | nil =>
      cases hline : line.lineEnd with
      | lf => exact absurd ⟨hcontent, Or.inl hline⟩ hhears
      | crlf => simp [LineEnd.bytes, Byte.cr, Byte.lf]
  | cons byte content =>
      have hbyte := line.ne_break byte (by simp [hcontent])
      simpa using hbyte.2

theorem take_stream_ne (rest : List Line) (hhears : ¬Hears prev line)
    (hprev : prev.lineEnd = .crlf) :
    (Line.stream (line :: rest)).take 2 ≠ [Byte.cr, Byte.lf] := by
  have hcontent : line.content ≠ [] :=
    fun hblank => hhears ⟨hblank, Or.inr hprev⟩
  obtain ⟨byte, content, hcons⟩ := List.exists_cons_of_ne_nil hcontent
  have hbyte := line.ne_break byte (by simp [hcons])
  rw [Line.stream_cons, hcons]
  intro htake
  exact hbyte.1 (by simpa using congrArg List.head? htake)

/-- The search passes over a line that no heard blank line follows. -/
theorem findDoubleNewlineFrom_unheard (rest : List Line) (hhears : ¬Hears prev line) :
    findDoubleNewlineFrom index (Line.stream (prev :: line :: rest)) =
      findDoubleNewlineFrom (index + prev.bytes.length)
        (Line.stream (line :: rest)) := by
  rw [Line.stream_cons, findDoubleNewlineFrom_content _ _ prev.ne_break]
  cases hprev : prev.lineEnd with
  | lf =>
      have hhead := head_stream_ne_lf rest hhears
      rw [LineEnd.bytes, List.singleton_append, findDoubleNewlineFrom_lf,
        if_neg hhead, Line.bytes, hprev]
      simp [LineEnd.bytes, Nat.add_assoc]
  | crlf =>
      have hhead := head_stream_ne_lf rest hhears
      have htake := take_stream_ne rest hhears hprev
      rw [LineEnd.bytes, List.cons_append, List.singleton_append,
        findDoubleNewlineFrom_cr, if_neg htake, findDoubleNewlineFrom_lf,
        if_neg hhead, Line.bytes, hprev]
      simp [LineEnd.bytes, Nat.add_assoc]

theorem findDoubleNewlineFrom_single (line : Line) :
    findDoubleNewlineFrom index (Line.stream [line]) = none := by
  rw [Line.stream_cons, findDoubleNewlineFrom_content _ _ line.ne_break]
  cases line.lineEnd <;> rfl

/-- The first terminator of a stream ends the first heard block. -/
theorem findDoubleNewlineFrom_stream (lines : List Line) :
    findDoubleNewlineFrom index (Line.stream lines) =
      (heardBlocks lines).1.head?.map
        fun block => (index + block.textLen, termLen block.stop) := by
  induction lines using heardBlocks.induct generalizing index with
  | case1 => rfl
  | case2 line => exact findDoubleNewlineFrom_single index line
  | case3 prev line rest hhears _ =>
      rw [findDoubleNewlineFrom_heard index rest hhears, heardBlocks,
        if_pos hhears]
      rfl
  | case4 prev line rest hhears tail hblocks ih =>
      rw [findDoubleNewlineFrom_unheard index rest hhears, ih, heardBlocks,
        if_neg hhears, hblocks]
      rfl
  | case5 prev line rest hhears block blocks tail hblocks ih =>
      have hwell : block.WellFormed :=
        wellFormed_of_mem_heardBlocks (line :: rest) block (by simp [hblocks])
      have hterm := hwell.termLen_le
      rw [findDoubleNewlineFrom_unheard index rest hhears, ih, heardBlocks,
        if_neg hhears, hblocks]
      simp only [List.head?_cons, Option.map_some, HeardBlock.textLen,
        Line.stream_cons, List.length_append, Line.bytes, Option.some.injEq,
        Prod.mk.injEq, and_true]
      omega

/-! ## Parsing a heard block -/

variable {line : Bytes}

theorem blockLines_line (hline : Byte.lf ∉ line) :
    blockLines (line ++ Byte.lf :: rest) = line :: blockLines rest := by
  induction line with
  | nil => simp [blockLines]
  | cons byte line ih =>
      rw [List.mem_cons, not_or] at hline
      rw [List.cons_append, blockLines, if_neg (Ne.symm hline.1), ih hline.2]

theorem blockLines_last (hline : Byte.lf ∉ line) :
    blockLines line = if line = [] then [] else [line] := by
  induction line with
  | nil => rfl
  | cons byte line ih =>
      rw [List.mem_cons, not_or] at hline
      rw [blockLines, if_neg (Ne.symm hline.1), ih hline.2]
      cases line <;> rfl

theorem Line.lf_notMem_content (line : Line) : Byte.lf ∉ line.content :=
  line.noBreak.2

theorem stripCr_content (line : Line) : stripCr line.content = line.content := by
  rw [stripCr, if_neg]
  intro hlast
  exact line.noBreak.1 (List.mem_of_getLast? hlast)

theorem stripCr_append_cr (content : Bytes) :
    stripCr (content ++ [Byte.cr]) = content := by
  simp [stripCr]

/-- A line of a block is read up to its line feed and then loses its carriage
return. -/
theorem exists_blockLines_cons (line : Line) (rest : Bytes) :
    ∃ raw, blockLines (line.content ++ (line.lineEnd.bytes ++ rest)) =
      raw :: blockLines rest ∧ stripCr raw = line.content := by
  cases line.lineEnd with
  | lf =>
      refine ⟨line.content, ?_, stripCr_content line⟩
      exact blockLines_line rest line.lf_notMem_content
  | crlf =>
      refine ⟨line.content ++ [Byte.cr], ?_, stripCr_append_cr _⟩
      have hraw : Byte.lf ∉ line.content ++ [Byte.cr] := by
        rw [List.mem_append, not_or]
        exact ⟨line.lf_notMem_content, by decide⟩
      rw [← blockLines_line rest hraw]
      simp [LineEnd.bytes]

/-- The text in front of a terminator: the block's lines up to the last one's
content, and the carriage return of a CRLF that a bare LF follows. -/
def blockText (init : List Line) (last : Line) (spare : Bytes) : Bytes :=
  Line.stream init ++ (last.content ++ spare)

theorem readLines_blockText {spare : Bytes} (fields : EventFields)
    (init : List Line) (last : Line) (hspare : spare = [] ∨ spare = [Byte.cr]) :
    readLines fields (blockLines (blockText init last spare)) =
      (Line.contents (init ++ [last])).foldlM readLine fields := by
  rw [blockText]
  induction init generalizing fields with
  | nil =>
      have hnolf : Byte.lf ∉ last.content ++ spare := by
        rw [List.mem_append, not_or]
        refine ⟨last.lf_notMem_content, ?_⟩
        rcases hspare with rfl | rfl <;> decide
      have hstrip : stripCr (last.content ++ spare) = last.content := by
        rcases hspare with rfl | rfl
        · rw [List.append_nil, stripCr_content]
        · exact stripCr_append_cr _
      rw [Line.stream_nil, List.nil_append, blockLines_last hnolf]
      split_ifs with hempty
      · have hcontent : last.content = [] := (List.append_eq_nil_iff.mp hempty).1
        simp [readLines, Line.contents, hcontent, readLine, pure, Except.pure]
        rfl
      · simp [readLines, Line.contents, hstrip]
  | cons line init ih =>
      obtain ⟨raw, hlines, hraw⟩ := exists_blockLines_cons line
        (Line.stream init ++ (last.content ++ spare))
      rw [Line.stream_cons, List.append_assoc, List.append_assoc, hlines,
        readLines, List.foldlM_cons, hraw, List.cons_append, Line.contents,
        List.map_cons, List.foldlM_cons]
      exact bind_congr fun next => ih next

/-- A heard block's text ends right before its terminator. -/
theorem exists_blockText (hblock : block.WellFormed) :
    ∃ init last spare term, block.lines = init ++ [last] ∧
      (spare = [] ∨ spare = [Byte.cr]) ∧
      Line.stream block.lines ++ block.stop.bytes =
        blockText init last spare ++ term ∧
      block.textLen = (blockText init last spare).length ∧
      term.length = termLen block.stop := by
  obtain ⟨init, last, hlines, hblank, hends⟩ := hblock
  have hstream : Line.stream block.lines =
      Line.stream init ++ (last.content ++ last.lineEnd.bytes) := by
    simp [hlines]
  have hstop : block.stop.bytes = block.stop.lineEnd.bytes := by
    simp [Line.bytes, hblank]
  rw [hstream, hstop, HeardBlock.textLen, hstream, termLen]
  cases hlast : last.lineEnd with
  | lf =>
      have hstopEnd : block.stop.lineEnd = .lf := by simpa [hlast] using hends
      refine ⟨init, last, [], [Byte.lf, Byte.lf], hlines, Or.inl rfl, ?_⟩
      simp [blockText, hstopEnd, LineEnd.bytes]
  | crlf =>
      cases hstopEnd : block.stop.lineEnd with
      | lf =>
          refine ⟨init, last, [Byte.cr], [Byte.lf, Byte.lf], hlines, Or.inr rfl, ?_⟩
          simp [blockText, LineEnd.bytes]
      | crlf =>
          refine ⟨init, last, [], [Byte.cr, Byte.lf, Byte.cr, Byte.lf], hlines,
            Or.inl rfl, ?_⟩
          simp [blockText, LineEnd.bytes]
          omega

/-- What the framer makes of the lines of one block. -/
def parseLines (lines : List Bytes) : Except FramingError (Option SseEvent) :=
  (lines.foldlM readLine EventFields.empty).map EventFields.finish

/-- One pass of the framer over a stream of lines consumes the first heard
block together with its stop line. -/
theorem nextFrame_stream (lines : List Line) :
    (∀ tail, heardBlocks lines = ([], tail) →
      nextFrame (Line.stream lines) = (none, Line.stream lines)) ∧
    (∀ block blocks tail, heardBlocks lines = (block :: blocks, tail) →
      ∃ rest, lines = block.lines ++ block.stop :: rest ∧
        heardBlocks rest = (blocks, tail) ∧
        nextFrame (Line.stream lines) =
          match parseLines (Line.contents block.lines) with
          | .ok (some event) => (some (.ok event), Line.stream rest)
          | .ok none => nextFrame (Line.stream rest)
          | .error error => (some (.error error), Line.stream rest)) := by
  have hfind := findDoubleNewlineFrom_stream 0 lines
  constructor
  · intro tail hblocks
    rw [nextFrame_eq, findDoubleNewline, hfind, hblocks]
    rfl
  · intro block blocks tail hblocks
    obtain ⟨rest, hlines, hrest⟩ := heardBlocks_cons hblocks
    have hwell : block.WellFormed :=
      wellFormed_of_mem_heardBlocks lines block (by simp [hblocks])
    obtain ⟨init, last, spare, term, hblock, hspare, hstream, htext, hterm⟩ :=
      exists_blockText hwell
    have hbuf : Line.stream lines =
        blockText init last spare ++ (term ++ Line.stream rest) := by
      rw [hlines, Line.stream_append, ← List.append_assoc, ← hstream]
      simp [Line.stream]
    have hparse : parseEventBlock (blockText init last spare) =
        parseLines (Line.contents block.lines) := by
      rw [parseEventBlock, readLines_blockText _ init last hspare, ← hblock]
      rfl
    refine ⟨rest, hlines, hrest, ?_⟩
    rw [nextFrame_eq, findDoubleNewline, hfind, hblocks, hbuf]
    simp only [List.head?_cons, Option.map_some, Nat.zero_add, htext, ← hterm,
      List.take_left, List.drop_left, hparse] <;> rfl

/-! ## Draining a stream of lines -/

/-- An event as the grammar sees it. -/
def SseEvent.toGrammar (event : SseEvent) : GrammarEvent :=
  ⟨event.eventName.map Utf8String.bytes, event.data⟩

/-- The collected fields and the pending event agree. -/
def Matches (fields : EventFields) (pending : Pending) : Prop :=
  fields.eventName.map Utf8String.bytes = pending.name ∧
    fields.dataParts = pending.data

theorem valid_fieldValue (hvalid : Valid line) : Valid (fieldValue line) := by
  rw [fieldValue]
  have hsplit := List.takeWhile_append_dropWhile (p := (· ≠ Byte.colon)) (l := line)
  cases hdrop : line.dropWhile (· ≠ Byte.colon) with
  | nil => exact valid_nil
  | cons byte rest =>
      have hbyte : byte = Byte.colon := by
        have hhead := List.head?_dropWhile_not (· ≠ Byte.colon) line
        rw [hdrop] at hhead
        simpa using hhead
      rw [hdrop, hbyte] at hsplit
      rw [← hsplit] at hvalid
      have hrest : Valid rest := (hvalid.split (by decide)).2
      cases rest with
      | nil => exact valid_nil
      | cons first rest =>
          by_cases hspace : first = Byte.space
          · subst hspace
            simpa using (valid_cons_ascii (by decide) rest).mp hrest
          · simpa [hspace] using hrest

variable {fields : EventFields} {pending : Pending}

theorem readLine_matches (hvalid : Valid line) (hmatches : Matches fields pending) :
    ∃ next, readLine fields line = .ok next ∧ Matches next (pending.feed line) := by
  obtain ⟨hname, hdata⟩ := hmatches
  by_cases hempty : line = []
  · subst hempty
    exact ⟨fields, rfl, hname, hdata⟩
  rw [readLine, if_neg hempty, Pending.feed]
  split_ifs with hcomment hevent hdataField
  · exact ⟨fields, rfl, hname, hdata⟩
  · rw [fromUtf8_of_valid (valid_fieldValue hvalid)]
    exact ⟨_, rfl, rfl, hdata⟩
  · exact ⟨_, rfl, hname, by simp [hdata]⟩
  · exact ⟨fields, rfl, hname, hdata⟩

theorem foldlM_readLine_matches {lines : List Bytes} (hvalid : ∀ line ∈ lines, Valid line)
    (hmatches : Matches fields pending) :
    ∃ next, lines.foldlM readLine fields = .ok next ∧
      Matches next (lines.foldl Pending.feed pending) := by
  induction lines generalizing fields pending with
  | nil => exact ⟨fields, rfl, hmatches⟩
  | cons line lines ih =>
      obtain ⟨middle, hline, hmiddle⟩ :=
        readLine_matches (hvalid line List.mem_cons_self) hmatches
      obtain ⟨next, hlines, hnext⟩ :=
        ih (fun other hother => hvalid other (List.mem_cons_of_mem _ hother)) hmiddle
      exact ⟨next, by rw [List.foldlM_cons, hline]; exact hlines, hnext⟩

/-- The event that the framer parses from valid lines is the one that the
grammar collects from them. -/
theorem parseLines_valid {lines : List Bytes} (hvalid : ∀ line ∈ lines, Valid line) :
    ∃ parsed, parseLines lines = .ok parsed ∧
      (parsed.map SseEvent.toGrammar).toList = blockEvents lines := by
  have hempty : Matches .empty .empty := ⟨rfl, rfl⟩
  obtain ⟨fields, hfold, hname, hdata⟩ := foldlM_readLine_matches hvalid hempty
  refine ⟨fields.finish, by rw [parseLines, hfold]; rfl, ?_⟩
  rw [blockEvents, Pending.dispatch, ← hname, ← hdata, EventFields.finish]
  split_ifs <;> rfl

/-- The events and errors of a framer, as the grammar sees them. -/
def grammarOutputs (outputs : List (Except FramingError SseEvent)) :
    List (Except FramingError GrammarEvent) :=
  outputs.map (·.map SseEvent.toGrammar)

/-- Draining a UTF-8 stream of lines yields the events of its heard blocks. -/
theorem drain_stream (hvalid : Valid (Line.stream lines)) :
    grammarOutputs (frameDecoder.drain (Line.stream lines)).1 =
      ((heardBlocks lines).1.flatMap
        fun block => blockEvents (Line.contents block.lines)).map .ok := by
  have hcontents := Line.valid_content hvalid
  clear hvalid
  induction hlength : lines.length using Nat.strong_induction_on
    generalizing lines with
  | _ length ih =>
      subst hlength
      obtain ⟨hnone, hsome⟩ := nextFrame_stream lines
      rcases hblocks : heardBlocks lines with ⟨_ | ⟨block, blocks⟩, tail⟩
      · rw [frameDecoder.drain_of_none (hnone tail hblocks)]
        rfl
      · obtain ⟨rest, hlines, hrest, hnext⟩ := hsome block blocks tail hblocks
        have hvalidBlock : ∀ content ∈ Line.contents block.lines, Valid content := by
          intro content hcontent
          obtain ⟨line, hline, rfl⟩ := List.mem_map.mp hcontent
          exact hcontents line (by rw [hlines]; exact List.mem_append_left _ hline)
        have hcontentsRest : ∀ line ∈ rest, Valid line.content := by
          intro line hline
          apply hcontents line
          rw [hlines]
          exact List.mem_append_right _ (List.mem_cons_of_mem _ hline)
        have hlater := ih rest.length (by rw [hlines]; simp; omega) hcontentsRest rfl
        rw [hrest] at hlater
        obtain ⟨parsed, hparse, hevents⟩ := parseLines_valid hvalidBlock
        rw [hparse] at hnext
        simp only [List.flatMap_cons, List.map_append, ← hevents]
        cases parsed with
        | none =>
            rw [frameDecoder.drain_congr hnext, hlater]
            rfl
        | some event =>
            rw [frameDecoder.drain_of_some hnext rfl]
            simp only [grammarOutputs, List.map_cons] at hlater ⊢
            rw [hlater]
            rfl

end Legroom.Sse
