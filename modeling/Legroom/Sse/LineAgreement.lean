import Legroom.Sse.HeardBlocks

/-!
# When the framer agrees with the line grammar

The framer and the grammar differ only through blank lines that the framer does
not hear: a CRLF blank line right behind a line that ends in a bare LF.  Such a
line leaves two events in one block.  The block still gives the right events
when at most one of the merged stretches has data and the name of that stretch
survives, and this is the exact condition.
-/

namespace Legroom.Sse

open Utf8

/-! ## Fields of a list of lines -/

def eventField (line : Bytes) : Option Bytes :=
  if line.head? ≠ some Byte.colon ∧ fieldName line = ascii "event" then
    some (fieldValue line)
  else none

def dataField (line : Bytes) : Option Bytes :=
  if line.head? ≠ some Byte.colon ∧ fieldName line = ascii "data" then
    some (fieldValue line)
  else none

/-- The name that the last `event` line gives. -/
def lastEventName (lines : List Bytes) : Option Bytes :=
  (lines.filterMap eventField).getLast?

def dataValues (lines : List Bytes) : List Bytes :=
  lines.filterMap dataField

theorem ascii_event_ne_data : ascii "event" ≠ ascii "data" := by decide

variable (pending : Pending)

theorem feed_eq (line : Bytes) :
    pending.feed line =
      ⟨(eventField line).or pending.name, pending.data ++ (dataField line).toList⟩ := by
  rw [Pending.feed, eventField, dataField]
  by_cases hcomment : line.head? = some Byte.colon
  · simp [hcomment]
  by_cases hevent : fieldName line = ascii "event"
  · simp [hcomment, hevent, ascii_event_ne_data]
  by_cases hdata : fieldName line = ascii "data"
  · simp [hcomment, hdata, ascii_event_ne_data.symm]
  · simp [hcomment, hevent, hdata]

theorem foldl_feed (lines : List Bytes) :
    lines.foldl Pending.feed pending =
      ⟨(lastEventName lines).or pending.name, pending.data ++ dataValues lines⟩ := by
  induction lines generalizing pending with
  | nil => simp [lastEventName, dataValues]
  | cons line lines ih =>
      rw [List.foldl_cons, ih, feed_eq]
      simp only [lastEventName, dataValues, List.filterMap_cons]
      cases hevent : eventField line <;> cases hdata : dataField line <;>
        simp [List.getLast?_cons]

variable (lines : List Bytes)

/-- The event of a list of lines, if they carry data. -/
theorem blockEvents_eq :
    blockEvents lines =
      if dataValues lines = [] then []
      else [⟨lastEventName lines, [Byte.lf].intercalate (dataValues lines)⟩] := by
  rw [blockEvents, foldl_feed, Pending.dispatch]
  simp [Pending.empty]

/-! ## Stretches between blank lines -/

/-- The stretches of lines that blank lines close, and the open one. -/
def splitBlank : List Bytes → List (List Bytes) × List Bytes
  | [] => ([], [])
  | line :: lines =>
      if line = [] then ([] :: (splitBlank lines).1, (splitBlank lines).2)
      else
        match splitBlank lines with
        | ([], rest) => ([], line :: rest)
        | (stretch :: stretches, rest) => ((line :: stretch) :: stretches, rest)

/-- All stretches of a block whose stop line closes the last one. -/
def stretches (lines : List Bytes) : List (List Bytes) :=
  (splitBlank lines).1 ++ [(splitBlank lines).2]

theorem splitBlank_append (left right : List Bytes) :
    splitBlank (left ++ [] :: right) =
      (stretches left ++ (splitBlank right).1, (splitBlank right).2) := by
  induction left with
  | nil => simp [splitBlank, stretches]
  | cons line left ih =>
      rw [List.cons_append, splitBlank, ih, stretches, stretches, splitBlank]
      by_cases hblank : line = []
      · simp [hblank]
      · rw [if_neg hblank, if_neg hblank]
        rcases splitBlank left with ⟨_ | ⟨stretch, closed⟩, rest⟩ <;> rfl

theorem grammarFrom_eq (lines : List Bytes) :
    grammarFrom pending lines =
      match (splitBlank lines).1 with
      | [] => []
      | stretch :: closed =>
          (stretch.foldl Pending.feed pending).dispatch ++
            closed.flatMap blockEvents := by
  induction lines generalizing pending with
  | nil => rfl
  | cons line lines ih =>
      cases line with
      | nil =>
          rw [grammarFrom, ih, splitBlank, if_pos rfl]
          rcases splitBlank lines with ⟨_ | ⟨stretch, closed⟩, rest⟩ <;> rfl
      | cons byte line =>
          rw [grammarFrom, ih, splitBlank, if_neg (List.cons_ne_nil _ _)]
          · rcases splitBlank lines with ⟨_ | ⟨stretch, closed⟩, rest⟩ <;> rfl
          · exact List.cons_ne_nil _ _

/-- The grammar dispatches every closed stretch. -/
theorem grammarFrom_empty :
    grammarFrom .empty lines = (splitBlank lines).1.flatMap blockEvents := by
  rw [grammarFrom_eq]
  cases (splitBlank lines).1 <;> rfl

theorem filterMap_stretches {field : Bytes → Option Bytes} (hblank : field [] = none)
    (lines : List Bytes) :
    lines.filterMap field = (stretches lines).flatMap (·.filterMap field) := by
  induction lines with
  | nil => rfl
  | cons line lines ih =>
      rw [stretches, splitBlank]
      rw [stretches] at ih
      split_ifs with hline
      · simp [hline, hblank, ih]
      · rcases hsplit : splitBlank lines with ⟨_ | ⟨stretch, closed⟩, rest⟩ <;>
          cases hfield : field line <;> simp_all

theorem dataValues_stretches : dataValues lines = (stretches lines).flatMap dataValues :=
  filterMap_stretches (by decide) lines

/-! ## The condition on one block -/

/-- Merging the stretches of a block keeps its events: at most one of them has
data, and it ends up under its own event name. -/
def KeepsEvents (lines : List Bytes) : Prop :=
  ((stretches lines).filter (dataValues · ≠ [])).length ≤ 1 ∧
    ∀ stretch ∈ stretches lines, dataValues stretch ≠ [] →
      lastEventName stretch = lastEventName lines

instance (lines : List Bytes) : Decidable (KeepsEvents lines) :=
  inferInstanceAs (Decidable (_ ∧ _))

theorem flatMap_filter {A B : Type*} {keep : A → Bool} {f : A → List B}
    (hskip : ∀ value, keep value = false → f value = []) (values : List A) :
    values.flatMap f = (values.filter keep).flatMap f := by
  induction values with
  | nil => rfl
  | cons value values ih =>
      cases hkeep : keep value with
      | true => simp [hkeep, ih]
      | false => simp [hkeep, hskip value hkeep, ih]

theorem blockEvents_eq_flatMap_stretches_iff :
    blockEvents lines = (stretches lines).flatMap blockEvents ↔
      KeepsEvents lines := by
  have hskip : ∀ stretch : List Bytes,
      (decide (dataValues stretch ≠ [])) = false → dataValues stretch = [] := by
    intro stretch hstretch
    simpa using hstretch
  have hdata : dataValues lines =
      ((stretches lines).filter (dataValues · ≠ [])).flatMap dataValues := by
    rw [dataValues_stretches]
    exact flatMap_filter hskip _
  have hevents : (stretches lines).flatMap blockEvents =
      ((stretches lines).filter (dataValues · ≠ [])).flatMap blockEvents :=
    flatMap_filter (fun stretch hstretch => by
      rw [blockEvents_eq, if_pos (hskip stretch hstretch)]) _
  have hmem : ∀ stretch, stretch ∈ (stretches lines).filter (dataValues · ≠ []) ↔
      stretch ∈ stretches lines ∧ dataValues stretch ≠ [] := by
    intro stretch
    simp
  rw [hevents, KeepsEvents]
  generalize (stretches lines).filter (dataValues · ≠ []) = bearing at *
  match bearing with
  | [] =>
      simp only [List.flatMap_nil] at hdata ⊢
      rw [blockEvents_eq, if_pos hdata]
      simp only [List.length_nil, zero_le, true_and, true_iff]
      intro stretch hstretch hne
      exact absurd ((hmem stretch).mpr ⟨hstretch, hne⟩) (by simp)
  | [stretch] =>
      have hbearing := (hmem stretch).mp List.mem_cons_self
      simp only [List.flatMap_cons, List.flatMap_nil, List.append_nil] at hdata ⊢
      rw [blockEvents_eq, blockEvents_eq, hdata, if_neg hbearing.2, if_neg hbearing.2]
      simp only [List.cons.injEq, GrammarEvent.mk.injEq, and_true, List.length_cons,
        List.length_nil, zero_add, le_refl, true_and]
      constructor
      · intro hname other hother hne
        obtain rfl : other = stretch := by
          simpa using (hmem other).mpr ⟨hother, hne⟩
        exact hname.symm
      · intro hkeeps
        exact (hkeeps stretch hbearing.1 hbearing.2).symm
  | first :: second :: rest =>
      have hfirst := ((hmem first).mp (by simp)).2
      have hsecond := ((hmem second).mp (by simp)).2
      have hlong : ¬(first :: second :: rest).length ≤ 1 := by simp
      simp only [hlong, false_and, iff_false]
      intro heq
      have hlength := congrArg List.length heq
      rw [List.flatMap_cons, List.flatMap_cons, blockEvents_eq first,
        blockEvents_eq second, if_neg hfirst, if_neg hsecond, blockEvents_eq lines]
        at hlength
      split_ifs at hlength <;> simp at hlength

/-- Merging stretches never adds an event. -/
theorem length_blockEvents_le :
    (blockEvents lines).length ≤ ((stretches lines).flatMap blockEvents).length := by
  rw [blockEvents_eq]
  split_ifs with hdata
  · simp
  · rw [dataValues_stretches, List.flatMap_eq_nil_iff] at hdata
    push Not at hdata
    obtain ⟨stretch, hstretch, hne⟩ := hdata
    have hmem : (⟨lastEventName stretch, [Byte.lf].intercalate (dataValues stretch)⟩ :
        GrammarEvent) ∈ (stretches lines).flatMap blockEvents := by
      rw [List.mem_flatMap]
      exact ⟨stretch, hstretch, by rw [blockEvents_eq, if_neg hne]; simp⟩
    exact List.length_pos_of_mem hmem

/-! ## The condition on a stream -/

theorem length_flatMap_le {A B : Type*} {f g : A → List B} {values : List A}
    (hle : ∀ value ∈ values, (f value).length ≤ (g value).length) :
    (values.flatMap f).length ≤ (values.flatMap g).length := by
  induction values with
  | nil => exact le_rfl
  | cons value values ih =>
      have hhead := hle value List.mem_cons_self
      have htail := ih fun other hother => hle other (List.mem_cons_of_mem _ hother)
      simp only [List.flatMap_cons, List.length_append]
      omega

/-- Concatenations of pointwise shorter lists agree only pointwise. -/
theorem flatMap_eq_append_iff {A B : Type*} {f g : A → List B} {values : List A}
    (hle : ∀ value ∈ values, (f value).length ≤ (g value).length) (extra : List B) :
    values.flatMap f = values.flatMap g ++ extra ↔
      (∀ value ∈ values, f value = g value) ∧ extra = [] := by
  constructor
  · intro heq
    induction values with
    | nil => simpa using heq.symm
    | cons value values ih =>
        have hhead := hle value List.mem_cons_self
        have hrest := fun other hother => hle other (List.mem_cons_of_mem value hother)
        have htail := length_flatMap_le hrest
        have hlength := congrArg List.length heq
        simp only [List.flatMap_cons, List.length_append, List.append_assoc] at heq hlength
        obtain ⟨hfirst, hlater⟩ := List.append_inj heq (by omega)
        obtain ⟨hall, hextra⟩ := ih hrest hlater
        refine ⟨?_, hextra⟩
        intro other hother
        rcases List.mem_cons.mp hother with rfl | hother
        · exact hfirst
        · exact hall other hother
  · rintro ⟨hall, rfl⟩
    rw [List.append_nil]
    exact List.flatMap_congr hall

/-- The grammar's events, arranged along the blocks that the framer hears. -/
theorem grammarEvents_stream (lines : List Line) :
    grammarEvents (Line.stream lines) =
      (heardBlocks lines).1.flatMap
          (fun block => (stretches (Line.contents block.lines)).flatMap blockEvents) ++
        (splitBlank (Line.contents (heardBlocks lines).2)).1.flatMap blockEvents := by
  rw [grammarEvents, Line.splitLines_stream, grammarFrom_empty]
  induction hlength : lines.length using Nat.strong_induction_on
    generalizing lines with
  | _ length ih =>
      subst hlength
      rcases hblocks : heardBlocks lines with ⟨_ | ⟨block, blocks⟩, tail⟩
      · rw [heardBlocks_nil hblocks]
        rfl
      · obtain ⟨rest, hlines, hrest⟩ := heardBlocks_cons hblocks
        obtain ⟨init, last, -, hblank, -⟩ :=
          wellFormed_of_mem_heardBlocks lines block (by simp [hblocks])
        have hcontents : Line.contents lines =
            Line.contents block.lines ++ [] :: Line.contents rest := by
          rw [hlines]
          simp [Line.contents, hblank]
        have hlater := ih rest.length (by rw [hlines]; simp; omega) rest rfl
        rw [hrest] at hlater
        rw [hcontents, splitBlank_append, List.flatMap_append, hlater,
          List.flatMap_cons, List.append_assoc]

/-- The framer's events of a stream pushed at once are the grammar's. -/
def AgreesWithGrammar (stream : Bytes) : Prop :=
  grammarOutputs (SseFramer.new.push stream).drain.1 =
    (grammarEvents stream).map .ok

/-- No event is lost to a blank line that the framer does not hear: every block
keeps its events, and behind the last block no stretch with data is closed. -/
def NoEventLost (lines : List Line) : Prop :=
  (∀ block ∈ (heardBlocks lines).1, KeepsEvents (Line.contents block.lines)) ∧
    ∀ stretch ∈ (splitBlank (Line.contents (heardBlocks lines).2)).1,
      dataValues stretch = []

theorem framer_outputs_stream {lines : List Line}
    (hvalid : Valid (Line.stream lines)) :
    grammarOutputs (SseFramer.new.push (Line.stream lines)).drain.1 =
      ((heardBlocks lines).1.flatMap
        fun block => blockEvents (Line.contents block.lines)).map .ok := by
  rw [SseFramer.drain_eq, ← drain_stream hvalid]
  rfl

/-- On a UTF-8 stream of LF and CRLF lines in any mixture, the framer yields
the events of the line grammar exactly when no event is lost. -/
theorem agreesWithGrammar_iff {lines : List Line}
    (hvalid : Valid (Line.stream lines)) :
    AgreesWithGrammar (Line.stream lines) ↔ NoEventLost lines := by
  have hinjective : Function.Injective
      (Except.ok : GrammarEvent → Except FramingError GrammarEvent) :=
    fun left right heq => by cases heq; rfl
  rw [AgreesWithGrammar, framer_outputs_stream hvalid,
    (List.map_injective_iff.mpr hinjective).eq_iff, grammarEvents_stream,
    flatMap_eq_append_iff fun block _ => length_blockEvents_le _, NoEventLost]
  refine and_congr ?_ ?_
  · exact forall₂_congr fun block _ => blockEvents_eq_flatMap_stretches_iff _
  · rw [List.flatMap_eq_nil_iff]
    refine forall₂_congr fun stretch _ => ?_
    rw [blockEvents_eq]
    split_ifs with hdata <;> simp [hdata]

/-- `data: a` ending in LF, a CRLF blank line, then `data: b` and an LF blank
line: the first blank line is not heard. -/
def unheardBlankLine : List Line :=
  [⟨ascii "data: a", .lf, by decide⟩, ⟨[], .crlf, by decide⟩,
    ⟨ascii "data: b", .lf, by decide⟩, ⟨[], .lf, by decide⟩]

/-- The framer merges the two events that the grammar finds there. -/
theorem unheardBlankLine_merges :
    Valid (Line.stream unheardBlankLine) ∧
      grammarOutputs
          (SseFramer.new.push (Line.stream unheardBlankLine)).drain.1 =
        [.ok ⟨none, ascii "a\nb"⟩] ∧
      grammarEvents (Line.stream unheardBlankLine) =
        [⟨none, ascii "a"⟩, ⟨none, ascii "b"⟩] ∧
      ¬AgreesWithGrammar (Line.stream unheardBlankLine) := by
  have hvalid : Valid (Line.stream unheardBlankLine) := by decide
  have houtputs : grammarOutputs
      (SseFramer.new.push (Line.stream unheardBlankLine)).drain.1 =
        [.ok ⟨none, ascii "a\nb"⟩] := by
    rw [framer_outputs_stream hvalid]
    decide
  have hevents : grammarEvents (Line.stream unheardBlankLine) =
      [⟨none, ascii "a"⟩, ⟨none, ascii "b"⟩] := by decide
  refine ⟨hvalid, houtputs, hevents, ?_⟩
  rw [AgreesWithGrammar, houtputs, hevents]
  decide

/-- Two events in mixed line ends on which framer and grammar agree. -/
theorem agreesWithGrammar_iff_mixed :
    AgreesWithGrammar (ascii "event: x\ndata: a\r\n\r\ndata: b\r\n\n") := by
  let lines : List Line :=
    [⟨ascii "event: x", .lf, by decide⟩, ⟨ascii "data: a", .crlf, by decide⟩,
      ⟨[], .crlf, by decide⟩, ⟨ascii "data: b", .crlf, by decide⟩,
      ⟨[], .lf, by decide⟩]
  have hvalid : Valid (Line.stream lines) := by decide
  have hkeeps : NoEventLost lines := by
    rw [NoEventLost]
    decide
  have hstream : Line.stream lines =
      ascii "event: x\ndata: a\r\n\r\ndata: b\r\n\n" := by decide
  rw [← hstream]
  exact (agreesWithGrammar_iff hvalid).mpr hkeeps

end Legroom.Sse
