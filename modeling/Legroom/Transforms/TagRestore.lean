import Legroom.Lib.BracketTokens
import Legroom.Transforms.TagReading

/-!
# Protecting and restoring

Restoring gives back the text, and puts the tags of any text with the placeholders
in at once, exactly if no placeholder is spelled by the text itself where it would
be mistaken for one.
-/

namespace Legroom.Transforms

open Utf8 (decimal)

/-! ## Placeholders -/

def leftBrace : Byte := 0x7B
def rightBrace : Byte := 0x7D

/-- The ends of a tag. -/
def angled (byte : Byte) : Bool := byte == lessThan || byte == greaterThan

/-- Two braces and a name. -/
structure PlaceholderPrefix where
  name : Bytes
  plain : ∀ byte ∈ name, byte ≠ leftBrace ∧ byte ≠ rightBrace ∧ angled byte = false

def PlaceholderPrefix.bytes (tagPrefix : PlaceholderPrefix) : Bytes :=
  leftBrace :: leftBrace :: tagPrefix.name

theorem plain_of_digit {byte : Byte} (hbyte : 0x30 ≤ byte ∧ byte ≤ 0x39) :
    byte ≠ leftBrace ∧ byte ≠ rightBrace ∧ angled byte = false := by
  have hne : ∀ other : Byte, ¬(0x30 ≤ other ∧ other ≤ 0x39) → byte ≠ other := by
    rintro other hother rfl
    exact hother hbyte
  refine ⟨hne _ (by decide), hne _ (by decide), ?_⟩
  rw [angled, beq_eq_false_iff_ne.mpr (hne lessThan (by decide)),
    beq_eq_false_iff_ne.mpr (hne greaterThan (by decide))]
  rfl

theorem plain_of_all {bytes : Bytes}
    (hall : bytes.all fun byte => byte != leftBrace && byte != rightBrace && !angled byte) :
    ∀ byte ∈ bytes, byte ≠ leftBrace ∧ byte ≠ rightBrace ∧ angled byte = false := by
  intro byte hbyte
  simpa [and_assoc] using List.all_eq_true.mp hall byte hbyte

theorem placeholderSuffix_eq : placeholderSuffix = [rightBrace, rightBrace] := by decide

theorem exists_prefix (text : Bytes) :
    ∃ tagPrefix : PlaceholderPrefix, (pickPlaceholderPrefix text).1 = tagPrefix.bytes := by
  rw [pickPlaceholderPrefix]
  split_ifs
  · split
    · rename_i salt _
      refine ⟨⟨ascii "LEGROOM_TAG_" ++ (decimal salt ++ ascii "_"), fun byte hbyte => ?_⟩, ?_⟩
      · rcases List.mem_append.mp hbyte with hbyte | hbyte
        · exact plain_of_all (by decide) byte hbyte
        · rcases List.mem_append.mp hbyte with hbyte | hbyte
          · exact plain_of_digit (Utf8.digit_of_mem_decimal hbyte)
          · exact plain_of_all (by decide) byte hbyte
      · exact List.append_assoc _ _ _
    · exact ⟨⟨ascii "LEGROOM_TAG_FALLBACK_a4f1c7e2_", plain_of_all (by decide)⟩, rfl⟩
  · exact ⟨⟨ascii "LEGROOM_TAG_", plain_of_all (by decide)⟩, rfl⟩

namespace PlaceholderPrefix

variable (tagPrefix : PlaceholderPrefix)

theorem plain_of_mem (counter : ℕ) {byte : Byte}
    (hbyte : byte ∈ tagPrefix.name ++ decimal counter) :
    byte ≠ leftBrace ∧ byte ≠ rightBrace ∧ angled byte = false := by
  rcases List.mem_append.mp hbyte with hbyte | hbyte
  · exact tagPrefix.plain byte hbyte
  · exact plain_of_digit (Utf8.digit_of_mem_decimal hbyte)

/-- The placeholders are names in braces. -/
def brackets : Brackets Byte where
  left := leftBrace
  right := rightBrace
  left_ne_right := by decide
  name counter := tagPrefix.name ++ decimal counter
  name_injective _ _ heq := Utf8.decimal_injective (List.append_cancel_left heq)
  left_not_mem counter hmem := (tagPrefix.plain_of_mem counter hmem).1 rfl
  right_not_mem counter hmem := (tagPrefix.plain_of_mem counter hmem).2.1 rfl

theorem placeholder_eq : placeholder tagPrefix.bytes = tagPrefix.brackets.token := by
  funext counter
  rw [placeholder, placeholderSuffix_eq]
  rfl

def tokens : Tokens Byte where
  token := placeholder tagPrefix.bytes
  ne_nil := by
    rw [placeholder_eq]
    exact tagPrefix.brackets.tokens.ne_nil
  eq_of_prefix := by
    rw [placeholder_eq]
    exact tagPrefix.brackets.eq_of_prefix
  not_prefix_back := by
    rw [placeholder_eq]
    exact tagPrefix.brackets.not_prefix_back
  prefix_of_append := by
    rw [placeholder_eq]
    exact tagPrefix.brackets.prefix_of_append

/-- No placeholder contains a `<` or a `>`. -/
theorem light (counter : ℕ) (byte : Byte) (hbyte : byte ∈ tagPrefix.tokens.token counter) :
    angled byte = false := by
  rw [show tagPrefix.tokens.token counter = placeholder tagPrefix.bytes counter from rfl,
    placeholder_eq] at hbyte
  have hleft : angled leftBrace = false := by decide
  rcases List.mem_cons.mp hbyte with rfl | hbyte
  · exact hleft
  · rcases List.mem_cons.mp hbyte with rfl | hbyte
    · exact hleft
    · rcases List.mem_append.mp hbyte with hbyte | hbyte
      · exact (tagPrefix.plain_of_mem counter hbyte).2.2
      · obtain rfl : byte = rightBrace := by simpa [brackets] using hbyte
        decide

end PlaceholderPrefix

/-! ## The segments of a text -/

open Segment Tokens

/-- The bytes outside the spans, and a mark for every span. -/
def segmentsFrom (text : Bytes) : ℕ → ℕ → List Span → List (Segment Byte)
  | cursor, _, [] => (text.drop cursor).map .item
  | cursor, counter, span :: spans =>
      (sliceRange text cursor span.start).map .item ++
        .mark counter :: segmentsFrom text span.stop (counter + 1) spans

/-- The tag in a span. -/
def original (text : Bytes) (spans : List Span) (number : ℕ) : Bytes :=
  match spans[number]? with
  | some span => sliceRange text span.start span.stop
  | none => []

/-- Spans in order behind a cursor, each enclosed in `<` and `>`. -/
def SpansFrom (text : Bytes) : ℕ → List Span → Prop
  | cursor, [] => cursor ≤ text.length
  | cursor, span :: spans => cursor ≤ span.start ∧ span.start < span.stop ∧
      text[span.start]? = some lessThan ∧ text[span.stop - 1]? = some greaterThan ∧
      SpansFrom text span.stop spans

theorem spansFrom_identifySpans (text : Bytes) (compressTaggedContent : Bool) :
    SpansFrom text 0 (identifySpans text compressTaggedContent).1 := by
  obtain ⟨htags, hsorted⟩ := ordered_identifySpans text compressTaggedContent
  suffices hfrom : ∀ (cursor : ℕ) (spans : List Span), cursor ≤ text.length →
      (∀ span ∈ spans, cursor ≤ span.start) →
      (∀ span ∈ spans, span.start < span.stop ∧ span.stop ≤ text.length ∧
        text[span.start]? = some lessThan ∧ text[span.stop - 1]? = some greaterThan) →
      (spans.Pairwise fun left right => left.stop ≤ right.start) → SpansFrom text cursor spans from
    hfrom 0 _ (Nat.zero_le _) (fun _ _ => Nat.zero_le _) htags hsorted
  intro cursor spans
  induction spans generalizing cursor with
  | nil => exact fun hcursor _ _ _ => hcursor
  | cons span spans ih =>
      intro _ hbehind htags hsorted
      obtain ⟨⟨hlt, hle, hfirst, hlast⟩, htags⟩ := List.forall_mem_cons.mp htags
      obtain ⟨hnext, hsorted⟩ := List.pairwise_cons.mp hsorted
      exact ⟨hbehind span List.mem_cons_self, hlt, hfirst, hlast,
        ih span.stop hle hnext htags hsorted⟩

variable {text : Bytes}

/-- The output is the text with the placeholders in the place of the spans. -/
theorem emitFrom_eq (tagPrefix : PlaceholderPrefix) {cursor : ℕ} (counter : ℕ) {spans : List Span}
    (hspans : SpansFrom text cursor spans) :
    emitFrom text tagPrefix.bytes cursor counter spans =
      some (tagPrefix.tokens.render (segmentsFrom text cursor counter spans),
        spans.zipIdx counter |>.map fun (span, number) =>
          (placeholder tagPrefix.bytes number, sliceRange text span.start span.stop)) := by
  induction spans generalizing cursor counter with
  | nil => rw [emitFrom, segmentsFrom, render_map_item, List.zipIdx_nil, List.map_nil]
  | cons span spans ih =>
      obtain ⟨hcursor, -, -, -, hspans⟩ := hspans
      rw [emitFrom, if_neg hcursor.not_gt, ih (counter + 1) hspans]
      simp [segmentsFrom, render_append, render_map_item, render_cons_mark,
        PlaceholderPrefix.tokens]

section

variable {text : Bytes} {news : ℕ → Bytes}

/-- The new texts are the tags of the spans. -/
def Originals (text : Bytes) (news : ℕ → Bytes) (counter : ℕ) (spans : List Span) : Prop :=
  ∀ offset span, spans[offset]? = some span →
    news (counter + offset) = sliceRange text span.start span.stop

theorem Originals.cons {counter : ℕ} {span : Span} {spans : List Span}
    (hnews : Originals text news counter (span :: spans)) :
    news counter = sliceRange text span.start span.stop ∧
      Originals text news (counter + 1) spans := by
  refine ⟨hnews 0 span rfl, fun offset found hfound => ?_⟩
  rw [Nat.add_assoc, Nat.add_comm 1 offset]
  exact hnews (offset + 1) found hfound

variable {cursor counter : ℕ} {spans : List Span}

theorem render_expand_segmentsFrom (tokens : Tokens Byte) {limit : ℕ}
    (hspans : SpansFrom text cursor spans) (hnews : Originals text news counter spans)
    (hlimit : counter + spans.length ≤ limit) :
    tokens.render (expand news limit (segmentsFrom text cursor counter spans)) =
      text.drop cursor := by
  induction spans generalizing cursor counter with
  | nil =>
      rw [segmentsFrom, ← List.append_nil (List.map _ _), expand_map_item_append, render_append,
        render_map_item]
      exact List.append_nil _
  | cons span spans ih =>
      obtain ⟨hcursor, hlt, -, -, hspans⟩ := hspans
      obtain ⟨hnew, hnews⟩ := hnews.cons
      rw [List.length_cons] at hlimit
      rw [segmentsFrom, expand_map_item_append, expand_cons_mark, if_pos (by omega), render_append,
        render_append, render_map_item, render_map_item, ih hspans hnews (by omega), hnew,
        sliceRange_append_drop hlt.le, sliceRange_append_drop hcursor]

/-- Up to the next mark, the segments are the text; then comes a `<`. -/
theorem run_expand_segmentsFrom (limit : ℕ) (hspans : SpansFrom text cursor spans)
    (hnews : Originals text news counter spans) :
    ∃ tail, text.drop cursor = run (expand news limit (segmentsFrom text cursor counter spans)) ++
      tail ∧ ∀ byte, tail.head? = some byte → angled byte = true := by
  induction spans generalizing cursor counter with
  | nil =>
      refine ⟨[], ?_, fun byte hnone => by cases hnone⟩
      rw [segmentsFrom, ← List.append_nil (List.map _ _), expand_map_item_append,
        run_map_item_append]
      exact (List.append_nil _).symm.trans (List.append_nil _).symm
  | cons span spans ih =>
      obtain ⟨hcursor, hlt, hfirst, -, hspans⟩ := hspans
      obtain ⟨hnew, hnews⟩ := hnews.cons
      rw [segmentsFrom, expand_map_item_append, run_map_item_append, expand_cons_mark]
      split_ifs
      · obtain ⟨tail, htail, hhead⟩ := ih hspans hnews
        refine ⟨tail, ?_, hhead⟩
        rw [run_map_item_append, hnew, List.append_assoc, List.append_assoc, ← htail,
          sliceRange_append_drop hlt.le, sliceRange_append_drop hcursor]
      · refine ⟨text.drop span.start, ?_, fun byte hbyte => ?_⟩
        · exact ((congrArg (· ++ _) (List.append_nil _)).trans
            (sliceRange_append_drop hcursor)).symm
        · rw [List.head?_drop, hfirst] at hbyte
          exact Option.some.inj hbyte ▸ rfl

theorem suffix_sliceRange {start stop : ℕ} {back : Bytes} (hstop : stop ≤ text.length) :
    (back ≠ [] ∧ back <:+ sliceRange text start stop) ↔
      ∃ position, start ≤ position ∧ position < stop ∧ back = sliceRange text position stop := by
  have hdrop : ∀ count, (sliceRange text start stop).drop count =
      sliceRange text (start + count) stop := fun count => List.drop_drop
  constructor
  · rintro ⟨hne, hback⟩
    have hlength := hback.length_le
    have hpositive := List.length_pos_iff.mpr hne
    rw [length_sliceRange] at hlength
    refine ⟨stop - back.length, by omega, by omega, ?_⟩
    rw [List.suffix_iff_eq_drop, hdrop, length_sliceRange] at hback
    exact hback.trans (congrArg (sliceRange text · stop) (by omega))
  · rintro ⟨position, hstart, hposition, rfl⟩
    refine ⟨List.ne_nil_of_length_pos (by rw [length_sliceRange]; omega), ?_⟩
    have hsuffix := List.drop_suffix (position - start) (sliceRange text start stop)
    rwa [hdrop, Nat.add_sub_cancel' hstart] at hsuffix

theorem SpansFrom.stop_le (hspans : SpansFrom text cursor spans) : cursor ≤ text.length := by
  cases spans with
  | nil => exact hspans
  | cons span spans =>
      have hstart := (List.getElem?_eq_some_iff.mp hspans.2.2.1).1
      exact hspans.1.trans hstart.le

variable {number : ℕ}

/-- The bytes of a slice in front of segments that go on with the text up to a `<`. -/
theorem clear_sliceRange (tagPrefix : PlaceholderPrefix) {start stop : ℕ}
    {segments : List (Segment Byte)} {tail : Bytes} (hstop : stop ≤ text.length)
    (hdrop : text.drop stop = run segments ++ tail)
    (htail : ∀ byte, tail.head? = some byte → angled byte = true) :
    tagPrefix.tokens.Clear number ((sliceRange text start stop).map .item ++ segments) ↔
      (∀ position, start ≤ position → position < stop →
        ¬placeholder tagPrefix.bytes number <+: text.drop position) ∧
      tagPrefix.tokens.Clear number segments := by
  rw [clear_map_item_append]
  refine and_congr_left fun _ => ?_
  constructor
  · intro hbacks position hstart hposition hbegins
    obtain ⟨hne, hback⟩ := (suffix_sliceRange hstop).mpr ⟨position, hstart, hposition, rfl⟩
    refine hbacks _ hne hback (prefix_of_light (tagPrefix.light number) htail ?_)
    rw [List.append_assoc, ← hdrop, sliceRange_append_drop hposition.le]
    exact hbegins
  · intro hpositions back hne hback hbegins
    obtain ⟨position, hstart, hposition, rfl⟩ := (suffix_sliceRange hstop).mp ⟨hne, hback⟩
    refine hpositions position hstart hposition (hbegins.trans ?_)
    rw [← sliceRange_append_drop hposition.le, hdrop, ← List.append_assoc]
    exact List.prefix_append _ _

/-- A position in a span from a number on. -/
def Covered (number counter : ℕ) (spans : List Span) (position : ℕ) : Prop :=
  ∃ offset span, number ≤ counter + offset ∧ spans[offset]? = some span ∧
    span.start ≤ position ∧ position < span.stop

theorem covered_cons {position : ℕ} {span : Span} :
    Covered number counter (span :: spans) position ↔
      (number ≤ counter ∧ span.start ≤ position ∧ position < span.stop) ∨
        Covered number (counter + 1) spans position := by
  constructor
  · rintro ⟨offset, found, hnumber, hfound, hposition⟩
    cases offset with
    | zero =>
        cases hfound
        exact .inl ⟨hnumber, hposition⟩
    | succ offset => exact .inr ⟨offset, found, by omega, hfound, hposition⟩
  · rintro (⟨hnumber, hposition⟩ | ⟨offset, found, hnumber, hfound, hposition⟩)
    · exact ⟨0, span, hnumber, rfl, hposition⟩
    · exact ⟨offset + 1, found, by omega, hfound, hposition⟩

theorem SpansFrom.le_start (hspans : SpansFrom text cursor spans) :
    ∀ span ∈ spans, cursor ≤ span.start := by
  induction spans generalizing cursor with
  | nil => exact fun span hspan => absurd hspan List.not_mem_nil
  | cons span spans ih =>
      obtain ⟨hcursor, hlt, -, -, hspans⟩ := hspans
      exact List.forall_mem_cons.mpr ⟨hcursor, fun found hfound =>
        (hcursor.trans hlt.le).trans (ih hspans found hfound)⟩

theorem Covered.le_position {position : ℕ} (hspans : SpansFrom text cursor spans)
    (hcovered : Covered number counter spans position) : cursor ≤ position := by
  obtain ⟨offset, span, -, hspan, hstart, -⟩ := hcovered
  exact (hspans.le_start span (List.mem_of_getElem? hspan)).trans hstart

/-- A placeholder is spelled at its turn if the text has it outside the spans that
are not restored yet. -/
theorem clear_expand_segmentsFrom (tagPrefix : PlaceholderPrefix)
    (hspans : SpansFrom text cursor spans) (hnews : Originals text news counter spans) :
    tagPrefix.tokens.Clear number (expand news number (segmentsFrom text cursor counter spans)) ↔
      ∀ position, cursor ≤ position →
        placeholder tagPrefix.bytes number <+: text.drop position →
          Covered number counter spans position := by
  induction spans generalizing cursor counter with
  | nil =>
      have hsegments : expand news number (segmentsFrom text cursor counter []) =
          (sliceRange text cursor text.length).map .item ++ [] := by
        rw [segmentsFrom, ← List.append_nil (List.map _ _), expand_map_item_append, sliceRange,
          List.take_length]
        rfl
      have hend : text.drop text.length = run [] ++ [] := List.drop_length
      rw [hsegments, clear_sliceRange tagPrefix le_rfl hend (fun byte hnone => by cases hnone)]
      constructor
      · rintro ⟨hpositions, -⟩ position hcursor hbegins
        by_cases hposition : position < text.length
        · exact absurd hbegins (hpositions position hcursor hposition)
        · rw [List.drop_eq_nil_of_le (Nat.le_of_not_lt hposition)] at hbegins
          exact absurd (List.prefix_nil.mp hbegins) (tagPrefix.tokens.ne_nil number)
      · intro hpositions
        refine ⟨fun position hcursor _ hbegins => ?_, clear_nil number⟩
        obtain ⟨_, _, _, hnone, _⟩ := hpositions position hcursor hbegins
        cases hnone
  | cons span spans ih =>
      obtain ⟨hcursor, hlt, hfirst, hlast, hspans⟩ := hspans
      obtain ⟨hnew, hnews⟩ := hnews.cons
      have hstop := hspans.stop_le
      have hnext := ih hspans hnews
      simp only [covered_cons]
      rw [segmentsFrom, expand_map_item_append, expand_cons_mark]
      by_cases hcounter : counter < number
      · -- The tag is restored already; a covered position is behind it.
        obtain ⟨tail, hrun, htail⟩ := run_expand_segmentsFrom number hspans hnews
        have hdrop : text.drop span.start = run ((sliceRange text span.start span.stop).map .item ++
            expand news number (segmentsFrom text span.stop (counter + 1) spans)) ++ tail := by
          rw [run_map_item_append, List.append_assoc, ← hrun, sliceRange_append_drop hlt.le]
        rw [if_pos hcounter, hnew, clear_sliceRange tagPrefix (by omega) hdrop htail,
          clear_sliceRange tagPrefix hstop hrun htail, hnext]
        constructor
        · rintro ⟨hbefore, hinside, hbehind⟩ position hposition hbegins
          by_cases hstart : position < span.start
          · exact absurd hbegins (hbefore position hposition hstart)
          · by_cases hend : position < span.stop
            · exact absurd hbegins (hinside position (Nat.le_of_not_lt hstart) hend)
            · exact .inr (hbehind position (Nat.le_of_not_lt hend) hbegins)
        · intro hall
          have hcovered : ∀ position, cursor ≤ position →
              placeholder tagPrefix.bytes number <+: text.drop position →
                Covered number (counter + 1) spans position := fun position hposition hbegins =>
            (hall position hposition hbegins).resolve_left fun hmark => hmark.1.not_gt hcounter
          refine ⟨fun position hposition hstart hbegins => ?_,
            fun position hposition hend hbegins => ?_,
            fun position hposition hbegins => hcovered position (by omega) hbegins⟩
          · have := (hcovered position hposition hbegins).le_position hspans
            omega
          · have := (hcovered position (by omega) hbegins).le_position hspans
            omega
      · have hmark : ∀ byte, (text.drop span.start).head? = some byte →
            angled byte = true := by
          intro byte hbyte
          rw [List.head?_drop, hfirst] at hbyte
          exact Option.some.inj hbyte ▸ rfl
        have hrun : text.drop span.start = run (.mark counter ::
            expand news number (segmentsFrom text span.stop (counter + 1) spans)) ++
              text.drop span.start := rfl
        rw [if_neg hcounter, List.singleton_append,
          clear_sliceRange tagPrefix (by omega) hrun hmark,
          clear_cons_mark, hnext]
        constructor
        · rintro ⟨hbefore, hbehind⟩ position hposition hbegins
          by_cases hstart : position < span.start
          · exact absurd hbegins (hbefore position hposition hstart)
          · by_cases hend : position < span.stop
            · exact .inl ⟨Nat.le_of_not_lt hcounter, Nat.le_of_not_lt hstart, hend⟩
            · exact .inr (hbehind position (Nat.le_of_not_lt hend) hbegins)
        · intro hall
          refine ⟨fun position hposition hstart hbegins => ?_, fun position hposition hbegins => ?_⟩
          · rcases hall position hposition hbegins with ⟨-, hinside, -⟩ | hcovered
            · omega
            · have := hcovered.le_position hspans
              omega
          · exact (hall position (by omega) hbegins).resolve_left fun hinside => by omega

end

/-! ## The round trip -/

theorem blocks_eq (tagPrefix : PlaceholderPrefix) (text : Bytes) (spans : List Span) :
    (spans.zipIdx.map fun (span, number) =>
        (placeholder tagPrefix.bytes number, sliceRange text span.start span.stop)) =
      (List.range spans.length).map fun number =>
        (tagPrefix.tokens.token number, original text spans number) := by
  refine List.ext_getElem (by simp) fun number hleft hright => ?_
  rw [List.length_map, List.length_zipIdx] at hleft
  simp [original, hleft, PlaceholderPrefix.tokens]

theorem identifySpans_of_not_mem (compressTaggedContent : Bool) (htext : lessThan ∉ text) :
    (identifySpans text compressTaggedContent).1 = [] := by
  refine List.eq_nil_iff_forall_not_mem.mpr fun span hspan => ?_
  obtain ⟨-, -, hfirst, -⟩ := (ordered_identifySpans text compressTaggedContent).1 span hspan
  exact htext (List.mem_of_getElem? hfirst)

/-- The output and its blocks.  No text is passed on unprotected. -/
theorem protectTags_eq (tagPrefix : PlaceholderPrefix)
    (hbegins : (pickPlaceholderPrefix text).1 = tagPrefix.bytes) (compressTaggedContent : Bool) :
    (protectTags text compressTaggedContent).1 = tagPrefix.tokens.render
        (segmentsFrom text 0 0 (identifySpans text compressTaggedContent).1) ∧
      (protectTags text compressTaggedContent).2.1 =
        (List.range (identifySpans text compressTaggedContent).1.length).map fun number =>
          (tagPrefix.tokens.token number,
            original text (identifySpans text compressTaggedContent).1 number) := by
  rw [protectTags]
  split_ifs with hplain
  · have hnone : lessThan ∉ text := by
      rcases hplain with hempty | hnone
      · rw [List.isEmpty_iff.mp hempty]
        exact List.not_mem_nil
      · exact hnone
    rw [identifySpans_of_not_mem compressTaggedContent hnone, segmentsFrom, render_map_item]
    exact ⟨rfl, rfl⟩
  · have hemit := emitFrom_eq tagPrefix 0
      (spansFrom_identifySpans text compressTaggedContent)
    simp only [emitOutput, hbegins, hemit]
    exact ⟨trivial, blocks_eq tagPrefix text _⟩

theorem restoreTags_eq (tokens : Tokens Byte) (news : ℕ → Bytes) (count : ℕ) (text : Bytes) :
    restoreTags text ((List.range count).map fun number => (tokens.token number, news number)) =
      tokens.restored news count text := by
  induction count with
  | zero => rfl
  | succ count ih =>
      rw [restoreTags] at ih ⊢
      rw [List.range_succ, List.map_append, List.foldl_append, ih]
      simp only [List.map_cons, List.map_nil, List.foldl_cons, List.foldl_nil, restored]
      split_ifs with hcontains
      · rfl
      · exact (replaceAll_of_absent _ hcontains).symm

/-- The positions of a needle. -/
def occurrences (needle text : Bytes) : List ℕ :=
  (List.range (text.length + 1)).filter fun position => needle <+: text.drop position

/-- Every placeholder at most once, and the prefix nowhere else. -/
structure KeepsPlaceholders (tagPrefix : Bytes) (blocks : List (Bytes × Bytes))
    (text : Bytes) : Prop where
  once : ∀ block ∈ blocks, (occurrences block.1 text).length ≤ 1
  noOther : ∀ position ∈ occurrences tagPrefix text,
    ∃ block ∈ blocks, position ∈ occurrences block.1 text

def RoundTrips (text : Bytes) (compressTaggedContent : Bool) : Prop :=
  let (cleaned, blocks, _) := protectTags text compressTaggedContent
  restoreTags cleaned blocks = text ∧
    ∀ compressed, KeepsPlaceholders (pickPlaceholderPrefix text).1 blocks compressed →
      restoreTags compressed blocks = substituteFrom blocks 0 compressed

variable {compressTaggedContent : Bool}

theorem RoundTrips.restored (hround : RoundTrips text compressTaggedContent) :
    restoreTags (protectTags text compressTaggedContent).1
      (protectTags text compressTaggedContent).2.1 = text := hround.1

/-- Wherever the text spells the placeholder of a span, it does so in that span or a
later one. -/
def Spared (text : Bytes) (compressTaggedContent : Bool) : Prop :=
  let spans := (identifySpans text compressTaggedContent).1
  ∀ number < spans.length, ∀ position,
    placeholder (pickPlaceholderPrefix text).1 number <+: text.drop position →
      Covered number 0 spans position

theorem originals_original (text : Bytes) (spans : List Span) :
    Originals text (original text spans) 0 spans := by
  intro offset span hspan
  rw [Nat.zero_add, original, hspan]

/-- A tag in a text begins with `<` and ends with `>`. -/
theorem original_ends {number : ℕ}
    (hnumber : number < (identifySpans text compressTaggedContent).1.length) :
    (original text (identifySpans text compressTaggedContent).1 number).head? = some lessThan ∧
      (original text (identifySpans text compressTaggedContent).1 number).getLast? =
        some greaterThan := by
  obtain ⟨hlt, hle, hfirst, hlast⟩ := (ordered_identifySpans text compressTaggedContent).1 _
    (List.getElem_mem hnumber)
  rw [original, List.getElem?_eq_getElem hnumber]
  dsimp only
  refine ⟨?_, ?_⟩
  · rw [sliceRange, List.head?_drop, List.getElem?_take_of_lt hlt, hfirst]
  · have hlength := length_sliceRange text
      (identifySpans text compressTaggedContent).1[number].start
      (identifySpans text compressTaggedContent).1[number].stop
    rw [List.getLast?_eq_getElem?, hlength, sliceRange, List.getElem?_drop,
      List.getElem?_take_of_lt (by omega), ← hlast]
    congr 1
    omega

theorem spared_iff_clear {tagPrefix : PlaceholderPrefix}
    (hbegins : (pickPlaceholderPrefix text).1 = tagPrefix.bytes) :
    Spared text compressTaggedContent ↔
      ∀ number < (identifySpans text compressTaggedContent).1.length,
        tagPrefix.tokens.Clear number
          (expand (original text (identifySpans text compressTaggedContent).1) number
            (segmentsFrom text 0 0 (identifySpans text compressTaggedContent).1)) := by
  rw [Spared, hbegins]
  refine forall₂_congr fun number _ => ?_
  rw [clear_expand_segmentsFrom tagPrefix (spansFrom_identifySpans text compressTaggedContent)
    (originals_original text _)]
  exact ⟨fun hall position _ => hall position, fun hall position => hall position (Nat.zero_le _)⟩

/-- Tags of spans before a number do not spell its placeholder. -/
theorem not_infix_original (hspared : Spared text compressTaggedContent) {number other : ℕ}
    (hnumber : number < (identifySpans text compressTaggedContent).1.length)
    (hother : other < number) :
    ¬placeholder (pickPlaceholderPrefix text).1 number <:+:
      original text (identifySpans text compressTaggedContent).1 other := by
  rintro ⟨front, back, hinfix⟩
  obtain ⟨htags, hsorted⟩ := ordered_identifySpans text compressTaggedContent
  have hindex := hother.trans hnumber
  rw [original, List.getElem?_eq_getElem hindex] at hinfix
  dsimp only at hinfix
  have hlength := congrArg List.length hinfix
  obtain ⟨hlt, hle, -, -⟩ := htags _ (List.getElem_mem hindex)
  rw [List.length_append, List.length_append, length_sliceRange] at hlength
  -- The placeholder is in the text too, and so in a span that is not restored yet.
  obtain ⟨offset, span, hoffset, hspan, hstart, -⟩ := hspared number hnumber
    ((identifySpans text compressTaggedContent).1[other].start + front.length) (by
      rw [← List.drop_drop, ← sliceRange_append_drop hlt.le, ← hinfix, List.append_assoc,
        List.append_assoc, List.drop_left]
      exact List.prefix_append _ _)
  obtain ⟨hbound, rfl⟩ := List.getElem?_eq_some_iff.mp hspan
  have hbefore := List.pairwise_iff_getElem.mp hsorted other offset hindex hbound (by omega)
  have hpositive := List.length_pos_iff.mpr
    (show placeholder (pickPlaceholderPrefix text).1 number ≠ [] by
      rw [placeholder, placeholderSuffix]
      simp [ascii])
  omega

/-- The round trip succeeds exactly on the texts that are spared. -/
theorem roundTrips_iff_spared (text : Bytes) (compressTaggedContent : Bool) :
    RoundTrips text compressTaggedContent ↔ Spared text compressTaggedContent := by
  obtain ⟨tagPrefix, hbegins⟩ := exists_prefix text
  obtain ⟨hcleaned, hblocks⟩ := protectTags_eq tagPrefix hbegins compressTaggedContent
  have hspans := spansFrom_identifySpans text compressTaggedContent
  have hnews := originals_original text (identifySpans text compressTaggedContent).1
  have htext : tagPrefix.tokens.render
      (expand (original text (identifySpans text compressTaggedContent).1)
        (identifySpans text compressTaggedContent).1.length
        (segmentsFrom text 0 0 (identifySpans text compressTaggedContent).1)) = text :=
    render_expand_segmentsFrom tagPrefix.tokens hspans hnews (Nat.zero_add _).le
  rw [RoundTrips, spared_iff_clear hbegins]
  dsimp only
  rw [hcleaned, hblocks, restoreTags_eq]
  constructor
  · rintro ⟨hrestored, -⟩
    rw [tagPrefix.tokens.restored_eq_render] at hrestored
    have hweight := (congrArg (List.countP angled) hrestored).trans
      (congrArg (List.countP angled) htext).symm
    rw [countP_render tagPrefix.light, countP_render tagPrefix.light] at hweight
    refine ((clear_of_weight angled tagPrefix.light fun number hnumber => ?_).2 hweight).2
    exact List.countP_pos_iff.mpr
      ⟨lessThan, List.mem_of_mem_head? (original_ends hnumber).1, rfl⟩
  · intro hclear
    refine ⟨(tagPrefix.tokens.restored_render hclear).trans htext, fun compressed _ => ?_⟩
    have hspared := (spared_iff_clear hbegins).mpr hclear
    rw [restoreTags_eq]
    refine tagPrefix.tokens.restored_eq_substitute tagPrefix.light ?_ ?_ ?_ compressed
    · exact fun other hother => ⟨lessThan, (original_ends hother).1, rfl⟩
    · exact fun other hother => ⟨greaterThan, (original_ends hother).2, rfl⟩
    · intro number hnumber other hother
      have hnot := not_infix_original hspared hnumber hother
      rwa [hbegins] at hnot

/-- Every prefix is tried; the one that is taken when all of them fail is not. -/
def occupied : Bytes :=
  (List.range 16).flatMap saltedPrefix ++ placeholder fallbackPrefix 0 ++ ascii "<x></x>"

theorem restoreTags_occupied :
    restoreTags (protectTags occupied false).1 (protectTags occupied false).2.1 ≠ occupied := by
  decide +kernel

theorem occupied_not_restored : ¬RoundTrips occupied false :=
  mt RoundTrips.restored restoreTags_occupied

end Legroom.Transforms
