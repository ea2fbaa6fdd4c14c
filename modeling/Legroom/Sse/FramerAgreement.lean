import Legroom.Proxy.SseByteBuffer
import Legroom.Sse.HeardBlocks

/-!
# The framers of the two languages

Both framers cut a stream at the same terminators.  They read the lines of an event in
different ways, and agree when the lines have the same fields either way.
-/

namespace Legroom.Sse

open Utf8 Python

namespace FramerAgreement

open Proxy.SseByteBuffer (findFrom earliest findTerminatorFrom)

/-! ## Terminators -/

variable {buf : Bytes}

theorem le_of_findFrom {pattern : Bytes} {index found : ℕ}
    (hfound : findFrom pattern index buf = some found) : index ≤ found := by
  induction buf generalizing index with
  | nil =>
      rw [findFrom] at hfound
      split_ifs at hfound
      cases hfound
      exact le_rfl
  | cons byte rest ih =>
      rw [findFrom] at hfound
      split_ifs at hfound
      · cases hfound
        exact le_rfl
      · exact (Nat.le_succ index).trans (ih hfound)

def double : Bytes := [Byte.lf, Byte.lf]

def quad : Bytes := [Byte.cr, Byte.lf, Byte.cr, Byte.lf]

variable {rest : Bytes}

theorem double_begins {first second : Byte} :
    double.isPrefixOf (first :: second :: rest) = true ↔ first = Byte.lf ∧ second = Byte.lf := by
  rw [List.isPrefixOf_iff_prefix, double, List.cons_prefix_cons, List.cons_prefix_cons,
    and_iff_left List.nil_prefix]
  exact and_congr eq_comm eq_comm

theorem quad_begins {first second : Byte} :
    quad.isPrefixOf (first :: second :: rest) = true ↔
      first = Byte.cr ∧ second = Byte.lf ∧ rest.take 2 = [Byte.cr, Byte.lf] := by
  rw [List.isPrefixOf_iff_prefix, quad, List.cons_prefix_cons, List.cons_prefix_cons]
  refine and_congr eq_comm (and_congr eq_comm ?_)
  rw [List.prefix_iff_eq_take]
  exact eq_comm

theorem findFrom_cons (pattern : Bytes) (index : ℕ) (byte : Byte) (rest : Bytes) :
    findFrom pattern index (byte :: rest) =
      if pattern.isPrefixOf (byte :: rest) then some index
      else findFrom pattern (index + 1) rest := by
  rw [findFrom]

/-- The earlier of the two terminators. -/
theorem findTerminatorFrom_eq (index : ℕ) (buf : Bytes) :
    findTerminatorFrom index buf =
      match findFrom double index buf, findFrom quad index buf with
      | none, none => none
      | some found, none => some (found, 2)
      | none, some found => some (found, 4)
      | some found, some other => if other < found then some (other, 4) else some (found, 2) := by
  change earliest (([double, quad] : List Bytes).filterMap _) = _
  rw [List.filterMap_cons, List.filterMap_cons, List.filterMap_nil]
  cases findFrom double index buf with
  | none =>
      cases findFrom quad index buf with
      | none => rfl
      | some other => rfl
  | some found =>
      cases findFrom quad index buf with
      | none => rfl
      | some other =>
          change some (if other < found then (other, 4) else (found, 2)) = _
          dsimp only
          split_ifs
          · rfl
          · rfl

/-- The search for the patterns finds what the scan of the bytes finds. -/
theorem findTerminatorFrom_eq_findDoubleNewlineFrom (index : ℕ) (buf : Bytes) :
    findTerminatorFrom index buf = findDoubleNewlineFrom index buf := by
  rw [findTerminatorFrom_eq]
  induction index, buf using findDoubleNewlineFrom.induct with
  | case1 index first second rest hpair =>
      rw [findDoubleNewlineFrom, if_pos hpair, findFrom_cons, if_pos (double_begins.mpr hpair)]
      cases hquad : findFrom quad index (first :: second :: rest) with
      | none => rfl
      | some other =>
          dsimp only
          rw [if_neg (Nat.not_lt.mpr (le_of_findFrom hquad))]
  | case2 index first second rest hpair hquad =>
      rw [findDoubleNewlineFrom, if_neg hpair, if_pos hquad, findFrom_cons,
        if_neg (fun hdouble => hpair (double_begins.mp hdouble)), findFrom_cons quad,
        if_pos (quad_begins.mpr hquad)]
      cases hdouble : findFrom double (index + 1) (second :: rest) with
      | none => rfl
      | some found =>
          dsimp only
          rw [if_pos (Nat.lt_of_succ_le (le_of_findFrom hdouble))]
  | case3 index first second rest hpair hquad ih =>
      rw [findDoubleNewlineFrom, if_neg hpair, if_neg hquad, findFrom_cons,
        if_neg (fun hdouble => hpair (double_begins.mp hdouble)), findFrom_cons quad,
        if_neg (fun hfound => hquad (quad_begins.mp hfound)), ih]
  | case4 buf index hshort =>
      cases buf with
      | nil => rfl
      | cons first rest =>
          cases rest with
          | nil =>
              rw [findFrom_cons, if_neg, findFrom_cons, if_neg]
              · rfl
              · simp [quad, List.isPrefixOf]
              · simp [double, List.isPrefixOf]
          | cons second rest => exact absurd rfl (hshort first second rest)

/-- A terminator is found behind a front. -/
theorem exists_split {index blockEnd termLen : ℕ}
    (hfind : findDoubleNewlineFrom index buf = some (blockEnd, termLen)) :
    ∃ front term rest, buf = front ++ (term ++ rest) ∧ (term = double ∨ term = quad) ∧
      blockEnd = index + front.length ∧ termLen = term.length := by
  induction index, buf using findDoubleNewlineFrom.induct with
  | case1 index first second rest hpair =>
      rw [findDoubleNewlineFrom, if_pos hpair] at hfind
      cases hfind
      exact ⟨[], double, rest, by rw [hpair.1, hpair.2]; rfl, .inl rfl, rfl, rfl⟩
  | case2 index first second rest hpair hquad =>
      rw [findDoubleNewlineFrom, if_neg hpair, if_pos hquad] at hfind
      cases hfind
      refine ⟨[], quad, rest.drop 2, ?_, .inr rfl, rfl, rfl⟩
      obtain ⟨rfl, rfl, htake⟩ := hquad
      have hrest := List.take_append_drop 2 rest
      rw [htake] at hrest
      rw [← hrest]
      rfl
  | case3 index first second rest hpair hquad ih =>
      rw [findDoubleNewlineFrom, if_neg hpair, if_neg hquad] at hfind
      obtain ⟨front, term, behind, hbuf, hterm, hend, hlength⟩ := ih hfind
      refine ⟨first :: front, term, behind, by rw [hbuf]; rfl, hterm, ?_, hlength⟩
      rw [hend, List.length_cons]
      omega
  | case4 buf index hshort =>
      rw [findDoubleNewlineFrom] at hfind
      · cases hfind
      · exact hshort

/-! ## The bytes of the events -/

theorem lf_ascii : Byte.lf < 0x80 := by decide

theorem cr_ascii : Byte.cr < 0x80 := by decide

/-- The bytes in front of each terminator. -/
def blockDecoder : PullDecoder Byte Bytes where
  next buf :=
    match findDoubleNewline buf with
    | none => (none, buf)
    | some found => (some (buf.take found.1), buf.drop (found.1 + found.2))
  fatal _ := false
  stable := by
    intro buf rest more output hnext
    cases hfind : findDoubleNewline buf with
    | none =>
        rw [hfind] at hnext
        cases hnext
    | some found =>
        have hbounds := findDoubleNewline_bounds hfind
        rw [hfind] at hnext
        cases hnext
        rw [findDoubleNewline_append more hfind]
        dsimp only
        rw [List.take_append_of_le_length (by omega), List.drop_append_of_le_length (by omega)]
  resume := by
    intro buf rest more hnext
    cases hfind : findDoubleNewline buf with
    | none =>
        rw [hfind] at hnext
        cases hnext
        rfl
    | some found =>
        rw [hfind] at hnext
        cases hnext
  progress := by
    intro buf rest output hnext _
    cases hfind : findDoubleNewline buf with
    | none =>
        rw [hfind] at hnext
        cases hnext
    | some found =>
        have hbounds := findDoubleNewline_bounds hfind
        rw [hfind] at hnext
        cases hnext
        rw [List.length_drop]
        omega

def blocks (stream : Bytes) : List Bytes := (blockDecoder.drain stream).1

theorem drain_none (hfind : findDoubleNewline buf = none) : blockDecoder.drain buf = ([], buf) := by
  apply blockDecoder.drain_of_none
  change (match findDoubleNewline buf with | none => _ | some found => _) = _
  rw [hfind]

theorem drain_some {found : ℕ × ℕ} (hfind : findDoubleNewline buf = some found) :
    blockDecoder.drain buf =
      (buf.take found.1 :: (blockDecoder.drain (buf.drop (found.1 + found.2))).1,
        (blockDecoder.drain (buf.drop (found.1 + found.2))).2) := by
  apply blockDecoder.drain_of_some
  · change (match findDoubleNewline buf with | none => _ | some found => _) = _
    rw [hfind]
  · rfl

theorem shorter_of_found {found : ℕ × ℕ} (hfind : findDoubleNewline buf = some found) :
    (buf.drop (found.1 + found.2)).length < buf.length := by
  have hbounds := findDoubleNewline_bounds hfind
  rw [List.length_drop]
  omega

variable {front : Bytes}

theorem valid_around_double (hvalid : Valid (front ++ (double ++ rest))) :
    Valid front ∧ Valid rest := by
  have hsplit : Valid front ∧ Valid (Byte.lf :: rest) := hvalid.split lf_ascii
  exact ⟨hsplit.1, (valid_cons_ascii lf_ascii rest).mp hsplit.2⟩

theorem valid_around_quad (hvalid : Valid (front ++ (quad ++ rest))) :
    Valid front ∧ Valid rest := by
  have hsplit : Valid front ∧ Valid (Byte.lf :: Byte.cr :: Byte.lf :: rest) :=
    hvalid.split cr_ascii
  refine ⟨hsplit.1, ?_⟩
  apply (valid_cons_ascii lf_ascii rest).mp
  apply (valid_cons_ascii cr_ascii _).mp
  exact (valid_cons_ascii lf_ascii _).mp hsplit.2

variable {stream : Bytes}

/-- The bytes of an event in a valid stream are valid. -/
theorem valid_of_mem_blocks (hvalid : Valid stream) : ∀ block ∈ blocks stream, Valid block := by
  rw [blocks]
  induction hlength : stream.length using Nat.strong_induction_on generalizing stream with
  | _ length ih =>
      subst hlength
      cases hfind : findDoubleNewline stream with
      | none =>
          rw [drain_none hfind]
          exact fun block hblock => absurd hblock List.not_mem_nil
      | some found =>
          obtain ⟨front, term, rest, hstream, hterm, hend, htermLen⟩ := exists_split hfind
          have hvalids : Valid front ∧ Valid rest := by
            rw [hstream] at hvalid
            rcases hterm with rfl | rfl
            · exact valid_around_double hvalid
            · exact valid_around_quad hvalid
          have hshorter := shorter_of_found hfind
          have htake : stream.take found.1 = front := by
            rw [hstream, hend, Nat.zero_add, List.take_left]
          have hdrop : stream.drop (found.1 + found.2) = rest := by
            rw [hstream, hend, htermLen, Nat.zero_add, ← List.length_append, ← List.append_assoc,
              List.drop_left]
          rw [drain_some hfind, htake]
          rw [hdrop] at hshorter ⊢
          exact List.forall_mem_cons.mpr ⟨hvalids.1, ih _ hshorter hvalids.2 rfl⟩

/-! ## The framer -/

def blockOutput (block : Bytes) : Option (Except FramingError SseEvent) :=
  match parseEventBlock block with
  | .ok parsed => parsed.map .ok
  | .error error => some (.error error)

/-- The framer parses the bytes of the events one after the other. -/
theorem frameDecoder_drain (stream : Bytes) :
    (frameDecoder.drain stream).1 = (blocks stream).filterMap blockOutput := by
  rw [blocks]
  induction hlength : stream.length using Nat.strong_induction_on generalizing stream with
  | _ length ih =>
      subst hlength
      have hnext : frameDecoder.next stream = nextFrame stream := rfl
      rw [nextFrame_eq] at hnext
      cases hfind : findDoubleNewline stream with
      | none =>
          rw [hfind] at hnext
          rw [frameDecoder.drain_of_none hnext, drain_none hfind]
          rfl
      | some found =>
          have hrest := ih _ (shorter_of_found hfind) (stream.drop (found.1 + found.2)) rfl
          rw [hfind] at hnext
          dsimp only at hnext
          rw [List.drop_drop] at hnext
          rw [drain_some hfind, List.filterMap_cons, blockOutput]
          cases hparse : parseEventBlock (stream.take found.1) with
          | error error =>
              rw [hparse] at hnext
              rw [frameDecoder.drain_of_some hnext rfl, hrest]
          | ok parsed =>
              rw [hparse] at hnext
              cases parsed with
              | none =>
                  rw [frameDecoder.drain_congr (hnext.trans rfl), hrest]
                  rfl
              | some event =>
                  rw [frameDecoder.drain_of_some hnext rfl, hrest]
                  rfl

/-! ## The byte buffer -/

open Proxy.SseByteBuffer (findSseEventTerminator parseEvents parseSseEventsFromByteBuffer
  parseChunks readEvent)

variable (isSpace : CodePoint → Bool)

/-- The text of the bytes of an event. -/
def blockText (block : Bytes) : Text := (decodeUtf8 block).getD []

def reported (blocks : List Bytes) : List (Option Text × Text) :=
  blocks.filterMap fun block => (readEvent isSpace (blockText block)).event

variable {block : Bytes}

theorem decodeUtf8_valid (hvalid : Valid block) : decodeUtf8 block = some (blockText block) := by
  rw [blockText, decodeUtf8, if_pos hvalid]
  rfl

theorem parseEvents_eq {fuel : ℕ} (hfuel : buf.length ≤ fuel)
    (hvalid : ∀ block ∈ blocks buf, Valid block) :
    parseEvents isSpace fuel buf =
      some (reported isSpace (blocks buf), (blockDecoder.drain buf).2) := by
  induction fuel generalizing buf with
  | zero =>
      have hnil : buf = [] := List.length_eq_zero_iff.mp (Nat.le_zero.mp hfuel)
      rw [hnil, blocks, drain_none rfl]
      rfl
  | succ fuel ih =>
      have hsearch : findSseEventTerminator buf = findDoubleNewline buf :=
        findTerminatorFrom_eq_findDoubleNewlineFrom 0 buf
      rw [parseEvents, hsearch]
      cases hfind : findDoubleNewline buf with
      | none =>
          rw [blocks, drain_none hfind]
          rfl
      | some found =>
          have hshorter := shorter_of_found hfind
          rw [blocks, drain_some hfind] at hvalid
          obtain ⟨hfirst, hrest⟩ := List.forall_mem_cons.mp hvalid
          dsimp only
          rw [decodeUtf8_valid hfirst, Option.bind_eq_bind, Option.bind_some,
            ih (by omega) hrest, blocks, blocks, drain_some hfind, reported, reported,
            List.filterMap_cons]
          cases (readEvent isSpace (blockText (buf.take found.1))).event with
          | none => rfl
          | some event => rfl

theorem reported_append (left right : List Bytes) :
    reported isSpace (left ++ right) = reported isSpace left ++ reported isSpace right :=
  List.filterMap_append

theorem blocks_append (buf more : Bytes) :
    blocks (buf ++ more) = blocks buf ++ blocks ((blockDecoder.drain buf).2 ++ more) := by
  have happend := blockDecoder.drain_append buf more fun _ _ => rfl
  exact congrArg Prod.fst happend

/-- Nothing is left in the buffer that could be taken off it. -/
theorem blocks_rest (buf : Bytes) : blocks (blockDecoder.drain buf).2 = [] := by
  have happend := blocks_append buf []
  rw [List.append_nil, List.append_nil] at happend
  exact List.self_eq_append_right.mp happend

/-- However the stream is cut into chunks, its events are reported one after the other. -/
theorem parseChunks_eq {buf : Bytes} {chunks : List Bytes}
    (hvalid : ∀ block ∈ blocks (buf ++ chunks.flatten), Valid block)
    (hdrained : blocks buf = []) :
    ∃ rest, parseChunks isSpace buf chunks =
      some (reported isSpace (blocks (buf ++ chunks.flatten)), rest) := by
  induction chunks generalizing buf with
  | nil =>
      refine ⟨buf, ?_⟩
      rw [List.flatten_nil, List.append_nil, hdrained]
      rfl
  | cons chunk chunks ih =>
      have hsplit := blocks_append (buf ++ chunk) chunks.flatten
      rw [List.flatten_cons, ← List.append_assoc, hsplit] at hvalid
      rw [List.flatten_cons, ← List.append_assoc, hsplit, reported_append]
      obtain ⟨rest, hrest⟩ := ih (fun block hblock => hvalid block (List.mem_append_right _ hblock))
        (blocks_rest (buf ++ chunk))
      refine ⟨rest, ?_⟩
      rw [parseChunks, parseSseEventsFromByteBuffer, parseEvents_eq isSpace le_rfl
        (fun block hblock => hvalid block (List.mem_append_left _ hblock)), Option.bind_eq_bind,
        Option.bind_some]
      dsimp only
      rw [hrest]
      rfl

/-! ## Lines of a text -/

open Proxy.SseByteBuffer (carriageReturn Fields)

def space : CodePoint := 0x20

theorem lfPair : AsciiPair Byte.lf newline := ⟨by decide, rfl⟩

theorem crPair : AsciiPair Byte.cr carriageReturn := ⟨by decide, rfl⟩

theorem colonPair : AsciiPair Byte.colon colon := ⟨by decide, rfl⟩

theorem spacePair : AsciiPair Byte.space space := ⟨by decide, rfl⟩

/-- The lines of an event without their line feeds. -/
def feedLines : Text → List Text
  | [] => []
  | char :: rest =>
      if char = newline then [] :: feedLines rest
      else
        match feedLines rest with
        | [] => [[char]]
        | line :: lines => (char :: line) :: lines

/-- A line less one carriage return at its end. -/
def dropReturn (line : Text) : Text :=
  if line.getLast? = some carriageReturn then line.dropLast else line

/-- The name of a field is what comes before the first colon. -/
def feedName (line : Text) : Text := line.takeWhile (· ≠ colon)

def lessSpace : Text → Text
  | [] => []
  | char :: rest => if char = space then rest else char :: rest

/-- The value of a field is what comes behind the first colon, less one space. -/
def feedValue (line : Text) : Text := lessSpace ((line.dropWhile (· ≠ colon)).drop 1)

def readFeedLine (fields : Fields) (line : Text) : Fields :=
  if line.head? = some colon then fields
  else if feedName line = text "event" then { fields with name := some (feedValue line) }
  else if feedName line = text "data" then
    { fields with data := fields.data ++ [feedValue line] }
  else fields

/-- The fields of an event whose lines end at line feeds. -/
def readFeedEvent (text : Text) : Fields :=
  ((feedLines text).map dropReturn).foldl readFeedLine .empty

theorem blockLines_append (rest : Bytes) (hfront : Byte.lf ∉ front) (hne : front ≠ []) :
    blockLines (front ++ rest) =
      match blockLines rest with
      | [] => [front]
      | line :: lines => (front ++ line) :: lines := by
  induction front with
  | nil => exact absurd rfl hne
  | cons byte front ih =>
      rw [List.mem_cons, not_or] at hfront
      rw [List.cons_append, blockLines, if_neg (Ne.symm hfront.1)]
      cases front with
      | nil =>
          rw [List.nil_append]
          cases blockLines rest with
          | nil => rfl
          | cons line lines => rfl
      | cons second front =>
          rw [ih hfront.2 (List.cons_ne_nil second front)]
          cases blockLines rest with
          | nil => rfl
          | cons line lines => rfl

theorem blockLines_encode (text : Text) :
    blockLines (encode text) = (feedLines text).map encode := by
  induction text with
  | nil => rfl
  | cons char text ih =>
      rw [encode_cons, feedLines]
      by_cases hchar : char = newline
      · rw [if_pos hchar, hchar, lfPair.encodeChar_eq, List.singleton_append, blockLines,
          if_pos rfl, ih]
        rfl
      · rw [if_neg hchar, blockLines_append _ (fun hlf => lfPair.ne_of_mem hchar hlf rfl)
          (encodeChar_ne_nil char), ih]
        cases feedLines text with
        | nil =>
            rw [List.map_nil, List.map_singleton, encode_cons]
            exact congrArg (fun bytes => [bytes]) (List.append_nil _).symm
        | cons line lines => rfl

variable (line : Text)

theorem stripCr_encode : stripCr (encode line) = encode (dropReturn line) := by
  rcases List.eq_nil_or_concat line with rfl | ⟨front, last, rfl⟩
  · rfl
  · have hsingle : encode [last] = encodeChar last := List.append_nil _
    rw [List.concat_eq_append, dropReturn, List.getLast?_concat, List.dropLast_concat,
      encode_append, hsingle]
    by_cases hlast : last = carriageReturn
    · rw [if_pos (congrArg some hlast), hlast, crPair.encodeChar_eq, stripCr_append_cr]
    · rw [if_neg (fun heq => hlast (Option.some.inj heq)), encode_append, hsingle, stripCr, if_neg]
      rw [List.getLast?_append_of_ne_nil _ (encodeChar_ne_nil last)]
      exact fun hcr => crPair.ne_of_mem hlast (List.mem_of_getLast? hcr) rfl

theorem fieldName_encode : fieldName (encode line) = encode (feedName line) :=
  colonPair.takeWhile_encode line

theorem head_encode_iff {byte : Byte} {char : CodePoint} (hpair : AsciiPair byte char)
    (line : Text) : (encode line).head? = some byte ↔ line.head? = some char := by
  cases line with
  | nil => exact iff_of_false (by simp [encode]) (by simp)
  | cons other line =>
      rw [encode_cons, List.head?_append_of_ne_nil _ (encodeChar_ne_nil other), List.head?_cons,
        Option.some_inj]
      constructor
      · intro hhead
        by_contra hother
        exact hpair.ne_of_mem hother (List.mem_of_head? hhead) rfl
      · rintro rfl
        rw [hpair.encodeChar_eq]
        rfl

/-- What is behind the first colon, and the colon. -/
theorem dropWhile_colon :
    line.dropWhile (· ≠ colon) = [] ∨ ∃ rest, line.dropWhile (· ≠ colon) = colon :: rest := by
  cases hdrop : line.dropWhile (· ≠ colon) with
  | nil => exact .inl rfl
  | cons char rest =>
      have hhead := List.head?_dropWhile_not (· ≠ colon) line
      rw [hdrop] at hhead
      exact .inr ⟨rest, by simpa using hhead⟩

theorem lessSpace_encode (value : Text) :
    (match encode value with
      | [] => []
      | byte :: rest => if byte = Byte.space then rest else byte :: rest) =
      encode (lessSpace value) := by
  cases value with
  | nil => rfl
  | cons char rest =>
      rw [lessSpace]
      by_cases hchar : char = space
      · rw [if_pos hchar, hchar, encode_cons, spacePair.encodeChar_eq]
        rfl
      · have hhead := mt (head_encode_iff spacePair (char :: rest)).mp
          fun hspace => hchar (Option.some.inj hspace)
        rw [if_neg hchar]
        cases hbytes : encode (char :: rest) with
        | nil => rfl
        | cons byte bytes =>
            rw [hbytes] at hhead
            exact if_neg fun hbyte => hhead (congrArg some hbyte)

theorem fieldValue_encode : fieldValue (encode line) = encode (feedValue line) := by
  rw [fieldValue, feedValue, colonPair.dropWhile_encode]
  rcases dropWhile_colon line with hdrop | ⟨rest, hdrop⟩
  · rw [hdrop]
    rfl
  · rw [hdrop, encode_cons, colonPair.encodeChar_eq, List.singleton_append, List.drop_one,
      List.tail_cons, List.drop_one, List.tail_cons]
    exact lessSpace_encode rest

/-! ## The fields of an event -/

/-- The fields as the framer collects them. -/
def encodeFields (fields : Fields) : Pending :=
  ⟨fields.name.map encode, fields.data.map encode⟩

theorem feed_encode (fields : Fields) (line : Text) :
    (encodeFields fields).feed (encode line) = encodeFields (readFeedLine fields line) := by
  have hname (name : Text) {constant : Bytes} (hconstant : encode name = constant) :
      fieldName (encode line) = constant ↔ feedName line = name := by
    rw [fieldName_encode, ← hconstant, encode_injective.eq_iff]
  have hcomment := head_encode_iff colonPair line
  have hevent := @hname (text "event") (ascii "event") (by decide)
  have hdata := @hname (text "data") (ascii "data") (by decide)
  simp only [Pending.feed, readFeedLine, hcomment, hevent, hdata, fieldValue_encode]
  split_ifs
  · rfl
  · rfl
  · rw [encodeFields, encodeFields, List.map_append]
    rfl
  · rfl

theorem foldl_feed_encode (fields : Fields) (lines : List Text) :
    (lines.map encode).foldl Pending.feed (encodeFields fields) =
      encodeFields (lines.foldl readFeedLine fields) := by
  induction lines generalizing fields with
  | nil => rfl
  | cons line lines ih => rw [List.map_cons, List.foldl_cons, feed_encode, ih, List.foldl_cons]

theorem valid_stripCr {line : Bytes} (hvalid : Valid line) : Valid (stripCr line) := by
  rw [stripCr]
  split_ifs with hlast
  · rw [← List.dropLast_append_getLast? Byte.cr hlast] at hvalid
    exact (hvalid.split cr_ascii).1
  · exact hvalid

theorem valid_of_mem_blockLines (hvalid : Valid block) : ∀ line ∈ blockLines block, Valid line := by
  induction hlength : block.length using Nat.strong_induction_on generalizing block with
  | _ length ih =>
      subst hlength
      by_cases hlf : Byte.lf ∈ block
      · obtain ⟨line, rest, rfl, hline⟩ := List.eq_append_cons_of_mem hlf
        have hsplit := hvalid.split lf_ascii
        rw [blockLines_line rest hline]
        refine List.forall_mem_cons.mpr ⟨hsplit.1, ih _ ?_ hsplit.2 rfl⟩
        rw [List.length_append, List.length_cons]
        omega
      · rw [blockLines_last hlf]
        split_ifs
        · exact fun line hline => absurd hline List.not_mem_nil
        · exact List.forall_mem_singleton.mpr hvalid

theorem intercalate_encode (lines : List Text) :
    [Byte.lf].intercalate (lines.map encode) = encode (joinLines lines) := by
  induction lines with
  | nil => rfl
  | cons line lines ih =>
      cases lines with
      | nil => rw [List.map_singleton, List.intercalate_singleton, joinLines,
          List.intercalate_singleton]
      | cons second lines =>
          rw [List.map_cons, List.map_cons, List.intercalate_cons_cons, ← List.map_cons, ih,
            joinLines, joinLines, List.intercalate_cons_cons, encode_append, encode_append]
          rfl

def encodeEvent (event : Option Text × Text) : GrammarEvent :=
  ⟨event.1.map encode, encode event.2⟩

theorem finish_eq {fields : EventFields} {read : Fields}
    (hmatches : Matches fields (encodeFields read)) :
    fields.finish.map SseEvent.toGrammar = read.event.map encodeEvent := by
  obtain ⟨hname, hdata⟩ := hmatches
  change fields.eventName.map Utf8String.bytes = read.name.map encode at hname
  change fields.dataParts = read.data.map encode at hdata
  rw [EventFields.finish, Fields.event, Fields.carried]
  by_cases hread : read.data = []
  · rw [if_pos (by rw [hdata, hread]; rfl), if_pos (by rw [hread]; rfl)]
    rfl
  · rw [if_neg (by simpa [hdata] using hread), if_neg (by simpa using hread), hdata,
      intercalate_encode]
    exact congrArg (fun name => some (GrammarEvent.mk name (encode (joinLines read.data)))) hname

theorem blockOutput_eq (hvalid : Valid block) :
    (blockOutput block).map (·.map SseEvent.toGrammar) =
      ((readFeedEvent (blockText block)).event.map encodeEvent).map .ok := by
  have hlines : (blockLines block).map stripCr =
      ((feedLines (blockText block)).map dropReturn).map encode := by
    obtain ⟨text, rfl⟩ := exists_encode hvalid
    rw [blockText, decodeUtf8_encode hvalid, Option.getD_some, blockLines_encode, List.map_map,
      List.map_map]
    exact List.map_congr_left fun line _ => stripCr_encode line
  have hvalids : ∀ line ∈ (blockLines block).map stripCr, Valid line := by
    rw [List.forall_mem_map]
    exact fun line hline => valid_stripCr (valid_of_mem_blockLines hvalid line hline)
  have hempty : Matches .empty .empty := ⟨rfl, rfl⟩
  obtain ⟨fields, hfold, hmatches⟩ := foldlM_readLine_matches hvalids hempty
  have hpending := foldl_feed_encode .empty ((feedLines (blockText block)).map dropReturn)
  rw [← hlines] at hpending
  have hparse : parseEventBlock block = .ok fields.finish := by
    rw [List.foldlM_map] at hfold
    rw [parseEventBlock, readLines, hfold]
    rfl
  have hfinish : fields.finish.map SseEvent.toGrammar =
      (readFeedEvent (blockText block)).event.map encodeEvent := by
    apply finish_eq
    rw [readFeedEvent, ← hpending]
    exact hmatches
  rw [blockOutput, hparse, ← hfinish]
  dsimp only
  cases fields.finish with
  | none => rfl
  | some event => rfl

/-! ## Agreement -/

/-- The texts of the events of a stream. -/
def eventTexts (stream : Bytes) : List Text := (blocks stream).map blockText

/-- The events are the same, however the stream is cut into chunks and whenever the framer
is asked for events. -/
def FramersAgree (stream : Bytes) : Prop :=
  ∀ (chunks : List Bytes) (calls : List FramerCall), chunks.flatten = stream →
    FramerCall.stream calls = stream →
      ∃ events rest, parseChunks isSpace [] chunks = some (events, rest) ∧
        grammarOutputs (SseFramer.new.runAndDrain calls).1 =
          events.map (fun event => .ok (encodeEvent event))

/-- The events that carry data have the same name and the same data fields, whether the
lines end at line feeds or wherever `str.splitlines` ends a line, and whether one space or
all white space is taken off a value. -/
def SameFields (stream : Bytes) : Prop :=
  (eventTexts stream).filterMap (fun text => (readEvent isSpace text).carried) =
    (eventTexts stream).filterMap (fun text => (readFeedEvent text).carried)

theorem grammarOutputs_eq {stream : Bytes} (hvalid : Valid stream) {calls : List FramerCall}
    (hcalls : FramerCall.stream calls = stream) :
    grammarOutputs (SseFramer.new.runAndDrain calls).1 =
      ((eventTexts stream).filterMap fun text => (readFeedEvent text).event).map
        (fun event => .ok (encodeEvent event)) := by
  rw [SseFramer.runAndDrain_chunk_invariant, hcalls, SseFramer.drain_eq]
  change grammarOutputs (frameDecoder.drain stream).1 = _
  rw [frameDecoder_drain, grammarOutputs, eventTexts, List.map_filterMap, List.filterMap_map,
    List.map_filterMap]
  apply List.filterMap_congr
  intro block hblock
  rw [blockOutput_eq (valid_of_mem_blocks hvalid block hblock), Option.map_map]
  rfl

/-! ## The data of an event -/

open Proxy.SseByteBuffer (lineBreaks splitlines eventPrefix dataPrefix lstrip)

/-- No data field has a line feed in it. -/
def Unbroken (fields : Fields) : Prop := ∀ part ∈ fields.data, newline ∉ part

theorem unbroken_foldl {read : Fields → Text → Fields} {lines : List Text}
    (hread : ∀ line ∈ lines, ∀ fields, Unbroken fields → Unbroken (read fields line)) :
    Unbroken (lines.foldl read .empty) := by
  have hempty : Unbroken .empty := fun part hpart => absurd hpart List.not_mem_nil
  generalize Fields.empty = fields at hempty ⊢
  induction lines generalizing fields with
  | nil => exact hempty
  | cons line lines ih =>
      obtain ⟨hline, hlines⟩ := List.forall_mem_cons.mp hread
      exact ih hlines _ (hline fields hempty)

theorem unbroken_append {fields : Fields} {part : Text} (hfields : Unbroken fields)
    (hpart : newline ∉ part) : Unbroken { fields with data := fields.data ++ [part] } := by
  intro other hother
  rcases List.mem_append.mp hother with hold | hnew
  · exact hfields other hold
  · rw [List.mem_singleton.mp hnew]
    exact hpart

theorem lineBreak_not_mem_splitlines {text line : Text} (hline : line ∈ splitlines text) :
    ∀ char ∈ line, char ∉ lineBreaks := by
  induction text generalizing line with
  | nil => exact absurd hline List.not_mem_nil
  | cons char text ih =>
      rw [splitlines] at hline
      split_ifs at hline with hpair hbreak
      · exact ih hline
      · rcases List.mem_cons.mp hline with rfl | hline
        · exact fun other hother => absurd hother List.not_mem_nil
        · exact ih hline
      · cases hlines : splitlines text with
        | nil =>
            rw [hlines] at hline
            rw [List.mem_singleton.mp hline]
            exact List.forall_mem_singleton.mpr hbreak
        | cons first lines =>
            rw [hlines] at hline ih
            rcases List.mem_cons.mp hline with rfl | hline
            · exact List.forall_mem_cons.mpr ⟨hbreak, ih List.mem_cons_self⟩
            · exact ih (List.mem_cons_of_mem first hline)

theorem newline_not_mem_feedLines {text line : Text} (hline : line ∈ feedLines text) :
    newline ∉ line := by
  induction text generalizing line with
  | nil => exact absurd hline List.not_mem_nil
  | cons char text ih =>
      rw [feedLines] at hline
      split_ifs at hline with hchar
      · rcases List.mem_cons.mp hline with rfl | hline
        · exact List.not_mem_nil
        · exact ih hline
      · cases hlines : feedLines text with
        | nil =>
            rw [hlines] at hline
            rw [List.mem_singleton.mp hline]
            exact fun hmem => hchar (List.mem_singleton.mp hmem).symm
        | cons first lines =>
            rw [hlines] at hline ih
            rcases List.mem_cons.mp hline with rfl | hline
            · rw [List.mem_cons, not_or]
              exact ⟨Ne.symm hchar, ih List.mem_cons_self⟩
            · exact ih (List.mem_cons_of_mem first hline)

theorem dropReturn_sublist : (dropReturn line).Sublist line := by
  rw [dropReturn]
  split_ifs
  · exact List.dropLast_sublist line
  · exact List.Sublist.refl line

theorem lessSpace_sublist (value : Text) : (lessSpace value).Sublist value := by
  cases value with
  | nil => exact List.Sublist.refl []
  | cons char rest =>
      rw [lessSpace]
      split_ifs
      · exact List.sublist_cons_self char rest
      · exact List.Sublist.refl _

theorem feedValue_sublist : (feedValue line).Sublist line :=
  ((lessSpace_sublist _).trans (List.drop_sublist 1 _)).trans (List.dropWhile_sublist _)

theorem unbroken_readFeedEvent (text : Text) : Unbroken (readFeedEvent text) := by
  apply unbroken_foldl
  rw [List.forall_mem_map]
  intro line hline fields hfields
  rw [readFeedLine]
  split_ifs
  · exact hfields
  · exact hfields
  · apply unbroken_append hfields
    intro hnewline
    have hsublist := (feedValue_sublist _).trans (dropReturn_sublist line)
    exact newline_not_mem_feedLines hline (hsublist.subset hnewline)
  · exact hfields

theorem unbroken_readEvent (text : Text) : Unbroken (readEvent isSpace text) := by
  apply unbroken_foldl
  intro line hline fields hfields
  rw [Proxy.SseByteBuffer.readLine]
  split_ifs
  · exact hfields
  · exact hfields
  · exact hfields
  · apply unbroken_append hfields
    intro hnewline
    have hsublist := (List.dropWhile_sublist isSpace).trans (List.drop_sublist dataPrefix.length line)
    exact lineBreak_not_mem_splitlines hline newline (hsublist.subset hnewline) (by decide)
  · exact hfields

/-- The fields are found again in the event that is reported. -/
theorem carried_of_event {fields : Fields} (hfields : Unbroken fields) :
    fields.carried = fields.event.map fun event => ⟨event.1, Python.splitLines event.2⟩ := by
  rw [Fields.event, Fields.carried]
  split_ifs with hdata
  · rfl
  · rw [Option.map_some, Option.map_some, splitLines_joinLines hfields (by simpa using hdata)]

/-- Events that carry data are the same when their fields are. -/
theorem filterMap_event_iff {left right : Text → Fields} (hleft : ∀ text, Unbroken (left text))
    (hright : ∀ text, Unbroken (right text)) (texts : List Text) :
    texts.filterMap (fun text => (left text).event) =
        texts.filterMap (fun text => (right text).event) ↔
      texts.filterMap (fun text => (left text).carried) =
        texts.filterMap (fun text => (right text).carried) := by
  constructor
  · intro hevents
    simp only [carried_of_event (hleft _), carried_of_event (hright _), ← List.map_filterMap,
      hevents]
  · intro hcarried
    simp only [Fields.event, ← List.map_filterMap, hcarried]

theorem encodeEvents_injective : Function.Injective (List.map fun event =>
    (Except.ok (encodeEvent event) : Except FramingError GrammarEvent)) := by
  apply List.map_injective_iff.mpr
  intro left right heq
  obtain ⟨hname, hdata⟩ := GrammarEvent.mk.inj (Except.ok.inj heq)
  exact Prod.ext (Option.map_injective encode_injective hname) (encode_injective hdata)

theorem reported_blocks (stream : Bytes) :
    reported isSpace (blocks stream) =
      (eventTexts stream).filterMap fun text => (readEvent isSpace text).event := by
  rw [eventTexts, List.filterMap_map]
  rfl

theorem parseChunks_stream (hvalid : Valid stream) {chunks : List Bytes}
    (hchunks : chunks.flatten = stream) :
    ∃ rest, parseChunks isSpace [] chunks =
      some ((eventTexts stream).filterMap fun text => (readEvent isSpace text).event, rest) := by
  have hwhole : [] ++ chunks.flatten = stream := hchunks
  have hparse := @parseChunks_eq isSpace [] chunks
    (by rw [hwhole]; exact valid_of_mem_blocks hvalid) (congrArg Prod.fst (drain_none rfl))
  rwa [hwhole, reported_blocks] at hparse

theorem sameFields_of_agree (hvalid : Valid stream) (hagree : FramersAgree isSpace stream) :
    SameFields isSpace stream := by
  obtain ⟨rest, hparse⟩ := parseChunks_stream isSpace hvalid List.flatten_singleton
  obtain ⟨events, left, hevents, houtputs⟩ := hagree [stream] [.push stream]
    List.flatten_singleton (List.append_nil stream)
  rw [hevents] at hparse
  rw [@grammarOutputs_eq stream hvalid [.push stream] (List.append_nil stream),
    (Prod.mk.inj (Option.some.inj hparse)).1] at houtputs
  rw [SameFields, ← filterMap_event_iff (unbroken_readEvent isSpace) unbroken_readFeedEvent]
  exact (encodeEvents_injective houtputs).symm

theorem agree_of_sameFields (hvalid : Valid stream) (hsame : SameFields isSpace stream) :
    FramersAgree isSpace stream := by
  intro chunks calls hchunks hcalls
  obtain ⟨rest, hparse⟩ := parseChunks_stream isSpace hvalid hchunks
  rw [SameFields, ← filterMap_event_iff (unbroken_readEvent isSpace) unbroken_readFeedEvent]
    at hsame
  refine ⟨_, rest, hparse, ?_⟩
  rw [grammarOutputs_eq hvalid hcalls, hsame]

theorem blocks_single (hfind : findDoubleNewline (front ++ double) = some (front.length, 2)) :
    blocks (front ++ double) = [front] := by
  have hdrop : (front ++ double).drop (front.length + 2) = [] := by
    rw [List.drop_eq_nil_iff, List.length_append]
    exact le_rfl
  rw [blocks, drain_some hfind, List.take_left, hdrop, drain_none rfl]

theorem sameFields_single {text : Text}
    (hfind : findDoubleNewline (front ++ double) = some (front.length, 2))
    (htext : decodeUtf8 front = some text) :
    SameFields isSpace (front ++ double) ↔
      (readEvent isSpace text).carried = (readFeedEvent text).carried := by
  have htexts : eventTexts (front ++ double) = [text] := by
    rw [eventTexts, blocks_single hfind, List.map_singleton, blockText, htext, Option.getD_some]
  have hsingle (read : Text → Option Fields) : [text].filterMap read = (read text).toList := by
    rw [List.filterMap_cons, List.filterMap_nil]
    cases read text with
    | none => rfl
    | some fields => rfl
  rw [SameFields, htexts, hsingle, hsingle]
  constructor
  · intro hlists
    have hheads := congrArg List.head? hlists
    rwa [Option.head?_toList, Option.head?_toList] at hheads
  · exact congrArg Option.toList

/-- A line separator in the data of an event. -/
def separatedFront : Bytes := encode (text "data: a" ++ [0x2028] ++ text "b")

end FramerAgreement

end Legroom.Sse
