import Legroom.Lib.PullDecoder
import Legroom.Lib.Utf8

/-!
# Byte-level SSE framing

`SseFramer` collects the bytes of a Server-Sent Events stream and cuts complete
events off the front of its buffer.  An event block ends at the first
`\n\n` or `\r\n\r\n`; blocks without a `data:` line are skipped.  Text is
decoded only inside a complete block, so a chunk boundary may fall anywhere.
-/

namespace Legroom.Sse

open Utf8

structure SseEvent where
  eventName : Option Utf8String
  data : Bytes
  deriving DecidableEq

/-- The data field is the literal `[DONE]`. -/
def SseEvent.isDoneSentinel (event : SseEvent) : Bool :=
  event.data == ascii "[DONE]"

inductive FramingError where
  | eventNameNotUtf8 (error : Utf8Error)
  deriving DecidableEq, Repr

structure SseFramer where
  buf : Bytes
  doneSeen : Bool
  deriving DecidableEq

namespace SseFramer

def new : SseFramer := ⟨[], false⟩

def push (framer : SseFramer) (chunk : Bytes) : SseFramer :=
  { framer with buf := framer.buf ++ chunk }

def bufferedLen (framer : SseFramer) : ℕ :=
  framer.buf.length

/-- The bytes left unframed, and the emptied framer. -/
def takeRemaining (framer : SseFramer) : Bytes × SseFramer :=
  (framer.buf, { framer with buf := [] })

end SseFramer

/-! ## Finding a terminator -/

/-- The loop of `find_double_newline` from offset `index`. -/
def findDoubleNewlineFrom (index : ℕ) : Bytes → Option (ℕ × ℕ)
  | first :: second :: rest =>
      if first = Byte.lf ∧ second = Byte.lf then some (index, 2)
      else if first = Byte.cr ∧ second = Byte.lf ∧
          rest.take 2 = [Byte.cr, Byte.lf] then some (index, 4)
      else findDoubleNewlineFrom (index + 1) (second :: rest)
  | _ => none

/-- Offset and length of the first terminator in `buf`. -/
def findDoubleNewline (buf : Bytes) : Option (ℕ × ℕ) :=
  findDoubleNewlineFrom 0 buf

/-! ## Parsing one block -/

/-- The lines of a block, without their line feeds.  Nothing follows a final
line feed. -/
def blockLines : Bytes → List Bytes
  | [] => []
  | byte :: rest =>
      if byte = Byte.lf then [] :: blockLines rest
      else
        match blockLines rest with
        | [] => [[byte]]
        | line :: lines => (byte :: line) :: lines

/-- Strip a single trailing carriage return. -/
def stripCr (line : Bytes) : Bytes :=
  if line.getLast? = some Byte.cr then line.dropLast else line

/-- The part of a line in front of its first colon. -/
def fieldName (line : Bytes) : Bytes :=
  line.takeWhile (· ≠ Byte.colon)

/-- The part behind the first colon, less one leading space. -/
def fieldValue (line : Bytes) : Bytes :=
  match (line.dropWhile (· ≠ Byte.colon)).drop 1 with
  | [] => []
  | byte :: rest => if byte = Byte.space then rest else byte :: rest

/-- The local variables of `parse_event_block`. -/
structure EventFields where
  eventName : Option Utf8String
  dataParts : List Bytes
  deriving DecidableEq

def EventFields.empty : EventFields := ⟨none, []⟩

/-- One line of a block, its carriage return already stripped. -/
def readLine (fields : EventFields) (line : Bytes) :
    Except FramingError EventFields :=
  if line = [] then .ok fields
  else if line.head? = some Byte.colon then .ok fields
  else if fieldName line = ascii "event" then
    match fromUtf8 (fieldValue line) with
    | .ok name => .ok { fields with eventName := some name }
    | .error error => .error (.eventNameNotUtf8 error)
  else if fieldName line = ascii "data" then
    .ok { fields with dataParts := fields.dataParts ++ [fieldValue line] }
  else .ok fields

def readLines (fields : EventFields) (lines : List Bytes) :
    Except FramingError EventFields :=
  lines.foldlM (fun fields line => readLine fields (stripCr line)) fields

/-- The event of a finished block; none without a `data:` line. -/
def EventFields.finish (fields : EventFields) : Option SseEvent :=
  if fields.dataParts = [] then none
  else some ⟨fields.eventName, [Byte.lf].intercalate fields.dataParts⟩

def parseEventBlock (block : Bytes) : Except FramingError (Option SseEvent) :=
  (readLines EventFields.empty (blockLines block)).map EventFields.finish

/-! ## Pulling events -/

/-- The loop of `next_event` on the buffer.  A pass removes at least the
terminator, so the length of the buffer bounds the number of passes. -/
def nextEventLoop : ℕ → Bytes → Option (Except FramingError SseEvent) × Bytes
  | 0, buf => (none, buf)
  | fuel + 1, buf =>
      match findDoubleNewline buf with
      | none => (none, buf)
      | some (blockEnd, termLen) =>
          match parseEventBlock (buf.take blockEnd) with
          | .ok (some event) =>
              (some (.ok event), (buf.drop blockEnd).drop termLen)
          | .ok none => nextEventLoop fuel ((buf.drop blockEnd).drop termLen)
          | .error error =>
              (some (.error error), (buf.drop blockEnd).drop termLen)

def nextFrame (buf : Bytes) : Option (Except FramingError SseEvent) × Bytes :=
  nextEventLoop buf.length buf

/-- Whether an output sets `done_seen`. -/
def isDone : Option (Except FramingError SseEvent) → Bool
  | some (.ok event) => event.isDoneSentinel
  | _ => false

def SseFramer.nextEvent (framer : SseFramer) :
    Option (Except FramingError SseEvent) × SseFramer :=
  let found := nextFrame framer.buf
  (found.1, ⟨found.2, framer.doneSeen || isDone found.1⟩)

example : (SseFramer.new.push (ascii "event: a\ndata: b\n\ndata")).nextEvent =
    (some (.ok ⟨some ⟨ascii "a", by decide⟩, ascii "b"⟩),
      ⟨ascii "data", false⟩) := by
  decide

/-! ## The terminator search -/

variable {buf : Bytes}

theorem findDoubleNewlineFrom_bounds {index blockEnd termLen : ℕ}
    (hfind : findDoubleNewlineFrom index buf = some (blockEnd, termLen)) :
    index ≤ blockEnd ∧ 2 ≤ termLen ∧
      blockEnd + termLen ≤ index + buf.length := by
  induction index, buf using findDoubleNewlineFrom.induct with
  | case1 index first second rest hpair =>
      rw [findDoubleNewlineFrom, if_pos hpair] at hfind
      cases hfind
      simp
  | case2 index first second rest hpair hquad =>
      rw [findDoubleNewlineFrom, if_neg hpair, if_pos hquad] at hfind
      cases hfind
      have hrest : 2 ≤ rest.length := by
        have := congrArg List.length hquad.2.2
        simp at this
        omega
      simp
      omega
  | case3 index first second rest hpair hquad ih =>
      rw [findDoubleNewlineFrom, if_neg hpair, if_neg hquad] at hfind
      have := ih hfind
      simp only [List.length_cons] at this ⊢
      omega
  | case4 index buf hshort =>
      rw [findDoubleNewlineFrom] at hfind
      · cases hfind
      · exact hshort

theorem findDoubleNewline_bounds {blockEnd termLen : ℕ}
    (hfind : findDoubleNewline buf = some (blockEnd, termLen)) :
    2 ≤ termLen ∧ blockEnd + termLen ≤ buf.length := by
  have := findDoubleNewlineFrom_bounds hfind
  omega

variable {found : ℕ × ℕ}

/-- A terminator, once in the buffer, stays the first one.  The only delicate
case is a carriage return within four bytes of the end: what follows could
complete `\r\n\r\n` there, but then no `\n\n` can start right behind it. -/
theorem findDoubleNewlineFrom_append {index : ℕ} (more : Bytes)
    (hfind : findDoubleNewlineFrom index buf = some found) :
    findDoubleNewlineFrom index (buf ++ more) = some found := by
  induction index, buf using findDoubleNewlineFrom.induct with
  | case1 index first second rest hpair =>
      rw [findDoubleNewlineFrom, if_pos hpair] at hfind
      rw [List.cons_append, List.cons_append, findDoubleNewlineFrom,
        if_pos hpair, hfind]
  | case2 index first second rest hpair hquad =>
      rw [findDoubleNewlineFrom, if_neg hpair, if_pos hquad] at hfind
      have hrest : (rest ++ more).take 2 = [Byte.cr, Byte.lf] := by
        have := congrArg List.length hquad.2.2
        simp only [List.length_take, List.length_cons, List.length_nil] at this
        rw [List.take_append_of_le_length (by omega)]
        exact hquad.2.2
      rw [List.cons_append, List.cons_append, findDoubleNewlineFrom,
        if_neg hpair, if_pos ⟨hquad.1, hquad.2.1, hrest⟩, hfind]
  | case3 index first second rest hpair hquad ih =>
      rw [findDoubleNewlineFrom, if_neg hpair, if_neg hquad] at hfind
      have hlater := ih hfind
      have hnot : ¬(first = Byte.cr ∧ second = Byte.lf ∧
          (rest ++ more).take 2 = [Byte.cr, Byte.lf]) := by
        rintro ⟨hfirst, hsecond, htake⟩
        match rest, hquad, hfind, htake with
        | [], _, hfind, _ => simp [findDoubleNewlineFrom] at hfind
        | [third], _, hfind, htake =>
            have hthird : third = Byte.cr := by
              simpa using congrArg List.head? htake
            subst hsecond hthird
            simp [findDoubleNewlineFrom, Byte.lf, Byte.cr] at hfind
        | third :: fourth :: rest, hquad, _, htake =>
            exact hquad ⟨hfirst, hsecond, by simpa using htake⟩
      rw [List.cons_append, List.cons_append, findDoubleNewlineFrom,
        if_neg hpair, if_neg hnot]
      exact hlater
  | case4 index buf hshort =>
      rw [findDoubleNewlineFrom] at hfind
      · cases hfind
      · exact hshort

theorem findDoubleNewline_append (more : Bytes) (hfind : findDoubleNewline buf = some found) :
    findDoubleNewline (buf ++ more) = some found :=
  findDoubleNewlineFrom_append more hfind

/-! ## The loop equation -/

theorem nextEventLoop_fuel {left right : ℕ} (hleft : buf.length ≤ left)
    (hright : buf.length ≤ right) : nextEventLoop left buf = nextEventLoop right buf := by
  induction left generalizing buf right with
  | zero =>
      obtain rfl : buf = [] := List.length_eq_zero_iff.mp (by omega)
      cases right <;> rfl
  | succ left ih =>
      cases right with
      | zero =>
          obtain rfl : buf = [] := List.length_eq_zero_iff.mp (by omega)
          rfl
      | succ right =>
          rw [nextEventLoop, nextEventLoop]
          cases hfind : findDoubleNewline buf with
          | none => rfl
          | some found =>
              have hbounds := findDoubleNewline_bounds hfind
              have hloop :
                  nextEventLoop left ((buf.drop found.1).drop found.2) =
                    nextEventLoop right ((buf.drop found.1).drop found.2) :=
                ih (by simp; omega) (by simp; omega)
              simp only [hloop]

/-- `next_event` as the source writes it: find a terminator, parse the block in
front of it, and go on when the block carries no event. -/
theorem nextFrame_eq (buf : Bytes) :
    nextFrame buf =
      match findDoubleNewline buf with
      | none => (none, buf)
      | some (blockEnd, termLen) =>
          match parseEventBlock (buf.take blockEnd) with
          | .ok (some event) =>
              (some (.ok event), (buf.drop blockEnd).drop termLen)
          | .ok none => nextFrame ((buf.drop blockEnd).drop termLen)
          | .error error =>
              (some (.error error), (buf.drop blockEnd).drop termLen) := by
  rw [nextFrame, nextEventLoop_fuel le_rfl (Nat.le_succ _), nextEventLoop]
  cases hfind : findDoubleNewline buf with
  | none => rfl
  | some found =>
      have hbounds := findDoubleNewline_bounds hfind
      have hloop :
          nextEventLoop buf.length ((buf.drop found.1).drop found.2) =
            nextFrame ((buf.drop found.1).drop found.2) :=
        nextEventLoop_fuel (by simp) le_rfl
      simp only [hloop]

/-!
## Chunk invariance of the SSE framer

TCP cuts a stream wherever it likes.  The framer is a pull decoder: a block
found in the buffer is found again when more bytes follow, and a skipped block
never matters later.  So its events and errors, and the bytes it leaves, depend
on the stream alone.
-/

variable {buf rest : Bytes}
variable {output : Except FramingError SseEvent}

theorem block_append {blockEnd termLen : ℕ} (more : Bytes)
    (hfind : findDoubleNewline buf = some (blockEnd, termLen)) :
    (buf ++ more).take blockEnd = buf.take blockEnd ∧
      ((buf ++ more).drop blockEnd).drop termLen =
        (buf.drop blockEnd).drop termLen ++ more := by
  have hbounds := findDoubleNewline_bounds hfind
  rw [List.drop_drop, List.drop_drop, List.drop_append_of_le_length (by omega)]
  exact ⟨List.take_append_of_le_length (by omega), rfl⟩

/-- A found output and the bytes behind it are not disturbed by later bytes. -/
theorem nextFrame_stable {more : Bytes} (hnext : nextFrame buf = (some output, rest)) :
    nextFrame (buf ++ more) = (some output, rest ++ more) := by
  induction hlength : buf.length using Nat.strong_induction_on generalizing buf with
  | _ length ih =>
      rw [nextFrame_eq] at hnext ⊢
      cases hfind : findDoubleNewline buf with
      | none => simp [hfind] at hnext
      | some found =>
          obtain ⟨blockEnd, termLen⟩ := found
          have hbounds := findDoubleNewline_bounds hfind
          obtain ⟨htake, hdrop⟩ := block_append more hfind
          rw [findDoubleNewline_append more hfind]
          simp only [hfind, htake, hdrop] at hnext ⊢
          cases hparse : parseEventBlock (buf.take blockEnd) with
          | error error =>
              simp only [hparse] at hnext ⊢
              cases hnext
              rfl
          | ok parsed =>
              cases parsed with
              | some event =>
                  simp only [hparse] at hnext ⊢
                  cases hnext
                  rfl
              | none =>
                  simp only [hparse] at hnext ⊢
                  exact ih _ (by simp; omega) hnext rfl

/-- Blocks skipped while waiting would be skipped again. -/
theorem nextFrame_resume {more : Bytes} (hnext : nextFrame buf = (none, rest)) :
    nextFrame (buf ++ more) = nextFrame (rest ++ more) := by
  induction hlength : buf.length using Nat.strong_induction_on generalizing buf with
  | _ length ih =>
      rw [nextFrame_eq] at hnext
      cases hfind : findDoubleNewline buf with
      | none =>
          simp only [hfind] at hnext
          cases hnext
          rfl
      | some found =>
          obtain ⟨blockEnd, termLen⟩ := found
          have hbounds := findDoubleNewline_bounds hfind
          obtain ⟨htake, hdrop⟩ := block_append more hfind
          simp only [hfind] at hnext
          cases hparse : parseEventBlock (buf.take blockEnd) with
          | error error => simp [hparse] at hnext
          | ok parsed =>
              cases parsed with
              | some event => simp [hparse] at hnext
              | none =>
                  simp only [hparse] at hnext
                  rw [nextFrame_eq (buf ++ more), findDoubleNewline_append more hfind]
                  simp only [htake, hdrop, hparse]
                  exact ih _ (by simp; omega) hnext rfl

/-- Every output costs at least its terminator. -/
theorem nextFrame_progress (hnext : nextFrame buf = (some output, rest)) :
    rest.length < buf.length := by
  induction hlength : buf.length using Nat.strong_induction_on generalizing buf with
  | _ length ih =>
      subst hlength
      rw [nextFrame_eq] at hnext
      cases hfind : findDoubleNewline buf with
      | none => simp [hfind] at hnext
      | some found =>
          obtain ⟨blockEnd, termLen⟩ := found
          have hbounds := findDoubleNewline_bounds hfind
          have hshorter : ((buf.drop blockEnd).drop termLen).length < buf.length := by
            simp
            omega
          simp only [hfind] at hnext
          cases hparse : parseEventBlock (buf.take blockEnd) with
          | error error =>
              simp only [hparse] at hnext
              cases hnext
              exact hshorter
          | ok parsed =>
              cases parsed with
              | some event =>
                  simp only [hparse] at hnext
                  cases hnext
                  exact hshorter
              | none =>
                  simp only [hparse] at hnext
                  exact (ih _ hshorter hnext rfl).trans hshorter

/-- The framer's buffer as a pull decoder.  Errors are not fatal: the framer
continues behind the malformed block. -/
def frameDecoder : PullDecoder Byte (Except FramingError SseEvent) where
  next := nextFrame
  fatal _ := false
  stable := nextFrame_stable
  resume := nextFrame_resume
  progress hnext _ := nextFrame_progress hnext

/-! ## Runs of the framer itself -/

inductive FramerCall where
  | push (chunk : Bytes)
  | nextEvent
  deriving DecidableEq

/-- The byte stream that a sequence of calls pushes. -/
def FramerCall.stream : List FramerCall → Bytes
  | [] => []
  | .push chunk :: calls => chunk ++ stream calls
  | .nextEvent :: calls => stream calls

namespace SseFramer

/-- The events and errors that a sequence of calls yields, in order, and the
framer afterwards. -/
def runCalls : SseFramer → List FramerCall →
    List (Except FramingError SseEvent) × SseFramer
  | framer, [] => ([], framer)
  | framer, .push chunk :: calls => runCalls (framer.push chunk) calls
  | framer, .nextEvent :: calls =>
      let later := runCalls framer.nextEvent.2 calls
      (framer.nextEvent.1.toList ++ later.1, later.2)

/-- Call `next_event` until it returns nothing. -/
def drain (framer : SseFramer) :
    List (Except FramingError SseEvent) × SseFramer :=
  match _hnext : nextFrame framer.buf with
  | (none, _) => ([], framer.nextEvent.2)
  | (some output, _) =>
      let later := drain framer.nextEvent.2
      (output :: later.1, later.2)
termination_by framer.buf.length
decreasing_by
  rw [nextEvent, _hnext]
  exact nextFrame_progress _hnext

/-- Run the calls, then drain. -/
def runAndDrain (framer : SseFramer) (calls : List FramerCall) :
    List (Except FramingError SseEvent) × SseFramer :=
  let ran := framer.runCalls calls
  let drained := ran.2.drain
  (ran.1 ++ drained.1, drained.2)
variable {framer : SseFramer}

theorem drain_of_none {rest : Bytes} (hnext : nextFrame framer.buf = (none, rest)) :
    framer.drain = ([], framer.nextEvent.2) := by
  rw [drain]
  split
  · rfl
  · rename_i heq
    rw [hnext] at heq
    cases heq

theorem drain_of_some {rest : Bytes} {output : Except FramingError SseEvent}
    (hnext : nextFrame framer.buf = (some output, rest)) :
    framer.drain = (output :: framer.nextEvent.2.drain.1,
      framer.nextEvent.2.drain.2) := by
  rw [drain]
  split
  · rename_i heq
    rw [hnext] at heq
    cases heq
  · rename_i heq
    rw [hnext] at heq
    cases heq
    rfl

/-- Draining the framer drains its buffer, and raises `done_seen` exactly when a
`[DONE]` event comes out. -/
theorem drain_eq (framer : SseFramer) :
    framer.drain = ((frameDecoder.drain framer.buf).1,
      ⟨(frameDecoder.drain framer.buf).2, framer.doneSeen ||
        (frameDecoder.drain framer.buf).1.any fun output => isDone (some output)⟩) := by
  induction hlength : framer.buf.length using Nat.strong_induction_on
    generalizing framer with
  | _ length ih =>
      subst hlength
      rcases hnext : nextFrame framer.buf with ⟨_ | output, rest⟩
      · rw [drain_of_none hnext, frameDecoder.drain_of_none hnext]
        simp [nextEvent, hnext, isDone]
      · have hshorter := nextFrame_progress hnext
        have hafter : framer.nextEvent.2.buf = rest := by rw [nextEvent, hnext]
        rw [drain_of_some hnext, frameDecoder.drain_of_some hnext rfl,
          ih rest.length hshorter _ (by rw [hafter]), hafter]
        simp [nextEvent, hnext, Bool.or_assoc]

/-- The decoder calls behind framer calls. -/
def toCalls : List FramerCall → List (PullDecoder.Call Byte)
  | [] => []
  | .push chunk :: calls => .push chunk :: toCalls calls
  | .nextEvent :: calls => .pull :: toCalls calls

theorem pushed_toCalls (calls : List FramerCall) :
    PullDecoder.pushed (toCalls calls) = FramerCall.stream calls := by
  induction calls with
  | nil => rfl
  | cons call calls ih =>
      cases call <;> simp [toCalls, PullDecoder.pushed, FramerCall.stream, ih]

theorem runCalls_eq (framer : SseFramer) (calls : List FramerCall) :
    framer.runCalls calls =
      ((frameDecoder.runCalls framer.buf (toCalls calls)).1,
        ⟨(frameDecoder.runCalls framer.buf (toCalls calls)).2, framer.doneSeen ||
          (frameDecoder.runCalls framer.buf (toCalls calls)).1.any
            fun output => isDone (some output)⟩) := by
  induction calls generalizing framer with
  | nil => simp [runCalls, toCalls, PullDecoder.runCalls]
  | cons call calls ih =>
      cases call with
      | push chunk =>
          rw [runCalls, toCalls, PullDecoder.runCalls, ih]
          rfl
      | nextEvent =>
          rw [runCalls, toCalls, PullDecoder.runCalls, ih]
          have hdecoder : frameDecoder.next framer.buf = nextFrame framer.buf := rfl
          rw [hdecoder]
          rcases hnext : nextFrame framer.buf with ⟨_ | output, rest⟩
          · simp [nextEvent, hnext, isDone]
          · simp [nextEvent, hnext, frameDecoder, Bool.or_assoc]

/-- However the stream is cut into chunks and however the requests for events
are interleaved with them, the framer yields the events and errors of the whole
stream pushed at once, leaves the same bytes, and agrees on `done_seen`. -/
theorem runAndDrain_chunk_invariant (calls : List FramerCall) :
    new.runAndDrain calls = (new.push (FramerCall.stream calls)).drain := by
  have hfinish := frameDecoder.finish_runCalls [] (toCalls calls)
  have hclean : (frameDecoder.runCalls [] (toCalls calls)).1.any
      frameDecoder.fatal = false := by
    simp [frameDecoder]
  rw [PullDecoder.finish, if_neg (by simp [hclean]), pushed_toCalls] at hfinish
  rw [runAndDrain, runCalls_eq, drain_eq, drain_eq]
  simp only [new, push, List.nil_append] at hfinish ⊢
  rw [← hfinish]
  simp

end SseFramer

end Legroom.Sse
