import Legroom.Lib.Bytes

/-!
# Retrieval calls in a stream

The chunks of a stream are held back until one can tell whether there is a retrieval
call.  Without one they are let through, a segment at a time; with one, the rest of the
stream is collected and answered by the encoding of the final response.
-/

namespace Legroom.Ccr

def toolUseStart : Bytes := ascii "\"type\":\"tool_use\""

def ccrToolPattern : Bytes := ascii "\"legroom_retrieve\""

def stopReason : Bytes := ascii "\"stop_reason\""

def hasStopReason (accumulated : Bytes) : Bool := decide (stopReason <:+: accumulated)

/-- What is in the buffer has a tool call and names the retrieval tool. -/
def namesCcrTool (accumulated : Bytes) : Bool :=
  decide (toolUseStart <:+: accumulated) && decide (ccrToolPattern <:+: accumulated)

structure StreamingCCRBuffer where
  chunks : List Bytes
  detectedCcr : Bool

namespace StreamingCCRBuffer

def empty : StreamingCCRBuffer := ⟨[], false⟩

def getAccumulated (buffer : StreamingCCRBuffer) : Bytes := buffer.chunks.flatten

def addChunk (buffer : StreamingCCRBuffer) (chunk : Bytes) : StreamingCCRBuffer :=
  let chunks := buffer.chunks ++ [chunk]
  ⟨chunks, buffer.detectedCcr || namesCcrTool chunks.flatten⟩

end StreamingCCRBuffer

/-- What the client receives: a piece of the stream or one of the final response. -/
inductive Yielded where
  | original (bytes : Bytes)
  | encoded (bytes : Bytes)
  deriving DecidableEq

namespace Yielded

def bytes : Yielded → Bytes
  | original bytes => bytes
  | encoded bytes => bytes

def isOriginal : Yielded → Bool
  | original _ => true
  | encoded _ => false

end Yielded

structure StreamState where
  buffer : StreamingCCRBuffer
  detectionComplete : Bool
  yielded : List Yielded

namespace StreamState

def start : StreamState := ⟨.empty, false, []⟩

/-- The buffered chunks are let through. -/
def flush (state : StreamState) : StreamState :=
  { state with buffer := .empty, yielded := state.yielded ++ state.buffer.chunks.map .original }

def largeBuffer : ℕ := 10000

/-- The first loop.  It leaves the chunks behind the one that it breaks at. -/
def detect : List Bytes → StreamState → StreamState × List Bytes
  | [], state => (state, [])
  | chunk :: rest, state =>
      let buffer := state.buffer.addChunk chunk
      let accumulated := buffer.getAccumulated
      if hasStopReason accumulated then
        let state := { state with buffer := buffer, detectionComplete := true }
        if buffer.detectedCcr then (state, rest) else detect rest state.flush
      else
        let state := { state with buffer := buffer }
        if largeBuffer < accumulated.length && !buffer.detectedCcr then detect rest state.flush
        else detect rest state

/-- The second loop. -/
def continueStream : List Bytes → StreamState → StreamState
  | [], state => state
  | chunk :: rest, state =>
      continueStream rest
        (if state.buffer.detectedCcr then { state with buffer := state.buffer.addChunk chunk }
        else { state with yielded := state.yielded ++ [.original chunk] })

end StreamState

structure StreamOutcome where
  yielded : List Yielded
  detected : Bool

section

-- The chunks of the final response for a collected stream, unless parsing it, handling it or
-- encoding the result raises.
variable (respond : Bytes → Option (List Bytes))

def processStream (chunks : List Bytes) : StreamOutcome :=
  let detection := StreamState.detect chunks .start
  let continued :=
    if !detection.1.detectionComplete && !detection.1.buffer.detectedCcr then
      (detection.1.continueStream detection.2, [])
    else detection
  if continued.1.buffer.detectedCcr then
    let collected := (continued.2.foldl .addChunk continued.1.buffer).getAccumulated
    match respond collected with
    | some encoded => ⟨continued.1.yielded ++ encoded.map .encoded, true⟩
    | none => ⟨continued.1.yielded ++ [.original collected], true⟩
  else ⟨continued.1.yielded, false⟩

/-- The client receives the bytes of the stream, or else there is a retrieval call and it
receives nothing but the final response. -/
def LosesNothing (chunks : List Bytes) : Prop :=
  ((∀ piece ∈ (processStream respond chunks).yielded, piece.isOriginal = true) ∧
      (processStream respond chunks).yielded.flatMap Yielded.bytes = chunks.flatten) ∨
    (processStream respond chunks).detected = true ∧
      ∀ piece ∈ (processStream respond chunks).yielded, piece.isOriginal = false

end

/-! ## Segments -/

/-- So much in the buffer is let through, unless there is a call in it. -/
def Releases (accumulated : Bytes) : Prop :=
  hasStopReason accumulated = true ∨ StreamState.largeBuffer < accumulated.length

/-- Chunks that are let through at the last of them. -/
structure Segment (chunks : List Bytes) : Prop where
  releases : Releases chunks.flatten
  noCall : namesCcrTool chunks.flatten = false
  first : ∀ front, front <+: chunks → front ≠ chunks → front ≠ [] → ¬Releases front.flatten

/-- Chunks that are held back to the end of the stream: nothing is let through before a call. -/
def HeldBack (chunks : List Bytes) : Prop :=
  ∀ front, front <+: chunks → front ≠ [] → Releases front.flatten →
    namesCcrTool front.flatten = true

theorem namesCcrTool_of_prefix {front accumulated : Bytes} (hfront : front <+: accumulated)
    (hnames : namesCcrTool front = true) : namesCcrTool accumulated = true := by
  rw [namesCcrTool, Bool.and_eq_true, decide_eq_true_iff, decide_eq_true_iff] at hnames ⊢
  exact ⟨hnames.1.trans hfront.isInfix, hnames.2.trans hfront.isInfix⟩

variable {front chunks : List Bytes}

theorem namesCcrTool_flatten (hfront : front <+: chunks)
    (hnames : namesCcrTool front.flatten = true) : namesCcrTool chunks.flatten = true := by
  obtain ⟨rest, rfl⟩ := hfront
  rw [List.flatten_append]
  exact namesCcrTool_of_prefix (List.prefix_append _ _) hnames

theorem Segment.ne_nil (hsegment : Segment chunks) : chunks ≠ [] := by
  rintro rfl
  rcases hsegment.releases with hstop | hlarge
  · exact absurd hstop (by decide)
  · exact absurd hlarge (Nat.not_lt_zero _)

theorem heldBack_nil : HeldBack [] := by
  intro front hfront hne
  exact absurd (List.prefix_nil.mp hfront) hne

/-- The prefixes of a list with one more chunk. -/
theorem prefix_append_cons {held rest : List Bytes} {chunk : Bytes}
    (hfront : front <+: held ++ chunk :: rest) : front <+: held ∨ held ++ [chunk] <+: front := by
  have hlonger : held ++ [chunk] <+: held ++ chunk :: rest :=
    ⟨rest, by rw [List.append_assoc, List.singleton_append]⟩
  rcases Nat.lt_or_ge held.length front.length with hlength | hlength
  · refine .inr (List.prefix_of_prefix_length_le hlonger hfront ?_)
    rw [List.length_append, List.length_singleton]
    exact hlength
  · exact .inl (List.prefix_of_prefix_length_le hfront (List.prefix_append _ _) hlength)

section

variable {held : List Bytes} {chunk : Bytes}

/-- Whatever comes behind a call is held back. -/
theorem HeldBack.append (hheld : HeldBack held)
    (hnames : namesCcrTool (held ++ [chunk]).flatten = true) (rest : List Bytes) :
    HeldBack (held ++ chunk :: rest) := by
  intro front hfront hne hreleases
  rcases prefix_append_cons hfront with hshort | hlong
  · exact hheld front hshort hne hreleases
  · exact namesCcrTool_flatten hlong hnames

/-- One more chunk that releases nothing. -/
theorem HeldBack.snoc (hheld : HeldBack held)
    (hnames : Releases (held ++ [chunk]).flatten → namesCcrTool (held ++ [chunk]).flatten = true) :
    HeldBack (held ++ [chunk]) := by
  intro front hfront hne hreleases
  rcases prefix_append_cons hfront with hshort | hlong
  · exact hheld front hshort hne hreleases
  · rw [hfront.eq_of_length_le hlong.length_le] at hreleases ⊢
    exact hnames hreleases

/-- One more chunk that releases all of them. -/
theorem HeldBack.segment (hheld : HeldBack held)
    (hreleases : Releases (held ++ [chunk]).flatten)
    (hnames : namesCcrTool (held ++ [chunk]).flatten = false) : Segment (held ++ [chunk]) where
  releases := hreleases
  noCall := hnames
  first front hfront hproper hne hearly := by
    rcases prefix_append_cons hfront with hshort | hlong
    · have hcall := namesCcrTool_flatten hfront (hheld front hshort hne hearly)
      rw [hnames] at hcall
      cases hcall
    · exact hproper (hfront.eq_of_length_le hlong.length_le)

end

/-- Segments and what is behind them, as parts of a stream. -/
structure Parted (chunks : List Bytes) (segments : List (List Bytes)) (behind : List Bytes) :
    Prop where
  segment : ∀ segment ∈ segments, Segment segment
  heldBack : HeldBack behind
  eq : chunks = segments.flatten ++ behind

theorem Parted.cons {chunks behind segment : List Bytes} {segments : List (List Bytes)}
    (hparted : Parted chunks segments behind) (hsegment : Segment segment) :
    Parted (segment ++ chunks) (segment :: segments) behind where
  segment := List.forall_mem_cons.mpr ⟨hsegment, hparted.segment⟩
  heldBack := hparted.heldBack
  eq := by rw [hparted.eq, List.flatten_cons, List.append_assoc]

variable {segment other : List Bytes}

/-- A segment is not held back, and no segment begins another one. -/
theorem Segment.eq_of_prefix (hsegment : Segment segment) (hother : Segment other)
    (hbegins : segment <+: other) : segment = other := by
  by_contra hne
  exact hother.first segment hbegins hne hsegment.ne_nil hsegment.releases

variable {behind : List Bytes}

theorem HeldBack.not_prefix (hheld : HeldBack behind) (hsegment : Segment segment) :
    ¬segment <+: behind := by
  intro hbegins
  have hnames := hheld segment hbegins hsegment.ne_nil hsegment.releases
  rw [hsegment.noCall] at hnames
  cases hnames

/-- There is one way to part a stream. -/
theorem Parted.unique {segments others : List (List Bytes)}
    (hparted : Parted chunks segments behind) (hother : Parted chunks others other) :
    segments = others ∧ behind = other := by
  induction segments generalizing chunks others with
  | nil =>
      cases others with
      | nil => exact ⟨rfl, hparted.eq.symm.trans hother.eq⟩
      | cons segment others =>
          have hbegins : segment <+: behind := by
            have heq : behind = (segment :: others).flatten ++ other :=
              hparted.eq.symm.trans hother.eq
            rw [heq, List.flatten_cons, List.append_assoc]
            exact List.prefix_append _ _
          exact absurd hbegins
            (hparted.heldBack.not_prefix (hother.segment segment List.mem_cons_self))
  | cons first segments ih =>
      obtain ⟨hfirst, hsegments⟩ := List.forall_mem_cons.mp hparted.segment
      have hchunks : chunks = first ++ (segments.flatten ++ behind) := by
        rw [hparted.eq, List.flatten_cons, List.append_assoc]
      cases others with
      | nil =>
          refine absurd ?_ (hother.heldBack.not_prefix hfirst)
          rw [← List.nil_append other, ← List.flatten_nil, ← hother.eq, hchunks]
          exact List.prefix_append _ _
      | cons segment others =>
          obtain ⟨hsegment, hothers⟩ := List.forall_mem_cons.mp hother.segment
          have hsame : chunks = segment ++ (others.flatten ++ other) := by
            rw [hother.eq, List.flatten_cons, List.append_assoc]
          have hequal : first = segment := by
            have hleft : first <+: chunks := ⟨_, hchunks.symm⟩
            have hright : segment <+: chunks := ⟨_, hsame.symm⟩
            rcases List.prefix_or_prefix_of_prefix hleft hright with hbegins | hbegins
            · exact hfirst.eq_of_prefix hsegment hbegins
            · exact (hsegment.eq_of_prefix hfirst hbegins).symm
          subst hequal
          have hrest := List.append_cancel_left (hchunks.symm.trans hsame)
          obtain ⟨htail, hbehind⟩ := ih ⟨hsegments, hparted.heldBack, rfl⟩
            ⟨hothers, hother.heldBack, hrest⟩
          exact ⟨congrArg (first :: ·) htail, hbehind⟩

/-! ## The loops -/

namespace StreamState

/-- A buffer of chunks that are held back. -/
def Waiting (state : StreamState) (held : List Bytes) : Prop :=
  state.buffer = ⟨held, namesCcrTool held.flatten⟩ ∧ HeldBack held

theorem waiting_start : start.Waiting [] := ⟨rfl, heldBack_nil⟩

theorem waiting_flush (state : StreamState) : state.flush.Waiting [] := ⟨rfl, heldBack_nil⟩

variable {state : StreamState} {held : List Bytes}

theorem Waiting.addChunk (hwaiting : state.Waiting held) (chunk : Bytes) :
    state.buffer.addChunk chunk =
      ⟨held ++ [chunk], namesCcrTool (held ++ [chunk]).flatten⟩ := by
  rw [hwaiting.1, StreamingCCRBuffer.addChunk]
  refine congrArg (StreamingCCRBuffer.mk (held ++ [chunk])) ?_
  cases hnames : namesCcrTool held.flatten with
  | false => rfl
  | true => exact (namesCcrTool_flatten (List.prefix_append held [chunk]) hnames).symm

/-- What the first loop leaves: the segments are let through, and the rest is in the buffer or,
behind a call, still to come. -/
structure Detected (chunks : List Bytes) (state : StreamState)
    (result : StreamState × List Bytes) : Prop where
  parted : ∃ segments behind, Parted chunks segments behind ∧
    result.1.yielded = state.yielded ++ segments.flatten.map .original ∧
    result.1.buffer.chunks ++ result.2 = behind ∧
    result.1.buffer.detectedCcr = namesCcrTool behind.flatten
  rest : result.2 ≠ [] → result.1.buffer.detectedCcr = true

/-- A segment is let through, and the loop goes on. -/
theorem Detected.flush {next : StreamState} {segment rest : List Bytes}
    {result : StreamState × List Bytes} (hdetected : Detected rest state.flush result)
    (hsegment : Segment segment) (hchunks : state.buffer.chunks = segment)
    (hyielded : state.yielded = next.yielded) : Detected (segment ++ rest) next result := by
  obtain ⟨segments, behind, hparted, hyields, hbuffer, hcall⟩ := hdetected.parted
  refine ⟨⟨segment :: segments, behind, hparted.cons hsegment, ?_, hbuffer, hcall⟩,
    hdetected.rest⟩
  rw [hyields, StreamState.flush, hchunks, hyielded, List.flatten_cons, List.map_append,
    List.append_assoc]

theorem detected_detect (chunks : List Bytes) (hwaiting : state.Waiting held) :
    Detected (held ++ chunks) state (detect chunks state) := by
  induction chunks generalizing state held with
  | nil =>
      obtain ⟨hbuffer, hheld⟩ := hwaiting
      rw [List.append_nil, detect]
      refine ⟨⟨[], held, ⟨fun segment hsegment => (by cases hsegment), hheld, rfl⟩, ?_, ?_, ?_⟩,
        fun hne => absurd rfl hne⟩
      · exact (List.append_nil _).symm
      · rw [hbuffer, List.append_nil]
      · rw [hbuffer]
  | cons chunk rest ih =>
      have hadd := hwaiting.addChunk chunk
      have happend : held ++ chunk :: rest = held ++ [chunk] ++ rest := by
        rw [List.append_assoc, List.singleton_append]
      rw [detect, hadd]
      dsimp only
      rw [StreamingCCRBuffer.getAccumulated]
      by_cases hstop : hasStopReason (held ++ [chunk]).flatten = true
      · rw [if_pos hstop]
        cases hnames : namesCcrTool (held ++ [chunk]).flatten with
        | true =>
            -- The loop breaks at a call; the rest is collected later.
            rw [if_pos rfl]
            refine ⟨⟨[], held ++ chunk :: rest,
              ⟨fun segment hsegment => (by cases hsegment), hwaiting.2.append hnames rest, rfl⟩,
              (List.append_nil _).symm, happend.symm, ?_⟩, fun _ => rfl⟩
            rw [happend]
            exact (namesCcrTool_flatten (List.prefix_append _ _) hnames).symm
        | false =>
            rw [if_neg Bool.false_ne_true, happend]
            exact (ih (waiting_flush _)).flush (hwaiting.2.segment (.inl hstop) hnames) rfl rfl
      · rw [if_neg hstop]
        by_cases hlarge : (decide (largeBuffer < (held ++ [chunk]).flatten.length) &&
            !namesCcrTool (held ++ [chunk]).flatten) = true
        · rw [if_pos hlarge, happend]
          rw [Bool.and_eq_true, decide_eq_true_iff, Bool.not_eq_true'] at hlarge
          exact (ih (waiting_flush _)).flush (hwaiting.2.segment (.inr hlarge.1) hlarge.2) rfl rfl
        · rw [if_neg hlarge, happend]
          have hheld : HeldBack (held ++ [chunk]) := by
            refine hwaiting.2.snoc fun hreleases => ?_
            by_contra hnames
            rw [Bool.not_eq_true] at hnames
            rcases hreleases with hearly | hlong
            · exact hstop hearly
            · rw [hnames, Bool.not_false, Bool.and_true, decide_eq_true_iff] at hlarge
              exact hlarge hlong
          have hnext : Waiting { state with
              buffer := ⟨held ++ [chunk], namesCcrTool (held ++ [chunk]).flatten⟩ }
              (held ++ [chunk]) := ⟨rfl, hheld⟩
          obtain ⟨hparted, hrest⟩ := ih hnext
          exact ⟨hparted, hrest⟩

theorem getAccumulated_foldl (rest : List Bytes) (buffer : StreamingCCRBuffer) :
    (rest.foldl StreamingCCRBuffer.addChunk buffer).getAccumulated =
      (buffer.chunks ++ rest).flatten := by
  induction rest generalizing buffer with
  | nil => rw [List.append_nil]; rfl
  | cons chunk rest ih =>
      rw [List.foldl_cons, ih, StreamingCCRBuffer.addChunk, List.append_assoc,
        List.singleton_append]

end StreamState

section

variable (respond : Bytes → Option (List Bytes)) {chunks behind : List Bytes}
variable {segments : List (List Bytes)}

/-- The segments are let through.  What is behind them is answered if there is a call in it, and
otherwise it is dropped. -/
theorem processStream_of_parted (hparted : Parted chunks segments behind) :
    processStream respond chunks =
      if namesCcrTool behind.flatten then
        match respond behind.flatten with
        | some encoded => ⟨segments.flatten.map .original ++ encoded.map .encoded, true⟩
        | none => ⟨segments.flatten.map .original ++ [.original behind.flatten], true⟩
      else ⟨segments.flatten.map .original, false⟩ := by
  have hdetected := StreamState.detected_detect chunks StreamState.waiting_start
  rw [List.nil_append] at hdetected
  obtain ⟨others, other, hother, hyielded, hbuffer, hcall⟩ := hdetected.parted
  obtain ⟨rfl, rfl⟩ := hparted.unique hother
  have hcontinued : (if !(StreamState.detect chunks .start).1.detectionComplete &&
        !(StreamState.detect chunks .start).1.buffer.detectedCcr then
      ((StreamState.detect chunks .start).1.continueStream (StreamState.detect chunks .start).2, [])
      else StreamState.detect chunks .start) = StreamState.detect chunks .start := by
    split_ifs with hcontinue
    · rw [Bool.and_eq_true, Bool.not_eq_true', Bool.not_eq_true'] at hcontinue
      have hnil : (StreamState.detect chunks .start).2 = [] := by
        by_contra hne
        rw [hdetected.rest hne] at hcontinue
        cases hcontinue.2
      rw [hnil, StreamState.continueStream, ← hnil]
    · rfl
  have hstart : StreamState.start.yielded = [] := rfl
  rw [hstart, List.nil_append] at hyielded
  rw [processStream]
  dsimp only
  rw [hcontinued, hcall, StreamState.getAccumulated_foldl, hbuffer, hyielded]

theorem exists_parted (chunks : List Bytes) :
    ∃ segments behind, Parted chunks segments behind := by
  have hdetected := StreamState.detected_detect chunks StreamState.waiting_start
  obtain ⟨segments, behind, hparted, -⟩ := hdetected.parted
  exact ⟨segments, behind, hparted⟩

variable (pieces : List Bytes)

theorem forall_original : ∀ piece ∈ pieces.map Yielded.original, piece.isOriginal = true := by
  intro piece hpiece
  obtain ⟨bytes, -, rfl⟩ := List.mem_map.mp hpiece
  rfl

theorem forall_encoded : ∀ piece ∈ pieces.map Yielded.encoded, piece.isOriginal = false := by
  intro piece hpiece
  obtain ⟨bytes, -, rfl⟩ := List.mem_map.mp hpiece
  rfl

theorem flatMap_original :
    (pieces.map Yielded.original).flatMap Yielded.bytes = pieces.flatten := by
  rw [List.flatMap_map, List.flatMap_def]
  exact congrArg List.flatten (List.map_id pieces)

/-- Without a call behind the segments, what is behind them must be empty. -/
theorem losesNothing_of_no_call (hparted : Parted chunks segments behind)
    (hcall : namesCcrTool behind.flatten = false) :
    LosesNothing respond chunks ↔ behind.flatten = [] := by
  rw [LosesNothing, processStream_of_parted respond hparted, hcall, if_neg Bool.false_ne_true,
    hparted.eq, flatMap_original, List.flatten_append]
  constructor
  · rintro (⟨-, hbytes⟩ | ⟨hdetected, -⟩)
    · exact List.self_eq_append_right.mp hbytes
    · cases hdetected
  · intro hempty
    refine .inl ⟨forall_original _, ?_⟩
    rw [hempty, List.append_nil]

/-- With a call, no segment may have been let through, unless the response cannot be made. -/
theorem losesNothing_of_call (hparted : Parted chunks segments behind)
    (hcall : namesCcrTool behind.flatten = true) :
    LosesNothing respond chunks ↔ segments = [] ∨ respond behind.flatten = none := by
  rw [LosesNothing, processStream_of_parted respond hparted, hcall, if_pos rfl]
  cases hrespond : respond behind.flatten with
  | none =>
      refine iff_of_true (.inl ⟨?_, ?_⟩) (.inr rfl)
      · intro piece hpiece
        rcases List.mem_append.mp hpiece with horiginal | hlast
        · exact forall_original _ piece horiginal
        · rw [List.mem_singleton.mp hlast]
          rfl
      · rw [List.flatMap_append, flatMap_original, hparted.eq, List.flatten_append]
        exact congrArg (segments.flatten.flatten ++ ·) (List.append_nil _)
  | some encoded =>
      constructor
      · rintro (⟨horiginal, hbytes⟩ | ⟨-, hencoded⟩)
        · -- Then nothing is encoded, and the bytes of the call are missing.
          have hnone : encoded = [] := by
            refine List.eq_nil_iff_forall_not_mem.mpr fun bytes hmem => ?_
            have hpiece := horiginal (.encoded bytes)
              (List.mem_append_right _ (List.mem_map_of_mem hmem))
            cases hpiece
          rw [hnone] at hbytes
          dsimp only at hbytes
          rw [List.map_nil, List.append_nil, flatMap_original, hparted.eq,
            List.flatten_append] at hbytes
          rw [List.self_eq_append_right.mp hbytes] at hcall
          exact absurd hcall (by decide)
        · refine .inl (List.eq_nil_iff_forall_not_mem.mpr fun segment hsegment => ?_)
          obtain ⟨chunk, hchunk⟩ :=
            List.exists_mem_of_ne_nil _ (hparted.segment segment hsegment).ne_nil
          have hpiece := hencoded (.original chunk) (List.mem_append_left _
            (List.mem_map_of_mem (List.mem_flatten_of_mem hsegment hchunk)))
          cases hpiece
      · rintro (rfl | hnone)
        · exact .inr ⟨rfl, forall_encoded encoded⟩
        · cases hnone

/-- Nothing is lost or mixed exactly if the stream ends with a segment or, with a call behind
the segments, there is no segment or no response. -/
theorem losesNothing_iff : LosesNothing respond chunks ↔
    ∃ segments behind, Parted chunks segments behind ∧
      if namesCcrTool behind.flatten then segments = [] ∨ respond behind.flatten = none
      else behind.flatten = [] := by
  constructor
  · intro hnothing
    obtain ⟨segments, behind, hparted⟩ := exists_parted chunks
    refine ⟨segments, behind, hparted, ?_⟩
    split_ifs with hcall
    · exact (losesNothing_of_call respond hparted hcall).mp hnothing
    · exact (losesNothing_of_no_call respond hparted (Bool.eq_false_iff.mpr hcall)).mp hnothing
  · rintro ⟨segments, behind, hparted, hcondition⟩
    split_ifs at hcondition with hcall
    · exact (losesNothing_of_call respond hparted hcall).mpr hcondition
    · exact (losesNothing_of_no_call respond hparted (Bool.eq_false_iff.mpr hcall)).mpr hcondition

end

/-- A short stream without a stop reason is lost, and so is a last event behind the stop reason; a
call behind a stop reason is answered although the client has the beginning of the stream. -/
theorem losesNothing_fails :
    ¬LosesNothing (fun _ => none) [ascii "data: hello"] ∧
      ¬LosesNothing (fun _ => none) [stopReason, ascii "data: message_stop"] ∧
      ¬LosesNothing (fun _ => some [ascii "data: final"])
        [stopReason, toolUseStart ++ ccrToolPattern ++ stopReason] := by
  unfold LosesNothing
  decide +kernel

end Legroom.Ccr
