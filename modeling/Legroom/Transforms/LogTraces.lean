import Legroom.Lib.SplitOn
import Legroom.Transforms.LogCompressor

/-!
# Parts of a collapsed trace

A collapse cuts a trace into kept lines and runs of dropped ones.  A run is shown as one
marker, which counts its lines, and no head of a chained trace is in a run.
-/

namespace Legroom.Transforms

namespace Log

inductive TracePart where
  | kept (line : LogLine)
  | dropped (first : LogLine) (rest : List LogLine)

def TracePart.lines : TracePart → List LogLine
  | .kept line => [line]
  | .dropped first rest => first :: rest

def TracePart.droppedLines : TracePart → List LogLine
  | .kept _ => []
  | .dropped first rest => first :: rest

def TracePart.shown : TracePart → LogLine
  | .kept line => line
  | .dropped first rest => frameMarker first.lineNumber (rest.length + 1)

/-- The part that a run of dropped lines becomes. -/
def closeRun : List LogLine → List TracePart
  | [] => []
  | first :: rest => [.dropped first rest]

theorem lines_closeRun (run : List LogLine) : (closeRun run).flatMap TracePart.lines = run := by
  cases run with
  | nil => rfl
  | cons first rest => exact List.append_nil _

theorem droppedLines_closeRun (run : List LogLine) :
    (closeRun run).flatMap TracePart.droppedLines = run := by
  cases run with
  | nil => rfl
  | cons first rest => exact List.append_nil _

/-- A state of the collapse that has made some parts and is in a run. -/
structure Collapsing (parts : List TracePart) (run : List LogLine) (state : Collapse) : Prop where
  kept : state.kept = parts.map TracePart.shown
  droppedIndices : state.droppedIndices =
    (parts.flatMap TracePart.droppedLines ++ run).map (·.lineNumber)
  runStart : state.runStart = run.head?.map (·.lineNumber)
  runLen : state.runLen = run.length
  prevDropped : state.prevDropped = true → run ≠ []
  heads : ∀ line ∈ parts.flatMap TracePart.droppedLines ++ run,
    isChainHeadLine line.content = false

namespace Collapsing

variable {parts : List TracePart} {run : List LogLine} {state : Collapse} {line : LogLine}

theorem flushRun_eq (hstate : Collapsing parts run state) :
    state.flushRun = { state with
      kept := (parts ++ closeRun run).map TracePart.shown, runStart := none, runLen := 0 } := by
  have hstart := hstate.runStart
  have hlen := hstate.runLen
  cases run with
  | nil =>
      rw [closeRun, List.append_nil, ← hstate.kept, Collapse.flushRun, hstart]
      obtain ⟨kept, droppedIndices, framesSeen, appKept, runStart, runLen, prevDropped⟩ := state
      cases hstart
      cases hlen
      rfl
  | cons first rest =>
      rw [Collapse.flushRun, hstart, hlen, hstate.kept, List.map_append]
      rfl

protected theorem keep (hstate : Collapsing parts run state) (line : LogLine) :
    Collapsing (parts ++ closeRun run ++ [.kept line]) [] (state.keep line) := by
  have hdropped : (parts ++ closeRun run ++ [TracePart.kept line]).flatMap
      TracePart.droppedLines ++ [] = parts.flatMap TracePart.droppedLines ++ run := by
    rw [List.append_nil, List.flatMap_append, List.flatMap_append, droppedLines_closeRun]
    exact List.append_nil _
  refine ⟨?_, ?_, ?_, ?_, fun hprev => Bool.noConfusion hprev, ?_⟩
  · rw [Collapse.keep, hstate.flushRun_eq, @List.map_append _ _ _ _ [TracePart.kept line]]
    rfl
  · rw [hdropped, ← hstate.droppedIndices, Collapse.keep, hstate.flushRun_eq]
  · rw [Collapse.keep, hstate.flushRun_eq]
    rfl
  · rw [Collapse.keep, hstate.flushRun_eq]
    rfl
  · rw [hdropped]
    exact hstate.heads

/-- The run goes on, whether the line has started it or not. -/
theorem extend (hstate : Collapsing parts run state) {next : Collapse}
    (hkept : next.kept = state.kept)
    (hdropped : next.droppedIndices = state.droppedIndices ++ [line.lineNumber])
    (hstart : next.runStart = state.runStart.or (some line.lineNumber))
    (hlen : next.runLen = state.runLen + 1) (hline : isChainHeadLine line.content = false) :
    Collapsing parts (run ++ [line]) next := by
  refine ⟨hkept.trans hstate.kept, ?_, ?_, ?_, fun _ => List.append_ne_nil_of_right_ne_nil _
    (List.cons_ne_nil line []), ?_⟩
  · rw [hdropped, hstate.droppedIndices, ← List.append_assoc,
      @List.map_append _ _ _ _ [line]]
    rfl
  · rw [hstart, hstate.runStart]
    cases run <;> rfl
  · rw [hlen, hstate.runLen, List.length_append]
    rfl
  · rw [← List.append_assoc]
    exact List.forall_mem_append.mpr ⟨hstate.heads, List.forall_mem_singleton.mpr hline⟩

protected theorem drop (hstate : Collapsing parts run state)
    (hline : isChainHeadLine line.content = false) :
    Collapsing parts (run ++ [line]) (state.drop line) :=
  hstate.extend rfl rfl rfl rfl hline

protected theorem dropContinuation (hstate : Collapsing parts run state)
    (hprev : state.prevDropped = true) (hline : isChainHeadLine line.content = false) :
    Collapsing parts (run ++ [line]) (state.dropContinuation line) := by
  refine hstate.extend rfl rfl ?_ rfl hline
  obtain ⟨first, rest, rfl⟩ := List.exists_cons_of_ne_nil (hstate.prevDropped hprev)
  show state.runStart = _
  rw [hstate.runStart]
  rfl

/-- The counts of the frames are of no account for the parts. -/
theorem counted (hstate : Collapsing parts run state) (framesSeen appKept : ℕ) :
    Collapsing parts run { state with framesSeen := framesSeen, appKept := appKept } :=
  ⟨hstate.kept, hstate.droppedIndices, hstate.runStart, hstate.runLen, hstate.prevDropped,
    hstate.heads⟩

protected theorem line (hstate : Collapsing parts run state) (headFrames appFrames : ℕ)
    (line : LogLine) :
    ∃ parts' run', parts'.flatMap TracePart.lines ++ run' =
        parts.flatMap TracePart.lines ++ run ++ [line] ∧
      Collapsing parts' run' (Collapse.line headFrames appFrames state line) := by
  have hkept : (parts ++ closeRun run ++ [TracePart.kept line]).flatMap TracePart.lines ++ [] =
      parts.flatMap TracePart.lines ++ run ++ [line] := by
    rw [List.append_nil, List.flatMap_append, List.flatMap_append, lines_closeRun]
    rfl
  have hdropped : parts.flatMap TracePart.lines ++ (run ++ [line]) =
      parts.flatMap TracePart.lines ++ run ++ [line] := (List.append_assoc _ _ _).symm
  by_cases hframe : (isFrameLine line.content && !isChainHeadLine line.content) = true
  · rw [Collapse.line, if_pos hframe]
    rw [Bool.and_eq_true, Bool.not_eq_true'] at hframe
    dsimp only
    split_ifs
    · exact ⟨_, _, hkept, (hstate.counted _ _).keep line⟩
    · exact ⟨_, _, hkept, (hstate.counted _ _).keep line⟩
    · exact ⟨_, _, hdropped, (hstate.counted _ _).drop hframe.2⟩
  · rw [Collapse.line, if_neg hframe]
    split_ifs with hcontinues
    · rw [Bool.and_eq_true, Bool.and_eq_true, Bool.not_eq_true'] at hcontinues
      exact ⟨_, _, hdropped, hstate.dropContinuation hcontinues.1.1 hcontinues.2⟩
    · exact ⟨_, _, hkept, hstate.keep line⟩

protected theorem foldl (hstate : Collapsing parts run state) (headFrames appFrames : ℕ)
    (stack : List LogLine) :
    ∃ parts' run', parts'.flatMap TracePart.lines ++ run' =
        parts.flatMap TracePart.lines ++ run ++ stack ∧
      Collapsing parts' run' (stack.foldl (Collapse.line headFrames appFrames) state) := by
  induction stack generalizing parts run state with
  | nil => exact ⟨parts, run, (List.append_nil _).symm, hstate⟩
  | cons line stack ih =>
      obtain ⟨parts', run', hlines, hnext⟩ := hstate.line headFrames appFrames line
      obtain ⟨parts'', run'', hrest, hlast⟩ := ih hnext
      exact ⟨parts'', run'', by rw [hrest, hlines, List.append_assoc _ [line]]; rfl, hlast⟩

end Collapsing

/-- The parts of a trace and of what a collapse has made of it. -/
structure Parts (stack : List LogLine) (collapsed : CollapsedTrace) (parts : List TracePart) :
    Prop where
  lines : stack = parts.flatMap TracePart.lines
  kept : collapsed.kept = parts.map TracePart.shown
  droppedIndices : collapsed.droppedIndices =
    (parts.flatMap TracePart.droppedLines).map (·.lineNumber)
  heads : ∀ line ∈ parts.flatMap TracePart.droppedLines, isChainHeadLine line.content = false

/-- Every collapse has parts. -/
theorem exists_parts (stack : List LogLine) (headFrames appFrames : ℕ) :
    ∃ parts, Parts stack (collapseTraceFrames stack headFrames appFrames) parts := by
  have hinit : Collapsing [] [] ⟨[], [], 0, 0, none, 0, false⟩ :=
    ⟨rfl, rfl, rfl, rfl, fun hprev => Bool.noConfusion hprev,
      fun line hline => absurd hline List.not_mem_nil⟩
  obtain ⟨parts, run, hlines, hstate⟩ := hinit.foldl headFrames appFrames stack
  have hdropped : (parts ++ closeRun run).flatMap TracePart.droppedLines =
      parts.flatMap TracePart.droppedLines ++ run := by
    rw [List.flatMap_append, droppedLines_closeRun]
  refine ⟨parts ++ closeRun run, ?_, ?_, ?_, hdropped ▸ hstate.heads⟩
  · rw [List.flatMap_append, lines_closeRun, hlines]
    rfl
  · rw [collapseTraceFrames, hstate.flushRun_eq]
  · rw [collapseTraceFrames, hstate.flushRun_eq, hdropped, hstate.droppedIndices]

variable {stack : List LogLine} {collapsed : CollapsedTrace} {parts : List TracePart}

/-- A head of a chained trace survives the collapse. -/
theorem Parts.chainHead_mem (hparts : Parts stack collapsed parts) {line : LogLine}
    (hline : line ∈ stack) (hhead : isChainHeadLine line.content = true) :
    line ∈ collapsed.kept := by
  rw [hparts.lines] at hline
  obtain ⟨part, hpart, hline⟩ := List.mem_flatMap.mp hline
  rw [hparts.kept]
  cases part with
  | kept other =>
      rw [List.mem_singleton.mp hline]
      exact List.mem_map.mpr ⟨.kept other, hpart, rfl⟩
  | dropped first rest =>
      have hdropped := hparts.heads line (List.mem_flatMap.mpr ⟨_, hpart, hline⟩)
      exact absurd hhead (Bool.eq_false_iff.mp hdropped)

/-- A kept line is a line of the trace or the marker of a run of its lines. -/
theorem Parts.mem_kept (hparts : Parts stack collapsed parts) {line : LogLine}
    (hline : line ∈ collapsed.kept) :
    line ∈ stack ∨ ∃ first rest, line = frameMarker first.lineNumber (rest.length + 1) ∧
      first :: rest <:+: stack ∧
      ∀ dropped ∈ first :: rest, isChainHeadLine dropped.content = false := by
  rw [hparts.kept] at hline
  obtain ⟨part, hpart, rfl⟩ := List.mem_map.mp hline
  cases part with
  | kept other =>
      left
      rw [hparts.lines]
      exact List.mem_flatMap.mpr ⟨.kept other, hpart, List.mem_singleton_self other⟩
  | dropped first rest =>
      right
      refine ⟨first, rest, rfl, ?_, fun dropped hdropped =>
        hparts.heads dropped (List.mem_flatMap.mpr ⟨_, hpart, hdropped⟩)⟩
      obtain ⟨before, after, hsplit⟩ := List.append_of_mem hpart
      refine ⟨before.flatMap TracePart.lines, after.flatMap TracePart.lines, ?_⟩
      rw [hparts.lines, hsplit, List.flatMap_append, List.flatMap_cons, List.append_assoc]
      rfl

end Log

end Legroom.Transforms
