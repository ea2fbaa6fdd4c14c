import Legroom.Transforms.LogLines

/-!
# Traces and the parse cap

The machine that marks the lines of stack traces starts over when a trace reaches the cap.
It stays in step with the machine that has no cap as long as no line at a cap opens another
flavor, and as long as a Rust backtrace, whose second line is always part of it, goes on
behind the cap.
-/

namespace Legroom.Transforms

namespace Log

open LogTemplate (Text)

/-! ## The machine without a cap -/

/-- A line opens a trace or is outside of all traces. -/
def openTrace (line : Text) : TraceState × Bool :=
  match flavorFor line with
  | some flavor => (⟨some flavor, 1⟩, true)
  | none => (⟨none, 0⟩, false)

/-- A trace goes on until its flavor ends it. -/
def uncappedStep (chars : LogChars) (state : TraceState) (line : Text) : TraceState × Bool :=
  match state.active with
  | none => openTrace line
  | some flavor =>
      if terminates chars flavor line state.traceLines then openTrace line
      else (⟨some flavor, state.traceLines + 1⟩, true)

def uncappedMarks (chars : LogChars) : TraceState → List Text → List Bool
  | _, [] => []
  | state, line :: lines =>
      (uncappedStep chars state line).2 ::
        uncappedMarks chars (uncappedStep chars state line).1 lines

/-! ## Runs that stay in step -/

/-- A line behind `count` lines of a trace which it continues: at a cap it opens no other
flavor, and the rule for the second line of a Rust backtrace decides nothing. -/
def SteadyAt (chars : LogChars) (cap : ℕ) (flavor : TraceFlavor) (count : ℕ) (line : Text)
    (rest : List Text) : Prop :=
  cap ∣ count → terminates chars flavor line count = false →
    (∀ opened ∈ flavorFor line, opened = flavor) ∧
      (flavor = .rustBacktrace →
        if cap = 1 then terminates chars flavor line 2 = true → flavorFor line = some flavor
        else ∀ next ∈ rest.head?, terminates chars flavor next 2 = false)

instance (chars : LogChars) (cap : ℕ) (flavor : TraceFlavor) (count : ℕ) (line : Text)
    (rest : List Text) : Decidable (SteadyAt chars cap flavor count line rest) :=
  inferInstanceAs (Decidable (_ → _ → _))

/-- Every line of a run without a cap is steady. -/
def Steady (chars : LogChars) (cap : ℕ) : TraceState → List Text → Prop
  | _, [] => True
  | state, line :: rest =>
      (∀ flavor ∈ state.active, SteadyAt chars cap flavor state.traceLines line rest) ∧
        Steady chars cap (uncappedStep chars state line).1 rest

instance decidableSteady (chars : LogChars) (cap : ℕ) :
    ∀ state lines, Decidable (Steady chars cap state lines)
  | _, [] => .isTrue trivial
  | state, line :: rest =>
      have := decidableSteady chars cap (uncappedStep chars state line).1 rest
      inferInstanceAs (Decidable (_ ∧ _))

section InStep

variable {F : Type*} {chars : LogChars} {config : LogCompressorConfig F} {flavor : TraceFlavor}
variable {count : ℕ}

/-- Only the second line of a Rust backtrace is special. -/
theorem terminates_eq_two (line : Text) (hcount : flavor = .rustBacktrace → count ≠ 1) :
    terminates chars flavor line count = terminates chars flavor line 2 := by
  cases flavor with
  | rustBacktrace => simp [terminates, hcount rfl]
  | pythonTraceback | js | java | rustError | goPanic | dotNet => rfl

theorem terminates_second (chars : LogChars) (line : Text) :
    terminates chars .rustBacktrace line 1 = false := by
  simp [terminates]

/-- The two machines are in one trace, whose lines the cap counts anew.  A Rust backtrace that
was counted anew just now has a line ahead that continues it. -/
inductive InStep (chars : LogChars) (cap : ℕ) (lines : List Text) :
    TraceState → TraceState → Prop where
  | closed (count count' : ℕ) : InStep chars cap lines ⟨none, count⟩ ⟨none, count'⟩
  | opened (flavor : TraceFlavor) (count : ℕ)
      (hahead : flavor = .rustBacktrace → cap ≠ 1 → cap ∣ count → count ≠ 0 →
        ∀ next ∈ lines.head?, terminates chars flavor next 2 = false) :
      InStep chars cap lines ⟨some flavor, count % cap + 1⟩ ⟨some flavor, count + 1⟩

theorem inStep_openTrace (chars : LogChars) (cap : ℕ) (line : Text) (lines : List Text) :
    InStep chars cap lines (openTrace line).1 (openTrace line).1 := by
  rw [openTrace]
  cases flavorFor line with
  | none => exact .closed 0 0
  | some flavor =>
      have hopened := @InStep.opened chars cap lines flavor 0 fun _ _ _ hzero => absurd rfl hzero
      rwa [Nat.zero_mod] at hopened

theorem traceStep_closed (count : ℕ) (line : Text) :
    (traceStep chars config ⟨none, count⟩ line).2 = (openTrace line).2 ∧
      ∀ cap lines, InStep chars cap lines (traceStep chars config ⟨none, count⟩ line).1
        (openTrace line).1 := by
  have hstep := fun cap lines => inStep_openTrace chars cap line lines
  rw [openTrace] at hstep ⊢
  rw [traceStep]
  cases hflavor : flavorFor line with
  | none => exact ⟨rfl, fun _ _ => .closed _ _⟩
  | some flavor =>
      rw [hflavor] at hstep
      exact ⟨rfl, hstep⟩

variable {line : Text}

/-- A trace that goes on below the cap is counted on. -/
theorem traceStep_continues (hbelow : count < config.stackTraceMaxLines)
    (hgoes : terminates chars flavor line count = false) :
    traceStep chars config ⟨some flavor, count⟩ line = (⟨some flavor, count + 1⟩, true) := by
  rw [traceStep]
  simp [hgoes, hbelow]

/-- A trace that ends is over, whether or not it has reached the cap. -/
theorem traceStep_ends
    (hover : config.stackTraceMaxLines ≤ count ∨ terminates chars flavor line count = true)
    (htwo : terminates chars flavor line 2 = true) :
    traceStep chars config ⟨some flavor, count⟩ line = openTrace line := by
  rw [traceStep, openTrace]
  cases hflavor : flavorFor line <;> simp [hover, htwo]

/-- At the cap, a line of the trace that opens no other flavor is counted as its first. -/
theorem traceStep_restarts (hcap : config.stackTraceMaxLines ≤ count)
    (hsame : ∀ opened ∈ flavorFor line, opened = flavor)
    (hgoes : terminates chars flavor line 2 = true → flavorFor line = some flavor) :
    traceStep chars config ⟨some flavor, count⟩ line = (⟨some flavor, 1⟩, true) := by
  rw [traceStep]
  cases hflavor : flavorFor line with
  | none =>
      have htwo : terminates chars flavor line 2 = false := by
        rw [← Bool.not_eq_true]
        intro hends
        exact absurd (hflavor.symm.trans (hgoes hends)) (Option.some_ne_none flavor).symm
      simp [hcap, htwo]
  | some opened =>
      rw [hsame opened hflavor]
      simp [hcap]

theorem uncappedStep_opened (chars : LogChars) (flavor : TraceFlavor) (count : ℕ) (line : Text) :
    uncappedStep chars ⟨some flavor, count⟩ line =
      if terminates chars flavor line count then openTrace line
      else (⟨some flavor, count + 1⟩, true) :=
  rfl

variable {rest : List Text}

/-- A line that ends the trace ends it in both machines. -/
theorem capped_ends
    (hahead : flavor = .rustBacktrace → config.stackTraceMaxLines ≠ 1 →
      config.stackTraceMaxLines ∣ count → count ≠ 0 →
        ∀ next ∈ (line :: rest).head?, terminates chars flavor next 2 = false)
    (hends : terminates chars flavor line (count + 1) = true) :
    traceStep chars config ⟨some flavor, count % config.stackTraceMaxLines + 1⟩ line =
      openTrace line := by
  have hlater : flavor = .rustBacktrace → count + 1 ≠ 1 := by
    rintro rfl hone
    rw [hone, terminates_second] at hends
    cases hends
  have htwo : terminates chars flavor line 2 = true :=
    (terminates_eq_two line hlater).symm.trans hends
  refine traceStep_ends ?_ htwo
  by_cases hone : config.stackTraceMaxLines = 1
  · exact .inl (hone.trans_le (Nat.le_add_left 1 _))
  · refine .inr ((terminates_eq_two line fun hrust hfirst => ?_).trans htwo)
    have hnot := hahead hrust hone (Nat.dvd_of_mod_eq_zero (by omega))
      (fun hzero => hlater hrust (by omega)) line rfl
    rw [htwo] at hnot
    cases hnot

/-- A line that continues the trace below the cap continues it in both machines. -/
theorem capped_continues
    (hbelow : count % config.stackTraceMaxLines + 1 < config.stackTraceMaxLines)
    (hgoes : terminates chars flavor line (count + 1) = false) :
    traceStep chars config ⟨some flavor, count % config.stackTraceMaxLines + 1⟩ line =
      (⟨some flavor, count % config.stackTraceMaxLines + 1 + 1⟩, true) := by
  refine traceStep_continues hbelow ?_
  by_cases hfirst : flavor = .rustBacktrace ∧ count % config.stackTraceMaxLines + 1 = 1
  · rw [hfirst.1, hfirst.2, terminates_second]
  · have hlater : flavor = .rustBacktrace → count + 1 ≠ 1 := by
      rintro hrust hone
      rw [Nat.succ_injective hone, Nat.zero_mod] at hfirst
      exact hfirst ⟨hrust, rfl⟩
    rw [terminates_eq_two line fun hrust hone => hfirst ⟨hrust, hone⟩,
      ← terminates_eq_two line hlater, hgoes]

/-- A steady line at the cap continues the trace in both machines. -/
theorem capped_restarts (hat : config.stackTraceMaxLines ∣ count + 1)
    (hfull : config.stackTraceMaxLines ≤ count % config.stackTraceMaxLines + 1)
    (hgoes : terminates chars flavor line (count + 1) = false)
    (hsteady : SteadyAt chars config.stackTraceMaxLines flavor (count + 1) line rest) :
    traceStep chars config ⟨some flavor, count % config.stackTraceMaxLines + 1⟩ line =
      (⟨some flavor, 1⟩, true) := by
  obtain ⟨hsame, hrust⟩ := hsteady hat hgoes
  refine traceStep_restarts hfull hsame fun htwo => ?_
  by_cases hsecond : flavor = .rustBacktrace ∧ count + 1 = 1
  · have hone : config.stackTraceMaxLines = 1 := Nat.dvd_one.mp (hsecond.2 ▸ hat)
    have hback := hrust hsecond.1
    rw [if_pos hone] at hback
    exact hback htwo
  · rw [terminates_eq_two line fun hflavor hone => hsecond ⟨hflavor, hone⟩, htwo] at hgoes
    cases hgoes

/-- A steady line is marked alike by both machines, which stay in step. -/
theorem InStep.step {state state' : TraceState} (hpos : 0 < config.stackTraceMaxLines)
    (hinStep : InStep chars config.stackTraceMaxLines (line :: rest) state state')
    (hsteady : ∀ flavor ∈ state'.active,
      SteadyAt chars config.stackTraceMaxLines flavor state'.traceLines line rest) :
    (traceStep chars config state line).2 = (uncappedStep chars state' line).2 ∧
      InStep chars config.stackTraceMaxLines rest (traceStep chars config state line).1
        (uncappedStep chars state' line).1 := by
  cases hinStep with
  | closed count count' =>
      exact ⟨(traceStep_closed count line).1, (traceStep_closed count line).2 _ rest⟩
  | opened flavor count hahead =>
      rw [uncappedStep_opened]
      cases hends : terminates chars flavor line (count + 1) with
      | true =>
          rw [capped_ends hahead hends]
          exact ⟨rfl, inStep_openTrace chars _ line rest⟩
      | false =>
          have hlt := Nat.mod_lt count hpos
          by_cases hat : config.stackTraceMaxLines ∣ count + 1
          · have hmod := Nat.mod_eq_zero_of_dvd hat
            have hfull : config.stackTraceMaxLines ≤ count % config.stackTraceMaxLines + 1 := by
              by_contra hlow
              rw [Nat.add_mod, Nat.mod_eq_of_lt (a := 1) (by omega),
                Nat.mod_eq_of_lt (not_le.mp hlow)] at hmod
              cases hmod
            have hline := hsteady flavor rfl
            rw [capped_restarts hat hfull hends hline]
            refine ⟨rfl, ?_⟩
            have hopened := @InStep.opened chars config.stackTraceMaxLines rest flavor (count + 1)
              fun hrust hone _ _ => by
                have hnext := (hline hat hends).2 hrust
                rwa [if_neg hone] at hnext
            rwa [hmod] at hopened
          · have hbelow : count % config.stackTraceMaxLines + 1 < config.stackTraceMaxLines := by
              refine lt_of_le_of_ne hlt fun hfull => hat (Nat.dvd_of_mod_eq_zero ?_)
              rw [Nat.add_mod, ← Nat.add_mod, ← Nat.mod_add_mod, hfull, Nat.mod_self]
            rw [capped_continues hbelow hends]
            refine ⟨rfl, ?_⟩
            have hopened := @InStep.opened chars config.stackTraceMaxLines rest flavor (count + 1)
              fun _ _ hdvd _ => absurd hdvd hat
            rwa [← Nat.mod_add_mod, Nat.mod_eq_of_lt hbelow] at hopened

/-- A steady run is marked alike by both machines. -/
theorem marks_parseFrom (hpos : 0 < config.stackTraceMaxLines) (lines : List Text) (number : ℕ)
    {state state' : TraceState}
    (hinStep : InStep chars config.stackTraceMaxLines lines state state')
    (hsteady : Steady chars config.stackTraceMaxLines state' lines) :
    (parseFrom chars config state number lines).map LogLine.isStackTrace =
      uncappedMarks chars state' lines := by
  induction lines generalizing number state state' with
  | nil => rfl
  | cons line rest ih =>
      obtain ⟨hmark, hnext⟩ := hinStep.step hpos hsteady.1
      rw [parseFrom, uncappedMarks, List.map_cons, ih (number + 1) hnext hsteady.2]
      exact congrArg (· :: _) hmark

end InStep

/-- Lines that are steady in the run without a cap are marked as in that run. -/
theorem parseLines_uncapped {F : Type*} (chars : LogChars) (config : LogCompressorConfig F)
    (hpos : 1 ≤ config.stackTraceMaxLines) (lines : List Text)
    (hsteady : Steady chars config.stackTraceMaxLines ⟨none, 0⟩ lines) :
    (parseLines chars config lines).map LogLine.isStackTrace =
      uncappedMarks chars ⟨none, 0⟩ lines :=
  marks_parseFrom hpos lines 0 (.closed 0 0) hsteady

/-- The defaults with another cap. -/
def cappedAt (cap : ℕ) : LogCompressorConfig ℚ :=
  { LogCompressorConfig.default with stackTraceMaxLines := cap }

theorem parseLines_uncapped_arrows :
    (parseLines asciiChars (cappedAt 1) ["--> :1:2".toList, "--> x".toList, "y".toList]).map
        LogLine.isStackTrace =
      uncappedMarks asciiChars ⟨none, 0⟩ ["--> :1:2".toList, "--> x".toList, "y".toList] :=
  parseLines_uncapped asciiChars (cappedAt 1) le_rfl _ (by decide +kernel)

/-- A Rust backtrace counted anew goes on for one line too many, and a JavaScript trace becomes a
Java trace. -/
theorem marks_capped :
    (parseLines asciiChars (cappedAt 2) ["stack backtrace:".toList, "b".toList, " c".toList,
        "d".toList]).map LogLine.isStackTrace ≠
      uncappedMarks asciiChars ⟨none, 0⟩ ["stack backtrace:".toList, "b".toList, " c".toList,
        "d".toList] ∧
    (parseLines asciiChars (cappedAt 1) ["at (:1:2)".toList, "at a(".toList,
        "Caused by:".toList]).map LogLine.isStackTrace ≠
      uncappedMarks asciiChars ⟨none, 0⟩ ["at (:1:2)".toList, "at a(".toList,
        "Caused by:".toList] := by
  constructor <;> decide +kernel

end Log

end Legroom.Transforms
