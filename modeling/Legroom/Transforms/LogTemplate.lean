import Mathlib.Algebra.Order.Ring.Nat
import Mathlib.Data.List.Forall2
import Mathlib.Tactic.Common

/-!
# Log templates

Consecutive lines of one shape are collapsed into a header with their template and a row
with the other tokens of each line.  All other lines are passed on, and a text that would
not get shorter is returned as it is.
-/

namespace Legroom.Transforms

namespace LogTemplate

/-- A `str` as its `char`s. -/
abbrev Text := List Char

/-- `str::len` -/
def byteLen (text : Text) : ℕ := (text.map Char.utf8Size).sum

/-- `char::is_whitespace` -/
def isWhitespace (char : Char) : Bool :=
  let code := char.toNat
  (9 ≤ code && code ≤ 13) || code = 0x20 || code = 0x85 || code = 0xA0 ||
    code = 0x1680 || (0x2000 ≤ code && code ≤ 0x200A) || code = 0x2028 ||
    code = 0x2029 || code = 0x202F || code = 0x205F || code = 0x3000

/-- `write!(out, "{}", value)` -/
def decimal (value : ℕ) : Text := Nat.toDigits 10 value

/-! ## Configuration and results -/

structure LogTemplateConfig where
  minLines : ℕ
  minRun : ℕ
  /-- `matches as f32 / len >= similarity_threshold` -/
  similar : ℕ → ℕ → Bool
  minConstantTokens : ℕ

def name : String := "log_template"

inductive TransformError where
  | skipped (transform message : String)
  | internal (transform message : String)
deriving DecidableEq

structure ReformatOutput where
  output : Text
  bytesSaved : ℕ
deriving DecidableEq

def ReformatOutput.fromLengths (inputLen : ℕ) (output : Text) : ReformatOutput :=
  ⟨output, inputLen - byteLen output⟩

/-! ## Lines and tokens -/

/-- `str::lines`.  A carriage return belongs to the line unless a line feed follows. -/
def lines : Text → List Text
  | [] => []
  | char :: rest =>
      if char = '\n' then [] :: lines rest
      else if char = '\r' ∧ rest.head? = some '\n' then lines rest
      else
        match lines rest with
        | [] => [[char]]
        | line :: lines => (char :: line) :: lines

/-- `str::split_whitespace` -/
def tokenize (line : Text) : List Text :=
  (line.splitOnP isWhitespace).filter fun token => !token.isEmpty

/-! ## Runs -/

/-- A slot without a token varies. -/
abbrev Template := List (Option Text)

/-- A candidate for a template: its lines, which the source keeps as indices, and the tokens
that all of them share. -/
structure Run where
  lines : List Text
  template : Template

namespace Run

def start (line : Text) (tokens : List Text) : Run := ⟨[line], tokens.map some⟩

end Run

def matchesSlot : Option Text → Text → Bool
  | some constant, token => constant = token
  | none, _ => true

def extendsRun (config : LogTemplateConfig) (run : Run) (tokens : List Text) : Bool :=
  if tokens.length = run.template.length then
    config.similar ((List.zipWith matchesSlot run.template tokens).count true) tokens.length
  else false

def mergeIntoTemplate (template : Template) (tokens : List Text) : Template :=
  List.zipWith (fun slot token => slot.filter (· = token)) template tokens

/-! ## Output -/

def spaced (tokens : List Text) : Text := [' '].intercalate tokens

def wildcard : Text := "<*>".toList

def slotText (slot : Option Text) : Text := slot.getD wildcard

def headerStart : Text := "[Template T".toList

def headerColon : Text := ": ".toList

def headerCount : Text := "] (".toList

def headerEnd : Text := " occurrences)".toList

def header (templateId : ℕ) (template : Template) (occurrences : ℕ) : Text :=
  headerStart ++ decimal templateId ++ headerColon ++ spaced (template.map slotText) ++
    headerCount ++ decimal occurrences ++ headerEnd

/-- The tokens of a line in the slots that vary. -/
def variants (template : Template) (tokens : List Text) : List Text :=
  ((template.zip tokens).filter fun slot => slot.1.isNone).map Prod.snd

def variantRow (template : Template) (line : Text) : Text :=
  spaced (variants template (tokenize line))

def collapses (config : LogTemplateConfig) (run : Run) : Bool :=
  let constantCount := run.template.countP Option.isSome
  let varyingCount := run.template.length - constantCount
  config.minRun ≤ run.lines.length && config.minConstantTokens ≤ constantCount &&
    0 < varyingCount

/-- The loop's variables.  Every line of the output is followed by a line feed. -/
structure State where
  output : List Text
  nextTemplateId : ℕ
  run : Option Run

def flushRun (config : LogTemplateConfig) (run : Run) (state : State) : State :=
  if collapses config run then
    { state with
      output := state.output ++
        (header state.nextTemplateId run.template run.lines.length ::
          run.lines.map (variantRow run.template))
      nextTemplateId := state.nextTemplateId + 1 }
  else { state with output := state.output ++ run.lines }

/-- `run.take()` and, if there was a run, `flush_run`. -/
def takeRun (config : LogTemplateConfig) (state : State) : State :=
  match state.run with
  | none => state
  | some run => flushRun config run { state with run := none }

def step (config : LogTemplateConfig) (state : State) (line : Text) : State :=
  let tokens := tokenize line
  if tokens.isEmpty then
    let flushed := takeRun config state
    { flushed with output := flushed.output ++ [line] }
  else
    match state.run with
    | some run =>
        if extendsRun config run tokens then
          { state with run := some ⟨run.lines ++ [line], mergeIntoTemplate run.template tokens⟩ }
        else { takeRun config state with run := some (.start line tokens) }
    | none => { takeRun config state with run := some (.start line tokens) }

def mined (config : LogTemplateConfig) (lines : List Text) : List Text :=
  (takeRun config (lines.foldl (step config) ⟨[], 1, none⟩)).output

def linesText (lines : List Text) : Text := lines.flatMap (· ++ ['\n'])

/-- The output, which ends in a line feed if the content does. -/
def rewritten (config : LogTemplateConfig) (content : Text) : Text :=
  let output := linesText (mined config (lines content))
  if content.getLast? = some '\n' then output
  else if output.getLast? = some '\n' then output.dropLast
  else output

def apply (config : LogTemplateConfig) (content : Text) :
    Except TransformError ReformatOutput :=
  if content.isEmpty then .error (.skipped name "empty input")
  else if (lines content).length < config.minLines then
    .error (.skipped name "input below min_lines")
  else if byteLen content ≤ byteLen (rewritten config content) then
    .ok (.fromLengths (byteLen content) content)
  else .ok (.fromLengths (byteLen content) (rewritten config content))

variable {config : LogTemplateConfig}

/-- Never inflate. -/
theorem byteLen_output_le {content : Text} {result : ReformatOutput}
    (hresult : apply config content = .ok result) : byteLen result.output ≤ byteLen content := by
  rw [apply] at hresult
  split_ifs at hresult with hempty hshort hlonger
  · cases hresult
    exact Nat.le_refl _
  · cases hresult
    exact Nat.le_of_lt (Nat.lt_of_not_le hlonger)

/-! ## Items -/

/-- What becomes of consecutive lines. -/
inductive Item where
  | line (text : Text)
  | block (template : Template) (lines : List Text)

namespace Item

def lines : Item → List Text
  | line text => [text]
  | block _ lines => lines

/-- The rows for items, whose templates are numbered on. -/
def rows : ℕ → List Item → List Text
  | _, [] => []
  | templateId, line text :: items => text :: rows templateId items
  | templateId, block template lines :: items =>
      header templateId template lines.length ::
        (lines.map (variantRow template) ++ rows (templateId + 1) items)

/-- The rows of lines that are passed on. -/
theorem rows_lines (templateId : ℕ) (texts : List Text) (items : List Item) :
    rows templateId (texts.map line ++ items) = texts ++ rows templateId items := by
  induction texts with
  | nil => rfl
  | cons text texts ih => exact congrArg (text :: ·) ih

end Item

/-- The items of a run. -/
def runItems (config : LogTemplateConfig) (run : Run) : List Item :=
  if collapses config run then [.block run.template run.lines] else run.lines.map .line

/-- The items of the lines behind a run. -/
def itemsFrom (config : LogTemplateConfig) : Option Run → List Text → List Item
  | run, [] => run.toList.flatMap (runItems config)
  | run, line :: lines =>
      let tokens := tokenize line
      if tokens.isEmpty then
        run.toList.flatMap (runItems config) ++ .line line :: itemsFrom config none lines
      else
        match run with
        | some run =>
            if extendsRun config run tokens then
              itemsFrom config
                (some ⟨run.lines ++ [line], mergeIntoTemplate run.template tokens⟩) lines
            else runItems config run ++ itemsFrom config (some (.start line tokens)) lines
        | none => itemsFrom config (some (.start line tokens)) lines

/-- Flushing a run writes the rows of its items. -/
theorem rows_flushRun (config : LogTemplateConfig) (run : Run) (state : State)
    (items : List Item) :
    state.output ++ Item.rows state.nextTemplateId (runItems config run ++ items) =
      (flushRun config run state).output ++
        Item.rows (flushRun config run state).nextTemplateId items := by
  rw [runItems, flushRun]
  split_ifs
  · rw [List.append_assoc]
    rfl
  · rw [Item.rows_lines, List.append_assoc]

theorem flushRun_run (config : LogTemplateConfig) (run : Run) (state : State) :
    (flushRun config run state).run = state.run := by
  rw [flushRun]
  split_ifs
  · rfl
  · rfl

theorem rows_takeRun (config : LogTemplateConfig) (state : State) (items : List Item) :
    state.output ++
        Item.rows state.nextTemplateId (state.run.toList.flatMap (runItems config) ++ items) =
      (takeRun config state).output ++
        Item.rows (takeRun config state).nextTemplateId items := by
  obtain ⟨output, templateId, run⟩ := state
  cases run with
  | none => rfl
  | some run =>
      rw [Option.toList_some, List.flatMap_singleton]
      exact rows_flushRun config run ⟨output, templateId, none⟩ items

theorem takeRun_run (config : LogTemplateConfig) (state : State) :
    (takeRun config state).run = none := by
  obtain ⟨output, templateId, run⟩ := state
  cases run with
  | none => rfl
  | some run => exact flushRun_run config run ⟨output, templateId, none⟩

/-- The loop writes the rows of the items. -/
theorem output_foldl (config : LogTemplateConfig) (lines : List Text) (state : State) :
    (takeRun config (lines.foldl (step config) state)).output =
      state.output ++ Item.rows state.nextTemplateId (itemsFrom config state.run lines) := by
  induction lines generalizing state with
  | nil =>
      have hrows := rows_takeRun config state []
      rw [List.append_nil] at hrows
      rw [itemsFrom, hrows]
      exact (List.append_nil _).symm
  | cons line lines ih =>
      have hrows := rows_takeRun config state
      rw [List.foldl_cons, ih]
      by_cases htokens : (tokenize line).isEmpty = true
      · rw [step, if_pos htokens, itemsFrom.eq_def config state.run]
        dsimp only
        rw [if_pos htokens, hrows, takeRun_run, List.append_assoc]
        rfl
      rw [step, if_neg htokens, itemsFrom.eq_def config state.run]
      dsimp only
      rw [if_neg htokens]
      have hstart := hrows (itemsFrom config (some (.start line (tokenize line))) lines)
      cases hrun : state.run with
      | none =>
          rw [hrun] at hstart
          exact hstart.symm
      | some run =>
          dsimp only
          rw [hrun, Option.toList_some, List.flatMap_singleton] at hstart
          split_ifs with hextends
          · rfl
          · exact hstart.symm

def items (config : LogTemplateConfig) (lines : List Text) : List Item :=
  itemsFrom config none lines

theorem mined_eq (config : LogTemplateConfig) (lines : List Text) :
    mined config lines = Item.rows 1 (items config lines) :=
  output_foldl config lines ⟨[], 1, none⟩

/-! ## Templates fit their lines -/

/-- A slot with a token has it in every line. -/
def Fits (template : Template) (tokens : List Text) : Prop :=
  List.Forall₂ (fun slot token => ∀ constant ∈ slot, constant = token) template tokens

theorem fits_map_some (tokens : List Text) : Fits (tokens.map some) tokens := by
  rw [Fits, List.forall₂_map_left_iff, List.forall₂_same]
  exact fun token _ constant hconstant => (Option.some.inj hconstant).symm

variable {template : Template}

theorem fits_merge {tokens : List Text} (hlength : tokens.length = template.length) :
    Fits (mergeIntoTemplate template tokens) tokens := by
  induction template generalizing tokens with
  | nil =>
      rw [List.length_eq_zero_iff.mp hlength]
      exact List.Forall₂.nil
  | cons slot template ih =>
      obtain ⟨token, tokens, rfl⟩ := List.exists_cons_of_length_eq_add_one hlength
      refine List.Forall₂.cons ?_ (ih (Nat.succ.inj hlength))
      intro constant hconstant
      exact of_decide_eq_true (Option.filter_eq_some_iff.mp hconstant).2

/-- A template keeps fitting the lines of the run. -/
theorem fits_merge_old {tokens old : List Text} (hlength : tokens.length = template.length)
    (hold : Fits template old) : Fits (mergeIntoTemplate template tokens) old := by
  induction hold generalizing tokens with
  | nil =>
      rw [List.length_eq_zero_iff.mp hlength]
      exact List.Forall₂.nil
  | cons hslot hold ih =>
      obtain ⟨token, tokens, rfl⟩ := List.exists_cons_of_length_eq_add_one hlength
      refine List.Forall₂.cons ?_ (ih (Nat.succ.inj hlength))
      intro constant hconstant
      exact hslot constant (Option.filter_eq_some_iff.mp hconstant).1

structure Run.WellFormed (run : Run) : Prop where
  ne_nil : run.lines ≠ []
  fits : ∀ line ∈ run.lines, Fits run.template (tokenize line)

theorem Run.wellFormed_start (line : Text) : (Run.start line (tokenize line)).WellFormed := by
  refine ⟨List.cons_ne_nil line [], ?_⟩
  intro other hother
  rw [List.mem_singleton.mp hother]
  exact fits_map_some (tokenize line)

variable {run : Run} {line : Text}

theorem Run.WellFormed.merge (hrun : run.WellFormed)
    (hextends : extendsRun config run (tokenize line) = true) :
    Run.WellFormed ⟨run.lines ++ [line], mergeIntoTemplate run.template (tokenize line)⟩ := by
  have hlength : (tokenize line).length = run.template.length := by
    by_contra hlength
    rw [extendsRun, if_neg hlength] at hextends
    exact Bool.false_ne_true hextends
  refine ⟨List.append_ne_nil_of_left_ne_nil hrun.ne_nil [line], ?_⟩
  intro other hother
  rcases List.mem_append.mp hother with hold | hnew
  · exact fits_merge_old hlength (hrun.fits other hold)
  · rw [List.mem_singleton.mp hnew]
    exact fits_merge hlength

/-- What a block can be taken to be: its template fits its lines and varies somewhere. -/
def Item.WellFormed : Item → Prop
  | .line _ => True
  | .block template lines =>
      lines ≠ [] ∧ none ∈ template ∧ ∀ line ∈ lines, Fits template (tokenize line)

theorem none_mem_of_collapses (hcollapses : collapses config run = true) : none ∈ run.template := by
  rw [collapses, Bool.and_eq_true, decide_eq_true_eq] at hcollapses
  by_contra hnone
  have hall : run.template.countP Option.isSome = run.template.length := by
    rw [List.countP_eq_length]
    intro slot hslot
    rw [Option.isSome_iff_ne_none]
    exact fun heq => hnone (heq ▸ hslot)
  rw [hall, Nat.sub_self] at hcollapses
  exact absurd hcollapses.2 (Nat.lt_irrefl 0)

theorem wellFormed_runItems (hrun : run.WellFormed) :
    ∀ item ∈ runItems config run, item.WellFormed := by
  rw [runItems]
  split_ifs with hcollapses
  · exact List.forall_mem_singleton.mpr
      ⟨hrun.ne_nil, none_mem_of_collapses hcollapses, hrun.fits⟩
  · rw [List.forall_mem_map]
    exact fun line _ => trivial

theorem lines_runItems (config : LogTemplateConfig) (run : Run) :
    (runItems config run).flatMap Item.lines = run.lines := by
  rw [runItems]
  split_ifs
  · exact List.append_nil run.lines
  · rw [List.flatMap_map]
    exact List.flatMap_singleton' run.lines

theorem itemsFrom_blank (htokens : (tokenize line).isEmpty = true) (run : Option Run)
    (lines : List Text) :
    itemsFrom config run (line :: lines) =
      run.toList.flatMap (runItems config) ++ .line line :: itemsFrom config none lines := by
  rw [itemsFrom.eq_def]
  dsimp only
  rw [if_pos htokens]

theorem itemsFrom_start (htokens : ¬(tokenize line).isEmpty = true) (lines : List Text) :
    itemsFrom config none (line :: lines) =
      itemsFrom config (some (.start line (tokenize line))) lines := by
  rw [itemsFrom.eq_def]
  dsimp only
  rw [if_neg htokens]

theorem itemsFrom_extend (htokens : ¬(tokenize line).isEmpty = true) (lines : List Text) :
    itemsFrom config (some run) (line :: lines) =
      if extendsRun config run (tokenize line) then
        itemsFrom config
          (some ⟨run.lines ++ [line], mergeIntoTemplate run.template (tokenize line)⟩) lines
      else runItems config run ++ itemsFrom config (some (.start line (tokenize line))) lines := by
  rw [itemsFrom.eq_def]
  dsimp only
  rw [if_neg htokens]

theorem wellFormed_itemsFrom {run : Option Run} (hrun : ∀ found ∈ run, found.WellFormed)
    (lines : List Text) : ∀ item ∈ itemsFrom config run lines, item.WellFormed := by
  have htaken {run : Option Run} (hrun : ∀ found ∈ run, found.WellFormed) :
      ∀ item ∈ run.toList.flatMap (runItems config), item.WellFormed := by
    cases run with
    | none => exact fun item hitem => absurd hitem List.not_mem_nil
    | some run =>
        rw [Option.toList_some, List.flatMap_singleton]
        exact wellFormed_runItems (hrun run rfl)
  have hstart (line : Text) :
      ∀ found ∈ some (Run.start line (tokenize line)), found.WellFormed := by
    rintro found ⟨⟩
    exact Run.wellFormed_start line
  induction lines generalizing run with
  | nil => exact htaken hrun
  | cons line lines ih =>
      by_cases htokens : (tokenize line).isEmpty = true
      · rw [itemsFrom_blank htokens, List.forall_mem_append, List.forall_mem_cons]
        exact ⟨htaken hrun, trivial,
          ih fun found hfound => absurd hfound (Option.not_mem_none found)⟩
      cases run with
      | none =>
          rw [itemsFrom_start htokens]
          exact ih (hstart line)
      | some run =>
          rw [itemsFrom_extend htokens]
          split_ifs with hextends
          · apply ih
            rintro found ⟨⟩
            exact (hrun run rfl).merge hextends
          · rw [List.forall_mem_append]
            exact ⟨wellFormed_runItems (hrun run rfl), ih (hstart line)⟩

/-- The items hold the lines in their order. -/
theorem lines_itemsFrom (config : LogTemplateConfig) (run : Option Run) (lines : List Text) :
    (itemsFrom config run lines).flatMap Item.lines = run.toList.flatMap Run.lines ++ lines := by
  have htaken (run : Option Run) :
      (run.toList.flatMap (runItems config)).flatMap Item.lines = run.toList.flatMap Run.lines := by
    cases run with
    | none => rfl
    | some run =>
        rw [Option.toList_some, List.flatMap_singleton, List.flatMap_singleton, lines_runItems]
  induction lines generalizing run with
  | nil => rw [itemsFrom, htaken, List.append_nil]
  | cons line lines ih =>
      by_cases htokens : (tokenize line).isEmpty = true
      · rw [itemsFrom_blank htokens, List.flatMap_append, htaken, List.flatMap_cons, ih]
        rfl
      cases run with
      | none =>
          rw [itemsFrom_start htokens, ih]
          rfl
      | some run =>
          rw [itemsFrom_extend htokens]
          split_ifs
          · rw [ih, Option.toList_some, List.flatMap_singleton, Option.toList_some,
              List.flatMap_singleton, List.append_assoc]
            rfl
          · rw [List.flatMap_append, lines_runItems, ih, Option.toList_some,
              List.flatMap_singleton, Option.toList_some, List.flatMap_singleton]
            rfl

theorem wellFormed_items (config : LogTemplateConfig) (lines : List Text) :
    ∀ item ∈ items config lines, item.WellFormed :=
  wellFormed_itemsFrom (fun found hfound => absurd hfound (Option.not_mem_none found)) lines

theorem lines_items (config : LogTemplateConfig) (lines : List Text) :
    (items config lines).flatMap Item.lines = lines :=
  lines_itemsFrom config none lines

end LogTemplate

end Legroom.Transforms
