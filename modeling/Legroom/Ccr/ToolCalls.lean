import Legroom.Lib.Python.Access

/-!
# Tool calls of a response

Every provider has its own shape for a tool call.  A call of the retrieval tool whose hash
is not well formed counts as a call of another tool.
-/

namespace Legroom.Ccr

open Python

inductive Provider where
  | anthropic
  | openai
  | google
  | openaiResponses
  | other
deriving DecidableEq

def ccrToolName : Text := text "legroom_retrieve"

/-- The list under a key, empty if there is none. -/
def listAt (key : Text) (value : Value) : List Value :=
  match value.get key with
  | some (.list items) => items
  | _ => []

def hasType (type : Text) (item : Value) : Bool :=
  (item.get (text "type")).any fun found => found.isText type

/-! ## Extraction -/

/-- The tool calls of a dictionary, as its provider writes them. -/
def nativeCalls (provider : Provider) (response : Value) : List Value :=
  match provider with
  | .anthropic => (listAt (text "content") response).filter (hasType (text "tool_use"))
  | .openai =>
      match listAt (text "choices") response with
      | [] => []
      | choice :: _ => (choice.get (text "message")).elim [] (listAt (text "tool_calls"))
  | .google =>
      match listAt (text "candidates") response with
      | [] => []
      | candidate :: _ =>
          ((candidate.get (text "content")).elim [] (listAt (text "parts"))).filter fun part =>
            (part.get (text "functionCall")).isSome
  | .openaiResponses => (listAt (text "output") response).filter (hasType (text "function_call"))
  | .other => []

def extractToolCalls (provider : Provider) (response : Value) : Option (List Value) :=
  match provider with
  | .other => some []
  | provider => if response.isDict then some (nativeCalls provider response) else none

def isRetrievalName (found : Option Value) : Bool :=
  found.any fun name => name.isText ccrToolName

/-- A call names the retrieval tool in one of the places where providers have the name. -/
def namesRetrievalTool (call : Value) : Bool :=
  isRetrievalName (call.get (text "name")) ||
    isRetrievalName ((call.get (text "function")).bind (Value.get (text "name"))) ||
    isRetrievalName ((call.get (text "functionCall")).bind (Value.get (text "name")))

def isCcrToolCall (call : Value) : Option Bool := do
  let nameOf (value : Value) := value.getOr (text "name") .none
  if (← nameOf call).isText ccrToolName then return true
  let function := (← call.getOr (text "function") .none).orElse (.dict [])
  if (← nameOf function).isText ccrToolName then return true
  let functionCall := (← call.getOr (text "functionCall") .none).orElse (.dict [])
  return (← nameOf functionCall).isText ccrToolName

/-! ## Parsing -/

section

variable (format : FloatFormat)

/-- `json.loads` of the arguments of a call.  Only errors of the document are caught. -/
def loadArguments : Value → Option Value
  | .str arguments =>
      match loadJson format arguments with
      | .ok value => some value
      | .error .decode => some (.dict [])
      | .error .tooManyDigits => none
  | _ => some (.dict [])

def nameAndInput (provider : Provider) (call : Value) : Option (Value × Value) := do
  let noArguments : Value := .str (text "\x7b\x7d")
  match provider with
  | .anthropic =>
      return (← call.getOr (text "name") .none, ← call.getOr (text "input") (.dict []))
  | .openai =>
      let function := (← call.getOr (text "function") .none).orElse (.dict [])
      return (← function.getOr (text "name") .none,
        ← loadArguments format (← function.getOr (text "arguments") noArguments))
  | .google =>
      let functionCall := (← call.getOr (text "functionCall") .none).orElse (.dict [])
      return (← functionCall.getOr (text "name") .none,
        ← functionCall.getOr (text "args") (.dict []))
  | .openaiResponses =>
      return (← call.getOr (text "name") .none,
        ← loadArguments format (← call.getOr (text "arguments") noArguments))
  | .other =>
      return (← call.getOr (text "name") .none,
        ← call.getOr (text "input") (← call.getOr (text "args") (.dict [])))

def isLowerHex (char : CodePoint) : Bool :=
  (0x30 ≤ char && char ≤ 0x39) || (0x61 ≤ char && char ≤ 0x66)

/-- The hash of a call in lower case, if it is well formed.  No character beyond ASCII is a
hexadecimal digit in lower case. -/
def validHash : Value → Option Text
  | .str hash =>
      let lower := asciiLower hash
      if (hash.length == 12 || hash.length == 24) && lower.all isLowerHex then some lower else none
  | _ => none

def parseToolCall (provider : Provider) (call : Value) : Option (Option Text) := do
  let (name, input) ← nameAndInput format provider call
  if name.isText ccrToolName then return (input.get (text "hash")).bind validHash
  else return none

structure CCRToolCall where
  toolCallId : Text
  hashKey : Text

-- `str` of a value that is not a text.
variable (repr : Value → Text)

def strOf : Value → Text
  | .str text => text
  | value => repr value

def toolCallIdForProvider (provider : Provider) (call : Value) : Option Text :=
  match provider with
  | .google => do
      let functionCall ← call.getOr (text "functionCall") (.dict [])
      if functionCall.isDict then
        return strOf repr (← functionCall.getOr (text "name") (.str ccrToolName))
      else return ccrToolName
  | .openaiResponses => do
      return strOf repr (← call.getOr (text "call_id") (← call.getOr (text "id") (.str [])))
  | _ => do return strOf repr (← call.getOr (text "id") (.str []))

/-- The retrievals among the calls, and the other calls. -/
def splitCalls (provider : Provider) : List Value → Option (List CCRToolCall × List Value)
  | [] => some ([], [])
  | call :: rest => do
      match ← parseToolCall format provider call with
      | none =>
          let (calls, others) ← splitCalls provider rest
          return (calls, call :: others)
      | some hash =>
          let id ← toolCallIdForProvider repr provider call
          let (calls, others) ← splitCalls provider rest
          return (⟨id, hash⟩ :: calls, others)

def parseCcrToolCalls (provider : Provider) (response : Value) :
    Option (List CCRToolCall × List Value) := do
  splitCalls format repr provider (← extractToolCalls provider response)

end

/-! ## What parsing says of the calls -/

section

variable {format : FloatFormat} {repr : Value → Text} {provider : Provider}
variable {call : Value} {calls : List CCRToolCall}

/-- What one call adds to the retrievals and to the other calls. -/
theorem splitCalls_cons {rest others : List Value}
    (hsplit : splitCalls format repr provider (call :: rest) = some (calls, others)) :
    ∃ behind, splitCalls format repr provider rest = some behind ∧
      (parseToolCall format provider call = some none ∧ calls = behind.1 ∧
          others = call :: behind.2 ∨
        ∃ hash id, parseToolCall format provider call = some (some hash) ∧
          toolCallIdForProvider repr provider call = some id ∧
          calls = ⟨id, hash⟩ :: behind.1 ∧ others = behind.2) := by
  rw [splitCalls, Option.bind_eq_bind, Option.bind_eq_some_iff] at hsplit
  obtain ⟨parsed, hparsed, hsplit⟩ := hsplit
  cases parsed with
  | none =>
      obtain ⟨behind, hbehind, hsplit⟩ := Option.bind_eq_some_iff.mp hsplit
      cases hsplit
      exact ⟨behind, hbehind, Or.inl ⟨hparsed, rfl, rfl⟩⟩
  | some hash =>
      obtain ⟨id, hid, hsplit⟩ := Option.bind_eq_some_iff.mp hsplit
      obtain ⟨behind, hbehind, hsplit⟩ := Option.bind_eq_some_iff.mp hsplit
      cases hsplit
      exact ⟨behind, hbehind, Or.inr ⟨hash, id, hparsed, hid, rfl, rfl⟩⟩

/-- A retrieval has an identifier and a well-formed hash. -/
def Resolvable (format : FloatFormat) (provider : Provider) (call : Value) : Prop :=
  ∃ hash, parseToolCall format provider call = some (some hash)

theorem isText_getOr {value name : Value} (hname : value.getOr (text "name") .none = some name) :
    isRetrievalName (value.get (text "name")) = name.isText ccrToolName := by
  cases value with
  | dict entries =>
      rw [Value.getOr, Option.some_inj] at hname
      rw [Value.get, ← hname]
      cases entries.lookup (text "name") with
      | none => rfl
      | some found => rfl
  | _ => cases hname

theorem isText_orElse {value : Option Value} {name : Value}
    (hname : ((value.getD .none).orElse (.dict [])).getOr (text "name") .none = some name) :
    isRetrievalName (value.bind (Value.get (text "name"))) = name.isText ccrToolName := by
  cases value with
  | none =>
      cases hname
      rfl
  | some value =>
      rw [Option.getD_some, Value.orElse] at hname
      split_ifs at hname with htruthy
      · exact isText_getOr hname
      · cases hname
        cases value with
        | dict entries =>
            cases entries with
            | nil => rfl
            | cons entry entries => exact absurd rfl htruthy
        | _ => rfl

/-- Where the test of the source returns, it looks at the three places. -/
theorem isCcrToolCall_eq {named : Bool} (hnamed : isCcrToolCall call = some named) :
    named = namesRetrievalTool call := by
  unfold isCcrToolCall at hnamed
  obtain ⟨name, hname, hnamed⟩ := Option.bind_eq_some_iff.mp hnamed
  rw [namesRetrievalTool, isText_getOr hname]
  split_ifs at hnamed with hfirst
  · rw [hfirst]
    exact (Option.some_inj.mp hnamed).symm
  · obtain ⟨function, hfunction, hnamed⟩ := Option.bind_eq_some_iff.mp hnamed
    obtain ⟨name, hname, hnamed⟩ := Option.bind_eq_some_iff.mp hnamed
    rw [← Value.getOr_eq_some hfunction] at hname
    rw [isText_orElse hname, Bool.eq_false_iff.mpr hfirst]
    split_ifs at hnamed with hsecond
    · rw [hsecond]
      exact (Option.some_inj.mp hnamed).symm
    · obtain ⟨function, hfunction, hnamed⟩ := Option.bind_eq_some_iff.mp hnamed
      obtain ⟨name, hname, hnamed⟩ := Option.bind_eq_some_iff.mp hnamed
      rw [← Value.getOr_eq_some hfunction] at hname
      rw [isText_orElse hname, Bool.eq_false_iff.mpr hsecond]
      exact (Option.some_inj.mp hnamed).symm

/-- A retrieval names the retrieval tool where its provider has the name. -/
theorem namesRetrievalTool_of_resolvable (hprovider : provider ≠ .other)
    (hresolvable : Resolvable format provider call) : namesRetrievalTool call = true := by
  obtain ⟨hash, hparsed⟩ := hresolvable
  obtain ⟨⟨name, input⟩, hread, hparsed⟩ := Option.bind_eq_some_iff.mp hparsed
  dsimp only at hparsed
  split_ifs at hparsed with hname
  · rw [namesRetrievalTool, Bool.or_eq_true, Bool.or_eq_true]
    cases provider with
    | anthropic =>
        obtain ⟨found, hfound, hread⟩ := Option.bind_eq_some_iff.mp hread
        obtain ⟨input', -, hread⟩ := Option.bind_eq_some_iff.mp hread
        cases hread
        exact Or.inl (Or.inl ((isText_getOr hfound).trans hname))
    | openai =>
        obtain ⟨function, hfunction, hread⟩ := Option.bind_eq_some_iff.mp hread
        obtain ⟨found, hfound, hread⟩ := Option.bind_eq_some_iff.mp hread
        obtain ⟨arguments, -, hread⟩ := Option.bind_eq_some_iff.mp hread
        obtain ⟨input', -, hread⟩ := Option.bind_eq_some_iff.mp hread
        cases hread
        rw [← Value.getOr_eq_some hfunction] at hfound
        exact Or.inl (Or.inr ((isText_orElse hfound).trans hname))
    | google =>
        obtain ⟨function, hfunction, hread⟩ := Option.bind_eq_some_iff.mp hread
        obtain ⟨found, hfound, hread⟩ := Option.bind_eq_some_iff.mp hread
        obtain ⟨input', -, hread⟩ := Option.bind_eq_some_iff.mp hread
        cases hread
        rw [← Value.getOr_eq_some hfunction] at hfound
        exact Or.inr ((isText_orElse hfound).trans hname)
    | openaiResponses =>
        obtain ⟨found, hfound, hread⟩ := Option.bind_eq_some_iff.mp hread
        obtain ⟨arguments, -, hread⟩ := Option.bind_eq_some_iff.mp hread
        obtain ⟨input', -, hread⟩ := Option.bind_eq_some_iff.mp hread
        cases hread
        exact Or.inl (Or.inl ((isText_getOr hfound).trans hname))
    | other => exact absurd rfl hprovider
  · cases hparsed

variable {found : List Value}

theorem resolvable_of_splitCalls
    (hsplit : splitCalls format repr provider found = some (calls, [])) :
    ∀ call ∈ found, Resolvable format provider call := by
  induction found generalizing calls with
  | nil => exact fun call hcall => absurd hcall List.not_mem_nil
  | cons call rest ih =>
      obtain ⟨⟨front, others⟩, hbehind, hcase⟩ := splitCalls_cons hsplit
      rcases hcase with ⟨-, -, hothers⟩ | ⟨hash, id, hparsed, -, -, hothers⟩
      · cases hothers
      · cases hothers
        intro other hother
        rcases List.mem_cons.mp hother with rfl | hother
        · exact ⟨hash, hparsed⟩
        · exact ih hbehind other hother

theorem ids_of_splitCalls (hsplit : splitCalls format repr provider found = some (calls, [])) :
    found.map (toolCallIdForProvider repr provider) =
      calls.map fun call => some call.toolCallId := by
  induction found generalizing calls with
  | nil =>
      cases hsplit
      rfl
  | cons call rest ih =>
      obtain ⟨⟨front, others⟩, hbehind, hcase⟩ := splitCalls_cons hsplit
      rcases hcase with ⟨-, -, hothers⟩ | ⟨hash, id, -, hid, hcalls, hothers⟩
      · cases hothers
      · cases hothers
        rw [hcalls, List.map_cons, List.map_cons, hid, ih hbehind]

theorem exists_resolvable_of_splitCalls {others : List Value}
    (hsplit : splitCalls format repr provider found = some (calls, others)) (hcalls : calls ≠ []) :
    ∃ call ∈ found, Resolvable format provider call := by
  induction found generalizing calls others with
  | nil =>
      cases hsplit
      exact absurd rfl hcalls
  | cons call rest ih =>
      obtain ⟨⟨front, behind⟩, hbehind, hcase⟩ := splitCalls_cons hsplit
      rcases hcase with ⟨-, rfl, -⟩ | ⟨hash, id, hparsed, -⟩
      · obtain ⟨other, hother, hresolvable⟩ := ih hbehind hcalls
        exact ⟨other, List.mem_cons_of_mem call hother, hresolvable⟩
      · exact ⟨call, List.mem_cons_self, hash, hparsed⟩

end

end Legroom.Ccr
