import Legroom.LiveZone.Anthropic

/-!
# What the Anthropic dispatcher changes

The new body is the text of the old one with new literals in the place of
rewritable texts of the latest user message.  White space around the document is
not part of the new body.
-/

namespace Legroom.LiveZone

open Utf8 Json

variable (backend : Backend) {State : Type*} (model : Utf8String)
  (ccrStore : Option (CcrStore State))

/-- A modified body is the text of an edit at rewritable paths of the latest user
message, at or above the floor; without such a message nothing changes.  A body
without messages is refused. -/
theorem compressAnthropicLiveZone_frame {bodyRaw : Bytes} {value : Value}
    (hvalue : valueFromSlice bodyRaw = some value) (frozenMessageCount : ℕ)
    (authMode : AuthMode) (store : State) :
    match (value.get (constant "messages")).bind Value.asArray with
    | none =>
        compressAnthropicLiveZoneWithCcr backend model ccrStore bodyRaw frozenMessageCount
          authMode store = (.error .noMessagesArray, store)
    | some messages =>
        ∃ document : Document, document.render = bodyRaw ∧
          document.value.denote = some value ∧
          (∀ newBody manifest,
            (compressAnthropicLiveZoneWithCcr backend model ccrStore bodyRaw
              frozenMessageCount authMode store).1 = .ok (.modified newBody manifest) →
            ∃ new : Edit,
              (∀ path, new path ≠ none →
                ∃ target, Latest (constant "user") messages frozenMessageCount target ∧
                  RewritableIn messages target path) ∧
              newBody = (document.value.edit new).render ∧
              valueFromSlice newBody = some (value.edit new)) ∧
          ((∀ position, ¬Latest (constant "user") messages frozenMessageCount position) →
            ∃ manifest,
              compressAnthropicLiveZoneWithCcr backend model ccrStore bodyRaw
                frozenMessageCount authMode store = (.ok (.noChange manifest), store)) := by
  cases hmessages : (value.get (constant "messages")).bind Value.asArray with
  | none => simp [compressAnthropicLiveZoneWithCcr, hvalue, hmessages]
  | some messages =>
      obtain ⟨document, rfl, hdepth, hdenote⟩ := valueFromSlice_eq_some_iff.mp hvalue
      have hget : value.get (constant "messages") = some (.array messages) := by
        obtain ⟨field, hfield, harray⟩ := Option.bind_eq_some_iff.mp hmessages
        rw [hfield, Value.eq_array_of_asArray harray]
      obtain ⟨decisions, manifest, hrun⟩ := compressAnthropic_settled backend model
        ccrStore hvalue hget frozenMessageCount authMode store
      refine ⟨document, rfl, hdenote, ?_, ?_⟩
      · intro newBody manifest hmodified
        obtain ⟨new, hallowed, _, hresult⟩ := hrun.exists_edit
        rw [hmodified] at hresult
        split_ifs at hresult with hcompressed
        · cases hresult
          exact ⟨new, hallowed, rfl, valueFromSlice_edit hdepth hdenote new⟩
        · cases hresult
      · intro hnone
        have hfind := findLatestUserMessageIndex_spec messages frozenMessageCount
        rw [compressAnthropicLiveZoneWithCcr]
        simp only [hvalue, hmessages]
        split_ifs
        · exact ⟨_, rfl⟩
        · cases htarget : findLatestUserMessageIndex messages frozenMessageCount with
          | none => exact ⟨_, rfl⟩
          | some target =>
              rw [htarget] at hfind
              exact absurd hfind (hnone target)

/-! ## Runs on fixed bodies -/

/-- A backend that takes every text for a build log and shortens it to one letter. -/
def terseBackend : Backend where
  detectContentType _ := .buildOutput
  smartCrusher text := (text, false)
  logCompressor text := (constant "x", text)
  searchCompressor text := (text, text)
  diffCompressor text := text
  computeKey _ := constant "0"
  countText _ text := text.bytes.length

/-- Just enough text for a compressor. -/
def longWord : Utf8String := ⟨List.replicate 512 0x61, by decide +kernel⟩

def userBody (content : Bytes) : Bytes :=
  ascii "\x7b\"messages\":[\x7b\"role\":\"user\",\"content\":" ++
    (content ++ ascii "\x7d]\x7d")

def userMessage (content : Value) : Value :=
  .object [(constant "role", .string (constant "user")), (constant "content", content)]

set_option maxRecDepth 10000 in
theorem compressAnthropicLiveZone_longWord :
    ∃ (document : Document) (new : Edit),
      document.render = userBody (quote longWord).bytes ∧
      (∀ path, new path ≠ none → ∃ target,
        Latest (constant "user") [userMessage (.string longWord)] 0 target ∧
          RewritableIn [userMessage (.string longWord)] target path) ∧
      userBody (ascii "\"x\"") = (document.value.edit new).render := by
  have hvalue : valueFromSlice (userBody (quote longWord).bytes) =
      some (.object [(constant "messages",
        .array [userMessage (.string longWord)])]) := by rfl
  have hmodified :
      (compressAnthropicLiveZoneWithCcr terseBackend (constant "gpt-4o")
        (none : Option (CcrStore Unit)) (userBody (quote longWord).bytes) 0 .payg ()).1 =
        .ok (.modified (userBody (ascii "\"x\"")) ⟨1, 0, some 0,
          [⟨0, none, constant "string_content",
            .compressed strategyLogCompressor 512 1 512 1⟩]⟩) := by decide +kernel
  obtain ⟨document, hrender, _, hframe, _⟩ := compressAnthropicLiveZone_frame terseBackend
    (constant "gpt-4o") (none : Option (CcrStore Unit)) hvalue 0 .payg ()
  obtain ⟨new, hallowed, hbody, _⟩ := hframe _ _ hmodified
  exact ⟨document, new, hrender, hallowed, hbody⟩

set_option maxRecDepth 10000 in
/-- Without messages there is an error; white space in front of the body is dropped;
a tool result that lists its fields is rewritten. -/
theorem missingMessages_refused :
    valueFromSlice (ascii "\x7b\x7d") = some (.object []) ∧
      compressAnthropicLiveZone terseBackend (constant "gpt-4o") (ascii "\x7b\x7d") 0
        .payg = .error .noMessagesArray ∧
      compressAnthropicLiveZone terseBackend (constant "gpt-4o")
          (ascii " " ++ userBody (quote longWord).bytes) 0 .payg =
        .ok (.modified (userBody (ascii "\"x\"")) ⟨1, 0, some 0,
          [⟨0, none, constant "string_content",
            .compressed strategyLogCompressor 512 1 512 1⟩]⟩) ∧
      compressAnthropicLiveZone terseBackend (constant "gpt-4o")
          (userBody (ascii "[[\"tool_result\"," ++
            ((quote longWord).bytes ++ ascii "]]"))) 0 .payg =
        .ok (.modified (userBody (ascii "[[\"tool_result\",\"x\"]]")) ⟨1, 0, some 0,
          [⟨0, some 0, constant "tool_result",
            .compressed strategyLogCompressor 512 1 512 1⟩]⟩) :=
  ⟨rfl, by decide +kernel, by
    rw [userBody, userBody, ascii_ofList rfl, ascii_ofList rfl, ascii_ofList rfl,
      ascii_ofList rfl]
    decide +kernel, by
    rw [userBody, userBody, ascii_ofList rfl, ascii_ofList rfl, ascii_ofList rfl,
      ascii_ofList rfl, ascii_ofList rfl]
    decide +kernel⟩

end Legroom.LiveZone
