import Legroom.Transforms.ReadMaturation

/-!
# Replay of matured Reads

What has matured stays matured, with its marker.  A request applies the marker to every
result of the Read behind the frozen prefix; a result inside of it passes as it is.
-/

namespace Legroom.Transforms

open Python

namespace ReadMaturation

/-! ## Results of tools -/

/-- The call and the content of a tool result block. -/
def blockResult (block : Value) : Option (Text × Text) :=
  if (block.get (text "type")).any fun type => type.isText (text "tool_result") then
    match block.get (text "tool_use_id"), block.get (text "content") with
    | some (.str id), some (.str content) => some (id, content)
    | _, _ => none
  else none

/-- The tool results of a message whose contents are texts. -/
def toolResults (message : Value) : List (Text × Text) :=
  match message.getOr (text "role") (.str []), message.getOr (text "content") (.str []) with
  | some role, some content =>
      if role.isText (text "tool") then
        match message.getOr (text "tool_call_id") (.str []), content with
        | some (.str id), .str content => [(id, content)]
        | _, _ => []
      else
        match content with
        | .list blocks => blocks.filterMap blockResult
        | _ => []
  | _, _ => []

/-- What has matured stays matured. -/
def Extends (before after : Dict Text MaturedRead) : Prop :=
  ∀ id matured, before.get? id = some matured → after.get? id = some matured

theorem Extends.refl (matured : Dict Text MaturedRead) : Extends matured matured :=
  fun _ _ hmatured => hmatured

theorem Extends.trans {first second third : Dict Text MaturedRead} (hfirst : Extends first second)
    (hsecond : Extends second third) : Extends first third :=
  fun id matured hmatured => hsecond id matured (hfirst id matured hmatured)

def Activity.IsRead (activity : Activity) (id : Text) : Prop :=
  (activity.readCalls.get? id).isSome = true

/-- What a request does to a tool result, given what has matured before and behind it. -/
structure ResultStep (activity : Activity) (before after : Dict Text MaturedRead)
    (result shown : Text × Text) : Prop where
  id : shown.1 = result.1
  marker : shown.2 ≠ result.2 → activity.IsRead result.1 ∧
    ∃ matured, after.get? result.1 = some matured ∧ shown.2 = matured.marker
  replay : activity.IsRead result.1 → ∀ matured, before.get? result.1 = some matured →
    shown.2 = matured.marker

section

variable {activity : Activity} {before middle after : Dict Text MaturedRead}
variable {result : Text × Text}

/-- A result of no Read is left alone. -/
theorem ResultStep.same (hread : ¬activity.IsRead result.1) :
    ResultStep activity before after result result where
  id := rfl
  marker hne := absurd rfl hne
  replay hisRead := absurd hisRead hread

theorem ResultStep.mono {shown : Text × Text}
    (hstep : ResultStep activity before middle result shown) {first last : Dict Text MaturedRead}
    (hfirst : Extends first before) (hlast : Extends middle last) :
    ResultStep activity first last result shown where
  id := hstep.id
  marker hne := by
    obtain ⟨hread, matured, hmatured, hshown⟩ := hstep.marker hne
    exact ⟨hread, matured, hlast _ _ hmatured, hshown⟩
  replay hread matured hmatured := hstep.replay hread matured (hfirst _ _ hmatured)

end

/-! ## One pass -/

section

variable (config : ReadMaturationConfig) (ccrHash : Text → Text → Text) (activity : Activity)

theorem extends_handleRead (state : PassState) (id content : Text) (call : Text × ℕ) :
    Extends state.matured (handleRead config ccrHash activity state id content call).1.matured := by
  rw [handleRead]
  cases hmatured : state.matured.get? id with
  | some matured =>
      dsimp only
      split_ifs
      · exact .refl _
      · exact .refl _
  | none =>
      dsimp only
      split_ifs
      · exact .refl _
      · exact .refl _
      · exact .refl _
      · intro other matured hother
        have hne : other ≠ id := by
          rintro rfl
          rw [hmatured] at hother
          cases hother
        exact (Dict.get?_set state.matured id other _).trans ((if_neg hne).trans hother)

theorem handleRead_spec (state : PassState) {id : Text} (content : Text) (call : Text × ℕ)
    (hread : activity.IsRead id) :
    ResultStep activity state.matured
      (handleRead config ccrHash activity state id content call).1.matured (id, content)
      (id, (handleRead config ccrHash activity state id content call).2.1.getD content) := by
  rw [handleRead]
  cases hmatured : state.matured.get? id with
  | some matured =>
      dsimp only
      split_ifs with hcontent
      · refine ⟨rfl, fun hne => absurd rfl hne, fun _ other hother => ?_⟩
        rw [hmatured, Option.some.injEq] at hother
        exact hcontent.trans (congrArg MaturedRead.marker hother)
      · refine ⟨rfl, fun _ => ⟨hread, matured, hmatured, rfl⟩, fun _ other hother => ?_⟩
        rw [hmatured, Option.some.injEq] at hother
        exact congrArg MaturedRead.marker hother
  | none =>
      have hreplay : ∀ (shown : Text) (matured : MaturedRead),
          state.matured.get? id = some matured → shown = matured.marker := by
        intro shown matured hsome
        rw [hmatured] at hsome
        cases hsome
      dsimp only
      split_ifs
      · exact ⟨rfl, fun hne => absurd rfl hne, fun _ => hreplay content⟩
      · exact ⟨rfl, fun hne => absurd rfl hne, fun _ => hreplay content⟩
      · exact ⟨rfl, fun hne => absurd rfl hne, fun _ => hreplay content⟩
      · have hset := Dict.get?_set state.matured id
        exact ⟨rfl, fun _ => ⟨hread, _, (hset id _).trans (if_pos rfl), rfl⟩, fun _ => hreplay _⟩

theorem readOf_text (id content : Text) : readOf activity (.str id) (.str content) =
    some ((activity.readCalls.get? id).map fun call => (id, content, call)) := by
  rw [readOf, Value.isIn]
  cases hcall : activity.readCalls.get? id with
  | none => rfl
  | some call => simp

/-- A Read that is found has the id and the content of the result. -/
theorem eq_of_readOf {id content : Value} {idText contentText : Text} {call : Text × ℕ}
    (hfound : readOf activity id content = some (some (idText, contentText, call))) :
    id = .str idText ∧ content = .str contentText ∧ activity.IsRead idText := by
  cases id with
  | str idValue =>
      cases content with
      | str contentValue =>
          rw [readOf_text, Option.some.injEq, Option.map_eq_some_iff] at hfound
          obtain ⟨found, hcall, heq⟩ := hfound
          cases heq
          exact ⟨rfl, rfl, Option.isSome_iff_exists.mpr ⟨call, hcall⟩⟩
      | _ => simp [readOf, Value.isIn] at hfound
  | _ => simp [readOf, Value.isIn] at hfound

theorem not_isRead_of_readOf {id content : Text}
    (hnone : readOf activity (.str id) (.str content) = some none) : ¬activity.IsRead id := by
  rw [readOf_text, Option.some.injEq, Option.map_eq_none_iff] at hnone
  rw [Activity.IsRead, hnone]
  exact Bool.false_ne_true

variable {state next : PassState} {shown : Value} {holding : Bool}

/-- The result of a block behind a pass. -/
theorem processBlock_spec {block : Value}
    (hblock : processBlock config ccrHash activity state block = some (next, shown, holding)) :
    Extends state.matured next.matured ∧
      Option.Rel (ResultStep activity state.matured next.matured) (blockResult block)
        (blockResult shown) := by
  rw [processBlock] at hblock
  by_cases htype : ((block.get (text "type")).any fun type => type.isText (text "tool_result")) = true
  swap
  · rw [if_neg htype] at hblock
    cases hblock
    rw [blockResult, if_neg htype]
    exact ⟨.refl _, .none⟩
  obtain ⟨type, hget⟩ : ∃ type, block.get (text "type") = some type := by
    cases hget : block.get (text "type") with
    | none =>
        rw [hget] at htype
        cases htype
    | some type => exact ⟨type, rfl⟩
  have hdict := Value.isDict_of_get hget
  rw [if_pos htype, Value.getOr_of_isDict hdict, Value.getOr_of_isDict hdict] at hblock
  dsimp only [Option.bind_eq_bind, Option.bind_some] at hblock
  cases hread : readOf activity ((block.get (text "tool_use_id")).getD (.str []))
      ((block.get (text "content")).getD .none) with
  | none =>
      rw [hread] at hblock
      cases hblock
  | some found =>
      rw [hread] at hblock
      cases found with
      | none =>
          cases hblock
          refine ⟨.refl _, ?_⟩
          rw [blockResult, if_pos htype]
          split
          · rename_i id content hid hcontent
            rw [hid, hcontent] at hread
            exact .some (.same (not_isRead_of_readOf activity hread))
          · exact .none
      | some found =>
          obtain ⟨id, content, call⟩ := found
          obtain ⟨hid, hcontent, hisRead⟩ := eq_of_readOf activity hread
          have hcontentGet : block.get (text "content") = some (.str content) := by
            cases hlookup : block.get (text "content") with
            | none =>
                rw [hlookup] at hcontent
                cases hcontent
            | some value =>
                rw [hlookup] at hcontent
                exact congrArg some hcontent
          cases hidGet : block.get (text "tool_use_id") with
          | none =>
              rw [hidGet] at hblock
              cases hblock
          | some idValue =>
              rw [hidGet] at hid hblock
              have hidValue : idValue = .str id := hid
              subst hidValue
              have hextends := extends_handleRead config ccrHash activity state id content call
              have hstep := handleRead_spec config ccrHash activity state content call hisRead
              have hresult : blockResult block = some (id, content) := by
                rw [blockResult, if_pos htype, hidGet, hcontentGet]
              dsimp only [Option.bind_some, Value.asText] at hblock
              cases hhandled : (handleRead config ccrHash activity state id content call).2.1 with
              | none =>
                  rw [hhandled] at hblock hstep
                  cases hblock
                  rw [hresult]
                  exact ⟨hextends, .some hstep⟩
              | some replacement =>
                  rw [hhandled] at hblock hstep
                  cases hblock
                  have hshown : blockResult (block.put (text "content") (.str replacement)) =
                      some (id, replacement) := by
                    have hput := Value.get_put hdict (text "content")
                    have htypes : text "type" ≠ text "content" := by decide
                    have hids : text "tool_use_id" ≠ text "content" := by decide
                    rw [blockResult, hput, if_neg htypes, if_pos htype, hput, if_neg hids, hput,
                      if_pos rfl, hidGet]
                  rw [hresult, hshown]
                  exact ⟨hextends, .some hstep⟩

theorem processBlocks_spec {blocks shown : List Value}
    (hblocks : processBlocks config ccrHash activity state blocks = (next, some (shown, holding))) :
    Extends state.matured next.matured ∧
      List.Forall₂ (ResultStep activity state.matured next.matured)
        (blocks.filterMap blockResult) (shown.filterMap blockResult) := by
  induction blocks generalizing state shown holding with
  | nil =>
      cases hblocks
      exact ⟨.refl _, .nil⟩
  | cons block blocks ih =>
      rw [processBlocks] at hblocks
      cases hblock : processBlock config ccrHash activity state block with
      | none =>
          rw [hblock] at hblocks
          cases hblocks
      | some processed =>
          obtain ⟨middle, first, held⟩ := processed
          rw [hblock] at hblocks
          dsimp only at hblocks
          cases hrest : processBlocks config ccrHash activity middle blocks with
          | mk last result =>
              rw [hrest] at hblocks
              cases result with
              | none => cases hblocks
              | some result =>
                  obtain ⟨others, heldRest⟩ := result
                  cases hblocks
                  obtain ⟨hfirst, hresult⟩ := processBlock_spec config ccrHash activity hblock
                  obtain ⟨hsecond, hresults⟩ := ih hrest
                  have hresults := hresults.imp fun _ _ hstep => hstep.mono hfirst (.refl _)
                  refine ⟨hfirst.trans hsecond, ?_⟩
                  rw [List.filterMap_cons, List.filterMap_cons]
                  cases hbefore : blockResult block with
                  | none =>
                      rw [hbefore] at hresult
                      cases hafter : blockResult first with
                      | none => exact hresults
                      | some result =>
                          rw [hafter] at hresult
                          cases hresult
                  | some result =>
                      rw [hbefore] at hresult
                      cases hafter : blockResult first with
                      | none =>
                          rw [hafter] at hresult
                          cases hresult
                      | some result =>
                          rw [hafter] at hresult
                          cases hresult with
                          | some hstep => exact .cons (hstep.mono (.refl _) hsecond) hresults

variable {message : Value}

/-- A message is a dictionary if the pass does not raise. -/
theorem toolResults_of_isDict (hdict : message.isDict = true) :
    toolResults message =
      if ((message.get (text "role")).getD (.str [])).isText (text "tool") then
        match (message.get (text "tool_call_id")).getD (.str []),
          (message.get (text "content")).getD (.str []) with
        | .str id, .str content => [(id, content)]
        | _, _ => []
      else
        match (message.get (text "content")).getD (.str []) with
        | .list blocks => blocks.filterMap blockResult
        | _ => [] := by
  rw [toolResults, Value.getOr_of_isDict hdict, Value.getOr_of_isDict hdict,
    Value.getOr_of_isDict hdict]
  dsimp only
  split_ifs with hrole
  · cases (message.get (text "tool_call_id")).getD (.str []) with
    | str id =>
        cases (message.get (text "content")).getD (.str []) with
        | _ => rfl
    | _ => rfl
  · rfl

/-- The results of a message behind a pass. -/
theorem processMessage_spec
    (hmessage : processMessage config ccrHash activity state message =
      (next, some (shown, holding))) :
    List.Forall₂ (ResultStep activity state.matured next.matured) (toolResults message)
      (toolResults shown) := by
  have hdict : message.isDict = true := by
    cases message with
    | dict entries => rfl
    | _ => cases hmessage
  have hput := Value.get_put hdict (text "content")
  have hroles : text "role" ≠ text "content" := by decide
  have hids : text "tool_call_id" ≠ text "content" := by decide
  rw [processMessage, Value.getOr_of_isDict hdict, Value.getOr_of_isDict hdict,
    Value.getOr_of_isDict hdict] at hmessage
  dsimp only [Option.bind_some] at hmessage
  rw [toolResults_of_isDict hdict]
  by_cases hrole : ((message.get (text "role")).getD (.str [])).isText (text "tool") = true
  · rw [if_pos hrole] at hmessage ⊢
    cases hread : readOf activity ((message.get (text "tool_call_id")).getD (.str []))
        ((message.get (text "content")).getD (.str [])) with
    | none =>
        rw [hread] at hmessage
        cases hmessage
    | some found =>
        rw [hread] at hmessage
        cases found with
        | none =>
            cases hmessage
            rw [toolResults_of_isDict hdict, if_pos hrole]
            split
            · rename_i id content hid hcontent
              rw [hid, hcontent] at hread
              exact .cons (.same (not_isRead_of_readOf activity hread)) .nil
            · exact .nil
        | some found =>
            obtain ⟨id, content, call⟩ := found
            obtain ⟨hid, hcontent, hisRead⟩ := eq_of_readOf activity hread
            have hstep := handleRead_spec config ccrHash activity state content call hisRead
            dsimp only at hmessage
            cases hhandled : (handleRead config ccrHash activity state id content call).2.1 with
            | none =>
                rw [hhandled] at hmessage hstep
                cases hmessage
                rw [toolResults_of_isDict hdict, if_pos hrole, hid, hcontent]
                exact .cons hstep .nil
            | some replacement =>
                rw [hhandled] at hmessage hstep
                cases hmessage
                rw [toolResults_of_isDict ((Value.isDict_put _ _ _).trans hdict), hput, hput, hput,
                  if_neg hroles, if_pos hrole, if_neg hids, if_pos rfl, hid, hcontent]
                exact .cons hstep .nil
  · rw [if_neg hrole] at hmessage ⊢
    cases hcontent : (message.get (text "content")).getD (.str []) with
    | list blocks =>
        rw [hcontent] at hmessage
        dsimp only at hmessage ⊢
        cases hblocks : processBlocks config ccrHash activity state blocks with
        | mk last result =>
            rw [hblocks] at hmessage
            cases result with
            | none => cases hmessage
            | some result =>
                obtain ⟨others, held⟩ := result
                cases hmessage
                rw [toolResults_of_isDict ((Value.isDict_put _ _ _).trans hdict), hput,
                  if_neg hroles, if_neg hrole, hput, if_pos rfl]
                exact (processBlocks_spec config ccrHash activity hblocks).2
    | _ =>
        rw [hcontent] at hmessage
        cases hmessage
        rw [toolResults_of_isDict hdict, if_neg hrole, hcontent]
        exact .nil

/-! What raises in the middle of a pass keeps what has matured so far. -/

theorem extends_processBlocks (state : PassState) (blocks : List Value) :
    Extends state.matured (processBlocks config ccrHash activity state blocks).1.matured := by
  induction blocks generalizing state with
  | nil => exact .refl _
  | cons block blocks ih =>
      rw [processBlocks]
      cases hblock : processBlock config ccrHash activity state block with
      | none => exact .refl _
      | some processed =>
          obtain ⟨middle, first, held⟩ := processed
          exact (processBlock_spec config ccrHash activity hblock).1.trans (ih middle)

theorem extends_processMessage (state : PassState) (message : Value) :
    Extends state.matured (processMessage config ccrHash activity state message).1.matured := by
  rw [processMessage]
  split
  · split_ifs
    · split
      · exact .refl _
      · exact .refl _
      · rename_i id content call hread
        have hextends := extends_handleRead config ccrHash activity state id content call
        dsimp only
        split
        · exact hextends
        · exact hextends
    · split
      · exact extends_processBlocks config ccrHash activity state _
      · exact .refl _
  · exact .refl _

variable (frozenMessageCount : ℕ)

theorem extends_processMessages (index : ℕ) (state : PassState) (messages : List Value) :
    Extends state.matured
      (processMessages config ccrHash activity frozenMessageCount index state
        messages).1.matured := by
  induction messages generalizing index state with
  | nil => exact .refl _
  | cons message messages ih =>
      rw [processMessages]
      split_ifs
      · exact ih (index + 1) state
      · have hfirst := extends_processMessage config ccrHash activity state message
        cases hmessage : processMessage config ccrHash activity state message with
        | mk middle result =>
            rw [hmessage] at hfirst
            cases result with
            | none => exact hfirst
            | some result => exact hfirst.trans (ih (index + 1) middle)

/-- What a pass shows of a message: itself inside the frozen prefix, and behind it the message
with markers. -/
structure Shown (before after : Dict Text MaturedRead) (index : ℕ) (message shown : Value) :
    Prop where
  frozen : index < frozenMessageCount → shown = message
  results : frozenMessageCount ≤ index →
    List.Forall₂ (ResultStep activity before after) (toolResults message) (toolResults shown)

variable {frozenMessageCount activity}
variable {index : ℕ}

theorem Shown.mono {first before middle last : Dict Text MaturedRead}
    (hshown : Shown activity frozenMessageCount before middle index message shown)
    (hfirst : Extends first before) (hlast : Extends middle last) :
    Shown activity frozenMessageCount first last index message shown where
  frozen := hshown.frozen
  results hindex := (hshown.results hindex).imp fun _ _ hstep => hstep.mono hfirst hlast

variable {messages out : List Value} {holding : List ℕ}

theorem length_processMessages
    (hmessages : processMessages config ccrHash activity frozenMessageCount index state messages =
      (next, some (out, holding))) : out.length = messages.length := by
  induction messages generalizing index state out holding with
  | nil =>
      cases hmessages
      rfl
  | cons first messages ih =>
      have hmap : ∀ (add : List ℕ → List ℕ) (shown : Value)
          (rest : PassState × Option (List Value × List ℕ)),
          (rest.1, rest.2.map fun result => (shown :: result.1, add result.2)) =
            (next, some (out, holding)) →
          ∃ others held, rest = (next, some (others, held)) ∧ out = shown :: others := by
        rintro add shown ⟨last, result⟩ heq
        cases result with
        | none => cases heq
        | some result =>
            cases heq
            exact ⟨result.1, result.2, rfl, rfl⟩
      rw [processMessages] at hmessages
      split_ifs at hmessages
      · obtain ⟨others, held, hrest, rfl⟩ := hmap id first _ hmessages
        rw [List.length_cons, List.length_cons, ih hrest]
      · split at hmessages
        · cases hmessages
        · rename_i middle shown holds hfirst
          obtain ⟨others, held, hrest, rfl⟩ :=
            hmap ((if holds then [index] else []) ++ ·) shown _ hmessages
          rw [List.length_cons, List.length_cons, ih hrest]

theorem processMessages_spec
    (hmessages : processMessages config ccrHash activity frozenMessageCount index state messages =
      (next, some (out, holding))) {place : ℕ} (hmessage : messages[place]? = some message) :
    ∃ shown, out[place]? = some shown ∧
      Shown activity frozenMessageCount state.matured next.matured (index + place) message
        shown := by
  induction messages generalizing index state out holding place with
  | nil => cases hmessage
  | cons first messages ih =>
      have hrest := extends_processMessages config ccrHash activity frozenMessageCount (index + 1)
      rw [processMessages] at hmessages
      split_ifs at hmessages with hindex
      · specialize hrest state messages
        cases hprocessed : processMessages config ccrHash activity frozenMessageCount (index + 1)
            state messages with
        | mk last result =>
            rw [hprocessed] at hmessages hrest
            cases result with
            | none => cases hmessages
            | some result =>
                obtain ⟨others, held⟩ := result
                cases hmessages
                cases place with
                | zero =>
                    cases hmessage
                    exact ⟨_, rfl, fun _ => rfl, fun hle => absurd hindex (by omega)⟩
                | succ place =>
                    have hsum : index + (place + 1) = index + 1 + place := by omega
                    rw [hsum]
                    exact ih hprocessed hmessage
      · have hfirst := extends_processMessage config ccrHash activity state first
        cases hprocessed : processMessage config ccrHash activity state first with
        | mk middle result =>
            rw [hprocessed] at hmessages hfirst
            cases result with
            | none => cases hmessages
            | some result =>
                obtain ⟨shown, heldFirst⟩ := result
                specialize hrest middle messages
                dsimp only at hmessages
                cases hothers : processMessages config ccrHash activity frozenMessageCount
                    (index + 1) middle messages with
                | mk last result =>
                    rw [hothers] at hmessages hrest
                    cases result with
                    | none => cases hmessages
                    | some result =>
                        obtain ⟨others, held⟩ := result
                        cases hmessages
                        cases place with
                        | zero =>
                            cases hmessage
                            have hresults := processMessage_spec config ccrHash activity hprocessed
                            exact ⟨shown, rfl, fun hlt => absurd hlt hindex, fun _ =>
                              hresults.imp fun _ _ hstep => hstep.mono (.refl _) hrest⟩
                        | succ place =>
                            obtain ⟨found, hfound, hshown⟩ := ih hothers hmessage
                            have hsum : index + (place + 1) = index + 1 + place := by omega
                            rw [hsum]
                            exact ⟨found, hfound, hshown.mono hfirst (.refl _)⟩

end

/-! ## Activity -/

section

variable (format : FloatFormat) {activity next : Activity}

/-- A call that is known stays known. -/
def Activity.Knows (before after : Activity) : Prop := ∀ id, before.IsRead id → after.IsRead id

theorem Activity.Knows.refl (activity : Activity) : activity.Knows activity := fun _ hread => hread

theorem Activity.knows_touch {isRead : Bool} {filePath : Text} {id : Value}
    (htouch : activity.touch isRead filePath id = some next) : activity.Knows next := by
  intro other hread
  have hset : ∀ (calls : Dict Text (Text × ℕ)) (key : Text) (call : Text × ℕ),
      (calls.get? other).isSome = true → ((calls.set key call).get? other).isSome = true := by
    intro calls key call hsome
    rw [Dict.get?_set]
    split_ifs
    · rfl
    · exact hsome
  rw [Activity.touch] at htouch
  dsimp only [Option.bind_eq_bind] at htouch
  cases hpath : filePath.isEmpty with
  | true =>
      rw [hpath, if_pos rfl] at htouch
      split_ifs at htouch
      · obtain ⟨key, -, hnext⟩ := Option.bind_eq_some_iff.mp htouch
        cases hnext
        exact hset _ _ _ hread
      · cases htouch
        exact hread
  | false =>
      rw [hpath, if_neg Bool.false_ne_true] at htouch
      split_ifs at htouch
      · obtain ⟨key, -, hnext⟩ := Option.bind_eq_some_iff.mp htouch
        cases hnext
        exact hset _ _ _ hread
      · cases htouch
        exact hread

theorem Activity.knows_foldlM {step : Activity → Value → Option Activity}
    (hstep : ∀ before value after, step before value = some after → before.Knows after)
    (values : List Value) (hfold : values.foldlM step activity = some next) :
    activity.Knows next := by
  induction values generalizing activity with
  | nil =>
      cases hfold
      exact .refl _
  | cons value values ih =>
      rw [List.foldlM_cons] at hfold
      obtain ⟨middle, hmiddle, hrest⟩ := Option.bind_eq_some_iff.mp hfold
      exact fun id hread => ih hrest id (hstep _ _ _ hmiddle id hread)

theorem Activity.knows_scanToolCall (call : Value)
    (hscan : activity.scanToolCall format call = some next) : activity.Knows next := by
  rw [Activity.scanToolCall] at hscan
  split_ifs at hscan
  · cases hscan
    exact .refl _
  · obtain ⟨function, -, hscan⟩ := Option.bind_eq_some_iff.mp hscan
    obtain ⟨name, -, hscan⟩ := Option.bind_eq_some_iff.mp hscan
    obtain ⟨touches, -, hscan⟩ := Option.bind_eq_some_iff.mp hscan
    split_ifs at hscan
    · obtain ⟨arguments, -, hscan⟩ := Option.bind_eq_some_iff.mp hscan
      obtain ⟨filePath, -, hscan⟩ := Option.bind_eq_some_iff.mp hscan
      obtain ⟨isRead, -, hscan⟩ := Option.bind_eq_some_iff.mp hscan
      obtain ⟨id, -, hscan⟩ := Option.bind_eq_some_iff.mp hscan
      exact knows_touch hscan
    · cases hscan
      exact .refl _

theorem Activity.knows_scanBlock (block : Value)
    (hscan : activity.scanBlock block = some next) : activity.Knows next := by
  rw [Activity.scanBlock] at hscan
  split_ifs at hscan
  · obtain ⟨name, -, hscan⟩ := Option.bind_eq_some_iff.mp hscan
    obtain ⟨touches, -, hscan⟩ := Option.bind_eq_some_iff.mp hscan
    split_ifs at hscan
    · obtain ⟨input, -, hscan⟩ := Option.bind_eq_some_iff.mp hscan
      obtain ⟨isRead, -, hscan⟩ := Option.bind_eq_some_iff.mp hscan
      obtain ⟨filePath, -, hscan⟩ := Option.bind_eq_some_iff.mp hscan
      obtain ⟨id, -, hscan⟩ := Option.bind_eq_some_iff.mp hscan
      exact knows_touch hscan
    · cases hscan
      exact .refl _
  · cases hscan
    exact .refl _

theorem Activity.knows_scanMessage (message : Value)
    (hscan : activity.scanMessage format message = some next) : activity.Knows next := by
  rw [Activity.scanMessage] at hscan
  obtain ⟨role, -, hscan⟩ := Option.bind_eq_some_iff.mp hscan
  split_ifs at hscan
  · obtain ⟨calls, -, hscan⟩ := Option.bind_eq_some_iff.mp hscan
    obtain ⟨items, -, hscan⟩ := Option.bind_eq_some_iff.mp hscan
    obtain ⟨middle, hmiddle, hscan⟩ := Option.bind_eq_some_iff.mp hscan
    have hfirst : activity.Knows middle := fun id hread =>
      knows_foldlM (fun _ call _ hcall => knows_scanToolCall format call hcall) _ hmiddle id hread
    obtain ⟨content, -, hscan⟩ := Option.bind_eq_some_iff.mp hscan
    split at hscan
    · have hsecond : middle.Knows next :=
        knows_foldlM (fun _ block _ hblock => knows_scanBlock block hblock) _ hscan
      exact fun id hread => hsecond id (hfirst id hread)
    · cases hscan
      exact hfirst
  · cases hscan
    exact .refl _

/-- The calls of a conversation are calls of every longer one. -/
theorem knows_scanActivity {messages longer : List Value} (hbegins : messages <+: longer)
    (hscan : scanActivity format messages = some activity)
    (hlonger : scanActivity format longer = some next) : activity.Knows next := by
  obtain ⟨rest, rfl⟩ := hbegins
  rw [scanActivity, List.foldlM_append] at hlonger
  rw [scanActivity] at hscan
  rw [hscan] at hlonger
  exact Activity.knows_foldlM (fun _ message _ => Activity.knows_scanMessage format message) rest
    hlonger

end

/-! ## Sessions -/

structure ReadRequest where
  messages : List Value
  frozenMessageCount : ℕ
  /-- The hash under which the content of a call is recorded. -/
  ccrHash : Text → Text → Text

/-- A later request of a session: the conversation and the frozen prefix have grown. -/
def ReadRequest.Follows (earlier later : ReadRequest) : Prop :=
  earlier.messages <+: later.messages ∧ earlier.frozenMessageCount ≤ later.frozenMessageCount

/-- A tool result in a list of messages. -/
def resultAt (messages : List Value) (index place : ℕ) : Option (Text × Text) :=
  messages[index]?.bind fun message => (toolResults message)[place]?

/-- Every Read that an earlier request has replaced with a marker has it in a later one. -/
def Replayed (earlier later : ReadRequest × Option MaturationResult) : Prop :=
  ∀ result next, earlier.2 = some result → later.2 = some next →
    ∀ index place id content marker,
      resultAt earlier.1.messages index place = some (id, content) →
      resultAt result.messages index place = some (id, marker) → marker ≠ content →
      resultAt next.messages index place = some (id, marker)

/-- What an earlier request has shown of its frozen prefix, a later one shows too. -/
def FrozenKept (earlier later : ReadRequest × Option MaturationResult) : Prop :=
  ∀ result next, earlier.2 = some result → later.2 = some next →
    ∀ index < earlier.1.frozenMessageCount, ∀ message, result.messages[index]? = some message →
      next.messages[index]? = some message

/-- The results of matured Reads inside the frozen prefix are their markers. -/
def Unfrozen (matured : Dict Text MaturedRead) (request : ReadRequest) : Prop :=
  ∀ index < request.frozenMessageCount, ∀ place id content,
    resultAt request.messages index place = some (id, content) →
      ∀ read, matured.get? id = some read → content = read.marker

section

variable (format : FloatFormat) (config : ReadMaturationConfig)

/-- The requests of a session with their results. -/
def session : Dict Text MaturedRead → List ReadRequest →
    List (ReadRequest × Option MaturationResult)
  | _, [] => []
  | matured, request :: requests =>
      let applied := apply format config request.ccrHash matured request.messages
        request.frozenMessageCount
      (request, applied.2) :: session applied.1 requests

/-- No request of a session finds a matured Read in its frozen prefix, other than as a marker. -/
def UnfrozenSession : Dict Text MaturedRead → List ReadRequest → Prop
  | _, [] => True
  | matured, request :: requests =>
      Unfrozen matured request ∧
        UnfrozenSession (apply format config request.ccrHash matured request.messages
          request.frozenMessageCount).1 requests

theorem extends_apply (ccrHash : Text → Text → Text) (matured : Dict Text MaturedRead)
    (messages : List Value) (frozenMessageCount : ℕ) :
    Extends matured (apply format config ccrHash matured messages frozenMessageCount).1 := by
  rw [apply]
  split_ifs
  · exact .refl _
  · cases scanActivity format messages with
    | none => exact .refl _
    | some activity =>
        exact extends_processMessages config ccrHash activity frozenMessageCount 0
          ⟨matured, .zero⟩ messages

variable {format config}
variable {matured : Dict Text MaturedRead}

/-- What a request shows of a message. -/
theorem apply_spec {ccrHash : Text → Text → Text} {next : Dict Text MaturedRead}
    {messages : List Value} {frozenMessageCount : ℕ} {result : MaturationResult}
    (happly : apply format config ccrHash matured messages frozenMessageCount =
      (next, some result)) :
    config.enabled = false ∧ result.messages = messages ∨
      ∃ activity, config.enabled = true ∧ scanActivity format messages = some activity ∧
        result.messages.length = messages.length ∧ ∀ index message, messages[index]? = some message →
          ∃ shown, result.messages[index]? = some shown ∧
            Shown activity frozenMessageCount matured next index message shown := by
  rw [apply] at happly
  cases henabled : config.enabled with
  | false =>
      rw [henabled] at happly
      cases happly
      exact .inl ⟨rfl, rfl⟩
  | true =>
      rw [henabled, Bool.not_true, if_neg Bool.false_ne_true] at happly
      cases hscan : scanActivity format messages with
      | none =>
          rw [hscan] at happly
          cases happly
      | some activity =>
          rw [hscan] at happly
          dsimp only at happly
          cases hprocessed : processMessages config ccrHash activity frozenMessageCount 0
              ⟨matured, .zero⟩ messages with
          | mk last processed =>
              rw [hprocessed] at happly
              cases processed with
              | none => cases happly
              | some processed =>
                  obtain ⟨out, holding⟩ := processed
                  cases happly
                  refine .inr ⟨activity, rfl, rfl, length_processMessages config ccrHash hprocessed,
                    fun index message hmessage => ?_⟩
                  have hshown := processMessages_spec config ccrHash hprocessed hmessage
                  rwa [Nat.zero_add] at hshown

theorem exists_of_forall₂ {α β : Type*} {related : α → β → Prop} {left : List α} {right : List β}
    (hall : List.Forall₂ related left right) {place : ℕ} {value : α}
    (hvalue : left[place]? = some value) :
    ∃ other, right[place]? = some other ∧ related value other := by
  induction hall generalizing place with
  | nil => cases hvalue
  | cons hfirst _ ih =>
      cases place with
      | zero =>
          cases hvalue
          exact ⟨_, rfl, hfirst⟩
      | succ place => exact ih hvalue

theorem getElem?_of_prefix {shorter longer : List Value} (hbegins : shorter <+: longer) {index : ℕ}
    {message : Value} (hmessage : shorter[index]? = some message) :
    longer[index]? = some message := by
  obtain ⟨rest, rfl⟩ := hbegins
  rw [List.getElem?_append_left (List.getElem?_eq_some_iff.mp hmessage).1]
  exact hmessage

variable {later : Dict Text MaturedRead} {first request : ReadRequest}

/-- A request that follows one that has shown a marker shows it too. -/
theorem replayed_of_extends (hfollows : first.Follows request)
    (hextends : Extends (apply format config first.ccrHash matured first.messages
      first.frozenMessageCount).1 later) (hunfrozen : Unfrozen later request) :
    Replayed
      (first, (apply format config first.ccrHash matured first.messages
        first.frozenMessageCount).2)
      (request, (apply format config request.ccrHash later request.messages
        request.frozenMessageCount).2) := by
  intro result next hresult hnext index place id content marker hcontent hmarker hne
  obtain ⟨message, hmessage, hplace⟩ := Option.bind_eq_some_iff.mp hcontent
  obtain ⟨shown, hshown, hshownPlace⟩ := Option.bind_eq_some_iff.mp hmarker
  rcases apply_spec (Prod.ext rfl hresult) with ⟨-, hsame⟩ | ⟨activity, henabled, hscan, -, hspec⟩
  · rw [hsame, hcontent, Option.some.injEq, Prod.mk.injEq] at hmarker
    exact absurd hmarker.2.symm hne
  obtain ⟨found, hfound, hfirst⟩ := hspec index message hmessage
  rw [hfound, Option.some.injEq] at hshown
  subst hshown
  have hbehind : first.frozenMessageCount ≤ index := by
    by_contra hfrozen
    rw [hfirst.frozen (not_le.mp hfrozen), hplace, Option.some.injEq, Prod.mk.injEq] at hshownPlace
    exact hne hshownPlace.2.symm
  obtain ⟨step, hstepPlace, hstep⟩ := exists_of_forall₂ (hfirst.results hbehind) hplace
  rw [hshownPlace, Option.some.injEq] at hstepPlace
  subst hstepPlace
  obtain ⟨hread, read, hmatured, hreadMarker⟩ := hstep.marker hne
  have hlater := hextends _ _ hmatured
  have hlaterMessage := getElem?_of_prefix hfollows.1 hmessage
  -- The message is behind the frozen prefix: inside of it, the content would be the marker.
  have hlaterBehind : request.frozenMessageCount ≤ index := by
    by_contra hfrozen
    have hinside : resultAt request.messages index place = some (id, content) := by
      rw [resultAt, hlaterMessage]
      exact hplace
    have heq := hunfrozen index (not_le.mp hfrozen) place id content hinside read hlater
    exact hne (hreadMarker.trans heq.symm)
  rcases apply_spec (Prod.ext rfl hnext) with ⟨hdisabled, -⟩ | ⟨after, -, hscanAfter, -, hspecAfter⟩
  · rw [henabled] at hdisabled
    cases hdisabled
  obtain ⟨out, hout, hshowsOut⟩ := hspecAfter index message hlaterMessage
  obtain ⟨final, hfinalPlace, hfinal⟩ :=
    exists_of_forall₂ (hshowsOut.results hlaterBehind) hplace
  have hknows := knows_scanActivity format hfollows.1 hscan hscanAfter id hread
  have hfinalMarker : final = (id, marker) :=
    Prod.ext hfinal.id ((hfinal.replay hknows read hlater).trans hreadMarker.symm)
  rw [resultAt, hout]
  exact hfinalPlace.trans (congrArg some hfinalMarker)

/-- A request shows its frozen prefix as it is. -/
theorem frozenKept_of_follows (hfollows : first.Follows request) :
    FrozenKept
      (first, (apply format config first.ccrHash matured first.messages
        first.frozenMessageCount).2)
      (request, (apply format config request.ccrHash later request.messages
        request.frozenMessageCount).2) := by
  have hfrozen : ∀ (before : Dict Text MaturedRead) (request : ReadRequest)
      (result : MaturationResult),
      (apply format config request.ccrHash before request.messages
        request.frozenMessageCount).2 = some result →
      ∀ index < request.frozenMessageCount, result.messages[index]? = request.messages[index]? := by
    intro before request result hresult index hindex
    rcases apply_spec (Prod.ext rfl hresult) with ⟨-, hsame⟩ | ⟨activity, -, -, hlength, hspec⟩
    · rw [hsame]
    · cases hmessage : request.messages[index]? with
      | none =>
          rw [List.getElem?_eq_none_iff] at hmessage ⊢
          omega
      | some message =>
          obtain ⟨shown, hshown, hspec⟩ := hspec index message hmessage
          rw [hshown, hspec.frozen hindex]
  intro result next hresult hnext index hindex message hmessage
  rw [hfrozen matured first result hresult index hindex] at hmessage
  rw [hfrozen later request next hnext index (hindex.trans_le hfollows.2)]
  exact getElem?_of_prefix hfollows.1 hmessage

variable (format config)
variable {requests : List ReadRequest}

/-- Every result of a session is that of a request from a state which extends the first one. -/
theorem mem_session {entry : ReadRequest × Option MaturationResult}
    (hentry : entry ∈ session format config matured requests) :
    ∃ state request, Extends matured state ∧ request ∈ requests ∧
      (UnfrozenSession format config matured requests → Unfrozen state request) ∧
      entry = (request, (apply format config request.ccrHash state request.messages
        request.frozenMessageCount).2) := by
  induction requests generalizing matured with
  | nil => cases hentry
  | cons request requests ih =>
      rw [session] at hentry
      rcases List.mem_cons.mp hentry with rfl | hrest
      · exact ⟨matured, request, .refl _, List.mem_cons_self, fun hunfrozen => hunfrozen.1, rfl⟩
      · obtain ⟨state, other, hextends, hmem, hunfrozen, heq⟩ := ih hrest
        refine ⟨state, other, (extends_apply format config _ _ _ _).trans hextends,
          List.mem_cons_of_mem _ hmem, fun hsession => hunfrozen hsession.2, heq⟩

theorem pairwise_session (matured : Dict Text MaturedRead)
    (hfollows : requests.Pairwise ReadRequest.Follows) :
    (session format config matured requests).Pairwise FrozenKept ∧
      (UnfrozenSession format config matured requests →
        (session format config matured requests).Pairwise Replayed) := by
  induction requests generalizing matured with
  | nil => exact ⟨.nil, fun _ => .nil⟩
  | cons first requests ih =>
      obtain ⟨hfirst, hrest⟩ := List.pairwise_cons.mp hfollows
      rw [session]
      refine ⟨.cons (fun entry hentry => ?_) (ih _ hrest).1,
        fun hunfrozen => .cons (fun entry hentry => ?_) ((ih _ hrest).2 hunfrozen.2)⟩
      · obtain ⟨state, request, -, hmem, -, rfl⟩ := mem_session format config hentry
        exact frozenKept_of_follows (hfirst request hmem)
      · obtain ⟨state, request, hextends, hmem, hstep, rfl⟩ := mem_session format config hentry
        exact replayed_of_extends (hfirst request hmem) hextends (hstep hunfrozen.2)

/-- A frozen message is shown in the same way forever.  While no frozen prefix reaches a matured
Read, its marker is shown forever too. -/
theorem session_replays {requests : List ReadRequest}
    (hfollows : requests.Pairwise ReadRequest.Follows) :
    (session format config .empty requests).Pairwise FrozenKept ∧
      (UnfrozenSession format config .empty requests →
        (session format config .empty requests).Pairwise Replayed) :=
  pairwise_session format config .empty hfollows

end

/-! ## A session on fixed messages -/

/-- Every Read matures when its file has been quiet for a turn. -/
def quickConfig : ReadMaturationConfig := ⟨true, 1, 25, 0⟩

def noFloats : FloatFormat := ⟨fun _ => [], fun _ => .int 0⟩

/-- A Read of a file, its result, and a quiet turn. -/
def readConversation : List Value :=
  [.dict [(text "role", .str (text "assistant")),
      (text "content", .list [.dict [(text "type", .str (text "tool_use")),
        (text "id", .str (text "r1")), (text "name", .str (text "Read")),
        (text "input", .dict [(text "file_path", .str (text "f"))])]])],
    .dict [(text "role", .str (text "user")),
      (text "content", .list [.dict [(text "type", .str (text "tool_result")),
        (text "tool_use_id", .str (text "r1")), (text "content", .str (text "x"))]])],
    .dict [(text "role", .str (text "assistant")), (text "content", .str (text "ok"))]]

/-- Two requests with one conversation; the second has a frozen prefix. -/
def twoRequests (frozenMessageCount : ℕ) : List ReadRequest :=
  [⟨readConversation, 0, fun _ _ => text "h"⟩,
    ⟨readConversation, frozenMessageCount, fun _ _ => text "h"⟩]

theorem follows_twoRequests (frozenMessageCount : ℕ) :
    (twoRequests frozenMessageCount).Pairwise ReadRequest.Follows :=
  .cons (fun request hrequest => by
    rw [List.mem_singleton.mp hrequest]
    exact ⟨List.prefix_rfl, Nat.zero_le _⟩) (List.pairwise_singleton _ _)

/-- Without a frozen prefix the marker is replayed. -/
theorem session_replays_unfrozen :
    (session noFloats quickConfig .empty (twoRequests 0)).Pairwise Replayed ∧
      (session noFloats quickConfig .empty (twoRequests 0)).map (fun entry =>
        entry.2.bind fun result => resultAt result.messages 1 0) =
          [some (text "r1", markerOf (text "f") (text "h")),
            some (text "r1", markerOf (text "f") (text "h"))] := by
  refine ⟨(session_replays noFloats quickConfig (follows_twoRequests 0)).2
    ⟨fun index hindex => absurd hindex (Nat.not_lt_zero _),
      fun index hindex => absurd hindex (Nat.not_lt_zero _), trivial⟩, ?_⟩
  decide +kernel

/-- A result that has matured is shown as it was when the frozen prefix reaches it. -/
theorem session_reverts : ¬∀ (format : FloatFormat) (config : ReadMaturationConfig)
    (requests : List ReadRequest), requests.Pairwise ReadRequest.Follows →
      (session format config .empty requests).Pairwise Replayed := by
  intro hall
  have hpair := hall noFloats quickConfig (twoRequests 3) (follows_twoRequests 3)
  have hshown : (session noFloats quickConfig .empty (twoRequests 3)).map (fun entry =>
      entry.2.bind fun result => resultAt result.messages 1 0) =
        [some (text "r1", markerOf (text "f") (text "h")), some (text "r1", text "x")] := by
    decide +kernel
  have hinput : resultAt readConversation 1 0 = some (text "r1", text "x") := by decide +kernel
  have hne : markerOf (text "f") (text "h") ≠ text "x" := by decide
  dsimp only [twoRequests, session] at hpair hshown
  have hreplayed := (List.pairwise_cons.mp hpair).1 _ (List.mem_singleton_self _)
  rw [List.map_cons, List.map_cons, List.map_nil, List.cons.injEq, List.cons.injEq] at hshown
  obtain ⟨result, hresult, hfirst⟩ := Option.bind_eq_some_iff.mp hshown.1
  obtain ⟨next, hnext, hsecond⟩ := Option.bind_eq_some_iff.mp hshown.2.1
  have hmarker := hreplayed result next hresult hnext 1 0 _ _ _ hinput hfirst hne
  rw [hsecond, Option.some.injEq, Prod.mk.injEq] at hmarker
  exact hne hmarker.2.symm

end ReadMaturation

end Legroom.Transforms
