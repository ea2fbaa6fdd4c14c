import Legroom.Ccr.ResponseHandler

/-!
# Retrieval rounds

A round answers the calls of its turn, and the rounds add up to the conversation.
-/

namespace Legroom.Ccr

open Python

/-! ## One round -/

theorem exists_of_listAt {key : Text} {value : Value} (hitems : listAt key value ≠ []) :
    value.get key = some (.list (listAt key value)) := by
  rw [listAt] at hitems ⊢
  split at hitems
  · assumption
  · exact absurd rfl hitems

theorem getOr_of_listAt {key : Text} {value : Value} (hitems : listAt key value ≠ [])
    (default : Value) : value.getOr key default = some (.list (listAt key value)) := by
  have hget := exists_of_listAt hitems
  rw [Value.getOr_of_isDict (Value.isDict_of_get hget), hget, Option.getD_some]

section

variable {format : FloatFormat} {repr : Value → Text} {provider : Provider} {response : Value}
variable {calls : List Value}

theorem extractToolCalls_native (hextract : extractToolCalls provider response = some calls)
    (hcalls : calls ≠ []) : provider ≠ .other ∧ nativeCalls provider response = calls := by
  have hdict : (if response.isDict then some (nativeCalls provider response) else none) =
      some calls → nativeCalls provider response = calls := by
    intro hdict
    split_ifs at hdict
    exact Option.some_inj.mp hdict
  cases provider with
  | other => exact absurd (Option.some_inj.mp hextract).symm hcalls
  | _ => exact ⟨by decide, hdict hextract⟩

theorem listAt_elim {key inner : Text} {value : Value}
    (hitems : (value.get key).elim [] (listAt inner) ≠ []) :
    ∃ found, value.get key = some found ∧ listAt inner found ≠ [] := by
  cases hfound : value.get key with
  | none => rw [hfound] at hitems; exact absurd rfl hitems
  | some found => rw [hfound] at hitems; exact ⟨found, rfl, hitems⟩

theorem ne_nil_of_filter {keep : Value → Bool} {items : List Value}
    (hitems : items.filter keep ≠ []) : items ≠ [] := by
  rintro rfl
  exact hitems rfl

theorem exists_assistantTurn (hextract : extractToolCalls provider response = some calls)
    (hcalls : calls ≠ []) : ∃ turn, assistantTurn provider response = some turn := by
  obtain ⟨hprovider, hnative⟩ := extractToolCalls_native hextract hcalls
  rw [← hnative] at hcalls
  cases provider with
  | anthropic =>
      have hcontent := getOr_of_listAt (ne_nil_of_filter hcalls) (.list [])
      rw [assistantTurn, extractAssistantMessage, hcontent]
      exact ⟨_, rfl⟩
  | openai =>
      rw [nativeCalls] at hcalls
      cases hchoices : listAt (text "choices") response with
      | nil => rw [hchoices] at hcalls; exact absurd rfl hcalls
      | cons choice choices =>
          rw [hchoices] at hcalls
          obtain ⟨message, hmessage, htoolCalls⟩ := listAt_elim hcalls
          have hfirst := getOr_of_listAt (hchoices ▸ List.cons_ne_nil choice choices)
            (.list [.dict []])
          have hdict := Value.isDict_of_get (exists_of_listAt htoolCalls)
          rw [assistantTurn, extractAssistantMessage, hfirst, hchoices]
          dsimp only [Option.bind_eq_bind, Option.bind_some]
          rw [Value.getOr_of_isDict (Value.isDict_of_get hmessage), hmessage]
          dsimp only [Option.getD_some, Option.bind_eq_bind, Option.bind_some]
          rw [Value.getOr_of_isDict hdict, Value.getOr_of_isDict hdict]
          exact ⟨_, rfl⟩
  | google =>
      rw [nativeCalls] at hcalls
      cases hcandidates : listAt (text "candidates") response with
      | nil => rw [hcandidates] at hcalls; exact absurd rfl hcalls
      | cons candidate candidates =>
          rw [hcandidates] at hcalls
          obtain ⟨content, hcontent, hparts⟩ := listAt_elim (ne_nil_of_filter hcalls)
          have hfirst := getOr_of_listAt (hcandidates ▸ List.cons_ne_nil candidate candidates)
            (.list [])
          rw [assistantTurn, extractAssistantMessage, hfirst, hcandidates]
          dsimp only [Option.bind_eq_bind, Option.bind_some]
          have htruthy : (Value.list (candidate :: candidates)).truthy = true := rfl
          rw [if_pos htruthy, Value.getOr_of_isDict (Value.isDict_of_get hcontent), hcontent]
          dsimp only [Option.getD_some, Option.bind_eq_bind, Option.bind_some]
          rw [getOr_of_listAt hparts]
          exact ⟨_, rfl⟩
  | openaiResponses =>
      have houtput := getOr_of_listAt (ne_nil_of_filter hcalls) (.list [])
      rw [assistantTurn, extractAssistantMessage, houtput]
      exact ⟨_, rfl⟩
  | other => exact absurd rfl hprovider

variable (format) in
theorem exists_resultMessages (hprovider : provider ≠ .other) (results : List CCRToolResult) :
    ∃ back,
      resultMessages provider (createToolResultMessage format provider results) = some back ∧
        answeredIds provider back =
          results.map fun result => some (.str result.toolCallId) := by
  cases provider with
  | anthropic =>
      refine ⟨_, rfl, ?_⟩
      rw [answeredIds, List.flatMap_singleton]
      exact (List.map_map ..).trans (List.map_congr_left fun result hresult => rfl)
  | openai =>
      exact ⟨_, rfl, (List.map_map ..).trans (List.map_congr_left fun result hresult => rfl)⟩
  | google =>
      refine ⟨_, rfl, ?_⟩
      rw [answeredIds, List.flatMap_singleton]
      exact (List.map_map ..).trans (List.map_congr_left fun result hresult => rfl)
  | openaiResponses =>
      exact ⟨_, rfl, (List.map_map ..).trans (List.map_congr_left fun result hresult => rfl)⟩
  | other => exact absurd rfl hprovider

/-- A result carries the identifier of its call when that is a text. -/
theorem toolCallId_of_callId {call : Value} {id : Text}
    (hid : callId provider call = some (.str id)) :
    toolCallIdForProvider repr provider call = some id := by
  have hplain (hget : call.get (text "id") = some (.str id)) :
      (do return strOf repr (← call.getOr (text "id") (.str [])) : Option Text) = some id := by
    rw [Value.getOr_of_isDict (Value.isDict_of_get hget), hget]
    rfl
  cases provider with
  | google =>
      obtain ⟨functionCall, hfunctionCall, hname⟩ := Option.bind_eq_some_iff.mp hid
      have hdict := Value.isDict_of_get hname
      rw [toolCallIdForProvider, Value.getOr_of_isDict (Value.isDict_of_get hfunctionCall),
        hfunctionCall, Option.bind_eq_bind, Option.bind_some, Option.getD_some, if_pos hdict,
        Value.getOr_of_isDict hdict, hname]
      rfl
  | openaiResponses =>
      rw [callId] at hid
      have hdict : call.isDict = true := by
        cases call with
        | dict entries => rfl
        | _ => cases hid
      rw [toolCallIdForProvider, Value.getOr_of_isDict hdict, Option.bind_eq_bind,
        Option.bind_some, Value.getOr_of_isDict hdict]
      cases hcallId : call.get (text "call_id") with
      | none =>
          rw [hcallId, Option.none_or] at hid
          rw [hid]
          rfl
      | some found =>
          rw [hcallId, Option.some_or] at hid
          cases hid
          rfl
  | anthropic => exact hplain hid
  | openai => exact hplain hid
  | other => exact hplain hid

/-- The results carry the identifiers of the calls when these are texts. -/
theorem map_callId_iff {found : List Value} {ids : List Text}
    (hids : found.map (toolCallIdForProvider repr provider) = ids.map some) :
    (ids.map fun id => some (Value.str id)) = found.map (callId provider) ↔
      ∀ call ∈ found, ∃ id, callId provider call = some (.str id) := by
  induction found generalizing ids with
  | nil =>
      rw [List.map_eq_nil_iff.mp hids.symm]
      exact ⟨fun _ call hcall => absurd hcall List.not_mem_nil, fun _ => rfl⟩
  | cons call found ih =>
      cases ids with
      | nil => cases hids
      | cons id ids =>
          obtain ⟨hid, hrest⟩ := List.cons.inj hids
          rw [List.map_cons, List.map_cons, List.cons_eq_cons, ih hrest,
            List.forall_mem_cons]
          refine and_congr_left fun _ => ⟨fun hcall => ⟨id, hcall.symm⟩, ?_⟩
          rintro ⟨other, hother⟩
          rw [toolCallId_of_callId hother] at hid
          rw [hother, Option.some_inj.mp hid]

variable {retrieved : ℕ → ℕ → Text → Text} {calls : List CCRToolCall}

theorem parse_native {others : List Value}
    (hparse : parseCcrToolCalls format repr provider response = some (calls, others))
    (hcalls : calls ≠ []) :
    ∃ found, extractToolCalls provider response = some found ∧ found ≠ [] ∧
      splitCalls format repr provider found = some (calls, others) := by
  obtain ⟨found, hextract, hsplit⟩ := Option.bind_eq_some_iff.mp hparse
  refine ⟨found, hextract, ?_, hsplit⟩
  rintro rfl
  cases hsplit
  exact hcalls rfl

theorem remains_of_parse {others : List Value}
    (hparse : parseCcrToolCalls format repr provider response = some (calls, others))
    (hcalls : calls ≠ []) : Remains provider response := by
  obtain ⟨found, hextract, hfound, hsplit⟩ := parse_native hparse hcalls
  obtain ⟨call, hcall, hresolvable⟩ := exists_resolvable_of_splitCalls hsplit hcalls
  have hprovider := (extractToolCalls_native hextract hfound).1
  exact ⟨found, hextract, call, hcall,
    namesRetrievalTool_of_resolvable hprovider hresolvable⟩

variable (retrieved) in
/-- What a round adds: the turn, and messages that answer the identifiers of the calls. -/
theorem exists_roundMessages (round : ℕ)
    (hparse : parseCcrToolCalls format repr provider response = some (calls, []))
    (hcalls : calls ≠ []) :
    ∃ turn back, assistantTurn provider response = some turn ∧
      roundMessages format provider retrieved round response calls = some (turn ++ back) ∧
      answeredIds provider back =
        (calls.map CCRToolCall.toolCallId).map fun id => some (.str id) := by
  obtain ⟨found, hextract, hfound, -⟩ := parse_native hparse hcalls
  obtain ⟨turn, hturn⟩ := exists_assistantTurn hextract hfound
  obtain ⟨back, hback, hids⟩ := exists_resultMessages format
    (extractToolCalls_native hextract hfound).1
    (calls.mapIdx (executeRetrieval retrieved round))
  refine ⟨turn, back, hturn, ?_, ?_⟩
  · rw [roundMessages, hturn, Option.bind_eq_bind, Option.bind_some]
    dsimp only
    rw [hback]
    rfl
  · rw [hids]
    apply List.ext_getElem?
    intro place
    rw [List.getElem?_map, List.getElem?_mapIdx, List.getElem?_map, List.getElem?_map,
      Option.map_map, Option.map_map]
    rfl

/-- The calls of a round are known by texts, or their results do not match. -/
theorem isRound_iff {turn back : List Value}
    (hparse : parseCcrToolCalls format repr provider response = some (calls, []))
    (hcalls : calls ≠ []) (hturn : assistantTurn provider response = some turn)
    (hback : answeredIds provider back =
      (calls.map CCRToolCall.toolCallId).map fun id => some (.str id)) :
    IsRound format provider response (turn ++ back) ↔ TextIds provider response := by
  obtain ⟨found, hextract, hfound, hsplit⟩ := parse_native hparse hcalls
  have hids := ids_of_splitCalls hsplit
  rw [← Function.comp_def, ← List.map_map] at hids
  have hiff := map_callId_iff hids
  rw [← hback] at hiff
  constructor
  · rintro ⟨found', turn', back', hextract', -, -, hturn', hadded, -, hanswered⟩
    cases hextract.symm.trans hextract'
    cases hturn.symm.trans hturn'
    rw [← List.append_cancel_left hadded] at hanswered
    intro found' hextract'
    cases hextract.symm.trans hextract'
    exact hiff.mp hanswered
  · intro htexts
    have hknown := htexts found hextract
    refine ⟨found, turn, back, hextract, hfound, resolvable_of_splitCalls hsplit, hturn, rfl,
      fun call hcall => ?_, hiff.mpr hknown⟩
    obtain ⟨id, hid⟩ := hknown call hcall
    rw [hid]
    rfl

/-! ## The status of a response -/

theorem judged_iff :
    Judged format repr provider response ↔
      ¬OnlyMalformed format repr provider response ∧
        ¬Unreadable format repr provider response := by
  rw [Judged, residualCcrStatus, OnlyMalformed, Unreadable]
  cases hparse : parseCcrToolCalls format repr provider response with
  | none =>
      refine ⟨fun hjudged => ⟨?_, ?_⟩, fun hcondition => ?_⟩
      · rintro ⟨⟨others, hothers⟩, -⟩
        cases hothers
      · exact fun hnone => nomatch hjudged.mpr hnone.2
      · exact ⟨fun hsome => (nomatch hsome), fun hnot => absurd ⟨rfl, hnot⟩ hcondition.2⟩
  | some parsed =>
      obtain ⟨calls, others⟩ := parsed
      cases calls with
      | nil =>
          have hreadable : ¬(some (([] : List CCRToolCall), others) = none ∧
              ¬Remains provider response) := fun hnone => nomatch hnone.1
          refine ⟨fun hjudged => ⟨fun hmalformed => hjudged.mp rfl hmalformed.2, hreadable⟩, ?_⟩
          exact fun hcondition => ⟨fun _ hremains =>
            hcondition.1 ⟨⟨others, rfl⟩, hremains⟩, fun _ => rfl⟩
      | cons call calls =>
          have hremains := remains_of_parse hparse (List.cons_ne_nil call calls)
          refine ⟨fun _ => ⟨?_, fun hnone => nomatch hnone.1⟩, fun _ => ⟨?_, ?_⟩⟩
          · rintro ⟨⟨others, hothers⟩, -⟩
            cases hothers
          · intro hresolved
            cases others with
            | nil => cases hresolved
            | cons other others => cases hresolved
          · exact fun hnot => absurd hremains hnot

/-! ## Runs -/

variable {answers : ℕ → Option Value} {current : ℕ}

/-- What a list holds after one more round. -/
theorem getD_modify {lists : Lists} (hcurrent : current < lists.length) (added : List Value) :
    (lists.modify current (· ++ added)).getD current [] = lists.getD current [] ++ added := by
  rw [List.getD_eq_getElem?_getD, List.getD_eq_getElem?_getD, List.getElem?_modify_eq,
    List.getElem?_eq_getElem hcurrent]
  rfl

theorem handleRounds_calls (left round : ℕ) (response : Value) (lists : Lists) :
    (handleRounds format repr provider retrieved answers current left round response
      lists).calls.length ≤ left := by
  induction left generalizing round response lists with
  | zero => exact le_rfl
  | succ left ih =>
      rw [handleRounds]
      split
      · exact Nat.zero_le _
      · exact Nat.zero_le _
      · exact Nat.zero_le _
      · split
        · exact Nat.zero_le _
        · dsimp only
          split
          · exact Nat.succ_le_succ (Nat.zero_le left)
          · exact Nat.succ_le_succ (ih ..)

/-- The loop writes to its own list only. -/
theorem handleRounds_lists (left round : ℕ) (response : Value) (lists : Lists) {place : ℕ}
    (hplace : place ≠ current) :
    (handleRounds format repr provider retrieved answers current left round response
      lists).lists[place]? = lists[place]? := by
  induction left generalizing round response lists with
  | zero => rfl
  | succ left ih =>
      rw [handleRounds]
      split
      · rfl
      · rfl
      · rfl
      · next calls hparse =>
        split
        · rfl
        · next added hadded =>
          have hmodify : (lists.modify current (· ++ added))[place]? = lists[place]? :=
            List.getElem?_modify_ne _ lists hplace.symm
          dsimp only
          split
          · exact hmodify
          · exact (ih ..).trans hmodify

theorem conforms_cons {turn back base : List Value} {round : ℕ} {sent : List (List Value)}
    (hround : IsRound format provider response (turn ++ back) ↔ TextIds provider response) :
    Conforms format provider answers base round response ((base ++ (turn ++ back)) :: sent) ↔
      TextIds provider response ∧
        match answers round with
        | some next =>
            Conforms format provider answers (base ++ (turn ++ back)) (round + 1) next sent
        | none => sent = [] := by
  rw [Conforms, ← hround]
  constructor
  · rintro ⟨added, hadded, hconforms⟩
    rw [← List.append_cancel_left hadded] at hconforms
    exact hconforms
  · exact fun hconforms => ⟨turn ++ back, rfl, hconforms⟩

/-- A turn that is returned although rounds are left. -/
theorem stopped_iff {parsed : List CCRToolCall × List Value} {base : List Value} {round : ℕ}
    (hparse : parseCcrToolCalls format repr provider response = some parsed) :
    (Conforms format provider answers base round response [] ∧
        ∀ returned, some response = some returned → Judged format repr provider returned) ↔
      ¬OnlyMalformed format repr provider response := by
  have hreadable : ¬Unreadable format repr provider response := by
    rintro ⟨hnone, -⟩
    cases hparse.symm.trans hnone
  constructor
  · rintro ⟨-, hjudged⟩
    exact (judged_iff.mp (hjudged response rfl)).1
  · rintro hmalformed
    refine ⟨trivial, fun returned hreturned => ?_⟩
    cases hreturned
    exact judged_iff.mpr ⟨hmalformed, hreadable⟩

variable (format repr provider retrieved answers) in
/-- The rounds of a conversation and its end are right when its turns are. -/
theorem handleRounds_iff (left round : ℕ) (response : Value) (lists : Lists)
    (hcurrent : current < lists.length) :
    (Conforms format provider answers (lists.getD current []) round response
          (handleRounds format repr provider retrieved answers current left round response
            lists).calls ∧
        ∀ returned, (handleRounds format repr provider retrieved answers current left round
          response lists).returned = some returned → Judged format repr provider returned) ↔
      Settled format repr provider answers left round response := by
  induction left generalizing round response lists with
  | zero =>
      rw [Settled, ← judged_iff]
      exact ⟨fun hrun => hrun.2 response rfl,
        fun hjudged => ⟨trivial, fun returned hreturned => Option.some_inj.mp hreturned ▸ hjudged⟩⟩
  | succ left ih =>
      rw [handleRounds, Settled, continues]
      cases hparse : parseCcrToolCalls format repr provider response with
      | none =>
          refine iff_of_true ⟨trivial, fun returned hreturned => nomatch hreturned⟩ ?_
          rw [if_neg Bool.false_ne_true]
          rintro ⟨⟨others, hothers⟩, -⟩
          cases hparse.symm.trans hothers
      | some parsed =>
          match parsed with
          | ([], others) => exact (stopped_iff hparse).trans (by rw [if_neg Bool.false_ne_true])
          | (call :: calls, other :: others) =>
              exact (stopped_iff hparse).trans (by rw [if_neg Bool.false_ne_true])
          | (call :: calls, []) =>
              have hcalls := List.cons_ne_nil call calls
              obtain ⟨turn, back, hturn, hadded, hback⟩ :=
                exists_roundMessages retrieved round hparse hcalls
              have hround := isRound_iff hparse hcalls hturn hback
              dsimp only
              rw [hadded, if_pos rfl]
              dsimp only
              rw [getD_modify hcurrent]
              have hlength : current < (lists.modify current (· ++ (turn ++ back))).length :=
                (List.length_modify ..).symm ▸ hcurrent
              cases hanswer : answers round with
              | none =>
                  dsimp only
                  rw [conforms_cons hround, hanswer]
                  refine ⟨fun hrun => ⟨hrun.1.1, fun next hnext => nomatch hnext⟩,
                    fun hsettled => ⟨⟨hsettled.1, rfl⟩, fun returned hreturned => ?_⟩⟩
                  cases hreturned
                  refine judged_iff.mpr ⟨fun hmalformed => ?_, fun hunreadable => ?_⟩
                  · obtain ⟨others, hothers⟩ := hmalformed.1
                    cases hparse.symm.trans hothers
                  · cases hparse.symm.trans hunreadable.1
              | some next =>
                  dsimp only
                  have hrest := ih (round + 1) next _ hlength
                  rw [getD_modify hcurrent] at hrest
                  rw [conforms_cons hround, hanswer]
                  dsimp only
                  rw [and_assoc, hrest]
                  exact and_congr_right fun _ =>
                    ⟨fun hsettled other hother => Option.some_inj.mp hother ▸ hsettled,
                      fun hsettled => hsettled next rfl⟩

end

section

variable (format : FloatFormat) (repr : Value → Text) (provider : Provider)
variable (retrieved : ℕ → ℕ → Text → Text) (answers : ℕ → Option Value)
variable (config : ResponseHandlerConfig) (response : Value) (messages : ℕ) (lists : Lists)

/-- A response is handled by the protocol exactly when the turn that ends the rounds is not
taken for one without retrievals, and the results of the turns before it match their calls. -/
theorem handleResponse_protocol :
    FollowsProtocol format repr provider answers config response messages lists
        (handleResponse format repr provider retrieved answers config response messages lists) ↔
      Settled format repr provider answers
        (if config.enabled then config.maxRetrievalRounds.toNat else 0) 0 response := by
  rw [handleResponse]
  cases config.enabled with
  | false =>
      rw [if_neg Bool.false_ne_true, if_neg Bool.false_ne_true, Settled, ← judged_iff]
      constructor
      · exact fun hprotocol => hprotocol.judged response rfl
      · exact fun hjudged => ⟨Nat.zero_le _, trivial, fun _ _ => rfl,
          fun returned hreturned => Option.some_inj.mp hreturned ▸ hjudged⟩
  | true =>
      rw [if_pos rfl, if_pos rfl]
      have hlength : lists.length < (lists ++ [lists.getD messages []]).length := by
        rw [List.length_append]
        exact Nat.lt_succ_self lists.length
      have hbase : (lists ++ [lists.getD messages []]).getD lists.length [] =
          lists.getD messages [] := by
        rw [List.getD_eq_getElem?_getD, List.getElem?_concat_length]
        rfl
      have hruns := handleRounds_iff format repr provider retrieved answers
        config.maxRetrievalRounds.toNat 0 response _ hlength
      rw [hbase] at hruns
      rw [← hruns]
      constructor
      · exact fun hprotocol => ⟨hprotocol.conforms, hprotocol.judged⟩
      · exact fun hrun => ⟨handleRounds_calls .., hrun.1, fun place hplace =>
          (handleRounds_lists _ _ _ _ (Nat.ne_of_lt hplace)).trans
            (List.getElem?_append_left hplace), hrun.2⟩

end

/-- A response with one retrieval, which has no hash. -/
def hashlessCall : Value :=
  .dict [entry "content" (.list [.dict [entry "type" (constant "tool_use"),
    entry "id" (constant "call"), entry "name" (constant "legroom_retrieve"),
    entry "input" (.dict [])]])]

/-- The only retrieval of the response remains, and its status is that none does. -/
theorem hashlessCall_resolved :
    ¬FollowsProtocol ⟨fun _ => [], fun _ => .nan 0⟩ (fun _ => []) .anthropic (fun _ => none)
      ⟨true, 3⟩ hashlessCall 0 [[]]
      (handleResponse ⟨fun _ => [], fun _ => .nan 0⟩ (fun _ => []) .anthropic
        (fun _ _ _ => []) (fun _ => none) ⟨true, 3⟩ hashlessCall 0 [[]]) := by
  intro hprotocol
  have hremains : Remains .anthropic hashlessCall :=
    ⟨_, rfl, _, List.mem_singleton_self _, by decide⟩
  exact (hprotocol.judged hashlessCall rfl).mp rfl hremains

end Legroom.Ccr
