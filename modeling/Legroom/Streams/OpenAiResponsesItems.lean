import Legroom.Streams.OpenAiResponses

/-!
# Reassembly of Responses items

What an event does to the items depends on nothing but its kind and its payload, and
it does so at one id.  The deltas of an id add up as long as no `output_item.added`
comes behind them: that event starts the item afresh.  Names matter only through
their kind, but the item and part events are known by their bare names only.
-/

namespace Legroom.Streams.OpenAiResponses

open Utf8 Json Sse Routing

/-! ## Names -/

/-- The item-level events by their bare names. -/
def bareNames : List String :=
  ["output_item.added", "output_item.done", "content_part.added", "content_part.done",
    "output_text.delta", "output_text.done", "function_call_arguments.delta",
    "function_call_arguments.done", "reasoning_summary.delta", "reasoning_summary.done",
    "reasoning_summary_text.delta", "reasoning_summary_text.done"]

def prefixed (name : String) : String := "response." ++ name

/-- The names of item-level events that the match does not have. -/
def unknownNames : List Utf8String :=
  ["response.output_item.added", "response.output_item.done", "response.content_part.added",
    "response.content_part.done", "reasoning_summary_text.delta",
    "reasoning_summary_text.done"].map constant

/-- Two names of one event: the same, or its bare and its prefixed name. -/
def SameName (left right : Option Utf8String) : Prop :=
  left = right ∨ ∃ name ∈ bareNames,
    (left = some (constant name) ∨ left = some (constant (prefixed name))) ∧
      (right = some (constant name) ∨ right = some (constant (prefixed name)))

/-- One event under one or the other name. -/
structure SameEvent (left right : SseEvent) : Prop where
  name : SameName left.eventName right.eventName
  data : left.data = right.data

def Known (event : SseEvent) : Prop :=
  ∀ name ∈ event.eventName, name ∉ unknownNames

instance (event : SseEvent) : Decidable (Known event) :=
  inferInstanceAs (Decidable (∀ name ∈ event.eventName, name ∉ unknownNames))

theorem kindOf_prefixed : ∀ name ∈ bareNames, constant name ∉ unknownNames →
    constant (prefixed name) ∉ unknownNames →
      kindOf (constant (prefixed name)) = kindOf (constant name) := by
  decide +kernel

theorem apply_sameEvent {left right : SseEvent} (hsame : SameEvent left right)
    (hleft : Known left) (hright : Known right) (state : ResponseState) :
    state.apply left = state.apply right := by
  have hkind : left.eventName.map kindOf = right.eventName.map kindOf := by
    rcases hsame.name with hname | ⟨name, hmem, hbare | hbeginsed, hbare' | hbeginsed'⟩
    · rw [hname]
    · rw [hbare, hbare']
    · rw [hbare, hbeginsed', Option.map_some, Option.map_some,
        kindOf_prefixed name hmem (hleft _ hbare) (hright _ hbeginsed')]
    · rw [hbeginsed, hbare', Option.map_some, Option.map_some,
        kindOf_prefixed name hmem (hright _ hbare') (hleft _ hbeginsed)]
    · rw [hbeginsed, hbeginsed']
  rw [ResponseState.apply, ResponseState.apply, hsame.data]
  cases hnameLeft : left.eventName with
  | none =>
      cases hnameRight : right.eventName with
      | none => rfl
      | some name => simp [hnameLeft, hnameRight] at hkind
  | some name =>
      cases hnameRight : right.eventName with
      | none => simp [hnameLeft, hnameRight] at hkind
      | some other =>
          rw [hnameLeft, hnameRight] at hkind
          simp only [Option.some.inj hkind]

/-- Runs under one and under the other names reach the same state. -/
theorem applyAll_sameEvents {left right : List SseEvent}
    (hsame : List.Forall₂ SameEvent left right) (hleft : ∀ event ∈ left, Known event)
    (hright : ∀ event ∈ right, Known event) (state : ResponseState) :
    state.applyAll left = state.applyAll right := by
  induction hsame generalizing state with
  | nil => rfl
  | @cons first second left right hevent hmore ih =>
      rw [ResponseState.applyAll_cons, ResponseState.applyAll_cons, ResponseState.after,
        apply_sameEvent hevent (hleft first List.mem_cons_self)
          (hright second List.mem_cons_self), ← ResponseState.after]
      exact ih (fun event hmem => hleft event (List.mem_cons_of_mem _ hmem))
        (fun event hmem => hright event (List.mem_cons_of_mem _ hmem)) _

/-! ## One event -/

/-- What an event does to the item at its id. -/
inductive ItemAction where
  | added (item : Value)
  | done (item : Value)
  | partAdded (index : ℕ) (part : Value)
  | partDone (index : ℕ)
  | textDelta (delta : Utf8String) (index : Option ℕ)
  | argumentsDelta (delta : Utf8String)
  | argumentsDone (arguments : Utf8String)
  | summaryDelta (delta : Utf8String)

namespace ItemAction

def act : ItemAction → Option ItemState → Option ItemState
  | .added item, _ => some (ItemState.added item)
  | .done item, entry => some ((entry.getD default).done item)
  | .partAdded index part, entry => some ((entry.getD default).partAdded index part)
  | .partDone index, entry => entry.map (·.partDone index)
  | .textDelta delta index, entry => some ((entry.getD default).textDelta delta index)
  | .argumentsDelta delta, entry => some ((entry.getD default).argumentsDelta delta)
  | .argumentsDone arguments, entry => some ((entry.getD default).argumentsDone arguments)
  | .summaryDelta delta, entry => some ((entry.getD default).summaryDelta delta)

def actOn (items : Table Utf8String ItemState) (id : Utf8String) :
    ItemAction → Table Utf8String ItemState
  | .added item => items.insert id (ItemState.added item)
  | .done item => items.entry id (·.done item)
  | .partAdded index part => items.entry id (·.partAdded index part)
  | .partDone index => items.getMut id (·.partDone index)
  | .textDelta delta index => items.entry id (·.textDelta delta index)
  | .argumentsDelta delta => items.entry id (·.argumentsDelta delta)
  | .argumentsDone arguments => items.entry id (·.argumentsDone arguments)
  | .summaryDelta delta => items.entry id (·.summaryDelta delta)

theorem lookup_actOn (items : Table Utf8String ItemState) (id key : Utf8String)
    (action : ItemAction) :
    (action.actOn items id).lookup key =
      if id = key then action.act (items.lookup key) else items.lookup key := by
  cases action with
  | added item => exact items.lookup_insert_eq id key _
  | done item => exact items.lookup_entry id key (·.done item)
  | partAdded index part => exact items.lookup_entry id key (·.partAdded index part)
  | partDone index => exact items.lookup_getMut id key (·.partDone index)
  | textDelta delta index => exact items.lookup_entry id key (·.textDelta delta index)
  | argumentsDelta delta => exact items.lookup_entry id key (·.argumentsDelta delta)
  | argumentsDone arguments => exact items.lookup_entry id key (·.argumentsDone arguments)
  | summaryDelta delta => exact items.lookup_entry id key (·.summaryDelta delta)

end ItemAction

/-- The action of a payload that is read as an event of this kind. -/
def actionOf (value : Value) : Option EventKind → Option (Utf8String × ItemAction)
  | some .outputItemAdded =>
      (itemOf value).toOption.map fun (id, item) => (id, .added item)
  | some .outputItemDone =>
      (itemOf value).toOption.map fun (id, item) => (id, .done item)
  | some .contentPartAdded =>
      (value.getStr "item_id").bind fun id => (partIndex value).bind fun index =>
        (value.get (constant "part")).map fun part => (id, .partAdded index part)
  | some .contentPartDone =>
      (value.getStr "item_id").bind fun id => (partIndex value).map fun index =>
        (id, .partDone index)
  | some .outputTextDelta =>
      (value.getStr "item_id").bind fun id => (value.getStr "delta").map fun delta =>
        (id, .textDelta delta (partIndex value))
  | some .functionCallArgumentsDelta =>
      (value.getStr "item_id").bind fun id => (value.getStr "delta").map fun delta =>
        (id, .argumentsDelta delta)
  | some .functionCallArgumentsDone =>
      (value.getStr "item_id").bind fun id => (value.getStr "arguments").map fun arguments =>
        (id, .argumentsDone arguments)
  | some .reasoningSummaryDelta =>
      (value.getStr "item_id").bind fun id => (value.getStr "delta").map fun delta =>
        (id, .summaryDelta delta)
  | _ => none

def itemAction (event : SseEvent) : Option (Utf8String × ItemAction) :=
  event.eventName.bind fun name =>
    (parseJson event.data).toOption.bind fun value => actionOf value (kindOf name)

def actOn (items : Table Utf8String ItemState) (event : SseEvent) :
    Table Utf8String ItemState :=
  match itemAction event with
  | some (id, action) => action.actOn items id
  | none => items

variable (state : ResponseState)

theorem items_captureEnvelopeMetadata (value : Value) :
    (state.captureEnvelopeMetadata value).items = state.items := by
  rw [ResponseState.captureEnvelopeMetadata]
  split <;> rfl

/-- The events that are about the response as a whole. -/
def envelopeKinds : List (Option EventKind) :=
  [some .responseCreated, some .responseCompleted, some .responseFailed, some .responseIncomplete]

/-- The handler of another event changes nothing but the items. -/
theorem handle_eq (value : Value) {kind : Option EventKind} (hkind : kind ∉ envelopeKinds) :
    (state.handle value kind).toOption.getD state = { state with
      items := match actionOf value kind with
        | some (id, action) => action.actOn state.items id
        | none => state.items } := by
  cases kind with
  | none => rfl
  | some kind =>
      cases kind with
      | responseCreated | responseCompleted | responseFailed | responseIncomplete =>
          exact absurd (by simp [envelopeKinds]) hkind
      | responseInProgress | outputTextDone | reasoningSummaryDone => rfl
      | outputItemAdded =>
          rw [ResponseState.handle, ResponseState.onOutputItemAdded, actionOf]
          cases itemOf value <;> rfl
      | outputItemDone =>
          rw [ResponseState.handle, ResponseState.onOutputItemDone, actionOf]
          cases itemOf value <;> rfl
      | contentPartAdded =>
          rw [ResponseState.handle, ResponseState.onContentPartAdded, actionOf, itemId]
          cases value.getStr "item_id" with
          | none => rfl
          | some id =>
              cases partIndex value with
              | none => rfl
              | some index => cases value.get (constant "part") <;> rfl
      | contentPartDone =>
          rw [ResponseState.handle, ResponseState.onContentPartDone, actionOf, itemId]
          cases value.getStr "item_id" with
          | none => rfl
          | some id => cases partIndex value <;> rfl
      | outputTextDelta =>
          rw [ResponseState.handle, ResponseState.onOutputTextDelta, actionOf, itemId, deltaOf]
          cases value.getStr "item_id" with
          | none => rfl
          | some id => cases value.getStr "delta" <;> rfl
      | functionCallArgumentsDelta =>
          rw [ResponseState.handle, ResponseState.onFunctionCallArgumentsDelta, actionOf,
            itemId, deltaOf]
          cases value.getStr "item_id" with
          | none => rfl
          | some id => cases value.getStr "delta" <;> rfl
      | functionCallArgumentsDone =>
          rw [ResponseState.handle, ResponseState.onFunctionCallArgumentsDone, actionOf, itemId]
          cases value.getStr "item_id" with
          | none => rfl
          | some id => cases value.getStr "arguments" <;> rfl
      | reasoningSummaryDelta =>
          rw [ResponseState.handle, ResponseState.onReasoningSummaryDelta, actionOf, itemId,
            deltaOf]
          cases value.getStr "item_id" with
          | none => rfl
          | some id => cases value.getStr "delta" <;> rfl

/-- The items after a handler. -/
theorem items_handle (value : Value) (kind : Option EventKind) :
    ((state.handle value kind).toOption.getD state).items =
      match actionOf value kind with
      | some (id, action) => action.actOn state.items id
      | none => state.items := by
  by_cases hkind : kind ∈ envelopeKinds
  · simp only [envelopeKinds, List.mem_cons, List.not_mem_nil, or_false] at hkind
    rcases hkind with rfl | rfl | rfl | rfl
    · rw [ResponseState.handle, ResponseState.onResponseCreated]
      cases value.get (constant "response") <;> rfl
    all_goals exact items_captureEnvelopeMetadata _ _
  · rw [handle_eq state value hkind]

theorem items_after (event : SseEvent) : (state.after event).items = actOn state.items event := by
  rw [ResponseState.after, ResponseState.apply, actOn, itemAction]
  cases event.eventName with
  | none => rfl
  | some name =>
      cases parseJson event.data with
      | error error => rfl
      | ok value => exact items_handle state value (kindOf name)

/-! ## What accumulates -/

/-- The texts that accumulate in an item. -/
inductive Field where
  | outputText
  | reasoningSummary
  | functionCallArguments

def ItemState.field (state : ItemState) : Field → Utf8String
  | .outputText => state.outputText
  | .reasoningSummary => state.reasoningSummary
  | .functionCallArguments => state.functionCallArguments

def fieldOf (field : Field) (entry : Option ItemState) : Utf8String :=
  (entry.map fun item => item.field field).getD .empty

namespace ResponseState

/-- The accumulated text of an id; empty without an item. -/
def field (state : ResponseState) (field : Field) (id : Utf8String) : Utf8String :=
  fieldOf field (state.items.lookup id)

end ResponseState

/-- The delta that an event holds for a field of an id. -/
def deltaFor (field : Field) (id : Utf8String) (event : SseEvent) : Option Utf8String :=
  match itemAction event with
  | some (found, action) =>
      if found = id then
        match field, action with
        | .outputText, .textDelta delta _ => some delta
        | .reasoningSummary, .summaryDelta delta => some delta
        | .functionCallArguments, .argumentsDelta delta => some delta
        | _, _ => none
      else none
  | none => none

/-- All deltas for a field of an id, one behind the other. -/
def deltas (field : Field) (id : Utf8String) (events : List SseEvent) : Utf8String :=
  Utf8String.concat (events.filterMap (deltaFor field id))

/-- The full arguments that a done event supplies for an id. -/
def fullArguments (id : Utf8String) (event : SseEvent) : Option Utf8String :=
  match itemAction event with
  | some (found, .argumentsDone arguments) =>
      if found = id ∧ arguments ≠ .empty then some arguments else none
  | _ => none

/-- The item of an `output_item.added`, if there is one, has no text yet. -/
def Fresh (state : ResponseState) (event : SseEvent) : Prop :=
  ∀ id item, itemAction event = some (id, .added item) →
    ∀ field, state.field field id = .empty

/-- Every event has a known name, and adds no item that has text already. -/
def Clean : ResponseState → List SseEvent → Prop
  | _, [] => True
  | state, event :: events => Known event ∧ Fresh state event ∧ Clean (state.after event) events

variable {state : ResponseState} {events : List SseEvent}

theorem Clean.known (hclean : Clean state events) : ∀ event ∈ events, Known event := by
  induction events generalizing state with
  | nil => simp
  | cons event events ih =>
      intro other hother
      rcases List.mem_cons.mp hother with rfl | hother
      · exact hclean.1
      · exact ih hclean.2.2 other hother

/-! ## One event and one field -/

theorem fieldOf_act (action : ItemAction) (entry : Option ItemState) (field : Field) :
    fieldOf field (action.act entry) =
      match action, field with
      | .added _, _ => .empty
      | .textDelta delta _, .outputText => fieldOf .outputText entry ++ delta
      | .summaryDelta delta, .reasoningSummary => fieldOf .reasoningSummary entry ++ delta
      | .argumentsDelta delta, .functionCallArguments =>
          fieldOf .functionCallArguments entry ++ delta
      | .argumentsDone arguments, .functionCallArguments =>
          if fieldOf .functionCallArguments entry = .empty then arguments
          else fieldOf .functionCallArguments entry
      | _, field => fieldOf field entry := by
  cases action with
  | added item => cases field <;> rfl
  | done item => cases field <;> cases entry <;> rfl
  | partAdded index part => cases field <;> cases entry <;> rfl
  | partDone index => cases field <;> cases entry <;> rfl
  | textDelta delta index => cases field <;> cases entry <;> rfl
  | argumentsDelta delta => cases field <;> cases entry <;> rfl
  | summaryDelta delta => cases field <;> cases entry <;> rfl
  | argumentsDone arguments =>
      rw [ItemAction.act, ItemState.argumentsDone]
      have hold : (entry.getD default).functionCallArguments =
          fieldOf .functionCallArguments entry := by cases entry <;> rfl
      rw [hold]
      cases field <;> split_ifs <;> cases entry <;> rfl

theorem field_after (event : SseEvent) (field : Field) (id : Utf8String) :
    (state.after event).field field id =
      match itemAction event with
      | some (found, action) =>
          if found = id then fieldOf field (action.act (state.items.lookup id))
          else state.field field id
      | none => state.field field id := by
  rw [ResponseState.field, items_after, actOn]
  rcases itemAction event with _ | ⟨found, action⟩
  · rfl
  · simp only [ItemAction.lookup_actOn]
    split_ifs <;> rfl

variable {event : SseEvent} {field : Field} {id : Utf8String}

/-- A delta is added behind what is there. -/
theorem field_after_delta {delta : Utf8String} (hdelta : deltaFor field id event = some delta) :
    (state.after event).field field id = state.field field id ++ delta := by
  rw [field_after]
  rw [deltaFor] at hdelta
  rcases haction : itemAction event with _ | ⟨found, action⟩
  · simp [haction] at hdelta
  · simp only [haction] at hdelta ⊢
    split_ifs at hdelta ⊢
    rw [fieldOf_act]
    cases field <;> cases action <;> cases hdelta <;> rfl

theorem field_after_done {arguments : Utf8String} (hfull : fullArguments id event = some
      arguments) :
    (state.after event).field .functionCallArguments id =
      if state.field .functionCallArguments id = .empty then arguments
      else state.field .functionCallArguments id := by
  rw [field_after]
  rw [fullArguments] at hfull
  split at hfull
  · rename_i found full haction
    split_ifs at hfull with hfound
    cases hfull
    simp only [haction, if_pos hfound.1, fieldOf_act]
    rfl
  · cases hfull

/-- An event that neither holds a delta nor supplies arguments changes nothing. -/
theorem field_after_keep (hfresh : Fresh state event) (hdelta : deltaFor field id event = none)
    (hfull : field ≠ .functionCallArguments ∨ fullArguments id event = none) :
    (state.after event).field field id = state.field field id := by
  rw [field_after]
  rw [deltaFor] at hdelta
  rw [fullArguments] at hfull
  rcases haction : itemAction event with _ | ⟨found, action⟩
  · rfl
  · by_cases hfound : found = id
    · subst hfound
      simp only [haction, if_pos] at hdelta hfull ⊢
      rw [fieldOf_act]
      cases action with
      | added item => exact (hfresh found item haction field).symm
      | argumentsDone arguments =>
          cases field with
          | functionCallArguments =>
              have harguments : arguments = .empty := by
                by_contra hne
                simp [hne] at hfull
              subst harguments
              simp only
              split_ifs with hempty
              · exact hempty.symm
              · rfl
          | _ => rfl
      | _ => cases field <;> first | rfl | cases hdelta
    · simp only [if_neg hfound]

/-! ## Runs and fields -/

theorem deltas_cons (field : Field) (id : Utf8String) (event : SseEvent)
    (events : List SseEvent) :
    deltas field id (event :: events) =
      Utf8String.concat (deltaFor field id event).toList ++ deltas field id events := by
  rw [deltas, List.filterMap_cons]
  cases deltaFor field id event with
  | none => rfl
  | some delta => simp [deltas]

/-- As long as nothing but deltas reaches a field, they add up. -/
theorem field_applyAll (hclean : Clean state events)
    (hdeltas : field ≠ .functionCallArguments ∨ ∀ event ∈ events, fullArguments id event = none) :
    (state.applyAll events).field field id =
      state.field field id ++ deltas field id events := by
  induction events generalizing state with
  | nil => exact (Utf8String.append_empty _).symm
  | cons event events ih =>
      obtain ⟨-, hfresh, hlater⟩ := hclean
      have hmore : field ≠ .functionCallArguments ∨
          ∀ event ∈ events, fullArguments id event = none :=
        hdeltas.imp_right fun hnone other hother => hnone other (List.mem_cons_of_mem _ hother)
      rw [ResponseState.applyAll_cons, ih hlater hmore, deltas_cons, ← Utf8String.append_assoc]
      cases hdelta : deltaFor field id event with
      | some delta => simp [field_after_delta hdelta]
      | none =>
          rw [field_after_keep hfresh hdelta
            (hdeltas.imp_right fun hnone => hnone event List.mem_cons_self)]
          simp

theorem append_eq_empty {left right : Utf8String} (hempty : left ++ right = .empty) :
    left = .empty :=
  Utf8String.ext' (List.append_eq_nil_iff.mp (congrArg Utf8String.bytes hempty)).1

/-- Once there are arguments, only deltas change them. -/
theorem arguments_applyAll (hclean : Clean state events)
    (hsome : state.field .functionCallArguments id ≠ .empty) :
    (state.applyAll events).field .functionCallArguments id =
      state.field .functionCallArguments id ++ deltas .functionCallArguments id events := by
  induction events generalizing state with
  | nil => exact (Utf8String.append_empty _).symm
  | cons event events ih =>
      obtain ⟨-, hfresh, hlater⟩ := hclean
      have hafter : (state.after event).field .functionCallArguments id =
          state.field .functionCallArguments id ++
            Utf8String.concat (deltaFor .functionCallArguments id event).toList := by
        cases hdelta : deltaFor .functionCallArguments id event with
        | some delta => simp [field_after_delta hdelta]
        | none =>
            cases hfull : fullArguments id event with
            | none => simp [field_after_keep hfresh hdelta (Or.inr hfull)]
            | some arguments => simp [field_after_done hfull, hsome]
      rw [ResponseState.applyAll_cons, ih hlater, hafter, deltas_cons, Utf8String.append_assoc]
      rw [hafter]
      exact fun hempty => hsome (append_eq_empty hempty)

theorem applyAll_append (front back : List SseEvent) :
    state.applyAll (front ++ back) = (state.applyAll front).applyAll back := by
  rw [ResponseState.applyAll, applyAll, List.foldl_append]
  rfl

theorem Clean.append {front back : List SseEvent} (hclean : Clean state (front ++ back)) :
    Clean state front ∧ Clean (state.applyAll front) back := by
  induction front generalizing state with
  | nil => exact ⟨trivial, hclean⟩
  | cons event front ih =>
      obtain ⟨hknown, hfresh, hlater⟩ := hclean
      exact ⟨⟨hknown, hfresh, (ih hlater).1⟩, (ih hlater).2⟩

/-! ## Reassembly -/

/-- The texts of an id are the concatenations of their deltas.  Only arguments that a
done event supplies before any delta came stand in front of what follows. -/
structure Accumulated (state : ResponseState) (events : List SseEvent)
    (id : Utf8String) : Prop where
  outputText : state.field .outputText id = deltas .outputText id events
  reasoningSummary : state.field .reasoningSummary id = deltas .reasoningSummary id events
  functionCallArguments :
    (∀ front done back, events = front ++ done :: back → fullArguments id done ≠ none →
      deltas .functionCallArguments id front ≠ .empty) →
    state.field .functionCallArguments id = deltas .functionCallArguments id events
  supplied : ∀ front done back full, events = front ++ done :: back →
    (∀ event ∈ front, fullArguments id event = none) →
    deltas .functionCallArguments id front = .empty → fullArguments id done = some full →
    state.field .functionCallArguments id = full ++ deltas .functionCallArguments id back

theorem deltas_append (field : Field) (id : Utf8String) (front back : List SseEvent) :
    deltas field id (front ++ back) = deltas field id front ++ deltas field id back := by
  rw [deltas, List.filterMap_append, Utf8String.concat_append]
  rfl

theorem accumulated_of_clean (hclean : Clean .new events) (id : Utf8String) :
    Accumulated (ResponseState.new.applyAll events) events id where
  outputText := field_applyAll hclean (Or.inl (by simp))
  reasoningSummary := field_applyAll hclean (Or.inl (by simp))
  functionCallArguments := by
    intro hlate
    cases hfound : events.find? fun event => (fullArguments id event).isSome with
    | none =>
        refine field_applyAll hclean (Or.inr fun event hevent => ?_)
        simpa using List.find?_eq_none.mp hfound event hevent
    | some done =>
        -- The deltas in front of the first done event keep it from being heard.
        obtain ⟨hdone, front, back, rfl, hfirst⟩ := List.find?_eq_some_iff_append.mp hfound
        have hnone : ∀ event ∈ front, fullArguments id event = none := by
          intro event hevent
          simpa using hfirst event hevent
        obtain ⟨hfront, hback⟩ := hclean.append
        have hbefore : (ResponseState.new.applyAll front).field .functionCallArguments id =
            deltas .functionCallArguments id front := field_applyAll hfront (Or.inr hnone)
        have hsome := hlate front done back rfl (Option.isSome_iff_ne_none.mp hdone)
        rw [applyAll_append, arguments_applyAll hback (by rwa [hbefore]), hbefore,
          deltas_append]
  supplied := by
    rintro front done back full rfl hnone hempty hfull
    obtain ⟨hfront, -, -, hback⟩ := hclean.append
    have hbefore : (ResponseState.new.applyAll front).field .functionCallArguments id =
        .empty := by
      rw [field_applyAll hfront (Or.inr hnone), hempty]
      rfl
    have hafter : ((ResponseState.new.applyAll front).after done).field
        .functionCallArguments id = full := by
      rw [field_after_done hfull, if_pos hbefore]
    have hfullNe : full ≠ .empty := by
      rw [fullArguments] at hfull
      split at hfull
      · split_ifs at hfull with hfound
        cases hfull
        exact hfound.2
      · cases hfull
    rw [applyAll_append, ResponseState.applyAll_cons,
      arguments_applyAll hback (by rw [hafter]; exact hfullNe), hafter]

/-- In a run whose events have known names and add no item that has text already, names do
not matter, and the texts of every id are the concatenations of their deltas. -/
theorem applyAll_clean {events : List SseEvent} (hclean : Clean .new events) :
    (∀ other, List.Forall₂ SameEvent events other → (∀ event ∈ other, Known event) →
      ResponseState.new.applyAll other = ResponseState.new.applyAll events) ∧
    ∀ id, Accumulated (ResponseState.new.applyAll events) events id :=
  ⟨fun _ hsame hother => (applyAll_sameEvents hsame hclean.known hother _).symm,
    accumulated_of_clean hclean⟩

def eventOf (name data : String) : SseEvent := ⟨some (constant name), ascii data⟩

def addedEvent (name : String) : SseEvent :=
  eventOf name "\x7b\"item\":\x7b\"id\":\"m\"\x7d\x7d"

def deltaEvent : SseEvent :=
  eventOf "output_text.delta" "\x7b\"item_id\":\"m\",\"delta\":\"a\"\x7d"

/-- An item that is added first gets its delta. -/
theorem applyAll_addedFirst :
    (ResponseState.new.applyAll [addedEvent "output_item.added", deltaEvent]).field
      .outputText (constant "m") = constant "a" := by
  have hclean : Clean .new [addedEvent "output_item.added", deltaEvent] := by
    refine ⟨by decide +kernel, fun id item _ field => ?_, by decide +kernel,
      fun id item hadded => ?_, trivial⟩
    · cases field <;> rfl
    · cases hadded
  rw [((applyAll_clean hclean).2 (constant "m")).outputText]
  decide +kernel

/-- The prefixed name of `output_item.added` is not known, and an item that is added
behind its delta loses it. -/
theorem added_loses :
    (SameEvent (addedEvent "output_item.added") (addedEvent "response.output_item.added") ∧
      ResponseState.new.applyAll [addedEvent "output_item.added"] ≠
        ResponseState.new.applyAll [addedEvent "response.output_item.added"]) ∧
    (ResponseState.new.applyAll [deltaEvent, addedEvent "output_item.added"]).field
      .outputText (constant "m") ≠
        deltas .outputText (constant "m") [deltaEvent, addedEvent "output_item.added"] := by
  refine ⟨⟨⟨?_, rfl⟩, fun hsame => ?_⟩, ?_⟩
  · exact Or.inr ⟨"output_item.added", by decide +kernel, Or.inl rfl, Or.inr rfl⟩
  · have hbare : ((ResponseState.new.applyAll
        [addedEvent "output_item.added"]).items.lookup (constant "m")).isSome = true := by
      decide +kernel
    rw [hsame] at hbare
    exact absurd hbare (by decide +kernel)
  · decide +kernel

end Legroom.Streams.OpenAiResponses
