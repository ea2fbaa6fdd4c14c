import Legroom.CacheStabilization.DriftDetector
import Legroom.Lib.Routing
import Legroom.Lib.Digests
import Mathlib.Data.List.Chain

/-!
# What is reported over a run

A conversation that only grows keeps its session and is never reported, however
its markers move and whatever other sessions do in between.  In one session a
request is reported for its early messages exactly if a message that had settled
in the window has changed or is gone.
-/

namespace Legroom.CacheStabilization

open Json Utf8 Routing

structure Request where
  headers : HeaderMap
  clientIp : Utf8String
  body : Value
  kind : ApiKind

namespace Request

def messages (request : Request) : List Value := conversationMessages request.body request.kind

variable (hashers : Hashers)

def sessionKey (request : Request) : Utf8String :=
  deriveSessionKey hashers request.headers request.clientIp request.body request.kind

def hash (request : Request) : StructuralHash :=
  computeStructuralHash hashers request.body request.kind

end Request

/-! ## Well-formed bodies -/

theorem wellFormed_getD {value : Option Value}
    (hvalue : ∀ found, value = some found → found.WellFormed) :
    (value.getD .null).WellFormed := by
  cases value with
  | none => trivial
  | some found => exact hvalue found rfl

variable {body : Value}

theorem wellFormed_extractTools (hbody : body.WellFormed) : (extractTools body).WellFormed :=
  wellFormed_getD fun _ hfound => hbody.of_get hfound

theorem wellFormed_extractSystem (hbody : body.WellFormed) (kind : ApiKind) :
    (extractSystem body kind).WellFormed := by
  cases kind with
  | anthropic => exact wellFormed_getD fun _ hfound => hbody.of_get hfound
  | openAiChat =>
      refine wellFormed_getD fun found hfound => ?_
      obtain ⟨messages, hmessages, hfind⟩ := Option.bind_eq_some_iff.mp hfound
      obtain ⟨value, hvalue, harray⟩ := Option.bind_eq_some_iff.mp hmessages
      have hwell := hbody.of_get hvalue
      rw [Value.eq_array_of_asArray harray] at hwell
      exact Value.wellFormedElements_iff.mp hwell found (List.mem_of_find?_eq_some hfind)
  | openAiResponses => exact wellFormed_getD fun _ hfound => hbody.of_get hfound

theorem wellFormed_conversationMessages (hbody : body.WellFormed) {kind : ApiKind} {message : Value}
    (hmessage : message ∈ conversationMessages body kind) : message.WellFormed := by
  have harray : ∀ {name : Utf8String} {items : List Value}, body.get name = some (.array items) →
      ∀ item ∈ items, item.WellFormed := fun hitems =>
    Value.wellFormedElements_iff.mp (hbody.of_get hitems)
  unfold conversationMessages at hmessage
  split at hmessage
  · rename_i hitems
    exact harray hitems _ (List.mem_of_mem_filter hmessage)
  · rename_i hitems
    exact harray hitems _ hmessage
  · rw [List.mem_singleton.mp hmessage]
    trivial
  · cases hmessage

/-! ## The early window -/

/-- Messages with one content have one digest. -/
theorem hashValue_of_same (hashers : Hashers) {left right : Value} (hleft : left.WellFormed)
    (hright : right.WellFormed) (hsame : SameContent false left right) :
    hashValue hashers (canonicalizeForHash false left) =
      hashValue hashers (canonicalizeForHash false right) := by
  rw [(canonicalizeForHash_eq_iff hleft hright).mpr hsame]

/-- The digests of two values tell their canonical texts apart. -/
def NoCollision (hashers : Hashers) (left right : Value) : Prop :=
  hashValue hashers (canonicalizeForHash false left) =
      hashValue hashers (canonicalizeForHash false right) →
    (canonicalizeForHash false left).toJson = (canonicalizeForHash false right).toJson

variable {hashers : Hashers}

theorem hashValue_eq_iff {left right : Value} (hleft : left.WellFormed) (hright : right.WellFormed)
    (hcollision : NoCollision hashers left right) :
    hashValue hashers (canonicalizeForHash false left) =
        hashValue hashers (canonicalizeForHash false right) ↔ SameContent false left right :=
  ⟨fun heq => (canonicalizeForHash_eq_iff hleft hright).mp
      (Value.toJson_injective (wellFormed_canonicalizeForHash hleft)
        (wellFormed_canonicalizeForHash hright) (hcollision heq)),
    hashValue_of_same hashers hleft hright⟩

/-- A message that had settled in the window has changed or is gone. -/
def EarlyWindowEdited (earlier later : Request) : Prop :=
  ∃ slot < earlyMessagesWindow, ∃ settled, earlier.messages[slot]? = some settled ∧
    ∀ kept, later.messages[slot]? = some kept → ¬SameContent false settled kept

theorem earlyWindowDrifted_iff {previous current : Vector (Option Digest) earlyMessagesWindow} :
    earlyWindowDrifted previous current = true ↔
      ∃ slot : Fin earlyMessagesWindow, ∃ settled, previous[slot] = some settled ∧
        current[slot] ≠ some settled := by
  rw [earlyWindowDrifted, List.any_eq_true]
  constructor
  · rintro ⟨⟨before, after⟩, hslots, hdrifted⟩
    obtain ⟨position, hposition, hat⟩ := List.mem_iff_getElem.mp hslots
    have hbound : position < earlyMessagesWindow := by
      simp only [List.length_zip, Vector.length_toList, min_self] at hposition
      exact hposition
    rw [List.getElem_zip, Prod.mk.injEq, Vector.getElem_toList, Vector.getElem_toList] at hat
    refine ⟨⟨position, hbound⟩, ?_⟩
    cases before with
    | none => cases after <;> cases hdrifted
    | some settled =>
        refine ⟨settled, hat.1, fun hkept => ?_⟩
        rw [show after = some settled from hat.2.symm.trans hkept] at hdrifted
        simp at hdrifted
  · rintro ⟨⟨position, hposition⟩, settled, hsettled, hkept⟩
    have hlength : position < (previous.toList.zip current.toList).length := by
      simpa using hposition
    refine ⟨_, List.getElem_mem hlength, ?_⟩
    have hsettled' : previous[position] = some settled := hsettled
    have hkept' : current[position] ≠ some settled := hkept
    rw [List.getElem_zip, Vector.getElem_toList, Vector.getElem_toList, hsettled']
    cases hcurrent : current[position] with
    | none => rfl
    | some kept =>
        have hne : settled ≠ kept := by
          rintro rfl
          exact hkept' hcurrent
        simpa using hne

theorem getElem_earlyMessages (hashers : Hashers) (request : Request)
    (slot : Fin earlyMessagesWindow) :
    (request.hash hashers).earlyMessages[slot] =
      request.messages[slot.val]?.map fun message =>
        hashValue hashers (canonicalizeForHash false message) := by
  simp [Request.hash, computeStructuralHash, earlyMessageHashes, Request.messages]

theorem earlyWindowDrifted_hash {earlier later : Request} (hearlier : earlier.body.WellFormed)
    (hlater : later.body.WellFormed)
    (hcollision : ∀ settled ∈ earlier.messages.take earlyMessagesWindow,
      ∀ kept ∈ later.messages.take earlyMessagesWindow, NoCollision hashers settled kept) :
    earlyWindowDrifted (earlier.hash hashers).earlyMessages (later.hash hashers).earlyMessages =
      true ↔ EarlyWindowEdited earlier later := by
  have hinWindow : ∀ {request : Request} {slot : ℕ} {message : Value},
      slot < earlyMessagesWindow → request.messages[slot]? = some message →
        message ∈ request.messages.take earlyMessagesWindow := by
    intro request slot message hslot hmessage
    exact List.mem_of_getElem? (i := slot) (by rw [List.getElem?_take, if_pos hslot, hmessage])
  have hdigests : ∀ {slot : ℕ} {settled kept : Value}, slot < earlyMessagesWindow →
      earlier.messages[slot]? = some settled → later.messages[slot]? = some kept →
      (hashValue hashers (canonicalizeForHash false settled) =
        hashValue hashers (canonicalizeForHash false kept) ↔ SameContent false settled kept) :=
    fun hslot hsettled hkept =>
      hashValue_eq_iff (wellFormed_conversationMessages hearlier (List.mem_of_getElem? hsettled))
        (wellFormed_conversationMessages hlater (List.mem_of_getElem? hkept))
        (hcollision _ (hinWindow hslot hsettled) _ (hinWindow hslot hkept))
  rw [earlyWindowDrifted_iff]
  constructor
  · rintro ⟨slot, digest, hdigest, hchanged⟩
    rw [getElem_earlyMessages] at hdigest hchanged
    obtain ⟨settled, hsettled, rfl⟩ := Option.map_eq_some_iff.mp hdigest
    refine ⟨slot, slot.isLt, settled, hsettled, fun kept hkept hsame => hchanged ?_⟩
    rw [hkept, Option.map_some, (hdigests slot.isLt hsettled hkept).mpr hsame]
  · rintro ⟨slot, hslot, settled, hsettled, hedited⟩
    refine ⟨⟨slot, hslot⟩, _, by rw [getElem_earlyMessages, hsettled, Option.map_some], ?_⟩
    rw [getElem_earlyMessages]
    intro hkept
    obtain ⟨kept, hmessage, hdigest⟩ := Option.map_eq_some_iff.mp hkept
    exact hedited kept hmessage ((hdigests hslot hsettled hmessage).mp hdigest.symm)

/-! ## Events -/

/-- An event that names the early messages among the axes. -/
def ReportsEarlyDrift : Option DriftEvent → Prop
  | some (.driftObserved _ dims _ _) => ascii "early_messages" ∈ dims.bytes.splitOn comma
  | _ => False

/-- An event that names any axis. -/
def ReportsDrift : Option DriftEvent → Prop
  | some (.driftObserved _ _ _ _) => True
  | _ => False

theorem driftDims_spec (previous current : StructuralHash) :
    ((driftDims previous current).bytes.isEmpty = true ↔ driftedAxes previous current = []) ∧
      (ascii "early_messages" ∈ (driftDims previous current).bytes.splitOn comma ↔
        earlyWindowDrifted previous.earlyMessages current.earlyMessages = true) := by
  rw [driftDims, driftedAxes]
  generalize (previous.system != current.system) = system
  generalize (previous.tools != current.tools) = tools
  generalize earlyWindowDrifted previous.earlyMessages current.earlyMessages = early
  revert system tools early
  decide

/-! ## Observation -/

section

variable (hashers : Hashers) (sessions : RecencyCache Utf8String StructuralHash)

def observe (cache : sessions.Cache) (request : Request) : sessions.Cache × Option DriftEvent :=
  observeDrift hashers sessions cache (request.sessionKey hashers) (request.hash hashers)

/-- The cache behind a run of requests. -/
def observeAll (cache : sessions.Cache) (requests : List Request) : sessions.Cache :=
  requests.foldl (fun cache request => (observe hashers sessions cache request).1) cache

/-- The requests of a run, each with its event. -/
def events (cache : sessions.Cache) : List Request → List (Request × Option DriftEvent)
  | [] => []
  | request :: requests =>
      (request, (observe hashers sessions cache request).2) ::
        events (observe hashers sessions cache request).1 requests

end

section

variable {hashers : Hashers} {sessions : RecencyCache Utf8String StructuralHash}
variable (cache : sessions.Cache)

theorem observe_fst (request : Request) :
    (observe hashers sessions cache request).1 =
      sessions.put (sessions.get cache (request.sessionKey hashers)).2
        (request.sessionKey hashers) (request.hash hashers) := by
  simp only [observe, observeDrift]
  cases (sessions.get cache (request.sessionKey hashers)).1 with
  | none => rfl
  | some previous =>
      dsimp only
      split_ifs <;> rfl

variable {request : Request}

theorem observe_snd_of_none {cache : sessions.Cache}
    (hpeek : sessions.peek cache (request.sessionKey hashers) = none) :
    ¬ReportsDrift (observe hashers sessions cache request).2 := by
  simp only [observe, observeDrift, sessions.get_fst, hpeek]
  exact not_false

theorem observe_snd_of_some {cache : sessions.Cache} {previous : StructuralHash}
    (hpeek : sessions.peek cache (request.sessionKey hashers) = some previous) :
    (ReportsDrift (observe hashers sessions cache request).2 ↔
        driftedAxes previous (request.hash hashers) ≠ []) ∧
      (ReportsEarlyDrift (observe hashers sessions cache request).2 ↔
        earlyWindowDrifted previous.earlyMessages (request.hash hashers).earlyMessages = true) := by
  obtain ⟨hempty, hearly⟩ := driftDims_spec previous (request.hash hashers)
  simp only [observe, observeDrift, sessions.get_fst, hpeek]
  split_ifs with hdims
  · have hnone := hempty.mp hdims
    refine ⟨⟨fun hreport => hreport.elim, fun hsome => hsome hnone⟩, ?_⟩
    refine ⟨fun hreport => hreport.elim, fun hdrifted => ?_⟩
    rw [driftedAxes, if_pos hdrifted] at hnone
    simp at hnone
  · exact ⟨⟨fun _ hnone => hdims (hempty.mpr hnone), fun _ => trivial⟩, hearly⟩

@[simp]
theorem peek_observe_self (request : Request) :
    sessions.peek (observe hashers sessions cache request).1 (request.sessionKey hashers) =
      some (request.hash hashers) := by
  rw [observe_fst, sessions.peek_put_self]

/-- Another session's request leaves an entry as it is or evicts it. -/
theorem peek_observe_other {key : Utf8String} (hkey : key ≠ request.sessionKey hashers) :
    sessions.peek (observe hashers sessions cache request).1 key = sessions.peek cache key ∨
      sessions.peek (observe hashers sessions cache request).1 key = none := by
  rw [observe_fst, ← sessions.peek_get cache (request.sessionKey hashers) key]
  exact sessions.peek_put_other _ _ _ _ hkey

theorem peek_observeAll_others {requests : List Request} {key : Utf8String}
    (hothers : ∀ request ∈ requests, key ≠ request.sessionKey hashers) :
    sessions.peek (observeAll hashers sessions cache requests) key = sessions.peek cache key ∨
      sessions.peek (observeAll hashers sessions cache requests) key = none := by
  induction requests generalizing cache with
  | nil => exact .inl rfl
  | cons request requests ih =>
      obtain ⟨hrequest, hothers⟩ := List.forall_mem_cons.mp hothers
      rcases @ih (observe hashers sessions cache request).1 hothers with hkept | hgone
      · rw [observeAll, List.foldl_cons, ← observeAll, hkept]
        exact peek_observe_other cache hrequest
      · exact .inr hgone

end

/-! ## Conversations that grow -/

/-- The next turn of a conversation: the client, the model, the system prompt and
the tools are the same and messages are only appended, markers and the order of
fields apart. -/
structure Continues (earlier later : Request) : Prop where
  kind : later.kind = earlier.kind
  clientIp : later.clientIp = earlier.clientIp
  identity : ∀ name ∈ ["x-legroom-session-id", "authorization", "x-api-key", "user-agent"],
    getHeader later.headers name = getHeader earlier.headers name
  model : later.body.getStr "model" = earlier.body.getStr "model"
  system : SameContent false (extractSystem earlier.body earlier.kind)
    (extractSystem later.body later.kind)
  tools : SameContent false (extractTools earlier.body) (extractTools later.body)
  messages : ∀ (slot : ℕ) settled, earlier.messages[slot]? = some settled →
    ∃ kept, later.messages[slot]? = some kept ∧ SameContent false settled kept

namespace Continues

variable {hashers : Hashers} {earlier later : Request} (hcontinues : Continues earlier later)

include hcontinues

theorem canonical_message (hearlier : earlier.body.WellFormed) (hlater : later.body.WellFormed)
    {slot : ℕ} {settled : Value} (hsettled : earlier.messages[slot]? = some settled) :
    ∃ kept, later.messages[slot]? = some kept ∧
      canonicalizeForHash false kept = canonicalizeForHash false settled := by
  obtain ⟨kept, hkept, hsame⟩ := hcontinues.messages slot settled hsettled
  refine ⟨kept, hkept, ((canonicalizeForHash_eq_iff ?_ ?_).mpr hsame).symm⟩
  · exact wellFormed_conversationMessages hearlier (List.mem_of_getElem? hsettled)
  · exact wellFormed_conversationMessages hlater (List.mem_of_getElem? hkept)

theorem messages_ne_nil (hmessages : earlier.messages ≠ []) : later.messages ≠ [] := by
  obtain ⟨first, rest, hfirst⟩ := List.exists_cons_of_ne_nil hmessages
  obtain ⟨kept, hkept, -⟩ := hcontinues.messages 0 first (by rw [hfirst]; rfl)
  rintro hnil
  rw [hnil] at hkept
  cases hkept

theorem conversationDiscriminator_eq (hearlier : earlier.body.WellFormed)
    (hlater : later.body.WellFormed) (hmessages : earlier.messages ≠ []) :
    conversationDiscriminator hashers later.body later.kind =
      conversationDiscriminator hashers earlier.body earlier.kind := by
  obtain ⟨first, rest, hfirst⟩ := List.exists_cons_of_ne_nil hmessages
  have hslot : earlier.messages[0]? = some first := by rw [hfirst]; rfl
  obtain ⟨kept, hkept, hcanonical⟩ := hcontinues.canonical_message hearlier hlater hslot
  have hhead : (conversationMessages earlier.body earlier.kind).head? = some first := by
    rw [← Request.messages, hfirst]
    rfl
  have hlaterHead : (conversationMessages later.body later.kind).head? = some kept := by
    rw [← Request.messages, List.head?_eq_getElem?, hkept]
  rw [conversationDiscriminator, conversationDiscriminator, hhead, hlaterHead, hcontinues.model]
  dsimp only
  rw [hcanonical]

theorem sessionKey_eq (hashers : Hashers) (hearlier : earlier.body.WellFormed)
    (hlater : later.body.WellFormed) (hmessages : earlier.messages ≠ []) :
    later.sessionKey hashers = earlier.sessionKey hashers := by
  have hidentity := hcontinues.identity
  simp only [List.forall_mem_cons, List.not_mem_nil, false_implies, implies_true, and_true]
    at hidentity
  obtain ⟨hsession, hauthorization, hapiKey, hagent⟩ := hidentity
  rw [Request.sessionKey, Request.sessionKey, deriveSessionKey, deriveSessionKey,
    hcontinues.conversationDiscriminator_eq hearlier hlater hmessages, hsession, hauthorization,
    hapiKey, hagent, hcontinues.clientIp]

theorem driftedAxes_eq_nil (hearlier : earlier.body.WellFormed)
    (hlater : later.body.WellFormed) :
    driftedAxes (earlier.hash hashers) (later.hash hashers) = [] := by
  have hsystem : (earlier.hash hashers).system = (later.hash hashers).system :=
    hashValue_of_same hashers (wellFormed_extractSystem hearlier _)
      (wellFormed_extractSystem hlater _) hcontinues.system
  have htools : (earlier.hash hashers).tools = (later.hash hashers).tools :=
    hashValue_of_same hashers (wellFormed_extractTools hearlier)
      (wellFormed_extractTools hlater) hcontinues.tools
  have hearly : ¬earlyWindowDrifted (earlier.hash hashers).earlyMessages
      (later.hash hashers).earlyMessages = true := by
    rw [earlyWindowDrifted_iff]
    rintro ⟨slot, digest, hdigest, hchanged⟩
    rw [getElem_earlyMessages] at hdigest hchanged
    obtain ⟨settled, hsettled, rfl⟩ := Option.map_eq_some_iff.mp hdigest
    obtain ⟨kept, hkept, hcanonical⟩ := hcontinues.canonical_message hearlier hlater hsettled
    rw [hkept, Option.map_some, hcanonical] at hchanged
    exact hchanged rfl
  rw [driftedAxes, if_neg (by simp [hsystem]), if_neg (by simp [htools]), if_neg hearly]
  rfl

end Continues

/-- The turns of a growing conversation have one session key. -/
theorem sessionKey_of_isChain (hashers : Hashers) {first : Request} {turns : List Request}
    (hchain : (first :: turns).IsChain Continues)
    (hbodies : ∀ turn ∈ first :: turns, turn.body.WellFormed) (hmessages : first.messages ≠ []) :
    ∀ turn ∈ first :: turns, turn.sessionKey hashers = first.sessionKey hashers := by
  induction turns generalizing first with
  | nil => exact fun turn hturn => by rw [List.mem_singleton.mp hturn]
  | cons second turns ih =>
      obtain ⟨hcontinues, hchain⟩ := List.isChain_cons_cons.mp hchain
      obtain ⟨hfirst, hbodies⟩ := List.forall_mem_cons.mp hbodies
      have hsecond := hbodies second List.mem_cons_self
      have hkey := hcontinues.sessionKey_eq hashers hfirst hsecond hmessages
      refine List.forall_mem_cons.mpr ⟨rfl, fun turn hturn => ?_⟩
      rw [← hkey]
      exact ih hchain hbodies (hcontinues.messages_ne_nil hmessages) turn hturn

/-- What the cache holds for a session before a run: nothing, or the hash of a turn
that the next one continues. -/
def Settled (hashers : Hashers) (sessions : RecencyCache Utf8String StructuralHash)
    (cache : sessions.Cache) (key : Utf8String) (turns : List Request) : Prop :=
  sessions.peek cache key = none ∨
    ∃ last : Request, last.body.WellFormed ∧ sessions.peek cache key = some (last.hash hashers) ∧
      (last :: turns).IsChain Continues

theorem not_reportsDrift_of_settled {sessions : RecencyCache Utf8String StructuralHash}
    {cache : sessions.Cache} {key : Utf8String} {requests : List Request}
    (hsettled : Settled hashers sessions cache key
      (requests.filter fun request => request.sessionKey hashers = key))
    (hchain : (requests.filter fun request => request.sessionKey hashers = key).IsChain Continues)
    (hbodies : ∀ request ∈ requests, request.sessionKey hashers = key → request.body.WellFormed) :
    ∀ entry ∈ events hashers sessions cache requests,
      entry.1.sessionKey hashers = key → ¬ReportsDrift entry.2 := by
  induction requests generalizing cache with
  | nil => exact fun entry hentry => absurd hentry List.not_mem_nil
  | cons request requests ih =>
      obtain ⟨hrequest, hbodies⟩ := List.forall_mem_cons.mp hbodies
      rw [List.filter_cons] at hsettled hchain
      by_cases hkey : request.sessionKey hashers = key
      · rw [if_pos (decide_eq_true hkey)] at hsettled hchain
        subst hkey
        have hevent : ¬ReportsDrift (observe hashers sessions cache request).2 := by
          rcases hsettled with hnone | ⟨last, hlast, hpeek, hcontinued⟩
          · exact observe_snd_of_none hnone
          · rw [(observe_snd_of_some hpeek).1]
            have hcontinues := (List.isChain_cons_cons.mp hcontinued).1
            exact fun hne => hne (hcontinues.driftedAxes_eq_nil hlast (hrequest rfl))
        refine List.forall_mem_cons.mpr ⟨fun _ => hevent, ih (.inr ⟨request, hrequest rfl, ?_, ?_⟩)
          hchain.of_cons hbodies⟩
        · exact peek_observe_self cache request
        · exact hchain
      · rw [if_neg (by simpa using hkey)] at hsettled hchain
        refine List.forall_mem_cons.mpr ⟨fun heq => absurd heq hkey, ih ?_ hchain hbodies⟩
        rcases peek_observe_other cache (Ne.symm hkey) with hkept | hgone
        · rw [Settled, hkept]
          exact hsettled
        · exact .inl hgone

/-- In one session, whatever other sessions do in between, a request whose
predecessor is still cached is reported for its early messages exactly if a settled
message of the window has changed or is gone.  The turns of a conversation that
grows from a first message have one session key, and none of them is reported on
any axis. -/
theorem drift_sound (hashers : Hashers) (sessions : RecencyCache Utf8String StructuralHash) :
    (∀ (cache : sessions.Cache) (earlier later : Request) (others : List Request),
      earlier.body.WellFormed → later.body.WellFormed →
      earlier.sessionKey hashers = later.sessionKey hashers →
      (∀ other ∈ others, later.sessionKey hashers ≠ other.sessionKey hashers) →
      (∀ settled ∈ earlier.messages.take earlyMessagesWindow,
        ∀ kept ∈ later.messages.take earlyMessagesWindow, NoCollision hashers settled kept) →
      sessions.peek (observeAll hashers sessions cache (earlier :: others))
        (later.sessionKey hashers) ≠ none →
      (ReportsEarlyDrift (observe hashers sessions
          (observeAll hashers sessions cache (earlier :: others)) later).2 ↔
        EarlyWindowEdited earlier later)) ∧
    ∀ (cache : sessions.Cache) (first : Request) (turns others requests : List Request),
      (first :: turns).IsChain Continues →
      (∀ turn ∈ first :: turns, turn.body.WellFormed) → first.messages ≠ [] →
      Interleaves [first :: turns, others] requests →
      (∀ other ∈ others, other.sessionKey hashers ≠ first.sessionKey hashers) →
      sessions.peek cache (first.sessionKey hashers) = none →
      (∀ turn ∈ first :: turns, turn.sessionKey hashers = first.sessionKey hashers) ∧
        ∀ entry ∈ events hashers sessions cache requests,
          entry.1 ∈ first :: turns → ¬ReportsDrift entry.2 := by
  refine ⟨?_, ?_⟩
  · intro cache earlier later others hearlier hlater hkey hothers hcollision hcached
    rw [observeAll, List.foldl_cons, ← observeAll] at hcached ⊢
    have hpeek : sessions.peek (observeAll hashers sessions
        (observe hashers sessions cache earlier).1 others) (later.sessionKey hashers) =
          some (earlier.hash hashers) := by
      rcases peek_observeAll_others (observe hashers sessions cache earlier).1 hothers with
        hkept | hgone
      · rw [hkept, ← hkey, peek_observe_self]
      · exact absurd hgone hcached
    rw [(observe_snd_of_some hpeek).2]
    exact earlyWindowDrifted_hash hearlier hlater hcollision
  · intro cache first turns others requests hchain hbodies hmessages hmerged hothers hpeek
    have hkeys := sessionKey_of_isChain hashers hchain hbodies hmessages
    have hfilter : (requests.filter fun request =>
        request.sessionKey hashers = first.sessionKey hashers) = first :: turns := by
      refine @Interleaves.filter_eq _ [] [others] _ _ hmerged _
        (fun turn hturn => decide_eq_true (hkeys turn hturn))
        fun other hother request hrequest => ?_
      rw [List.mem_singleton.mp hother] at hrequest
      exact decide_eq_false (hothers request hrequest)
    refine ⟨hkeys, fun entry hentry hturn => ?_⟩
    have hsettled : Settled hashers sessions cache (first.sessionKey hashers)
        (requests.filter fun request =>
          request.sessionKey hashers = first.sessionKey hashers) := .inl hpeek
    refine not_reportsDrift_of_settled hsettled ?_ ?_ entry hentry (hkeys _ hturn)
    · rw [hfilter]
      exact hchain
    · intro request hrequest hkey
      refine hbodies request ?_
      rw [← hfilter]
      exact List.mem_filter.mpr ⟨hrequest, decide_eq_true hkey⟩

/-! ## Two conversations -/

/-- SHA-256, and one bucket for all user agents. -/
def sha256Hashers : Hashers := ⟨Sha256.digest, fun _ _ => 0⟩

def userMessage (text : String) (marked : Bool) : Value :=
  .object ([(constant "role", .string (constant "user")),
    (constant "content", .string (constant text))] ++
    if marked then [(constant "cache_control", .object [])] else [])

/-- A turn with one message for every text, the last one marked. -/
def turnOf (headers : List (String × String)) (texts : List String) : Request where
  headers := headers.map fun header => (constant header.1, ascii header.2)
  clientIp := constant "10.0.0.1"
  body := .object [(constant "model", .string (constant "m")),
    (constant "messages", .array (texts.zipIdx.map fun (text, position) =>
      userMessage text (position + 1 = texts.length)))]
  kind := .anthropic

def pinned : List (String × String) := [("x-legroom-session-id", "conv-42")]
def bearer : List (String × String) := [("authorization", "Bearer t")]

theorem wellFormed_userMessage (text : String) (marked : Bool) :
    (userMessage text marked).WellFormed := by
  have hnames : [constant "role", constant "content"].Nodup ∧
      [constant "role", constant "content", constant "cache_control"].Nodup := by decide
  cases marked with
  | false => exact ⟨hnames.1, trivial, trivial, trivial⟩
  | true => exact ⟨hnames.2, trivial, trivial, ⟨List.nodup_nil, trivial⟩, trivial⟩

theorem wellFormed_turnOf (headers : List (String × String)) (texts : List String) :
    (turnOf headers texts).body.WellFormed := by
  have hnames : [constant "model", constant "messages"].Nodup := by decide
  refine ⟨hnames, trivial, Value.wellFormedElements_iff.mpr fun message hmessage => ?_, trivial⟩
  obtain ⟨⟨text, position⟩, -, rfl⟩ := List.mem_map.mp hmessage
  exact wellFormed_userMessage _ _

theorem messages_turnOf (headers : List (String × String)) (texts : List String) :
    (turnOf headers texts).messages = texts.zipIdx.map fun (text, position) =>
      userMessage text (position + 1 = texts.length) := by
  have hnames : constant "model" ≠ constant "messages" := by decide
  simp [Request.messages, turnOf, conversationMessages, arrayKey, Value.get, hnames]

theorem sameContent_userMessage (text : String) (marked remarked : Bool) :
    SameContent false (userMessage text marked) (userMessage text remarked) := by
  refine (canonicalizeForHash_eq_iff (wellFormed_userMessage _ _)
    (wellFormed_userMessage _ _)).mp ?_
  cases marked <;> cases remarked <;> rfl

theorem continues_turnOf (headers : List (String × String)) (texts more : List String) :
    Continues (turnOf headers texts) (turnOf headers (texts ++ more)) where
  kind := rfl
  clientIp := rfl
  identity _ _ := rfl
  model := rfl
  system := .null _
  tools := .null _
  messages slot settled hsettled := by
    rw [messages_turnOf, List.getElem?_map, List.getElem?_zipIdx] at hsettled
    obtain ⟨⟨text, position⟩, hat, rfl⟩ := Option.map_eq_some_iff.mp hsettled
    obtain ⟨found, hfound, hpair⟩ := Option.map_eq_some_iff.mp hat
    cases hpair
    have hslot : slot < texts.length := (List.getElem?_eq_some_iff.mp hfound).1
    refine ⟨_, ?_, sameContent_userMessage text _ (0 + slot + 1 = (texts ++ more).length)⟩
    rw [messages_turnOf, List.getElem?_map, List.getElem?_zipIdx, List.getElem?_append_left hslot,
      hfound]
    rfl

/-- A settled message has changed that both turns still have. -/
def CommonWindowEdited (earlier later : Request) : Prop :=
  ∃ slot < earlyMessagesWindow, ∃ settled kept, earlier.messages[slot]? = some settled ∧
    later.messages[slot]? = some kept ∧ ¬SameContent false settled kept

abbrev smallSessions : RecencyCache Utf8String StructuralHash := RecencyCache.recencyList _ _ 7

def noSessions : smallSessions.Cache := ([] : List (Utf8String × StructuralHash))

/-- A growing conversation, and two turns of a session that lost a message. -/
theorem drift_sound_turns :
    (ReportsEarlyDrift (observe sha256Hashers smallSessions
        (observeAll sha256Hashers smallSessions noSessions [turnOf pinned ["a", "b"]])
        (turnOf pinned ["a"])).2 ↔
      EarlyWindowEdited (turnOf pinned ["a", "b"]) (turnOf pinned ["a"])) ∧
    ∀ entry ∈ events sha256Hashers smallSessions noSessions
        [turnOf bearer ["a"], turnOf bearer ["a", "b"]],
      entry.1 ∈ [turnOf bearer ["a"], turnOf bearer ["a", "b"]] → ¬ReportsDrift entry.2 := by
  have hsound := drift_sound sha256Hashers smallSessions
  refine ⟨hsound.1 noSessions (turnOf pinned ["a", "b"]) (turnOf pinned ["a"]) []
    (wellFormed_turnOf _ _) (wellFormed_turnOf _ _) rfl (fun _ hnil => absurd hnil List.not_mem_nil)
    ?_ ?_, (hsound.2 noSessions (turnOf bearer ["a"]) [turnOf bearer ["a", "b"]] [] _ ?_ ?_ ?_ ?_
      (fun _ hnil => absurd hnil List.not_mem_nil) rfl).2⟩
  · rw [messages_turnOf, messages_turnOf]
    intro settled hsettled kept hkept
    rw [show kept = userMessage "a" true from List.mem_singleton.mp hkept]
    rcases List.mem_pair.mp hsettled with rfl | rfl
    · exact fun _ => rfl
    · have hdigests : hashValue sha256Hashers (canonicalizeForHash false (userMessage "b" true)) ≠
          hashValue sha256Hashers (canonicalizeForHash false (userMessage "a" true)) := by
        decide +kernel
      exact fun heq => absurd heq hdigests
  · rw [observeAll, List.foldl_cons, List.foldl_nil,
      show (turnOf pinned ["a"]).sessionKey sha256Hashers =
        (turnOf pinned ["a", "b"]).sessionKey sha256Hashers from rfl, peek_observe_self]
    exact Option.some_ne_none _
  · exact List.isChain_pair.mpr (continues_turnOf bearer ["a"] ["b"])
  · exact fun turn hturn => by
      rcases List.mem_pair.mp hturn with rfl | rfl <;> exact wellFormed_turnOf _ _
  · rw [messages_turnOf]
    exact List.cons_ne_nil _ _
  · exact @Interleaves.next _ [] _ _ _ _ (@Interleaves.next _ [] _ _ _ _ (.done (by simp)))

/-- A session that lost a message is reported, though the message it still has is the
same.  A conversation without messages changes its session with the first one. -/
theorem lostMessage_reported :
    (turnOf pinned ["a", "b"]).sessionKey sha256Hashers =
        (turnOf pinned ["a"]).sessionKey sha256Hashers ∧
      ¬(ReportsEarlyDrift (observe sha256Hashers smallSessions
          (observe sha256Hashers smallSessions noSessions (turnOf pinned ["a", "b"])).1
          (turnOf pinned ["a"])).2 ↔
        CommonWindowEdited (turnOf pinned ["a", "b"]) (turnOf pinned ["a"])) ∧
      Continues (turnOf bearer []) (turnOf bearer ["a"]) ∧
      (turnOf bearer []).sessionKey sha256Hashers ≠
        (turnOf bearer ["a"]).sessionKey sha256Hashers := by
  refine ⟨rfl, fun hiff => ?_, continues_turnOf bearer [] ["a"], by decide +kernel⟩
  have hpeek : smallSessions.peek
      (observe sha256Hashers smallSessions noSessions (turnOf pinned ["a", "b"])).1
      ((turnOf pinned ["a"]).sessionKey sha256Hashers) =
        some ((turnOf pinned ["a", "b"]).hash sha256Hashers) :=
    peek_observe_self noSessions (turnOf pinned ["a", "b"])
  rw [(observe_snd_of_some hpeek).2] at hiff
  have hgone : earlyWindowDrifted ((turnOf pinned ["a", "b"]).hash sha256Hashers).earlyMessages
      ((turnOf pinned ["a"]).hash sha256Hashers).earlyMessages = true := by
    rw [earlyWindowDrifted_iff]
    refine ⟨⟨1, by decide⟩, _, by rw [getElem_earlyMessages, messages_turnOf]; rfl, ?_⟩
    rw [getElem_earlyMessages, messages_turnOf]
    exact (Option.some_ne_none _).symm
  obtain ⟨slot, hslot, settled, kept, hsettled, hkept, hedited⟩ := hiff.mp hgone
  rw [messages_turnOf] at hsettled hkept
  obtain ⟨hfirst, -⟩ := List.getElem?_eq_some_iff.mp hkept
  obtain rfl : slot = 0 := Nat.lt_one_iff.mp hfirst
  cases hsettled
  cases hkept
  exact hedited (sameContent_userMessage "a" false true)

end Legroom.CacheStabilization
