import Legroom.CacheStabilization.Canonical
import Legroom.Lib.RecencyCache

/-!
# The drift detector

A request is hashed on three axes: the system prompt, the tools and the first
messages of the conversation.  Per session the last hash is cached; a request that
disagrees with it on an axis is reported.  The hash functions and the cache are
parameters.
-/

namespace Legroom.CacheStabilization

open Json Utf8

inductive ApiKind where
  | anthropic
  | openAiChat
  | openAiResponses
  deriving DecidableEq

abbrev Digest := Vector Byte 32

structure Hashers where
  sha256 : Bytes → Digest
  /-- `DefaultHasher` over the client's address and its user agent. -/
  addressAndAgent : Utf8String → Utf8String → UInt64

def earlyMessagesWindow : ℕ := 3

structure StructuralHash where
  system : Digest
  tools : Digest
  earlyMessages : Vector (Option Digest) earlyMessagesWindow

/-! ## The axes -/

def extractSystem (body : Value) : ApiKind → Value
  | .anthropic => (body.get (constant "system")).getD .null
  | .openAiChat =>
      (((body.get (constant "messages")).bind Value.asArray).bind fun messages =>
        messages.find? fun message =>
          ((message.getStr "role").map (· == constant "system")).getD false).getD .null
  | .openAiResponses => (body.get (constant "instructions")).getD .null

def extractTools (body : Value) : Value := (body.get (constant "tools")).getD .null

def arrayKey : ApiKind → String
  | .anthropic => "messages"
  | .openAiChat => "messages"
  | .openAiResponses => "input"

/-- Messages of the `system` role are the system axis of `openAiChat`. -/
def conversationMessages (body : Value) (kind : ApiKind) : List Value :=
  match kind, body.get (constant (arrayKey kind)) with
  | .openAiChat, some (.array messages) =>
      messages.filter fun message =>
        ((message.getStr "role").map (· != constant "system")).getD true
  | _, some (.array messages) => messages
  | .openAiResponses, some (.string text) => [.string text]
  | _, _ => []

section

variable (hashers : Hashers)

def hashValue (value : Value) : Digest := hashers.sha256 value.toJson.bytes

def earlyMessageHashes (body : Value) (kind : ApiKind) :
    Vector (Option Digest) earlyMessagesWindow :=
  Vector.ofFn fun slot => (conversationMessages body kind)[slot.val]?.map fun message =>
    hashValue hashers (canonicalizeForHash false message)

def computeStructuralHash (body : Value) (kind : ApiKind) : StructuralHash where
  system := hashValue hashers (canonicalizeForHash false (extractSystem body kind))
  tools := hashValue hashers (canonicalizeForHash false (extractTools body))
  earlyMessages := earlyMessageHashes hashers body kind

end

/-! ## Drift -/

/-- A settled slot that changes or disappears is drift, an empty one that fills is not. -/
def earlyWindowDrifted (previous current : Vector (Option Digest) earlyMessagesWindow) : Bool :=
  (previous.toList.zip current.toList).any fun slots =>
    match slots with
    | (some previous, some current) => previous != current
    | (some _, none) => true
    | (none, _) => false

def driftedAxes (previous current : StructuralHash) : List Utf8String :=
  (if previous.system != current.system then [constant "system"] else []) ++
    (if previous.tools != current.tools then [constant "tools"] else []) ++
    (if earlyWindowDrifted previous.earlyMessages current.earlyMessages then
      [constant "early_messages"] else [])

def driftDims (previous current : StructuralHash) : Utf8String :=
  joined (constant ",") (driftedAxes previous current)

/-! ## Texts of digests -/

section

variable (hashers : Hashers)

def sessionKeyLogPrefix (sessionKey : Utf8String) : Utf8String :=
  hexPrefix (hashers.sha256 sessionKey.bytes).toList 16

def structuralHashLogPrefix (hash : StructuralHash) : Utf8String :=
  hexPrefix
    (hashers.sha256 (hash.system.toList ++ hash.tools.toList ++
      hash.earlyMessages.toList.flatMap fun slot =>
        match slot with
        | some digest => 1 :: digest.toList
        | none => [0])).toList 12

def hashSecret (secret : Utf8String) : Utf8String :=
  hexPrefix (hashers.sha256 secret.bytes).toList 16

end

/-! ## Sessions -/

def isVisibleAscii (byte : Byte) : Bool := 0x20 ≤ byte && byte < 0x7F || byte == 0x09

/-- `HeaderValue::to_str`. -/
def headerText (value : Bytes) : Option Utf8String :=
  if hvisible : value.all isVisibleAscii = true then
    some ⟨value, valid_of_ascii fun byte hbyte => by
      have hbyte := List.all_eq_true.mp hvisible byte hbyte
      simp only [isVisibleAscii, Bool.or_eq_true, Bool.and_eq_true, decide_eq_true_eq,
        beq_iff_eq] at hbyte
      rcases hbyte with ⟨-, hbyte⟩ | rfl
      · exact UInt8.lt_trans hbyte (by decide)
      · decide⟩
  else none

/-- The headers by their lowercase names. -/
abbrev HeaderMap := List (Utf8String × Bytes)

def getHeader (headers : HeaderMap) (name : String) : Option Utf8String :=
  ((headers.find? fun header => header.1 = constant name).map Prod.snd).bind headerText

section

variable (hashers : Hashers)

def conversationDiscriminator (body : Value) (kind : ApiKind) : Utf8String :=
  let model := (body.getStr "model").getD (constant "")
  match (conversationMessages body kind).head? with
  | some first =>
      hexPrefix (hashers.sha256 (model.bytes ++ 0 ::
        (canonicalizeForHash false first).toJson.bytes)).toList 8
  | none => constant "-"

def deriveSessionKey (headers : HeaderMap) (clientIp : Utf8String) (body : Value)
    (kind : ApiKind) : Utf8String :=
  match (getHeader headers "x-legroom-session-id").filter (fun id => !id.bytes.isEmpty) with
  | some id => constant "session:" ++ hashSecret hashers id
  | none =>
      let conversation := conversationDiscriminator hashers body kind
      match getHeader headers "authorization" with
      | some token =>
          constant "auth:" ++ hashSecret hashers token ++ constant ":" ++ conversation
      | none =>
          match getHeader headers "x-api-key" with
          | some key =>
              constant "apikey:" ++ hashSecret hashers key ++ constant ":" ++ conversation
          | none =>
              match getHeader headers "user-agent" with
              | some agent =>
                  constant "ipua:" ++
                    hexPrefix (toBe 8 (hashers.addressAndAgent clientIp agent).toNat) 8 ++
                    constant ":" ++ conversation
              | none => constant "ip:" ++ clientIp ++ constant ":" ++ conversation

end

/-! ## Observation -/

/-- The events that are logged. -/
inductive DriftEvent where
  | firstRequest (sessionKeyHash currentHashPrefix : Utf8String)
  | driftObserved (sessionKeyHash driftDims previousHashPrefix currentHashPrefix : Utf8String)
  deriving DecidableEq

section

variable (hashers : Hashers) (sessions : RecencyCache Utf8String StructuralHash)

def observeDrift (cache : sessions.Cache) (sessionKey : Utf8String) (current : StructuralHash) :
    sessions.Cache × Option DriftEvent :=
  let (found, cache) := sessions.get cache sessionKey
  match found with
  | none =>
      (sessions.put cache sessionKey current,
        some (.firstRequest (sessionKeyLogPrefix hashers sessionKey)
          (structuralHashLogPrefix hashers current)))
  | some previous =>
      let dims := driftDims previous current
      if dims.bytes.isEmpty then (sessions.put cache sessionKey current, none)
      else
        (sessions.put cache sessionKey current,
          some (.driftObserved (sessionKeyLogPrefix hashers sessionKey) dims
            (structuralHashLogPrefix hashers previous)
            (structuralHashLogPrefix hashers current)))

end

end Legroom.CacheStabilization
