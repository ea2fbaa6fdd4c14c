import Legroom.Lib.Utf8

/-!
# What the dispatcher reports

Content types with their byte thresholds, the decision taken for each block, and
the manifest that collects the decisions of one request.
-/

namespace Legroom.LiveZone

open Utf8

inductive ContentType where
  | jsonArray
  | sourceCode
  | searchResults
  | buildOutput
  | gitDiff
  | html
  | plainText
  deriving DecidableEq, Repr

def ContentType.asStr : ContentType → Utf8String
  | .jsonArray => constant "json_array"
  | .sourceCode => constant "source_code"
  | .searchResults => constant "search"
  | .buildOutput => constant "build"
  | .gitDiff => constant "diff"
  | .html => constant "html"
  | .plainText => constant "text"

def thresholdJsonArray : ℕ := 512
def thresholdBuildOutput : ℕ := 512
def thresholdSearchResults : ℕ := 512
def thresholdGitDiff : ℕ := 512
def thresholdSourceCode : ℕ := 512
def thresholdPlainText : ℕ := 512
def thresholdHtml : ℕ := 512

def thresholdFor : ContentType → ℕ
  | .jsonArray => thresholdJsonArray
  | .buildOutput => thresholdBuildOutput
  | .searchResults => thresholdSearchResults
  | .gitDiff => thresholdGitDiff
  | .sourceCode => thresholdSourceCode
  | .plainText => thresholdPlainText
  | .html => thresholdHtml

@[simp]
theorem thresholdFor_eq (contentType : ContentType) : thresholdFor contentType = 512 := by
  cases contentType <;> rfl

inductive AuthMode where
  | payg
  | oauth
  | subscription
  | unknown
  deriving DecidableEq, Repr

inductive ExclusionReason where
  | belowFrozenFloor
  | aboveLiveZone
  | hotZoneBlockType
  deriving DecidableEq, Repr

inductive BlockAction where
  | noCompressionApplied (contentType : Utf8String)
  | compressed (strategy : Utf8String)
      (originalBytes compressedBytes originalTokens compressedTokens : ℕ)
  | compressorError (strategy error : Utf8String)
  | rejectedNotSmaller (strategy : Utf8String)
      (originalBytes compressedBytes originalTokens compressedTokens : ℕ)
  | belowByteThreshold (contentType : Utf8String) (byteCount thresholdBytes : ℕ)
  | excluded (reason : ExclusionReason)
  deriving DecidableEq

def BlockAction.isCompressed : BlockAction → Bool
  | .compressed .. => true
  | _ => false

structure BlockOutcome where
  messageIndex : ℕ
  blockIndex : Option ℕ
  blockType : Utf8String
  action : BlockAction
  deriving DecidableEq

structure CompressionManifest where
  messagesTotal : ℕ
  messagesBelowFrozenFloor : ℕ
  latestUserMessageIndex : Option ℕ
  blockOutcomes : List BlockOutcome
  deriving DecidableEq

namespace CompressionManifest

def empty : CompressionManifest := ⟨0, 0, none, []⟩

def hasCompressedBlock (manifest : CompressionManifest) : Bool :=
  manifest.blockOutcomes.any fun outcome => outcome.action.isCompressed

/-- The saving that one outcome reports, saturating at zero. -/
def savedBy : BlockAction → Option ℕ
  | .compressed _ _ _ originalTokens compressedTokens =>
      some (originalTokens - compressedTokens)
  | _ => none

def tokensSaved (manifest : CompressionManifest) : ℕ :=
  (manifest.blockOutcomes.filterMap fun outcome => savedBy outcome.action).sum

end CompressionManifest

inductive LiveZoneOutcome where
  | noChange (manifest : CompressionManifest)
  | modified (newBody : Bytes) (manifest : CompressionManifest)
  deriving DecidableEq

def LiveZoneOutcome.manifest : LiveZoneOutcome → CompressionManifest
  | .noChange manifest => manifest
  | .modified _ manifest => manifest

/-- The body that is sent on. -/
def LiveZoneOutcome.body (bodyRaw : Bytes) : LiveZoneOutcome → Bytes
  | .noChange _ => bodyRaw
  | .modified newBody _ => newBody

inductive LiveZoneError where
  | bodyNotJson
  | noMessagesArray
  deriving DecidableEq, Repr

end Legroom.LiveZone
