import Legroom.LiveZone.AnthropicFrame

/-!
# The floor below which messages are frozen

A `cache_control` marker on a content block pins every message up to its own.
The walker finds the highest marked message, and the dispatcher run with the
floor above it leaves all those messages alone.
-/

namespace Legroom.LiveZone

open Utf8 Json

/-! ## The walker -/

/-- One marker on the message at `position`. -/
def bump (highestMessageIndex : Option ℕ) (position : ℕ) : Option ℕ :=
  some (match highestMessageIndex with
    | some previous => max previous position
    | none => position)

def isMarked (block : Value) : Bool := (block.get (constant "cache_control")).isSome

/-- The content blocks of a message, if its content is a list. -/
def contentBlocks (message : Value) : List Value :=
  ((message.get (constant "content")).bind Value.asArray).getD []

def walkBlocks (position : ℕ) (highestMessageIndex : Option ℕ) (blocks : List Value) :
    Option ℕ :=
  blocks.foldl (fun highest block => if isMarked block then bump highest position else highest)
    highestMessageIndex

/-- The loop of `walk_messages`, from `position` on. -/
def walkFrom : ℕ → Option ℕ → List Value → Option ℕ
  | _, highestMessageIndex, [] => highestMessageIndex
  | position, highestMessageIndex, message :: messages =>
      walkFrom (position + 1)
        (walkBlocks position highestMessageIndex (contentBlocks message)) messages

def walkMessages (parsed : Value) (highestMessageIndex : Option ℕ) : Option ℕ :=
  match (parsed.get (constant "messages")).bind Value.asArray with
  | none => highestMessageIndex
  | some messages => walkFrom 0 highestMessageIndex messages

def computeFrozenCount (parsed : Value) : ℕ :=
  match walkMessages parsed none with
  | some position => position + 1
  | none => 0

/-! ## The highest marker -/

/-- The message at `position` carries a marker on a content block. -/
def Marked (messages : List Value) (position : ℕ) : Prop :=
  ∃ message ∈ messages[position]?, ∃ block ∈ contentBlocks message,
    isMarked block = true

/-- `highest` is the greatest number with a property, `none` if there is none. -/
structure IsHighest (holds : ℕ → Prop) (highest : Option ℕ) : Prop where
  attained : ∀ position ∈ highest, holds position
  bounds : ∀ position, holds position → ∃ last ∈ highest, position ≤ last

variable {holds : ℕ → Prop} {highest : Option ℕ}

theorem IsHighest.bump (hhighest : IsHighest holds highest) (position : ℕ) :
    IsHighest (fun other => holds other ∨ other = position) (bump highest position) := by
  obtain ⟨hattained, hbounds⟩ := hhighest
  cases highest with
  | none =>
      refine ⟨fun last hlast => ?_, fun other hother => ⟨position, rfl, ?_⟩⟩
      · exact Or.inr (Option.some.inj hlast).symm
      · rcases hother with hother | rfl
        · obtain ⟨last, hlast, _⟩ := hbounds other hother
          cases hlast
        · exact le_rfl
  | some previous =>
      refine ⟨fun last hlast => ?_, fun other hother => ⟨max previous position, rfl, ?_⟩⟩
      · obtain rfl : max previous position = last := Option.some.inj hlast
        rcases le_total previous position with hle | hle
        · exact Or.inr (max_eq_right hle)
        · have hsame : max previous position = previous := max_eq_left hle
          exact Or.inl (by rw [hsame]; exact hattained previous rfl)
      · rcases hother with hother | rfl
        · obtain ⟨last, hlast, hle⟩ := hbounds other hother
          cases hlast
          exact hle.trans (le_max_left _ _)
        · exact le_max_right _ _

theorem IsHighest.congr {other : ℕ → Prop} (hhighest : IsHighest holds highest)
    (hsame : ∀ position, holds position ↔ other position) : IsHighest other highest := by
  have heq : holds = other := funext fun position => propext (hsame position)
  exact heq ▸ hhighest

theorem bump_bump (highest : Option ℕ) (position : ℕ) :
    bump (bump highest position) position = bump highest position := by
  cases highest <;> simp [bump]

/-- The blocks of one message raise the floor once. -/
theorem walkBlocks_eq (position : ℕ) (highest : Option ℕ) (blocks : List Value) :
    walkBlocks position highest blocks =
      if blocks.any isMarked then bump highest position else highest := by
  induction blocks generalizing highest with
  | nil => rfl
  | cons block blocks ih =>
      have hstep : walkBlocks position highest (block :: blocks) =
          walkBlocks position (if isMarked block then bump highest position else highest)
            blocks := rfl
      rw [hstep, ih]
      cases hblock : isMarked block <;> simp [hblock, bump_bump]

theorem marked_cons_zero (message : Value) (messages : List Value) :
    Marked (message :: messages) 0 ↔ (contentBlocks message).any isMarked = true := by
  simp [Marked]

theorem marked_cons_succ (message : Value) (messages : List Value) (position : ℕ) :
    Marked (message :: messages) (position + 1) ↔ Marked messages position := by
  simp [Marked]

theorem isHighest_walkFrom {start : ℕ} (hhighest : IsHighest holds highest) (messages : List
      Value) :
    IsHighest (fun position => holds position ∨
        ∃ offset, position = start + offset ∧ Marked messages offset)
      (walkFrom start highest messages) := by
  induction messages generalizing holds start highest with
  | nil => exact hhighest.congr fun position => by simp [Marked]
  | cons message messages ih =>
      have hfirst : IsHighest (fun position => holds position ∨
            (position = start ∧ (contentBlocks message).any isMarked = true))
          (walkBlocks start highest (contentBlocks message)) := by
        rw [walkBlocks_eq]
        split_ifs with hmarked
        · exact (hhighest.bump start).congr fun position => by simp [hmarked]
        · exact hhighest.congr fun position => by simp [hmarked]
      rw [walkFrom]
      refine (ih hfirst).congr fun position => ?_
      rw [or_assoc]
      refine or_congr_right ⟨?_, ?_⟩
      · rintro (⟨rfl, hmarked⟩ | ⟨offset, rfl, hmarked⟩)
        · exact ⟨0, rfl, (marked_cons_zero _ _).mpr hmarked⟩
        · exact ⟨offset + 1, by omega, (marked_cons_succ _ _ _).mpr hmarked⟩
      · rintro ⟨offset, rfl, hmarked⟩
        cases offset with
        | zero => exact Or.inl ⟨rfl, (marked_cons_zero _ _).mp hmarked⟩
        | succ offset =>
            exact Or.inr ⟨offset, by omega, (marked_cons_succ _ _ _).mp hmarked⟩

/-- The floor is one above the highest marked message. -/
theorem computeFrozenCount_spec {parsed : Value} {messages : List Value}
    (hmessages : (parsed.get (constant "messages")).bind Value.asArray = some messages) :
    (∀ position, Marked messages position → position < computeFrozenCount parsed) ∧
      (computeFrozenCount parsed = 0 ∨
        Marked messages (computeFrozenCount parsed - 1)) := by
  have hnone : IsHighest (fun _ => False) none :=
    ⟨fun _ hposition => absurd hposition (by simp),
      fun _ hholds => hholds.elim⟩
  have hwalk : IsHighest _ (walkFrom 0 none messages) := isHighest_walkFrom hnone messages
  rw [computeFrozenCount, walkMessages, hmessages]
  simp only
  cases hhighest : walkFrom 0 none messages with
  | none =>
      rw [hhighest] at hwalk
      refine ⟨fun position hmarked => ?_, Or.inl rfl⟩
      obtain ⟨last, hlast, _⟩ := hwalk.bounds position
        (Or.inr ⟨position, (Nat.zero_add _).symm, hmarked⟩)
      cases hlast
  | some highest =>
      rw [hhighest] at hwalk
      refine ⟨fun position hmarked => ?_, Or.inr ?_⟩
      · obtain ⟨last, hlast, hle⟩ := hwalk.bounds position
          (Or.inr ⟨position, (Nat.zero_add _).symm, hmarked⟩)
        cases hlast
        exact Nat.lt_succ_of_le hle
      · rcases hwalk.attained highest rfl with hfalse | ⟨offset, rfl, hmarked⟩
        · exact hfalse.elim
        · rw [Nat.add_sub_cancel, Nat.zero_add]
          exact hmarked

/-! ## Frozen messages keep their bytes -/

variable (backend : Backend) {State : Type*} (model : Utf8String)
  (ccrStore : Option (CcrStore State))

/-- Run with the floor of its markers, the dispatcher keeps every message up to the
last marked one. -/
theorem compressAnthropicLiveZone_keeps_frozen {bodyRaw : Bytes} {value : Value}
    (hvalue : valueFromSlice bodyRaw = some value) {messages : List Value}
    (hmessages : (value.get (constant "messages")).bind Value.asArray = some messages)
    (authMode : AuthMode) (store : State) :
    (∀ position, Marked messages position → position < computeFrozenCount value) ∧
      (computeFrozenCount value = 0 ∨ Marked messages (computeFrozenCount value - 1)) ∧
      ∃ outcome,
        (compressAnthropicLiveZoneWithCcr backend model ccrStore bodyRaw
          (computeFrozenCount value) authMode store).1 = .ok outcome ∧
        ∀ position < computeFrozenCount value, ∃ message,
          partBytes bodyRaw [.key (constant "messages"), .index position] = some message ∧
          partBytes (outcome.body bodyRaw)
            [.key (constant "messages"), .index position] = some message := by
  obtain ⟨hbelow, hattained⟩ := computeFrozenCount_spec hmessages
  refine ⟨hbelow, hattained, ?_⟩
  obtain ⟨document, rfl, _, hdenote⟩ := valueFromSlice_eq_some_iff.mp hvalue
  have hget : value.get (constant "messages") = some (.array messages) := by
    obtain ⟨field, hfield, harray⟩ := Option.bind_eq_some_iff.mp hmessages
    rw [hfield, Value.eq_array_of_asArray harray]
  obtain ⟨decisions, manifest, hrun⟩ := compressAnthropic_settled backend model ccrStore
    hvalue hget (computeFrozenCount value) authMode store
  obtain ⟨new, hallowed, _, hresult⟩ := hrun.exists_edit
  refine ⟨_, hresult, fun position hposition => ?_⟩
  have hkept : new.belowPath [.key (constant "messages"), .index position] = .keepAll := by
    funext rest
    by_contra hne
    obtain ⟨target, hlatest, message, _, _, _, hpath⟩ := hallowed _ hne
    have hsteps := (List.cons.inj (List.cons.inj hpath).2).1
    cases hsteps
    exact absurd hlatest.floor_le (Nat.not_le.mpr hposition)
  have hinside : position < messages.length := by
    rcases hattained with hzero | ⟨message, hmessage, _⟩
    · omega
    · have hlast := (List.getElem?_eq_some_iff.mp (Option.mem_def.mp hmessage)).1
      omega
  have hfound : value.at? [.key (constant "messages"), .index position] =
      some messages[position] := by
    simp [Value.at?, hget, Value.asArray, hinside]
  obtain ⟨message, hbytes⟩ := exists_partBytes hdenote hfound
  refine ⟨message, hbytes, ?_⟩
  split_ifs
  · rw [LiveZoneOutcome.body, partBytes_edit hkept, hbytes]
  · exact hbytes

/-- A user message of one text block with a marker. -/
def pinnedBody : Bytes :=
  userBody (ascii "[\x7b\"type\":\"text\",\"text\":" ++ ((quote longWord).bytes ++
    ascii ",\"cache_control\":\x7b\x7d\x7d]"))

def pinnedMessage : Value :=
  userMessage (.array [.object [(constant "type", .string (constant "text")),
    (constant "text", .string longWord), (constant "cache_control", .object [])]])

set_option maxRecDepth 10000 in
theorem compressAnthropicLiveZone_keeps_pinned :
    computeFrozenCount (.object [(constant "messages", .array [pinnedMessage])]) = 1 ∧
      ∃ outcome message,
        (compressAnthropicLiveZoneWithCcr terseBackend (constant "gpt-4o")
          (none : Option (CcrStore Unit)) pinnedBody 1 .payg ()).1 = .ok outcome ∧
        partBytes pinnedBody [.key (constant "messages"), .index 0] = some message ∧
        partBytes (outcome.body pinnedBody) [.key (constant "messages"), .index 0] =
          some message := by
  have hvalue : valueFromSlice pinnedBody =
      some (.object [(constant "messages", .array [pinnedMessage])]) := by rfl
  have hcount :
      computeFrozenCount (.object [(constant "messages", .array [pinnedMessage])]) = 1 := by
    decide +kernel
  obtain ⟨_, _, outcome, hresult, hkept⟩ := compressAnthropicLiveZone_keeps_frozen
    terseBackend (constant "gpt-4o") (none : Option (CcrStore Unit)) hvalue rfl .payg ()
  rw [hcount] at hresult hkept
  obtain ⟨message, hbefore, hafter⟩ := hkept 0 Nat.zero_lt_one
  exact ⟨hcount, outcome, message, hresult, hbefore, hafter⟩

end Legroom.LiveZone
