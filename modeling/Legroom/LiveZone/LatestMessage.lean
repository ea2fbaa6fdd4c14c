import Legroom.Lib.Json.Value
import Legroom.LiveZone.Manifest

/-!
# The latest message of a role

Both chat dispatchers look for the latest message of a role from the back.  One of
them gives up at the floor below which messages are frozen.
-/

namespace Legroom.LiveZone

open Utf8 Json

def isRole (role : Utf8String) (message : Value) : Bool :=
  (message.get (constant "role")).bind Value.asStr = some role

/-- The loop from the back, down to `start`: `position` messages are left to visit. -/
def findLatestFrom (role : Utf8String) (messages : List Value) (start : ℕ) : ℕ → Option ℕ
  | 0 => none
  | position + 1 =>
      if position < start then none
      else if (messages[position]?).any (isRole role) then some position
      else findLatestFrom role messages start position

def findLatestUserMessageIndex (messages : List Value) (floor : ℕ) : Option ℕ :=
  findLatestFrom (constant "user") messages (min floor messages.length) messages.length

def findLatestRoleIndex (messages : List Value) (role : Utf8String) : Option ℕ :=
  findLatestFrom role messages 0 messages.length

/-- `position` holds the latest message of a role, at or above the floor. -/
structure Latest (role : Utf8String) (messages : List Value) (floor position : ℕ) :
    Prop where
  floor_le : floor ≤ position
  role_eq : (messages[position]?).any (isRole role) = true
  latest : ∀ later, position < later → (messages[later]?).any (isRole role) = false

variable {role : Utf8String} {messages : List Value}
variable {position : ℕ}

/-- Only objects have a role. -/
theorem object_of_isRole (hrole : (messages[position]?).any (isRole role) = true) :
    ∃ fields, messages[position]? = some (.object fields) := by
  cases hget : messages[position]? with
  | none =>
      rw [hget] at hrole
      cases hrole
  | some message =>
      rw [hget] at hrole
      cases message with
      | object fields => exact ⟨fields, rfl⟩
      | _ => simp [isRole, Value.get] at hrole

theorem role_unique {other : Utf8String} (hrole : (messages[position]?).any (isRole role) = true)
    (hother : (messages[position]?).any (isRole other) = true) : role = other := by
  cases hget : messages[position]? with
  | none =>
      rw [hget] at hrole
      cases hrole
  | some message =>
      rw [hget] at hrole hother
      have hleft : (message.get (constant "role")).bind Value.asStr = some role :=
        of_decide_eq_true hrole
      have hright : (message.get (constant "role")).bind Value.asStr = some other :=
        of_decide_eq_true hother
      exact Option.some.inj (hleft.symm.trans hright)

theorem lt_length_of_isRole (hrole : (messages[position]?).any (isRole role) = true) :
    position < messages.length := by
  obtain ⟨fields, hget⟩ := object_of_isRole hrole
  exact (List.getElem?_eq_some_iff.mp hget).1

theorem findLatestFrom_step {start bound : ℕ}
    (habove : ∀ later, bound ≤ later → (messages[later]?).any (isRole role) = false) :
    match findLatestFrom role messages start bound with
    | some position => Latest role messages start position
    | none => ∀ position, ¬Latest role messages start position := by
  induction bound with
  | zero =>
      intro position hlatest
      have hrole := hlatest.role_eq
      rw [habove position (Nat.zero_le _)] at hrole
      cases hrole
  | succ bound ih =>
      rw [findLatestFrom]
      split_ifs with hstart hrole
      · intro position hlatest
        have hfloor := hlatest.floor_le
        have hnone := habove position (by omega)
        rw [hlatest.role_eq] at hnone
        cases hnone
      · exact ⟨Nat.not_lt.mp hstart, hrole, fun later hlater => habove later hlater⟩
      · apply ih
        intro later hlater
        rcases Nat.eq_or_lt_of_le hlater with rfl | hlater
        · exact Bool.eq_false_iff.mpr hrole
        · exact habove later hlater

theorem findLatestFrom_spec (role : Utf8String) (messages : List Value) (start : ℕ) :
    match findLatestFrom role messages start messages.length with
    | some position => Latest role messages start position
    | none => ∀ position, ¬Latest role messages start position := by
  apply findLatestFrom_step
  intro later hlater
  rw [List.getElem?_eq_none hlater]
  rfl

/-- The walk finds the latest user message, unless it is below the floor. -/
theorem findLatestUserMessageIndex_spec (messages : List Value) (floor : ℕ) :
    match findLatestUserMessageIndex messages floor with
    | some position => Latest (constant "user") messages floor position
    | none => ∀ position, ¬Latest (constant "user") messages floor position := by
  have hspec := findLatestFrom_spec (constant "user") messages (min floor messages.length)
  have hfloor : ∀ position,
      Latest (constant "user") messages (min floor messages.length) position ↔
        Latest (constant "user") messages floor position := by
    intro position
    constructor
    · rintro ⟨hle, hrole, hlatest⟩
      have hposition := lt_length_of_isRole hrole
      exact ⟨by omega, hrole, hlatest⟩
    · rintro ⟨hle, hrole, hlatest⟩
      exact ⟨(Nat.min_le_left _ _).trans hle, hrole, hlatest⟩
  rw [findLatestUserMessageIndex]
  cases hfind : findLatestFrom (constant "user") messages (min floor messages.length)
      messages.length with
  | none =>
      rw [hfind] at hspec
      exact fun position hlatest => hspec position ((hfloor position).mpr hlatest)
  | some position =>
      rw [hfind] at hspec
      exact (hfloor position).mp hspec

theorem latest_of_findLatestRoleIndex (hfind : position ∈ findLatestRoleIndex messages role) :
    Latest role messages 0 position := by
  have hspec := findLatestFrom_spec role messages 0
  rw [← findLatestRoleIndex, Option.mem_def.mp hfind] at hspec
  exact hspec

end Legroom.LiveZone
