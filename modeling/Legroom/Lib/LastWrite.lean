import Mathlib.Data.List.Infix
import Mathlib.Tactic.Common

/-!
# A field that events overwrite

An event either writes a field or leaves it alone, and no event looks at what was
there.  The field then keeps a protected value exactly when no event of the run
writes another one over it.
-/

namespace Legroom.LastWrite

/-- A state machine of which one field is only overwritten. -/
structure Register (State Event Value : Type*) where
  after : State → Event → State
  value : State → Value
  writes : Event → Option Value
  value_after : ∀ state event, value (after state event) = (writes event).getD (value state)

namespace Register

variable {State Event Value : Type*} (register : Register State Event Value)

def run (state : State) (events : List Event) : State := events.foldl register.after state

/-- The values that the field is given, the first of them before any event. -/
def history (state : State) (events : List Event) : List Value :=
  register.value state :: events.filterMap register.writes

/-- A protected value that the field has at some point stays there. -/
def Keeps (guarded : Value → Prop) (state : State) (events : List Event) : Prop :=
  ∀ front middle, front ++ middle <+: events →
    guarded (register.value (register.run state front)) →
      register.value (register.run state (front ++ middle)) =
        register.value (register.run state front)

/-- The field is the same at every point of a run if every write repeats it. -/
theorem value_run_eq_iff (state : State) (events : List Event) :
    (∀ front, front <+: events →
        register.value (register.run state front) = register.value state) ↔
      ∀ written ∈ events.filterMap register.writes, written = register.value state := by
  induction events generalizing state with
  | nil => simp [run]
  | cons event events ih =>
      have hsplit : (∀ front, front <+: event :: events →
          register.value (register.run state front) = register.value state) ↔
          register.value (register.after state event) = register.value state ∧
            ∀ front, front <+: events →
              register.value (register.run (register.after state event) front) =
                register.value (register.after state event) := by
        constructor
        · intro hsame
          have hfirst := hsame [event] (by simp)
          exact ⟨hfirst, fun front hfront =>
            (hsame (event :: front) (List.cons_prefix_cons.mpr ⟨rfl, hfront⟩)).trans hfirst.symm⟩
        · rintro ⟨hfirst, hrest⟩ front hfront
          cases front with
          | nil => rfl
          | cons head front =>
              obtain ⟨rfl, htail⟩ := List.cons_prefix_cons.mp hfront
              exact (hrest front htail).trans hfirst
      rw [hsplit, ih]
      cases hwrites : register.writes event with
      | none =>
          rw [List.filterMap_cons_none hwrites, register.value_after, hwrites]
          exact and_iff_right rfl
      | some written =>
          rw [List.filterMap_cons_some hwrites, List.forall_mem_cons, register.value_after, hwrites]
          apply and_congr_right
          rintro rfl
          rfl

theorem keeps_cons_iff (guarded : Value → Prop) (state : State) (event : Event)
    (events : List Event) :
    register.Keeps guarded state (event :: events) ↔
      (guarded (register.value state) → ∀ front, front <+: event :: events →
        register.value (register.run state front) = register.value state) ∧
      register.Keeps guarded (register.after state event) events := by
  constructor
  · intro hkeeps
    constructor
    · intro hguarded front hfront
      exact hkeeps [] front hfront hguarded
    · intro front middle hpart
      exact hkeeps (event :: front) middle (List.cons_prefix_cons.mpr ⟨rfl, hpart⟩)
  · rintro ⟨hstart, hrest⟩ front middle hpart hguarded
    cases front with
    | nil => exact hstart hguarded middle hpart
    | cons first front =>
        obtain ⟨rfl, htail⟩ := List.cons_prefix_cons.mp hpart
        exact hrest front middle htail hguarded

/-- A protected value stays if and only if nothing else is written after it. -/
theorem keeps_iff (guarded : Value → Prop) (state : State) (events : List Event) :
    register.Keeps guarded state events ↔
      (register.history state events).Pairwise fun earlier later =>
        guarded earlier → later = earlier := by
  induction events generalizing state with
  | nil =>
      have hkeeps : register.Keeps guarded state [] := by
        intro front middle hpart _
        obtain ⟨rfl, rfl⟩ := List.append_eq_nil_iff.mp (List.prefix_nil.mp hpart)
        rfl
      exact iff_of_true hkeeps (List.pairwise_singleton _ _)
  | cons event events ih =>
      have hhistory : register.history state (event :: events) =
          register.value state :: (event :: events).filterMap register.writes := rfl
      rw [keeps_cons_iff, ih, value_run_eq_iff, hhistory, List.pairwise_cons]
      have hstart : (guarded (register.value state) →
          ∀ written ∈ (event :: events).filterMap register.writes,
            written = register.value state) ↔
          ∀ written ∈ (event :: events).filterMap register.writes,
            guarded (register.value state) → written = register.value state :=
        ⟨fun hall written hmem hguarded => hall hguarded written hmem,
          fun hall hguarded written hmem => hall written hmem hguarded⟩
      rw [hstart]
      apply and_congr_right
      intro hall
      rw [history, register.value_after]
      cases hwrites : register.writes event with
      | none =>
          rw [List.filterMap_cons_none hwrites] at hall ⊢
          rw [Option.getD_none, List.pairwise_cons]
          exact and_iff_right hall
      | some written =>
          rw [List.filterMap_cons_some hwrites, Option.getD_some]

end Register

end Legroom.LastWrite
