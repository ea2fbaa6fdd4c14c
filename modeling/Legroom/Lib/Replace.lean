import Mathlib.Data.List.Infix

/-!
# Replacing

`replaceAll` replaces the matches of a needle from left to right; a match begins
where the one before it has ended.
-/

namespace Legroom

variable {α : Type*} [DecidableEq α]

/-- Replace in a text whose first items belong to a match already. -/
def replaceFrom (needle new : List α) : ℕ → List α → List α
  | _, [] => []
  | skip + 1, _ :: text => replaceFrom needle new skip text
  | 0, first :: text =>
      if needle <+: first :: text then
        new ++ replaceFrom needle new (needle.length - 1) text
      else first :: replaceFrom needle new 0 text

def replaceAll (needle new text : List α) : List α := replaceFrom needle new 0 text

/-- Count the matches in a text whose first items belong to a match already. -/
def countFrom (needle : List α) : ℕ → List α → ℕ
  | _, [] => 0
  | skip + 1, _ :: text => countFrom needle skip text
  | 0, first :: text =>
      if needle <+: first :: text then countFrom needle (needle.length - 1) text + 1
      else countFrom needle 0 text

/-- How many matches of a needle are replaced. -/
def countAll (needle text : List α) : ℕ := countFrom needle 0 text

theorem replaceFrom_append (needle new : List α) (front text : List α) :
    replaceFrom needle new front.length (front ++ text) = replaceFrom needle new 0 text := by
  induction front with
  | nil => rfl
  | cons first front ih => exact ih

theorem countFrom_append (needle front text : List α) :
    countFrom needle front.length (front ++ text) = countFrom needle 0 text := by
  induction front with
  | nil => rfl
  | cons first front ih => exact ih

variable {needle : List α}

/-- A match at the front is replaced. -/
theorem replaceFrom_needle_append (hneedle : needle ≠ []) (new text : List α) :
    replaceFrom needle new 0 (needle ++ text) = new ++ replaceFrom needle new 0 text := by
  obtain ⟨first, rest, rfl⟩ := List.exists_cons_of_ne_nil hneedle
  have hbegins : first :: rest <+: first :: (rest ++ text) :=
    List.prefix_append (first :: rest) text
  rw [List.cons_append, replaceFrom, if_pos hbegins, List.length_cons, Nat.add_sub_cancel,
    replaceFrom_append]

variable {text : List α}

/-- Where no match begins nothing is replaced. -/
theorem replaceFrom_append_of_not_prefix (new : List α) {front : List α}
    (hfront : ∀ back, back ≠ [] → back <:+ front → ¬needle <+: back ++ text) :
    replaceFrom needle new 0 (front ++ text) = front ++ replaceFrom needle new 0 text := by
  induction front with
  | nil => rfl
  | cons first front ih =>
      have hbegins : ¬needle <+: first :: (front ++ text) :=
        hfront (first :: front) (List.cons_ne_nil _ _) List.suffix_rfl
      rw [List.cons_append, replaceFrom, if_neg hbegins,
        ih fun back hne hback => hfront back hne (hback.trans (List.suffix_cons first front))]
      rfl

theorem countFrom_needle_append (hneedle : needle ≠ []) (text : List α) :
    countFrom needle 0 (needle ++ text) = countFrom needle 0 text + 1 := by
  obtain ⟨first, rest, rfl⟩ := List.exists_cons_of_ne_nil hneedle
  have hbegins : first :: rest <+: first :: (rest ++ text) :=
    List.prefix_append (first :: rest) text
  rw [List.cons_append, countFrom, if_pos hbegins, List.length_cons, Nat.add_sub_cancel,
    countFrom_append]

theorem countFrom_append_of_not_starts {front : List α}
    (hfront : ∀ back, back ≠ [] → back <:+ front → ¬needle <+: back ++ text) :
    countFrom needle 0 (front ++ text) = countFrom needle 0 text := by
  induction front with
  | nil => rfl
  | cons first front ih =>
      have hbegins : ¬needle <+: first :: (front ++ text) :=
        hfront (first :: front) (List.cons_ne_nil _ _) List.suffix_rfl
      rw [List.cons_append, countFrom, if_neg hbegins,
        ih fun back hne hback => hfront back hne (hback.trans (List.suffix_cons first front))]

/-- Without a match nothing changes. -/
theorem replaceAll_of_absent (new : List α) (htext : ¬needle <:+: text) :
    replaceAll needle new text = text := by
  rw [replaceAll, ← List.append_nil text, replaceFrom_append_of_not_prefix]
  · rfl
  · intro back _ hback hbegins
    rw [List.append_nil] at hbegins
    exact htext (hbegins.isInfix.trans hback.isInfix)

end Legroom
