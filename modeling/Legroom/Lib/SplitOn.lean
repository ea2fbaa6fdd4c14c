import Mathlib.Data.List.Basic
import Mathlib.Tactic.Common

/-!
# Splitting lists

The pieces between separators hold none of them, and are as many as there are separators
and one.
-/

namespace Legroom

variable {α : Type*}
variable {sep : α → Bool} {values piece : List α}

theorem not_sep_of_mem_splitOnP (hpiece : piece ∈ values.splitOnP sep) :
    ∀ value ∈ piece, sep value = false := by
  induction values generalizing piece with
  | nil =>
      rw [List.splitOnP_nil, List.mem_singleton] at hpiece
      rw [hpiece]
      exact fun value hvalue => absurd hvalue List.not_mem_nil
  | cons value values ih =>
      obtain ⟨first, rest, hsplit⟩ := List.exists_cons_of_ne_nil (List.splitOnP_ne_nil sep values)
      rw [List.splitOnP_cons_eq_if_modifyHead, hsplit] at hpiece
      rw [hsplit] at ih
      split_ifs at hpiece with hsep
      · rcases List.mem_cons.mp hpiece with rfl | hpiece
        · exact fun value hvalue => absurd hvalue List.not_mem_nil
        · exact ih hpiece
      · rw [List.modifyHead_cons] at hpiece
        rcases List.mem_cons.mp hpiece with rfl | hpiece
        · rw [Bool.not_eq_true] at hsep
          exact List.forall_mem_cons.mpr ⟨hsep, ih List.mem_cons_self⟩
        · exact ih (List.mem_cons_of_mem first hpiece)

/-- The first piece is at the start of the list, and every other one is somewhere in it. -/
theorem splitOnP_pieces (sep : α → Bool) (values : List α) :
    ∃ first rest, values.splitOnP sep = first :: rest ∧ first <+: values ∧
      ∀ piece ∈ rest, piece <:+: values := by
  induction values with
  | nil =>
      exact ⟨[], [], List.splitOnP_nil, List.prefix_refl [],
        fun piece hpiece => absurd hpiece List.not_mem_nil⟩
  | cons value values ih =>
      obtain ⟨first, rest, hsplit, hfirst, hrest⟩ := ih
      have hlater : ∀ piece ∈ rest, piece <:+: value :: values := fun piece hpiece =>
        List.infix_cons (hrest piece hpiece)
      rw [List.splitOnP_cons_eq_if_modifyHead, hsplit]
      split_ifs
      · exact ⟨[], first :: rest, rfl, List.nil_prefix,
          List.forall_mem_cons.mpr ⟨List.infix_cons hfirst.isInfix, hlater⟩⟩
      · exact ⟨value :: first, rest, rfl, (List.prefix_cons_inj value).mpr hfirst, hlater⟩

theorem isInfix_of_mem_splitOnP (hpiece : piece ∈ values.splitOnP sep) : piece <:+: values := by
  obtain ⟨first, rest, hsplit, hfirst, hrest⟩ := splitOnP_pieces sep values
  rw [hsplit] at hpiece
  rcases List.mem_cons.mp hpiece with rfl | hpiece
  · exact hfirst.isInfix
  · exact hrest piece hpiece

/-- A piece has the values of the list. -/
theorem mem_of_mem_splitOnP (hpiece : piece ∈ values.splitOnP sep) :
    ∀ value ∈ piece, value ∈ values :=
  fun _ hvalue => (isInfix_of_mem_splitOnP hpiece).subset hvalue

/-- Two stretches of pieces are joined by a separator. -/
theorem intercalate_append (sep : α) {left right : List (List α)} (hleft : left ≠ [])
    (hright : right ≠ []) :
    [sep].intercalate (left ++ right) =
      [sep].intercalate left ++ sep :: [sep].intercalate right := by
  obtain ⟨first, rest, rfl⟩ := List.exists_cons_of_ne_nil hright
  induction left with
  | nil => exact absurd rfl hleft
  | cons piece left ih =>
      cases left with
      | nil => rw [List.singleton_append, List.intercalate_cons_cons, List.intercalate_singleton,
          List.append_assoc, List.singleton_append]
      | cons second left =>
          rw [List.cons_append, List.cons_append, List.intercalate_cons_cons, ← List.cons_append,
            ih (List.cons_ne_nil second left), List.intercalate_cons_cons]
          simp only [List.append_assoc]

/-- What comes before the first separator, and behind it. -/
theorem eq_of_append_cons {sep : α} {left right behind after : List α} (hleft : sep ∉ left)
    (hright : sep ∉ right) (heq : left ++ sep :: behind = right ++ sep :: after) :
    left = right ∧ behind = after := by
  induction left generalizing right with
  | nil =>
      cases right with
      | nil => exact ⟨rfl, (List.cons.inj heq).2⟩
      | cons first right =>
          rw [(List.cons.inj heq).1] at hright
          exact absurd List.mem_cons_self hright
  | cons first left ih =>
      cases right with
      | nil =>
          rw [(List.cons.inj heq).1] at hleft
          exact absurd List.mem_cons_self hleft
      | cons other right =>
          obtain ⟨rfl, hrest⟩ := List.cons.inj heq
          obtain ⟨rfl, hbehind⟩ := ih (mt (List.mem_cons_of_mem _) hleft)
            (mt (List.mem_cons_of_mem _) hright) hrest
          exact ⟨rfl, hbehind⟩

variable [DecidableEq α]

theorem not_mem_of_mem_splitOn {sep : α} (hpiece : piece ∈ values.splitOn sep) : sep ∉ piece := by
  intro hsep
  have hnot := not_sep_of_mem_splitOnP hpiece sep hsep
  rw [beq_self_eq_true] at hnot
  exact Bool.noConfusion hnot

/-- There is one more piece than there are separators. -/
theorem length_splitOn (sep : α) (values : List α) :
    (values.splitOn sep).length = values.count sep + 1 := by
  induction values with
  | nil => rfl
  | cons value values ih =>
      rw [List.splitOn_cons_eq_if_modifyHead, List.count_cons]
      split_ifs
      · rw [List.length_cons, ih]
      · rw [List.length_modifyHead, ih, Nat.add_zero]

variable {pieces : List (List α)}

omit [DecidableEq α] in
theorem infix_intercalate (separator : List α) (hpiece : piece ∈ pieces) :
    piece <:+: separator.intercalate pieces := by
  induction pieces with
  | nil => exact absurd hpiece List.not_mem_nil
  | cons first pieces ih =>
      cases pieces with
      | nil =>
          have hwhole : separator.intercalate [first] = first := List.intercalate_singleton
          exact (List.mem_singleton.mp hpiece).trans hwhole.symm ▸ List.infix_rfl
      | cons second pieces =>
          rw [List.intercalate_cons_cons]
          rcases List.mem_cons.mp hpiece with rfl | hpiece
          · rw [List.append_assoc]
            exact (List.prefix_append _ _).isInfix
          · exact (ih hpiece).trans (List.suffix_append _ _).isInfix

theorem count_intercalate {sep : α} (hpieces : ∀ piece ∈ pieces, sep ∉ piece) (hne : pieces ≠ []) :
    ([sep].intercalate pieces).count sep + 1 = pieces.length := by
  rw [← length_splitOn, List.splitOn_intercalate sep hpieces hne]

end Legroom
