import Legroom.Lib.SplitOn
import Legroom.Lib.TokenScan

/-!
# Tokens in brackets

Names between two brackets on either side are tokens.  A new text that overlaps with no token
does not make one up with what is around it.
-/

namespace Legroom

open Segment

/-! ## Brackets -/

/-- Names without brackets. -/
structure Brackets (α : Type*) where
  left : α
  right : α
  left_ne_right : left ≠ right
  name : ℕ → List α
  name_injective : Function.Injective name
  left_not_mem : ∀ number, left ∉ name number
  right_not_mem : ∀ number, right ∉ name number

namespace Brackets

variable {α : Type*} (brackets : Brackets α)

/-- What follows the first two brackets. -/
def behind (number : ℕ) : List α := brackets.name number ++ [brackets.right, brackets.right]

def token (number : ℕ) : List α := brackets.left :: brackets.left :: brackets.behind number

theorem left_not_mem_behind (number : ℕ) : brackets.left ∉ brackets.behind number := by
  intro hmem
  rcases List.mem_append.mp hmem with hmem | hmem
  · exact brackets.left_not_mem number hmem
  · rw [List.mem_cons, List.mem_singleton, or_self] at hmem
    exact brackets.left_ne_right hmem

theorem behind_ne_nil (number : ℕ) : brackets.behind number ≠ [] := by
  simp [behind]

variable {mark other : ℕ} {text : List α}

theorem eq_of_prefix (hbegins : brackets.token mark <+: brackets.token other ++ text) :
    mark = other := by
  obtain ⟨rest, hrest⟩ := hbegins
  have hbehind : brackets.behind mark ++ rest = brackets.behind other ++ text :=
    (List.cons.inj (List.cons.inj hrest).2).2
  -- A name ends at the first bracket.
  rw [behind, behind, List.append_assoc, List.append_assoc] at hbehind
  exact brackets.name_injective (eq_of_append_cons (brackets.right_not_mem mark)
    (brackets.right_not_mem other) hbehind).1

variable {front back : List α}

/-- A token begins with its only two left brackets. -/
theorem back_cases {number : ℕ} (hback : brackets.token number = front ++ back)
    (hfront : front ≠ []) (hne : back ≠ []) :
    back = brackets.left :: brackets.behind number ∨
      ∃ value rest, back = value :: rest ∧ value ≠ brackets.left := by
  obtain ⟨first, front, rfl⟩ := List.exists_cons_of_ne_nil hfront
  have hrest := (List.cons.inj hback).2
  cases front with
  | nil => exact .inl hrest.symm
  | cons second front =>
      obtain ⟨value, rest, rfl⟩ := List.exists_cons_of_ne_nil hne
      refine .inr ⟨value, rest, rfl, ?_⟩
      rintro rfl
      apply brackets.left_not_mem_behind number
      rw [(List.cons.inj hrest).2]
      simp

theorem not_prefix_brackets (text : List α) {number : ℕ}
    (hback : brackets.token number = front ++ back) (hfront : front ≠ []) (hne : back ≠ []) :
    (¬∃ rest, back ++ text = brackets.left :: brackets.left :: rest) ∧
      ¬back <+: brackets.left :: brackets.left :: text := by
  obtain ⟨value, behind, hbehind⟩ := List.exists_cons_of_ne_nil (brackets.behind_ne_nil number)
  have hvalue : value ≠ brackets.left := by
    rintro rfl
    apply brackets.left_not_mem_behind number
    rw [hbehind]
    exact List.mem_cons_self
  rcases brackets.back_cases hback hfront hne with rfl | ⟨first, more, rfl, hfirst⟩
  · rw [hbehind]
    refine ⟨fun ⟨rest, hrest⟩ => ?_, fun hbegins => ?_⟩
    · exact hvalue (List.cons.inj (List.cons.inj hrest).2).1
    · exact hvalue (List.cons_prefix_cons.mp (List.cons_prefix_cons.mp hbegins).2).1
  · exact ⟨fun ⟨rest, hrest⟩ => hfirst (List.cons.inj hrest).1,
      fun hbegins => hfirst (List.cons_prefix_cons.mp hbegins).1⟩

theorem not_prefix_back (hback : brackets.token other = front ++ back) (hfront : front ≠ [])
    (hne : back ≠ []) : ¬brackets.token mark <+: back ++ text := by
  rintro ⟨rest, hrest⟩
  exact (brackets.not_prefix_brackets text hback hfront hne).1 ⟨_, hrest.symm⟩

theorem prefix_of_append (hfront : front ≠ [])
    (hbegins : brackets.token mark <+: front ++ (brackets.token other ++ text)) :
    brackets.token mark <+: front := by
  by_contra hnot
  have hlength : front.length < (brackets.token mark).length := by
    by_contra hle
    exact hnot (List.prefix_of_prefix_length_le hbegins (List.prefix_append front _)
      (Nat.le_of_not_lt hle))
  -- The token would reach into the other one.
  obtain ⟨back, hback⟩ := List.prefix_of_prefix_length_le (List.prefix_append front _) hbegins
    hlength.le
  have hne : back ≠ [] := by
    rintro rfl
    rw [List.append_nil] at hback
    rw [hback] at hlength
    exact lt_irrefl _ hlength
  rw [← hback, List.prefix_append_right_inj] at hbegins
  exact (brackets.not_prefix_brackets _ hback.symm hfront hne).2 hbegins

def tokens : Tokens α where
  token := brackets.token
  ne_nil _ := List.cons_ne_nil _ _
  eq_of_prefix := brackets.eq_of_prefix
  not_prefix_back := brackets.not_prefix_back
  prefix_of_append := brackets.prefix_of_append

end Brackets

/-! ## Overlaps -/

/-- Texts that share items where the one begins in the other. -/
def Overlaps {α : Type*} (left right : List α) : Prop :=
  left <:+: right ∨ right <:+: left ∨
    (∃ shared, shared ≠ [] ∧ shared <:+ left ∧ shared <+: right) ∨
    ∃ shared, shared ≠ [] ∧ shared <+: left ∧ shared <:+ right

/-! ## Places -/

namespace Segment

variable {α : Type*}

/-- Texts in the places of the marks. -/
def fill (texts : ℕ → List α) (segments : List (Segment α)) : List α :=
  segments.flatMap fun segment =>
    match segment with
    | .item value => [value]
    | .mark number => texts number

end Segment

namespace Tokens

variable {α : Type*} {tokens : Tokens α} {number limit : ℕ} {news : ℕ → List α}
variable {segments : List (Segment α)}

theorem not_mem_of_marks {number : ℕ} (hmarks : marks number segments = 0) :
    .mark number ∉ segments := by
  intro hmem
  have hnot := List.countP_eq_zero.mp hmarks _ hmem
  simp at hnot

theorem render_expand (hlimit : ∀ number, .mark number ∈ segments → number < limit) :
    tokens.render (expand news limit segments) = fill news segments := by
  induction segments with
  | nil => rfl
  | cons segment segments ih =>
      have hrest := ih fun number hmem => hlimit number (List.mem_cons_of_mem _ hmem)
      cases segment with
      | item value =>
          rw [expand_cons_item, render_cons_item, hrest]
          rfl
      | mark other =>
          rw [expand_cons_mark, if_pos (hlimit other List.mem_cons_self), render_append,
            render_map_item, hrest]
          rfl

section

variable (happart : ∀ other < limit, ¬Overlaps (tokens.token number) (news other))

include happart in
/-- A token does not reach into a new text. -/
theorem prefix_of_apart {front : List α} {segments : List (Segment α)}
    (hbegins : tokens.token number <+: front ++ run (expand news limit segments)) :
    tokens.token number <+: front ++ run segments := by
  induction segments generalizing front with
  | nil => exact hbegins
  | cons segment segments ih =>
      cases segment with
      | item value =>
          rw [expand_cons_item, run, List.append_cons] at hbegins
          rw [run, List.append_cons]
          exact ih hbegins
      | mark other =>
          rw [expand_cons_mark] at hbegins
          change tokens.token number <+: front ++ []
          rw [List.append_nil]
          split_ifs at hbegins with hother
          · rw [run_map_item_append] at hbegins
            rcases List.prefix_or_prefix_of_prefix hbegins (List.prefix_append front _) with
              hfront | ⟨shared, htoken⟩
            · exact hfront
            · rw [← htoken, List.prefix_append_right_inj] at hbegins
              by_cases hne : shared = []
              · rw [← htoken, hne, List.append_nil]
              · refine absurd ?_ (happart other hother)
                rcases List.prefix_or_prefix_of_prefix hbegins (List.prefix_append (news other) _)
                  with hshared | hnew
                · exact .inr (.inr (.inl ⟨shared, hne, ⟨front, htoken⟩, hshared⟩))
                · have hbehind : shared <:+ tokens.token number := ⟨front, htoken⟩
                  exact .inr (.inl (hnew.isInfix.trans hbehind.isInfix))
          · change tokens.token number <+: front ++ [] at hbegins
            rwa [List.append_nil] at hbegins

include happart in
/-- New texts that overlap with no token spell none. -/
theorem clear_expand_of_apart {segments : List (Segment α)}
    (hclear : tokens.Clear number segments) :
    tokens.Clear number (expand news limit segments) := by
  induction segments with
  | nil => exact clear_nil number
  | cons segment segments ih =>
      cases segment with
      | item value =>
          obtain ⟨hvalue, hrest⟩ := clear_cons_item.mp hclear
          rw [expand_cons_item]
          exact clear_cons_item.mpr
            ⟨mt (@prefix_of_apart _ _ _ _ _ happart [value] _) hvalue, ih hrest⟩
      | mark other =>
          have hrest := ih (clear_cons_mark.mp hclear)
          rw [expand_cons_mark]
          split_ifs with hother
          · refine clear_map_item_append.mpr ⟨fun back hne hback hbegins => ?_, hrest⟩
            refine happart other hother ?_
            rcases List.prefix_or_prefix_of_prefix hbegins (List.prefix_append back _) with
              htoken | hshared
            · exact .inl (htoken.isInfix.trans hback.isInfix)
            · exact .inr (.inr (.inr ⟨back, hne, hshared, hback⟩))
          · exact clear_cons_mark.mpr hrest

end

/-! ## Counting -/

section

variable [DecidableEq α]

/-- Where no token is spelled the marks are counted. -/
theorem count_render {segments : List (Segment α)} (hclear : tokens.Clear number segments) :
    countAll (tokens.token number) (tokens.render segments) = marks number segments := by
  induction segments with
  | nil => rfl
  | cons segment segments ih =>
      cases segment with
      | item value =>
          obtain ⟨hvalue, hrest⟩ := clear_cons_item.mp hclear
          have hbegins : ¬tokens.token number <+: value :: tokens.render segments :=
            mt tokens.prefix_render_iff.mp hvalue
          rw [render_cons_item, countAll, countFrom, if_neg hbegins, ← countAll, ih hrest]
          simp [marks]
      | mark other =>
          have hrest := ih (clear_cons_mark.mp hclear)
          have hmarks : marks number (.mark other :: segments) =
              marks number segments + if other = number then 1 else 0 := by
            simp [marks, List.countP_cons]
          rw [render_cons_mark, countAll, hmarks, ← hrest]
          by_cases hother : other = number
          · subst hother
            rw [countFrom_needle_append (tokens.ne_nil other), if_pos rfl, countAll]
          · rw [countFrom_append_of_not_starts (tokens.not_prefix_token_append hother _),
              if_neg hother, countAll, Nat.add_zero]

variable {count : ℕ}

theorem marks_scan_of_le (hnumber : count ≤ number) (skip : ℕ) (text : List α) :
    marks number (tokens.scan count skip text) = 0 := by
  induction text generalizing skip with
  | nil => cases skip <;> rfl
  | cons first text ih =>
      cases skip with
      | succ skip => exact ih skip
      | zero =>
          rw [scan]
          split
          · rename_i other hfind
            have hother := List.mem_range.mp (List.mem_of_find?_eq_some hfind)
            rw [marks, List.countP_cons_of_neg, ← marks, ih]
            simpa using (hother.trans_le hnumber).ne
          · rw [marks, List.countP_cons_of_neg, ← marks, ih]
            exact Bool.false_ne_true

theorem restored_congr {other : ℕ → List α} (hsame : ∀ number < count, news number = other number)
    (text : List α) : tokens.restored news count text = tokens.restored other count text := by
  induction count with
  | zero => rfl
  | succ count ih =>
      rw [restored, restored, hsame count (Nat.lt_succ_self count),
        ih fun number hnumber => hsame number (Nat.lt_succ_of_lt hnumber)]

/-- If every token is in a text once and overlaps with no new text, each new text comes into the
place of its token. -/
theorem exists_places {text : List α}
    (honce : ∀ number < count, countAll (tokens.token number) text = 1)
    (happart : ∀ number < count, ∀ other < number, ¬Overlaps (tokens.token number) (news other)) :
    ∃ segments, text = fill tokens.token segments ∧
      tokens.restored news count text = fill news segments ∧
      ∀ number, marks number segments = if number < count then 1 else 0 := by
  have htext : tokens.render (tokens.scan count 0 text) = text := tokens.render_scan count 0 text
  have hmarks : ∀ number, marks number (tokens.scan count 0 text) =
      if number < count then 1 else 0 := by
    intro number
    split_ifs with hnumber
    · rw [← count_render (tokens.clear_scan hnumber 0 text), htext, honce number hnumber]
    · exact marks_scan_of_le (Nat.le_of_not_lt hnumber) 0 text
  refine ⟨tokens.scan count 0 text, htext.symm, ?_, hmarks⟩
  nth_rewrite 1 [← htext]
  rw [tokens.restored_render fun number hnumber => clear_expand_of_apart (happart number hnumber)
    (tokens.clear_scan hnumber 0 text)]
  refine render_expand fun number hmark => ?_
  by_contra hnot
  have hnone := hmarks number
  rw [if_neg hnot] at hnone
  exact absurd hmark (not_mem_of_marks hnone)

end

end Tokens

end Legroom
