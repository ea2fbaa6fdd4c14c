import Legroom.Lib.Replace
import Mathlib.Data.List.Flatten
import Mathlib.Tactic.Ring

/-!
# Texts with tokens

A text is cut into items and marks; a mark stands for its token.  The tokens are
replaced one after the other.  If no token is spelled by the items, every mark is
replaced and nothing else is; otherwise more is inserted than the marks stand for.
-/

namespace Legroom

/-- Texts that can be told apart: no token overlaps with another. -/
structure Tokens (α : Type*) where
  token : ℕ → List α
  ne_nil : ∀ mark, token mark ≠ []
  eq_of_prefix : ∀ {mark other : ℕ} {text : List α},
    token mark <+: token other ++ text → mark = other
  not_prefix_back : ∀ {mark other : ℕ} {front back text : List α},
    token other = front ++ back → front ≠ [] → back ≠ [] → ¬token mark <+: back ++ text
  prefix_of_append : ∀ {mark other : ℕ} {front text : List α}, front ≠ [] →
    token mark <+: front ++ (token other ++ text) → token mark <+: front

inductive Segment (α : Type*) where
  | item (value : α)
  | mark (number : ℕ)
  deriving DecidableEq

namespace Segment

variable {α : Type*}

/-- The items up to the first mark. -/
def run : List (Segment α) → List α
  | .item value :: segments => value :: run segments
  | _ => []

/-- New items in the place of a mark. -/
def substitute (number : ℕ) (new : List α) (segments : List (Segment α)) : List (Segment α) :=
  segments.flatMap fun segment =>
    match segment with
    | .item value => [.item value]
    | .mark other => if other = number then new.map .item else [.mark other]

/-- The marks below a number replaced. -/
def expand (news : ℕ → List α) (limit : ℕ) (segments : List (Segment α)) : List (Segment α) :=
  segments.flatMap fun segment =>
    match segment with
    | .item value => [.item value]
    | .mark number => if number < limit then (news number).map .item else [.mark number]

theorem expand_zero (news : ℕ → List α) (segments : List (Segment α)) :
    expand news 0 segments = segments := by
  induction segments with
  | nil => rfl
  | cons segment segments ih =>
      rw [expand, List.flatMap_cons, ← expand, ih]
      cases segment <;> rfl

theorem substitute_map_item (number : ℕ) (new values : List α) :
    substitute number new (values.map .item) = values.map .item := by
  induction values with
  | nil => rfl
  | cons value values ih => exact congrArg (Segment.item value :: ·) ih

theorem substitute_append (number : ℕ) (new : List α) (left right : List (Segment α)) :
    substitute number new (left ++ right) =
      substitute number new left ++ substitute number new right :=
  List.flatMap_append

theorem substitute_expand (news : ℕ → List α) (limit : ℕ) (segments : List (Segment α)) :
    substitute limit (news limit) (expand news limit segments) =
      expand news (limit + 1) segments := by
  induction segments with
  | nil => rfl
  | cons segment segments ih =>
      rw [expand, List.flatMap_cons, ← expand, substitute_append, ih, expand, expand,
        List.flatMap_cons]
      congr 1
      cases segment with
      | item value => rfl
      | mark number =>
          dsimp only
          rcases lt_trichotomy number limit with hlt | rfl | hgt
          · rw [if_pos hlt, if_pos (Nat.lt_succ_of_lt hlt), substitute_map_item]
          · rw [if_neg (lt_irrefl _), if_pos (Nat.lt_succ_self _)]
            simp [substitute]
          · rw [if_neg hgt.not_gt, if_neg (Nat.succ_le_of_lt hgt).not_gt]
            simp [substitute, hgt.ne']

end Segment

namespace Tokens

open Segment

variable {α : Type*} (tokens : Tokens α)

def render (segments : List (Segment α)) : List α :=
  segments.flatMap fun segment =>
    match segment with
    | .item value => [value]
    | .mark number => tokens.token number

/-- No token is spelled by the items. -/
def Clear (number : ℕ) (segments : List (Segment α)) : Prop :=
  ∀ back, back <:+ segments → ¬tokens.token number <+: run back

theorem render_cons_item (value : α) (segments : List (Segment α)) :
    tokens.render (.item value :: segments) = value :: tokens.render segments := rfl

theorem render_cons_mark (number : ℕ) (segments : List (Segment α)) :
    tokens.render (.mark number :: segments) = tokens.token number ++ tokens.render segments := rfl

theorem render_mark (number : ℕ) : tokens.render [.mark number] = tokens.token number :=
  List.append_nil _

theorem render_append (left right : List (Segment α)) :
    tokens.render (left ++ right) = tokens.render left ++ tokens.render right :=
  List.flatMap_append

theorem render_map_item (values : List α) : tokens.render (values.map .item) = values := by
  induction values with
  | nil => rfl
  | cons value values ih => exact congrArg (value :: ·) ih

/-- Behind the run comes nothing or a token. -/
theorem render_eq_run (segments : List (Segment α)) :
    tokens.render segments = run segments ∨ ∃ number text,
      tokens.render segments = run segments ++ (tokens.token number ++ text) := by
  induction segments with
  | nil => exact .inl rfl
  | cons segment segments ih =>
      cases segment with
      | item value =>
          rcases ih with ih | ⟨number, text, ih⟩
          · exact .inl (congrArg (value :: ·) ih)
          · exact .inr ⟨number, text, congrArg (value :: ·) ih⟩
      | mark number => exact .inr ⟨number, tokens.render segments, rfl⟩

/-- A token that begins at an item is spelled by items. -/
theorem prefix_render_iff {number : ℕ} {value : α} {segments : List (Segment α)} :
    tokens.token number <+: tokens.render (.item value :: segments) ↔
      tokens.token number <+: run (.item value :: segments) := by
  rcases tokens.render_eq_run (.item value :: segments) with hrender | ⟨other, text, hrender⟩
  · rw [hrender]
  · rw [hrender]
    exact ⟨tokens.prefix_of_append (List.cons_ne_nil _ _),
      fun hbegins => hbegins.trans (List.prefix_append _ _)⟩

/-- A token that another one begins. -/
theorem not_prefix_token_append {number other : ℕ} (hother : other ≠ number) (text : List α) :
    ∀ back, back ≠ [] → back <:+ tokens.token other → ¬tokens.token number <+: back ++ text := by
  rintro back hback ⟨front, hfront⟩ hbegins
  cases front with
  | nil =>
      rw [List.nil_append] at hfront
      rw [hfront] at hbegins
      exact hother (tokens.eq_of_prefix hbegins).symm
  | cons first front =>
      exact tokens.not_prefix_back hfront.symm (List.cons_ne_nil _ _) hback hbegins

section

variable [DecidableEq α]

/-- What replacing a token does to the segments. -/
def replaceMark (number : ℕ) (new : List α) : ℕ → List (Segment α) → List (Segment α)
  | _, [] => []
  | skip + 1, .item _ :: segments => replaceMark number new skip segments
  | 0, .item value :: segments =>
      if tokens.token number <+: run (.item value :: segments) then
        new.map .item ++ replaceMark number new ((tokens.token number).length - 1) segments
      else .item value :: replaceMark number new 0 segments
  | _, .mark other :: segments =>
      (if other = number then new.map .item else [.mark other]) ++
        replaceMark number new 0 segments

variable {number : ℕ} {segments : List (Segment α)}

theorem replaceFrom_render {new : List α} {skip : ℕ} (hskip : skip ≤ (run segments).length) :
    replaceFrom (tokens.token number) new skip (tokens.render segments) =
      tokens.render (tokens.replaceMark number new skip segments) := by
  induction segments generalizing skip with
  | nil => cases skip <;> rfl
  | cons segment segments ih =>
      cases segment with
      | item value =>
          cases skip with
          | succ skip => exact ih (Nat.le_of_succ_le_succ hskip)
          | zero =>
              rw [render_cons_item, replaceFrom, ← render_cons_item, replaceMark]
              by_cases hmatch : tokens.token number <+: run (.item value :: segments)
              · have hlength := hmatch.length_le
                rw [if_pos (tokens.prefix_render_iff.mpr hmatch), if_pos hmatch, render_append,
                  render_map_item, ih (by rw [run, List.length_cons] at hlength; omega)]
              · rw [if_neg (mt tokens.prefix_render_iff.mp hmatch), if_neg hmatch,
                  ih (Nat.zero_le _)]
                rfl
      | mark other =>
          obtain rfl : skip = 0 := Nat.le_zero.mp hskip
          rw [render_cons_mark, replaceMark, render_append, ← ih (Nat.zero_le _)]
          by_cases hother : other = number
          · subst hother
            rw [replaceFrom_needle_append (tokens.ne_nil other), if_pos rfl, render_map_item]
          · rw [if_neg hother, render_mark,
              replaceFrom_append_of_not_prefix new (tokens.not_prefix_token_append hother _)]

/-- Where the token is not spelled, the mark is replaced and nothing else. -/
theorem replaceMark_of_clear (new : List α) (hclear : tokens.Clear number segments) :
    tokens.replaceMark number new 0 segments = substitute number new segments := by
  induction segments with
  | nil => rfl
  | cons segment segments ih =>
      have hrest : tokens.Clear number segments := fun back hback =>
        hclear back (hback.trans (List.suffix_cons _ _))
      cases segment with
      | item value =>
          rw [replaceMark, if_neg (hclear _ List.suffix_rfl), ih hrest]
          rfl
      | mark other =>
          rw [replaceMark, ih hrest]
          rfl

/-- The tokens replaced in turn. -/
def restored (news : ℕ → List α) : ℕ → List α → List α
  | 0, text => text
  | count + 1, text =>
      replaceAll (tokens.token count) (news count) (restored news count text)

/-- If at its turn no token is spelled by items, the marks are replaced and nothing else. -/
theorem restored_render {news : ℕ → List α} {count : ℕ}
    (hclear : ∀ number < count, tokens.Clear number (expand news number segments)) :
    tokens.restored news count (tokens.render segments) =
      tokens.render (expand news count segments) := by
  induction count with
  | zero => rw [restored, expand_zero]
  | succ count ih =>
      rw [restored, ih fun number hnumber => hclear number (Nat.lt_succ_of_lt hnumber), replaceAll,
        tokens.replaceFrom_render (Nat.zero_le _),
        tokens.replaceMark_of_clear (news count) (hclear count (Nat.lt_succ_self count)),
        substitute_expand]

/-! ## Too much is inserted -/

/-- The segments behind the replacements. -/
def replaced (news : ℕ → List α) (segments : List (Segment α)) : ℕ → List (Segment α)
  | 0 => segments
  | count + 1 => tokens.replaceMark count (news count) 0 (replaced news segments count)

theorem restored_eq_render (news : ℕ → List α) (segments : List (Segment α)) (count : ℕ) :
    tokens.restored news count (tokens.render segments) =
      tokens.render (tokens.replaced news segments count) := by
  induction count with
  | zero => rfl
  | succ count ih =>
      rw [restored, ih, replaceAll, tokens.replaceFrom_render (Nat.zero_le _), replaced]

/-- How many tokens are replaced that items spell. -/
def spelled (number : ℕ) : ℕ → List (Segment α) → ℕ
  | _, [] => 0
  | skip + 1, .item _ :: segments => spelled number skip segments
  | 0, .item value :: segments =>
      if tokens.token number <+: run (.item value :: segments) then
        spelled number ((tokens.token number).length - 1) segments + 1
      else spelled number 0 segments
  | _, .mark _ :: segments => spelled number 0 segments

theorem clear_of_spelled (hspelled : tokens.spelled number 0 segments = 0) :
    tokens.Clear number segments := by
  induction segments with
  | nil =>
      intro back hback hbegins
      rw [List.suffix_nil.mp hback] at hbegins
      exact tokens.ne_nil number (List.prefix_nil.mp hbegins)
  | cons segment segments ih =>
      intro back hback
      rcases List.suffix_cons_iff.mp hback with rfl | hback
      · cases segment with
        | item value =>
            intro hbegins
            rw [spelled, if_pos hbegins] at hspelled
            cases hspelled
        | mark other => exact fun hbegins => tokens.ne_nil number (List.prefix_nil.mp hbegins)
      · refine ih ?_ back hback
        cases segment with
        | item value =>
            rw [spelled] at hspelled
            split_ifs at hspelled
            exact hspelled
        | mark other => exact hspelled

end

section

variable (heavy : α → Bool)

/-- How many items weigh. -/
def weight (segments : List (Segment α)) : ℕ :=
  segments.countP fun segment =>
    match segment with
    | .item value => heavy value
    | .mark _ => false

def marks (number : ℕ) (segments : List (Segment α)) : ℕ :=
  segments.countP fun segment =>
    match segment with
    | .item _ => false
    | .mark other => other == number

theorem weight_append (left right : List (Segment α)) :
    weight heavy (left ++ right) = weight heavy left + weight heavy right :=
  List.countP_append

theorem weight_map_item (values : List α) :
    weight heavy (values.map .item) = values.countP heavy := by
  rw [weight, List.countP_map]
  rfl

theorem marks_append (number : ℕ) (left right : List (Segment α)) :
    marks number (left ++ right) = marks number left + marks number right :=
  List.countP_append

theorem marks_map_item (number : ℕ) (values : List α) :
    marks number (values.map Segment.item) = 0 := by
  rw [marks, List.countP_map]
  exact List.countP_eq_zero.mpr fun _ _ => Bool.false_ne_true

theorem weight_cons_item (value : α) (segments : List (Segment α)) :
    weight heavy (.item value :: segments) = weight heavy segments + if heavy value then 1 else 0 :=
  List.countP_cons

variable [DecidableEq α] {tokens}
variable {number : ℕ} {segments : List (Segment α)}

theorem weight_replaceMark (new : List α) {skip : ℕ}
    (hlight : ∀ value ∈ tokens.token number, heavy value = false)
    (hskip : ∀ value ∈ (run segments).take skip, heavy value = false) :
    weight heavy (tokens.replaceMark number new skip segments) = weight heavy segments +
      new.countP heavy * (marks number segments + tokens.spelled number skip segments) := by
  induction segments generalizing skip with
  | nil => cases skip <;> simp [replaceMark, weight, marks, spelled]
  | cons segment segments ih =>
      cases segment with
      | mark other =>
          have hnext := @ih 0 fun _ hvalue => absurd hvalue (by simp)
          have hmarks : marks number (.mark other :: segments) =
              marks number segments + if other = number then 1 else 0 := by
            simp [marks, List.countP_cons]
          have hspelled : tokens.spelled number skip (.mark other :: segments) =
              tokens.spelled number 0 segments := by cases skip <;> rfl
          have hreplaced : tokens.replaceMark number new skip (.mark other :: segments) =
              (if other = number then new.map .item else [.mark other]) ++
                tokens.replaceMark number new 0 segments := by cases skip <;> rfl
          have hweight : weight heavy (.mark other :: segments) = weight heavy segments := by
            simp [weight]
          rw [hreplaced, weight_append, hnext, hmarks, hspelled, hweight]
          split_ifs with hother
          · rw [weight_map_item]
            ring
          · simp [weight]
      | item value =>
          have hmarks : marks number (.item value :: segments) = marks number segments := by
            simp [marks]
          cases skip with
          | succ skip =>
              obtain ⟨hvalue, hskip⟩ := List.forall_mem_cons.mp hskip
              rw [replaceMark, ih hskip, weight_cons_item, hvalue, hmarks, spelled]
              simp
          | zero =>
              have hnone : ∀ found ∈ (run segments).take 0, heavy found = false :=
                fun _ hnil => absurd hnil (by simp)
              rw [replaceMark, weight_cons_item, hmarks, spelled]
              by_cases hmatch : tokens.token number <+: run (.item value :: segments)
              · -- The token is the item and what is skipped.
                obtain ⟨rest, hrest⟩ := hmatch
                obtain ⟨first, more, htoken⟩ := List.exists_cons_of_ne_nil (tokens.ne_nil number)
                rw [htoken, List.cons_append, run, List.cons.injEq] at hrest
                obtain ⟨rfl, hrest⟩ := hrest
                rw [htoken] at hlight
                obtain ⟨hfirst, hmore⟩ := List.forall_mem_cons.mp hlight
                have htake : (run segments).take (tokens.token number).length.pred = more := by
                  rw [htoken, ← hrest]
                  exact List.take_left
                have hbegins : tokens.token number <+: run (.item first :: segments) := by
                  rw [htoken, run, ← hrest]
                  exact List.prefix_append (first :: more) rest
                rw [if_pos hbegins, if_pos hbegins, weight_append, weight_map_item,
                  ih (by rw [← Nat.pred_eq_sub_one, htake]; exact hmore), hfirst]
                simp only [Bool.false_eq_true, if_false]
                ring
              · rw [if_neg hmatch, if_neg hmatch, weight_cons_item, ih hnone]
                ring

theorem marks_replaceMark {other : ℕ} (new : List α) {skip : ℕ} (hother : other ≠ number) :
    marks other (tokens.replaceMark number new skip segments) = marks other segments := by
  induction segments generalizing skip with
  | nil => cases skip <;> rfl
  | cons segment segments ih =>
      cases segment with
      | mark found =>
          have hreplaced : tokens.replaceMark number new skip (.mark found :: segments) =
              (if found = number then new.map .item else [.mark found]) ++
                tokens.replaceMark number new 0 segments := by cases skip <;> rfl
          have hcons : marks other (.mark found :: segments) =
              marks other [.mark found] + marks other segments := marks_append other [_] segments
          rw [hreplaced, marks_append, ih, hcons]
          split_ifs with hfound
          · subst hfound
            rw [marks_map_item]
            simp [marks, hother.symm]
          · rfl
      | item value =>
          have hmarks : marks other (.item value :: segments) = marks other segments := by
            simp [marks]
          cases skip with
          | succ skip => rw [replaceMark, ih, hmarks]
          | zero =>
              rw [replaceMark, hmarks]
              split_ifs
              · rw [marks_append, marks_map_item, ih, Nat.zero_add]
              · have hcons := marks_append other [.item value]
                  (tokens.replaceMark number new 0 segments)
                rw [List.singleton_append, ih] at hcons
                rw [hcons]
                simp [marks]

theorem marks_replaced {news : ℕ → List α} {count : ℕ} (hnumber : count ≤ number) :
    marks number (tokens.replaced news segments count) = marks number segments := by
  induction count with
  | zero => rfl
  | succ count ih =>
      rw [replaced, tokens.marks_replaceMark _ (by omega), ih (by omega)]

omit [DecidableEq α] in
/-- If nothing but the marks is replaced, the weight is that of the new texts. -/
theorem weight_expand_succ (news : ℕ → List α) (segments : List (Segment α)) (count : ℕ) :
    weight heavy (expand news (count + 1) segments) = weight heavy (expand news count segments) +
      (news count).countP heavy * marks count segments := by
  induction segments with
  | nil => rfl
  | cons segment segments ih =>
      have hexpand : ∀ limit, expand news limit (segment :: segments) =
          expand news limit [segment] ++ expand news limit segments := fun limit =>
        @List.flatMap_append _ _ [segment] segments _
      have hmarks : marks count (segment :: segments) =
          marks count [segment] + marks count segments :=
        marks_append count [segment] segments
      rw [hexpand, hexpand, weight_append, weight_append, ih, hmarks]
      cases segment with
      | item value =>
          simp only [expand, marks, List.flatMap_singleton, List.countP_singleton,
            Bool.false_eq_true, if_false]
          ring
      | mark number =>
          simp only [expand, marks, List.flatMap_singleton, List.countP_singleton, beq_iff_eq]
          rcases lt_trichotomy number count with hlt | rfl | hgt
          · rw [if_pos hlt, if_pos (Nat.lt_succ_of_lt hlt), if_neg hlt.ne]
            ring
          · rw [if_pos (Nat.lt_succ_self _), if_neg (lt_irrefl _), if_pos rfl, weight_map_item]
            simp only [weight, List.countP_singleton, Bool.false_eq_true, if_false]
            ring
          · rw [if_neg (Nat.succ_le_of_lt hgt).not_gt, if_neg hgt.not_gt, if_neg hgt.ne']
            ring

/-- The result weighs at least what the marks stand for, and if it weighs no more,
no token was spelled by items at its turn. -/
theorem clear_of_weight {news : ℕ → List α} {count : ℕ}
    (hlight : ∀ number, ∀ value ∈ tokens.token number, heavy value = false)
    (hheavy : ∀ number < count, 0 < (news number).countP heavy) :
    weight heavy (expand news count segments) ≤ weight heavy (tokens.replaced news segments count) ∧
      (weight heavy (tokens.replaced news segments count) =
          weight heavy (expand news count segments) →
        tokens.replaced news segments count = expand news count segments ∧
          ∀ number < count, tokens.Clear number (expand news number segments)) := by
  induction count with
  | zero =>
      rw [replaced, expand_zero]
      exact ⟨le_rfl, fun _ => ⟨rfl, fun number hnumber => absurd hnumber (Nat.not_lt_zero number)⟩⟩
  | succ count ih =>
      obtain ⟨hle, hequal⟩ := ih fun number hnumber => hheavy number (Nat.lt_succ_of_lt hnumber)
      have hstep : weight heavy (tokens.replaced news segments (count + 1)) =
          weight heavy (tokens.replaced news segments count) + (news count).countP heavy *
            (marks count segments +
              tokens.spelled count 0 (tokens.replaced news segments count)) := by
        rw [replaced, weight_replaceMark heavy (news count) (hlight count) (by simp),
          marks_replaced le_rfl]
      rw [hstep, weight_expand_succ, mul_add]
      refine ⟨by omega, fun hweight => ?_⟩
      have hspelled : tokens.spelled count 0 (tokens.replaced news segments count) = 0 := by
        have hzero : (news count).countP heavy *
            tokens.spelled count 0 (tokens.replaced news segments count) = 0 := by omega
        exact (Nat.mul_eq_zero.mp hzero).resolve_left (hheavy count (Nat.lt_succ_self count)).ne'
      rw [hspelled, Nat.mul_zero] at hweight
      obtain ⟨hreplaced, hclear⟩ := hequal (by omega)
      have hcount := tokens.clear_of_spelled hspelled
      refine ⟨?_, fun number hnumber => ?_⟩
      · rw [replaced, tokens.replaceMark_of_clear (news count) hcount, hreplaced, substitute_expand]
      · rcases Nat.lt_succ_iff_lt_or_eq.mp hnumber with hnumber | rfl
        · exact hclear number hnumber
        · rw [← hreplaced]
          exact hcount

end

end Tokens

end Legroom
