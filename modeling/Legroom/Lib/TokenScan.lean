import Legroom.Lib.Tokens

/-!
# Reading tokens

`scan` reads a text from left to right into items and marks.  Some items are heavy;
no token contains one.  New texts that begin and end with heavy items do not make
up a token together with what is around them.
-/

namespace Legroom

namespace Tokens

open Segment

variable {α : Type*} {tokens : Tokens α}

theorem run_map_item_append (values : List α) (segments : List (Segment α)) :
    run (values.map .item ++ segments) = values ++ run segments := by
  induction values with
  | nil => rfl
  | cons value values ih => exact congrArg (value :: ·) ih

theorem run_prefix_render (segments : List (Segment α)) :
    run segments <+: tokens.render segments := by
  rcases tokens.render_eq_run segments with hrender | ⟨number, text, hrender⟩
  · rw [hrender]
  · rw [hrender]
    exact List.prefix_append _ _

theorem clear_nil (number : ℕ) : tokens.Clear number [] := by
  intro back hback hbegins
  rw [List.suffix_nil.mp hback] at hbegins
  exact tokens.ne_nil number (List.prefix_nil.mp hbegins)

variable {number : ℕ} {segments : List (Segment α)}

theorem clear_cons_mark {other : ℕ} :
    tokens.Clear number (.mark other :: segments) ↔ tokens.Clear number segments := by
  refine ⟨fun hclear back hback => hclear back (hback.trans (List.suffix_cons _ _)),
    fun hclear back hback => ?_⟩
  rcases List.suffix_cons_iff.mp hback with rfl | hback
  · exact fun hbegins => tokens.ne_nil number (List.prefix_nil.mp hbegins)
  · exact hclear back hback

theorem clear_cons_item {value : α} :
    tokens.Clear number (.item value :: segments) ↔
      ¬tokens.token number <+: value :: run segments ∧ tokens.Clear number segments := by
  refine ⟨fun hclear => ⟨hclear _ List.suffix_rfl, fun back hback =>
    hclear back (hback.trans (List.suffix_cons _ _))⟩, fun ⟨hfirst, hclear⟩ back hback => ?_⟩
  rcases List.suffix_cons_iff.mp hback with rfl | hback
  · exact hfirst
  · exact hclear back hback

theorem clear_map_item_append {values : List α} :
    tokens.Clear number (values.map .item ++ segments) ↔
      (∀ back, back ≠ [] → back <:+ values → ¬tokens.token number <+: back ++ run segments) ∧
        tokens.Clear number segments := by
  induction values with
  | nil =>
      exact ⟨fun hclear => ⟨fun back hne hback => absurd (List.suffix_nil.mp hback) hne, hclear⟩,
        And.right⟩
  | cons value values ih =>
      rw [List.map_cons, List.cons_append, clear_cons_item, ih, run_map_item_append]
      constructor
      · rintro ⟨hfirst, hvalues, hclear⟩
        refine ⟨fun back hne hback => ?_, hclear⟩
        rcases List.suffix_cons_iff.mp hback with rfl | hback
        · exact hfirst
        · exact hvalues back hne hback
      · rintro ⟨hvalues, hclear⟩
        exact ⟨hvalues _ (List.cons_ne_nil _ _) List.suffix_rfl,
          fun back hne hback => hvalues back hne (hback.trans (List.suffix_cons _ _)), hclear⟩

/-! ## Heavy items -/

/-- A text without heavy items ends before the first one. -/
theorem prefix_of_light {heavy : α → Bool} {text left tail : List α}
    (hlight : ∀ value ∈ text, heavy value = false)
    (htail : ∀ value, tail.head? = some value → heavy value = true)
    (hbegins : text <+: left ++ tail) : text <+: left := by
  by_cases hlength : text.length ≤ left.length
  · exact List.prefix_of_prefix_length_le hbegins (List.prefix_append left tail) hlength
  · -- The text would reach to the first item of the tail.
    have hbound : left.length < text.length := Nat.lt_of_not_le hlength
    obtain ⟨rest, hrest⟩ := hbegins
    have hat : text[left.length]? = tail.head? := by
      rw [← List.getElem?_append_left hbound, hrest, List.getElem?_append_right le_rfl,
        Nat.sub_self, List.head?_eq_getElem?]
    rw [List.getElem?_eq_getElem hbound] at hat
    have hheavy := htail _ hat.symm
    rw [hlight _ (List.getElem_mem hbound)] at hheavy
    cases hheavy

theorem countP_render {heavy : α → Bool}
    (hlight : ∀ number, ∀ value ∈ tokens.token number, heavy value = false)
    (segments : List (Segment α)) :
    (tokens.render segments).countP heavy = weight heavy segments := by
  induction segments with
  | nil => rfl
  | cons segment segments ih =>
      cases segment with
      | item value => rw [render_cons_item, List.countP_cons, ih, weight_cons_item]
      | mark number =>
          have hnone : (tokens.token number).countP heavy = 0 :=
            List.countP_eq_zero.mpr fun value hvalue => by simp [hlight number value hvalue]
          rw [render_cons_mark, List.countP_append, hnone, ih, Nat.zero_add]
          simp [weight]

variable (news : ℕ → List α)

theorem expand_cons_item (limit : ℕ) (value : α) (segments : List (Segment α)) :
    expand news limit (.item value :: segments) = .item value :: expand news limit segments := rfl

theorem expand_cons_mark (limit number : ℕ) (segments : List (Segment α)) :
    expand news limit (.mark number :: segments) =
      (if number < limit then (news number).map .item else [.mark number]) ++
        expand news limit segments := rfl

theorem expand_map_item_append (limit : ℕ) (values : List α) (segments : List (Segment α)) :
    expand news limit (values.map .item ++ segments) =
      values.map .item ++ expand news limit segments := by
  induction values with
  | nil => rfl
  | cons value values ih => exact congrArg (Segment.item value :: ·) ih

theorem expand_append (limit : ℕ) (left right : List (Segment α)) :
    expand news limit (left ++ right) = expand news limit left ++ expand news limit right :=
  List.flatMap_append

/-- Replacing some marks first changes nothing. -/
theorem expand_expand {limit count : ℕ} (hlimit : limit ≤ count) (segments : List (Segment α)) :
    expand news count (expand news limit segments) = expand news count segments := by
  induction segments with
  | nil => rfl
  | cons segment segments ih =>
      cases segment with
      | item value => exact congrArg (Segment.item value :: ·) ih
      | mark number =>
          rw [expand_cons_mark, expand_cons_mark, expand_append, ih]
          split_ifs with hnumber hcount
          · rw [← List.append_nil (List.map _ _), expand_map_item_append]
            rfl
          · omega
          · rw [expand_cons_mark, if_pos (by assumption)]
            exact congrArg (· ++ _) (List.append_nil _)
          · rw [expand_cons_mark, if_neg (by assumption)]
            rfl

theorem run_prefix_render_expand (count : ℕ) (segments : List (Segment α)) :
    run segments <+: tokens.render (expand news count segments) := by
  induction segments with
  | nil => exact List.prefix_rfl
  | cons segment segments ih =>
      cases segment with
      | item value => exact (List.prefix_cons_inj value).mpr ih
      | mark number => exact List.nil_prefix

/-- A token that does not stand in the text with all marks replaced is spelled at no turn. -/
theorem clear_of_absent {news : ℕ → List α} {limit count : ℕ} (hlimit : limit ≤ count)
    (habsent : ¬tokens.token number <:+: tokens.render (expand news count segments)) :
    tokens.Clear number (expand news limit segments) := by
  rintro back ⟨front, hback⟩ hbegins
  apply habsent
  rw [← expand_expand news hlimit, ← hback, expand_append, render_append]
  exact (hbegins.trans (run_prefix_render_expand news count back)).isInfix.trans
    (List.suffix_append _ _).isInfix

section

variable {heavy : α → Bool} {number limit : ℕ} {news : ℕ → List α}
  (hfirst : ∀ other < limit, ∃ value, (news other).head? = some value ∧ heavy value = true)

include hfirst in
/-- A run only grows by new texts, which begin with a heavy item. -/
theorem run_expand (segments : List (Segment α)) :
    ∃ tail, run (expand news limit segments) = run segments ++ tail ∧
      ∀ value, tail.head? = some value → heavy value = true := by
  induction segments with
  | nil => exact ⟨[], rfl, fun value hnone => by cases hnone⟩
  | cons segment segments ih =>
      obtain ⟨tail, hrun, htail⟩ := ih
      cases segment with
      | item value => exact ⟨tail, by rw [expand_cons_item, run, hrun]; rfl, htail⟩
      | mark other =>
          rw [expand_cons_mark]
          split_ifs with hother
          · obtain ⟨value, hhead, hheavy⟩ := hfirst other hother
            refine ⟨news other ++ run (expand news limit segments), run_map_item_append _ _, ?_⟩
            intro found hfound
            rw [List.head?_append, hhead, Option.some_or, Option.some.injEq] at hfound
            rwa [← hfound]
          · exact ⟨[], rfl, fun value hnone => by cases hnone⟩

include hfirst in
/-- New texts with heavy ends that do not contain a token do not spell it. -/
theorem clear_expand {segments : List (Segment α)}
    (hlight : ∀ value ∈ tokens.token number, heavy value = false)
    (hlast : ∀ other < limit, ∃ value, (news other).getLast? = some value ∧ heavy value = true)
    (hnews : ∀ other < limit, ¬tokens.token number <:+: news other)
    (hclear : tokens.Clear number segments) : tokens.Clear number (expand news limit segments) := by
  induction segments with
  | nil => exact clear_nil number
  | cons segment segments ih =>
      cases segment with
      | item value =>
          obtain ⟨hvalue, hrest⟩ := clear_cons_item.mp hclear
          obtain ⟨tail, hrun, htail⟩ := run_expand hfirst segments
          rw [expand_cons_item]
          refine clear_cons_item.mpr ⟨fun hbegins => hvalue ?_, ih hrest⟩
          rw [hrun] at hbegins
          exact prefix_of_light hlight htail hbegins
      | mark other =>
          have hrest := ih (clear_cons_mark.mp hclear)
          rw [expand_cons_mark]
          split_ifs with hother
          · refine clear_map_item_append.mpr ⟨fun back hne hback hbegins => ?_, hrest⟩
            obtain ⟨value, hlastValue, hheavy⟩ := hlast other hother
            obtain ⟨front, hfront⟩ := hback
            rw [← hfront, List.getLast?_append_of_ne_nil _ hne] at hlastValue
            obtain ⟨init, rfl⟩ := List.getLast?_eq_some_iff.mp hlastValue
            rw [List.append_assoc, List.singleton_append] at hbegins
            refine hnews other hother ((prefix_of_light hlight ?_ hbegins).isInfix.trans ?_)
            · intro found hfound
              rwa [← Option.some.inj hfound]
            · exact ⟨front, [value], by rw [List.append_assoc, hfront]⟩
          · exact clear_cons_mark.mpr hrest

end

/-! ## Scanning -/

section

variable [DecidableEq α] (tokens)

/-- The segments of a text, behind the items of a token that was read. -/
def scan (count : ℕ) : ℕ → List α → List (Segment α)
  | _, [] => []
  | skip + 1, _ :: text => scan count skip text
  | 0, first :: text =>
      match (List.range count).find? fun number => tokens.token number <+: first :: text with
      | some number => .mark number :: scan count ((tokens.token number).length - 1) text
      | none => .item first :: scan count 0 text

theorem render_scan (count skip : ℕ) (text : List α) :
    tokens.render (tokens.scan count skip text) = text.drop skip := by
  induction text generalizing skip with
  | nil => cases skip <;> rfl
  | cons first text ih =>
      cases skip with
      | succ skip => exact ih skip
      | zero =>
          rw [scan]
          split
          · rename_i number hfind
            have hbegins : tokens.token number <+: first :: text := by
              simpa using List.find?_some hfind
            obtain ⟨rest, hrest⟩ := hbegins
            obtain ⟨head, more, htoken⟩ := List.exists_cons_of_ne_nil (tokens.ne_nil number)
            rw [htoken, List.cons_append, List.cons.injEq] at hrest
            obtain ⟨rfl, rfl⟩ := hrest
            rw [render_cons_mark, ih, htoken, List.length_cons, Nat.add_sub_cancel, List.drop_left]
            rfl
          · rw [render_cons_item, ih]
            rfl

theorem clear_scan {count number : ℕ} (hnumber : number < count) (skip : ℕ) (text : List α) :
    tokens.Clear number (tokens.scan count skip text) := by
  induction text generalizing skip with
  | nil => cases skip <;> exact clear_nil number
  | cons first text ih =>
      cases skip with
      | succ skip => exact ih skip
      | zero =>
          rw [scan]
          split
          · exact clear_cons_mark.mpr (ih _)
          · rename_i hfind
            refine clear_cons_item.mpr ⟨fun hbegins => ?_, ih 0⟩
            have hnone := List.find?_eq_none.mp hfind number (List.mem_range.mpr hnumber)
            refine hnone (decide_eq_true (hbegins.trans ?_))
            have hrun := tokens.run_prefix_render (.item first :: tokens.scan count 0 text)
            rwa [render_cons_item, render_scan] at hrun

/-- All needles of a text replaced at once, in one pass. -/
def substituteFrom (blocks : List (List α × List α)) : ℕ → List α → List α
  | _, [] => []
  | skip + 1, _ :: text => substituteFrom blocks skip text
  | 0, first :: text =>
      match blocks.find? fun block => block.1 <+: first :: text with
      | some block => block.2 ++ substituteFrom blocks (block.1.length - 1) text
      | none => first :: substituteFrom blocks 0 text

/-- Replacing at once is replacing what is scanned. -/
theorem substituteFrom_eq (news : ℕ → List α) (count skip : ℕ) (text : List α) :
    substituteFrom ((List.range count).map fun number => (tokens.token number, news number))
        skip text =
      tokens.render (expand news count (tokens.scan count skip text)) := by
  induction text generalizing skip with
  | nil => cases skip <;> rfl
  | cons first text ih =>
      cases skip with
      | succ skip => exact ih skip
      | zero =>
          rw [substituteFrom, scan, List.find?_map]
          cases hfind : (List.range count).find? fun number =>
              tokens.token number <+: first :: text with
          | none =>
              have hnone : (List.range count).find? ((fun block : List α × List α =>
                  decide (block.1 <+: first :: text)) ∘
                    fun number => (tokens.token number, news number)) = none := hfind
              rw [hnone]
              dsimp only [Option.map_none]
              rw [ih, expand_cons_item, render_cons_item]
          | some number =>
              have hsome : (List.range count).find? ((fun block : List α × List α =>
                  decide (block.1 <+: first :: text)) ∘
                    fun number => (tokens.token number, news number)) = some number := hfind
              have hcount : number < count :=
                List.mem_range.mp (List.mem_of_find?_eq_some hfind)
              rw [hsome]
              dsimp only [Option.map_some]
              rw [ih, expand_cons_mark, if_pos hcount, render_append, render_map_item]

/-- Tokens that are replaced one after the other are replaced as if at once. -/
theorem restored_eq_substitute {heavy : α → Bool} {news : ℕ → List α} {count : ℕ}
    (hlight : ∀ number, ∀ value ∈ tokens.token number, heavy value = false)
    (hfirst : ∀ other < count, ∃ value, (news other).head? = some value ∧ heavy value = true)
    (hlast : ∀ other < count, ∃ value, (news other).getLast? = some value ∧ heavy value = true)
    (hnews : ∀ number < count, ∀ other < number, ¬tokens.token number <:+: news other)
    (text : List α) :
    tokens.restored news count text =
      substituteFrom ((List.range count).map fun number => (tokens.token number, news number))
        0 text := by
  have htext : tokens.render (tokens.scan count 0 text) = text := tokens.render_scan count 0 text
  rw [substituteFrom_eq]
  nth_rewrite 1 [← htext]
  refine tokens.restored_render fun number hnumber => ?_
  exact clear_expand (fun other hother => hfirst other (hother.trans hnumber)) (hlight number)
    (fun other hother => hlast other (hother.trans hnumber)) (hnews number hnumber)
    (tokens.clear_scan hnumber 0 text)

end

end Tokens

end Legroom
