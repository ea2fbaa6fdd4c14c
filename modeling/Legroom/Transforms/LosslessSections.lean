import Legroom.Transforms.LosslessRouter

/-!
# What the lossless router keeps

A fold determines what was folded once its kind is known, the sections hold the lines of the
content, and no marker for retrieval comes in.
-/

namespace Legroom.LosslessRouter

open Python LosslessCompaction

/-! ## Folds -/

section

variable {tables : CharTables}

/-- Contents that a fold does not tell apart differ in colours or in `index` lines. -/
def Agree : Kind → Text → Text → Prop
  | .log, left, right => stripAnsi left = stripAnsi right
  | .diff, left, right => diffStripIndex left = diffStripIndex right
  | _, left, right => left = right

/-- What was folded is determined by the text of the fold and its kind. -/
theorem agree_of_compactLossless_eq {kind : Kind} {left right : Text}
    (hleft : (compactLossless tables left kind).length < left.length)
    (hright : (compactLossless tables right kind).length < right.length)
    (hsame : compactLossless tables left kind = compactLossless tables right kind) :
    Agree kind left right := by
  have hreversible (reversible : ReversibleKind)
      (hleft : (compactLossless tables left reversible.kind).length < left.length)
      (hright : (compactLossless tables right reversible.kind).length < right.length)
      (hsame : compactLossless tables left reversible.kind =
        compactLossless tables right reversible.kind) :
      reversible.baseline left = reversible.baseline right := by
    have hdecode {content : Text}
        (hcontent : (compactLossless tables content reversible.kind).length < content.length) :
        reversible.decode tables (compactLossless tables content reversible.kind) =
          some (reversible.baseline content) := by
      rcases compactLossless_cases reversible content with hpassed | ⟨-, hdecode, -⟩
      · rw [hpassed] at hcontent
        exact absurd hcontent (Nat.lt_irrefl _)
      · exact hdecode
    refine Option.some_inj.mp ?_
    rw [← hdecode hleft, hsame, hdecode hright]
  cases kind with
  | log => exact hreversible .log hleft hright hsame
  | search => exact hreversible .search hleft hright hsame
  | paths => exact hreversible .paths hleft hright hsame
  | text => exact hreversible .text hleft hright hsame
  | config => exact hreversible .config hleft hright hsame
  | diff =>
      have hdiff {content : Text}
          (hcontent : (compactLossless tables content .diff).length < content.length) :
          compactLossless tables content .diff = diffStripIndex content := by
        simp only [compactLossless] at hcontent ⊢
        split_ifs with hempty hsmaller
        · rw [if_pos hempty] at hcontent
          exact absurd hcontent (Nat.lt_irrefl _)
        · rfl
        · rw [if_neg hempty, if_neg hsmaller] at hcontent
          exact absurd hcontent (Nat.lt_irrefl _)
      rw [hdiff hleft, hdiff hright] at hsame
      exact hsame
  | other =>
      have hother : compactLossless tables left .other = left := by
        simp only [compactLossless]
        split_ifs
        · rfl
        · rfl
      rw [hother] at hleft
      exact absurd hleft (Nat.lt_irrefl _)

/-- The first stage passes a content or takes a fold that is smaller. -/
theorem losslessFirst_cases (content : Text) (strategy : CompressionStrategy) :
    losslessFirst tables content strategy = (content, none) ∨
      ∃ kind, losslessFirst tables content strategy =
          (compactLossless tables content kind, some kind) ∧
        (compactLossless tables content kind).length < content.length := by
  let Good (best : Text × Option Kind) : Prop := best = (content, none) ∨
    ∃ kind, best = (compactLossless tables content kind, some kind) ∧
      (compactLossless tables content kind).length < content.length
  have hlength {best : Text × Option Kind} (hbest : Good best) :
      best.1.length ≤ content.length := by
    rcases hbest with rfl | ⟨kind, rfl, hsmaller⟩
    · exact Nat.le_refl _
    · exact Nat.le_of_lt hsmaller
  have hfold (order : List Kind) (best : Text × Option Kind) (hbest : Good best) :
      Good (order.foldl (fun best kind =>
        let candidate := compactLossless tables content kind
        if candidate.length < best.1.length then (candidate, some kind) else best) best) := by
    induction order generalizing best with
    | nil => exact hbest
    | cons kind order ih =>
        refine ih _ ?_
        dsimp only
        split_ifs with hsmaller
        · exact Or.inr ⟨kind, rfl, Nat.lt_of_lt_of_le hsmaller (hlength hbest)⟩
        · exact hbest
  exact hfold _ _ (Or.inl rfl)

/-- A result of the first stage with its kind determines the content. -/
theorem losslessFirst_determines {left right : Text} {first second : CompressionStrategy}
    (hsame : losslessFirst tables left first = losslessFirst tables right second) :
    ((losslessFirst tables left first).2 = none → left = right) ∧
      ∀ kind, (losslessFirst tables left first).2 = some kind → Agree kind left right := by
  rcases losslessFirst_cases left first with hleft | ⟨kind, hleft, hsmaller⟩
  · rcases losslessFirst_cases right second with hright | ⟨_, hright, -⟩
    · rw [hleft, hright] at hsame
      rw [hleft]
      exact ⟨fun _ => (Prod.mk.inj hsame).1, nofun⟩
    · rw [hleft, hright] at hsame
      exact absurd (Prod.mk.inj hsame).2 nofun
  · rcases losslessFirst_cases right second with hright | ⟨second, hright, hless⟩
    · rw [hleft, hright] at hsame
      exact absurd (Prod.mk.inj hsame).2 nofun
    · rw [hleft, hright] at hsame
      obtain ⟨htext, hkind⟩ := Prod.mk.inj hsame
      obtain rfl := Option.some_inj.mp hkind
      rw [hleft]
      refine ⟨nofun, fun found hfound => ?_⟩
      obtain rfl := Option.some_inj.mp hfound
      exact agree_of_compactLossless_eq hsmaller hless htext

end

/-! ## Sections -/

section

variable {tables : CharTables} {patterns : Ccr.PatternTables}

/-- Lines in order as sections: all but the delimiters of fences and blank runs. -/
inductive Sectioned (tables : CharTables) (patterns : Ccr.PatternTables) :
    List Text → List ContentSection → Prop
  | nil : Sectioned tables patterns [] []
  | fence (opening language : Text) (body closing rest : List Text)
      (sections : List ContentSection)
      (hopening : fenceLanguage tables patterns opening = some language)
      (hbody : ∀ line ∈ body, startsFence line = false)
      (hclosing : (∃ line, closing = [line] ∧ startsFence line = true) ∨ closing = [] ∧ rest = [])
      (hrest : Sectioned tables patterns rest sections) :
      Sectioned tables patterns (opening :: (body ++ closing ++ rest))
        (⟨joinLines body, .sourceCode, some (if language = [] then text "unknown" else language)⟩ ::
          sections)
  | plain (lines rest : List Text) (contentType : ContentType) (sections : List ContentSection)
      (hlines : lines ≠ []) (hrest : Sectioned tables patterns rest sections) :
      Sectioned tables patterns (lines ++ rest) (⟨joinLines lines, contentType, none⟩ :: sections)
  | blank (lines rest : List Text) (sections : List ContentSection)
      (hblank : isBlank tables (joinLines lines) = true)
      (hrest : Sectioned tables patterns rest sections) :
      Sectioned tables patterns (lines ++ rest) sections

theorem extractJsonBlock_eq {state : BracketState} {lines block behind : List Text}
    (hblock : extractJsonBlock state lines = some (block, behind)) :
    lines = block ++ behind ∧ block ≠ [] := by
  induction lines generalizing state block with
  | nil => cases hblock
  | cons line rest ih =>
      rw [extractJsonBlock] at hblock
      dsimp only at hblock
      split_ifs at hblock with hclosed
      · obtain ⟨rfl, rfl⟩ := Prod.mk.inj (Option.some_inj.mp hblock)
        exact ⟨rfl, List.cons_ne_nil _ _⟩
      · obtain ⟨⟨front, back⟩, hfound, heq⟩ := Option.map_eq_some_iff.mp hblock
        obtain ⟨rfl, rfl⟩ := Prod.mk.inj heq
        obtain ⟨rfl, -⟩ := ih hfound
        exact ⟨rfl, List.cons_ne_nil _ _⟩

theorem mem_takeWhile {keep : Text → Bool} {lines : List Text} {line : Text}
    (hline : line ∈ lines.takeWhile keep) : keep line = true :=
  List.mem_takeWhile_imp hline

theorem splitFrom_nil (fuel : ℕ) : splitFrom tables patterns fuel [] = [] := by
  cases fuel with
  | zero => rfl
  | succ fuel => rfl

/-- The splitter keeps every line but the delimiters of fences and blank runs. -/
theorem sectioned_splitFrom {fuel : ℕ} {lines : List Text} (hfuel : lines.length ≤ fuel) :
    Sectioned tables patterns lines (splitFrom tables patterns fuel lines) := by
  induction fuel generalizing lines with
  | zero =>
      obtain rfl := List.length_eq_zero_iff.mp (Nat.le_zero.mp hfuel)
      exact .nil
  | succ fuel ih =>
      cases lines with
      | nil => exact .nil
      | cons line rest =>
          have hshorter : rest.length ≤ fuel := Nat.le_of_succ_le_succ hfuel
          have hbehind (keep : Text → Bool) : (rest.dropWhile keep).length ≤ fuel :=
            Nat.le_trans (List.dropWhile_sublist keep).length_le hshorter
          rw [splitFrom]
          cases hfence : fenceLanguage tables patterns line with
          | some language =>
              dsimp only
              have hbody : ∀ line ∈ rest.takeWhile (!startsFence ·), startsFence line = false :=
                fun line hline => Bool.not_eq_true' _ ▸ mem_takeWhile hline
              have hlines : rest.takeWhile (!startsFence ·) ++ rest.dropWhile (!startsFence ·) =
                  rest := List.takeWhile_append_dropWhile
              cases hdrop : rest.dropWhile (!startsFence ·) with
              | nil =>
                  have hsections := Sectioned.fence line language _ [] [] [] hfence hbody
                    (Or.inr ⟨rfl, rfl⟩) .nil
                  rw [hdrop, List.append_nil] at hlines
                  rw [List.append_nil, List.append_nil, hlines] at hsections
                  rw [List.drop_nil, splitFrom_nil, hlines]
                  exact hsections
              | cons closing behind =>
                  have hclosing : startsFence closing = true := by
                    have hhead := List.head?_dropWhile_not (!startsFence ·) rest
                    rw [hdrop] at hhead
                    exact Bool.not_eq_false' _ ▸ hhead
                  have hless : behind.length ≤ fuel := by
                    have hbound := hbehind (!startsFence ·)
                    rw [hdrop] at hbound
                    exact Nat.le_of_succ_le hbound
                  have hsections := Sectioned.fence line language _ [closing] behind _ hfence hbody
                    (Or.inl ⟨closing, rfl, hclosing⟩) (ih hless)
                  rw [hdrop] at hlines
                  rw [List.append_assoc, List.singleton_append, hlines] at hsections
                  exact hsections
          | none =>
              dsimp only
              split
              · next block behind hjson =>
                  split_ifs at hjson with hstarts
                  obtain ⟨hlines, hblock⟩ := extractJsonBlock_eq hjson
                  have hless : behind.length ≤ fuel := by
                    have hlength := congrArg List.length hlines
                    rw [List.length_append, List.length_cons] at hlength
                    have := List.length_pos_iff.mpr hblock
                    omega
                  rw [hlines]
                  exact .plain block behind .jsonArray _ hblock (ih hless)
              · split_ifs with hsearch hblank
                · have hsections := Sectioned.plain (line :: rest.takeWhile (isSearchResult tables))
                    _ .searchResults _ (List.cons_ne_nil _ _) (ih (hbehind (isSearchResult tables)))
                  rw [List.cons_append, List.takeWhile_append_dropWhile] at hsections
                  exact hsections
                · have hsections := Sectioned.blank _ _ _ hblank
                    (ih (hbehind (continuesText tables patterns)))
                  rw [List.cons_append, List.takeWhile_append_dropWhile] at hsections
                  exact hsections
                · have hsections := Sectioned.plain
                    (line :: rest.takeWhile (continuesText tables patterns)) _ .plainText _
                    (List.cons_ne_nil _ _) (ih (hbehind (continuesText tables patterns)))
                  rw [List.cons_append, List.takeWhile_append_dropWhile] at hsections
                  exact hsections

theorem sectioned_splitIntoSections (content : Text) :
    Sectioned tables patterns (splitLines content) (splitIntoSections tables patterns content) :=
  sectioned_splitFrom (Nat.le_refl _)

end

end Legroom.LosslessRouter
