import Mathlib.Data.List.Infix

/-!
# Regular expressions without alternatives

A pattern is a sequence of pieces.  The matcher backtracks: its successes come in the order
of preference, and the first one counts.
-/

namespace Legroom.Regex

variable {α : Type*}

inductive Piece (α : Type*) where
  | one (accepts : α → Bool)
  | run (accepts : α → Bool) (least : ℕ) (most : Option ℕ) (greedy captured : Bool)
  | boundary (isWord : α → Bool)

def Piece.accepts : Piece α → α → Bool
  | .one accepts => accepts
  | .run accepts .. => accepts
  | .boundary _ => fun _ => false

/-- A constant text as a pattern. -/
def literal [DecidableEq α] (word : List α) : List (Piece α) :=
  word.map fun char => .one fun found => found == char

/-! ## Matching -/

/-- The beginnings of accepted characters with what is behind each, the shortest first. -/
def splits (accepts : α → Bool) : List α → List (List α × List α)
  | [] => [([], [])]
  | char :: text =>
      ([], char :: text) ::
        if accepts char then
          (splits accepts text).map fun (taken, rest) => (char :: taken, rest)
        else []

/-- The ways to match a run, the preferred one first. -/
def runSplits (accepts : α → Bool) (least : ℕ) (most : Option ℕ) (greedy : Bool)
    (text : List α) : List (List α × List α) :=
  let allowed := (splits accepts text).filter fun (taken, _) =>
    least ≤ taken.length && most.all fun most => taken.length ≤ most
  if greedy then allowed.reverse else allowed

/-- The groups of each success, and the text behind it. -/
def matchesAt : List (Piece α) → Option α → List α → List (List (List α) × List α)
  | [], _, text => [([], text)]
  | .one accepts :: pieces, _, text =>
      match text with
      | [] => []
      | char :: text => if accepts char then matchesAt pieces (some char) text else []
  | .run accepts least most greedy captured :: pieces, before, text =>
      (runSplits accepts least most greedy text).flatMap fun (taken, rest) =>
        (matchesAt pieces (taken.getLast?.or before) rest).map fun (groups, rest) =>
          (if captured then taken :: groups else groups, rest)
  | .boundary isWord :: pieces, before, text =>
      if before.any isWord != text.head?.any isWord then matchesAt pieces before text else []

/-- The groups of the matches in a text whose first characters belong to a match already.
A match takes at least one character. -/
def findAll (pieces : List (Piece α)) : ℕ → Option α → List α → List (List (List α))
  | _, _, [] => []
  | skip + 1, _, char :: text => findAll pieces skip (some char) text
  | 0, before, char :: text =>
      match (matchesAt pieces before (char :: text)).head? with
      | none => findAll pieces 0 (some char) text
      | some (groups, rest) =>
          groups :: findAll pieces (text.length - rest.length) (some char) text

/-! ## What is matched -/

/-- A text and its groups as the pieces read them. -/
def Spelled : List (Piece α) → List α → List (List α) → Prop
  | [], taken, groups => taken = [] ∧ groups = []
  | .one accepts :: pieces, taken, groups =>
      ∃ char rest, taken = char :: rest ∧ accepts char = true ∧ Spelled pieces rest groups
  | .run accepts least most _ captured :: pieces, taken, groups =>
      ∃ front rest behind, taken = front ++ rest ∧ (∀ char ∈ front, accepts char = true) ∧
        least ≤ front.length ∧ (∀ bound ∈ most, front.length ≤ bound) ∧
        Spelled pieces rest behind ∧ groups = if captured then front :: behind else behind
  | .boundary _ :: pieces, taken, groups => Spelled pieces taken groups

variable {accepts : α → Bool} {text taken rest : List α}

theorem append_of_mem_splits (hsplit : (taken, rest) ∈ splits accepts text) :
    text = taken ++ rest ∧ ∀ char ∈ taken, accepts char = true := by
  induction text generalizing taken with
  | nil =>
      rw [splits, List.mem_singleton, Prod.mk.injEq] at hsplit
      rw [hsplit.1, hsplit.2]
      exact ⟨rfl, fun char hchar => absurd hchar List.not_mem_nil⟩
  | cons char text ih =>
      rw [splits, List.mem_cons] at hsplit
      rcases hsplit with hsplit | hsplit
      · rw [Prod.mk.injEq] at hsplit
        rw [hsplit.1, hsplit.2]
        exact ⟨rfl, fun char hchar => absurd hchar List.not_mem_nil⟩
      · split_ifs at hsplit with hchar
        · obtain ⟨⟨taken', rest'⟩, hmem, heq⟩ := List.mem_map.mp hsplit
          obtain ⟨rfl, rfl⟩ := Prod.mk.injEq .. ▸ heq
          obtain ⟨rfl, haccepts⟩ := ih hmem
          exact ⟨rfl, List.forall_mem_cons.mpr ⟨hchar, haccepts⟩⟩
        · exact absurd hsplit List.not_mem_nil

variable {least : ℕ} {most : Option ℕ}

theorem mem_runSplits {greedy : Bool}
    (hsplit : (taken, rest) ∈ runSplits accepts least most greedy text) :
    text = taken ++ rest ∧ (∀ char ∈ taken, accepts char = true) ∧ least ≤ taken.length ∧
      ∀ bound ∈ most, taken.length ≤ bound := by
  have hallowed : (taken, rest) ∈ (splits accepts text).filter fun (taken, _) =>
      least ≤ taken.length && most.all fun most => taken.length ≤ most := by
    rw [runSplits] at hsplit
    cases greedy with
    | true => exact List.mem_reverse.mp hsplit
    | false => exact hsplit
  obtain ⟨hmem, hbounds⟩ := List.mem_filter.mp hallowed
  rw [Bool.and_eq_true, decide_eq_true_eq] at hbounds
  obtain ⟨htext, haccepts⟩ := append_of_mem_splits hmem
  refine ⟨htext, haccepts, hbounds.1, fun bound hbound => ?_⟩
  rw [Option.mem_def.mp hbound] at hbounds
  exact of_decide_eq_true hbounds.2

variable {pieces : List (Piece α)} {before : Option α} {groups : List (List α)}

/-- A success takes a beginning of the text that the pieces read. -/
theorem spelled_of_mem_matchesAt (hmatch : (groups, rest) ∈ matchesAt pieces before text) :
    ∃ taken, text = taken ++ rest ∧ Spelled pieces taken groups := by
  induction pieces generalizing before text groups with
  | nil =>
      rw [matchesAt, List.mem_singleton, Prod.mk.injEq] at hmatch
      exact ⟨[], hmatch.2.symm, rfl, hmatch.1⟩
  | cons piece pieces ih =>
      cases piece with
      | one accepts =>
          cases text with
          | nil => exact absurd hmatch List.not_mem_nil
          | cons char text =>
              simp only [matchesAt] at hmatch
              split_ifs at hmatch with hchar
              · obtain ⟨taken, rfl, hspelled⟩ := ih hmatch
                exact ⟨char :: taken, rfl, char, taken, rfl, hchar, hspelled⟩
              · exact absurd hmatch List.not_mem_nil
      | run accepts least most greedy captured =>
          rw [matchesAt, List.mem_flatMap] at hmatch
          obtain ⟨⟨front, behind⟩, hsplit, hmatch⟩ := hmatch
          obtain ⟨⟨groups', rest'⟩, hbehind, heq⟩ := List.mem_map.mp hmatch
          obtain ⟨rfl, rfl⟩ := Prod.mk.injEq .. ▸ heq
          obtain ⟨rfl, haccepts, hleast, hmost⟩ := mem_runSplits hsplit
          obtain ⟨taken, rfl, hspelled⟩ := ih hbehind
          exact ⟨front ++ taken, (List.append_assoc _ _ _).symm, front, taken, groups', rfl,
            haccepts, hleast, hmost, hspelled, rfl⟩
      | boundary isWord =>
          rw [matchesAt] at hmatch
          split_ifs at hmatch with hboundary
          · exact ih hmatch
          · exact absurd hmatch List.not_mem_nil

theorem exists_accepts_of_spelled (hspelled : Spelled pieces taken groups) :
    ∀ char ∈ taken, ∃ piece ∈ pieces, piece.accepts char = true := by
  induction pieces generalizing taken groups with
  | nil =>
      rw [hspelled.1]
      exact fun char hchar => absurd hchar List.not_mem_nil
  | cons piece pieces ih =>
      intro char hchar
      cases piece with
      | one accepts =>
          obtain ⟨first, rest, rfl, hfirst, hrest⟩ := hspelled
          rcases List.mem_cons.mp hchar with rfl | hchar
          · exact ⟨_, List.mem_cons_self, hfirst⟩
          · obtain ⟨piece, hpiece, haccepts⟩ := ih hrest char hchar
            exact ⟨piece, List.mem_cons_of_mem _ hpiece, haccepts⟩
      | run accepts least most greedy captured =>
          obtain ⟨front, rest, behind, rfl, hfront, -, -, hrest, -⟩ := hspelled
          rcases List.mem_append.mp hchar with hchar | hchar
          · exact ⟨_, List.mem_cons_self, hfront char hchar⟩
          · obtain ⟨piece, hpiece, haccepts⟩ := ih hrest char hchar
            exact ⟨piece, List.mem_cons_of_mem _ hpiece, haccepts⟩
      | boundary isWord =>
          obtain ⟨piece, hpiece, haccepts⟩ := ih hspelled char hchar
          exact ⟨piece, List.mem_cons_of_mem _ hpiece, haccepts⟩

/-- Every single character of a pattern is in what it reads. -/
theorem exists_mem_of_spelled (hspelled : Spelled pieces taken groups)
    (hpiece : .one accepts ∈ pieces) : ∃ char ∈ taken, accepts char = true := by
  induction pieces generalizing taken groups with
  | nil => exact absurd hpiece List.not_mem_nil
  | cons piece pieces ih =>
      cases piece with
      | one first =>
          obtain ⟨char, rest, rfl, hchar, hrest⟩ := hspelled
          rcases List.mem_cons.mp hpiece with heq | hpiece
          · obtain rfl := Piece.one.inj heq
            exact ⟨char, List.mem_cons_self, hchar⟩
          · obtain ⟨found, hfound, haccepts⟩ := ih hrest hpiece
            exact ⟨found, List.mem_cons_of_mem char hfound, haccepts⟩
      | run run least most greedy captured =>
          obtain ⟨front, rest, behind, rfl, -, -, -, hrest, -⟩ := hspelled
          obtain ⟨found, hfound, haccepts⟩ :=
            ih hrest ((List.mem_cons.mp hpiece).resolve_left nofun)
          exact ⟨found, List.mem_append_right front hfound, haccepts⟩
      | boundary isWord => exact ih hspelled ((List.mem_cons.mp hpiece).resolve_left nofun)

/-- Pieces in two parts read a text in two parts. -/
theorem spelled_append {front back : List (Piece α)}
    (hspelled : Spelled (front ++ back) taken groups) :
    ∃ left right groupsLeft groupsRight, taken = left ++ right ∧
      groups = groupsLeft ++ groupsRight ∧ Spelled front left groupsLeft ∧
        Spelled back right groupsRight := by
  induction front generalizing taken groups with
  | nil => exact ⟨[], taken, [], groups, rfl, rfl, ⟨rfl, rfl⟩, hspelled⟩
  | cons piece front ih =>
      cases piece with
      | one accepts =>
          obtain ⟨first, rest, rfl, hfirst, hrest⟩ := hspelled
          obtain ⟨left, right, groupsLeft, groupsRight, rfl, rfl, hleft, hright⟩ := ih hrest
          exact ⟨first :: left, right, groupsLeft, groupsRight, rfl, rfl,
            ⟨first, left, rfl, hfirst, hleft⟩, hright⟩
      | run accepts least most greedy captured =>
          obtain ⟨run, rest, behind, rfl, hrun, hleast, hmost, hrest, rfl⟩ := hspelled
          obtain ⟨left, right, groupsLeft, groupsRight, rfl, rfl, hleft, hright⟩ := ih hrest
          refine ⟨run ++ left, right, if captured then run :: groupsLeft else groupsLeft,
            groupsRight, (List.append_assoc _ _ _).symm, ?_,
            ⟨run, left, groupsLeft, rfl, hrun, hleast, hmost, hleft, rfl⟩, hright⟩
          cases captured with
          | true => rfl
          | false => rfl
      | boundary isWord => exact ih hspelled

variable {word : List α}

theorem spelled_literal [DecidableEq α] (hspelled : Spelled (literal word) taken groups) :
    taken = word ∧ groups = [] := by
  induction word generalizing taken with
  | nil => exact hspelled
  | cons char word ih =>
      obtain ⟨first, rest, rfl, hfirst, hrest⟩ := hspelled
      rw [beq_iff_eq.mp hfirst, (ih hrest).1]
      exact ⟨rfl, (ih hrest).2⟩

theorem literal_accepts [DecidableEq α] {piece : Piece α} {char : α} (hpiece : piece ∈ literal word)
    (haccepts : piece.accepts char = true) : char ∈ word := by
  obtain ⟨found, hfound, rfl⟩ := List.mem_map.mp hpiece
  rwa [beq_iff_eq.mp haccepts]

theorem literal_rejects [DecidableEq α] {char : α} (hchar : char ∉ word) :
    ∀ piece ∈ literal word, piece.accepts char = false := by
  intro piece hpiece
  rw [Bool.eq_false_iff]
  exact fun haccepts => hchar (literal_accepts hpiece haccepts)

/-! ## What is found -/

/-- A match that is found is one that the pieces read somewhere in the text. -/
theorem spelled_of_mem_findAll {skip : ℕ} (hfound : groups ∈ findAll pieces skip before text) :
    ∃ taken, taken <:+: text ∧ Spelled pieces taken groups := by
  induction text generalizing skip before with
  | nil =>
      rw [findAll] at hfound
      exact absurd hfound List.not_mem_nil
  | cons char text ih =>
      have hbehind {skip : ℕ} (hfound : groups ∈ findAll pieces skip (some char) text) :
          ∃ taken, taken <:+: char :: text ∧ Spelled pieces taken groups := by
        obtain ⟨taken, htaken, hspelled⟩ := ih hfound
        exact ⟨taken, htaken.trans (List.suffix_cons char text).isInfix, hspelled⟩
      cases skip with
      | succ skip => exact hbehind hfound
      | zero =>
          rw [findAll] at hfound
          cases hhead : (matchesAt pieces before (char :: text)).head? with
          | none =>
              rw [hhead] at hfound
              exact hbehind hfound
          | some first =>
              obtain ⟨found, rest⟩ := first
              rw [hhead] at hfound
              rcases List.mem_cons.mp hfound with rfl | hfound
              · obtain ⟨taken, htext, hspelled⟩ :=
                  spelled_of_mem_matchesAt (List.mem_of_mem_head? hhead)
                rw [htext]
                exact ⟨taken, (List.prefix_append taken rest).isInfix, hspelled⟩
              · exact hbehind hfound

/-- A marker is found if it is matched at its place and no match from before reaches it. -/
theorem mem_findAll {marker : List α}
    (hmarker : ∀ before, (matchesAt pieces before marker).head? = some (groups, rest))
    (hne : marker ≠ []) {front : List α}
    (hclear : ∀ before back groups rest, back <:+ front → back ≠ [] →
      (groups, rest) ∈ matchesAt pieces before (back ++ marker) → marker <:+ rest)
    {skip : ℕ} (hskip : skip ≤ front.length) (before : Option α) :
    groups ∈ findAll pieces skip before (front ++ marker) := by
  induction front generalizing skip before with
  | nil =>
      obtain ⟨char, text, rfl⟩ := List.exists_cons_of_ne_nil hne
      rw [Nat.le_zero.mp hskip, List.nil_append, findAll, hmarker before]
      exact List.mem_cons_self
  | cons char front ih =>
      have hbehind {skip : ℕ} (hskip : skip ≤ front.length) (before : Option α) :
          groups ∈ findAll pieces skip before (front ++ marker) :=
        ih (fun before back groups rest hback =>
          hclear before back groups rest (hback.trans (List.suffix_cons char front))) hskip before
      cases skip with
      | succ skip => exact hbehind (Nat.le_of_succ_le_succ hskip) (some char)
      | zero =>
          rw [List.cons_append, findAll]
          cases hhead : (matchesAt pieces before (char :: (front ++ marker))).head? with
          | none => exact hbehind (Nat.zero_le _) (some char)
          | some first =>
              obtain ⟨found, left⟩ := first
              refine List.mem_cons_of_mem _ (hbehind ?_ (some char))
              have hleft := hclear before (char :: front) found left List.suffix_rfl
                (List.cons_ne_nil _ _) (List.mem_of_mem_head? hhead)
              rw [List.length_append]
              have hlength := hleft.length_le
              omega

/-- A match from before ends ahead of a character that only its first piece could take. -/
theorem suffix_of_mem_matchesAt {anchor : α}
    (hanchor : ∀ piece ∈ pieces, piece.accepts anchor = false) {back : List α} (hback : back ≠ [])
    (hmatch : (groups, rest) ∈ matchesAt (.one accepts :: pieces) before (back ++ anchor :: text)) :
    anchor :: text <:+ rest := by
  obtain ⟨taken, htext, first, later, rfl, -, hlater⟩ := spelled_of_mem_matchesAt hmatch
  rcases List.append_eq_append_iff.mp htext with ⟨reached, htaken, hrest⟩ | ⟨left, -, hrest⟩
  · cases reached with
    | nil => exact ⟨[], hrest⟩
    | cons char reached =>
        obtain ⟨rfl, -⟩ := List.cons.inj hrest
        obtain ⟨start, back, rfl⟩ := List.exists_cons_of_ne_nil hback
        have hreached : anchor ∈ later := by
          rw [(List.cons.inj htaken).2]
          exact List.mem_append_right back List.mem_cons_self
        obtain ⟨piece, hpiece, haccepts⟩ := exists_accepts_of_spelled hlater anchor hreached
        rw [hanchor piece hpiece] at haccepts
        cases haccepts
  · exact ⟨left, hrest.symm⟩

/-! ## What is read is found -/

theorem mem_splits (htaken : ∀ char ∈ taken, accepts char = true) (rest : List α) :
    (taken, rest) ∈ splits accepts (taken ++ rest) := by
  induction taken with
  | nil =>
      cases rest with
      | nil => exact List.mem_singleton_self _
      | cons char rest => exact List.mem_cons_self
  | cons char taken ih =>
      obtain ⟨hchar, htaken⟩ := List.forall_mem_cons.mp htaken
      rw [List.cons_append, splits, if_pos hchar]
      exact List.mem_cons_of_mem _ (List.mem_map.mpr ⟨(taken, rest), ih htaken, rfl⟩)

theorem mem_runSplits_of_accepts {greedy : Bool} (htaken : ∀ char ∈ taken, accepts char = true)
    (hleast : least ≤ taken.length) (hmost : ∀ bound ∈ most, taken.length ≤ bound) (rest : List α) :
    (taken, rest) ∈ runSplits accepts least most greedy (taken ++ rest) := by
  have hallowed : (taken, rest) ∈ (splits accepts (taken ++ rest)).filter fun (taken, _) =>
      least ≤ taken.length && most.all fun most => taken.length ≤ most := by
    rw [List.mem_filter, Bool.and_eq_true, decide_eq_true_eq]
    refine ⟨mem_splits htaken rest, hleast, ?_⟩
    cases most with
    | none => rfl
    | some bound => exact decide_eq_true (hmost bound rfl)
  rw [runSplits]
  cases greedy with
  | true => exact List.mem_reverse.mpr hallowed
  | false => exact hallowed

def Piece.isBoundary : Piece α → Bool
  | .boundary _ => true
  | _ => false

/-- What the pieces read is a success, unless they look around. -/
theorem mem_matchesAt_of_spelled (hpieces : ∀ piece ∈ pieces, piece.isBoundary = false)
    (hspelled : Spelled pieces taken groups) (before : Option α) (rest : List α) :
    (groups, rest) ∈ matchesAt pieces before (taken ++ rest) := by
  induction pieces generalizing before taken groups with
  | nil =>
      rw [hspelled.1, hspelled.2]
      exact List.mem_singleton_self _
  | cons piece pieces ih =>
      obtain ⟨hpiece, hothers⟩ := List.forall_mem_cons.mp hpieces
      cases piece with
      | one accepts =>
          obtain ⟨char, later, rfl, hchar, hlater⟩ := hspelled
          simp only [List.cons_append, matchesAt, if_pos hchar]
          exact ih hothers hlater (some char)
      | run accepts least most greedy captured =>
          obtain ⟨front, later, behind, rfl, hfront, hleast, hmost, hlater, rfl⟩ := hspelled
          rw [matchesAt, List.mem_flatMap, List.append_assoc]
          exact ⟨(front, later ++ rest), mem_runSplits_of_accepts hfront hleast hmost _,
            List.mem_map.mpr ⟨(behind, rest), ih hothers hlater _, rfl⟩⟩
      | boundary isWord => cases hpiece

/-- Something is found in a text that has what the pieces read. -/
theorem findAll_ne_nil (hpieces : ∀ piece ∈ pieces, piece.isBoundary = false)
    (hspelled : Spelled pieces taken groups) (hne : taken ≠ []) (htext : taken <:+: text)
    (before : Option α) : findAll pieces 0 before text ≠ [] := by
  induction text generalizing before with
  | nil => exact absurd (List.infix_nil.mp htext) hne
  | cons char text ih =>
      rw [findAll]
      cases hhead : (matchesAt pieces before (char :: text)).head? with
      | some first => exact List.cons_ne_nil _ _
      | none =>
          rcases List.infix_cons_iff.mp htext with hprefix | hinside
          · obtain ⟨rest, hrest⟩ := hprefix
            have hmatch := mem_matchesAt_of_spelled hpieces hspelled before rest
            rw [hrest, List.head?_eq_none_iff.mp hhead] at hmatch
            exact absurd hmatch List.not_mem_nil
          · exact ih hinside (some char)

/-! ## The first success -/

theorem matchesAt_literal [DecidableEq α] (word : List α) (pieces : List (Piece α))
    (before : Option α) (text : List α) :
    matchesAt (literal word ++ pieces) before (word ++ text) =
      matchesAt pieces (word.getLast?.or before) text := by
  induction word generalizing before with
  | nil => rfl
  | cons char word ih =>
      have hbefore : (char :: word).getLast?.or before = word.getLast?.or (some char) := by
        cases word with
        | nil => rfl
        | cons next word =>
            rw [List.getLast?_cons_cons, List.getLast?_eq_some_getLast (List.cons_ne_nil next word)]
            rfl
      rw [hbefore, ← ih (some char)]
      simp only [literal, List.map_cons, List.cons_append, matchesAt, beq_self_eq_true, if_true]

theorem splits_append (htaken : ∀ char ∈ taken, accepts char = true)
    (hrest : ∀ char ∈ rest.head?, accepts char = false) :
    (splits accepts (taken ++ rest)).getLast? = some (taken, rest) := by
  induction taken with
  | nil =>
      cases rest with
      | nil => rfl
      | cons char rest =>
          rw [List.nil_append, splits, hrest char rfl]
          rfl
  | cons char taken ih =>
      obtain ⟨hchar, htaken⟩ := List.forall_mem_cons.mp htaken
      rw [List.cons_append, splits, if_pos hchar, List.getLast?_cons, List.getLast?_map,
        ih htaken]
      rfl

/-- A greedy run takes all characters that it accepts. -/
theorem head?_matchesAt_run (htaken : ∀ char ∈ taken, accepts char = true)
    (htext : ∀ char ∈ text.head?, accepts char = false) (hleast : least ≤ taken.length)
    (hmost : ∀ bound ∈ most, taken.length ≤ bound) {captured : Bool}
    (hbehind : (matchesAt pieces (taken.getLast?.or before) text).head? = some (groups, rest)) :
    (matchesAt (.run accepts least most true captured :: pieces) before (taken ++ text)).head? =
      some (if captured then taken :: groups else groups, rest) := by
  have hallowed : (least ≤ taken.length && most.all fun most => taken.length ≤ most) = true := by
    rw [Bool.and_eq_true, decide_eq_true_eq]
    refine ⟨hleast, ?_⟩
    cases most with
    | none => rfl
    | some bound => exact decide_eq_true (hmost bound rfl)
  obtain ⟨shorter, hsplits⟩ := List.getLast?_eq_some_iff.mp (splits_append htaken htext)
  obtain ⟨successes, hsuccesses⟩ := List.head?_eq_some_iff.mp hbehind
  have hlast : ([(taken, text)].filter fun (taken, _) =>
      least ≤ taken.length && most.all fun most => taken.length ≤ most) = [(taken, text)] :=
    List.filter_cons_of_pos hallowed
  rw [matchesAt, runSplits, if_pos rfl, hsplits, List.filter_append, hlast, List.reverse_append,
    List.reverse_singleton, List.singleton_append, List.flatMap_cons]
  dsimp only
  rw [hsuccesses]
  rfl

end Legroom.Regex
