import Legroom.Lib.Bytes
import Mathlib.Data.List.Sort

/-!
# Replacing ranges of a text

A list of pieces describes a text and its replacement at once: a piece is either
kept or swapped.  Copying the kept bytes of the source and the new bytes of the
ranges that are swapped gives the target, provided the ranges are visited in the
order of the text.
-/

namespace Legroom

/-- Put `bytes` in the place of the bytes from `start` up to `stop`. -/
structure Replacement where
  start : ℕ
  stop : ℕ
  bytes : Bytes
  deriving DecidableEq

inductive Piece where
  | keep (bytes : Bytes)
  | swap (old new : Bytes)
  deriving DecidableEq

namespace Piece

def old : Piece → Bytes
  | .keep bytes => bytes
  | .swap old _ => old

def new : Piece → Bytes
  | .keep bytes => bytes
  | .swap _ new => new

/-- The text that the pieces are cut from. -/
def source (pieces : List Piece) : Bytes := pieces.flatMap old

/-- The text after all swaps. -/
def target (pieces : List Piece) : Bytes := pieces.flatMap new

@[simp]
theorem source_nil : source [] = [] := rfl

@[simp]
theorem source_cons (piece : Piece) (pieces : List Piece) :
    source (piece :: pieces) = piece.old ++ source pieces := rfl

@[simp]
theorem source_append (left right : List Piece) :
    source (left ++ right) = source left ++ source right :=
  List.flatMap_append

@[simp]
theorem target_nil : target [] = [] := rfl

@[simp]
theorem target_cons (piece : Piece) (pieces : List Piece) :
    target (piece :: pieces) = piece.new ++ target pieces := rfl

@[simp]
theorem target_append (left right : List Piece) :
    target (left ++ right) = target left ++ target right :=
  List.flatMap_append

/-- The swaps as replacements in a text that has the pieces from `start` on. -/
def replacements : ℕ → List Piece → List Replacement
  | _, [] => []
  | start, .keep bytes :: pieces => replacements (start + bytes.length) pieces
  | start, .swap old new :: pieces =>
      ⟨start, start + old.length, new⟩ :: replacements (start + old.length) pieces

variable (start : ℕ)

@[simp]
theorem replacements_nil : replacements start [] = [] := rfl

@[simp]
theorem replacements_keep (bytes : Bytes) (pieces : List Piece) :
    replacements start (.keep bytes :: pieces) =
      replacements (start + bytes.length) pieces := rfl

theorem replacements_append (left right : List Piece) :
    replacements start (left ++ right) =
      replacements start left ++ replacements (start + (source left).length) right := by
  induction left generalizing start with
  | nil => rfl
  | cons piece left ih =>
      cases piece with
      | keep bytes => simp [replacements, ih, old, Nat.add_assoc]
      | swap old new => simp [replacements, ih, Piece.old, Nat.add_assoc]

theorem le_start_of_mem_replacements {start : ℕ} {pieces : List Piece}
    {replacement : Replacement} (hmem : replacement ∈ replacements start pieces) :
    start ≤ replacement.start := by
  induction pieces generalizing start with
  | nil => cases hmem
  | cons piece pieces ih =>
      cases piece with
      | keep bytes => exact (Nat.le_add_right _ _).trans (ih hmem)
      | swap old new =>
          rcases List.mem_cons.mp hmem with rfl | hmem
          · exact le_rfl
          · exact (Nat.le_add_right _ _).trans (ih hmem)

/-- Swaps of nonempty bytes start one behind the other. -/
theorem pairwise_replacements {pieces : List Piece}
    (hnonempty : ∀ old new, swap old new ∈ pieces → old ≠ []) :
    (replacements start pieces).Pairwise fun left right => left.start < right.start := by
  induction pieces generalizing start with
  | nil => exact List.Pairwise.nil
  | cons piece pieces ih =>
      have hrest := fun start => ih start fun old new hmem =>
        hnonempty old new (List.mem_cons_of_mem _ hmem)
      cases piece with
      | keep bytes => exact hrest _
      | swap old new =>
          have hold := List.length_pos_iff.mpr (hnonempty old new List.mem_cons_self)
          refine List.Pairwise.cons (fun later hlater => ?_) (hrest _)
          have hstart := le_start_of_mem_replacements hlater
          exact Nat.lt_of_lt_of_le (Nat.lt_add_of_pos_right hold) hstart

end Piece

/-- Copy the text up to each range and put the new bytes in its place. -/
def splice (text : Bytes) : ℕ → List Replacement → Bytes
  | cursor, [] => text.drop cursor
  | cursor, replacement :: replacements =>
      sliceRange text cursor replacement.start ++
        (replacement.bytes ++ splice text replacement.stop replacements)

variable (pieces : List Piece)

theorem splice_append_source {front : Bytes} {cursor : ℕ} (hcursor : cursor ≤ front.length) :
    splice (front ++ Piece.source pieces) cursor
        (Piece.replacements front.length pieces) =
      front.drop cursor ++ Piece.target pieces := by
  induction pieces generalizing front cursor with
  | nil => simp [splice]
  | cons piece pieces ih =>
      cases piece with
      | keep bytes =>
          have hlonger : cursor ≤ (front ++ bytes).length := by
            rw [List.length_append]
            omega
          have hrest := ih hlonger
          rw [List.length_append, List.append_assoc] at hrest
          rw [Piece.replacements_keep, Piece.source_cons, Piece.target_cons, Piece.old,
            Piece.new, hrest, List.drop_append_of_le_length hcursor, List.append_assoc]
      | swap old new =>
          have hrest := ih (Nat.le_refl (front ++ old).length)
          rw [List.drop_length, List.length_append, List.append_assoc,
            List.nil_append] at hrest
          rw [Piece.replacements, splice, Piece.source_cons, Piece.target_cons, Piece.old,
            Piece.new, hrest, sliceRange, List.take_left]

/-- Splicing the swaps of a text gives its target. -/
theorem splice_source :
    splice (Piece.source pieces) 0 (Piece.replacements 0 pieces) =
      Piece.target pieces := by
  have hcursor : 0 ≤ ([] : Bytes).length := le_rfl
  exact splice_append_source pieces hcursor

/-- Stable sorting by the start of the range. -/
def sortReplacements (replacements : List Replacement) : List Replacement :=
  replacements.mergeSort fun left right => left.start ≤ right.start

/-- Sorting any arrangement of ranges that start one behind the other restores
their order in the text. -/
theorem sortReplacements_of_perm {found ordered : List Replacement}
    (hperm : found.Perm ordered)
    (hordered : ordered.Pairwise fun left right => left.start < right.start) :
    sortReplacements found = ordered := by
  have hsorted : (sortReplacements found).Pairwise
      fun left right => decide (left.start ≤ right.start) = true := by
    apply List.pairwise_mergeSort
    · intro left middle right hleft hright
      simp only [decide_eq_true_eq] at hleft hright ⊢
      exact hleft.trans hright
    · intro left right
      simpa using Nat.le_total left.start right.start
  have hperm : (sortReplacements found).Perm ordered :=
    (List.mergeSort_perm _ _).trans hperm
  have hstarts : (ordered.map Replacement.start).Nodup :=
    List.pairwise_map.mpr (hordered.imp Nat.ne_of_lt)
  apply List.Perm.eq_of_pairwise _ hsorted (hordered.imp fun hlt => by simpa using hlt.le)
    hperm
  intro left right hleft hright hle hge
  simp only [decide_eq_true_eq] at hle hge
  exact List.inj_on_of_nodup_map hstarts (hperm.subset hleft) hright (hle.antisymm hge)

end Legroom
