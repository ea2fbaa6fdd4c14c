import Legroom.LiveZone.CompressBlock
import Legroom.LiveZone.BodyViews
import Mathlib.Data.List.Pairwise

/-!
# Surgery on the body

Every dispatcher ends by splicing the accepted texts into the body.  If the
planned ranges are string literals at distinct paths of the body, then the new
body is the text of an edit of its value: nothing but those literals changes,
and the checks on the spliced bytes never fail.
-/

namespace Legroom.LiveZone

open Utf8 Json

/-- Splice the replacements and check the result, as every dispatcher ends. -/
def finishBody (bodyRaw : Bytes) (manifest : CompressionManifest)
    (replacements : List Replacement) : LiveZoneOutcome :=
  if !manifest.hasCompressedBlock || replacements.isEmpty then .noChange manifest
  else
    let newBytes := splice bodyRaw 0 (sortReplacements replacements)
    match fromUtf8 newBytes with
    | .error _ => .noChange manifest
    | .ok newBodyStr =>
        match rawValueFromString newBodyStr.bytes with
        | none => .noChange manifest
        | some newBody => .modified newBody manifest

/-! ## Slots on the body -/

/-- The range of the slot is the string literal at `path`, and its text is the
content. -/
def BlockSlot.StandsAt (slot : BlockSlot) (root : Located) (path : Path) : Prop :=
  ∃ lit, Reaches root path ⟨slot.contentByteRange.1, .string lit⟩ ∧
    slot.contentByteRange.2 = slot.contentByteRange.1 + lit.bytes.length ∧
    lit.text = some slot.contentText

variable {path : Path}

theorem Swap.overwrites {swap : Swap} {root : Located} (hstands : swap.slot.StandsAt root path) :
    Overwrites root path swap.written swap.replacement := by
  obtain ⟨lit, hreaches, hstop, _⟩ := hstands
  refine ⟨swap.slot.contentByteRange.1, lit, hreaches, ?_⟩
  rw [Swap.replacement, hstop]

/-- Neither path leads to a part of what is at the other. -/
def Apart (left right : Path) : Prop := ¬left <+: right ∧ ¬right <+: left

/-- Paths that lead through places apart are different. -/
theorem Apart.not_both {left right : Path} (hapart : Apart left right) (hleft : left <+: path) :
    ¬right <+: path := fun hright =>
  (List.prefix_or_prefix_of_prefix hleft hright).elim hapart.1 hapart.2

theorem apart_index {front : Path} {left right : ℕ} (hne : left ≠ right) :
    Apart (front ++ [.index left]) (front ++ [.index right]) := by
  constructor <;> intro hbegins <;>
    rw [List.prefix_append_right_inj, List.cons_prefix_cons] at hbegins <;>
    cases hbegins.1
  · exact hne rfl
  · exact hne rfl

/-- Where the block of an outcome stands: in the `field` of an item of `list`. -/
def BlockOutcome.home (list field : Utf8String) (outcome : BlockOutcome) : Path :=
  [.key list, .index outcome.messageIndex, .key field] ++
    outcome.blockIndex.toList.map .index

def BlockSlot.home (list field : Utf8String) (slot : BlockSlot) : Path :=
  [.key list, .index slot.messageIndex, .key field] ++ slot.blockIndex.toList.map .index

/-- The content of a chat message, or a block of it. -/
abbrev contentHome : BlockOutcome → Path :=
  BlockOutcome.home (constant "messages") (constant "content")

variable {list : Utf8String}

/-- Parts of different items are apart. -/
theorem apart_items {left right : ℕ} {front back : Path} (hne : left ≠ right) :
    Apart (.key list :: .index left :: front) (.key list :: .index right :: back) := by
  constructor <;> intro hbegins <;>
    rw [List.cons_prefix_cons, List.cons_prefix_cons] at hbegins <;>
    cases hbegins.2.1
  · exact hne rfl
  · exact hne rfl

variable {field : Utf8String}

theorem home_apart {left right : BlockSlot} (hne : left.messageIndex ≠ right.messageIndex) :
    Apart (left.home list field) (right.home list field) :=
  apart_items hne

variable (backend : Backend) {State : Type*} (model : Utf8String)
  (ccrStore : Option (CcrStore State))

/-- The decisions of a dispatcher, on blocks that stand at their own places: an
outcome has its block at `home`, and the texts to swap are at `allowed` paths. -/
structure Settled (root : Located) (home : BlockOutcome → Path) (allowed : Path → Prop)
    (decisions : List Decision) : Prop where
  reported : ∀ decision ∈ decisions,
    decision.1.action.isCompressed = decision.2.isSome
  swapped : ∀ decision ∈ decisions, ∀ swap ∈ decision.2,
    decision = decideSlot backend model ccrStore swap.slot ∧
      ∃ path, swap.slot.StandsAt root path ∧ home decision.1 <+: path ∧ allowed path
  apart : decisions.Pairwise fun left right => Apart (home left.1) (home right.1)

/-- The text of the part at a path of a body. -/
def partBytes (body : Bytes) (path : Path) : Option Bytes :=
  (Slice.root ⟨0, body⟩).bind fun root =>
    (root.part path).map fun part => part.value.render

variable {document : Document}

/-- An edit that leaves the part at a path alone does not change its text. -/
theorem partBytes_edit {new : Edit} (hkept : new.belowPath path = .keepAll) :
    partBytes (document.value.edit new).render path = partBytes document.render path := by
  have hedited : (⟨.empty, document.value.edit new, .empty⟩ : Document).render =
      (document.value.edit new).render := by
    simp [Document.render, Space.empty]
  have hpart := Located.part_edit path 0 document.before.bytes.length document.value new
  rw [hkept] at hpart
  have htexts := congrArg (Option.map Tree.render) hpart
  simp only [Option.map_map, Tree.edit_keepAll] at htexts
  rw [partBytes, partBytes, ← hedited, Document.root_slice, Document.root_slice]
  exact htexts

/-- Where the value of a body has a part, the body has its text. -/
theorem exists_partBytes {value found : Value} (hdenote : document.value.denote = some value)
    (hfound : value.at? path = some found) :
    ∃ text, partBytes document.render path = some text := by
  have hroot : document.root.value.denote = some value := hdenote
  obtain ⟨part, hpart, _⟩ := Located.exists_part hroot hfound
  refine ⟨part.value.render, ?_⟩
  rw [partBytes, Document.root_slice, Option.bind_some, hpart, Option.map_some]

variable {backend model ccrStore} {root : Located} {home : BlockOutcome → Path}
  {allowed : Path → Prop} {decisions : List Decision}

/-- Nothing is settled by decisions that swap nothing. -/
theorem settled_of_kept {outcomes : List BlockOutcome}
    (hkept : ∀ outcome ∈ outcomes, outcome.action.isCompressed = false)
    (hapart : outcomes.Pairwise fun left right => Apart (home left) (home right)) :
    Settled backend model ccrStore root home allowed
      (outcomes.map fun outcome => (outcome, none)) where
  reported := by
    intro decision hdecision
    obtain ⟨outcome, houtcome, rfl⟩ := List.mem_map.mp hdecision
    exact hkept outcome houtcome
  swapped := by
    intro decision hdecision swap hswap
    obtain ⟨outcome, _, rfl⟩ := List.mem_map.mp hdecision
    cases hswap
  apart := List.pairwise_map.mpr hapart

/-- Slots are settled if those with enough text stand at their places. -/
theorem settled_slots {slots : List BlockSlot}
    (hstands : ∀ slot ∈ slots, 512 ≤ slot.contentText.bytes.length →
      ∃ path, slot.StandsAt root path ∧ slot.home list field <+: path ∧ allowed path)
    (hapart : slots.Pairwise fun left right =>
      Apart (left.home list field) (right.home list field)) :
    Settled backend model ccrStore root (BlockOutcome.home list field) allowed
      (slots.map (decideSlot backend model ccrStore)) where
  reported := by
    intro decision hdecision
    obtain ⟨slot, _, rfl⟩ := List.mem_map.mp hdecision
    exact isCompressed_decideSlot backend model ccrStore slot
  swapped := by
    intro decision hdecision swap hswap
    obtain ⟨slot, hslot, rfl⟩ := List.mem_map.mp hdecision
    obtain ⟨rfl, hlength⟩ := slot_of_decideSlot backend model ccrStore hswap
    exact ⟨rfl, hstands _ hslot hlength⟩
  apart := List.pairwise_map.mpr hapart

theorem settled_nil : Settled backend model ccrStore root home allowed [] where
  reported := fun decision hdecision => by cases hdecision
  swapped := fun decision hdecision => by cases hdecision
  apart := .nil

theorem Settled.mono {permitted : Path → Prop}
    (hsettled : Settled backend model ccrStore root home allowed decisions)
    (hpermitted : ∀ path, allowed path → permitted path) :
    Settled backend model ccrStore root home permitted decisions where
  reported := hsettled.reported
  swapped := by
    intro decision hdecision swap hswap
    obtain ⟨hsame, path, hstands, hhome, hallowed⟩ :=
      hsettled.swapped decision hdecision swap hswap
    exact ⟨hsame, path, hstands, hhome, hpermitted path hallowed⟩
  apart := hsettled.apart

/-- The swaps write texts at distinct paths. -/
theorem Settled.exists_assignments
    (hsettled : Settled backend model ccrStore root home allowed decisions) :
    ∃ assignments : List (Path × Utf8String),
      List.Forall₂ (fun assignment range =>
          Overwrites root assignment.1 assignment.2 range) assignments
        ((decisions.filterMap Prod.snd).map Swap.replacement) ∧
      (assignments.map Prod.fst).Nodup ∧
      ∀ path ∈ assignments.map Prod.fst, allowed path ∧
        ∃ decision ∈ decisions, decision.2.isSome = true ∧ home decision.1 <+: path := by
  obtain ⟨hreported, hswapped, hapart⟩ := hsettled
  induction decisions with
  | nil => exact ⟨[], .nil, List.nodup_nil, fun path hpath => by cases hpath⟩
  | cons decision decisions ih =>
      obtain ⟨assignments, hranges, hnodup, hplaces⟩ := ih
        (fun later hlater => hreported later (List.mem_cons_of_mem _ hlater))
        (fun later hlater => hswapped later (List.mem_cons_of_mem _ hlater))
        (List.pairwise_cons.mp hapart).2
      have hlater : ∀ path ∈ assignments.map Prod.fst, allowed path ∧
          ∃ other ∈ decision :: decisions, other.2.isSome = true ∧
            home other.1 <+: path := by
        intro path hpath
        obtain ⟨hallowed, other, hother, hplace⟩ := hplaces path hpath
        exact ⟨hallowed, other, List.mem_cons_of_mem _ hother, hplace⟩
      obtain ⟨outcome, swap⟩ := decision
      cases swap with
      | none => exact ⟨assignments, hranges, hnodup, hlater⟩
      | some swap =>
          obtain ⟨_, path, hstands, hhome, hallowed⟩ :=
            hswapped _ List.mem_cons_self swap rfl
          refine ⟨(path, swap.written) :: assignments,
            .cons (Swap.overwrites hstands) hranges, ?_, ?_⟩
          · rw [List.map_cons, List.nodup_cons]
            refine ⟨fun hpath => ?_, hnodup⟩
            obtain ⟨_, other, hother, _, hplace⟩ := hplaces path hpath
            exact ((List.pairwise_cons.mp hapart).1 other hother).not_both hhome hplace
          · intro other hother
            rcases List.mem_cons.mp hother with rfl | hother
            · exact ⟨hallowed, _, List.mem_cons_self, rfl, hhome⟩
            · exact hlater other hother

/-- The ranges of the swaps are those of an edit at allowed paths, which leaves every
block alone that is not swapped. -/
theorem Settled.exists_edit
    (hsettled : Settled backend model ccrStore root home allowed decisions) :
    ∃ new : Edit, (∀ path, new path ≠ none → allowed path) ∧
      (∀ decision ∈ decisions, decision.2 = none →
        new.belowPath (home decision.1) = .keepAll) ∧
      ((decisions.filterMap Prod.snd).map Swap.replacement).Perm
        (root.replacements new) := by
  obtain ⟨assignments, hranges, hnodup, hplaces⟩ := hsettled.exists_assignments
  have hwritten : ∀ path, Edit.ofList assignments path ≠ none →
      path ∈ assignments.map Prod.fst := by
    intro path hpath
    obtain ⟨text, htext⟩ := Option.ne_none_iff_exists'.mp hpath
    exact List.mem_map_of_mem (Edit.mem_of_ofList htext)
  refine ⟨.ofList assignments, fun path hpath => (hplaces path (hwritten path hpath)).1,
    ?_, Located.replacements_ofList hranges hnodup⟩
  intro decision hdecision hkept
  funext rest
  by_contra hpath
  obtain ⟨_, other, hother, hswapped, hplace⟩ := hplaces _ (hwritten _ hpath)
  have hne : other ≠ decision := by
    rintro rfl
    rw [hkept] at hswapped
    cases hswapped
  have hsymm : Std.Symm fun left right : Decision =>
      Apart (home left.1) (home right.1) := ⟨fun _ _ hapart => And.symm hapart⟩
  have hapart := hsettled.apart.forall hother hdecision hne
  exact hapart.not_both hplace (List.prefix_append _ _)

variable {manifest : CompressionManifest}

/-- A dispatcher ends with the edited value exactly if a block was compressed. -/
theorem finishBody_eq {new : Edit} {ranges : List Replacement}
    (hranges : ranges.Perm (document.root.replacements new))
    (hcompressed : manifest.hasCompressedBlock = !ranges.isEmpty) :
    finishBody document.render manifest ranges =
      if manifest.hasCompressedBlock then
        .modified (document.value.edit new).render manifest
      else .noChange manifest := by
  cases hempty : ranges.isEmpty with
  | true => simp [finishBody, hcompressed, hempty]
  | false =>
      have hvalid : Valid (document.edit new).render :=
        document.before.valid.append
          ((document.value.edit new).valid_render.append document.after.valid)
      rw [finishBody, hcompressed, hempty]
      simp only [Bool.not_false, Bool.not_true, Bool.or_self, Bool.false_eq_true, if_false,
        if_true, Document.splice_render hranges, fromUtf8_of_valid hvalid,
        rawValueFromString, parseDocument_eq_some_iff.mpr rfl, Option.map_some]
      rfl

/-! ## Results of dispatchers -/

/-- The result of a dispatcher on a body: the swaps of settled decisions are spliced
into it and stored. -/
structure SettledRun (backend : Backend) (model : Utf8String)
    (ccrStore : Option (CcrStore State)) (home : BlockOutcome → Path)
    (allowed : Path → Prop) (document : Document) (store : State)
    (decisions : List Decision) (manifest : CompressionManifest)
    (result : Except LiveZoneError LiveZoneOutcome × State) : Prop where
  settled : Settled backend model ccrStore document.root home allowed decisions
  outcomes : manifest.blockOutcomes = decisions.map Prod.fst
  result_eq : result =
    (.ok (finishBody document.render manifest
      ((decisions.filterMap Prod.snd).map Swap.replacement)),
      (decisions.filterMap Prod.snd).foldl (storeOriginal backend ccrStore) store)

variable {store : State}

/-- A run that reports blocks and swaps none. -/
theorem settledRun_of_kept
    (hkept : ∀ outcome ∈ manifest.blockOutcomes, outcome.action.isCompressed = false)
    (hapart : manifest.blockOutcomes.Pairwise fun left right => Apart (home left) (home right)) :
    SettledRun backend model ccrStore home allowed document store
      (manifest.blockOutcomes.map fun outcome => (outcome, none)) manifest
      (.ok (.noChange manifest), store) where
  settled := settled_of_kept hkept hapart
  outcomes := by simp [Function.comp_def]
  result_eq := by simp [finishBody]

/-- A run over blocks that are decided one by one. -/
theorem settledRun_of_blocks {A : Type*} {step : A → Progress State → BlockOutcome × Progress State}
    {decide : A → Decision}
    (hstep : ∀ block progress, step block progress =
      ((decide block).1, progress.recordAll backend ccrStore (decide block).2.toList))
    {blocks : List A}
    (hsettled : Settled backend model ccrStore document.root home allowed (blocks.map decide))
    (houtcomes : manifest.blockOutcomes = (runBlocks step blocks ⟨[], store⟩).1) :
    SettledRun backend model ccrStore home allowed document store (blocks.map decide)
      manifest
      (.ok (finishBody document.render manifest
        (runBlocks step blocks ⟨[], store⟩).2.replacements),
        (runBlocks step blocks ⟨[], store⟩).2.store) where
  settled := hsettled
  outcomes := by
    rw [houtcomes, runBlocks_eq backend ccrStore hstep, List.map_map]
    rfl
  result_eq := by
    rw [runBlocks_eq backend ccrStore hstep, List.filterMap_map]
    rfl

variable {result : Except LiveZoneError LiveZoneOutcome × State}

/-- There are replacements exactly if a block is reported as compressed. -/
theorem SettledRun.hasCompressedBlock
    (hrun : SettledRun backend model ccrStore home allowed document store decisions manifest
      result) :
    manifest.hasCompressedBlock =
      !((decisions.filterMap Prod.snd).map Swap.replacement).isEmpty := by
  rw [CompressionManifest.hasCompressedBlock, hrun.outcomes, List.isEmpty_map,
    List.any_map, Bool.eq_iff_iff, List.any_eq_true]
  simp only [Bool.not_eq_true', List.isEmpty_eq_false_iff_exists_mem, List.mem_filterMap]
  constructor
  · rintro ⟨decision, hdecision, hcompressed⟩
    have hreported := hrun.settled.reported decision hdecision
    rw [Function.comp_apply] at hcompressed
    rw [hcompressed, eq_comm, Option.isSome_iff_exists] at hreported
    obtain ⟨swap, hswap⟩ := hreported
    exact ⟨swap, decision, hdecision, hswap⟩
  · rintro ⟨swap, decision, hdecision, hswap⟩
    refine ⟨decision, hdecision, ?_⟩
    rw [Function.comp_apply, hrun.settled.reported decision hdecision, hswap]
    rfl

/-- A run ends with an edit at allowed paths, which is the body itself at every block
that is not swapped. -/
theorem SettledRun.exists_edit
    (hrun : SettledRun backend model ccrStore home allowed document store decisions manifest
      result) :
    ∃ new : Edit, (∀ path, new path ≠ none → allowed path) ∧
      (∀ decision ∈ decisions, decision.2 = none →
        new.belowPath (home decision.1) = .keepAll) ∧
      result.1 = .ok (if manifest.hasCompressedBlock then
          .modified (document.value.edit new).render manifest
        else .noChange manifest) := by
  obtain ⟨new, hallowed, hkept, hranges⟩ := hrun.settled.exists_edit
  refine ⟨new, hallowed, hkept, ?_⟩
  rw [hrun.result_eq, finishBody_eq hranges hrun.hasCompressedBlock]

end Legroom.LiveZone
