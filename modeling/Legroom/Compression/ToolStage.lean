import Legroom.Compression.AnthropicRequest
import Legroom.Lib.Digests

/-!
# What the passes over the tools do

The passes change nothing but the tools: they reorder them, reorder the keys of their
schemas and may mark the last one.  Tools without a marker come out the same from
every order, and the passes find nothing more to do on what they wrote.
-/

namespace Legroom.Compression

open Json Utf8 CacheStabilization LiveZone

/-! ## One tool -/

/-- The same tool, with the keys of its schema in some order. -/
inductive SameTool : Value → Value → Prop
  | refl (tool : Value) : SameTool tool tool
  | schema {tool schema other : Value} (hschema : tool.get (constant "input_schema") = some schema)
      (hsame : SameContent true schema other) :
      SameTool tool (tool.put (constant "input_schema") other)

variable {tool : Value}

theorem sortInputSchema_of_get {schema : Value}
    (hschema : tool.get (constant "input_schema") = some schema) :
    sortInputSchema tool =
      (tool.put (constant "input_schema") (sortSchemaKeysRecursive schema),
        decide (schema.toJson ≠ (sortSchemaKeysRecursive schema).toJson)) := by
  rw [sortInputSchema, hschema]

theorem sortInputSchema_of_none (hschema : tool.get (constant "input_schema") = none) :
    sortInputSchema tool = (tool, false) := by
  rw [sortInputSchema, hschema]

theorem get_sortInputSchema {name : Utf8String} (hname : name ≠ constant "input_schema") :
    (sortInputSchema tool).1.get name = tool.get name := by
  cases hschema : tool.get (constant "input_schema") with
  | none => rw [sortInputSchema_of_none hschema]
  | some schema => rw [sortInputSchema_of_get hschema, Value.get_put_of_ne hname]

theorem toolName_sortInputSchema (tool : Value) :
    toolName (sortInputSchema tool).1 = toolName tool := by
  rw [toolName, toolName, Value.getStr, Value.getStr, get_sortInputSchema (by decide),
    get_sortInputSchema (by decide)]

theorem sameTool_sortInputSchema (htool : tool.WellFormed) :
    SameTool tool (sortInputSchema tool).1 := by
  cases hschema : tool.get (constant "input_schema") with
  | none =>
      rw [sortInputSchema_of_none hschema]
      exact .refl tool
  | some schema =>
      rw [sortInputSchema_of_get hschema]
      exact .schema hschema (sameContent_sortSchemaKeys (htool.of_get hschema))

/-- A tool whose schema is sorted stays, and nothing is reported. -/
theorem sortInputSchema_eq_iff (htool : tool.WellFormed) :
    (sortInputSchema tool).1 = tool ↔ (sortInputSchema tool).2 = false := by
  cases hschema : tool.get (constant "input_schema") with
  | none => simp [sortInputSchema_of_none hschema]
  | some schema =>
      have hwell := htool.of_get hschema
      rw [sortInputSchema_of_get hschema]
      constructor
      · intro hkept
        have hsorted := congrArg (Value.get · (constant "input_schema")) hkept
        simp only [Value.get_put_self hschema _, hschema, Option.some.injEq] at hsorted
        simp [hsorted]
      · intro hkept
        have hsame : schema = sortSchemaKeysRecursive schema :=
          Value.toJson_injective hwell (wellFormed_sortSchemaKeys hwell) (by simpa using hkept)
        rw [← hsame]
        exact Value.put_get hschema

theorem sortInputSchema_idempotent (htool : tool.WellFormed) :
    (sortInputSchema (sortInputSchema tool).1).1 = (sortInputSchema tool).1 := by
  cases hschema : tool.get (constant "input_schema") with
  | none => rw [sortInputSchema_of_none hschema, sortInputSchema_of_none hschema]
  | some schema =>
      rw [sortInputSchema_of_get hschema,
        sortInputSchema_of_get (Value.get_put_self hschema _), Value.put_put,
        sortSchemaKeys_idempotent (htool.of_get hschema)]

variable {left right : Value}

/-- Tools that differ in the order of schema keys come out the same. -/
theorem sortInputSchema_congr (hleft : left.WellFormed) (hright : right.WellFormed)
    (hsame : SameTool left right) : (sortInputSchema left).1 = (sortInputSchema right).1 := by
  cases hsame with
  | refl => rfl
  | @schema schema other hschema hcontent =>
      have hother := Value.get_put_self hschema other
      rw [sortInputSchema_of_get hschema, sortInputSchema_of_get hother, Value.put_put,
        (sortSchemaKeys_eq_iff (hleft.of_get hschema) (hright.of_get hother)).mpr hcontent]

theorem SameTool.get_eq (hsame : SameTool left right) {name : Utf8String}
    (hname : name ≠ constant "input_schema") : right.get name = left.get name := by
  cases hsame with
  | refl => rfl
  | schema => rw [Value.get_put_of_ne hname]

theorem SameTool.toolName_eq (hsame : SameTool left right) : toolName right = toolName left := by
  rw [toolName, toolName, Value.getStr, Value.getStr, hsame.get_eq (by decide),
    hsame.get_eq (by decide)]

/-- The marker does not touch the schema. -/
theorem sortInputSchema_marked {marked : Value}
    (hmarked : insertCacheControlOnObject tool = some marked)
    (htool : (sortInputSchema tool).1 = tool) : (sortInputSchema marked).1 = marked := by
  obtain ⟨rfl, -⟩ := insertCacheControl_eq hmarked
  have hother : constant "cache_control" ≠ constant "input_schema" := by decide
  cases hschema : tool.get (constant "input_schema") with
  | none =>
      rw [sortInputSchema_of_none]
      rw [Value.get_put_of_ne hother.symm, hschema]
  | some schema =>
      have hkept : tool.put (constant "input_schema") (sortSchemaKeysRecursive schema) = tool := by
        rwa [sortInputSchema_of_get hschema] at htool
      rw [sortInputSchema_of_get ((Value.get_put_of_ne hother.symm).trans hschema),
        Value.put_comm hother hschema, hkept]

/-! ## The list of tools -/

section

variable (md5 : Bytes → Vector Byte 16)

/-- The tools in the order in which they are sent. -/
def orderedTools (tools : List Value) : List Value :=
  if anyToolHasCacheControl tools then tools else (sortToolsDeterministically md5 tools).1

variable (tools : List Value)

theorem normalizeTools_fst :
    (normalizeTools md5 tools).1 =
      (orderedTools md5 tools).map fun tool => (sortInputSchema tool).1 := by
  rw [normalizeTools, orderedTools]
  split_ifs <;> simp [List.map_map, Function.comp_def]

theorem orderedTools_perm : (orderedTools md5 tools).Perm tools := by
  rw [orderedTools]
  split_ifs
  · exact List.Perm.refl tools
  · exact List.perm_insertionSort (KeyLe md5) tools

theorem anyTool_normalizeTools :
    anyToolHasCacheControl (normalizeTools md5 tools).1 = anyToolHasCacheControl tools := by
  rw [normalizeTools_fst, anyToolHasCacheControl, anyToolHasCacheControl, List.any_map,
    ← (orderedTools_perm md5 tools).any_eq]
  refine congrArg (List.any _) (funext fun tool => ?_)
  rw [Function.comp_apply, get_sortInputSchema (by decide)]

variable {tools : List Value}

/-- Tools in order with sorted schemas stay. -/
theorem normalizeTools_of_settled (hwell : ∀ tool ∈ tools, tool.WellFormed)
    (horder : anyToolHasCacheControl tools = true ∨ tools.Pairwise (KeyLe md5))
    (hschemas : ∀ tool ∈ tools, (sortInputSchema tool).1 = tool) :
    normalizeTools md5 tools = (tools, .none) := by
  have hsorted : (if anyToolHasCacheControl tools then (tools, false)
      else sortToolsDeterministically md5 tools) = (tools, false) := by
    rcases horder with hmarker | hpairwise
    · rw [if_pos hmarker]
    · rw [sortTools_of_pairwise md5 hpairwise, ite_self]
  have hkept : (tools.map sortInputSchema).map Prod.fst = tools := by
    rw [List.map_map]
    exact (List.map_congr_left hschemas).trans (List.map_id tools)
  have hquiet : (tools.map sortInputSchema).any Prod.snd = false := by
    rw [List.any_map, List.any_eq_false]
    intro tool htool
    simpa using (sortInputSchema_eq_iff (hwell tool htool)).mp (hschemas tool htool)
  rw [normalizeTools]
  simp only [hsorted, hkept, hquiet]
  rfl

/-- If nothing is reported nothing has changed. -/
theorem normalizeTools_of_quiet (hwell : ∀ tool ∈ tools, tool.WellFormed)
    (hquiet : (normalizeTools md5 tools).2.any = false) : (normalizeTools md5 tools).1 = tools := by
  rw [NormalizationApplied.any, Bool.or_eq_false_iff] at hquiet
  obtain ⟨hsort, hschemas⟩ := hquiet
  have horder : orderedTools md5 tools = tools := by
    rw [normalizeTools] at hsort
    rw [orderedTools]
    split_ifs at hsort ⊢
    · rfl
    · exact sortTools_eq_of_unmoved md5 hsort
  have hkept : ∀ tool ∈ tools, (sortInputSchema tool).1 = tool := by
    intro tool htool
    refine (sortInputSchema_eq_iff (hwell tool htool)).mpr ?_
    have hmem : tool ∈ (if anyToolHasCacheControl tools then (tools, false)
        else sortToolsDeterministically md5 tools).1 := by
      rw [← (orderedTools_perm md5 tools).mem_iff, orderedTools] at htool
      split_ifs at htool ⊢ <;> exact htool
    rw [normalizeTools, List.any_map, List.any_eq_false] at hschemas
    simpa using hschemas tool hmem
  rw [normalizeTools_fst, horder]
  exact (List.map_congr_left hkept).trans (List.map_id tools)

/-- A tool keeps its sort key when its schema is sorted: it has a name, or nothing moves. -/
def KeepsKey (tool : Value) : Prop :=
  (toolName tool).isSome = true ∨ (sortInputSchema tool).1 = tool
variable {tool : Value}

theorem KeepsKey.sortKey_eq (hkeeps : KeepsKey tool) :
    sortKey md5 (sortInputSchema tool).1 = sortKey md5 tool := by
  rcases hkeeps with hname | hkept
  · obtain ⟨name, hname⟩ := Option.isSome_iff_exists.mp hname
    rw [sortKey_of_toolName md5 hname,
      sortKey_of_toolName md5 ((toolName_sortInputSchema tool).trans hname)]
  · rw [hkept]

theorem settled_normalizeTools (hwell : ∀ tool ∈ tools, tool.WellFormed) :
    ∀ tool ∈ (normalizeTools md5 tools).1, (sortInputSchema tool).1 = tool := by
  rw [normalizeTools_fst]
  refine List.forall_mem_map.mpr fun tool htool => ?_
  exact sortInputSchema_idempotent (hwell tool ((orderedTools_perm md5 tools).mem_iff.mp htool))

theorem pairwise_normalizeTools (hkeeps : ∀ tool ∈ tools, KeepsKey tool)
    (hmarker : anyToolHasCacheControl tools = false) :
    (normalizeTools md5 tools).1.Pairwise (KeyLe md5) := by
  have hsorted : orderedTools md5 tools = tools.insertionSort (KeyLe md5) := by
    rw [orderedTools, hmarker]
    rfl
  rw [normalizeTools_fst, hsorted]
  refine pairwise_of_keys md5 ?_ (List.pairwise_insertionSort (KeyLe md5) tools)
  rw [List.map_map]
  exact List.map_congr_left fun tool htool =>
    (hkeeps tool ((List.mem_insertionSort (KeyLe md5)).mp htool)).sortKey_eq md5

/-- Two tools that differ in the order of schema keys at most, and not even in that if they
have no name. -/
def Interchangeable (left right : Value) : Prop :=
  SameTool left right ∧ ((toolName left).isSome = true ∨ left = right)

theorem Interchangeable.sortKey_eq {left right : Value} (hsame : Interchangeable left right) :
    sortKey md5 left = sortKey md5 right := by
  rcases hsame.2 with hname | rfl
  · obtain ⟨name, hname⟩ := Option.isSome_iff_exists.mp hname
    rw [sortKey_of_toolName md5 hname,
      sortKey_of_toolName md5 (hsame.1.toolName_eq.trans hname)]
  · rfl

variable {others : List Value}

/-- Tools in the same places with the same marker, whatever the order of schema keys. -/
theorem anyTool_congr (hsame : List.Forall₂ SameTool tools others) :
    anyToolHasCacheControl others = anyToolHasCacheControl tools := by
  induction hsame with
  | nil => rfl
  | cons hhead _ ih =>
      rw [anyToolHasCacheControl, anyToolHasCacheControl, List.any_cons, List.any_cons,
        hhead.get_eq (by decide)]
      exact congrArg (_ || ·) ih

theorem map_congr_of_forall₂ {α β : Type*} {related : α → α → Prop} {left right : List α}
    (new : α → β) (hrelated : List.Forall₂ related left right)
    (hnew : ∀ first ∈ left, ∀ second ∈ right, related first second → new first = new second) :
    left.map new = right.map new := by
  induction hrelated with
  | nil => rfl
  | cons hhead _ ih =>
      rw [List.map_cons, List.map_cons, hnew _ List.mem_cons_self _ List.mem_cons_self hhead,
        ih fun first hfirst second hsecond =>
          hnew first (List.mem_cons_of_mem _ hfirst) second (List.mem_cons_of_mem _ hsecond)]

/-- Where a tool bears a marker, the order of schema keys does not matter. -/
theorem normalizeTools_congr (htools : ∀ tool ∈ tools, tool.WellFormed)
    (hothers : ∀ tool ∈ others, tool.WellFormed) (hmarker : anyToolHasCacheControl tools = true)
    (hsame : List.Forall₂ SameTool tools others) :
    (normalizeTools md5 tools).1 = (normalizeTools md5 others).1 := by
  have hmarked : anyToolHasCacheControl others = true := (anyTool_congr hsame).trans hmarker
  rw [normalizeTools_fst, normalizeTools_fst, orderedTools, orderedTools, if_pos hmarker,
    if_pos hmarked]
  exact map_congr_of_forall₂ _ hsame fun left hleft right hright =>
    sortInputSchema_congr (htools left hleft) (hothers right hright)

/-- Without a marker, neither the order of the tools matters. -/
theorem normalizeTools_perm {matched : List Value} (htools : ∀ tool ∈ tools, tool.WellFormed)
    (hothers : ∀ tool ∈ others, tool.WellFormed) (hdistinct : (tools.map (sortKey md5)).Nodup)
    (hmarker : anyToolHasCacheControl tools = false) (hperm : tools.Perm matched)
    (hsame : List.Forall₂ Interchangeable matched others) :
    (normalizeTools md5 tools).1 = (normalizeTools md5 others).1 := by
  have hmarked : anyToolHasCacheControl others = false := by
    rw [anyTool_congr (hsame.imp fun _ _ hpair => hpair.1), ← hmarker]
    exact hperm.symm.any_eq
  have hmatched : ∀ tool ∈ matched, tool.WellFormed := fun tool htool =>
    htools tool (hperm.mem_iff.mpr htool)
  rw [normalizeTools_fst, normalizeTools_fst, orderedTools, orderedTools, hmarker, hmarked]
  refine map_sortTools_eq md5 _ hdistinct ((hperm.map _).trans (List.Perm.of_eq ?_))
  refine map_congr_of_forall₂ _ hsame fun left hleft right hright hpair => ?_
  exact Prod.ext (hpair.sortKey_eq md5)
    (sortInputSchema_congr (hmatched left hleft) (hothers right hright) hpair.1)

/-- A value that is read back from its text. -/
def Readable (limit : ℕ) (value : Value) : Prop := value.WellFormed ∧ value.tree.depth ≤ limit

variable {limit : ℕ}

theorem Readable.sortInputSchema (htool : Readable (limit + 1) tool) :
    Readable (limit + 1) (sortInputSchema tool).1 := by
  cases hschema : tool.get (constant "input_schema") with
  | none =>
      rw [sortInputSchema_of_none hschema]
      exact htool
  | some schema =>
      rw [sortInputSchema_of_get hschema]
      exact ⟨htool.1.put _ (wellFormed_sortSchemaKeys (htool.1.of_get hschema)),
        Value.depth_put_le _ htool.2 (depth_sortSchemaKeys_le (Value.depth_get_le htool.2 hschema))⟩

theorem wellFormed_ephemeral : ephemeral.WellFormed := by
  simp [ephemeral, Value.WellFormed, Value.WellFormedFields]

theorem Readable.marked {marked : Value} (htool : Readable (limit + 2) tool)
    (hmarked : insertCacheControlOnObject tool = some marked) : Readable (limit + 2) marked := by
  obtain ⟨rfl, -⟩ := insertCacheControl_eq hmarked
  refine ⟨htool.1.put _ wellFormed_ephemeral, Value.depth_put_le _ htool.2 ?_⟩
  exact (show ephemeral.tree.depth = 1 from rfl).trans_le (Nat.le_add_left 1 limit)

theorem readable_normalizeTools (htools : ∀ tool ∈ tools, Readable (limit + 1) tool) :
    ∀ tool ∈ (normalizeTools md5 tools).1, Readable (limit + 1) tool := by
  rw [normalizeTools_fst]
  refine List.forall_mem_map.mpr fun tool htool => ?_
  exact (htools tool ((orderedTools_perm md5 tools).mem_iff.mp htool)).sortInputSchema

theorem Readable.array {limit : ℕ} {elements : List Value}
    (helements : ∀ element ∈ elements, Readable limit element) :
    Readable (limit + 1) (.array elements) :=
  ⟨Value.wellFormedElements_iff.mpr fun element helement => (helements element helement).1,
    Value.depth_array_le.mpr fun element helement => (helements element helement).2⟩

variable {value : Value}

theorem Readable.elements {name : Utf8String} {elements : List Value}
    (hvalue : Readable (limit + 2) value) (helements : value.get name = some (.array elements)) :
    ∀ element ∈ elements, Readable limit element := fun element helement =>
  ⟨Value.wellFormedElements_iff.mp (hvalue.1.of_get helements) element helement,
    Value.depth_array_le.mp (Value.depth_get_le hvalue.2 helements) element helement⟩

theorem readable_valueFromSlice {bytes : Bytes} (hvalue : valueFromSlice bytes = some value) :
    Readable 127 value :=
  ⟨wellFormed_valueFromSlice hvalue, Nat.le_of_lt_succ (depth_valueFromSlice hvalue)⟩

theorem Readable.valueFromSlice_toJson (hvalue : Readable 127 value) :
    valueFromSlice value.toJson.bytes = some value :=
  Json.valueFromSlice_toJson hvalue.1 (Nat.lt_succ_of_le hvalue.2)

/-! ## The body -/

variable {parsed : Value}

theorem elementsAt_put {found : Value} {name : String} (elements : List Value)
    (hfound : parsed.get (constant name) = some found) :
    elementsAt (parsed.put (constant name) (.array elements)) name = elements := by
  rw [elementsAt, Value.get_put_self hfound _]
  rfl

theorem normalizeToolDefinitions_payg (htools : parsed.get (constant "tools") = some (.array
      tools)) :
    normalizeToolDefinitions md5 parsed .payg =
      (parsed.put (constant "tools") (.array (normalizeTools md5 tools).1),
        (normalizeTools md5 tools).2) := by
  rw [normalizeToolDefinitions, htools]
  cases tools with
  | nil => exact congrArg (·, NormalizationApplied.none) (Value.put_get htools).symm
  | cons tool tools => rfl

/-- No marker is placed: there is one, or no tool to mark. -/
def NothingPlaced (body : Value) : Prop :=
  autoPlaceAnthropicCacheControl body = (body, .skipped .markerPresent) ∨
    autoPlaceAnthropicCacheControl body = (body, .applied 0 [])

/-- The passes leave the normalized tools, or mark the last of them. -/
theorem phaseE_cases (htools : parsed.get (constant "tools") = some (.array tools)) :
    (phaseE md5 parsed .payg =
        ⟨parsed.put (constant "tools") (.array (normalizeTools md5 tools).1),
          (normalizeTools md5 tools).2, false, []⟩ ∧
      NothingPlaced (parsed.put (constant "tools") (.array (normalizeTools md5 tools).1))) ∨
    ∃ front last marked, (normalizeTools md5 tools).1 = front ++ [last] ∧
      insertCacheControlOnObject last = some marked ∧
      anyAnthropicCacheControl
        (parsed.put (constant "tools") (.array (normalizeTools md5 tools).1)) = false ∧
      phaseE md5 parsed .payg =
        ⟨parsed.put (constant "tools") (.array (front ++ [marked])),
          (normalizeTools md5 tools).2, true, ["tools[" ++ toString front.length ++ "]"]⟩ := by
  have hnormalized := normalizeToolDefinitions_payg md5 htools
  have helements := elementsAt_put (normalizeTools md5 tools).1 htools
  rcases autoPlace_cases
      (parsed.put (constant "tools") (.array (normalizeTools md5 tools).1)) with
    hplace | hplace | ⟨front, last, marked, hfront, hmarked, hunmarked, hplace⟩
  · refine .inl ⟨?_, .inl hplace⟩
    simp [phaseE, hnormalized, hplace]
  · refine .inl ⟨?_, .inr hplace⟩
    simp [phaseE, hnormalized, hplace]
  · refine .inr ⟨front, last, marked, helements.symm.trans hfront, hmarked, hunmarked, ?_⟩
    simp [phaseE, hnormalized, hplace, Value.put_put]

/-- The tools that are sent: the normalized ones, the last perhaps with a marker. -/
inductive SentTools (normalized : List Value) : List Value → Prop
  | plain : SentTools normalized normalized
  | marked {front : List Value} {last marked : Value} (hfront : normalized = front ++ [last])
      (hunmarked : anyToolHasCacheControl normalized = false)
      (hmarked : insertCacheControlOnObject last = some marked) :
      SentTools normalized (front ++ [marked])

theorem exists_sentTools (htools : parsed.get (constant "tools") = some (.array tools)) :
    ∃ sent, SentTools (normalizeTools md5 tools).1 sent ∧
      (phaseE md5 parsed .payg).parsed = parsed.put (constant "tools") (.array sent) := by
  rcases phaseE_cases md5 htools with
    ⟨hphase, -⟩ | ⟨front, last, marked, hfront, hmarked, hunmarked, hphase⟩
  · exact ⟨_, .plain, congrArg PhaseE.parsed hphase⟩
  · refine ⟨_, .marked hfront ?_ hmarked, congrArg PhaseE.parsed hphase⟩
    by_contra hany
    rw [anyAnthropicCacheControl_of_tools] at hunmarked
    · cases hunmarked
    · rw [elementsAt_put _ htools]
      exact Bool.not_eq_false _ ▸ hany

/-- Passes that find settled tools and place no marker change nothing. -/
theorem phaseE_of_settled (htools : parsed.get (constant "tools") = some (.array tools))
    (hsettled : normalizeTools md5 tools = (tools, .none)) (hplace : NothingPlaced parsed) :
    phaseE md5 parsed .payg = ⟨parsed, .none, false, []⟩ := by
  have hnormalized := normalizeToolDefinitions_payg md5 htools
  rw [hsettled, Value.put_get htools] at hnormalized
  rcases hplace with hplace | hplace <;> simp [phaseE, hnormalized, hplace]

/-- Without a list of tools there is nothing to do. -/
theorem phaseE_of_no_tools (htools : ∀ tools, parsed.get (constant "tools") ≠ some (.array tools)) :
    phaseE md5 parsed .payg = ⟨parsed, .none, false, []⟩ := by
  have hnone : (parsed.get (constant "tools")).bind Value.asArray = none := by
    by_contra hsome
    obtain ⟨tools, harray⟩ := Option.ne_none_iff_exists'.mp hsome
    obtain ⟨found, hfound, hvalue⟩ := Option.bind_eq_some_iff.mp harray
    exact htools tools (hfound.trans (congrArg some (Value.eq_array_of_asArray hvalue)))
  have hempty : elementsAt parsed "tools" = [] := by
    rw [elementsAt, hnone]
    rfl
  have hnormalized : normalizeToolDefinitions md5 parsed .payg = (parsed, .none) := by
    rw [normalizeToolDefinitions, hnone]
    rfl
  rcases autoPlace_cases parsed with hplace | hplace | ⟨front, last, _, hfront, -⟩
  · simp [phaseE, hnormalized, hplace]
  · simp [phaseE, hnormalized, hplace]
  · rw [hempty] at hfront
    exact absurd hfront.symm (List.append_ne_nil_of_right_ne_nil front (List.cons_ne_nil last []))

theorem SentTools.readable {normalized sent : List Value} (hsent : SentTools normalized sent)
    (hnormalized : ∀ tool ∈ normalized, Readable (limit + 2) tool) :
    ∀ tool ∈ sent, Readable (limit + 2) tool := by
  cases hsent with
  | plain => exact hnormalized
  | marked hfront _ hmarked =>
      rw [hfront, List.forall_mem_append, List.forall_mem_singleton] at hnormalized
      rw [List.forall_mem_append, List.forall_mem_singleton]
      exact ⟨hnormalized.1, hnormalized.2.marked hmarked⟩

theorem SentTools.anyTool {front : List Value} {last marked : Value}
    (hmarked : insertCacheControlOnObject last = some marked) :
    anyToolHasCacheControl (front ++ [marked]) = true := by
  rw [anyToolHasCacheControl, List.any_append, List.any_cons, (insertCacheControl_eq hmarked).2]
  simp

/-- The passes find nothing more to do on what they leave, if a tool bears a marker or the
sort keys have stayed. -/
theorem phaseE_idempotent (hparsed : Readable 127 parsed)
    (htools : parsed.get (constant "tools") = some (.array tools))
    (hkeeps : anyToolHasCacheControl (elementsAt (phaseE md5 parsed .payg).parsed "tools") = true ∨
      ∀ tool ∈ tools, KeepsKey tool) :
    phaseE md5 (phaseE md5 parsed .payg).parsed .payg =
      ⟨(phaseE md5 parsed .payg).parsed, .none, false, []⟩ := by
  have hreadable : ∀ tool ∈ tools, Readable 125 tool := hparsed.elements htools
  have hwell : ∀ tool ∈ (normalizeTools md5 tools).1, tool.WellFormed := fun tool htool =>
    (readable_normalizeTools md5 hreadable tool htool).1
  have hschemas := settled_normalizeTools md5 fun tool htool => (hreadable tool htool).1
  rcases phaseE_cases md5 htools with
    ⟨hphase, hplace⟩ | ⟨front, last, marked, hfront, hmarked, -, hphase⟩
  · rw [hphase] at hkeeps ⊢
    refine phaseE_of_settled md5 (Value.get_put_self htools _) ?_ hplace
    refine normalizeTools_of_settled md5 hwell ?_ hschemas
    rw [elementsAt_put _ htools, anyTool_normalizeTools] at hkeeps
    rw [anyTool_normalizeTools]
    cases hmarker : anyToolHasCacheControl tools with
    | true => exact .inl rfl
    | false =>
        rw [hmarker] at hkeeps
        exact .inr (pairwise_normalizeTools md5 (hkeeps.resolve_left Bool.false_ne_true) hmarker)
  · rw [hphase]
    have hmarker : anyToolHasCacheControl (front ++ [marked]) = true := SentTools.anyTool hmarked
    have hlast : Readable 125 last :=
      readable_normalizeTools md5 hreadable last (hfront ▸ List.mem_append_right front (by simp))
    refine phaseE_of_settled md5 (Value.get_put_self htools _) ?_ (.inl ?_)
    · rw [hfront, List.forall_mem_append, List.forall_mem_singleton] at hwell hschemas
      refine normalizeTools_of_settled md5 ?_ (.inl hmarker) ?_
      · rw [List.forall_mem_append, List.forall_mem_singleton]
        exact ⟨hwell.1, (hlast.marked hmarked).1⟩
      · rw [List.forall_mem_append, List.forall_mem_singleton]
        exact ⟨hschemas.1, sortInputSchema_marked hmarked hschemas.2⟩
    · refine autoPlace_of_tools ?_
      rw [elementsAt_put _ htools]
      exact hmarker

/-- A report of nothing is right. -/
theorem parsed_of_unchanged (hparsed : Readable 127 parsed)
    (hquiet : (phaseE md5 parsed .payg).changed = false) :
    (phaseE md5 parsed .payg).parsed = parsed := by
  by_cases htools : ∃ tools, parsed.get (constant "tools") = some (.array tools)
  · obtain ⟨tools, htools⟩ := htools
    have hreadable : ∀ tool ∈ tools, Readable 125 tool := hparsed.elements htools
    rcases phaseE_cases md5 htools with ⟨hphase, -⟩ | ⟨_, _, _, -, -, -, hphase⟩
    · rw [hphase, PhaseE.changed, Bool.or_false] at hquiet
      rw [hphase, normalizeTools_of_quiet md5 (fun tool htool => (hreadable tool htool).1) hquiet,
        Value.put_get htools]
    · rw [hphase, PhaseE.changed, Bool.or_true] at hquiet
      cases hquiet
  · rw [phaseE_of_no_tools md5 (not_exists.mp htools)]

theorem readable_phaseE (hparsed : Readable 127 parsed) :
    Readable 127 (phaseE md5 parsed .payg).parsed := by
  by_cases htools : ∃ tools, parsed.get (constant "tools") = some (.array tools)
  · obtain ⟨tools, htools⟩ := htools
    obtain ⟨sent, hsent, hphase⟩ := exists_sentTools md5 htools
    have hreadable := hsent.readable (readable_normalizeTools md5 (hparsed.elements htools))
    have harray : Readable 126 (.array sent) := Readable.array hreadable
    rw [hphase]
    exact ⟨hparsed.1.put _ harray.1, Value.depth_put_le _ hparsed.2 harray.2⟩
  · rw [phaseE_of_no_tools md5 (not_exists.mp htools)]
    exact hparsed

variable {body : Bytes}

/-- The bytes of the passes hold the value the passes leave. -/
theorem valueFromSlice_toolStage (hbody : valueFromSlice body = some parsed) :
    valueFromSlice (toolStage md5 .payg body) = some (phaseE md5 parsed .payg).parsed := by
  have hparsed := readable_valueFromSlice hbody
  rw [toolStage, hbody]
  simp only [PhaseE.dispatchBody]
  split_ifs with hchanged
  · exact (readable_phaseE md5 hparsed).valueFromSlice_toJson
  · rw [parsed_of_unchanged md5 hparsed (by simpa using hchanged), hbody]

/-! ## The stage -/

/-- What the passes promise about a body with these tools. -/
structure ToolsCanonical (body : Bytes) (parsed : Value) (tools : List Value) : Prop where
  /-- A second run changes no byte, if a tool bears a marker or the sort keys have stayed. -/
  idempotent :
    anyToolHasCacheControl (elementsAt (phaseE md5 parsed .payg).parsed "tools") = true ∨
      (∀ tool ∈ tools, KeepsKey tool) →
    toolStage md5 .payg (toolStage md5 .payg body) = toolStage md5 .payg body
  /-- Without a marker on a tool every order of tools and of schema keys comes out the same. -/
  permuted : anyToolHasCacheControl tools = false →
    ∀ (matched others : List Value) (permutedBody : Bytes), tools.Perm matched →
      List.Forall₂ Interchangeable matched others →
      valueFromSlice permutedBody = some (parsed.put (constant "tools") (.array others)) →
      valueFromSlice (toolStage md5 .payg permutedBody) = valueFromSlice (toolStage md5 .payg body)
  /-- With one the tools keep their order, and every order of schema keys comes out the same. -/
  reordered : anyToolHasCacheControl tools = true →
    ∀ (others : List Value) (reorderedBody : Bytes), List.Forall₂ SameTool tools others →
      valueFromSlice reorderedBody = some (parsed.put (constant "tools") (.array others)) →
      valueFromSlice (toolStage md5 .payg reorderedBody) = valueFromSlice (toolStage md5 .payg body)
  /-- Only the field with the tools is written, with the same tools. -/
  confined : ∃ ordered normalized sent,
    ordered.Perm tools ∧ (anyToolHasCacheControl tools = true → ordered = tools) ∧
    List.Forall₂ SameTool ordered normalized ∧ SentTools normalized sent ∧
    valueFromSlice (toolStage md5 .payg body) =
      some (parsed.put (constant "tools") (.array sent)) ∧
    ∀ name, name ≠ constant "tools" →
      (parsed.put (constant "tools") (.array sent)).get name = parsed.get name

variable {md5}

theorem phaseE_congr (htools : parsed.get (constant "tools") = some (.array tools))
    (hsame : (normalizeTools md5 tools).1 = (normalizeTools md5 others).1) :
    (phaseE md5 (parsed.put (constant "tools") (.array others)) .payg).parsed =
      (phaseE md5 parsed .payg).parsed := by
  have hothers := Value.get_put_self htools (.array others)
  have hnormalized : (normalizeToolDefinitions md5
        (parsed.put (constant "tools") (.array others)) .payg).1 =
      (normalizeToolDefinitions md5 parsed .payg).1 := by
    rw [normalizeToolDefinitions_payg md5 hothers, normalizeToolDefinitions_payg md5 htools,
      Value.put_put, hsame]
  have hparsed : ∀ value : Value, (phaseE md5 value .payg).parsed =
      (autoPlaceAnthropicCacheControl (normalizeToolDefinitions md5 value .payg).1).1 := by
    intro value
    rw [phaseE, if_pos rfl]
    rcases autoPlaceAnthropicCacheControl (normalizeToolDefinitions md5 value .payg).1 with
      ⟨placed, _ | _⟩
    · dsimp only
      split_ifs <;> rfl
    · rfl
  rw [hparsed, hparsed, hnormalized]

theorem toolsCanonical (hbody : valueFromSlice body = some parsed)
    (htools : parsed.get (constant "tools") = some (.array tools))
    (hdistinct : (tools.map (sortKey md5)).Nodup) : ToolsCanonical md5 body parsed tools := by
  have hparsed := readable_valueFromSlice hbody
  have hwell : ∀ tool ∈ tools, tool.WellFormed := fun tool htool =>
    ((hparsed.elements htools : ∀ tool ∈ tools, Readable 125 tool) tool htool).1
  have hothers : ∀ {others : List Value} {other : Bytes},
      valueFromSlice other = some (parsed.put (constant "tools") (.array others)) →
        ∀ tool ∈ others, tool.WellFormed := fun hother tool htool =>
    (((readable_valueFromSlice hother).elements (Value.get_put_self htools _) :
      ∀ tool ∈ _, Readable 125 tool) tool htool).1
  refine ⟨fun hkeeps => ?_, fun hmarker matched others other hperm hsame hother => ?_,
    fun hmarker others other hsame hother => ?_, ?_⟩
  · rw [toolStage, valueFromSlice_toolStage md5 hbody]
    simp only [phaseE_idempotent md5 hparsed htools hkeeps]
    rfl
  · rw [valueFromSlice_toolStage md5 hother, valueFromSlice_toolStage md5 hbody,
      phaseE_congr htools
        (normalizeTools_perm md5 hwell (hothers hother) hdistinct hmarker hperm hsame)]
  · rw [valueFromSlice_toolStage md5 hother, valueFromSlice_toolStage md5 hbody,
      phaseE_congr htools (normalizeTools_congr md5 hwell (hothers hother) hmarker hsame)]
  · obtain ⟨sent, hsent, hphase⟩ := exists_sentTools md5 htools
    refine ⟨orderedTools md5 tools, (normalizeTools md5 tools).1, sent,
      orderedTools_perm md5 tools, fun hmarker => if_pos hmarker, ?_, hsent, ?_, fun name hname =>
        Value.get_put_of_ne hname⟩
    · rw [normalizeTools_fst, List.forall₂_map_right_iff]
      refine List.forall₂_same.mpr fun tool htool => ?_
      exact sameTool_sortInputSchema (hwell tool ((orderedTools_perm md5 tools).mem_iff.mp htool))
    · rw [valueFromSlice_toolStage md5 hbody, hphase]

/-! ## Other classes -/

/-- The body is sent as it is, or as the text of an edit inside the live zone.  White space
around the document is not part of an edited body. -/
def LiveZoneOnly (parsed : Value) (floor : ℕ) (body forwarded : Bytes) : Prop :=
  forwarded = body ∨ ∃ (document : Document) (messages : List Value) (new : Edit),
    document.render = body ∧ parsed.get (constant "messages") = some (.array messages) ∧
    (∀ path, new path ≠ none → ∃ target,
      Latest (constant "user") messages floor target ∧ RewritableIn messages target path) ∧
    forwarded = (document.value.edit new).render

theorem liveZoneOnly_of_not_payg (backend : Backend) (hbody : valueFromSlice body = some parsed)
    (mode : CompressionMode) (policy : CacheControlAutoFrozen) {authMode : RequestAuthMode}
    (hauth : authMode ≠ .payg) :
    LiveZoneOnly parsed (resolveFrozenCount parsed policy) body
      ((compressAnthropicRequest md5 backend body mode policy authMode).forwarded body) := by
  have hphase : phaseE md5 parsed authMode = ⟨parsed, .none, false, []⟩ := by
    rw [phaseE, normalizeToolDefinitions, if_pos hauth, if_neg hauth]
  cases mode with
  | off => exact .inl rfl
  | liveZone =>
      have hdispatch : (⟨parsed, .none, false, []⟩ : PhaseE).dispatchBody body = body := rfl
      have hframe := compressAnthropicLiveZone_frame backend
        ((parsed.getStr "model").getD defaultModel) (none : Option (CcrStore Unit)) hbody
        (resolveFrozenCount parsed policy) authMode.into ()
      rw [compressAnthropicRequest, hbody]
      simp only [hphase, hdispatch]
      cases hresult : compressAnthropicLiveZone backend
          ((parsed.getStr "model").getD defaultModel) body (resolveFrozenCount parsed policy)
          authMode.into with
      | error error => cases error <;> exact .inl rfl
      | ok outcome =>
          cases outcome with
          | noChange manifest => exact .inl rfl
          | modified newBody manifest =>
              cases hmessages : (parsed.get (constant "messages")).bind Value.asArray with
              | none =>
                  rw [hmessages] at hframe
                  rw [compressAnthropicLiveZone, hframe] at hresult
                  cases hresult
              | some messages =>
                  rw [hmessages] at hframe
                  obtain ⟨document, hrender, -, hmodified, -⟩ := hframe
                  obtain ⟨new, hallowed, hnew, -⟩ := hmodified newBody manifest hresult
                  obtain ⟨found, hfound, harray⟩ := Option.bind_eq_some_iff.mp hmessages
                  refine .inr ⟨document, messages, new, hrender, ?_, hallowed, hnew⟩
                  rw [hfound, Value.eq_array_of_asArray harray]

/-- Pay-as-you-go bodies have their tools, and nothing else, put in a canonical order; the
bodies of the other classes change inside the live zone only. -/
theorem toolStage_canonical {body : Bytes} {parsed : Value}
    (hbody : valueFromSlice body = some parsed) :
    (∀ tools, parsed.get (constant "tools") = some (.array tools) →
      (tools.map (sortKey md5)).Nodup → ToolsCanonical md5 body parsed tools) ∧
    ((∀ tools, parsed.get (constant "tools") ≠ some (.array tools)) →
      toolStage md5 .payg body = body) ∧
    ∀ (backend : Backend) (mode : CompressionMode) (policy : CacheControlAutoFrozen)
      (authMode : RequestAuthMode), authMode ≠ .payg →
      LiveZoneOnly parsed (resolveFrozenCount parsed policy) body
        ((compressAnthropicRequest md5 backend body mode policy authMode).forwarded body) := by
  refine ⟨fun tools => toolsCanonical hbody, fun htools => ?_,
    fun backend mode policy authMode => liveZoneOnly_of_not_payg backend hbody mode policy⟩
  rw [toolStage, hbody]
  simp only [phaseE_of_no_tools md5 htools]
  rfl

end

/-! ## Runs on fixed bodies -/

def toolsBody (tools : String) : Bytes :=
  ascii "\x7b\"tools\":[" ++ (ascii tools ++ ascii "]\x7d")

def namedTool (name : String) : Value := .object [(constant "name", .string (constant name))]

theorem toolStage_namedTools :
    toolStage Md5.digest .payg
        (toolStage Md5.digest .payg
          (toolsBody "\x7b\"name\":\"b\"\x7d,\x7b\"name\":\"a\"\x7d")) =
      toolStage Md5.digest .payg
        (toolsBody "\x7b\"name\":\"b\"\x7d,\x7b\"name\":\"a\"\x7d") ∧
    valueFromSlice (toolStage Md5.digest .payg
        (toolsBody "\x7b\"name\":\"a\"\x7d,\x7b\"name\":\"b\"\x7d")) =
      valueFromSlice (toolStage Md5.digest .payg
        (toolsBody "\x7b\"name\":\"b\"\x7d,\x7b\"name\":\"a\"\x7d")) := by
  have hbody : valueFromSlice (toolsBody "\x7b\"name\":\"b\"\x7d,\x7b\"name\":\"a\"\x7d") =
      some (.object [(constant "tools", .array [namedTool "b", namedTool "a"])]) := by rfl
  have hother : valueFromSlice (toolsBody "\x7b\"name\":\"a\"\x7d,\x7b\"name\":\"b\"\x7d") =
      some (.object [(constant "tools", .array [namedTool "a", namedTool "b"])]) := by rfl
  obtain ⟨hidempotent, hpermuted, -, -⟩ := (@toolStage_canonical Md5.digest _ _ hbody).1
    [namedTool "b", namedTool "a"] rfl (by decide +kernel)
  refine ⟨hidempotent (.inr ?_), hpermuted (by decide) [namedTool "a", namedTool "b"]
    [namedTool "a", namedTool "b"] _ (List.Perm.swap _ _ _) ?_ hother⟩
  · rw [List.forall_mem_cons, List.forall_mem_singleton]
    exact ⟨.inl (by decide), .inl (by decide)⟩
  · exact .cons ⟨.refl _, .inl (by decide)⟩ (.cons ⟨.refl _, .inl (by decide)⟩ .nil)

def markedBody (tools : String) : Bytes :=
  ascii "\x7b\"system\":[\x7b\"cache_control\":1\x7d],\"tools\":[" ++
    (ascii tools ++ ascii "]\x7d")

set_option maxRecDepth 10000 in
/-- Tools with a marker keep their order.  A tool without a name is sorted by a digest of its
text, in which the keys of its schema are not yet sorted: another order of keys moves it, and a
second run moves it again.  White space in front of a body is dropped. -/
theorem markedTools_keepOrder :
    (toolStage Md5.digest .payg
        (toolsBody "\x7b\"name\":\"b\",\"cache_control\":1\x7d,\x7b\"name\":\"a\"\x7d") =
        toolsBody "\x7b\"name\":\"b\",\"cache_control\":1\x7d,\x7b\"name\":\"a\"\x7d" ∧
      toolStage Md5.digest .payg
        (toolsBody "\x7b\"name\":\"a\"\x7d,\x7b\"name\":\"b\",\"cache_control\":1\x7d") =
        toolsBody "\x7b\"name\":\"a\"\x7d,\x7b\"name\":\"b\",\"cache_control\":1\x7d") ∧
    (toolStage Md5.digest .payg
        (toolsBody "\x7b\"input_schema\":\x7b\"a\":1,\"e\":2\x7d\x7d,\x7b\x7d") =
        toolsBody ("\x7b\x7d,\x7b\"input_schema\":\x7b\"a\":1,\"e\":2\x7d" ++
          ",\"cache_control\":\x7b\"type\":\"ephemeral\"\x7d\x7d") ∧
      toolStage Md5.digest .payg
        (toolsBody "\x7b\"input_schema\":\x7b\"e\":2,\"a\":1\x7d\x7d,\x7b\x7d") =
        toolsBody ("\x7b\"input_schema\":\x7b\"a\":1,\"e\":2\x7d\x7d" ++
          ",\x7b\"cache_control\":\x7b\"type\":\"ephemeral\"\x7d\x7d")) ∧
    (toolStage Md5.digest .payg
        (markedBody "\x7b\"input_schema\":\x7b\"e\":2,\"a\":1\x7d\x7d,\x7b\x7d") =
        markedBody "\x7b\"input_schema\":\x7b\"a\":1,\"e\":2\x7d\x7d,\x7b\x7d" ∧
      toolStage Md5.digest .payg
        (markedBody "\x7b\"input_schema\":\x7b\"a\":1,\"e\":2\x7d\x7d,\x7b\x7d") =
        markedBody "\x7b\x7d,\x7b\"input_schema\":\x7b\"a\":1,\"e\":2\x7d\x7d") ∧
    (compressAnthropicRequest Md5.digest terseBackend
        (ascii " " ++ userBody (quote longWord).bytes) .liveZone .enabled .oauth).forwarded
        (ascii " " ++ userBody (quote longWord).bytes) = userBody (ascii "\"x\"") := by
  refine ⟨⟨?_, ?_⟩, ⟨?_, ?_⟩, ⟨?_, ?_⟩, ?_⟩ <;> decide +kernel

end Legroom.Compression
