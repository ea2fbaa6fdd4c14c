import Legroom.Ccr.InMemory
import Legroom.Lib.Float64
import Legroom.LiveZone.Manifest
import Mathlib.Logic.Relation

/-!
# The compression pipeline

Reformats rewrite a text without loss until it is small enough.  Offloads then put
the text they are given in a store, each under a key, and leave a shorter text that
carries the key.  A run is retold as the list of its accepted stages; savings, step
names and keys are all read off that list.
-/

namespace Legroom.Transforms.Pipeline

open Utf8 LiveZone

structure CompressionContext where
  query : Utf8String
  tokenBudget : Option ℕ

inductive TransformError where
  | invalidInput (transform message : Utf8String)
  | skipped (transform message : Utf8String)
  | internal (transform message : Utf8String)

structure ReformatOutput where
  output : Utf8String
  bytesSaved : ℕ

def ReformatOutput.fromLengths (inputLen : ℕ) (output : Utf8String) : ReformatOutput :=
  ⟨output, inputLen - output.bytes.length⟩

structure OffloadOutput where
  output : Utf8String
  bytesSaved : ℕ
  cacheKey : Utf8String

def OffloadOutput.fromLengths (inputLen : ℕ) (output cacheKey : Utf8String) : OffloadOutput :=
  ⟨output, inputLen - output.bytes.length, cacheKey⟩

structure ReformatTransform where
  name : Utf8String
  appliesTo : List ContentType
  apply : Utf8String → Except TransformError ReformatOutput

/-- The state is that of the store, and of whatever else a transform reads. -/
structure OffloadTransform (Score State : Type*) where
  name : Utf8String
  appliesTo : List ContentType
  estimateBloat : Utf8String → Score
  apply : Utf8String → CompressionContext → State →
    Except TransformError OffloadOutput × State

structure PipelineConfig (F Score : Type*) where
  reformatTargetRatio : F
  bloatThreshold : Score
  offloadFallbackRatio : F

structure PipelineResult where
  output : Utf8String
  bytesSaved : ℕ
  stepsApplied : List Utf8String
  cacheKeys : List Utf8String

structure ReformatAccumulator where
  output : Utf8String
  bytesSaved : ℕ
  steps : List Utf8String

/-- What the offload loop carries. -/
structure OffloadAccumulator (State : Type*) where
  current : Utf8String
  totalSaved : ℕ
  steps : List Utf8String
  cacheKeys : List Utf8String
  store : State

/-- Transforms in the order of their registration. -/
structure CompressionPipeline (F Score State : Type*) where
  reformats : List ReformatTransform
  offloads : List (OffloadTransform Score State)
  config : PipelineConfig F Score

/-- `applies_to` may name a type twice, and then the transform is registered twice. -/
def registered {Transform : Type*} (appliesTo : Transform → List ContentType)
    (transforms : List Transform) (contentType : ContentType) : List Transform :=
  transforms.flatMap fun transform =>
    ((appliesTo transform).filter (· = contentType)).map fun _ => transform

section

variable {F Score State : Type*} [Float64 F] [Float64 Score]

open Float64 in
/-- Whether the reformats have done enough. -/
def targetReached (config : PipelineConfig F Score) (originalLen : ℕ) (current : Utf8String) :
    Bool :=
  let ratio : F := div (ofNat current.bytes.length) (ofNat (max originalLen 1))
  le ratio config.reformatTargetRatio

/-- The savings never add up to more than the length of the text, so `saturating_add`
is a plain sum. -/
def runReformats (config : PipelineConfig F Score) (originalLen : ℕ) :
    List ReformatTransform → ReformatAccumulator → ReformatAccumulator
  | [], acc => acc
  | transform :: reformats, acc =>
      if targetReached config originalLen acc.output then acc
      else
        match transform.apply acc.output with
        | .ok out =>
            if out.bytesSaved = 0 then runReformats config originalLen reformats acc
            else runReformats config originalLen reformats
              ⟨out.output, acc.bytesSaved + out.bytesSaved, acc.steps ++ [transform.name]⟩
        | .error _ => runReformats config originalLen reformats acc

open Float64 in
/-- Whether an offload with this score is run at all. -/
def offloadWanted (config : PipelineConfig F Score) (reformatRatio : F) (score : Score) : Bool :=
  le config.bloatThreshold score ||
    lt config.offloadFallbackRatio reformatRatio && lt (ofNat 0) score

/-- Scores are those of the original text. -/
def runOffloads (config : PipelineConfig F Score) (reformatRatio : F) (original : Utf8String)
    (ctx : CompressionContext) :
    List (OffloadTransform Score State) → OffloadAccumulator State → OffloadAccumulator State
  | [], acc => acc
  | offload :: offloads, acc =>
      if offloadWanted config reformatRatio (offload.estimateBloat original) then
        match offload.apply acc.current ctx acc.store with
        | (.ok out, store) =>
            if out.bytesSaved = 0 then
              runOffloads config reformatRatio original ctx offloads { acc with store := store }
            else runOffloads config reformatRatio original ctx offloads
              ⟨out.output, acc.totalSaved + out.bytesSaved, acc.steps ++ [offload.name],
                acc.cacheKeys ++ [out.cacheKey], store⟩
        | (.error _, store) =>
            runOffloads config reformatRatio original ctx offloads { acc with store := store }
      else runOffloads config reformatRatio original ctx offloads acc

namespace CompressionPipeline

variable (pipeline : CompressionPipeline F Score State)

def reformatted (content : Utf8String) (contentType : ContentType) : ReformatAccumulator :=
  runReformats pipeline.config content.bytes.length
    (registered ReformatTransform.appliesTo pipeline.reformats contentType) ⟨content, 0, []⟩

open Float64 in
def run (content : Utf8String) (contentType : ContentType) (ctx : CompressionContext)
    (store : State) : PipelineResult × State :=
  if content.bytes.length = 0 then (⟨Utf8String.empty, 0, [], []⟩, store)
  else
    let reformatAcc := pipeline.reformatted content contentType
    let reformatRatio : F :=
      div (ofNat reformatAcc.output.bytes.length) (ofNat content.bytes.length)
    let acc := runOffloads pipeline.config reformatRatio content ctx
      (registered OffloadTransform.appliesTo pipeline.offloads contentType)
      ⟨reformatAcc.output, reformatAcc.bytesSaved, reformatAcc.steps, [], store⟩
    (⟨acc.current, acc.totalSaved, acc.steps, acc.cacheKeys⟩, acc.store)

end CompressionPipeline

end

/-! ## The trait contract -/

/-- The output is never charged to the wrong length. -/
def ReformatTransform.Obeys (transform : ReformatTransform) : Prop :=
  ∀ content out, transform.apply content = .ok out →
    out = .fromLengths content.bytes.length out.output

/-- What is taken out of a text is in the store when the offload returns, under a key
that the new text shows. -/
structure OffloadTransform.Obeys {Score State : Type*} (ccrStore : CcrStore State)
    (offload : OffloadTransform Score State) : Prop where
  fromLengths : ∀ content ctx store out after,
    offload.apply content ctx store = (.ok out, after) →
      out = .fromLengths content.bytes.length out.output out.cacheKey
  resolves : ∀ content ctx store out after,
    offload.apply content ctx store = (.ok out, after) →
      ccrStore.get after out.cacheKey = some content
  shown : ∀ content ctx store out after,
    offload.apply content ctx store = (.ok out, after) →
      out.cacheKey.bytes <:+: out.output.bytes

/-! ## Runs -/

structure ReformatStage where
  name : Utf8String
  given : Utf8String
  output : Utf8String

structure OffloadStage (State : Type*) where
  name : Utf8String
  given : Utf8String
  output : Utf8String
  key : Utf8String
  /-- The store as the offload leaves it. -/
  after : State

/-- The accepted stages of a run over the reformats, from one text to another. -/
inductive ReformatRun (reached : Utf8String → Bool) : List ReformatTransform → Utf8String →
    List ReformatStage → Utf8String → Prop
  | finished (current : Utf8String) : ReformatRun reached [] current [] current
  | reached {transform reformats current} : reached current = true →
      ReformatRun reached (transform :: reformats) current [] current
  | failed {transform reformats current stages output error} : reached current = false →
      transform.apply current = .error error →
      ReformatRun reached reformats current stages output →
      ReformatRun reached (transform :: reformats) current stages output
  | savedNothing {transform reformats current stages output out} : reached current = false →
      transform.apply current = .ok out → out.bytesSaved = 0 →
      ReformatRun reached reformats current stages output →
      ReformatRun reached (transform :: reformats) current stages output
  | accepted {transform reformats current stages output out} : reached current = false →
      transform.apply current = .ok out → out.bytesSaved ≠ 0 →
      ReformatRun reached reformats out.output stages output →
      ReformatRun reached (transform :: reformats) current
        (⟨transform.name, current, out.output⟩ :: stages) output

/-- The accepted stages of a run over the offloads, from one text and store to another. -/
inductive OffloadRun {Score State : Type*} (wanted : Score → Bool) (original : Utf8String)
    (ctx : CompressionContext) :
    List (OffloadTransform Score State) → Utf8String → State → List (OffloadStage State) →
      Utf8String → State → Prop
  | finished (current : Utf8String) (store : State) :
      OffloadRun wanted original ctx [] current store [] current store
  | gated {offload offloads current store stages output last} :
      wanted (offload.estimateBloat original) = false →
      OffloadRun wanted original ctx offloads current store stages output last →
      OffloadRun wanted original ctx (offload :: offloads) current store stages output last
  | failed {offload offloads current store stages output last error after} :
      wanted (offload.estimateBloat original) = true →
      offload.apply current ctx store = (.error error, after) →
      OffloadRun wanted original ctx offloads current after stages output last →
      OffloadRun wanted original ctx (offload :: offloads) current store stages output last
  | savedNothing {offload offloads current store stages output last out after} :
      wanted (offload.estimateBloat original) = true →
      offload.apply current ctx store = (.ok out, after) → out.bytesSaved = 0 →
      OffloadRun wanted original ctx offloads current after stages output last →
      OffloadRun wanted original ctx (offload :: offloads) current store stages output last
  | accepted {offload offloads current store stages output last out after} :
      wanted (offload.estimateBloat original) = true →
      offload.apply current ctx store = (.ok out, after) → out.bytesSaved ≠ 0 →
      OffloadRun wanted original ctx offloads out.output after stages output last →
      OffloadRun wanted original ctx (offload :: offloads) current store
        (⟨offload.name, current, out.output, out.cacheKey, after⟩ :: stages) output last

section

variable {F Score State : Type*} [Float64 F] [Float64 Score]
variable (config : PipelineConfig F Score)

omit [Float64 Score] in
/-- The loop over the reformats is a run, and reports the names of its stages. -/
theorem exists_reformatRun (originalLen : ℕ) (reformats : List ReformatTransform)
    (acc : ReformatAccumulator) :
    ∃ stages, ReformatRun (targetReached config originalLen) reformats acc.output stages
        (runReformats config originalLen reformats acc).output ∧
      (runReformats config originalLen reformats acc).steps =
        acc.steps ++ stages.map ReformatStage.name := by
  induction reformats generalizing acc with
  | nil => exact ⟨[], .finished acc.output, (List.append_nil acc.steps).symm⟩
  | cons transform reformats ih =>
      rw [runReformats]
      split_ifs with hreached
      · exact ⟨[], .reached hreached, (List.append_nil acc.steps).symm⟩
      · cases happly : transform.apply acc.output with
        | error error =>
            obtain ⟨stages, hrun, hsteps⟩ := ih acc
            exact ⟨stages, .failed (Bool.eq_false_of_not_eq_true hreached) happly hrun, hsteps⟩
        | ok out =>
            dsimp only
            split_ifs with hsaved
            · obtain ⟨stages, hrun, hsteps⟩ := ih acc
              exact ⟨stages, .savedNothing (Bool.eq_false_of_not_eq_true hreached) happly hsaved hrun,
                hsteps⟩
            · obtain ⟨stages, hrun, hsteps⟩ := ih
                ⟨out.output, acc.bytesSaved + out.bytesSaved, acc.steps ++ [transform.name]⟩
              refine ⟨_, .accepted (Bool.eq_false_of_not_eq_true hreached) happly hsaved hrun, ?_⟩
              rw [hsteps]
              exact List.append_assoc acc.steps [transform.name] _

omit [Float64 Score] in
/-- Every accepted reformat makes the text shorter by what it reports. -/
theorem runReformats_saved (originalLen : ℕ) {reformats : List ReformatTransform}
    (hobeys : ∀ transform ∈ reformats, transform.Obeys) (acc : ReformatAccumulator) :
    (runReformats config originalLen reformats acc).bytesSaved +
        (runReformats config originalLen reformats acc).output.bytes.length =
      acc.bytesSaved + acc.output.bytes.length := by
  induction reformats generalizing acc with
  | nil => rfl
  | cons transform reformats ih =>
      have hrest := ih fun other hother => hobeys other (List.mem_cons_of_mem transform hother)
      rw [runReformats]
      split_ifs with hreached
      · rfl
      · cases happly : transform.apply acc.output with
        | error error => exact hrest acc
        | ok out =>
            dsimp only
            split_ifs with hsaved
            · exact hrest acc
            · rw [hrest]
              have hout := congrArg ReformatOutput.bytesSaved
                (hobeys transform List.mem_cons_self acc.output out happly)
              rw [ReformatOutput.fromLengths] at hout
              dsimp only at hout ⊢
              omega

/-- The loop over the offloads is a run, and reports the names and the keys of its
stages. -/
theorem exists_offloadRun (ratio : F) (original : Utf8String) (ctx : CompressionContext)
    (offloads : List (OffloadTransform Score State)) (acc : OffloadAccumulator State) :
    ∃ stages, OffloadRun (offloadWanted config ratio) original ctx offloads acc.current
        acc.store stages
        (runOffloads config ratio original ctx offloads acc).current
        (runOffloads config ratio original ctx offloads acc).store ∧
      (runOffloads config ratio original ctx offloads acc).steps =
        acc.steps ++ stages.map OffloadStage.name ∧
      (runOffloads config ratio original ctx offloads acc).cacheKeys =
        acc.cacheKeys ++ stages.map OffloadStage.key := by
  induction offloads generalizing acc with
  | nil =>
      exact ⟨[], .finished acc.current acc.store, (List.append_nil acc.steps).symm,
        (List.append_nil acc.cacheKeys).symm⟩
  | cons offload offloads ih =>
      rw [runOffloads]
      split_ifs with hwanted
      · rcases happly : offload.apply acc.current ctx acc.store with ⟨error | out, after⟩
        · obtain ⟨stages, hrun, hsteps, hkeys⟩ := ih { acc with store := after }
          exact ⟨stages, .failed hwanted happly hrun, hsteps, hkeys⟩
        · dsimp only
          split_ifs with hsaved
          · obtain ⟨stages, hrun, hsteps, hkeys⟩ := ih { acc with store := after }
            exact ⟨stages, .savedNothing hwanted happly hsaved hrun, hsteps, hkeys⟩
          · obtain ⟨stages, hrun, hsteps, hkeys⟩ := ih
              ⟨out.output, acc.totalSaved + out.bytesSaved, acc.steps ++ [offload.name],
                acc.cacheKeys ++ [out.cacheKey], after⟩
            refine ⟨_, .accepted hwanted happly hsaved hrun, ?_, ?_⟩
            · rw [hsteps]
              exact List.append_assoc acc.steps [offload.name] _
            · rw [hkeys]
              exact List.append_assoc acc.cacheKeys [out.cacheKey] _
      · obtain ⟨stages, hrun, hsteps, hkeys⟩ := ih acc
        exact ⟨stages, .gated (Bool.eq_false_of_not_eq_true hwanted) hrun, hsteps, hkeys⟩

/-- Every accepted offload makes the text shorter by what it reports. -/
theorem runOffloads_saved {ccrStore : CcrStore State} (ratio : F) (original : Utf8String)
    (ctx : CompressionContext) {offloads : List (OffloadTransform Score State)}
    (hobeys : ∀ offload ∈ offloads, offload.Obeys ccrStore) (acc : OffloadAccumulator State) :
    (runOffloads config ratio original ctx offloads acc).totalSaved +
        (runOffloads config ratio original ctx offloads acc).current.bytes.length =
      acc.totalSaved + acc.current.bytes.length := by
  induction offloads generalizing acc with
  | nil => rfl
  | cons offload offloads ih =>
      have hrest := ih fun other hother => hobeys other (List.mem_cons_of_mem offload hother)
      rw [runOffloads]
      split_ifs with hwanted
      · rcases happly : offload.apply acc.current ctx acc.store with ⟨error | out, after⟩
        · exact hrest { acc with store := after }
        · dsimp only
          split_ifs with hsaved
          · exact hrest { acc with store := after }
          · rw [hrest]
            have hout := congrArg OffloadOutput.bytesSaved
              ((hobeys offload List.mem_cons_self).fromLengths acc.current ctx acc.store out
                after happly)
            rw [OffloadOutput.fromLengths] at hout
            dsimp only at hout ⊢
            omega
      · exact hrest acc

end

/-!
## Getting a buffer back from the pipeline's store

The last offload leaves a text with its key in it, the payload under that key is the text
it was given, and that text shows the key of the offload before.  Followed to the end,
the keys lead back to the text that the reformats made, as long as the store keeps what
the offloads put there.
-/

open Ccr Relation

section

variable {State : Type*} (ccrStore : CcrStore State)

/-- A text shows a key, and the payload is what the store has under it. -/
def Retrieves (store : State) (text payload : Utf8String) : Prop :=
  ∃ key : Utf8String, key.bytes <:+: text.bytes ∧ ccrStore.get store key = some payload

def Recovers (store : State) : Utf8String → Utf8String → Prop :=
  ReflTransGen (Retrieves ccrStore store)

/-- Every accepted key is still resolved as when its offload returned: nothing under
these keys has been evicted or written over since. -/
def KeysKept (stages : List (OffloadStage State)) (last : State) : Prop :=
  ∀ stage ∈ stages, ccrStore.get last stage.key = ccrStore.get stage.after stage.key

end

section

variable {Score State : Type*} {ccrStore : CcrStore State}

/-- From the output of the offloads back to the text that they were given. -/
theorem OffloadRun.recovers {wanted : Score → Bool} {original current output : Utf8String}
    {ctx : CompressionContext} {offloads : List (OffloadTransform Score State)}
    {store last : State} {stages : List (OffloadStage State)}
    (hrun : OffloadRun wanted original ctx offloads current store stages output last)
    (hobeys : ∀ offload ∈ offloads, offload.Obeys ccrStore) {final : State}
    (hkept : KeysKept ccrStore stages final) : Recovers ccrStore final output current := by
  induction hrun with
  | finished current store => exact ReflTransGen.refl
  | gated hgated hrun ih =>
      exact ih (fun other hother => hobeys other (List.mem_cons_of_mem _ hother)) hkept
  | failed hwanted happly hrun ih =>
      exact ih (fun other hother => hobeys other (List.mem_cons_of_mem _ hother)) hkept
  | savedNothing hwanted happly hsaved hrun ih =>
      exact ih (fun other hother => hobeys other (List.mem_cons_of_mem _ hother)) hkept
  | @accepted offload offloads current store stages output last out after hwanted happly
      hsaved hrun ih =>
      have hrest : Recovers ccrStore final output out.output :=
        ih (fun other hother => hobeys other (List.mem_cons_of_mem _ hother))
          (fun stage hstage => hkept stage (List.mem_cons_of_mem _ hstage))
      have hoffload := hobeys offload List.mem_cons_self
      have hresolved : ccrStore.get final out.cacheKey = some current :=
        (hkept _ List.mem_cons_self).trans
          (hoffload.resolves current ctx store out after happly)
      exact hrest.tail ⟨out.cacheKey, hoffload.shown current ctx store out after happly,
        hresolved⟩

end

section

variable {F Score State : Type*} [Float64 F] [Float64 Score]

open Float64 in
/-- A whole run: the accepted stages of both phases, the text between the phases, and
the text and store at the end. -/
inductive PipelineRun (pipeline : CompressionPipeline F Score State) (content : Utf8String)
    (contentType : ContentType) (ctx : CompressionContext) (store : State) :
    List ReformatStage → List (OffloadStage State) → Utf8String → Utf8String → State → Prop
  | unrun : content.bytes.length = 0 →
      PipelineRun pipeline content contentType ctx store [] [] content content store
  | phases {reformatStages offloadStages buffer output last} : content.bytes.length ≠ 0 →
      ReformatRun (targetReached pipeline.config content.bytes.length)
        (registered ReformatTransform.appliesTo pipeline.reformats contentType)
        content reformatStages buffer →
      OffloadRun
        (offloadWanted pipeline.config
          (div (ofNat buffer.bytes.length) (ofNat content.bytes.length)))
        content ctx (registered OffloadTransform.appliesTo pipeline.offloads contentType)
        buffer store offloadStages output last →
      PipelineRun pipeline content contentType ctx store reformatStages offloadStages buffer
        output last

theorem mem_of_mem_registered {Transform : Type*} {appliesTo : Transform → List ContentType}
    {transforms : List Transform} {contentType : ContentType} {transform : Transform}
    (hmem : transform ∈ registered appliesTo transforms contentType) :
    transform ∈ transforms := by
  obtain ⟨other, hother, hmap⟩ := List.mem_flatMap.mp hmem
  obtain ⟨named, hnamed, heq⟩ := List.mem_map.mp hmap
  exact heq ▸ hother

/-- A run of the pipeline saves exactly the difference of the lengths and lists its
accepted stages.  As long as the store keeps what was put under their keys, following
keys from the output leads back to the text between the phases. -/
theorem run_accounts {ccrStore : CcrStore State} (pipeline : CompressionPipeline F Score State)
    (hreformats : ∀ transform ∈ pipeline.reformats, transform.Obeys)
    (hoffloads : ∀ offload ∈ pipeline.offloads, offload.Obeys ccrStore)
    (content : Utf8String) (contentType : ContentType) (ctx : CompressionContext)
    (store : State) :
    ∃ reformatStages offloadStages buffer,
      PipelineRun pipeline content contentType ctx store reformatStages offloadStages buffer
        (pipeline.run content contentType ctx store).1.output
        (pipeline.run content contentType ctx store).2 ∧
      (pipeline.run content contentType ctx store).1.bytesSaved +
        (pipeline.run content contentType ctx store).1.output.bytes.length =
          content.bytes.length ∧
      (pipeline.run content contentType ctx store).1.stepsApplied =
        reformatStages.map ReformatStage.name ++ offloadStages.map OffloadStage.name ∧
      (pipeline.run content contentType ctx store).1.cacheKeys =
        offloadStages.map OffloadStage.key ∧
      (KeysKept ccrStore offloadStages (pipeline.run content contentType ctx store).2 →
        Recovers ccrStore (pipeline.run content contentType ctx store).2
          (pipeline.run content contentType ctx store).1.output buffer) := by
  rw [CompressionPipeline.run]
  split_ifs with hempty
  · have hcontent : content = Utf8String.empty :=
      Utf8String.ext' (List.length_eq_zero_iff.mp hempty)
    refine ⟨[], [], content, ?_, ?_, rfl, rfl, fun hkept => ?_⟩
    · rw [hcontent]
      exact .unrun rfl
    · rw [hempty]
      rfl
    · rw [hcontent]
      exact ReflTransGen.refl
  · dsimp only
    obtain ⟨reformatStages, hreformatRun, hreformatSteps⟩ :=
      exists_reformatRun pipeline.config content.bytes.length
        (registered ReformatTransform.appliesTo pipeline.reformats contentType) ⟨content, 0, []⟩
    have hregisteredReformats : ∀ transform ∈
        registered ReformatTransform.appliesTo pipeline.reformats contentType, transform.Obeys :=
      fun transform hmem => hreformats transform (mem_of_mem_registered hmem)
    have hreformatSaved := runReformats_saved pipeline.config content.bytes.length
      hregisteredReformats ⟨content, 0, []⟩
    rw [← CompressionPipeline.reformatted] at hreformatRun hreformatSteps hreformatSaved
    have hregistered : ∀ offload ∈
        registered OffloadTransform.appliesTo pipeline.offloads contentType,
        offload.Obeys ccrStore :=
      fun offload hmem => hoffloads offload (mem_of_mem_registered hmem)
    obtain ⟨offloadStages, hoffloadRun, hoffloadSteps, hoffloadKeys⟩ :=
      exists_offloadRun pipeline.config
        (Float64.div (Float64.ofNat (pipeline.reformatted content contentType).output.bytes.length)
          (Float64.ofNat content.bytes.length)) content ctx
        (registered OffloadTransform.appliesTo pipeline.offloads contentType)
        ⟨(pipeline.reformatted content contentType).output,
          (pipeline.reformatted content contentType).bytesSaved,
          (pipeline.reformatted content contentType).steps, [], store⟩
    refine ⟨reformatStages, offloadStages, (pipeline.reformatted content contentType).output,
      .phases hempty hreformatRun hoffloadRun, ?_, ?_, hoffloadKeys,
      fun hkept => hoffloadRun.recovers hregistered hkept⟩
    · calc
        _ = (pipeline.reformatted content contentType).bytesSaved +
            (pipeline.reformatted content contentType).output.bytes.length :=
          runOffloads_saved pipeline.config _ content ctx hregistered _
        _ = content.bytes.length := by rw [hreformatSaved, Nat.zero_add]
    · rw [hoffloadSteps, hreformatSteps, List.nil_append]

end

/-! ## Stacked offloads in the in-memory store -/

/-- The in-memory store with its clock stopped. -/
def stopped : CcrStore InMemoryCcrStore where
  put store hash payload := store.put hash payload 0
  get store hash := (store.get hash 0 0).1

theorem stopped_get_put (store : InMemoryCcrStore) (hash payload : Utf8String) :
    stopped.get (stopped.put store hash payload) hash = some payload := by
  have hlookup : (store.put hash payload 0).map.lookup hash = some ⟨payload, 0⟩ := by
    rw [InMemoryCcrStore.put]
    cases store.map.lookup hash with
    | some entry => exact Finmap.lookup_insert _
    | none => exact Finmap.lookup_insert _
  change ((store.put hash payload 0).get hash 0 0).1 = some payload
  rw [InMemoryCcrStore.get, hlookup]
  simp

/-- Stashes a whole text, and leaves the key alone. -/
def stash (key : Utf8String) : OffloadTransform ℚ InMemoryCcrStore where
  name := constant "stash"
  appliesTo := [.plainText]
  estimateBloat _ := 1
  apply content _ store :=
    if key.bytes.length < content.bytes.length then
      (.ok (.fromLengths content.bytes.length key key), stopped.put store key content)
    else (.error (.skipped (constant "stash") (constant "too short")), store)

theorem stash_applies {key content : Utf8String} {ctx : CompressionContext}
    {store : InMemoryCcrStore} (hshort : key.bytes.length < content.bytes.length) :
    (stash key).apply content ctx store =
      (.ok (.fromLengths content.bytes.length key key), stopped.put store key content) :=
  if_pos hshort

theorem stash_apply {key content : Utf8String} {ctx : CompressionContext}
    {store after : InMemoryCcrStore} {out : OffloadOutput}
    (happly : (stash key).apply content ctx store = (.ok out, after)) :
    out = .fromLengths content.bytes.length key key ∧ after = stopped.put store key content := by
  rw [stash] at happly
  dsimp only at happly
  split_ifs at happly with hshort
  · obtain ⟨hout, hafter⟩ := Prod.mk.inj happly
    exact ⟨(Except.ok.inj hout).symm, hafter.symm⟩
  · exact absurd (Prod.mk.inj happly).1 (by simp)

theorem stash_obeys (key : Utf8String) : (stash key).Obeys stopped where
  fromLengths content ctx store out after happly := by
    rw [(stash_apply happly).1]
    rfl
  resolves content ctx store out after happly := by
    obtain ⟨hout, hafter⟩ := stash_apply happly
    rw [hout, hafter]
    exact stopped_get_put store key content
  shown content ctx store out after happly := by
    rw [(stash_apply happly).1]
    exact List.infix_rfl

/-- Two offloads, one after the other. -/
def stacked : CompressionPipeline ℚ ℚ InMemoryCcrStore where
  reformats := []
  offloads := [stash (constant "first key"), stash (constant "second")]
  config := ⟨1 / 2, 1, 1⟩

theorem stacked_obeys : ∀ offload ∈ stacked.offloads, offload.Obeys stopped := by
  intro offload hmem
  rcases List.mem_pair.mp hmem with rfl | rfl
  · exact stash_obeys _
  · exact stash_obeys _

def logLine : Utf8String := constant "one line of a log"

def unbudgeted : CompressionContext := ⟨constant "", none⟩

def emptyStore (capacity : ℕ) : InMemoryCcrStore := .withCapacityAndTtl capacity 300

def afterFirst (capacity : ℕ) : InMemoryCcrStore :=
  stopped.put (emptyStore capacity) (constant "first key") logLine

def afterSecond (capacity : ℕ) : InMemoryCcrStore :=
  stopped.put (afterFirst capacity) (constant "second") (constant "first key")

def stackedStages (capacity : ℕ) : List (OffloadStage InMemoryCcrStore) :=
  [⟨constant "stash", logLine, constant "first key", constant "first key", afterFirst capacity⟩,
    ⟨constant "stash", constant "first key", constant "second", constant "second",
      afterSecond capacity⟩]

theorem stacked_run (capacity : ℕ) :
    stacked.run logLine .plainText unbudgeted (emptyStore capacity) =
      (⟨constant "second", 11, [constant "stash", constant "stash"],
        [constant "first key", constant "second"]⟩, afterSecond capacity) := rfl

theorem stacked_pipelineRun (capacity : ℕ) :
    PipelineRun stacked logLine .plainText unbudgeted (emptyStore capacity) []
      (stackedStages capacity) logLine (constant "second") (afterSecond capacity) := by
  have hfirst := @stash_applies (constant "first key") logLine unbudgeted (emptyStore capacity)
    (by decide)
  have hsecond := @stash_applies (constant "second") (constant "first key") unbudgeted
    (afterFirst capacity) (by decide)
  exact .phases (by decide) (.finished logLine)
    (.accepted rfl hfirst (by decide) (.accepted rfl hsecond (by decide) (.finished _ _)))

/-- With room for one payload, the second offload evicts what the first one stored. -/
theorem retrieves_afterSecond {text payload : Utf8String}
    (hretrieves : Retrieves stopped (afterSecond 1) text payload) :
    payload = Utf8.constant "first key" := by
  obtain ⟨key, -, hget⟩ := hretrieves
  have hmap : (afterSecond 1).map =
      Finmap.insert (Utf8.constant "second") ⟨Utf8.constant "first key", 0⟩ ∅ := by decide
  change ((afterSecond 1).get key 0 0).1 = some payload at hget
  rw [InMemoryCcrStore.get, hmap] at hget
  by_cases hkey : key = Utf8.constant "second"
  · rw [hkey, Finmap.lookup_insert] at hget
    exact (Option.some.inj hget).symm
  · rw [Finmap.lookup_insert_of_ne _ hkey, Finmap.lookup_empty] at hget
    exact absurd hget (Option.some_ne_none payload).symm

/-- Both offloads keep to their contract, and the text is gone all the same. -/
theorem evicted_not_recovers :
    (∀ offload ∈ stacked.offloads, offload.Obeys stopped) ∧
      PipelineRun stacked logLine .plainText unbudgeted (emptyStore 1) [] (stackedStages 1) logLine
        (stacked.run logLine .plainText unbudgeted (emptyStore 1)).1.output
        (stacked.run logLine .plainText unbudgeted (emptyStore 1)).2 ∧
      ¬ Recovers stopped (stacked.run logLine .plainText unbudgeted (emptyStore 1)).2
        (stacked.run logLine .plainText unbudgeted (emptyStore 1)).1.output logLine := by
  rw [stacked_run]
  refine ⟨stacked_obeys, stacked_pipelineRun 1, fun hrecovers => ?_⟩
  rcases ReflTransGen.cases_tail hrecovers with heq | ⟨text, -, hretrieves⟩
  · exact absurd heq (by decide)
  · exact absurd (retrieves_afterSecond hretrieves) (by decide)

/-- With room for two payloads, both keys still resolve and lead back. -/
theorem run_accounts_stacked :
    (∃ reformatStages offloadStages buffer,
      PipelineRun stacked logLine .plainText unbudgeted (emptyStore 2) reformatStages
        offloadStages buffer
        (stacked.run logLine .plainText unbudgeted (emptyStore 2)).1.output
        (stacked.run logLine .plainText unbudgeted (emptyStore 2)).2 ∧
      (stacked.run logLine .plainText unbudgeted (emptyStore 2)).1.bytesSaved +
        (stacked.run logLine .plainText unbudgeted (emptyStore 2)).1.output.bytes.length =
          logLine.bytes.length ∧
      (stacked.run logLine .plainText unbudgeted (emptyStore 2)).1.stepsApplied =
        reformatStages.map ReformatStage.name ++ offloadStages.map OffloadStage.name ∧
      (stacked.run logLine .plainText unbudgeted (emptyStore 2)).1.cacheKeys =
        offloadStages.map OffloadStage.key ∧
      (KeysKept stopped offloadStages
          (stacked.run logLine .plainText unbudgeted (emptyStore 2)).2 →
        Recovers stopped (stacked.run logLine .plainText unbudgeted (emptyStore 2)).2
          (stacked.run logLine .plainText unbudgeted (emptyStore 2)).1.output buffer)) ∧
      KeysKept stopped (stackedStages 2) (afterSecond 2) :=
  ⟨run_accounts stacked (fun _ hmem => absurd hmem List.not_mem_nil) stacked_obeys logLine
    .plainText unbudgeted (emptyStore 2), by
      intro stage hstage
      rcases List.mem_pair.mp hstage with rfl | rfl
      · decide
      · rfl⟩

end Legroom.Transforms.Pipeline
