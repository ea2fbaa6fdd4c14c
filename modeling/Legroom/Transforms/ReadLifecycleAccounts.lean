import Legroom.Transforms.ReadLifecycleReads

/-!
# What a read lifecycle result says

The transforms and hashes of a result are those of the replaced contents, in order.  The store
is called once for each of them.  Without a store, or if the call fails, the marker has the
digest of the content.
-/

namespace Legroom.Transforms

open Python

namespace ReadLifecycle

/-- Each Read has one of three states. -/
theorem countState_add (classifications : List ReadClassification) :
    countState .stale classifications + countState .superseded classifications +
      countState .fresh classifications = classifications.length := by
  induction classifications with
  | nil => rfl
  | cons classification classifications ih =>
      rw [List.length_cons, ← ih]
      cases hstate : classification.state <;>
        simp only [countState, List.countP_cons, hstate, reduceCtorEq, decide_true, decide_false,
          if_true, if_false, Bool.false_eq_true] <;> omega

section

variable {Store : Type} (digest : Bytes → Text)
  (storeCall : Option (Store → StoreCall → Store × Option Text))

/-- A store whose calls are answered, and that keeps what it has. -/
structure KeepingStore (callStore : Store → StoreCall → Store × Option Text)
    (holds : Store → Text → Text → Prop) : Prop where
  answered (store : Store) (call : StoreCall) : ∃ ccrHash,
    (callStore store call).2 = some ccrHash ∧ holds (callStore store call).1 ccrHash call.original
  kept (store : Store) (call : StoreCall) (ccrHash content : Text) :
    holds store ccrHash content → holds (callStore store call).1 ccrHash content

/-- What a result says about the contents that are replaced. -/
structure Accounts (store behind : Store) (messages : List Value)
    (result : ReadLifecycleResult) (steps : List (List Replacement × Value)) : Prop where
  rewrite : MessagesRewrite messages steps
  messages : result.messages = steps.map Prod.snd
  reads : result.readsStale + result.readsSuperseded + result.readsFresh = result.readsTotal
  transforms : result.transformsApplied = (steps.flatMap Prod.fst).map (·.transform)
  ccrHashes : result.ccrHashes =
    ((steps.flatMap Prod.fst).map (·.ccrHash)).filter fun ccrHash => !ccrHash.isEmpty
  bytes : (∀ replacement ∈ steps.flatMap Prod.fst, replacement.isTool = true) →
    result.bytesBefore =
        ((steps.flatMap Prod.fst).map fun replacement => (encode replacement.content).length).sum ∧
      result.bytesAfter =
        ((steps.flatMap Prod.fst).map fun replacement => (encode replacement.marker).length).sum
  marker : ∀ replacement ∈ steps.flatMap Prod.fst, ∃ display,
    replacement.marker = markerText display replacement.ccrHash replacement.classification.state
  store : StoreRun digest storeCall store (steps.flatMap Prod.fst) behind
  held : ∀ callStore holds, storeCall = some callStore → KeepingStore callStore holds →
    ∀ replacement ∈ steps.flatMap Prod.fst, holds behind replacement.ccrHash replacement.content

variable {digest storeCall}
variable {replaced : List Replacement}
variable {callStore : Store → StoreCall → Store × Option Text} {holds : Store → Text → Text → Prop}

/-- What a store has stays over a run. -/
theorem KeepingStore.kept_of_storeRun (hstore : KeepingStore callStore holds) {store behind : Store}
    (hrun : StoreRun digest (some callStore) store replaced behind) {ccrHash content : Text}
    (hholds : holds store ccrHash content) : holds behind ccrHash content := by
  induction hrun with
  | nil => exact hholds
  | cons hrecord _ ih =>
      refine ih ?_
      rw [← (Prod.mk.inj hrecord).1]
      exact hstore.kept _ _ _ _ hholds

/-- Behind a run the store has the content of each marker. -/
theorem KeepingStore.held_of_storeRun (hstore : KeepingStore callStore holds) {store behind : Store}
    (hrun : StoreRun digest (some callStore) store replaced behind) {replacement : Replacement}
    (hmem : replacement ∈ replaced) : holds behind replacement.ccrHash replacement.content := by
  induction hrun with
  | nil => exact absurd hmem List.not_mem_nil
  | cons hrecord hrest ih =>
      rcases List.mem_cons.mp hmem with rfl | hmem
      · refine hstore.kept_of_storeRun hrest ?_
        obtain ⟨rfl, hhash⟩ := Prod.mk.inj hrecord
        obtain ⟨ccrHash, hanswer, hholds⟩ := hstore.answered _ _
        rw [hanswer, Option.getD_some] at hhash
        exact hhash ▸ hholds
      · exact ih hmem

theorem toolBytes_of_isTool {textOf : Replacement → Text}
    (htool : ∀ replacement ∈ replaced, replacement.isTool = true) :
    toolBytes textOf replaced =
      (replaced.map fun replacement => (encode (textOf replacement)).length).sum := by
  rw [toolBytes, List.filter_eq_self.mpr htool]

/-- Nothing is replaced, so nothing is recorded. -/
theorem accounts_unchanged (store : Store) (messages : List Value) (reads : ℕ) :
    Accounts digest storeCall store store messages (.unchanged messages reads)
      (messages.map fun message => ([], message)) := by
  have hnone : (messages.map fun message => (([] : List Replacement), message)).flatMap Prod.fst =
      [] := by
    rw [List.flatMap_map, List.flatMap_eq_nil_iff]
    exact fun message _ => rfl
  exact {
    rewrite := messagesRewrite_same messages
    messages := by
      rw [List.map_map]
      exact (List.map_id messages).symm
    reads := Nat.zero_add reads
    transforms := by rw [hnone]; rfl
    ccrHashes := by rw [hnone]; rfl
    bytes := fun _ => by rw [hnone]; exact ⟨rfl, rfl⟩
    marker := fun replacement hmem => absurd (hnone ▸ hmem) List.not_mem_nil
    store := by rw [hnone]; exact .nil store
    held := fun _ _ _ _ replacement hmem => absurd (hnone ▸ hmem) List.not_mem_nil }

variable {otherCovers : FileOperation → FileOperation → Option Bool} {format : FloatFormat}
  {config : ReadLifecycleConfig}

def toolReadOf (id : String) : Value :=
  .dict [(text "role", .str (text "assistant")), (text "tool_calls", .list [.dict [
    (text "id", .str (text id)), (text "function", .dict [(text "name", .str (text "Read")),
      (text "arguments", .str (text "\x7b\"path\":\"a\"\x7d"))])]])]

def toolResultOf (id content : String) : Value :=
  .dict [(text "role", .str (text "tool")), (text "tool_call_id", .str (text id)),
    (text "content", .str (text content))]

def twoToolReads : List Value :=
  [toolReadOf "1", toolResultOf "1" "old", toolReadOf "2", toolResultOf "2" "new"]

/-- A store that answers the hash it is given. -/
def storeEntry (entries : List (Text × Text)) (call : StoreCall) :
    List (Text × Text) × Option Text :=
  ((call.explicitHash, call.original) :: entries, some call.explicitHash)

def twoToolReadsBehind : Option (List (Text × Text) × ReadLifecycleResult) :=
  apply (fun _ _ => none) anyFloats (fun _ => text "0") (some storeEntry) ⟨true, true, true, 1⟩ []
    twoToolReads 0

end

end ReadLifecycle

end Legroom.Transforms
