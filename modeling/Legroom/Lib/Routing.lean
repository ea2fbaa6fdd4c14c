import Mathlib.Data.Finmap
import Mathlib.Tactic.Common

/-!
# Tables fed by addressed items

Each item of a stream has at most one address, and it changes the entry of a table
there and no other.  So an entry after a run is what the items addressed to it make
of it, whatever came between them, and streams that agree address by address fill
the same table.  An interleaving of several sequences is such a stream.
-/

namespace Legroom.Routing

abbrev Table (Key State : Type*) := Finmap fun _ : Key => State

namespace Table

variable {Key State : Type*} [DecidableEq Key]

/-- `entry(key).or_default()`, then an update of the entry. -/
def entry [Inhabited State] (table : Table Key State) (key : Key) (update : State → State) :
    Table Key State :=
  table.insert key (update ((table.lookup key).getD default))

/-- `get_mut(key)`, then an update of the entry if there is one. -/
def getMut (table : Table Key State) (key : Key) (update : State → State) :
    Table Key State :=
  match table.lookup key with
  | some state => table.insert key (update state)
  | none => table

variable (table : Table Key State)

theorem lookup_insert_eq (key other : Key) (state : State) :
    (table.insert key state).lookup other =
      if key = other then some state else table.lookup other := by
  split_ifs with hkey
  · rw [hkey, Finmap.lookup_insert]
  · exact Finmap.lookup_insert_of_ne _ fun heq => hkey heq.symm

theorem lookup_entry [Inhabited State] (key other : Key) (update : State → State) :
    (table.entry key update).lookup other =
      if key = other then some (update ((table.lookup other).getD default))
      else table.lookup other := by
  rw [entry, lookup_insert_eq]
  split_ifs with hkey
  · rw [hkey]
  · rfl

theorem lookup_getMut (key other : Key) (update : State → State) :
    (table.getMut key update).lookup other =
      if key = other then (table.lookup other).map update else table.lookup other := by
  rw [getMut]
  split
  · rename_i state hstate
    rw [lookup_insert_eq]
    split_ifs with hkey
    · rw [← hkey, hstate, Option.map_some]
    · rfl
  · rename_i hnone
    split_ifs with hkey
    · rw [← hkey, hnone, Option.map_none]
    · rfl

end Table

/-! ## Routers -/

/-- How items change a table: each acts on the entry at its address. -/
structure Router (Key State Item : Type*) [DecidableEq Key] where
  step : Table Key State → Item → Table Key State
  address : Item → Option Key
  act : Item → Option State → Option State
  lookup_step : ∀ table item key, (step table item).lookup key =
    if address item = some key then act item (table.lookup key) else table.lookup key

namespace Router

variable {Key State Item : Type*} [DecidableEq Key] (router : Router Key State Item)

def run (table : Table Key State) (items : List Item) : Table Key State :=
  items.foldl router.step table

/-- The items addressed to a key. -/
def addressed (key : Key) (items : List Item) : List Item :=
  items.filter fun item => router.address item = some key

theorem addressed_cons (key : Key) (item : Item) (items : List Item) :
    router.addressed key (item :: items) =
      if router.address item = some key then item :: router.addressed key items
      else router.addressed key items := by
  rw [addressed, List.filter_cons]
  simp only [decide_eq_true_eq]
  rfl

/-- What items make of one entry. -/
def replay (entry : Option State) (items : List Item) : Option State :=
  items.foldl (fun entry item => router.act item entry) entry

/-- An entry after a run is the replay of its own items. -/
theorem lookup_run (table : Table Key State) (items : List Item) (key : Key) :
    (router.run table items).lookup key =
      router.replay (table.lookup key) (router.addressed key items) := by
  induction items generalizing table with
  | nil => rfl
  | cons item items ih =>
      rw [run, List.foldl_cons]
      refine (ih (router.step table item)).trans ?_
      rw [router.lookup_step, addressed_cons]
      split_ifs <;> rfl

variable {left right : List Item}

/-- Streams that agree address by address fill the same table. -/
theorem run_congr (hsame : ∀ key, router.addressed key left = router.addressed key right)
    (table : Table Key State) : router.run table left = router.run table right := by
  apply Finmap.ext_lookup
  intro key
  rw [router.lookup_run, router.lookup_run, hsame key]

theorem addressed_append (key : Key) (left right : List Item) :
    router.addressed key (left ++ right) =
      router.addressed key left ++ router.addressed key right :=
  List.filter_append _ _

/-- Two streams without a common address may go in either order. -/
theorem run_append_comm
    (hdisjoint : ∀ key, router.addressed key left = [] ∨ router.addressed key right = [])
    (table : Table Key State) :
    router.run table (left ++ right) = router.run table (right ++ left) := by
  refine router.run_congr (fun key => ?_) table
  rw [addressed_append, addressed_append]
  rcases hdisjoint key with hnone | hnone
  · rw [hnone, List.nil_append, List.append_nil]
  · rw [hnone, List.nil_append, List.append_nil]

/-- The router that creates an entry when it is missing and updates it. -/
def ofEntry [Inhabited State] (address : Item → Option Key) (update : State → Item → State) :
    Router Key State Item where
  step table item :=
    match address item with
    | some key => table.entry key fun state => update state item
    | none => table
  address := address
  act item entry := some (update (entry.getD default) item)
  lookup_step table item key := by
    cases address item with
    | none => simp
    | some found => simp [Table.lookup_entry]

theorem replay_ofEntry [Inhabited State] (address : Item → Option Key)
    (update : State → Item → State) (entry : Option State) (items : List Item) :
    (ofEntry address update).replay entry items =
      if items = [] then entry else some (items.foldl update (entry.getD default)) := by
  cases items with
  | nil => rfl
  | cons item items =>
      rw [if_neg (List.cons_ne_nil _ _), replay, List.foldl_cons, List.foldl_cons]
      change items.foldl _ (some (update (entry.getD default) item)) = _
      generalize update (entry.getD default) item = state
      induction items generalizing state with
      | nil => rfl
      | cons item items ih => exact ih (update state item)

end Router

/-! ## Interleavings -/

/-- The items of several sequences in one stream, each sequence in its own order. -/
inductive Interleaves {Item : Type*} : List (List Item) → List Item → Prop where
  | done {sequences : List (List Item)} (hempty : ∀ sequence ∈ sequences, sequence = []) :
      Interleaves sequences []
  | next {before after : List (List Item)} {item : Item} {rest merged : List Item}
      (hmore : Interleaves (before ++ rest :: after) merged) :
      Interleaves (before ++ (item :: rest) :: after) (item :: merged)

namespace Interleaves

variable {Item : Type*}
variable {sequences : List (List Item)} {merged : List Item}

theorem filter (hmerged : Interleaves sequences merged) (keep : Item → Bool) :
    Interleaves (sequences.map (List.filter keep)) (merged.filter keep) := by
  induction hmerged with
  | done hempty =>
      refine .done fun sequence hsequence => ?_
      obtain ⟨original, horiginal, rfl⟩ := List.mem_map.mp hsequence
      rw [hempty original horiginal]
      rfl
  | @next before after item rest merged hmore ih =>
      rw [List.map_append, List.map_cons] at ih ⊢
      rw [List.filter_cons, List.filter_cons]
      split_ifs
      · exact .next ih
      · exact ih

/-- If all sequences but one are empty, the stream is that one. -/
theorem eq_of_others_nil {before after : List (List Item)} {sequence : List Item}
    (hmerged : Interleaves (before ++ sequence :: after) merged)
    (hothers : ∀ other ∈ before ++ after, other = []) : merged = sequence := by
  generalize hsequences : before ++ sequence :: after = sequences at hmerged
  induction hmerged generalizing before sequence after with
  | done hempty => exact (hempty sequence (by rw [← hsequences]; simp)).symm
  | @next front back item rest merged hmore ih =>
      rcases List.append_eq_append_iff.mp hsequences with
        ⟨middle, hfront, hmiddle⟩ | ⟨middle, hbefore, hmiddle⟩
      · cases middle with
        | nil =>
            rw [List.nil_append] at hmiddle
            cases hmiddle
            rw [List.append_nil] at hfront
            subst hfront
            rw [ih hothers rfl]
        | cons first middle =>
            -- The head of the stream would come from another sequence.
            cases hmiddle
            have hnil := hothers (item :: rest) (by simp)
            cases hnil
      · cases middle with
        | nil =>
            rw [List.nil_append] at hmiddle
            cases hmiddle
            rw [List.append_nil] at hbefore
            subst hbefore
            rw [ih hothers rfl]
        | cons first middle =>
            cases hmiddle
            have hnil := hothers (item :: rest) (by rw [hbefore]; simp)
            cases hnil

/-- The items with a property come from the sequence that holds them all. -/
theorem filter_eq {before after : List (List Item)} {sequence merged : List Item}
    (hmerged : Interleaves (before ++ sequence :: after) merged) {keep : Item → Bool}
    (hsequence : ∀ item ∈ sequence, keep item = true)
    (hothers : ∀ other ∈ before ++ after, ∀ item ∈ other, keep item = false) :
    merged.filter keep = sequence := by
  have hfiltered := hmerged.filter keep
  rw [List.map_append, List.map_cons, List.filter_eq_self.mpr hsequence] at hfiltered
  refine hfiltered.eq_of_others_nil fun other hother => ?_
  rw [← List.map_append] at hother
  obtain ⟨original, horiginal, rfl⟩ := List.mem_map.mp hother
  exact List.filter_eq_nil_iff.mpr fun item hitem => by simp [hothers original horiginal item hitem]

/-- Every item of the stream is an item of one of the sequences. -/
theorem mem_flatten (hmerged : Interleaves sequences merged) {item : Item} (hitem : item ∈ merged) :
    item ∈ sequences.flatten := by
  induction hmerged with
  | done hempty => cases hitem
  | next hmore ih =>
      rcases List.mem_cons.mp hitem with rfl | hitem
      · simp
      · have := ih hitem
        simp only [List.flatten_append, List.flatten_cons, List.mem_append, List.mem_cons]
          at this ⊢
        tauto

end Interleaves

end Legroom.Routing
