import Legroom.Lib.Json.Value
import Legroom.Lib.Splice

/-!
# Where the parts of a JSON text stand

Elements and members have a position in the text around them.  An edit of a tree
is a list of pieces of its text, so its replacements stand at those positions:
an edit below one member or one element replaces ranges of that part only.
-/

namespace Legroom.Json

open Utf8

/-- A value and the position of its first byte. -/
structure Located where
  start : ℕ
  value : Tree .value

namespace Tree

/-- What stands directly in a list of elements or members. -/
abbrev Entries : Part → Type
  | .value => Unit
  | .elements => List Located
  | .members => List (StringLit × Located)

def locate : {part : Part} → ℕ → Tree part → Entries part
  | .value, _, _ => ()
  | .elements, start, .lastElement before value _ =>
      [Located.mk (start + before.bytes.length) value]
  | .elements, start, .element before value after more =>
      List.cons (Located.mk (start + before.bytes.length) value)
        (locate (start + before.bytes.length + value.render.length +
          after.bytes.length + 1) more)
  | .members, start, .lastMember key value _ =>
      [(key.name, Located.mk (start + key.bytes.length) value)]
  | .members, start, .member key value after more =>
      List.cons (key.name, Located.mk (start + key.bytes.length) value)
        (locate (start + key.bytes.length + value.render.length +
          after.bytes.length + 1) more)
termination_by structural _ _ tree => tree

def locateElements (start : ℕ) (elements : Tree .elements) : List Located :=
  locate start elements

def locateMembers (start : ℕ) (members : Tree .members) : List (StringLit × Located) :=
  locate start members

variable (start : ℕ)

@[simp]
theorem locateElements_lastElement (before : Space) (value : Tree .value) (after : Space) :
    locateElements start (.lastElement before value after) =
      [⟨start + before.bytes.length, value⟩] := rfl

@[simp]
theorem locateElements_element (before : Space) (value : Tree .value) (after : Space)
    (more : Tree .elements) :
    locateElements start (.element before value after more) =
      ⟨start + before.bytes.length, value⟩ ::
        locateElements (start + before.bytes.length + value.render.length +
          after.bytes.length + 1) more := rfl

@[simp]
theorem locateMembers_lastMember (key : Key) (value : Tree .value) (after : Space) :
    locateMembers start (.lastMember key value after) =
      [(key.name, ⟨start + key.bytes.length, value⟩)] := rfl

@[simp]
theorem locateMembers_member (key : Key) (value : Tree .value) (after : Space)
    (more : Tree .members) :
    locateMembers start (.member key value after more) =
      (key.name, ⟨start + key.bytes.length, value⟩) ::
        locateMembers (start + key.bytes.length + value.render.length +
          after.bytes.length + 1) more := rfl

/-- The text of a tree, cut so that every string with a new text is one swap. -/
def pieces : {part : Part} → Tree part → Edit → List Piece
  | _, .atom token, _ => [.keep token.bytes]
  | _, .string lit, new =>
      match new [] with
      | some text => [.swap lit.bytes (quote text).bytes]
      | none => [.keep lit.bytes]
  | _, .emptyArray space, _ => [.keep (openBracket :: (space.bytes ++ [closeBracket]))]
  | _, .array elements, new => .keep [openBracket] :: pieces elements new
  | _, .emptyObject space, _ => [.keep (openBrace :: (space.bytes ++ [closeBrace]))]
  | _, .object members, new => .keep [openBrace] :: pieces members new
  | _, .lastElement before value after, new =>
      .keep before.bytes :: (pieces value (new.below (.index 0)) ++
        [.keep (after.bytes ++ [closeBracket])])
  | _, .element before value after more, new =>
      .keep before.bytes :: (pieces value (new.below (.index 0)) ++
        .keep (after.bytes ++ [comma]) :: pieces more new.next)
  | _, .lastMember key value after, new =>
      .keep key.bytes :: (pieces value (new.belowName key.name.text) ++
        [.keep (after.bytes ++ [closeBrace])])
  | _, .member key value after more, new =>
      .keep key.bytes :: (pieces value (new.belowName key.name.text) ++
        .keep (after.bytes ++ [comma]) :: pieces more new)

attribute [local simp] pieces Piece.old render in
@[simp]
theorem source_pieces {part : Part} (tree : Tree part) (new : Edit) :
    Piece.source (tree.pieces new) = tree.render := by
  induction tree generalizing new with
  | string lit =>
      rw [pieces]
      cases new [] <;> simp
  | atom token => simp
  | emptyArray space => simp
  | emptyObject space => simp
  | array elements ih => simp [ih]
  | object members ih => simp [ih]
  | lastElement before value after ih => simp [ih]
  | element before value after more ihValue ihMore =>
      simp [ihValue, ihMore]
  | lastMember key value after ih => simp [ih]
  | member key value after more ihValue ihMore =>
      simp [ihValue, ihMore]

attribute [local simp] pieces Piece.new render edit in
@[simp]
theorem target_pieces {part : Part} (tree : Tree part) (new : Edit) :
    Piece.target (tree.pieces new) = (tree.edit new).render := by
  induction tree generalizing new with
  | string lit =>
      rw [pieces, edit]
      cases new [] <;> simp
  | atom token => simp
  | emptyArray space => simp
  | emptyObject space => simp
  | array elements ih => simp [ih]
  | object members ih => simp [ih]
  | lastElement before value after ih => simp [ih]
  | element before value after more ihValue ihMore =>
      simp [ihValue, ihMore]
  | lastMember key value after ih => simp [ih]
  | member key value after more ihValue ihMore =>
      simp [ihValue, ihMore]

/-- Only string literals are swapped. -/
theorem exists_literal_of_swap {part : Part} {tree : Tree part} {new : Edit}
    {old text : Bytes} (hswap : .swap old text ∈ tree.pieces new) :
    ∃ lit : StringLit, ∃ written : Utf8String,
      old = lit.bytes ∧ text = (quote written).bytes := by
  induction tree generalizing new with
  | string lit =>
      rw [pieces] at hswap
      cases hnew : new [] with
      | some written =>
          simp only [hnew, List.mem_singleton, Piece.swap.injEq] at hswap
          exact ⟨lit, written, hswap⟩
      | none => simp [hnew] at hswap
  | atom token => simp [pieces] at hswap
  | emptyArray space => simp [pieces] at hswap
  | emptyObject space => simp [pieces] at hswap
  | array elements ih => exact ih (by simpa [pieces] using hswap)
  | object members ih => exact ih (by simpa [pieces] using hswap)
  | lastElement before value after ih => exact ih (by simpa [pieces] using hswap)
  | element before value after more ihValue ihMore =>
      have hmem : .swap old text ∈ value.pieces (new.below (.index 0)) ∨
          .swap old text ∈ more.pieces new.next := by simpa [pieces] using hswap
      exact hmem.elim ihValue ihMore
  | lastMember key value after ih => exact ih (by simpa [pieces] using hswap)
  | member key value after more ihValue ihMore =>
      have hmem : .swap old text ∈ value.pieces (new.belowName key.name.text) ∨
          .swap old text ∈ more.pieces new := by simpa [pieces] using hswap
      exact hmem.elim ihValue ihMore

@[simp]
theorem edit_keepAll {part : Part} (tree : Tree part) : tree.edit .keepAll = tree := by
  induction tree with
  | string lit => rfl
  | atom token => rfl
  | emptyArray space => rfl
  | emptyObject space => rfl
  | array elements ih => simp [edit, ih]
  | object members ih => simp [edit, ih]
  | lastElement before value after ih => simp [edit, ih]
  | element before value after more ihValue ihMore => simp [edit, ihValue, ihMore]
  | lastMember key value after ih => simp [edit, ih]
  | member key value after more ihValue ihMore => simp [edit, ihValue, ihMore]

end Tree

/-- The replacements of an edit of the value, where it stands. -/
def Located.replacements (located : Located) (new : Edit) : List Replacement :=
  Piece.replacements located.start (located.value.pieces new)

theorem Located.replacements_keepAll (located : Located) :
    located.replacements .keepAll = [] := by
  have hpieces : ∀ {part : Part} (tree : Tree part) (start : ℕ),
      Piece.replacements start (tree.pieces .keepAll) = [] := by
    intro part tree
    induction tree with
    | string lit => intro start; rfl
    | atom token => intro start; rfl
    | emptyArray space => intro start; rfl
    | emptyObject space => intro start; rfl
    | array elements ih => intro start; simp [Tree.pieces, ih]
    | object members ih => intro start; simp [Tree.pieces, ih]
    | lastElement before value after ih =>
        intro start
        simp [Tree.pieces, Piece.replacements_append, ih]
    | element before value after more ihValue ihMore =>
        intro start
        simp [Tree.pieces, Piece.replacements_append, ihValue, ihMore]
    | lastMember key value after ih =>
        intro start
        simp [Tree.pieces, Piece.replacements_append, ih]
    | member key value after more ihValue ihMore =>
        intro start
        simp [Tree.pieces, Piece.replacements_append, ihValue, ihMore]
  exact hpieces located.value located.start

namespace Tree

theorem replacements_elements : ∀ (start : ℕ) (elements : Tree .elements) (new : Edit),
    Piece.replacements start (elements.pieces new) =
      ((locateElements start elements).mapIdx fun position located =>
        located.replacements (new.below (.index position))).flatten
  | start, .lastElement before value after, new => by
      simp [pieces, Piece.replacements_append, Located.replacements]
  | start, .element before value after more, new => by
      have hmore := replacements_elements (start + before.bytes.length +
        value.render.length + after.bytes.length + 1) more new.next
      simp only [Edit.below_next] at hmore
      simp [pieces, Piece.replacements_append, Located.replacements,
        List.mapIdx_cons, Nat.add_assoc] at hmore ⊢
      rw [hmore]

theorem replacements_members : ∀ (start : ℕ) (members : Tree .members) (new : Edit),
    Piece.replacements start (members.pieces new) =
      (locateMembers start members).flatMap fun member =>
        member.2.replacements (new.belowName member.1.text)
  | start, .lastMember key value after, new => by
      simp [pieces, Piece.replacements_append, Located.replacements]
  | start, .member key value after more, new => by
      have hmore := replacements_members (start + key.bytes.length +
        value.render.length + after.bytes.length + 1) more new
      simp [pieces, Piece.replacements_append, Located.replacements,
        Nat.add_assoc] at hmore ⊢
      rw [hmore]

end Tree

/-! ## Edits below one part -/

/-- The elements of an array, the members of an object, where they stand. -/
def Located.elements (located : Located) : List Located :=
  match located.value with
  | .array elements => Tree.locateElements (located.start + 1) elements
  | _ => []

def Located.members (located : Located) : List (StringLit × Located) :=
  match located.value with
  | .object members => Tree.locateMembers (located.start + 1) members
  | _ => []

variable {start : ℕ}

theorem Located.replacements_array (inner : Tree .elements) (new : Edit) :
    Located.replacements ⟨start, .array inner⟩ new =
      ((Located.elements ⟨start, .array inner⟩).mapIdx fun position element =>
        element.replacements (new.below (.index position))).flatten :=
  Tree.replacements_elements (start + 1) inner new

theorem Located.replacements_object (inner : Tree .members) (new : Edit) :
    Located.replacements ⟨start, .object inner⟩ new =
      (Located.members ⟨start, .object inner⟩).flatMap fun member =>
        member.2.replacements (new.belowName member.1.text) :=
  Tree.replacements_members (start + 1) inner new

/-! ## Values of the parts -/

theorem Tree.denote_locateElements : ∀ (start : ℕ) {inner : Tree .elements}
    {values : List Value}, inner.denote = some values →
      (locateElements start inner).map (fun element => element.value.denote) =
        values.map some
  | start, .lastElement before value after, values, hdenote => by
      obtain ⟨meaning, hvalue, rfl⟩ := Option.map_eq_some_iff.mp hdenote
      simp [hvalue]
  | start, .element before value after more, values, hdenote => by
      simp only [denote, bind, Option.bind_eq_some_iff] at hdenote
      obtain ⟨meaning, hvalue, later, hmore, hcons⟩ := hdenote
      cases hcons
      simp [hvalue, denote_locateElements _ hmore]

theorem Tree.denote_locateMembers : ∀ (start : ℕ) {inner : Tree .members}
    {fields : List (Utf8String × Value)}, inner.denote = some fields →
      (locateMembers start inner).map
          (fun member => (member.1.text, member.2.value.denote)) =
        fields.map fun field => (some field.1, some field.2)
  | start, .lastMember key value after, fields, hdenote => by
      simp only [denote, bind, Option.bind_eq_some_iff] at hdenote
      obtain ⟨name, hname, meaning, hvalue, hsingle⟩ := hdenote
      cases hsingle
      simp [hname, hvalue]
  | start, .member key value after more, fields, hdenote => by
      simp only [denote, bind, Option.bind_eq_some_iff] at hdenote
      obtain ⟨name, hname, meaning, hvalue, later, hmore, hcons⟩ := hdenote
      cases hcons
      simp [hname, hvalue, denote_locateMembers _ hmore]

namespace Value

theorem find_insertField (fields : List (Utf8String × Value))
    (field : Utf8String × Value) (name : Utf8String) :
    ((insertField fields field).find? fun other => other.1 = name).map Prod.snd =
      if field.1 = name then some field.2
      else (fields.find? fun other => other.1 = name).map Prod.snd := by
  induction fields with
  | nil =>
      rw [insertField]
      by_cases hname : field.1 = name <;> simp [hname]
  | cons first fields ih =>
      obtain ⟨other, value⟩ := first
      rw [insertField]
      by_cases hsame : other = field.1
      · rw [if_pos hsame]
        by_cases hname : field.1 = name <;> simp [hsame, hname]
      · rw [if_neg hsame]
        by_cases hother : other = name
        · have hname : field.1 ≠ name := fun heq => hsame (hother.trans heq.symm)
          simp [hother, hname]
        · simpa [hother] using ih

/-- Of several members with one name, the last is the field. -/
theorem get_collect (members : List (Utf8String × Value)) (name : Utf8String) :
    (Value.object (collect members)).get name =
      ((members.filter fun member => member.1 = name).getLast?).map Prod.snd := by
  induction members using List.reverseRecOn with
  | nil => rfl
  | append_singleton members last ih =>
      rw [collect, List.foldl_append, get]
      simp only [List.foldl_cons, List.foldl_nil, find_insertField]
      rw [get] at ih
      rw [List.filter_append]
      by_cases hname : last.1 = name
      · simp [hname]
      · simpa [hname, collect] using ih

/-- The value at a path. -/
def at? : Value → Path → Option Value
  | value, [] => some value
  | value, .index position :: path =>
      (value.asArray.bind fun elements => elements[position]?).bind (at? · path)
  | value, .key name :: path => (value.get name).bind (at? · path)

end Value

/-- Atoms denote neither texts nor compound values. -/
theorem Atom.value_cases (token : Atom) :
    token.value = .null ∨ (∃ value, token.value = .bool value) ∨
      ∃ literal, token.value = .number literal := by
  rw [Atom.value]
  split_ifs
  · exact Or.inl rfl
  · exact Or.inr (Or.inl ⟨_, rfl⟩)
  · exact Or.inr (Or.inl ⟨_, rfl⟩)
  · exact Or.inr (Or.inr ⟨_, rfl⟩)

variable {tree : Tree .value} {values : List Value}

/-- What stands where an array is. -/
theorem Tree.of_denote_array (hdenote : tree.denote = some (.array values)) :
    (∃ inner, tree = .array inner ∧ inner.denote = some values) ∨
      (∃ space, tree = .emptyArray space) ∧ values = [] := by
  cases tree with
  | array inner =>
      obtain ⟨found, hinner, heq⟩ := Option.map_eq_some_iff.mp hdenote
      cases heq
      exact Or.inl ⟨inner, rfl, hinner⟩
  | emptyArray space =>
      cases hdenote
      exact Or.inr ⟨⟨space, rfl⟩, rfl⟩
  | atom token =>
      have hvalue := Option.some.inj hdenote
      rcases token.value_cases with h | ⟨_, h⟩ | ⟨_, h⟩ <;> cases h.symm.trans hvalue
  | string lit =>
      obtain ⟨_, _, heq⟩ := Option.map_eq_some_iff.mp hdenote
      cases heq
  | emptyObject space => cases hdenote
  | object inner =>
      obtain ⟨_, _, heq⟩ := Option.map_eq_some_iff.mp hdenote
      cases heq

variable {fields : List (Utf8String × Value)}

/-- What stands where an object is. -/
theorem Tree.of_denote_object (hdenote : tree.denote = some (.object fields)) :
    (∃ inner members, tree = .object inner ∧ inner.denote = some members ∧
        fields = Value.collect members) ∨
      (∃ space, tree = .emptyObject space) ∧ fields = [] := by
  cases tree with
  | object inner =>
      obtain ⟨members, hinner, heq⟩ := Option.map_eq_some_iff.mp hdenote
      cases heq
      exact Or.inl ⟨inner, members, rfl, hinner, rfl⟩
  | emptyObject space =>
      cases hdenote
      exact Or.inr ⟨⟨space, rfl⟩, rfl⟩
  | atom token =>
      have hvalue := Option.some.inj hdenote
      rcases token.value_cases with h | ⟨_, h⟩ | ⟨_, h⟩ <;> cases h.symm.trans hvalue
  | string lit =>
      obtain ⟨_, _, heq⟩ := Option.map_eq_some_iff.mp hdenote
      cases heq
  | emptyArray space => cases hdenote
  | array inner =>
      obtain ⟨_, _, heq⟩ := Option.map_eq_some_iff.mp hdenote
      cases heq

variable {located : Located}

/-- The elements of a located array denote the elements of its value. -/
theorem Located.denote_elements (hdenote : located.value.denote = some (.array values)) :
    located.elements.map (fun element => element.value.denote) = values.map some := by
  obtain ⟨start, value⟩ := located
  rcases Tree.of_denote_array hdenote with ⟨inner, hvalue, hinner⟩ | ⟨⟨space, hvalue⟩, rfl⟩
  · cases hvalue
    exact Tree.denote_locateElements (start + 1) hinner
  · cases hvalue
    rfl

theorem Located.denote_getElem {element : Located} {position : ℕ}
    (hdenote : located.value.denote = some (.array values))
    (hget : located.elements[position]? = some element) :
    ∃ value, values[position]? = some value ∧ element.value.denote = some value := by
  have hmap := congrArg (·[position]?) (denote_elements hdenote)
  simp only [List.getElem?_map, hget, Option.map_some] at hmap
  obtain ⟨value, hvalue, hsome⟩ := Option.map_eq_some_iff.mp hmap.symm
  exact ⟨value, hvalue, hsome.symm⟩

/-- The last member of a name denotes the field of that name. -/
theorem Located.get_of_members (hdenote : located.value.denote = some (.object fields))
    (name : Utf8String) :
    ((located.members.filter fun member => member.1.text = some name).getLast?).map
        (fun member => member.2.value.denote) =
      ((Value.object fields).get name).map some := by
  obtain ⟨start, value⟩ := located
  rcases Tree.of_denote_object hdenote with
    ⟨inner, members, hvalue, hinner, rfl⟩ | ⟨⟨space, hvalue⟩, rfl⟩
  · cases hvalue
    have hmap := Tree.denote_locateMembers (start + 1) hinner
    have hfilter := congrArg
      (fun pairs : List (Option Utf8String × Option Value) =>
        ((pairs.filter fun pair => pair.1 = some name).getLast?).map Prod.snd) hmap
    simp only [List.filter_map, List.getLast?_map, Option.map_map] at hfilter
    rw [Value.get_collect, Option.map_map]
    refine hfilter.trans ?_
    simp [Function.comp_def]
  · cases hvalue
    rfl

/-! ## Reaching a part -/

/-- `part` stands at `path` in `located`, and every name on the way is the name of
one member only. -/
inductive Reaches : Located → Path → Located → Prop
  | here (located : Located) : Reaches located [] located
  | index {located element part : Located} {position : ℕ} {path : Path}
      (hget : located.elements[position]? = some element)
      (hreaches : Reaches element path part) :
      Reaches located (.index position :: path) part
  | key {located field part : Located} {name : Utf8String} {lit : StringLit}
      {path : Path}
      (hfield : located.members.filter (fun member => member.1.text = some name) =
        [(lit, field)])
      (hreaches : Reaches field path part) :
      Reaches located (.key name :: path) part

/-- One more entry at one position is one more entry of the whole. -/
theorem perm_flatten_mapIdx {A B : Type*} {values : List A} {value : A}
    {more pieces : ℕ → A → List B} {position : ℕ} {entry : B}
    (hget : values[position]? = some value)
    (hother : ∀ other, other ≠ position → more other = pieces other)
    (hhere : (more position value).Perm (entry :: pieces position value)) :
    (values.mapIdx more).flatten.Perm (entry :: (values.mapIdx pieces).flatten) := by
  induction values generalizing more pieces position with
  | nil => simp at hget
  | cons first values ih =>
      rw [List.mapIdx_cons, List.flatten_cons, List.mapIdx_cons, List.flatten_cons]
      cases position with
      | zero =>
          have hrest : (fun index => more (index + 1)) = fun index => pieces (index + 1) :=
            funext fun index => hother _ (Nat.succ_ne_zero _)
          cases hget
          rw [hrest]
          exact hhere.append_right _
      | succ position =>
          rw [hother 0 (Nat.succ_ne_zero position).symm]
          have hlater := ih hget (fun other hne =>
            hother (other + 1) fun heq => hne (Nat.succ.inj heq)) hhere
          exact (hlater.append_left _).trans List.perm_middle

/-- One more entry at the only value of a class is one more entry of the whole. -/
theorem perm_flatMap_of_filter {A B : Type*} {values : List A} {holds : A → Bool}
    {value : A} {more pieces : A → List B} {entry : B}
    (hfilter : values.filter holds = [value])
    (hother : ∀ value, holds value = false → more value = pieces value)
    (hhere : (more value).Perm (entry :: pieces value)) :
    (values.flatMap more).Perm (entry :: values.flatMap pieces) := by
  induction values with
  | nil => cases hfilter
  | cons first values ih =>
      rw [List.flatMap_cons, List.flatMap_cons]
      cases hfirst : holds first with
      | true =>
          rw [List.filter_cons, if_pos hfirst] at hfilter
          obtain ⟨rfl, hrest⟩ := List.cons.inj hfilter
          have hsame : values.flatMap more = values.flatMap pieces := by
            apply List.flatMap_congr
            intro later hlater
            apply hother
            simpa using List.filter_eq_nil_iff.mp hrest later hlater
          rw [hsame]
          exact hhere.append_right _
      | false =>
          rw [List.filter_cons, if_neg (by simp [hfirst])] at hfilter
          rw [hother first hfirst]
          exact ((ih hfilter).append_left _).trans List.perm_middle

variable {path : Path}

/-- Writing one more string replaces one more range, that of its literal. -/
theorem Reaches.replacements_set {part : Located} {lit : StringLit}
    (hreaches : Reaches located path part) (hpart : part = ⟨start, .string lit⟩) {edit : Edit}
    (hfree : edit path = none) (text : Utf8String) :
    (located.replacements (edit.set path text)).Perm
      (⟨start, start + lit.bytes.length, (quote text).bytes⟩ ::
        located.replacements edit) := by
  induction hreaches generalizing edit with
  | here located =>
      subst hpart
      simp [Located.replacements, Tree.pieces, Edit.set, hfree, Piece.replacements]
  | @index located element part position path hget _ ih =>
      obtain ⟨outer, value⟩ := located
      cases value with
      | array inner =>
          rw [Located.replacements_array, Located.replacements_array]
          apply perm_flatten_mapIdx hget
          · intro other hother
            rw [Edit.below_set, if_neg fun heq => hother (Step.index.inj heq)]
          · rw [Edit.below_set, if_pos rfl]
            exact ih hpart hfree
      | _ => simp [Located.elements] at hget
  | @key located field part name key path hfield _ ih =>
      obtain ⟨outer, value⟩ := located
      cases value with
      | object inner =>
          have hname : key.text = some name := by
            have hmem : (key, field) ∈ [(key, field)] := List.mem_singleton_self _
            rw [← hfield, List.mem_filter] at hmem
            simpa using hmem.2
          rw [Located.replacements_object, Located.replacements_object]
          apply perm_flatMap_of_filter hfield
          · intro member hmember
            rw [Edit.belowName_set, if_neg (by simpa using hmember)]
          · simp only [hname, Edit.belowName_set, if_true]
            exact ih hpart hfree
      | _ => simp [Located.members] at hfield

/-- `range` is where the string literal at a path stands, and `text` goes there. -/
def Overwrites (located : Located) (path : Path) (text : Utf8String)
    (range : Replacement) : Prop :=
  ∃ start lit, Reaches located path ⟨start, .string lit⟩ ∧
    range = ⟨start, start + lit.bytes.length, (quote text).bytes⟩

/-- Writing texts at distinct paths replaces the ranges of their literals. -/
theorem Located.replacements_ofList {assignments : List (Path × Utf8String)}
    {ranges : List Replacement}
    (hranges : List.Forall₂ (fun assignment range =>
      Overwrites located assignment.1 assignment.2 range) assignments ranges)
    (hnodup : (assignments.map Prod.fst).Nodup) :
    ranges.Perm (located.replacements (.ofList assignments)) := by
  induction hranges with
  | nil => rw [Edit.ofList, List.foldr_nil, replacements_keepAll]
  | @cons assignment range assignments ranges hrange _ ih =>
      obtain ⟨start, lit, hreaches, rfl⟩ := hrange
      rw [List.map_cons, List.nodup_cons] at hnodup
      have hfree : Edit.ofList assignments assignment.1 = none := by
        cases htext : Edit.ofList assignments assignment.1 with
        | none => rfl
        | some text =>
            exact absurd (List.mem_map_of_mem (Edit.mem_of_ofList htext)) hnodup.1
      exact ((ih hnodup.2).cons _).trans
        (hreaches.replacements_set rfl hfree assignment.2).symm

theorem Reaches.trans {middle part : Located} {front : Path} (hfront : Reaches located front middle)
    (hpath : Reaches middle path part) : Reaches located (front ++ path) part := by
  induction hfront with
  | here located => exact hpath
  | index hget _ ih => exact .index hget (ih hpath)
  | key hfield _ ih => exact .key hfield (ih hpath)

/-- The value at a path is what the part there denotes. -/
theorem Reaches.denote {part : Located} {value : Value} (hreaches : Reaches located path part)
    (hdenote : located.value.denote = some value) :
    ∃ found, value.at? path = some found ∧ part.value.denote = some found := by
  induction hreaches generalizing value with
  | here located => exact ⟨value, rfl, hdenote⟩
  | @index located element part position path hget _ ih =>
      obtain ⟨start, tree⟩ := located
      cases tree with
      | array inner =>
          obtain ⟨values, hinner, rfl⟩ := Option.map_eq_some_iff.mp hdenote
          obtain ⟨found, hvalue, helement⟩ := Located.denote_getElem hdenote hget
          obtain ⟨last, hlast, hpart⟩ := ih helement
          refine ⟨last, ?_, hpart⟩
          simp only [Value.at?, Value.asArray, Option.bind, hvalue, hlast]
      | _ => simp [Located.elements] at hget
  | @key located field part name lit path hfield _ ih =>
      obtain ⟨start, tree⟩ := located
      cases tree with
      | object inner =>
          obtain ⟨members, hinner, rfl⟩ := Option.map_eq_some_iff.mp hdenote
          have hget := Located.get_of_members hdenote name
          rw [hfield] at hget
          obtain ⟨found, hvalue, hsome⟩ := Option.map_eq_some_iff.mp hget.symm
          obtain ⟨last, hlast, hpart⟩ := ih hsome.symm
          refine ⟨last, ?_, hpart⟩
          simp only [Value.at?, hvalue, Option.bind, hlast]
      | _ => simp [Located.members] at hfield

/-! ## The part at a path -/

/-- The part one step below; of several members with one name, the last. -/
def Located.child (located : Located) : Step → Option Located
  | .index position => located.elements[position]?
  | .key name =>
      ((located.members.filter fun member => member.1.text = some name).getLast?).map
        Prod.snd

def Located.part (located : Located) : Path → Option Located
  | [] => some located
  | step :: path => (located.child step).bind fun child => child.part path

/-- Every part of the value stands somewhere in the text. -/
theorem Located.exists_part {value found : Value} (hdenote : located.value.denote = some value)
    (hfound : value.at? path = some found) :
    ∃ part, located.part path = some part ∧ part.value.denote = some found := by
  induction path generalizing located value with
  | nil =>
      cases hfound
      exact ⟨located, rfl, hdenote⟩
  | cons step path ih =>
      have hchild : ∃ child, located.child step = some child ∧
          ∃ below, child.value.denote = some below ∧ below.at? path = some found := by
        cases step with
        | index position =>
            obtain ⟨below, hbelow, hrest⟩ := Option.bind_eq_some_iff.mp hfound
            obtain ⟨values, harray, hget⟩ := Option.bind_eq_some_iff.mp hbelow
            cases Value.eq_array_of_asArray harray
            have hmap := congrArg (·[position]?) (denote_elements hdenote)
            simp only [List.getElem?_map, hget, Option.map_some,
              Option.map_eq_some_iff] at hmap
            obtain ⟨child, hchild, hvalue⟩ := hmap
            exact ⟨child, hchild, below, hvalue, hrest⟩
        | key name =>
            obtain ⟨below, hbelow, hrest⟩ := Option.bind_eq_some_iff.mp hfound
            cases value with
            | object fields =>
                have hget := get_of_members hdenote name
                rw [hbelow, Option.map_some, Option.map_eq_some_iff] at hget
                obtain ⟨member, hmember, hvalue⟩ := hget
                exact ⟨member.2, by rw [child, hmember]; rfl, below, hvalue, hrest⟩
            | _ => cases hbelow
      obtain ⟨child, hstep, below, hbelow, hrest⟩ := hchild
      rw [part, hstep]
      exact ih hbelow hrest

/-- What an edit does below a path. -/
def Edit.belowPath (edit : Edit) (path : Path) : Edit := fun rest => edit (path ++ rest)

theorem Tree.locateElements_edit : ∀ (start other : ℕ) (inner : Tree .elements)
    (new : Edit),
    (locateElements start (inner.edit new)).map Located.value =
      (locateElements other inner).mapIdx fun position element =>
        element.value.edit (new.below (.index position))
  | start, other, .lastElement before value after, new => by
      simp [edit]
  | start, other, .element before value after more, new => by
      simp only [edit, locateElements_element, List.map_cons, List.mapIdx_cons]
      rw [locateElements_edit _ (other + before.bytes.length + value.render.length +
        after.bytes.length + 1)]
      rfl

theorem Tree.locateMembers_edit : ∀ (start other : ℕ) (inner : Tree .members)
    (new : Edit),
    (locateMembers start (inner.edit new)).map
        (fun member => (member.1, member.2.value)) =
      (locateMembers other inner).map fun member =>
        (member.1, member.2.value.edit (new.belowName member.1.text))
  | start, other, .lastMember key value after, new => by
      simp [edit]
  | start, other, .member key value after more, new => by
      simp only [edit, locateMembers_member, List.map_cons]
      rw [locateMembers_edit _ (other + key.bytes.length + value.render.length +
        after.bytes.length + 1)]

theorem Located.child_edit (start other : ℕ) (value : Tree .value) (new : Edit)
    (step : Step) :
    ((Located.child ⟨start, value.edit new⟩ step).map Located.value) =
      (Located.child ⟨other, value⟩ step).map fun child =>
        child.value.edit (new.below step) := by
  cases step with
  | index position =>
      cases value with
      | array inner =>
          have hmap := congrArg (·[position]?)
            (Tree.locateElements_edit (start + 1) (other + 1) inner new)
          simp only [List.getElem?_map, List.getElem?_mapIdx] at hmap
          simpa only [child, elements, Tree.edit] using hmap
      | string lit =>
          simp only [child, elements, Tree.edit]
          cases new [] <;> rfl
      | _ => rfl
  | key name =>
      cases value with
      | object inner =>
          have hmap := Tree.locateMembers_edit (start + 1) (other + 1) inner new
          have hlast := congrArg (fun members : List (StringLit × Tree .value) =>
            ((members.filter fun member => member.1.text = some name).getLast?).map
              Prod.snd) hmap
          simp only [List.filter_map, List.getLast?_map, Option.map_map] at hlast
          simp only [child, Option.map_map]
          refine hlast.trans ?_
          simp only [members, Function.comp_def]
          cases hfound : ((Tree.locateMembers (other + 1) inner).filter
              fun member => member.1.text = some name).getLast? with
          | none => rfl
          | some member =>
              have hmem := List.mem_of_getLast? hfound
              rw [List.mem_filter] at hmem
              have hname : member.1.text = some name := by simpa using hmem.2
              simp [hname, Edit.belowName]
      | string lit =>
          simp only [child, members, Tree.edit]
          cases new [] <;> rfl
      | _ => rfl

/-- The part at a path of an edited text is the part there, edited. -/
theorem Located.part_edit (path : Path) (start other : ℕ) (value : Tree .value)
    (new : Edit) :
    ((Located.part ⟨start, value.edit new⟩ path).map Located.value) =
      (Located.part ⟨other, value⟩ path).map fun part =>
        part.value.edit (new.belowPath path) := by
  induction path generalizing start other value new with
  | nil => rfl
  | cons step path ih =>
      have hchild := child_edit start other value new step
      simp only [part]
      cases hleft : Located.child ⟨start, value.edit new⟩ step with
      | none =>
          rw [hleft] at hchild
          rw [Option.map_eq_none_iff.mp hchild.symm]
          rfl
      | some left =>
          rw [hleft] at hchild
          obtain ⟨right, hright, hvalue⟩ := Option.map_eq_some_iff.mp hchild.symm
          obtain ⟨leftStart, leftValue⟩ := left
          obtain ⟨rightStart, rightValue⟩ := right
          cases hvalue
          rw [hright]
          exact ih leftStart rightStart rightValue (new.below step)

/-! ## Documents -/

namespace Document

def root (document : Document) : Located :=
  ⟨document.before.bytes.length, document.value⟩

/-- Edit the value; the white space around it stays. -/
def edit (document : Document) (new : Edit) : Document :=
  ⟨document.before, document.value.edit new, document.after⟩

/-- The replacements of an edit, found in any order, splice to its text. -/
theorem splice_render {document : Document} {new : Edit} {ranges : List Replacement}
    (hranges : ranges.Perm (document.root.replacements new)) :
    splice document.render 0 (sortReplacements ranges) = (document.edit new).render := by
  have hpieces := splice_source (.keep document.before.bytes ::
    (document.value.pieces new ++ [.keep document.after.bytes]))
  have hreplacements : Piece.replacements 0 (.keep document.before.bytes ::
      (document.value.pieces new ++ [.keep document.after.bytes])) =
        document.root.replacements new := by
    simp [Piece.replacements_append, Located.replacements, root]
  have hordered : (document.root.replacements new).Pairwise
      fun left right => left.start < right.start := by
    apply Piece.pairwise_replacements
    intro old text hswap
    obtain ⟨lit, _, rfl, _⟩ := Tree.exists_literal_of_swap hswap
    exact List.cons_ne_nil _ _
  rw [hreplacements] at hpieces
  rw [sortReplacements_of_perm hranges hordered]
  simpa [Piece.old, Piece.new, render, edit] using hpieces

end Document

end Legroom.Json
