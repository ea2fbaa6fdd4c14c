import Legroom.Lib.Json.Literal

/-!
# JSON texts as concrete trees

A `Tree` is a JSON text with everything that is written in it, white space
included, so `render` gives back the very bytes.  Arrays and objects hold their
elements and members as trees of their own parts; this makes every tree well
formed and every text the rendering of at most one tree.

The parser is exact: it accepts precisely the renderings, and returns the tree.
-/

namespace Legroom.Json

open Utf8

def openBracket : Byte := 0x5B
def closeBracket : Byte := 0x5D
def openBrace : Byte := 0x7B
def closeBrace : Byte := 0x7D
def comma : Byte := 0x2C

/-- What a tree is a tree of. -/
inductive Part where
  | value
  /-- The elements of an array, up to and including the closing bracket. -/
  | elements
  /-- The members of an object, up to and including the closing brace. -/
  | members
  deriving DecidableEq

/-- The name of a member with the white space and the colon around it. -/
structure Key where
  before : Space
  name : StringLit
  beforeColon : Space
  afterColon : Space
  deriving DecidableEq

def Key.bytes (key : Key) : Bytes :=
  key.before.bytes ++ (key.name.bytes ++ (key.beforeColon.bytes ++
    Byte.colon :: key.afterColon.bytes))

inductive Tree : Part → Type where
  | atom (token : Atom) : Tree .value
  | string (lit : StringLit) : Tree .value
  | emptyArray (space : Space) : Tree .value
  | array (elements : Tree .elements) : Tree .value
  | emptyObject (space : Space) : Tree .value
  | object (members : Tree .members) : Tree .value
  | lastElement (before : Space) (value : Tree .value) (after : Space) :
      Tree .elements
  | element (before : Space) (value : Tree .value) (after : Space)
      (more : Tree .elements) : Tree .elements
  | lastMember (key : Key) (value : Tree .value) (after : Space) : Tree .members
  | member (key : Key) (value : Tree .value) (after : Space)
      (more : Tree .members) : Tree .members

namespace Tree

def render : {part : Part} → Tree part → Bytes
  | _, .atom token => token.bytes
  | _, .string lit => lit.bytes
  | _, .emptyArray space => openBracket :: (space.bytes ++ [closeBracket])
  | _, .array elements => openBracket :: render elements
  | _, .emptyObject space => openBrace :: (space.bytes ++ [closeBrace])
  | _, .object members => openBrace :: render members
  | _, .lastElement before value after =>
      before.bytes ++ (render value ++ (after.bytes ++ [closeBracket]))
  | _, .element before value after more =>
      before.bytes ++ (render value ++ (after.bytes ++ comma :: render more))
  | _, .lastMember key value after =>
      key.bytes ++ (render value ++ (after.bytes ++ [closeBrace]))
  | _, .member key value after more =>
      key.bytes ++ (render value ++ (after.bytes ++ comma :: render more))

/-- How many arrays and objects are open around the innermost value. -/
def depth : {part : Part} → Tree part → ℕ
  | _, .atom _ => 0
  | _, .string _ => 0
  | _, .emptyArray _ => 1
  | _, .array elements => depth elements + 1
  | _, .emptyObject _ => 1
  | _, .object members => depth members + 1
  | _, .lastElement _ value _ => depth value
  | _, .element _ value _ more => max (depth value) (depth more)
  | _, .lastMember _ value _ => depth value
  | _, .member _ value _ more => max (depth value) (depth more)

/-- The nesting of calls that parsing the tree takes. -/
def calls : {part : Part} → Tree part → ℕ
  | _, .atom _ => 1
  | _, .string _ => 1
  | _, .emptyArray _ => 1
  | _, .array elements => calls elements + 1
  | _, .emptyObject _ => 1
  | _, .object members => calls members + 1
  | _, .lastElement _ value _ => calls value + 1
  | _, .element _ value _ more => max (calls value) (calls more) + 1
  | _, .lastMember _ value _ => calls value + 1
  | _, .member _ value _ more => max (calls value) (calls more) + 1

attribute [local simp] calls render in
theorem calls_le_length {part : Part} (tree : Tree part) :
    tree.calls ≤ tree.render.length := by
  induction tree with
  | atom token =>
      exact List.length_pos_iff.mpr token.ne_nil
  | string lit => simp [StringLit.bytes]
  | emptyArray space => simp
  | array elements ih => simpa using ih
  | emptyObject space => simp
  | object members ih => simpa using ih
  | lastElement before value after ih =>
      simp only [calls, render, List.length_append, List.length_cons]
      omega
  | element before value after more ihValue ihMore =>
      simp only [calls, render, List.length_append, List.length_cons]
      omega
  | lastMember key value after ih =>
      simp only [calls, render, List.length_append, List.length_cons]
      omega
  | member key value after more ihValue ihMore =>
      simp only [calls, render, List.length_append, List.length_cons]
      omega

end Tree

/-! ## The parser -/

def takeKey (bytes : Bytes) : Option (Key × Bytes) :=
  let (before, bytes) := takeSpace bytes
  match bytes with
  | [] => none
  | first :: bytes =>
      if first = quoteByte then do
        let (name, bytes) ← takeString bytes
        let (beforeColon, bytes) := takeSpace bytes
        match bytes with
        | [] => none
        | first :: bytes =>
            if first = Byte.colon then
              let (afterColon, bytes) := takeSpace bytes
              some (⟨before, name, beforeColon, afterColon⟩, bytes)
            else none
      else none

/-- Recursive descent.  The fuel bounds the nesting of calls. -/
def parse : ℕ → (part : Part) → Bytes → Option (Tree part × Bytes)
  | 0, _, _ => none
  | _ + 1, .value, [] => none
  | fuel + 1, .value, first :: bytes =>
      if first = quoteByte then
        (takeString bytes).map fun (lit, rest) => (.string lit, rest)
      else if first = openBracket then
        let (space, inner) := takeSpace bytes
        if inner.head? = some closeBracket then some (.emptyArray space, inner.tail)
        else (parse fuel .elements bytes).map fun (elements, rest) =>
          (.array elements, rest)
      else if first = openBrace then
        let (space, inner) := takeSpace bytes
        if inner.head? = some closeBrace then some (.emptyObject space, inner.tail)
        else (parse fuel .members bytes).map fun (members, rest) =>
          (.object members, rest)
      else (takeAtom (first :: bytes)).map fun (atom, rest) => (.atom atom, rest)
  | fuel + 1, .elements, bytes => do
      let (before, bytes) := takeSpace bytes
      let (value, bytes) ← parse fuel .value bytes
      let (after, bytes) := takeSpace bytes
      match bytes with
      | [] => none
      | first :: bytes =>
          if first = comma then do
            let (more, rest) ← parse fuel .elements bytes
            return (.element before value after more, rest)
          else if first = closeBracket then
            some (.lastElement before value after, bytes)
          else none
  | fuel + 1, .members, bytes => do
      let (key, bytes) ← takeKey bytes
      let (value, bytes) ← parse fuel .value bytes
      let (after, bytes) := takeSpace bytes
      match bytes with
      | [] => none
      | first :: bytes =>
          if first = comma then do
            let (more, rest) ← parse fuel .members bytes
            return (.member key value after more, rest)
          else if first = closeBrace then some (.lastMember key value after, bytes)
          else none

/-- A JSON text: one value and the white space around it. -/
structure Document where
  before : Space
  value : Tree .value
  after : Space

def Document.render (document : Document) : Bytes :=
  document.before.bytes ++ (document.value.render ++ document.after.bytes)

def parseDocument (bytes : Bytes) : Option Document := do
  let (before, inner) := takeSpace bytes
  let (value, rest) ← parse inner.length .value inner
  let (after, rest) := takeSpace rest
  if rest = [] then some ⟨before, value, after⟩ else none

example : ((parseDocument (ascii " \x7b\"a\" : [1, true,[ ]]\x7d\n")).map Document.render) =
    some (ascii " \x7b\"a\" : [1, true,[ ]]\x7d\n") := by decide +kernel

/-! ## Every rendering is parsed -/

theorem StringLit.bytes_append (lit : StringLit) (rest : Bytes) :
    lit.bytes ++ rest = quoteByte :: (lit.raw ++ quoteByte :: rest) := by
  simp [StringLit.bytes]

variable {byte : Byte}

theorem startsToken_cons (bytes : Bytes) (hbyte : isSpace byte = false) :
    StartsToken (byte :: bytes) := by
  intro first hfirst
  cases hfirst
  exact hbyte

theorem endsAtom_cons (bytes : Bytes) (hbyte : isAtomByte byte = false) :
    EndsAtom (byte :: bytes) := by
  intro first hfirst
  cases hfirst
  exact hbyte

theorem isAtomByte_of_isSpace (hspace : isSpace byte = true) : isAtomByte byte = false := by
  simp only [isSpace, Bool.or_eq_true, decide_eq_true_eq] at hspace
  rcases hspace with ((rfl | rfl) | rfl) | rfl <;> decide

variable {rest : Bytes}
variable (space : Space)

/-- White space ends an atom, and so does what stands behind it. -/
theorem endsAtom_space_append (hrest : EndsAtom rest) : EndsAtom (space.bytes ++ rest) := by
  obtain ⟨bytes, hblank⟩ := space
  cases bytes with
  | nil => exact hrest
  | cons byte bytes =>
      rw [List.all_cons, Bool.and_eq_true] at hblank
      exact endsAtom_cons _ (isAtomByte_of_isSpace hblank.1)

variable {bytes : Bytes}

theorem Atom.isSpace_head (token : Atom) (hbytes : token.bytes = byte :: bytes) :
    isSpace byte = false := by
  have hatom : isAtomByte byte = true := token.all byte (by rw [hbytes]; simp)
  cases hspace : isSpace byte with
  | false => rfl
  | true =>
      rw [isAtomByte_of_isSpace hspace] at hatom
      cases hatom

/-- A value starts with a token of its own. -/
theorem startsToken_render (value : Tree .value) (rest : Bytes) :
    StartsToken (value.render ++ rest) := by
  cases value with
  | atom token =>
      obtain ⟨byte, bytes, hbytes⟩ := List.exists_cons_of_ne_nil token.ne_nil
      rw [Tree.render, hbytes]
      exact startsToken_cons _ (token.isSpace_head hbytes)
  | string lit => exact startsToken_cons _ (by decide)
  | emptyArray space => exact startsToken_cons _ (by decide)
  | array elements => exact startsToken_cons _ (by decide)
  | emptyObject space => exact startsToken_cons _ (by decide)
  | object members => exact startsToken_cons _ (by decide)

theorem takeKey_append (key : Key) (hrest : StartsToken rest) :
    takeKey (key.bytes ++ rest) = some (key, rest) := by
  have hname : StartsToken (quoteByte :: (key.name.raw ++ quoteByte ::
      (key.beforeColon.bytes ++ Byte.colon :: (key.afterColon.bytes ++ rest)))) :=
    startsToken_cons _ (by decide)
  have hcolon : StartsToken (Byte.colon :: (key.afterColon.bytes ++ rest)) :=
    startsToken_cons _ (by decide)
  rw [takeKey, Key.bytes]
  simp only [List.append_assoc, List.cons_append, takeSpace_append _ hname,
    StringLit.bytes_append, if_true, takeString_append, bind, Option.bind,
    takeSpace_append _ hcolon, takeSpace_append _ hrest]

namespace Tree

theorem exists_fuel {part : Part} {tree : Tree part} {fuel : ℕ}
    (hfuel : tree.calls ≤ fuel) : ∃ fewer, fuel = fewer + 1 := by
  apply Nat.exists_eq_add_one.mpr
  cases tree <;> exact Nat.lt_of_lt_of_le (Nat.succ_pos _) hfuel

end Tree

theorem render_head_ne (value : Tree .value) (rest : Bytes) (hatom : isAtomByte byte = false)
    (hquote : byte ≠ quoteByte) (hbracket : byte ≠ openBracket) (hbrace : byte ≠ openBrace) :
    (value.render ++ rest).head? ≠ some byte := by
  cases value with
  | atom token =>
      obtain ⟨first, bytes, hbytes⟩ := List.exists_cons_of_ne_nil token.ne_nil
      have hfirst : isAtomByte first = true := token.all first (by rw [hbytes]; simp)
      rw [Tree.render, hbytes]
      rintro ⟨⟩
      rw [hatom] at hfirst
      cases hfirst
  | string lit => exact fun hhead => hquote (Option.some.inj hhead).symm
  | emptyArray space => exact fun hhead => hbracket (Option.some.inj hhead).symm
  | array elements => exact fun hhead => hbracket (Option.some.inj hhead).symm
  | emptyObject space => exact fun hhead => hbrace (Option.some.inj hhead).symm
  | object members => exact fun hhead => hbrace (Option.some.inj hhead).symm

/-- The elements of an array do not start with the closing bracket. -/
theorem head_elements (elements : Tree .elements) (rest : Bytes) :
    (takeSpace (elements.render ++ rest)).2.head? ≠ some closeBracket := by
  cases elements with
  | lastElement before value after =>
      rw [Tree.render, List.append_assoc, List.append_assoc,
        takeSpace_append before (startsToken_render value _)]
      exact render_head_ne value _ (by decide) (by decide) (by decide) (by decide)
  | element before value after more =>
      rw [Tree.render, List.append_assoc, List.append_assoc,
        takeSpace_append before (startsToken_render value _)]
      exact render_head_ne value _ (by decide) (by decide) (by decide) (by decide)

/-- The members of an object do not start with the closing brace. -/
theorem head_members (members : Tree .members) (rest : Bytes) :
    (takeSpace (members.render ++ rest)).2.head? ≠ some closeBrace := by
  have hkey : ∀ (key : Key) (bytes : Bytes),
      (takeSpace (key.bytes ++ bytes)).2.head? ≠ some closeBrace := by
    intro key bytes
    rw [Key.bytes, List.append_assoc, List.append_assoc, StringLit.bytes_append,
      takeSpace_append key.before (startsToken_cons _ (by decide))]
    exact fun hhead => absurd (Option.some.inj hhead) (by decide)
  cases members with
  | lastMember key value after =>
      rw [Tree.render, List.append_assoc]
      exact hkey key _
  | member key value after more =>
      rw [Tree.render, List.append_assoc]
      exact hkey key _

/-- What may stand behind a tree: a value that is an atom must end there. -/
def MayFollow : Part → Bytes → Prop
  | .value, rest => EndsAtom rest
  | .elements, _ => True
  | .members, _ => True

theorem mayFollow_separator {separator : Byte} (rest : Bytes)
    (hseparator : isAtomByte separator = false) :
    MayFollow .value (space.bytes ++ separator :: rest) :=
  endsAtom_space_append space (endsAtom_cons rest hseparator)

variable {part : Part}
variable (tree : Tree part)

/-- Completeness, by induction on the tree: the call for each part reads its own
token and leaves the rest to the calls for the parts inside. -/
theorem parse_render {fuel : ℕ} (hfuel : tree.calls ≤ fuel) (hrest : MayFollow part rest) :
    parse fuel part (tree.render ++ rest) = some (tree, rest) := by
  induction tree generalizing rest fuel with
  | atom token =>
      obtain ⟨fuel, rfl⟩ := Tree.exists_fuel hfuel
      obtain ⟨byte, bytes, hbytes⟩ := List.exists_cons_of_ne_nil token.ne_nil
      have hatom : isAtomByte byte = true := token.all byte (by rw [hbytes]; simp)
      have hne : ∀ other : Byte, isAtomByte other = false → byte ≠ other := by
        rintro other hother rfl
        rw [hother] at hatom
        cases hatom
      have htake := takeAtom_append token hrest
      rw [hbytes, List.cons_append] at htake
      rw [Tree.render, hbytes, List.cons_append, parse, if_neg (hne _ (by decide)),
        if_neg (hne _ (by decide)), if_neg (hne _ (by decide)), htake]
      rfl
  | string lit =>
      obtain ⟨fuel, rfl⟩ := Tree.exists_fuel hfuel
      rw [Tree.render, StringLit.bytes_append, parse, if_pos rfl, takeString_append]
      rfl
  | emptyArray space =>
      obtain ⟨fuel, rfl⟩ := Tree.exists_fuel hfuel
      have hclose : StartsToken (closeBracket :: rest) := startsToken_cons _ (by decide)
      rw [Tree.render, List.cons_append, List.append_assoc, List.singleton_append,
        parse, if_neg (by decide), if_pos rfl]
      simp only [takeSpace_append space hclose, List.head?_cons, if_true, List.tail_cons]
  | array elements ih =>
      obtain ⟨fuel, rfl⟩ := Tree.exists_fuel hfuel
      rw [Tree.calls] at hfuel
      rw [Tree.render, List.cons_append, parse, if_neg (by decide), if_pos rfl,
        ih (by omega) trivial]
      simp only [if_neg (head_elements elements rest), Option.map_some]
  | emptyObject space =>
      obtain ⟨fuel, rfl⟩ := Tree.exists_fuel hfuel
      have hclose : StartsToken (closeBrace :: rest) := startsToken_cons _ (by decide)
      rw [Tree.render, List.cons_append, List.append_assoc, List.singleton_append,
        parse, if_neg (by decide), if_neg (by decide), if_pos rfl]
      simp only [takeSpace_append space hclose, List.head?_cons, if_true, List.tail_cons]
  | object members ih =>
      obtain ⟨fuel, rfl⟩ := Tree.exists_fuel hfuel
      rw [Tree.calls] at hfuel
      rw [Tree.render, List.cons_append, parse, if_neg (by decide), if_neg (by decide),
        if_pos rfl, ih (by omega) trivial]
      simp only [if_neg (head_members members rest), Option.map_some]
  | lastElement before value after ih =>
      obtain ⟨fuel, rfl⟩ := Tree.exists_fuel hfuel
      rw [Tree.calls] at hfuel
      have hclose : StartsToken (closeBracket :: rest) := startsToken_cons _ (by decide)
      have hfollow : MayFollow .value (after.bytes ++ closeBracket :: rest) :=
        mayFollow_separator after rest (by decide)
      have hcalls : value.calls ≤ fuel := by omega
      rw [Tree.render, parse]
      simp only [List.append_assoc, List.singleton_append,
        takeSpace_append before (startsToken_render value _), ih hcalls hfollow, bind,
        Option.bind, takeSpace_append after hclose]
      rw [if_neg (by decide), if_pos trivial]
  | element before value after more ihValue ihMore =>
      obtain ⟨fuel, rfl⟩ := Tree.exists_fuel hfuel
      rw [Tree.calls] at hfuel
      have hcomma : StartsToken (comma :: (more.render ++ rest)) :=
        startsToken_cons _ (by decide)
      have hfollow : MayFollow .value (after.bytes ++ comma :: (more.render ++ rest)) :=
        mayFollow_separator after _ (by decide)
      have hcalls : value.calls ≤ fuel ∧ more.calls ≤ fuel := by omega
      rw [Tree.render, parse]
      simp only [List.append_assoc, List.cons_append,
        takeSpace_append before (startsToken_render value _),
        ihValue hcalls.1 hfollow, bind, Option.bind, takeSpace_append after hcomma,
        if_true, ihMore hcalls.2 trivial]
      rfl
  | lastMember key value after ih =>
      obtain ⟨fuel, rfl⟩ := Tree.exists_fuel hfuel
      rw [Tree.calls] at hfuel
      have hclose : StartsToken (closeBrace :: rest) := startsToken_cons _ (by decide)
      have hfollow : MayFollow .value (after.bytes ++ closeBrace :: rest) :=
        mayFollow_separator after rest (by decide)
      have hcalls : value.calls ≤ fuel := by omega
      rw [Tree.render, parse]
      simp only [List.append_assoc, List.singleton_append,
        takeKey_append key (startsToken_render value _), ih hcalls hfollow, bind,
        Option.bind, takeSpace_append after hclose]
      rw [if_neg (by decide), if_pos trivial]
  | member key value after more ihValue ihMore =>
      obtain ⟨fuel, rfl⟩ := Tree.exists_fuel hfuel
      rw [Tree.calls] at hfuel
      have hcomma : StartsToken (comma :: (more.render ++ rest)) :=
        startsToken_cons _ (by decide)
      have hfollow : MayFollow .value (after.bytes ++ comma :: (more.render ++ rest)) :=
        mayFollow_separator after _ (by decide)
      have hcalls : value.calls ≤ fuel ∧ more.calls ≤ fuel := by omega
      rw [Tree.render, parse]
      simp only [List.append_assoc, List.cons_append,
        takeKey_append key (startsToken_render value _),
        ihValue hcalls.1 hfollow, bind, Option.bind, takeSpace_append after hcomma,
        if_true, ihMore hcalls.2 trivial]
      rfl

/-! ## Nothing else is parsed -/

theorem eq_of_takeKey {key : Key} (htake : takeKey bytes = some (key, rest)) :
    bytes = key.bytes ++ rest := by
  rw [takeKey] at htake
  have hbefore := takeSpace_eq bytes
  cases hafter : (takeSpace bytes).2 with
  | nil =>
      simp only [hafter] at htake
      cases htake
  | cons first inner =>
      simp only [hafter] at htake
      split_ifs at htake with hquote
      simp only [bind, Option.bind_eq_some_iff] at htake
      obtain ⟨⟨name, behind⟩, hname, hcolon⟩ := htake
      have hinner := eq_of_takeString hname
      have hbehind := takeSpace_eq behind
      cases hmore : (takeSpace behind).2 with
      | nil =>
          simp only [hmore] at hcolon
          cases hcolon
      | cons second last =>
          simp only [hmore] at hcolon
          split_ifs at hcolon with hsecond
          have hlast := takeSpace_eq last
          cases hcolon
          rw [hafter, hinner, hquote, hbehind, hmore, hsecond, hlast] at hbefore
          refine hbefore.trans ?_
          simp [Key.bytes, StringLit.bytes]

/-- Behind a white-space run, the byte that `head?` shows. -/
theorem eq_of_head_takeSpace {first : Byte} (hhead : (takeSpace bytes).2.head? = some first) :
    bytes = (takeSpace bytes).1.bytes ++ first :: (takeSpace bytes).2.tail := by
  have hsplit := takeSpace_eq bytes
  rwa [← List.cons_head?_tail hhead] at hsplit

/-- Soundness, by induction on the fuel. -/
theorem eq_of_parse {fuel : ℕ} {tree : Tree part}
    (hparse : parse fuel part bytes = some (tree, rest)) : bytes = tree.render ++ rest := by
  induction fuel generalizing part bytes rest with
  | zero => simp [parse] at hparse
  | succ fuel ih =>
      cases part with
      | value =>
          cases bytes with
          | nil => simp [parse] at hparse
          | cons first bytes =>
              rw [parse] at hparse
              split_ifs at hparse with hquote hbracket hbrace
              · obtain ⟨⟨lit, behind⟩, hlit, htree⟩ := Option.map_eq_some_iff.mp hparse
                cases htree
                rw [eq_of_takeString hlit, hquote, Tree.render, StringLit.bytes_append]
              · rw [hbracket]
                simp only at hparse
                split_ifs at hparse with hclose
                · cases hparse
                  refine (congrArg _ (eq_of_head_takeSpace hclose)).trans ?_
                  simp [Tree.render]
                · obtain ⟨⟨elements, behind⟩, helements, htree⟩ :=
                    Option.map_eq_some_iff.mp hparse
                  cases htree
                  rw [ih helements, Tree.render, List.cons_append]
              · rw [hbrace]
                simp only at hparse
                split_ifs at hparse with hclose
                · cases hparse
                  refine (congrArg _ (eq_of_head_takeSpace hclose)).trans ?_
                  simp [Tree.render]
                · obtain ⟨⟨members, behind⟩, hmembers, htree⟩ :=
                    Option.map_eq_some_iff.mp hparse
                  cases htree
                  rw [ih hmembers, Tree.render, List.cons_append]
              · obtain ⟨⟨token, behind⟩, htoken, htree⟩ :=
                  Option.map_eq_some_iff.mp hparse
                cases htree
                exact eq_of_takeAtom htoken
      | elements =>
          rw [parse] at hparse
          simp only [bind, Option.bind_eq_some_iff] at hparse
          obtain ⟨⟨value, behind⟩, hvalue, hparse⟩ := hparse
          have hbytes := takeSpace_eq bytes
          rw [ih hvalue] at hbytes
          cases hafter : (takeSpace behind).2 with
          | nil =>
              simp only [hafter] at hparse
              cases hparse
          | cons separator last =>
              have hbehind := takeSpace_eq behind
              rw [hafter] at hbehind
              simp only [hafter] at hparse
              split_ifs at hparse with hcomma hclose
              · simp only [Option.bind_eq_some_iff] at hparse
                obtain ⟨⟨more, final⟩, hmore, htree⟩ := hparse
                cases htree
                refine hbytes.trans ?_
                rw [congrArg (_ ++ ·) hbehind, ih hmore, hcomma]
                simp [Tree.render]
              · cases hparse
                refine hbytes.trans ?_
                rw [congrArg (_ ++ ·) hbehind, hclose]
                simp [Tree.render]
      | members =>
          rw [parse] at hparse
          simp only [bind, Option.bind_eq_some_iff] at hparse
          obtain ⟨⟨key, inner⟩, hkey, ⟨value, behind⟩, hvalue, hparse⟩ := hparse
          have hinner : inner = value.render ++ behind := ih hvalue
          have hbytes := eq_of_takeKey hkey
          rw [hinner] at hbytes
          cases hafter : (takeSpace behind).2 with
          | nil =>
              simp only [hafter] at hparse
              cases hparse
          | cons separator last =>
              have hbehind := takeSpace_eq behind
              rw [hafter] at hbehind
              simp only [hafter] at hparse
              split_ifs at hparse with hcomma hclose
              · simp only [Option.bind_eq_some_iff] at hparse
                obtain ⟨⟨more, final⟩, hmore, htree⟩ := hparse
                cases htree
                refine hbytes.trans ?_
                rw [congrArg (_ ++ ·) hbehind, ih hmore, hcomma]
                simp [Tree.render]
              · cases hparse
                refine hbytes.trans ?_
                rw [congrArg (_ ++ ·) hbehind, hclose]
                simp [Tree.render]

/-! ## Documents -/

/-- The parser accepts exactly the renderings of documents. -/
theorem parseDocument_eq_some_iff {document : Document} :
    parseDocument bytes = some document ↔ document.render = bytes := by
  constructor
  · intro hparse
    rw [parseDocument] at hparse
    simp only [bind, Option.bind_eq_some_iff] at hparse
    obtain ⟨⟨value, behind⟩, hvalue, hparse⟩ := hparse
    split_ifs at hparse with hend
    cases hparse
    have hbehind := takeSpace_eq behind
    rw [hend, List.append_nil] at hbehind
    rw [Document.render, ← hbehind, ← eq_of_parse hvalue]
    exact (takeSpace_eq bytes).symm
  · rintro rfl
    obtain ⟨before, value, after⟩ := document
    have hend : StartsToken ([] : Bytes) := fun byte hbyte => by cases hbyte
    have hspace : takeSpace after.bytes = (after, []) := by
      rw [← takeSpace_append after hend, List.append_nil]
    have hfollow : MayFollow .value after.bytes := by
      rw [← List.append_nil after.bytes]
      exact endsAtom_space_append after fun byte hbyte => by cases hbyte
    have hfuel : value.calls ≤ (value.render ++ after.bytes).length := by
      rw [List.length_append]
      exact Nat.le_add_right_of_le value.calls_le_length
    rw [parseDocument, Document.render, takeSpace_append before (startsToken_render value _)]
    simp only [parse_render value hfuel hfollow, bind, Option.bind, hspace, if_true]

theorem Tree.exists_last : ∃ front byte, tree.render = front ++ [byte] ∧ isSpace byte = false := by
  induction tree with
  | atom token =>
      have hlast := List.dropLast_append_getLast token.ne_nil
      refine ⟨_, _, hlast.symm, ?_⟩
      cases hspace : isSpace (token.bytes.getLast token.ne_nil) with
      | false => rfl
      | true =>
          have hatom := token.all _ (List.getLast_mem token.ne_nil)
          rw [isAtomByte_of_isSpace hspace] at hatom
          cases hatom
  | string lit => exact ⟨quoteByte :: lit.raw, quoteByte, rfl, by decide⟩
  | emptyArray space => exact ⟨openBracket :: space.bytes, closeBracket, rfl, by decide⟩
  | emptyObject space => exact ⟨openBrace :: space.bytes, closeBrace, rfl, by decide⟩
  | array elements ih =>
      obtain ⟨front, byte, hrender, hbyte⟩ := ih
      exact ⟨openBracket :: front, byte, by rw [render, hrender]; rfl, hbyte⟩
  | object members ih =>
      obtain ⟨front, byte, hrender, hbyte⟩ := ih
      exact ⟨openBrace :: front, byte, by rw [render, hrender]; rfl, hbyte⟩
  | lastElement before value after =>
      exact ⟨before.bytes ++ (value.render ++ after.bytes), closeBracket,
        by simp [render], by decide⟩
  | lastMember key value after =>
      exact ⟨key.bytes ++ (value.render ++ after.bytes), closeBrace, by simp [render],
        by decide⟩
  | element before value after more _ ih =>
      obtain ⟨front, byte, hrender, hbyte⟩ := ih
      exact ⟨before.bytes ++ (value.render ++ (after.bytes ++ comma :: front)), byte,
        by simp [render, hrender], hbyte⟩
  | member key value after more _ ih =>
      obtain ⟨front, byte, hrender, hbyte⟩ := ih
      exact ⟨key.bytes ++ (value.render ++ (after.bytes ++ comma :: front)), byte,
        by simp [render, hrender], hbyte⟩

/-- No white space at either end of a text. -/
def Trimmed (bytes : Bytes) : Prop :=
  ∀ byte, bytes.head? = some byte ∨ bytes.getLast? = some byte → isSpace byte = false

theorem trimmed_render_iff {document : Document} :
    Trimmed document.render ↔ document.before.bytes = [] ∧ document.after.bytes = [] := by
  have hblank : ∀ (space : Space), ∀ byte ∈ space.bytes, isSpace byte = true :=
    fun space => List.all_eq_true.mp space.blank
  constructor
  · intro htrimmed
    constructor
    · cases hbefore : document.before.bytes with
      | nil => rfl
      | cons byte bytes =>
          have hspace := hblank document.before byte (by rw [hbefore]; simp)
          rw [htrimmed byte (Or.inl (by rw [Document.render, hbefore]; rfl))] at hspace
          cases hspace
    · rcases List.eq_nil_or_concat document.after.bytes with hafter | ⟨bytes, byte, hafter⟩
      · exact hafter
      · have hspace := hblank document.after byte (by rw [hafter]; simp)
        rw [htrimmed byte (Or.inr (by simp [Document.render, hafter]))] at hspace
        cases hspace
  · rintro ⟨hbefore, hafter⟩ byte hbyte
    have hrender : document.render = document.value.render := by
      rw [Document.render, hbefore, hafter, List.append_nil, List.nil_append]
    rw [hrender] at hbyte
    rcases hbyte with hhead | hlast
    · have hstarts := startsToken_render document.value []
      rw [List.append_nil] at hstarts
      exact hstarts byte hhead
    · obtain ⟨front, last, hvalue, hspace⟩ := document.value.exists_last
      rw [hvalue, List.getLast?_concat] at hlast
      rw [← Option.some.inj hlast]
      exact hspace

/-! ## UTF-8 -/

theorem lt_of_isAtomByte (hatom : isAtomByte byte = true) : byte < 0x80 := by
  have hall : ∀ value < 256, isAtomByte (UInt8.ofNat value) = true →
      UInt8.ofNat value < 0x80 := by decide +kernel
  have hbyte := hall byte.toNat byte.toNat_lt
  rw [UInt8.ofNat_toNat] at hbyte
  exact hbyte hatom

theorem Space.valid : Valid space.bytes := by
  apply valid_of_ascii
  intro byte hbyte
  have hspace : isSpace byte = true := List.all_eq_true.mp space.blank byte hbyte
  simp only [isSpace, Bool.or_eq_true, decide_eq_true_eq] at hspace
  rcases hspace with ((rfl | rfl) | rfl) | rfl <;> decide

theorem StringLit.valid_bytes (lit : StringLit) : Valid lit.bytes := by
  rw [StringLit.bytes, valid_cons_ascii (by decide)]
  exact lit.valid.append (by decide)

theorem Key.valid (key : Key) : Valid key.bytes := by
  refine key.before.valid.append (key.name.valid_bytes.append
    (key.beforeColon.valid.append ?_))
  rw [valid_cons_ascii (by decide)]
  exact key.afterColon.valid

/-- Every rendering is UTF-8. -/
theorem Tree.valid_render : Valid tree.render := by
  induction tree with
  | atom token => exact valid_of_ascii fun byte hbyte => lt_of_isAtomByte (token.all byte hbyte)
  | string lit => exact lit.valid_bytes
  | emptyArray space =>
      rw [render, valid_cons_ascii (by decide)]
      exact space.valid.append (by decide)
  | array elements ih => rwa [render, valid_cons_ascii (by decide)]
  | emptyObject space =>
      rw [render, valid_cons_ascii (by decide)]
      exact space.valid.append (by decide)
  | object members ih => rwa [render, valid_cons_ascii (by decide)]
  | lastElement before value after ih =>
      exact before.valid.append (ih.append (after.valid.append (by decide)))
  | element before value after more ihValue ihMore =>
      refine before.valid.append (ihValue.append (after.valid.append ?_))
      rwa [valid_cons_ascii (by decide)]
  | lastMember key value after ih =>
      exact key.valid.append (ih.append (after.valid.append (by decide)))
  | member key value after more ihValue ihMore =>
      refine key.valid.append (ihValue.append (after.valid.append ?_))
      rwa [valid_cons_ascii (by decide)]

end Legroom.Json
