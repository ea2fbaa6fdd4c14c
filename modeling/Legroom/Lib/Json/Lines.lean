import Legroom.Lib.Json.Value

/-!
# JSON texts over several lines

A line feed in a JSON text is white space between tokens.  So behind it stands
white space or a byte that a token starts with, and a text that is cut off at a
line feed is complete only if nothing but white space was cut off.
-/

namespace Legroom.Json

/-- White space, or a byte that starts a token. -/
def mayStart (byte : Byte) : Bool :=
  isSpace byte || isDigit byte ||
    [quoteByte, openBracket, closeBracket, openBrace, closeBrace, comma, Byte.colon,
      0x2D, 0x6E, 0x74, 0x66].contains byte

/-- The text and each of its lines start like a token. -/
structure LineStarts (bytes : Bytes) : Prop where
  head : ∀ byte ∈ bytes.head?, mayStart byte = true
  behind : ∀ front back, bytes = front ++ Byte.lf :: back →
    ∀ byte ∈ back.head?, mayStart byte = true

namespace LineStarts

theorem of_all {bytes : Bytes} (hall : ∀ byte ∈ bytes, mayStart byte = true) :
    LineStarts bytes where
  head byte hbyte := hall byte (List.mem_of_mem_head? hbyte)
  behind := by
    rintro front back rfl byte hbyte
    refine hall byte ?_
    simp [List.mem_of_mem_head? hbyte]

theorem of_singleton {byte : Byte} (hbyte : mayStart byte = true) : LineStarts [byte] :=
  .of_all (by simpa using hbyte)

theorem of_notMem {bytes : Bytes} (hhead : ∀ byte ∈ bytes.head?, mayStart byte = true)
    (hlf : Byte.lf ∉ bytes) : LineStarts bytes where
  head := hhead
  behind := by
    rintro front back rfl
    simp at hlf

theorem append {left right : Bytes} (hleft : LineStarts left) (hright : LineStarts right) :
    LineStarts (left ++ right) where
  head := by
    intro byte hbyte
    cases left with
    | nil => exact hright.head byte hbyte
    | cons first left => exact hleft.head byte hbyte
  behind := by
    intro front back heq byte hbyte
    rcases List.append_eq_append_iff.mp heq with
      ⟨middle, hfront, hmiddle⟩ | ⟨middle, hmiddle, hback⟩
    · exact hright.behind middle back hmiddle byte hbyte
    · cases middle with
      | nil => exact hright.behind [] back (by simpa using hback.symm) byte hbyte
      | cons first middle =>
          cases hback
          cases middle with
          | nil => exact hright.head byte hbyte
          | cons second middle =>
              exact hleft.behind front (second :: middle) hmiddle byte hbyte

/-- What is left of a text at its front starts its lines as before. -/
theorem of_prefix {front bytes : Bytes} (hbytes : LineStarts bytes)
    (hbegins : front <+: bytes) : LineStarts front := by
  obtain ⟨more, rfl⟩ := hbegins
  constructor
  · intro byte hbyte
    refine hbytes.head byte ?_
    cases front with
    | nil => cases hbyte
    | cons first front => exact hbyte
  · rintro left right rfl byte hbyte
    refine hbytes.behind left (right ++ more) (by simp) byte ?_
    cases right with
    | nil => cases hbyte
    | cons first right => exact hbyte

theorem of_behind {front back : Bytes} (hbytes : LineStarts (front ++ Byte.lf :: back)) :
    LineStarts back where
  head := hbytes.behind front back rfl
  behind := by
    rintro left right rfl
    exact hbytes.behind (front ++ Byte.lf :: left) right (by simp)

end LineStarts

theorem lineStarts_space (space : Space) : LineStarts space.bytes := by
  refine .of_all fun byte hbyte => ?_
  rw [mayStart, List.all_eq_true.mp space.blank byte hbyte]
  rfl

theorem lineStarts_atom (token : Atom) : LineStarts token.bytes := by
  refine .of_notMem (fun byte hbyte => ?_) fun hlf => ?_
  · have hwell := token.wellFormed
    rw [isAtom, Bool.and_eq_true] at hwell
    obtain ⟨bytes, hbytes⟩ : ∃ bytes, token.bytes = byte :: bytes := by
      cases hcase : token.bytes with
      | nil => simp [hcase] at hbyte
      | cons first bytes =>
          rw [hcase] at hbyte
          cases hbyte
          exact ⟨bytes, rfl⟩
    have hword := hwell.2
    simp only [hbytes, Bool.or_eq_true, decide_eq_true_eq] at hword
    rcases hword with ((hnull | htrue) | hfalse) | hnumber
    · cases hnull
      decide
    · cases htrue
      decide
    · cases hfalse
      decide
    · rw [isNumber] at hnumber
      split_ifs at hnumber with hminus
      · rw [hminus]
        decide
      · rw [isUnsigned] at hnumber
        split_ifs at hnumber with hzero
        · rw [hzero]
          decide
        · rw [Bool.and_eq_true] at hnumber
          simp [mayStart, hnumber.1]
  · have hatom := token.all _ hlf
    cases hatom

theorem lf_notMem_raw (lit : StringLit) : Byte.lf ∉ lit.raw := by
  have hrefused : ∀ state : Scan, state.step Byte.lf = none := by
    intro state
    cases state with
    | plain => decide
    | escape => decide
    | hex left => rfl
  have hrun : ∀ (bytes : Bytes) (state : Scan), Byte.lf ∈ bytes → state.run bytes = none := by
    intro bytes
    induction bytes with
    | nil => exact fun state hmem => by cases hmem
    | cons byte bytes ih =>
        intro state hmem
        rw [Scan.run_cons]
        rcases List.mem_cons.mp hmem with rfl | hmem
        · rw [hrefused]
          rfl
        · cases state.step byte with
          | none => rfl
          | some next => exact ih next hmem
  intro hmem
  have hescaped := lit.escaped
  rw [hrun _ _ hmem] at hescaped
  cases hescaped

theorem lineStarts_string (lit : StringLit) : LineStarts lit.bytes := by
  refine .of_notMem (fun byte hbyte => ?_) ?_
  · cases hbyte
    decide
  · rw [StringLit.bytes, List.mem_cons, List.mem_append, List.mem_singleton, not_or, not_or]
    exact ⟨by decide, lf_notMem_raw lit, by decide⟩

theorem lineStarts_cons {byte : Byte} {bytes : Bytes} (hbyte : mayStart byte = true)
    (hbytes : LineStarts bytes) : LineStarts (byte :: bytes) := by
  exact (LineStarts.of_singleton hbyte).append hbytes

theorem lineStarts_key (key : Key) : LineStarts key.bytes := by
  rw [Key.bytes]
  exact (lineStarts_space _).append ((lineStarts_string _).append
    ((lineStarts_space _).append (lineStarts_cons (by decide) (lineStarts_space _))))

/-- Every line of a JSON text starts like a token. -/
theorem Tree.lineStarts {part : Part} (tree : Tree part) : LineStarts tree.render := by
  induction tree with
  | atom token => exact lineStarts_atom token
  | string lit => exact lineStarts_string lit
  | emptyArray space =>
      exact lineStarts_cons (by decide)
        ((lineStarts_space space).append (.of_singleton (by decide)))
  | emptyObject space =>
      exact lineStarts_cons (by decide)
        ((lineStarts_space space).append (.of_singleton (by decide)))
  | array elements ih => exact lineStarts_cons (by decide) ih
  | object members ih => exact lineStarts_cons (by decide) ih
  | lastElement before value after ih =>
      exact (lineStarts_space _).append (ih.append
        ((lineStarts_space _).append (.of_singleton (by decide))))
  | element before value after more ihValue ihMore =>
      exact (lineStarts_space _).append (ihValue.append
        ((lineStarts_space _).append (lineStarts_cons (by decide) ihMore)))
  | lastMember key value after ih =>
      exact (lineStarts_key _).append (ih.append
        ((lineStarts_space _).append (.of_singleton (by decide))))
  | member key value after more ihValue ihMore =>
      exact (lineStarts_key _).append (ihValue.append
        ((lineStarts_space _).append (lineStarts_cons (by decide) ihMore)))

theorem Document.lineStarts (document : Document) : LineStarts document.render :=
  (lineStarts_space _).append (document.value.lineStarts.append (lineStarts_space _))

/-! ## Texts cut off at white space -/

/-- White space at the end of a text makes no difference to its value. -/
theorem valueFromSlice_append_space {bytes spare : Bytes} {value : Value}
    (hvalue : valueFromSlice (bytes ++ spare) = some value)
    (hspare : ∀ byte ∈ spare, isSpace byte = true) : valueFromSlice bytes = some value := by
  obtain ⟨document, hrender, hdepth, hdenote⟩ := valueFromSlice_eq_some_iff.mp hvalue
  obtain ⟨front, last, hlast, hnotSpace⟩ := document.value.exists_last
  have hcut : ∃ kept, document.after.bytes = kept ++ spare ∧
      bytes = document.before.bytes ++ (document.value.render ++ kept) := by
    rw [Document.render, ← List.append_assoc] at hrender
    rcases List.append_eq_append_iff.mp hrender with
      ⟨middle, hbytes, hafter⟩ | ⟨middle, hfront, hbehind⟩
    · exact ⟨middle, hafter, by rw [hbytes, List.append_assoc]⟩
    · rcases List.eq_nil_or_concat middle with rfl | ⟨init, byte, rfl⟩
      · exact ⟨[], by simpa using hbehind.symm, by simpa using hfront.symm⟩
      · rw [hlast, List.concat_eq_append, ← List.append_assoc, ← List.append_assoc] at hfront
        obtain ⟨_, hbyte⟩ := List.append_inj' hfront rfl
        cases hbyte
        rw [hspare last (by rw [hbehind]; simp)] at hnotSpace
        cases hnotSpace
  obtain ⟨kept, hafter, hbytes⟩ := hcut
  have hblank : kept.all isSpace = true := by
    have hall := document.after.blank
    rw [hafter, List.all_append, Bool.and_eq_true] at hall
    exact hall.1
  exact valueFromSlice_eq_some_iff.mpr
    ⟨⟨document.before, document.value, ⟨kept, hblank⟩⟩, hbytes.symm, hdepth, hdenote⟩

/-- If a text is complete in front of white space, only white space follows. -/
theorem all_space_of_prefix {bytes spare : Bytes} {byte : Byte} {value other : Value}
    (hvalue : valueFromSlice bytes = some value) (hbyte : isSpace byte = true)
    (hmore : valueFromSlice (bytes ++ byte :: spare) = some other) :
    ∀ more ∈ spare, isSpace more = true := by
  obtain ⟨document, hrender, _, _⟩ := valueFromSlice_eq_some_iff.mp hvalue
  obtain ⟨longer, hlonger, _, _⟩ := valueFromSlice_eq_some_iff.mp hmore
  have hparse := parseDocument_eq_some_iff.mpr hlonger
  have hfollow : MayFollow .value (document.after.bytes ++ byte :: spare) :=
    endsAtom_space_append _ (endsAtom_cons spare (isAtomByte_of_isSpace hbyte))
  have hfuel : document.value.calls ≤
      (document.value.render ++ (document.after.bytes ++ byte :: spare)).length := by
    rw [List.length_append]
    exact Nat.le_add_right_of_le document.value.calls_le_length
  have hassoc : bytes ++ byte :: spare = document.before.bytes ++
      (document.value.render ++ (document.after.bytes ++ byte :: spare)) := by
    rw [← hrender, Document.render]
    simp
  rw [hassoc, parseDocument, takeSpace_append document.before (startsToken_render _ _)] at hparse
  simp only [parse_render document.value hfuel hfollow, bind, Option.bind] at hparse
  split_ifs at hparse with hend
  have hspace := takeSpace_eq (document.after.bytes ++ byte :: spare)
  rw [hend, List.append_nil] at hspace
  intro more hmem
  refine List.all_eq_true.mp
    (takeSpace (document.after.bytes ++ byte :: spare)).1.blank more ?_
  rw [← hspace]
  simp [hmem]

end Legroom.Json
