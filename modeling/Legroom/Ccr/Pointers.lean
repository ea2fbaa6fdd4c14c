import Legroom.Ccr.ToolInjection

/-!
# Pointers that the model can redeem

Every compressor leaves a pointer with the hash of what it took out.  The model can use it
if the scan reports the hash and a call with the hash is taken for a retrieval.
-/

namespace Legroom.Ccr

open Python Regex

/-! ## Pointers -/

/-- What a compressor counts. -/
inductive Counted where
  | items
  | lines
  | found

def Counted.name : Counted → Text
  | .items => text "items"
  | .lines => text "lines"
  | .found => text "matches"

/-- The pointers of the compressors. -/
inductive Pointer where
  /-- `marker_for` of the live zone -/
  | liveZone (hash : Text)
  /-- The rows that SmartCrusher has dropped -/
  | rows (hash : Text) (dropped : ℕ)
  /-- A long cell of a table -/
  | blob (hash kind size : Text)
  /-- Kompress, logs and searches -/
  | counted (what : Counted) (before after : ℕ) (hash : Text)
  /-- Code -/
  | code (tokens minutes : ℕ) (summary hash : Text)
  /-- Reads that are stale, superseded or matured, and configurations -/
  | original (lead hash : Text)
  | diffNoise (hash : Text)
  | jsonOffload (hash : Text)

namespace Pointer

def hash : Pointer → Text
  | liveZone hash => hash
  | rows hash _ => hash
  | blob hash _ _ => hash
  | counted _ _ _ hash => hash
  | code _ _ _ hash => hash
  | original _ hash => hash
  | diffNoise hash => hash
  | jsonOffload hash => hash

def render : Pointer → Text
  | liveZone hash => text "<<ccr:" ++ hash ++ text ">>"
  | rows hash dropped =>
      text "<<ccr:" ++ hash ++ text " " ++ decimalText dropped ++ text "_rows_offloaded>>"
  | blob hash kind size =>
      text "<<ccr:" ++ hash ++ text "," ++ kind ++ text "," ++ size ++ text ">>"
  | counted what before after hash =>
      text "[" ++ decimalText before ++ text " " ++ what.name ++ text " compressed to " ++
        decimalText after ++ text ". Retrieve more: hash=" ++ hash ++ text "]"
  | code tokens minutes summary hash =>
      text "# [" ++ decimalText tokens ++ text " tokens compressed." ++ summary ++
        text " Retrieve more: hash=" ++ hash ++ text ". Expires in " ++ decimalText minutes ++
          text "m.]"
  | original lead hash => lead ++ text "Retrieve original: hash=" ++ hash ++ text "]"
  | diffNoise hash => text "\n[diff_noise CCR: hash=" ++ hash ++ text "]"
  | jsonOffload hash => text "\n[json_offload CCR: hash=" ++ hash ++ text "]"

/-- The pointers that one of the patterns is for. -/
def IsRecognised : Pointer → Prop
  | code .. => False
  | diffNoise _ => False
  | jsonOffload _ => False
  | _ => True

/-- Hashes have 12 digits where SmartCrusher writes the pointer, and 24 elsewhere.  A summary
of code has names and numbers. -/
def WellFormed (pointer : Pointer) : Prop :=
  (∀ char ∈ pointer.hash, isLowerHex char = true) ∧
    match pointer with
    | liveZone hash | rows hash _ | blob hash _ _ | original _ hash =>
        hash.length = 12 ∨ hash.length = 24
    | counted _ _ _ hash | diffNoise hash | jsonOffload hash => hash.length = 24
    | code _ _ summary hash =>
        hash.length = 24 ∧ ∀ char ∈ text "<=]", char ∉ summary

end Pointer

/-! ## Characters -/

section

variable {tables : PatternTables}
variable {char : CodePoint}

theorem isDecimal_of_mem_decimalText {value : ℕ} (hchar : char ∈ decimalText value) :
    tables.isDecimal char = true := by
  obtain ⟨hleast, hmost⟩ := digit_of_mem_decimalText hchar
  rw [tables.isDecimal_ascii char (Fin.lt_def.mpr (Nat.lt_of_le_of_lt hmost (by decide))),
    Bool.and_eq_true, decide_eq_true_eq, decide_eq_true_eq]
  exact ⟨Fin.le_def.mpr hleast, Fin.le_def.mpr hmost⟩

theorem isLowerHex_iff :
    isLowerHex char = true ↔
      0x30 ≤ char.val ∧ char.val ≤ 0x39 ∨ 0x61 ≤ char.val ∧ char.val ≤ 0x66 := by
  rw [isLowerHex, Bool.or_eq_true, Bool.and_eq_true, Bool.and_eq_true, decide_eq_true_eq,
    decide_eq_true_eq, decide_eq_true_eq, decide_eq_true_eq]
  rfl

theorem isAsciiWord_iff :
    isAsciiWord char = true ↔
      0x30 ≤ char.val ∧ char.val ≤ 0x39 ∨ 0x41 ≤ char.val ∧ char.val ≤ 0x5A ∨
        char.val = 0x5F ∨ 0x61 ≤ char.val ∧ char.val ≤ 0x7A := by
  simp only [isAsciiWord, Bool.or_eq_true, Bool.and_eq_true, decide_eq_true_eq, beq_iff_eq,
    Fin.ext_iff, or_assoc]
  rfl

theorem isWord_of_isLowerHex (hhex : isLowerHex char = true) : tables.isWord char = true := by
  have hrange := isLowerHex_iff.mp hhex
  have hascii : char < 0x80 := Fin.lt_def.mpr (show char.val < 0x80 by omega)
  rw [tables.isWord_ascii char hascii, isAsciiWord_iff]
  omega

theorem rejects_space : tables.isDecimal (codePoint ' ') = false ∧
    tables.isWord (codePoint ' ') = false := by
  rw [tables.isDecimal_ascii _ (by decide), tables.isWord_ascii _ (by decide)]
  decide

theorem isWord_name (what : Counted) : ∀ char ∈ what.name, tables.isWord char = true := by
  have hascii : (what.name.all fun char => char < 0x80 && isAsciiWord char) = true := by
    cases what with
    | items => decide
    | lines => decide
    | found => decide
  intro char hchar
  have hchar := List.all_eq_true.mp hascii char hchar
  rw [Bool.and_eq_true, decide_eq_true_eq] at hchar
  rw [tables.isWord_ascii char hchar.1]
  exact hchar.2

/-! ## Pointers that are found -/

variable {shown hash : Text} {groups : List Text}

theorem mem_foundHashes {pattern : List (Piece CodePoint)}
    (hpattern : pattern ∈ markerPatterns tables) (hgroups : groups ∈ findAll pattern 0 none shown)
    (hlast : groups.getLast? = some hash) : hash ∈ foundHashes tables shown := by
  refine List.mem_flatMap.mpr ⟨pattern, hpattern, List.mem_map.mpr ⟨groups, hgroups, ?_⟩⟩
  rw [hlast]
  rfl

variable {behind rest : Text} {before : Option CodePoint}
variable {pieces : List (Piece CodePoint)}

/-- A hash group takes the whole hash. -/
theorem head?_matchesAt_hashGroup (hhex : ∀ char ∈ hash, isLowerHex char = true) {least most : ℕ}
    (hleast : least ≤ hash.length) (hmost : hash.length ≤ most)
    (hbehind : ∀ char ∈ behind.head?, isLowerHex char = false)
    (hpieces : (matchesAt pieces (hash.getLast?.or before) behind).head? = some ([], rest)) :
    (matchesAt (hashGroup least most :: pieces) before (hash ++ behind)).head? =
      some ([hash], rest) :=
  head?_matchesAt_run hhex hbehind hleast
    (fun _ hbound => Option.some_inj.mp hbound ▸ hmost) hpieces

theorem matchesAt_character (expected : CodePoint) (pieces : List (Piece CodePoint))
    (before : Option CodePoint) (shown : Text) :
    matchesAt (character expected :: pieces) before (expected :: shown) =
      matchesAt pieces (some expected) shown := by
  rw [character, matchesAt]
  exact if_pos (beq_self_eq_true expected)

/-- A group of digits takes the whole number. -/
theorem head?_matchesAt_numberGroup (number : ℕ)
    (hbehind : ∀ char ∈ behind.head?, tables.isDecimal char = false)
    (hpieces : (matchesAt pieces ((decimalText number).getLast?.or before) behind).head? =
      some (groups, rest)) :
    (matchesAt (numberGroup tables :: pieces) before (decimalText number ++ behind)).head? =
      some (decimalText number :: groups, rest) :=
  head?_matchesAt_run (fun _ hchar => isDecimal_of_mem_decimalText hchar) hbehind
    (List.length_pos_iff.mpr (decimalText_ne_nil number)) (fun _ hbound => absurd hbound
      (Option.not_mem_none _)) hpieces

/-- The pieces behind the opening bracket of the standard pattern. -/
theorem standardPattern_clear {before : Option CodePoint} {back shown rest : Text}
    {groups : List Text} (hback : back ≠ [])
    (hmatch : (groups, rest) ∈
      matchesAt (standardPattern tables) before (back ++ codePoint '[' :: shown)) :
    codePoint '[' :: shown <:+ rest := by
  have hdecimal : tables.isDecimal (codePoint '[') = false := by
    rw [tables.isDecimal_ascii _ (by decide)]
    decide
  have hword : tables.isWord (codePoint '[') = false := by
    rw [tables.isWord_ascii _ (by decide)]
    decide
  refine suffix_of_mem_matchesAt ?_ hback hmatch
  rw [List.forall_mem_cons, List.forall_mem_cons, List.forall_mem_cons, List.forall_mem_append,
    List.forall_mem_cons, List.forall_mem_append, List.forall_mem_cons, List.forall_mem_singleton]
  exact ⟨hdecimal, by decide, hword, literal_rejects (by decide), hdecimal,
    literal_rejects (by decide), by decide, by decide⟩

theorem mem_foundHashes_standard (what : Counted) (before after : ℕ)
    (hhex : ∀ char ∈ hash, isLowerHex char = true) (hlength : hash.length = 24)
    (front behind : Text) :
    hash ∈ foundHashes tables (front ++ codePoint '[' :: (decimalText before ++
      codePoint ' ' :: (what.name ++ (text " compressed to " ++ (decimalText after ++
        (text ". Retrieve more: hash=" ++ (hash ++ codePoint ']' :: behind))))))) := by
  have hpattern : standardPattern tables ∈ markerPatterns tables := List.mem_cons_self
  have hdot : tables.isDecimal (codePoint '.') = false := by
    rw [tables.isDecimal_ascii _ (by decide)]
    decide
  have hmarker (previous : Option CodePoint) :
      (matchesAt (standardPattern tables) previous (codePoint '[' :: (decimalText before ++
        codePoint ' ' :: (what.name ++ (text " compressed to " ++ (decimalText after ++
          (text ". Retrieve more: hash=" ++ (hash ++ codePoint ']' :: behind)))))))).head? =
        some ([decimalText before, decimalText after, hash], behind) := by
    rw [standardPattern, matchesAt_character]
    refine head?_matchesAt_numberGroup before (fun char hchar => ?_) ?_
    · rw [← Option.some_inj.mp hchar]
      exact rejects_space.1
    rw [matchesAt_character]
    refine head?_matchesAt_run (isWord_name what) (fun char hchar => ?_) ?_
      (fun _ hbound => absurd hbound (Option.not_mem_none _)) ?_
    · rw [← Option.some_inj.mp hchar]
      exact rejects_space.2
    · cases what with
      | items => decide
      | lines => decide
      | found => decide
    rw [matchesAt_literal]
    refine head?_matchesAt_numberGroup after (fun char hchar => ?_) ?_
    · rw [← Option.some_inj.mp hchar]
      exact hdot
    rw [matchesAt_literal]
    refine head?_matchesAt_hashGroup hhex hlength.ge hlength.le (fun char hchar => ?_) ?_
    · rw [← Option.some_inj.mp hchar]
      decide
    rw [matchesAt_character]
    rfl
  have hfound := mem_findAll hmarker (List.cons_ne_nil _ _)
    (fun _ _ _ _ _ hback hmatch => standardPattern_clear hback hmatch) (Nat.zero_le front.length)
    none
  exact mem_foundHashes hpattern hfound rfl

/-- `Retrieve original: hash=` in two parts -/
theorem originalLead_eq :
    text "Retrieve original: hash=" = codePoint 'R' :: text "etrieve original: hash=" := by
  decide

theorem originalPattern_clear {back : Text} (hback : back ≠ [])
    (hmatch : (groups, rest) ∈ matchesAt originalPattern before
      (back ++ (text "Retrieve original: hash=" ++ shown))) :
    text "Retrieve original: hash=" ++ shown <:+ rest := by
  have hletters : codePoint 'R' ∉ text "etrieve original: hash=" := by decide
  have hanchor : ∀ piece ∈ literal (text "etrieve original: hash=") ++ [hashGroup 12 24],
      piece.accepts (codePoint 'R') = false :=
    List.forall_mem_append.mpr ⟨literal_rejects hletters, List.forall_mem_singleton.mpr rfl⟩
  rw [originalPattern, originalLead_eq] at hmatch
  rw [originalLead_eq]
  exact suffix_of_mem_matchesAt hanchor hback hmatch

theorem mem_foundHashes_original (hhex : ∀ char ∈ hash, isLowerHex char = true)
    (hleast : 12 ≤ hash.length) (hmost : hash.length ≤ 24)
    (hbehind : ∀ char ∈ behind.head?, isLowerHex char = false) (front : Text) :
    hash ∈ foundHashes tables (front ++ (text "Retrieve original: hash=" ++ (hash ++ behind))) := by
  have hpattern : originalPattern ∈ markerPatterns tables := by
    simp only [markerPatterns, List.mem_cons, true_or, or_true]
  have hmarker (before : Option CodePoint) :
      (matchesAt originalPattern before
        (text "Retrieve original: hash=" ++ (hash ++ behind))).head? = some ([hash], behind) := by
    rw [originalPattern, matchesAt_literal]
    exact head?_matchesAt_hashGroup hhex hleast hmost hbehind rfl
  have hne : text "Retrieve original: hash=" ++ (hash ++ behind) ≠ [] :=
    List.append_ne_nil_of_left_ne_nil (by decide) _
  have hfound := mem_findAll hmarker hne
    (fun _ _ _ _ _ hback hmatch => originalPattern_clear hback hmatch) (Nat.zero_le front.length)
    none
  exact mem_foundHashes hpattern hfound rfl

/-- `<<ccr:` in three parts -/
theorem ccrLead_eq : text "<<ccr:" = codePoint '<' :: codePoint '<' :: text "ccr:" := by
  decide

theorem ccrPattern_clear {back : Text} (hback : back ≠ [])
    (hmatch : (groups, rest) ∈
      matchesAt (ccrPattern tables) before (back ++ (text "<<ccr:" ++ shown))) :
    text "<<ccr:" ++ shown <:+ rest := by
  obtain ⟨taken, htext, hspelled⟩ := spelled_of_mem_matchesAt hmatch
  obtain ⟨left, right, _, _, rfl, -, hleft, hright⟩ := spelled_append hspelled
  obtain ⟨rfl, -⟩ := spelled_literal hleft
  have hlater : codePoint '<' ∉ text "ccr:" ++ right := by
    intro hmem
    rcases List.mem_append.mp hmem with hmem | hmem
    · exact absurd hmem (by decide)
    · obtain ⟨piece, hpiece, haccepts⟩ := exists_accepts_of_spelled hright _ hmem
      have hrejects : ∀ piece ∈ [hashGroup 12 24, .boundary tables.isWord],
          piece.accepts (codePoint '<') = false :=
        List.forall_mem_cons.mpr ⟨rfl, List.forall_mem_singleton.mpr rfl⟩
      rw [hrejects piece hpiece] at haccepts
      cases haccepts
  rw [ccrLead_eq] at htext ⊢
  rcases List.append_eq_append_iff.mp htext with ⟨reached, htaken, hrest⟩ | ⟨left, -, hrest⟩
  · cases reached with
    | nil => exact ⟨[], hrest⟩
    | cons char reached =>
        obtain ⟨start, back, rfl⟩ := List.exists_cons_of_ne_nil hback
        obtain ⟨rfl, hreached⟩ := List.cons.inj hrest
        obtain ⟨-, hbehind⟩ := List.cons.inj htaken
        cases back with
        | nil =>
            -- The second character of the marker would have to be the third of the match.
            obtain ⟨-, hthird⟩ := List.cons.inj hbehind
            cases reached with
            | nil => exact absurd hthird (List.append_ne_nil_of_left_ne_nil (by decide) right)
            | cons char reached =>
                rw [← (List.cons.inj hreached).1] at hthird
                refine absurd ?_ hlater
                rw [show text "ccr:" ++ right = codePoint '<' :: reached from hthird]
                exact List.mem_cons_self
        | cons next back =>
            refine absurd ?_ hlater
            rw [show text "ccr:" ++ right = back ++ codePoint '<' :: reached from
              (List.cons.inj hbehind).2]
            exact List.mem_append_right back List.mem_cons_self
  · exact ⟨left, hrest.symm⟩

theorem mem_foundHashes_ccr (hhex : ∀ char ∈ hash, isLowerHex char = true)
    (hleast : 12 ≤ hash.length) (hmost : hash.length ≤ 24) {next : CodePoint}
    (hnext : tables.isWord next = false) (front behind : Text) :
    hash ∈ foundHashes tables (front ++ (text "<<ccr:" ++ (hash ++ next :: behind))) := by
  have hpattern : ccrPattern tables ∈ markerPatterns tables := by
    simp only [markerPatterns, List.mem_cons, true_or, or_true]
  have hbehind : ∀ char ∈ (next :: behind).head?, isLowerHex char = false := by
    intro char hchar
    obtain rfl := Option.some_inj.mp hchar
    rw [Bool.eq_false_iff]
    intro hhex
    rw [isWord_of_isLowerHex hhex] at hnext
    cases hnext
  have hhash : hash ≠ [] := List.ne_nil_of_length_pos (Nat.lt_of_lt_of_le (by decide) hleast)
  have hlast : tables.isWord (hash.getLast hhash) = true :=
    isWord_of_isLowerHex (hhex _ (List.getLast_mem hhash))
  have hmarker (before : Option CodePoint) :
      (matchesAt (ccrPattern tables) before (text "<<ccr:" ++ (hash ++ next :: behind))).head? =
        some ([hash], next :: behind) := by
    rw [ccrPattern, matchesAt_literal]
    refine head?_matchesAt_hashGroup hhex hleast hmost hbehind ?_
    rw [List.getLast?_eq_some_getLast hhash, matchesAt, List.head?_cons, Option.some_or,
      Option.any_some, Option.any_some, hlast, hnext]
    rfl
  have hne : text "<<ccr:" ++ (hash ++ next :: behind) ≠ [] :=
    List.append_ne_nil_of_left_ne_nil (by decide) _
  have hfound := mem_findAll hmarker hne
    (fun _ _ _ _ _ hback hmatch => ccrPattern_clear hback hmatch) (Nat.zero_le front.length) none
  exact mem_foundHashes hpattern hfound rfl

theorem bounds_of_length (hlength : hash.length = 12 ∨ hash.length = 24) :
    12 ≤ hash.length ∧ hash.length ≤ 24 := by
  omega

variable {pointer : Pointer}

/-- A pointer that a pattern is for is found wherever it stands. -/
theorem Pointer.mem_foundHashes (hwell : pointer.WellFormed) (hrecognised : pointer.IsRecognised)
    (hshown : pointer.render <:+: shown) : pointer.hash ∈ foundHashes tables shown := by
  obtain ⟨front, behind, rfl⟩ := hshown
  obtain ⟨hhex, hlength⟩ := hwell
  have hends : ∀ char ∈ text ">, ", tables.isWord char = false := by
    intro char hchar
    have hascii : ((text ">, ").all fun char => char < 0x80 && !isAsciiWord char) = true := by
      decide
    have hchar := List.all_eq_true.mp hascii char hchar
    rw [Bool.and_eq_true, decide_eq_true_eq, Bool.not_eq_true'] at hchar
    rw [tables.isWord_ascii char hchar.1]
    exact hchar.2
  cases pointer with
  | liveZone hash =>
      obtain ⟨hleast, hmost⟩ := bounds_of_length hlength
      have hfound := mem_foundHashes_ccr hhex hleast hmost (hends (codePoint '>') (by decide)) front
        (codePoint '>' :: behind)
      simp only [render, List.append_assoc]
      exact hfound
  | rows hash dropped =>
      obtain ⟨hleast, hmost⟩ := bounds_of_length hlength
      have hfound := mem_foundHashes_ccr hhex hleast hmost (hends (codePoint ' ') (by decide)) front
        (decimalText dropped ++ (text "_rows_offloaded>>" ++ behind))
      simp only [render, List.append_assoc]
      exact hfound
  | blob hash kind size =>
      obtain ⟨hleast, hmost⟩ := bounds_of_length hlength
      have hfound := mem_foundHashes_ccr hhex hleast hmost (hends (codePoint ',') (by decide)) front
        (kind ++ (text "," ++ (size ++ (text ">>" ++ behind))))
      simp only [render, List.append_assoc]
      exact hfound
  | counted what before after hash =>
      have hfound : hash ∈ foundHashes tables _ :=
        mem_foundHashes_standard what before after hhex hlength front behind
      simp only [render, List.append_assoc]
      exact hfound
  | original lead hash =>
      obtain ⟨hleast, hmost⟩ := bounds_of_length hlength
      have hbracket : ∀ char ∈ (codePoint ']' :: behind).head?, isLowerHex char = false := by
        intro char hchar
        rw [← Option.some_inj.mp hchar]
        decide
      have hfound : hash ∈ foundHashes tables _ :=
        mem_foundHashes_original hhex hleast hmost hbracket (front ++ lead)
      rw [List.append_assoc] at hfound
      simp only [render, List.append_assoc]
      exact hfound
  | code tokens minutes summary hash => exact absurd hrecognised id
  | diffNoise hash => exact absurd hrecognised id
  | jsonOffload hash => exact absurd hrecognised id

/-! ## Pointers that are not found -/

theorem foundHashes_eq_nil
    (hpatterns : ∀ pattern ∈ markerPatterns tables, ∀ taken groups, taken <:+: shown →
      ¬Spelled pattern taken groups) :
    foundHashes tables shown = [] := by
  refine List.flatMap_eq_nil_iff.mpr fun pattern hpattern => List.map_eq_nil_iff.mpr ?_
  refine List.eq_nil_iff_forall_not_mem.mpr fun groups hgroups => ?_
  obtain ⟨taken, htaken, hspelled⟩ := spelled_of_mem_findAll hgroups
  exact hpatterns pattern hpattern taken groups htaken hspelled

theorem matchesLetter_p (hletter : matchesLetter (codePoint 'p') char = true) :
    char = codePoint 'p' ∨ char = codePoint 'P' := by
  rw [matchesLetter, Bool.or_eq_true, Bool.or_eq_true, Bool.and_eq_true, Bool.and_eq_true,
    Bool.and_eq_true, beq_iff_eq, beq_iff_eq] at hletter
  rcases hletter with (hsame | ⟨-, hupper⟩) | ⟨hlong, -⟩
  · exact Or.inl hsame
  · rw [hupper]
    exact Or.inr (by decide)
  · exact absurd hlong (by decide)

/-- No pattern does without a `p`, a `<` or a `v`. -/
theorem foundHashes_eq_nil_of_absent (habsent : ∀ char ∈ text "pP<v", char ∉ shown) :
    foundHashes tables shown = [] := by
  have hno {pattern : List (Piece CodePoint)} (char : CodePoint) (hchar : char ∈ text "pP<v")
      (hpiece : character char ∈ pattern) {taken : Text} {groups : List Text}
      (htaken : taken <:+: shown) : ¬Spelled pattern taken groups := fun hspelled =>
    habsent char hchar (htaken.mem (mem_of_spelled_character hpiece hspelled))
  refine foundHashes_eq_nil fun pattern hpattern taken groups htaken => ?_
  rw [markerPatterns, List.mem_cons, List.mem_cons, List.mem_cons, List.mem_cons,
    List.mem_singleton] at hpattern
  rcases hpattern with rfl | rfl | rfl | rfl | rfl
  · refine hno (codePoint 'p') (by decide) ?_ htaken
    simp only [standardPattern, List.mem_cons, List.mem_append]
    exact Or.inr (Or.inr (Or.inr (Or.inr (Or.inl (character_mem_literal (by decide))))))
  · refine hno (codePoint 'p') (by decide) ?_ htaken
    simp only [legacyPattern, List.mem_cons, List.mem_append]
    exact Or.inr (Or.inr (Or.inr (Or.inr (Or.inl (character_mem_literal (by decide))))))
  · intro hspelled
    have hpiece : .one (matchesLetter (codePoint 'p')) ∈ genericPattern := by
      simp only [genericPattern, List.mem_cons, List.mem_append]
      exact Or.inr (Or.inr (Or.inl (List.mem_map.mpr ⟨codePoint 'p', by decide, rfl⟩)))
    obtain ⟨char, hchar, haccepts⟩ := exists_mem_of_spelled hspelled hpiece
    rcases matchesLetter_p haccepts with rfl | rfl
    · exact habsent _ (by decide) (htaken.mem hchar)
    · exact habsent _ (by decide) (htaken.mem hchar)
  · exact hno (codePoint '<') (by decide)
      (List.mem_append_left _ (character_mem_literal (by decide))) htaken
  · exact hno (codePoint 'v') (by decide)
      (List.mem_append_left _ (character_mem_literal (by decide))) htaken

theorem not_mem_of_hex (hhex : ∀ char ∈ hash, isLowerHex char = true)
    (hchar : isLowerHex char = false) : char ∉ hash := by
  intro hmem
  rw [hhex char hmem] at hchar
  cases hchar

theorem not_mem_decimalText {value : ℕ} (hchar : asciiPatternTables.isDecimal char = false) :
    char ∉ decimalText value := by
  intro hmem
  rw [isDecimal_of_mem_decimalText hmem] at hchar
  cases hchar

/-- What a pattern with a hash group at its end reads ends in a digit and a bracket. -/
theorem exists_of_spelled_hash {front : List (Piece CodePoint)} {accepts : CodePoint → Bool}
    {taken : Text} {groups : List Text}
    (hspelled : Spelled (front ++ [.run accepts 24 (some 24) true true, character (codePoint ']')])
      taken groups) :
    ∃ left digit, taken = left ++ [digit, codePoint ']'] ∧ accepts digit = true := by
  obtain ⟨left, right, _, _, rfl, -, -, run, rest, _, rfl, hrun, hleast, -, hrest, -⟩ :=
    spelled_append hspelled
  obtain ⟨char, rest, rfl, hchar, rfl, -⟩ := hrest
  have hne : run ≠ [] := List.ne_nil_of_length_pos (Nat.lt_of_lt_of_le (by decide) hleast)
  refine ⟨left ++ run.dropLast, run.getLast hne, ?_, hrun _ (List.getLast_mem hne)⟩
  have hsplit : run.dropLast ++ [run.getLast hne] = run := List.dropLast_append_getLast hne
  rw [beq_iff_eq.mp hchar, List.append_assoc, List.append_cons run.dropLast, hsplit]

/-- The pointer of the code compressor ends in a full stop and a bracket. -/
theorem code_render_eq (tokens minutes : ℕ) (summary hash : Text) :
    (Pointer.code tokens minutes summary hash).render =
      text "# [" ++ decimalText tokens ++ text " tokens compressed." ++ summary ++
        text " Retrieve more: hash=" ++ hash ++ text ". Expires in " ++ decimalText minutes ++
          text "m." ++ [codePoint ']'] := by
  rw [Pointer.render, show text "m.]" = text "m." ++ [codePoint ']'] by decide,
    ← List.append_assoc]

variable {tokens minutes : ℕ} {summary : Text}

theorem not_spelled_hash_of_code (hwell : (Pointer.code tokens minutes summary hash).WellFormed)
    {front : List (Piece CodePoint)} {accepts : CodePoint → Bool}
    (hdot : accepts (codePoint '.') = false) {taken : Text}
    (htaken : taken <:+: (Pointer.code tokens minutes summary hash).render) :
    ¬Spelled (front ++ [.run accepts 24 (some 24) true true, character (codePoint ']')])
      taken groups := by
  intro hspelled
  obtain ⟨left, digit, rfl, hdigit⟩ := exists_of_spelled_hash hspelled
  obtain ⟨before, behind, hrender⟩ := htaken
  have hsummary : codePoint ']' ∉ summary := hwell.2.2 _ (by decide)
  have hhash : codePoint ']' ∉ hash := not_mem_of_hex hwell.1 (by decide)
  have hnumber (value : ℕ) : codePoint ']' ∉ decimalText value := not_mem_decimalText (by decide)
  have hbracket : codePoint ']' ∉ text "# [" ++ decimalText tokens ++
      text " tokens compressed." ++ summary ++ text " Retrieve more: hash=" ++ hash ++
        text ". Expires in " ++ decimalText minutes ++ text "m." := by
    simp only [List.mem_append, not_or]
    exact ⟨⟨⟨⟨⟨⟨⟨⟨by decide, hnumber tokens⟩, by decide⟩, hsummary⟩, by decide⟩, hhash⟩, by decide⟩,
      hnumber minutes⟩, by decide⟩
  rw [code_render_eq, List.append_cons left, ← List.append_assoc, List.append_assoc _ _ behind]
    at hrender
  obtain ⟨hbefore, -, -⟩ :=
    (List.append_cons_inj_of_notMem hbracket List.not_mem_nil).mp hrender.symm
  have hlast := congrArg List.getLast? hbefore
  rw [← List.append_assoc, List.getLast?_concat, show text "m." = [codePoint 'm'] ++ [codePoint '.']
    by decide, ← List.append_assoc, List.getLast?_concat] at hlast
  rw [← Option.some_inj.mp hlast, hdot] at hdigit
  cases hdigit

theorem not_spelled_original_of_code (hwell : (Pointer.code tokens minutes summary hash).WellFormed)
    {taken : Text} (htaken : taken <:+: (Pointer.code tokens minutes summary hash).render) :
    ¬Spelled originalPattern taken groups := by
  intro hspelled
  obtain ⟨left, right, _, _, rfl, -, hleft, -⟩ := spelled_append hspelled
  obtain ⟨rfl, -⟩ := spelled_literal hleft
  obtain ⟨before, behind, hrender⟩ := htaken
  have hsummary : codePoint '=' ∉ summary := hwell.2.2 _ (by decide)
  have hhash : codePoint '=' ∉ hash := not_mem_of_hex hwell.1 (by decide)
  have hnumber (value : ℕ) : codePoint '=' ∉ decimalText value := not_mem_decimalText (by decide)
  have hfront : codePoint '=' ∉ text "# [" ++ decimalText tokens ++
      text " tokens compressed." ++ summary ++ text " Retrieve more: hash" := by
    simp only [List.mem_append, not_or]
    exact ⟨⟨⟨⟨by decide, hnumber tokens⟩, by decide⟩, hsummary⟩, by decide⟩
  have hback : codePoint '=' ∉
      hash ++ (text ". Expires in " ++ (decimalText minutes ++ text "m.]")) := by
    simp only [List.mem_append, not_or]
    exact ⟨hhash, by decide, hnumber minutes, by decide⟩
  have hcode : (Pointer.code tokens minutes summary hash).render =
      (text "# [" ++ decimalText tokens ++ text " tokens compressed." ++ summary ++
        text " Retrieve more: hash") ++ codePoint '=' ::
          (hash ++ (text ". Expires in " ++ (decimalText minutes ++ text "m.]"))) := by
    rw [Pointer.render, show text " Retrieve more: hash=" =
      text " Retrieve more: hash" ++ [codePoint '='] by decide]
    simp only [List.append_assoc]
    rfl
  have hfound : before ++ (text "Retrieve original: hash=" ++ right) ++ behind =
      (before ++ text "Retrieve original: hash") ++ codePoint '=' :: (right ++ behind) := by
    rw [show text "Retrieve original: hash=" = text "Retrieve original: hash" ++ [codePoint '=']
      by decide]
    simp only [List.append_assoc]
    rfl
  rw [hcode, hfound] at hrender
  obtain ⟨hsame, -, -⟩ := (List.append_cons_inj_of_notMem hfront hback).mp hrender.symm
  have hmore : text "ore: hash" <:+ before ++ text "Retrieve original: hash" := by
    rw [← hsame, show text " Retrieve more: hash" = text " Retrieve m" ++ text "ore: hash"
      by decide, ← List.append_assoc]
    exact List.suffix_append _ _
  have horiginal : text "nal: hash" <:+ before ++ text "Retrieve original: hash" := by
    rw [show text "Retrieve original: hash" = text "Retrieve origi" ++ text "nal: hash"
      by decide, ← List.append_assoc]
    exact List.suffix_append _ _
  have heq := (List.suffix_of_suffix_length_le hmore horiginal (by decide)).eq_of_length (by decide)
  exact absurd heq (by decide)

theorem foundHashes_code (hwell : (Pointer.code tokens minutes summary hash).WellFormed) :
    foundHashes tables (Pointer.code tokens minutes summary hash).render = [] := by
  have hless : codePoint '<' ∉ (Pointer.code tokens minutes summary hash).render := by
    have hsummary : codePoint '<' ∉ summary := hwell.2.2 _ (by decide)
    have hhash : codePoint '<' ∉ hash := not_mem_of_hex hwell.1 (by decide)
    have hnumber (value : ℕ) : codePoint '<' ∉ decimalText value := not_mem_decimalText (by decide)
    simp only [Pointer.render, List.mem_append, not_or]
    exact ⟨⟨⟨⟨⟨⟨⟨⟨by decide, hnumber tokens⟩, by decide⟩, hsummary⟩, by decide⟩, hhash⟩, by decide⟩,
      hnumber minutes⟩, by decide⟩
  refine foundHashes_eq_nil fun pattern hpattern taken groups htaken => ?_
  rw [markerPatterns, List.mem_cons, List.mem_cons, List.mem_cons, List.mem_cons,
    List.mem_singleton] at hpattern
  rcases hpattern with rfl | rfl | rfl | rfl | rfl
  · have hsplit : standardPattern tables =
        (character (codePoint '[') :: numberGroup tables :: character (codePoint ' ') ::
          word tables :: (literal (text " compressed to ") ++ numberGroup tables ::
            literal (text ". Retrieve more: hash="))) ++ [hashGroup 24 24, character (codePoint ']')] := by
      simp only [standardPattern, List.cons_append, List.append_assoc]
    rw [hsplit]
    exact not_spelled_hash_of_code hwell (by decide) htaken
  · have hsplit : legacyPattern tables =
        (character (codePoint '[') :: numberGroup tables :: character (codePoint ' ') ::
          word tables :: literal (text " compressed. hash=")) ++
            [hashGroup 24 24, character (codePoint ']')] := by
      simp only [legacyPattern, List.cons_append]
    rw [hsplit]
    exact not_spelled_hash_of_code hwell (by decide) htaken
  · have hsplit : genericPattern =
        (character (codePoint '[') :: anything ::
          (literalIgnoringCase (text "compressed") ++ anything ::
            literalIgnoringCase (text "hash="))) ++
              [.run isHex 24 (some 24) true true, character (codePoint ']')] := by
      simp only [genericPattern, List.cons_append, List.append_assoc]
    rw [hsplit]
    exact not_spelled_hash_of_code hwell (by decide) htaken
  · intro hspelled
    exact hless (htaken.mem (mem_of_spelled_character
      (List.mem_append_left _ (character_mem_literal (by decide))) hspelled))
  · exact not_spelled_original_of_code hwell htaken

/-- A pointer that no pattern is for is not found where it stands alone. -/
theorem Pointer.not_mem_foundHashes (hwell : pointer.WellFormed)
    (hrecognised : ¬pointer.IsRecognised) : pointer.hash ∉ foundHashes tables pointer.render := by
  have habsent {lead hash : Text} (hlead : lead.all fun char => char ∉ text "pP<v")
      (hhex : ∀ char ∈ hash, isLowerHex char = true) :
      foundHashes tables (lead ++ hash ++ text "]") = [] := by
    refine foundHashes_eq_nil_of_absent fun char hchar => ?_
    have hletter : ((text "pP<v").all fun char => !isLowerHex char && char != codePoint ']') =
        true := by
      decide
    have hletter := List.all_eq_true.mp hletter char hchar
    rw [Bool.and_eq_true, Bool.not_eq_true', bne_iff_ne] at hletter
    rw [List.mem_append, List.mem_append, not_or, not_or]
    exact ⟨⟨fun hmem => of_decide_eq_true (List.all_eq_true.mp hlead char hmem) hchar,
      not_mem_of_hex hhex hletter.1⟩, fun hmem => hletter.2 (List.mem_singleton.mp hmem)⟩
  have hnil : foundHashes tables pointer.render = [] := by
    cases pointer with
    | code tokens minutes summary hash => exact foundHashes_code hwell
    | diffNoise hash => exact habsent (by decide) hwell.1
    | jsonOffload hash => exact habsent (by decide) hwell.1
    | _ => exact absurd trivial hrecognised
  rw [hnil]
  exact List.not_mem_nil

/-! ## Calls with a hash -/

/-- A call of the retrieval tool with a hash, as each provider writes it. -/
inductive Carries (format : FloatFormat) (hash : Text) : Provider → Value → Prop
  | anthropic (call input : Value) (hname : call.get (text "name") = some (.str ccrToolName))
      (hinput : call.get (text "input") = some input)
      (hhash : input.get (text "hash") = some (.str hash)) : Carries format hash .anthropic call
  | openai (call function input : Value) (arguments : Text)
      (hfunction : call.get (text "function") = some function)
      (hname : function.get (text "name") = some (.str ccrToolName))
      (harguments : function.get (text "arguments") = some (.str arguments))
      (hinput : loadJson format arguments = .ok input)
      (hhash : input.get (text "hash") = some (.str hash)) : Carries format hash .openai call
  | google (call function input : Value)
      (hfunction : call.get (text "functionCall") = some function)
      (hname : function.get (text "name") = some (.str ccrToolName))
      (hinput : function.get (text "args") = some input)
      (hhash : input.get (text "hash") = some (.str hash)) : Carries format hash .google call
  | openaiResponses (call input : Value) (arguments : Text)
      (hname : call.get (text "name") = some (.str ccrToolName))
      (harguments : call.get (text "arguments") = some (.str arguments))
      (hinput : loadJson format arguments = .ok input)
      (hhash : input.get (text "hash") = some (.str hash)) :
      Carries format hash .openaiResponses call
  | other (call input : Value) (hname : call.get (text "name") = some (.str ccrToolName))
      (hinput : call.get (text "input") = some input)
      (hhash : input.get (text "hash") = some (.str hash)) : Carries format hash .other call

variable {format : FloatFormat}

theorem orElse_of_get {value found : Value} {key : Text} (hfound : value.get key = some found)
    (default : Value) : value.orElse default = value := by
  refine if_pos ?_
  cases value with
  | dict entries =>
      cases entries with
      | nil => cases hfound
      | cons entry entries => rfl
  | _ => cases hfound

theorem loadArguments_eq {arguments : Text} {input : Value}
    (hinput : loadJson format arguments = .ok input) :
    loadArguments format (.str arguments) = some input := by
  rw [loadArguments, hinput]

variable {provider : Provider} {call : Value}

theorem nameAndInput_of_carries (hcarries : Carries format hash provider call) :
    ∃ input, nameAndInput format provider call = some (.str ccrToolName, input) ∧
      input.get (text "hash") = some (.str hash) := by
  cases hcarries with
  | anthropic call input hname hinput hhash =>
      refine ⟨input, ?_, hhash⟩
      rw [nameAndInput, getOr_eq_of_get hname, getOr_eq_of_get hinput]
      rfl
  | openai call function input arguments hfunction hname harguments hinput hhash =>
      refine ⟨input, ?_, hhash⟩
      rw [nameAndInput, getOr_eq_of_get hfunction, Option.bind_eq_bind, Option.bind_some,
        orElse_of_get hname]
      dsimp only
      rw [getOr_eq_of_get hname, getOr_eq_of_get harguments, Option.bind_some,
        Option.bind_some, loadArguments_eq hinput]
      rfl
  | google call function input hfunction hname hinput hhash =>
      refine ⟨input, ?_, hhash⟩
      rw [nameAndInput, getOr_eq_of_get hfunction, Option.bind_eq_bind, Option.bind_some,
        orElse_of_get hname]
      dsimp only
      rw [getOr_eq_of_get hname, getOr_eq_of_get hinput]
      rfl
  | openaiResponses call input arguments hname harguments hinput hhash =>
      refine ⟨input, ?_, hhash⟩
      rw [nameAndInput, getOr_eq_of_get hname, getOr_eq_of_get harguments, Option.bind_eq_bind,
        Option.bind_some, Option.bind_some, loadArguments_eq hinput]
      rfl
  | other call input hname hinput hhash =>
      refine ⟨input, ?_, hhash⟩
      rw [nameAndInput, getOr_eq_of_get hname,
        Value.getOr_of_isDict (Value.isDict_of_get hname) (text "args"), Option.bind_eq_bind,
        Option.bind_some, Option.bind_some, getOr_eq_of_get hinput]
      rfl

theorem parseToolCall_of_carries (hcarries : Carries format hash provider call) :
    parseToolCall format provider call = some (validHash (.str hash)) := by
  obtain ⟨input, hread, hhash⟩ := nameAndInput_of_carries hcarries
  have hname : (Value.str ccrToolName).isText ccrToolName = true := beq_self_eq_true ccrToolName
  rw [parseToolCall, hread, Option.bind_eq_bind, Option.bind_some]
  dsimp only
  rw [if_pos hname, hhash]
  rfl

theorem asciiLower_of_hex (hhex : ∀ char ∈ hash, isLowerHex char = true) :
    asciiLower hash = hash := by
  have hmap : hash.map (fun char => if 0x41 ≤ char ∧ char ≤ 0x5A then char + 0x20 else char) =
      hash.map id := by
    refine List.map_congr_left fun char hchar => if_neg fun hupper => ?_
    have hrange := isLowerHex_iff.mp (hhex char hchar)
    have hleast : 0x41 ≤ char.val := hupper.1
    have hmost : char.val ≤ 0x5A := hupper.2
    omega
  rw [asciiLower, hmap, List.map_id]

/-- A hash is returned as it is if and only if it has a length that hashes have and no digit in
upper case. -/
theorem validHash_eq_some_iff :
    validHash (.str hash) = some hash ↔
      (hash.length = 12 ∨ hash.length = 24) ∧ ∀ char ∈ hash, isLowerHex char = true := by
  simp only [validHash]
  split_ifs with hvalid
  · rw [Bool.and_eq_true, Bool.or_eq_true, beq_iff_eq, beq_iff_eq] at hvalid
    refine ⟨fun heq => ⟨hvalid.1, ?_⟩, fun hhash => congrArg some (asciiLower_of_hex hhash.2)⟩
    have hlower := List.all_eq_true.mp hvalid.2
    rwa [Option.some_inj.mp heq] at hlower
  · refine ⟨nofun, fun hhash => absurd ?_ hvalid⟩
    rw [asciiLower_of_hex hhash.2, Bool.and_eq_true, Bool.or_eq_true, beq_iff_eq, beq_iff_eq]
    exact ⟨hhash.1, List.all_eq_true.mpr hhash.2⟩

theorem parseToolCall_eq_iff (hcarries : Carries format hash provider call) :
    parseToolCall format provider call = some (some hash) ↔
      (hash.length = 12 ∨ hash.length = 24) ∧ ∀ char ∈ hash, isLowerHex char = true := by
  rw [parseToolCall_of_carries hcarries, Option.some_inj, validHash_eq_some_iff]

theorem Pointer.hash_ne_nil (hwell : pointer.WellFormed) : pointer.hash ≠ [] := by
  have hlength := hwell.2
  refine List.ne_nil_of_length_pos ?_
  cases pointer with
  | code tokens minutes summary hash => exact Nat.lt_of_lt_of_eq (by decide) hlength.1.symm
  | counted what before after hash => exact Nat.lt_of_lt_of_eq (by decide) hlength.symm
  | diffNoise hash => exact Nat.lt_of_lt_of_eq (by decide) hlength.symm
  | jsonOffload hash => exact Nat.lt_of_lt_of_eq (by decide) hlength.symm
  | _ => exact Nat.lt_of_lt_of_le (by decide) (bounds_of_length hlength).1

/-- A message with nothing but a text. -/
def plainMessage (shown : Text) : Value := .dict [(text "content", .str shown)]

theorem supported_plainMessage (shown : Text) : Supported (plainMessage shown) :=
  ⟨rfl, fun _ hblocks => absurd hblocks nofun, fun _ hparts => absurd hparts nofun⟩

theorem scannedTexts_plainMessage (shown : Text) :
    scannedTexts (plainMessage shown) = some [shown] := rfl

/-- A pointer is reported from every conversation that shows it if and only if one of the patterns
is for it, and a call with a hash gives the hash back if and only if the hash is in lower case and
of one of the two lengths. -/
theorem pointers_redeemable (tables : PatternTables) (format : FloatFormat) :
    (∀ pointer : Pointer, pointer.WellFormed →
      ((∀ messages : List Value, (∀ message ∈ messages, Supported message) →
          ∀ message ∈ messages, ∀ shown, Shows message shown → pointer.render <:+: shown →
            ∃ detected, scanForMarkers tables messages = some detected ∧
              pointer.hash ∈ detected) ↔
        pointer.IsRecognised)) ∧
    ∀ provider call hash, Carries format hash provider call →
      (parseToolCall format provider call = some (some hash) ↔
        (hash.length = 12 ∨ hash.length = 24) ∧ ∀ char ∈ hash, isLowerHex char = true) := by
  refine ⟨fun pointer hwell => ⟨fun hreported => ?_, ?_⟩,
    fun provider call hash hcarries => parseToolCall_eq_iff hcarries⟩
  · by_contra hrecognised
    have hmem : plainMessage pointer.render ∈ [plainMessage pointer.render] := List.mem_cons_self
    obtain ⟨detected, hscan, hdetected⟩ := hreported [plainMessage pointer.render]
      (List.forall_mem_singleton.mpr (supported_plainMessage _)) _ hmem pointer.render
      (.content rfl) List.infix_rfl
    obtain ⟨message, hmessage, texts, htexts, shown, hshown, hfound, -⟩ :=
      (mem_scanForMarkers hscan).mp hdetected
    rw [List.mem_singleton.mp hmessage, scannedTexts_plainMessage] at htexts
    rw [← Option.some_inj.mp htexts] at hshown
    rw [List.mem_singleton.mp hshown] at hfound
    exact Pointer.not_mem_foundHashes hwell hrecognised hfound
  · intro hrecognised messages hsupported message hmessage shown hshows hshown
    exact exists_scanForMarkers hsupported hmessage hshows
      (Pointer.mem_foundHashes hwell hrecognised hshown) (Pointer.hash_ne_nil hwell)

/-- A format for floating-point numbers that are not used. -/
def anyFormat : FloatFormat := ⟨fun _ => [], fun _ => .int 0⟩

def shortHash : Text := text "0123456789ab"

def retrievalCall (hash : Text) : Value :=
  .dict [(text "name", .str ccrToolName), (text "input", .dict [(text "hash", .str hash)])]

/-- A pointer of the live zone in a message, and a call with its hash. -/
theorem pointers_redeemable_live_zone :
    (∃ detected, scanForMarkers asciiPatternTables
        [plainMessage (Pointer.liveZone shortHash).render] = some detected ∧
      shortHash ∈ detected) ∧
    parseToolCall anyFormat .anthropic (retrievalCall shortHash) = some (some shortHash) := by
  have hwell : (Pointer.liveZone shortHash).WellFormed :=
    ⟨List.all_eq_true.mp (by decide), Or.inl (by decide)⟩
  obtain ⟨hscan, hparse⟩ := pointers_redeemable asciiPatternTables anyFormat
  constructor
  · exact (hscan _ hwell).mpr trivial [plainMessage (Pointer.liveZone shortHash).render]
      (List.forall_mem_singleton.mpr (supported_plainMessage _)) _ List.mem_cons_self _
      (.content rfl) List.infix_rfl
  · exact (hparse .anthropic _ shortHash (.anthropic _ _ rfl rfl rfl)).mpr
      ⟨Or.inl (by decide), hwell.1⟩

/-- A hash of an offload is not reported, and a hash of sixteen digits is reported but not taken
back. -/
theorem offload_not_reported :
    (Pointer.diffNoise (text "0123456789abcdef01234567")).WellFormed ∧
    scanForMarkers asciiPatternTables
      [plainMessage (Pointer.diffNoise (text "0123456789abcdef01234567")).render] = some [] ∧
    scanForMarkers asciiPatternTables [plainMessage (text "<<ccr:0123456789abcdef>>")] =
      some [text "0123456789abcdef"] ∧
    Carries anyFormat (text "0123456789abcdef") .anthropic
      (retrievalCall (text "0123456789abcdef")) ∧
    parseToolCall anyFormat .anthropic (retrievalCall (text "0123456789abcdef")) = some none := by
  refine ⟨⟨List.all_eq_true.mp (by decide), by decide⟩, ?_, ?_, .anthropic _ _ rfl rfl rfl, ?_⟩
  · decide +kernel
  · decide +kernel
  · decide +kernel

end

end Legroom.Ccr
