import Legroom.Lib.SplitOn
import Legroom.Transforms.LosslessCompaction

/-!
# Encodings that are undone

Runs, repeated blocks, search results and path lists are encoded line by line.  A text
without lines that look like a marker or a heading of its encoding is decoded to itself.
-/

namespace Legroom.LosslessCompaction

open Python

/-! ## Lines of a text -/

/-- The lines of a text that is not empty: the last one is empty only if it is ended. -/
structure Layout (lines : List Text) (hadTrailing : Bool) : Prop where
  nonempty : lines ≠ []
  noNewline : ∀ line ∈ lines, newline ∉ line
  last : hadTrailing = false → lines.getLast? ≠ some []

variable {lines : List Text}

theorem getLast?_joinLines (hlast : lines.getLast? ≠ some []) :
    (joinLines lines).getLast? = lines.getLast?.bind List.getLast? := by
  rcases List.eq_nil_or_concat' lines with rfl | ⟨init, line, rfl⟩
  · rfl
  · rw [List.getLast?_concat] at hlast ⊢
    have hline : line ≠ [] := fun hnil => hlast (by rw [hnil])
    rw [Option.bind_some, joinLines]
    rcases eq_or_ne init [] with rfl | hinit
    · rw [List.nil_append, List.intercalate_singleton]
    · rw [intercalate_append newline hinit (List.cons_ne_nil _ _),
        List.intercalate_singleton, List.getLast?_append_of_ne_nil _ (List.cons_ne_nil _ _),
        List.getLast?_cons_of_ne_nil hline]

theorem layout_splitKeepTrailing {content : Text} (hcontent : content ≠ []) :
    Layout (splitKeepTrailing content).1 (splitKeepTrailing content).2 := by
  rw [splitKeepTrailing, if_neg hcontent]
  split_ifs with htrailing
  · exact ⟨List.splitOn_ne_nil newline _, fun line => newline_not_mem_splitLines,
      fun hfalse => nomatch hfalse⟩
  · refine ⟨List.splitOn_ne_nil newline _, fun line => newline_not_mem_splitLines,
      fun _ hlast => ?_⟩
    obtain ⟨init, hinit⟩ := List.getLast?_eq_some_iff.mp hlast
    have hjoined := joinLines_splitLines content
    rw [show splitLines content = init ++ [[]] from hinit, joinLines] at hjoined
    rcases eq_or_ne init [] with rfl | hne
    · exact hcontent hjoined.symm
    · rw [intercalate_append newline hne (List.cons_ne_nil _ _)] at hjoined
      refine htrailing ?_
      rw [← hjoined]
      exact List.getLast?_concat

theorem join_splitKeepTrailing (content : Text) :
    join (splitKeepTrailing content).1 (splitKeepTrailing content).2 = content := by
  rw [splitKeepTrailing]
  split_ifs with hnil htrailing
  · exact hnil.symm
  · obtain ⟨init, hinit⟩ := List.getLast?_eq_some_iff.mp htrailing
    rw [hinit, List.dropLast_concat, join, joinLines_splitLines]
    rfl
  · rw [join, joinLines_splitLines]
    exact List.append_nil content

theorem splitKeepTrailing_join {hadTrailing : Bool} (hlayout : Layout lines hadTrailing) :
    splitKeepTrailing (join lines hadTrailing) = (lines, hadTrailing) := by
  have hlines := splitLines_joinLines hlayout.noNewline hlayout.nonempty
  rw [splitKeepTrailing]
  cases hadTrailing with
  | true =>
      have hjoin : join lines true = joinLines lines ++ [newline] := rfl
      rw [hjoin, if_neg (List.append_ne_nil_of_right_ne_nil _ (List.cons_ne_nil _ _)),
        List.getLast?_concat, if_pos rfl, List.dropLast_concat, hlines]
  | false =>
      have hjoin : join lines false = joinLines lines := List.append_nil _
      have hlast := getLast?_joinLines (hlayout.last rfl)
      obtain ⟨init, line, rfl⟩ := (List.eq_nil_or_concat' lines).resolve_left hlayout.nonempty
      have hne : line ≠ [] := fun hnil => hlayout.last rfl (by rw [List.getLast?_concat, hnil])
      rw [List.getLast?_concat, Option.bind_some] at hlast
      have hnewline : line.getLast? ≠ some newline := fun hnewline =>
        hlayout.noNewline line (by simp) (List.mem_of_getLast? hnewline)
      rw [hjoin, if_neg, hlast, if_neg hnewline, hlines]
      intro hnil
      rw [hnil] at hlast
      exact hne (List.getLast?_eq_none_iff.mp hlast.symm)

/-- A text that is decoded line by line. -/
theorem decoded_join {decode : List Text → Option (List Text)} {content : Text} {out : List Text}
    (hlayout : Layout out (splitKeepTrailing content).2)
    (hdecode : decode out = some (splitKeepTrailing content).1) :
    (let (lines, hadTrailing) := splitKeepTrailing (join out (splitKeepTrailing content).2);
      if lines = [] then some (join out (splitKeepTrailing content).2)
      else (decode lines).map (join · hadTrailing)) = some content := by
  simp only [splitKeepTrailing_join hlayout, if_neg hlayout.nonempty, hdecode, Option.map_some,
    join_splitKeepTrailing]

/-! ## Numbers in markers -/

/-- The digits that `str` writes are read back, and a blank is none of them. -/
structure WritesDecimals (tables : CharTables) : Prop where
  digit (char : Char) (hdigit : char.isDigit = true) :
    tables.decimal (codePoint char) = some (char.toNat - '0'.toNat)
  blank : tables.decimal (codePoint ' ') = none

section

variable {tables : CharTables}
variable {value : ℕ}

theorem isDecimal_of_mem_decimalText (hwrites : WritesDecimals tables) {char : CodePoint}
    (hchar : char ∈ decimalText value) : isDecimal tables char = true := by
  obtain ⟨digit, hdigit, rfl⟩ := List.mem_map.mp hchar
  rw [isDecimal, hwrites.digit digit (Nat.isDigit_of_mem_toDigits (by decide) (by decide) hdigit)]
  rfl

theorem foldl_decimalText (hwrites : WritesDecimals tables) (value : ℕ) :
    (decimalText value).foldl (fun number digit => 10 * number + (tables.decimal digit).getD 0) 0 =
      value := by
  rw [decimalText, List.foldl_map]
  refine Eq.trans ?_ (Nat.ofDigitChars_ten_toDigits (n := value))
  rw [Nat.ofDigitChars]
  refine List.foldl_ext _ _ _ fun number digit hdigit => ?_
  rw [hwrites.digit digit (Nat.isDigit_of_mem_toDigits (by decide) (by decide) hdigit)]
  rfl

theorem parseInt_intText (hwrites : WritesDecimals tables) {digits : Text}
    (hdigits : intText value = some digits) :
    parseInt tables digits = some value ∧ digits = decimalText value := by
  rw [intText] at hdigits
  split_ifs at hdigits with hlong hnegative
  · exact absurd hnegative (Int.not_lt.mpr (Int.natCast_nonneg value))
  · rw [Option.some.injEq, Int.natAbs_natCast] at hdigits
    rw [Int.natAbs_natCast] at hlong
    rw [← hdigits, parseInt, if_neg hlong, foldl_decimalText hwrites]
    exact ⟨rfl, rfl⟩

/-- Digits in front of a blank are read up to it. -/
theorem readDigits_decimalText (hwrites : WritesDecimals tables) (value : ℕ) (rest : Text) :
    readDigits tables (decimalText value ++ codePoint ' ' :: rest) =
      some (decimalText value, codePoint ' ' :: rest) := by
  have hblank : isDecimal tables (codePoint ' ') = false := by
    rw [isDecimal, hwrites.blank]
    rfl
  have htake : (decimalText value ++ codePoint ' ' :: rest).takeWhile (isDecimal tables) =
      decimalText value := by
    rw [List.takeWhile_append_of_pos fun char => isDecimal_of_mem_decimalText hwrites,
      List.takeWhile_cons_of_neg (by rw [hblank]; exact Bool.false_ne_true), List.append_nil]
  rw [readDigits, htake, if_neg (decimalText_ne_nil value), List.drop_left]

/-! ## Runs of one line -/

theorem dropPrefix?_append (begins rest : Text) : (begins ++ rest).dropPrefix? begins = some rest :=
  List.dropPrefix?_eq_some_iff.mpr ⟨begins, rfl, BEq.rfl⟩

theorem readRunMarker_runMarker (hwrites : WritesDecimals tables) (value : ℕ) :
    readRunMarker tables (runMarker (decimalText value)) = some (decimalText value) := by
  have hread := readDigits_decimalText hwrites value (text "times)")
  rw [readRunMarker, runMarker, List.append_assoc, dropPrefix?_append]
  change (readDigits tables (decimalText value ++ codePoint ' ' :: text "times)")).bind _ = _
  rw [hread]
  rfl

variable {line : Text} {count : ℕ} {out : List Text}

/-- What stands for a run: the line, and a marker from two of them on. -/
theorem emitRun_cases (hwrites : WritesDecimals tables) (hout : emitRun line count = some out) :
    (count < 2 ∧ out = [line]) ∨
      (2 ≤ count ∧ out = [line, runMarker (decimalText count)] ∧
        parseInt tables (decimalText count) = some count) := by
  rw [emitRun] at hout
  split_ifs at hout with hcount
  · obtain ⟨digits, hdigits, rfl⟩ := Option.map_eq_some_iff.mp hout
    obtain ⟨hparse, rfl⟩ := parseInt_intText hwrites hdigits
    exact .inr ⟨hcount, rfl, hparse⟩
  · exact .inl ⟨not_le.mp hcount, (Option.some.inj hout).symm⟩

/-- A run in front of lines that begin without a marker. -/
theorem expandLines_emitRun (hwrites : WritesDecimals tables) {line : Text} {count : ℕ}
    {out more : List Text} (hpos : 1 ≤ count) (hout : emitRun line count = some out)
    (hmore : ∀ next ∈ more.head?, readRunMarker tables next = none) :
    expandLines tables (out ++ more) =
      (expandLines tables more).map (List.replicate count line ++ ·) := by
  rcases emitRun_cases hwrites hout with ⟨hcount, rfl⟩ | ⟨hcount, rfl, hparse⟩
  · obtain rfl : count = 1 := by omega
    cases more with
    | nil => rfl
    | cons next rest =>
        rw [List.cons_append, List.nil_append, expandLines, hmore next rfl]
        rfl
  · rw [List.cons_append, List.cons_append, List.nil_append, expandLines,
      readRunMarker_runMarker hwrites]
    simp only [hparse, bind, pure]
    cases expandLines tables more <;> rfl

/-- The lines that a run of `count` lines and more lines are collapsed to. -/
inductive Collapsed (tables : CharTables) : Text → ℕ → List Text → List Text → Prop where
  | last {line : Text} {count : ℕ} {out : List Text} (hout : emitRun line count = some out) :
      Collapsed tables line count [] out
  | longer {line : Text} {count : ℕ} {rest out : List Text}
      (hmore : Collapsed tables line (count + 1) rest out) :
      Collapsed tables line count (line :: rest) out
  | next {line next : Text} {count : ℕ} {rest out more : List Text}
      (hout : emitRun line count = some out) (hmore : Collapsed tables next 1 rest more) :
      Collapsed tables line count (next :: rest) (out ++ more)

variable {rest : List Text}

theorem collapsed_of_collapseFrom (tables : CharTables)
    (hout : collapseFrom line count rest = some out) : Collapsed tables line count rest out := by
  induction rest generalizing line count out with
  | nil => exact .last hout
  | cons next rest ih =>
      rw [collapseFrom] at hout
      split_ifs at hout with hnext
      · rw [hnext]
        exact .longer (ih hout)
      · obtain ⟨emitted, hemitted, hout⟩ := Option.bind_eq_some_iff.mp hout
        obtain ⟨more, hmore, hout⟩ := Option.bind_eq_some_iff.mp hout
        rw [← Option.some.inj hout]
        exact .next hemitted (ih hmore)

namespace Collapsed

variable {line : Text} {count : ℕ} {rest out : List Text}

theorem head? (hwrites : WritesDecimals tables) (hout : Collapsed tables line count rest out) :
    out.head? = some line := by
  induction hout with
  | last hout => rcases emitRun_cases hwrites hout with ⟨-, rfl⟩ | ⟨-, rfl, -⟩ <;> rfl
  | longer _ ih => exact ih
  | next hout _ _ => rcases emitRun_cases hwrites hout with ⟨-, rfl⟩ | ⟨-, rfl, -⟩ <;> rfl

theorem expandLines_eq (hwrites : WritesDecimals tables) (hpos : 1 ≤ count)
    (hout : Collapsed tables line count rest out)
    (hplain : ∀ other ∈ rest, readRunMarker tables other = none) :
    expandLines tables out = some (List.replicate count line ++ rest) := by
  induction hout with
  | last hout =>
      have hexpand := @expandLines_emitRun tables hwrites _ _ _ [] hpos hout
        fun next hnext => nomatch hnext
      rwa [List.append_nil] at hexpand
  | longer _ ih =>
      rw [ih (Nat.le_add_left 1 _) fun other hother => hplain other (List.mem_cons_of_mem _ hother),
        List.replicate_succ', List.append_assoc]
      rfl
  | @next line next count rest out more hout hmore ih =>
      have hfirst : ∀ other ∈ more.head?, readRunMarker tables other = none := by
        rw [hmore.head? hwrites]
        rintro other ⟨⟩
        exact hplain _ List.mem_cons_self
      rw [expandLines_emitRun hwrites hpos hout hfirst,
        ih le_rfl fun other hother => hplain other (List.mem_cons_of_mem _ hother)]
      rfl

theorem mem (hwrites : WritesDecimals tables) (hout : Collapsed tables line count rest out)
    {other : Text} (hother : other ∈ out) :
    other ∈ line :: rest ∨ ∃ value, other = runMarker (decimalText value) := by
  induction hout with
  | last hout =>
      rcases emitRun_cases hwrites hout with ⟨-, rfl⟩ | ⟨-, rfl, -⟩
      · exact .inl hother
      · rcases List.mem_pair.mp hother with rfl | rfl
        · exact .inl List.mem_cons_self
        · exact .inr ⟨_, rfl⟩
  | longer _ ih => exact (ih hother).imp_left (List.mem_cons_of_mem _)
  | next hout _ ih =>
      rcases List.mem_append.mp hother with hother | hother
      · rcases emitRun_cases hwrites hout with ⟨-, rfl⟩ | ⟨-, rfl, -⟩
        · exact .inl (List.mem_cons.mpr (.inl (List.mem_singleton.mp hother)))
        · rcases List.mem_pair.mp hother with rfl | rfl
          · exact .inl List.mem_cons_self
          · exact .inr ⟨_, rfl⟩
      · exact (ih hother).imp_left (List.mem_cons_of_mem _)

theorem getLast? (hwrites : WritesDecimals tables) (hout : Collapsed tables line count rest out)
    (hlast : out.getLast? = some []) : (line :: rest).getLast? = some [] := by
  have hmarker : ∀ value, runMarker (decimalText value) ≠ [] := fun value hnil =>
    absurd (List.append_eq_nil_iff.mp hnil).2 (by decide)
  have hrun : ∀ {line count out}, emitRun line count = some out → out.getLast? = some [] →
      line = [] := by
    intro line count out hout hlast
    rcases emitRun_cases hwrites hout with ⟨-, rfl⟩ | ⟨-, rfl, -⟩
    · exact Option.some.inj hlast
    · exact absurd (Option.some.inj hlast) (hmarker _)
  induction hout with
  | last hout => rw [hrun hout hlast, List.getLast?_singleton]
  | longer _ ih => rw [List.getLast?_cons_cons, ih hlast]
  | @next line next count rest out more hout hmore ih =>
      have hne : more ≠ [] := by
        rintro rfl
        exact nomatch hmore.head? hwrites
      rw [List.getLast?_append_of_ne_nil _ hne] at hlast
      rw [List.getLast?_cons_cons, ih hlast]

end Collapsed

/-! ## Repeated blocks -/

theorem commonLength_spec (limit : ℕ) (left right : List Text) :
    commonLength limit left right ≤ limit ∧
      left.take (commonLength limit left right) = right.take (commonLength limit left right) ∧
        commonLength limit left right ≤ right.length := by
  induction limit generalizing left right with
  | zero => exact ⟨le_rfl, rfl, Nat.zero_le _⟩
  | succ limit ih =>
      cases left with
      | nil => exact ⟨Nat.zero_le _, rfl, Nat.zero_le _⟩
      | cons first left =>
          cases right with
          | nil => exact ⟨Nat.zero_le _, rfl, Nat.zero_le _⟩
          | cons second right =>
              rw [commonLength]
              split_ifs with heq
              · obtain ⟨hlimit, htake, hlength⟩ := ih left right
                rw [List.take_succ_cons, List.take_succ_cons, htake, heq]
                exact ⟨Nat.succ_le_succ hlimit, rfl, Nat.succ_le_succ hlength⟩
              · exact ⟨Nat.zero_le _, rfl, Nat.zero_le _⟩

/-- The block at an index, and a block before it that has the same lines. -/
structure Repeats (lines : List Text) (index length distance : ℕ) : Prop where
  before : distance ≤ index
  apart : length ≤ distance
  inside : length ≤ (lines.drop index).length
  same : (lines.drop (index - distance)).take length = (lines.drop index).take length

theorem repeats_bestBlock (lines : List Text) (positions : List ℕ) (index : ℕ) :
    Repeats lines index (bestBlock lines positions index).1
      (bestBlock lines positions index).2 := by
  rw [bestBlock]
  refine List.foldlRecOn (motive := fun best : ℕ × ℕ => Repeats lines index best.1 best.2)
    positions.reverse _ ⟨Nat.zero_le _, le_rfl, Nat.zero_le _, rfl⟩ fun best hbest position _ => ?_
  obtain ⟨hlimit, hsame, hinside⟩ := commonLength_spec
    (min foldMaxBlock (min (lines.length - index) (index - position))) (lines.drop position)
      (lines.drop index)
  dsimp only
  split_ifs with hbetter
  · have hapart := hlimit.trans ((min_le_right _ _).trans (min_le_right _ _))
    refine ⟨Nat.sub_le _ _, hapart, hinside, ?_⟩
    have hback : index - (index - position) = position := by
      have hpos := hbetter.trans_le hapart
      omega
    rw [hback]
    exact hsame
  · exact hbest

/-- A block is left as it is, or its marker is written. -/
theorem blockFold_cases (hwrites : WritesDecimals tables) {block : List Text} {distance : ℕ}
    {folded : Option Text} (hfolded : blockFold block distance = some folded) :
    folded = none ∨
      (folded = some (blockMarker (decimalText block.length) (decimalText distance)) ∧
        parseInt tables (decimalText block.length) = some block.length ∧
          parseInt tables (decimalText distance) = some distance) := by
  rw [blockFold] at hfolded
  split_ifs at hfolded with hlong
  · obtain ⟨length, hlength, hfolded⟩ := Option.bind_eq_some_iff.mp hfolded
    obtain ⟨back, hback, hfolded⟩ := Option.bind_eq_some_iff.mp hfolded
    obtain ⟨hparse, rfl⟩ := parseInt_intText hwrites hlength
    obtain ⟨hparse', rfl⟩ := parseInt_intText hwrites hback
    rw [← Option.some.inj hfolded]
    split_ifs
    · exact .inr ⟨rfl, hparse, hparse'⟩
    · exact .inl rfl
  · exact .inl (Option.some.inj hfolded).symm

theorem readBlockMarker_blockMarker (hwrites : WritesDecimals tables) (length distance : ℕ) :
    readBlockMarker tables (blockMarker (decimalText length) (decimalText distance)) =
      some (decimalText length, decimalText distance) := by
  have hlength := readDigits_decimalText hwrites length
    (text "lines from " ++ (decimalText distance ++ text " lines back)"))
  have hdistance := readDigits_decimalText hwrites distance (text "lines back)")
  rw [readBlockMarker, blockMarker, List.append_assoc, List.append_assoc, List.append_assoc,
    dropPrefix?_append]
  change (readDigits tables (decimalText length ++ codePoint ' ' ::
    (text "lines from " ++ (decimalText distance ++ text " lines back)")))).bind _ = _
  rw [hlength, Option.bind_some]
  change ((text " lines from " ++ (decimalText distance ++ text " lines back)")).dropPrefix?
    (text " lines from ")).bind _ = _
  rw [dropPrefix?_append, Option.bind_some]
  change (readDigits tables (decimalText distance ++ codePoint ' ' :: text "lines back)")).bind _ =
    _
  rw [hdistance]
  rfl

variable {lines : List Text}

theorem unfoldLines_plain (hplain : ∀ line ∈ lines, readBlockMarker tables line = none) :
    unfoldLines tables out lines = some (out ++ lines) := by
  induction lines generalizing out with
  | nil => rw [unfoldLines, List.append_nil]
  | cons line rest ih =>
      rw [unfoldLines, hplain line List.mem_cons_self]
      dsimp only
      rw [ih fun other hother => hplain other (List.mem_cons_of_mem _ hother), List.append_assoc]
      rfl

/-- A marker in the state that its block was folded in. -/
theorem unfoldLines_blockMarker (hwrites : WritesDecimals tables) {index length distance : ℕ}
    (hindex : index ≤ lines.length) (hrepeats : Repeats lines index length distance)
    (hlength : parseInt tables (decimalText length) = some length)
    (hdistance : parseInt tables (decimalText distance) = some distance) :
    unfoldLines tables (lines.take index)
        (blockMarker (decimalText length) (decimalText distance) :: rest) =
      unfoldLines tables (lines.take (index + length)) rest := by
  have hbefore := hrepeats.before
  have hapart := hrepeats.apart
  have hcopied : ((lines.take index).drop (index - distance)).take length =
      (lines.drop index).take length := by
    rw [List.drop_take, List.take_take, min_eq_left (by omega), hrepeats.same]
  rw [unfoldLines, readBlockMarker_blockMarker hwrites]
  simp only [hlength, hdistance, bind, Option.bind_some, List.length_take, min_eq_left hindex]
  rw [if_pos ⟨hbefore, hapart⟩, hcopied, ← List.take_add]

/-- One step of folding: a marker for the block, or the line. -/
theorem foldFrom_cases (hwrites : WritesDecimals tables) {fuel index : ℕ} {positions : Positions}
    (hdrop : lines.drop index = line :: rest)
    (hout : foldFrom lines (fuel + 1) index positions = some out) :
    (∃ more next, foldFrom lines fuel (index + 1) next = some more ∧ out = line :: more) ∨
      ∃ length distance more next, Repeats lines index length distance ∧ 0 < length ∧
        parseInt tables (decimalText length) = some length ∧
        parseInt tables (decimalText distance) = some distance ∧
        foldFrom lines fuel (index + length) next = some more ∧
        out = blockMarker (decimalText length) (decimalText distance) :: more := by
  have hrepeats := repeats_bestBlock lines (positions line) index
  rw [foldFrom, hdrop] at hout
  dsimp only at hout
  generalize bestBlock lines (positions line) index = best at hout hrepeats
  obtain ⟨length, distance⟩ := best
  obtain ⟨folded, hfolded, hout⟩ := Option.bind_eq_some_iff.mp hout
  have hblock : ((line :: rest).take length).length = length := by
    rw [← hdrop, List.length_take, min_eq_left hrepeats.inside]
  have hmin : folded ≠ none → 0 < length := by
    intro hsome
    rw [blockFold, hblock] at hfolded
    split_ifs at hfolded with hlong
    · exact lt_of_lt_of_le (by decide) hlong
    · exact absurd (Option.some.inj hfolded).symm hsome
  rcases blockFold_cases hwrites hfolded with rfl | ⟨rfl, hlength, hdistance⟩
  · obtain ⟨more, hmore, hout⟩ := Option.bind_eq_some_iff.mp hout
    exact .inl ⟨more, _, hmore, (Option.some.inj hout).symm⟩
  · obtain ⟨more, hmore, hout⟩ := Option.bind_eq_some_iff.mp hout
    rw [hblock] at hlength hout
    exact .inr ⟨length, distance, more, _, hrepeats, hmin (Option.some_ne_none _), hlength,
      hdistance, hmore, (Option.some.inj hout).symm⟩

/-- The lines behind an index that are folded are unfolded behind those before it. -/
theorem unfoldLines_foldFrom (hwrites : WritesDecimals tables)
    (hplain : ∀ line ∈ lines, readBlockMarker tables line = none) (fuel index : ℕ)
    (positions : Positions) (hindex : index ≤ lines.length) (hfuel : lines.length ≤ index + fuel)
    (hout : foldFrom lines fuel index positions = some out) :
    unfoldLines tables (lines.take index) out = some lines := by
  induction fuel generalizing index positions out with
  | zero =>
      rw [foldFrom] at hout
      rw [← Option.some.inj hout, unfoldLines, List.take_of_length_le (by omega)]
  | succ fuel ih =>
      cases hdrop : lines.drop index with
      | nil =>
          rw [foldFrom, hdrop] at hout
          rw [← Option.some.inj hout, unfoldLines,
            List.take_of_length_le (List.drop_eq_nil_iff.mp hdrop)]
      | cons line rest =>
          have hlt : index < lines.length := by
            by_contra hlow
            rw [List.drop_of_length_le (not_lt.mp hlow)] at hdrop
            cases hdrop
          rcases foldFrom_cases hwrites hdrop hout with ⟨more, next, hmore, rfl⟩ |
            ⟨length, distance, more, next, hrepeats, hpos, hlength, hdistance, hmore, rfl⟩
          · have htake : lines.take index ++ [line] = lines.take (index + 1) := by
              rw [List.take_add, hdrop, List.take_succ_cons, List.take_zero]
            rw [unfoldLines, hplain line (List.mem_of_mem_drop (hdrop ▸ List.mem_cons_self))]
            dsimp only
            rw [htake]
            exact ih (index + 1) next hlt (by omega) hmore
          · have hinside := hrepeats.inside
            rw [List.length_drop] at hinside
            rw [unfoldLines_blockMarker hwrites hindex hrepeats hlength hdistance]
            exact ih (index + length) next (by omega) (by omega) hmore

theorem mem_foldFrom (hwrites : WritesDecimals tables) (fuel index : ℕ) (positions : Positions)
    (hout : foldFrom lines fuel index positions = some out) {other : Text} (hother : other ∈ out) :
    other ∈ lines ∨ ∃ length distance,
      other = blockMarker (decimalText length) (decimalText distance) := by
  induction fuel generalizing index positions out with
  | zero =>
      rw [foldFrom] at hout
      rw [← Option.some.inj hout] at hother
      exact absurd hother List.not_mem_nil
  | succ fuel ih =>
      cases hdrop : lines.drop index with
      | nil =>
          rw [foldFrom, hdrop] at hout
          rw [← Option.some.inj hout] at hother
          exact absurd hother List.not_mem_nil
      | cons line rest =>
          rcases foldFrom_cases hwrites hdrop hout with ⟨more, next, hmore, rfl⟩ |
            ⟨length, distance, more, next, -, -, -, -, hmore, rfl⟩
          · rcases List.mem_cons.mp hother with rfl | hother
            · exact .inl (List.mem_of_mem_drop (hdrop ▸ List.mem_cons_self))
            · exact ih _ _ hmore hother
          · rcases List.mem_cons.mp hother with rfl | hother
            · exact .inr ⟨length, distance, rfl⟩
            · exact ih _ _ hmore hother

theorem unfoldLines_append (out left right : List Text) :
    unfoldLines tables out (left ++ right) =
      (unfoldLines tables out left).bind fun out => unfoldLines tables out right := by
  induction left generalizing out with
  | nil => rfl
  | cons line left ih =>
      rw [List.cons_append, unfoldLines, unfoldLines]
      cases readBlockMarker tables line with
      | none => exact ih _
      | some found =>
          simp only [bind]
          cases parseInt tables found.1 with
          | none => rfl
          | some length =>
              cases parseInt tables found.2 with
              | none => rfl
              | some distance =>
                  simp only [Option.bind_some]
                  split_ifs <;> exact ih _

/-- An empty line at the end of folded lines is one of the lines. -/
theorem getLast?_of_unfoldLines {unfolded : List Text}
    (hunfolded : unfoldLines tables out lines = some unfolded) (hlast : lines.getLast? = some []) :
    unfolded.getLast? = some [] := by
  obtain ⟨init, rfl⟩ := List.getLast?_eq_some_iff.mp hlast
  rw [unfoldLines_append] at hunfolded
  obtain ⟨middle, -, hunfolded⟩ := Option.bind_eq_some_iff.mp hunfolded
  rw [unfoldLines_plain fun line hline => by rw [List.mem_singleton.mp hline]; rfl] at hunfolded
  rw [← Option.some.inj hunfolded, List.getLast?_concat]

/-! ## Texts of runs and blocks -/

theorem newline_not_mem_runMarker (value : ℕ) : newline ∉ runMarker (decimalText value) := by
  have hwords : newline ∉ text "... (repeated " ∧ newline ∉ text " times)" := by decide
  simp only [runMarker, List.mem_append, not_or]
  exact ⟨⟨hwords.1, newline_not_mem_decimalText value⟩, hwords.2⟩

theorem newline_not_mem_blockMarker (length distance : ℕ) :
    newline ∉ blockMarker (decimalText length) (decimalText distance) := by
  have hwords : newline ∉ text "... (repeats " ∧ newline ∉ text " lines from " ∧
      newline ∉ text " lines back)" := by decide
  simp only [blockMarker, List.mem_append, not_or]
  exact ⟨⟨⟨⟨hwords.1, newline_not_mem_decimalText length⟩, hwords.2.1⟩,
    newline_not_mem_decimalText distance⟩, hwords.2.2⟩

/-- A text without run markers. -/
def RunFree (tables : CharTables) (content : Text) : Prop :=
  ∀ line ∈ (splitKeepTrailing content).1, readRunMarker tables line = none

/-- A text without block markers. -/
def BlockFree (tables : CharTables) (content : Text) : Prop :=
  ∀ line ∈ (splitKeepTrailing content).1, readBlockMarker tables line = none

variable {content folded : Text}

theorem collapseRuns_cases (tables : CharTables) (hfolded : collapseRuns content = some folded) :
    (content = [] ∧ folded = []) ∨ content ≠ [] ∧ ∃ line rest out,
      (splitKeepTrailing content).1 = line :: rest ∧ Collapsed tables line 1 rest out ∧
        folded = join out (splitKeepTrailing content).2 := by
  rw [collapseRuns] at hfolded
  rcases eq_or_ne content [] with rfl | hcontent
  · exact .inl ⟨rfl, (Option.some.inj hfolded).symm⟩
  · obtain ⟨line, rest, hlines⟩ :=
      List.exists_cons_of_ne_nil (layout_splitKeepTrailing hcontent).nonempty
    have hsplit : splitKeepTrailing content = (line :: rest, (splitKeepTrailing content).2) :=
      Prod.ext hlines rfl
    rw [hsplit] at hfolded
    obtain ⟨out, hout, rfl⟩ := Option.map_eq_some_iff.mp hfolded
    exact .inr ⟨hcontent, line, rest, out, hlines, collapsed_of_collapseFrom tables hout, rfl⟩

variable {hadTrailing : Bool}

theorem Collapsed.layout (hwrites : WritesDecimals tables)
    (hlayout : Layout (line :: rest) hadTrailing) (hout : Collapsed tables line 1 rest out) :
    Layout out hadTrailing where
  nonempty := by
    rintro rfl
    exact nomatch hout.head? hwrites
  noNewline other hother := by
    rcases hout.mem hwrites hother with hother | ⟨value, rfl⟩
    · exact hlayout.noNewline other hother
    · exact newline_not_mem_runMarker value
  last hfalse hlast := hlayout.last hfalse (hout.getLast? hwrites hlast)

/-- A text without run markers is expanded to itself after it was collapsed. -/
theorem expandRuns_collapseRuns (hwrites : WritesDecimals tables) (hfree : RunFree tables content)
    (hfolded : collapseRuns content = some folded) : expandRuns tables folded = some content := by
  rcases collapseRuns_cases tables hfolded with ⟨rfl, rfl⟩ |
    ⟨hcontent, line, rest, out, hlines, hout, rfl⟩
  · rfl
  · have hlayout := layout_splitKeepTrailing hcontent
    rw [RunFree, hlines] at hfree
    rw [hlines] at hlayout
    refine decoded_join (hout.layout hwrites hlayout) ?_
    rw [hlines]
    exact hout.expandLines_eq hwrites le_rfl fun other hother =>
      hfree other (List.mem_cons_of_mem _ hother)

/-- A text without block markers is unfolded to itself after it was folded. -/
theorem unfoldRepeatedBlocks_fold (hwrites : WritesDecimals tables)
    (hfree : BlockFree tables content) (hfolded : foldRepeatedBlocks content = some folded) :
    unfoldRepeatedBlocks tables folded = some content := by
  rcases eq_or_ne content [] with rfl | hcontent
  · rw [← Option.some.inj hfolded]
    rfl
  have hlayout := layout_splitKeepTrailing hcontent
  rw [foldRepeatedBlocks] at hfolded
  dsimp only at hfolded
  split_ifs at hfolded with hsize
  · rw [← Option.some.inj hfolded]
    have hdecoded := @decoded_join (unfoldLines tables []) _ _ hlayout (unfoldLines_plain hfree)
    rwa [join_splitKeepTrailing] at hdecoded
  · obtain ⟨out, hout, rfl⟩ := Option.map_eq_some_iff.mp hfolded
    have hunfold := unfoldLines_foldFrom hwrites hfree _ 0 _ (Nat.zero_le _) (Nat.le_add_left _ _)
      hout
    refine decoded_join ⟨?_, fun other hother => ?_, fun hfalse hlast => ?_⟩ hunfold
    · rintro rfl
      exact hlayout.nonempty (Option.some.inj hunfold).symm
    · rcases mem_foldFrom hwrites _ 0 _ hout hother with hother | ⟨length, distance, rfl⟩
      · exact hlayout.noNewline other hother
      · exact newline_not_mem_blockMarker length distance
    · exact hlayout.last hfalse (getLast?_of_unfoldLines hunfold hlast)

theorem readBlockMarker_runMarker (digits : Text) :
    readBlockMarker tables (runMarker digits) = none := by
  rw [readBlockMarker]
  cases hdrop : (runMarker digits).dropPrefix? (text "... (repeats ") with
  | none => rfl
  | some rest =>
      obtain ⟨begins, heq, hbegins⟩ := List.dropPrefix?_eq_some_iff.mp hdrop
      have htake := congrArg (List.take 13) heq
      rw [eq_of_beq hbegins, runMarker, List.append_assoc,
        List.take_append_of_le_length (by decide), List.take_append_of_le_length (by decide)]
        at htake
      exact absurd htake (by decide)

/-- A collapsed text has no other block markers than the text. -/
theorem blockFree_collapseRuns (hwrites : WritesDecimals tables) (hfree : BlockFree tables content)
    (hfolded : collapseRuns content = some folded) : BlockFree tables folded := by
  rcases collapseRuns_cases tables hfolded with ⟨rfl, rfl⟩ |
    ⟨hcontent, line, rest, out, hlines, hout, rfl⟩
  · exact hfree
  · have hlayout := layout_splitKeepTrailing hcontent
    rw [hlines] at hlayout
    intro other hother
    rw [splitKeepTrailing_join (hout.layout hwrites hlayout)] at hother
    rcases hout.mem hwrites hother with hother | ⟨value, rfl⟩
    · exact hfree other (hlines ▸ hother)
    · exact readBlockMarker_runMarker _

/-! ## Counts that can be written -/

theorem intText_isSome (hvalue : value < 10 ^ maxStrDigits) : (intText value).isSome = true := by
  have hlength : (decimalText value).length ≤ maxStrDigits := by
    rw [decimalText, List.length_map]
    exact (Nat.length_toDigits_le_iff (by decide) (by decide)).mpr hvalue
  rw [intText, Int.natAbs_natCast, if_neg (not_lt.mpr hlength)]
  split_ifs <;> rfl

theorem emitRun_isSome (line : Text) (hcount : count < 10 ^ maxStrDigits) :
    (emitRun line count).isSome = true := by
  rw [emitRun]
  split_ifs
  · rw [Option.isSome_map]
    exact intText_isSome hcount
  · rfl

theorem collapseFrom_isSome (line : Text) (count : ℕ)
    (hcount : count + rest.length < 10 ^ maxStrDigits) :
    (collapseFrom line count rest).isSome = true := by
  induction rest generalizing line count with
  | nil => exact emitRun_isSome line hcount
  | cons next rest ih =>
      rw [List.length_cons] at hcount
      rw [collapseFrom]
      split_ifs
      · exact ih line (count + 1) (by omega)
      · obtain ⟨out, hout⟩ := Option.isSome_iff_exists.mp
          (emitRun_isSome line (show count < 10 ^ maxStrDigits by omega))
        obtain ⟨more, hmore⟩ := Option.isSome_iff_exists.mp (ih next 1 (by omega))
        rw [hout, hmore]
        rfl

theorem blockFold_isSome {block : List Text} {distance : ℕ}
    (hblock : block.length ≤ foldMaxLines) (hdistance : distance ≤ foldMaxLines) :
    (blockFold block distance).isSome = true := by
  have hlimit : foldMaxLines < 10 ^ maxStrDigits :=
    lt_of_lt_of_le (b := 10 ^ 5) (by decide) (Nat.pow_le_pow_right (by decide) (by decide))
  obtain ⟨length, hlength⟩ := Option.isSome_iff_exists.mp
    (intText_isSome (hblock.trans_lt hlimit))
  obtain ⟨back, hback⟩ := Option.isSome_iff_exists.mp (intText_isSome (hdistance.trans_lt hlimit))
  rw [blockFold]
  split_ifs
  · rw [hlength, hback]
    rfl
  · rfl

theorem foldFrom_isSome (hlines : lines.length ≤ foldMaxLines) (fuel index : ℕ)
    (positions : Positions) : (foldFrom lines fuel index positions).isSome = true := by
  induction fuel generalizing index positions with
  | zero => rfl
  | succ fuel ih =>
      rw [foldFrom]
      cases hdrop : lines.drop index with
      | nil => rfl
      | cons line rest =>
          have hrepeats := repeats_bestBlock lines (positions line) index
          dsimp only
          generalize bestBlock lines (positions line) index = best at hrepeats
          have hdropped := congrArg List.length hdrop
          rw [List.length_drop, List.length_cons] at hdropped
          have hbefore := hrepeats.before
          obtain ⟨folded, hfolded⟩ := Option.isSome_iff_exists.mp
            (@blockFold_isSome ((line :: rest).take best.1) best.2
              ((List.length_take_le' _ _).trans (by rw [List.length_cons]; omega)) (by omega))
          rw [hfolded]
          cases folded with
          | none =>
              obtain ⟨more, hmore⟩ := Option.isSome_iff_exists.mp
                (ih (index + 1) (remember positions line index))
              simp only [bind, Option.bind_some, hmore]
              rfl
          | some marker =>
              obtain ⟨more, hmore⟩ := Option.isSome_iff_exists.mp (ih (index + best.1)
                (rememberAll positions ((line :: rest).take best.1) index))
              simp only [bind, Option.bind_some, hmore]
              rfl

theorem foldRepeatedBlocks_isSome (content : Text) :
    (foldRepeatedBlocks content).isSome = true := by
  rw [foldRepeatedBlocks]
  dsimp only
  split_ifs with hsize
  · rfl
  · rw [Option.isSome_map]
    exact foldFrom_isSome (not_lt.mp (not_or.mp hsize).2) _ 0 _

theorem length_splitKeepTrailing_le (content : Text) :
    (splitKeepTrailing content).1.length ≤ content.length + 1 := by
  have hsplit : ∀ content : Text, (splitLines content).length ≤ content.length + 1 := by
    intro content
    rw [splitLines, length_splitOn]
    exact Nat.succ_le_succ List.count_le_length
  rw [splitKeepTrailing]
  split_ifs
  · exact Nat.zero_le _
  · refine (hsplit _).trans (Nat.succ_le_succ ?_)
    rw [List.length_dropLast]
    exact Nat.sub_le _ _
  · exact hsplit content

theorem collapseRuns_isSome (hlength : content.length + 1 < 10 ^ maxStrDigits) :
    (collapseRuns content).isSome = true := by
  have hlines := length_splitKeepTrailing_le content
  rw [collapseRuns]
  generalize splitKeepTrailing content = split at hlines
  obtain ⟨lines, hadTrailing⟩ := split
  cases lines with
  | nil => rfl
  | cons line rest =>
      rw [List.length_cons] at hlines
      dsimp only
      rw [Option.isSome_map]
      exact collapseFrom_isSome line 1 (by omega)

/-! ## Search results -/

theorem append_of_readDigits {digits rest : Text}
    (hread : readDigits tables line = some (digits, rest)) : line = digits ++ rest := by
  rw [readDigits] at hread
  split_ifs at hread
  obtain ⟨rfl, rfl⟩ := Prod.mk.inj (Option.some.inj hread)
  exact (List.prefix_iff_eq_append.mp (List.takeWhile_prefix _)).symm

variable {row : Text × Text}

theorem headingRow_of_readHeadingRow (hrow : readHeadingRow tables line = some row) :
    line = headingRow row := by
  rw [readHeadingRow] at hrow
  split at hrow
  · next digits separator content hdigits =>
      split_ifs at hrow with hcolon
      rw [append_of_readDigits hdigits, ← Option.some.inj hrow, hcolon, headingRow,
        List.append_assoc]
      rfl
  · cases hrow

variable {path : Text}

/-- A grep row is its path, a colon and its heading row. -/
theorem append_of_readGrepRow (hgrep : readGrepRow tables line = some (path, row)) :
    line = path ++ [colon] ++ headingRow row ∧ colon ∉ path ∧
      readHeadingRow tables (headingRow row) = some row := by
  rw [readGrepRow] at hgrep
  split_ifs at hgrep
  obtain ⟨found, hfound, hpair⟩ := Option.map_eq_some_iff.mp hgrep
  obtain ⟨rfl, rfl⟩ := Prod.mk.inj hpair
  have hrest := headingRow_of_readHeadingRow hfound
  have hnot : colon ∉ line.takeWhile (· ≠ colon) := fun hmem =>
    absurd (List.mem_takeWhile_imp hmem) (by simp)
  refine ⟨?_, hnot, hrest ▸ hfound⟩
  have hsplit := List.takeWhile_append_dropWhile (p := (· ≠ colon)) (l := line)
  have hdrop : line.drop (line.takeWhile (· ≠ colon)).length = line.dropWhile (· ≠ colon) := by
    nth_rewrite 2 [← hsplit]
    rw [List.drop_left]
  rw [← hrest, List.append_assoc]
  cases hrow : line.dropWhile (· ≠ colon) with
  | nil =>
      rw [← List.drop_drop, hdrop, hrow] at hfound
      cases hfound
  | cons char rest =>
      have hchar : char = colon := by
        have hhead := List.head?_dropWhile_not (· ≠ colon) line
        rw [hrow] at hhead
        simpa using hhead
      rw [← List.drop_drop, hdrop, hrow]
      nth_rewrite 1 [← hsplit]
      rw [hrow, hchar]
      rfl

theorem readHeadingRow_of_no_colon (hline : colon ∉ line) : readHeadingRow tables line = none := by
  cases hrow : readHeadingRow tables line with
  | none => rfl
  | some row =>
      rw [headingRow_of_readHeadingRow hrow] at hline
      exact absurd (by simp [headingRow]) hline

/-- Only grep rows look like rows under a heading. -/
def HeadingFree (tables : CharTables) (lines : List Text) : Prop :=
  ∀ line ∈ lines, readGrepRow tables line = none → readHeadingRow tables line = none

/-- Lines under no heading do not begin with a row. -/
theorem head?_searchHeadingLines (hfree : HeadingFree tables lines) :
    (searchHeadingLines tables none lines).head?.bind (readHeadingRow tables) = none := by
  cases lines with
  | nil => rfl
  | cons line rest =>
      rw [searchHeadingLines]
      cases hgrep : readGrepRow tables line with
      | none => exact hfree line List.mem_cons_self hgrep
      | some found => exact readHeadingRow_of_no_colon (append_of_readGrepRow hgrep).2.1

variable {current : Option Text}

theorem searchUnheadingLines_plain (hline : readHeadingRow tables line = none)
    (hrest : rest.head?.bind (readHeadingRow tables) = none) :
    searchUnheadingLines tables current (line :: rest) =
      line :: searchUnheadingLines tables none rest := by
  rw [searchUnheadingLines.eq_def]
  cases current <;> simp only [hline, hrest] <;> rfl

theorem searchUnheadingLines_heading (hpath : colon ∉ path)
    (hrow : readHeadingRow tables (headingRow row) = some row) :
    searchUnheadingLines tables current (path :: headingRow row :: rest) =
      searchUnheadingLines tables (some path) (headingRow row :: rest) := by
  rw [searchUnheadingLines.eq_def]
  cases current <;>
    simp only [readHeadingRow_of_no_colon hpath, List.head?_cons, Option.bind_some, hrow] <;> rfl

theorem searchUnheadingLines_row (hrow : readHeadingRow tables (headingRow row) = some row) :
    searchUnheadingLines tables (some path) (headingRow row :: rest) =
      (path ++ [colon] ++ headingRow row) :: searchUnheadingLines tables (some path) rest := by
  rw [searchUnheadingLines.eq_def]
  simp only [hrow]

/-- The decoder is under the heading that the encoder is under. -/
theorem searchUnheadingLines_searchHeadingLines (current : Option Text)
    (hfree : HeadingFree tables lines) :
    searchUnheadingLines tables current (searchHeadingLines tables current lines) = lines := by
  induction lines generalizing current with
  | nil => rfl
  | cons line rest ih =>
      have hrest : HeadingFree tables rest := fun other hother =>
        hfree other (List.mem_cons_of_mem _ hother)
      rw [searchHeadingLines]
      cases hgrep : readGrepRow tables line with
      | none =>
          dsimp only
          rw [searchUnheadingLines_plain (hfree line List.mem_cons_self hgrep)
            (head?_searchHeadingLines hrest), ih none hrest]
      | some found =>
          obtain ⟨path, row⟩ := found
          obtain ⟨hline, hpath, hrow⟩ := append_of_readGrepRow hgrep
          dsimp only
          split_ifs with hcurrent
          · rw [hcurrent, List.nil_append, searchUnheadingLines_row hrow, ih _ hrest, hline]
          · rw [List.cons_append, List.nil_append, searchUnheadingLines_heading hpath hrow,
              searchUnheadingLines_row hrow, ih _ hrest, hline]

/-! ## Paths -/

variable {directory base : Text}

/-- A path row is its directory, which ends in a slash, and its name, which has none. -/
theorem append_of_readPathRow (hpath : readPathRow tables line = some (directory, base)) :
    line = directory ++ base ∧ directory.getLast? = some slash ∧ isBase base = true := by
  obtain ⟨init, last, hsplit⟩ :=
    (List.eq_nil_or_concat' (line.splitOn slash)).resolve_left (List.splitOn_ne_nil slash line)
  have hlast : last ∈ line.splitOn slash := by
    rw [hsplit]
    exact List.mem_append_right _ List.mem_cons_self
  have hslash : slash ∉ last := not_mem_of_mem_splitOn hlast
  have hgetLast : (init ++ [last]).getLastD [] = last := by
    rw [List.getLastD_eq_getLast?, List.getLast?_concat, Option.getD_some]
  rw [readPathRow, hsplit, List.dropLast_concat, hgetLast] at hpath
  split_ifs at hpath with hpieces
  obtain ⟨hdirectories, -, hsegment⟩ := hpieces
  obtain ⟨rfl, rfl⟩ := Prod.mk.inj (Option.some.inj hpath)
  have hinit : init ≠ [] := by
    rintro rfl
    exact hdirectories rfl
  have hjoined : line = ([slash].intercalate init ++ [slash]) ++ last := by
    rw [← @List.intercalate_splitOn _ line _ _ slash, hsplit,
      intercalate_append slash hinit (List.cons_ne_nil _ _), List.intercalate_singleton,
      List.append_assoc]
    rfl
  have htake : line.take (line.length - last.length) = [slash].intercalate init ++ [slash] := by
    rw [hjoined, List.length_append, Nat.add_sub_cancel, List.take_left]
  rw [htake]
  exact ⟨hjoined, List.getLast?_concat, decide_eq_true ⟨(of_decide_eq_true hsegment).1, hslash⟩⟩

theorem pathUnheadingLines_plain (hbase : isBase line = false)
    (hheading : ¬(line.getLast? = some slash ∧ rest.head?.any isBase = true)) :
    pathUnheadingLines current (line :: rest) = line :: pathUnheadingLines none rest := by
  rw [pathUnheadingLines.eq_def]
  cases current <;> simp only [hbase, if_neg hheading]

theorem pathUnheadingLines_heading (hlast : directory.getLast? = some slash)
    (hbase : isBase base = true) :
    pathUnheadingLines current (directory :: base :: rest) =
      pathUnheadingLines (some directory) (base :: rest) := by
  have hnot : isBase directory = false :=
    decide_eq_false fun hboth => hboth.2 (List.mem_of_getLast? hlast)
  rw [pathUnheadingLines.eq_def]
  cases current <;> simp only [hnot, hlast, List.head?_cons, Option.any_some, hbase, and_self,
    if_true]

theorem pathUnheadingLines_base (hbase : isBase base = true) :
    pathUnheadingLines (some directory) (base :: rest) =
      (directory ++ base) :: pathUnheadingLines (some directory) rest := by
  rw [pathUnheadingLines.eq_def]
  simp only [hbase]

/-- The lines are paths or empty. -/
def PathListing (tables : CharTables) (lines : List Text) : Prop :=
  ∀ line ∈ lines, line = [] ∨ (readPathRow tables line).isSome = true

theorem pathUnheadingLines_pathHeadingLines (current : Option Text)
    (hlisting : PathListing tables lines) :
    pathUnheadingLines current (pathHeadingLines tables current lines) = lines := by
  induction lines generalizing current with
  | nil => rfl
  | cons line rest ih =>
      have hrest : PathListing tables rest := fun other hother =>
        hlisting other (List.mem_cons_of_mem _ hother)
      rw [pathHeadingLines]
      cases hpath : readPathRow tables line with
      | none =>
          obtain rfl : line = [] := (hlisting line List.mem_cons_self).resolve_right (by
            rw [hpath]
            exact Bool.false_ne_true)
          dsimp only
          rw [pathUnheadingLines_plain (by decide) 
            (fun hheading => absurd hheading.1 (by decide)), ih none hrest]
      | some found =>
          obtain ⟨directory, base⟩ := found
          obtain ⟨hline, hlast, hbase⟩ := append_of_readPathRow hpath
          dsimp only
          split_ifs with hcurrent
          · rw [hcurrent, List.nil_append, pathUnheadingLines_base hbase, ih _ hrest, hline]
          · rw [List.cons_append, List.nil_append, pathUnheadingLines_heading hlast hbase,
              pathUnheadingLines_base hbase, ih _ hrest, hline]

/-- A listing is not taken for one that has headings. -/
theorem pathUnheadingLines_listing (hlisting : PathListing tables lines) :
    pathUnheadingLines none lines = lines := by
  induction lines with
  | nil => rfl
  | cons line rest ih =>
      have hplain : isBase line = false ∧ line.getLast? ≠ some slash := by
        rcases hlisting line List.mem_cons_self with rfl | hpath
        · exact ⟨by decide, by decide⟩
        · obtain ⟨⟨directory, base⟩, hfound⟩ := Option.isSome_iff_exists.mp hpath
          obtain ⟨rfl, hlast, hbase⟩ := append_of_readPathRow hfound
          obtain ⟨hne, hslash⟩ := of_decide_eq_true hbase
          refine ⟨decide_eq_false fun hboth => hboth.2 ?_, ?_⟩
          · exact List.mem_append_left _ (List.mem_of_getLast? hlast)
          · rw [List.getLast?_append_of_ne_nil _ hne]
            exact fun hmem => hslash (List.mem_of_getLast? hmem)
      rw [pathUnheadingLines_plain hplain.1 fun hheading => hplain.2 hheading.1,
        ih fun other hother => hlisting other (List.mem_cons_of_mem _ hother)]

/-! ## Texts of headings -/

/-- Each line is written as parts of it, of which the last is empty only for an empty line. -/
structure Headed (encode : Option Text → List Text → List Text) : Prop where
  nil (current : Option Text) : encode current [] = []
  cons (current : Option Text) (line : Text) (rest : List Text) :
    ∃ heads tail next, encode current (line :: rest) = heads ++ tail :: encode next rest ∧
      (tail = [] → line = []) ∧ ∀ part ∈ heads ++ [tail], part <:+: line

variable {encode : Option Text → List Text → List Text}

theorem Headed.getLast? (hheaded : Headed encode) (current : Option Text)
    (hlast : (encode current lines).getLast? = some []) : lines.getLast? = some [] := by
  induction lines generalizing current with
  | nil =>
      rw [hheaded.nil] at hlast
      cases hlast
  | cons line rest ih =>
      obtain ⟨heads, tail, next, hencode, htail, -⟩ := hheaded.cons current line rest
      rw [hencode, List.getLast?_append_of_ne_nil _ (List.cons_ne_nil _ _)] at hlast
      cases rest with
      | nil =>
          rw [hheaded.nil, List.getLast?_singleton, Option.some.injEq] at hlast
          rw [htail hlast, List.getLast?_singleton]
      | cons second rest =>
          obtain ⟨heads', tail', next', hencode', -, -⟩ := hheaded.cons next second rest
          have hne : encode next (second :: rest) ≠ [] := by
            rw [hencode']
            exact List.append_ne_nil_of_right_ne_nil _ (List.cons_ne_nil _ _)
          rw [List.getLast?_cons_of_ne_nil hne] at hlast
          rw [List.getLast?_cons_cons, ih next hlast]

theorem Headed.exists_line (hheaded : Headed encode) {current : Option Text} {part : Text}
    (hpart : part ∈ encode current lines) : ∃ line ∈ lines, part <:+: line := by
  induction lines generalizing current with
  | nil =>
      rw [hheaded.nil] at hpart
      exact absurd hpart List.not_mem_nil
  | cons line rest ih =>
      obtain ⟨heads, tail, next, hencode, -, hparts⟩ := hheaded.cons current line rest
      rw [hencode, List.append_cons] at hpart
      rcases List.mem_append.mp hpart with hpart | hpart
      · exact ⟨line, List.mem_cons_self, hparts part hpart⟩
      · exact (ih hpart).imp fun _ => And.imp_left (List.mem_cons_of_mem _)

theorem Headed.layout (hheaded : Headed encode) (hlayout : Layout lines hadTrailing)
    (current : Option Text) :
    Layout (encode current lines) hadTrailing where
  nonempty := by
    obtain ⟨line, rest, rfl⟩ := List.exists_cons_of_ne_nil hlayout.nonempty
    obtain ⟨heads, tail, next, hencode, -, -⟩ := hheaded.cons current line rest
    rw [hencode]
    exact List.append_ne_nil_of_right_ne_nil _ (List.cons_ne_nil _ _)
  noNewline part hpart hmem := by
    obtain ⟨line, hline, hin⟩ := hheaded.exists_line hpart
    exact hlayout.noNewline line hline (hin.subset hmem)
  last hfalse hlast := hlayout.last hfalse (hheaded.getLast? current hlast)

theorem headed_searchHeadingLines (tables : CharTables) : Headed (searchHeadingLines tables) where
  nil _ := rfl
  cons current line rest := by
    rw [searchHeadingLines]
    cases hgrep : readGrepRow tables line with
    | none =>
        refine ⟨[], line, none, rfl, id, fun part hpart => ?_⟩
        exact List.mem_singleton.mp hpart ▸ List.infix_rfl
    | some found =>
        obtain ⟨path, row⟩ := found
        obtain ⟨hline, -, -⟩ := append_of_readGrepRow hgrep
        refine ⟨_, headingRow row, some path, rfl, fun hnil => ?_, fun part hpart => ?_⟩
        · exact absurd hnil (by simp [headingRow])
        · rw [hline]
          rcases List.mem_append.mp hpart with hpart | hpart
          · have hpath : part = path := by
              split_ifs at hpart
              · exact absurd hpart List.not_mem_nil
              · exact List.mem_singleton.mp hpart
            rw [hpath, List.append_assoc]
            exact (List.prefix_append _ _).isInfix
          · rw [List.mem_singleton.mp hpart]
            exact (List.suffix_append _ _).isInfix

theorem headed_pathHeadingLines (tables : CharTables) : Headed (pathHeadingLines tables) where
  nil _ := rfl
  cons current line rest := by
    rw [pathHeadingLines]
    cases hpath : readPathRow tables line with
    | none =>
        refine ⟨[], line, none, rfl, id, fun part hpart => ?_⟩
        exact List.mem_singleton.mp hpart ▸ List.infix_rfl
    | some found =>
        obtain ⟨directory, base⟩ := found
        obtain ⟨hline, -, hbase⟩ := append_of_readPathRow hpath
        refine ⟨_, base, some directory, rfl, fun hnil => ?_, fun part hpart => ?_⟩
        · exact absurd hnil (of_decide_eq_true hbase).1
        · rw [hline]
          rcases List.mem_append.mp hpart with hpart | hpart
          · have hpath : part = directory := by
              split_ifs at hpart
              · exact absurd hpart List.not_mem_nil
              · exact List.mem_singleton.mp hpart
            rw [hpath]
            exact (List.prefix_append _ _).isInfix
          · rw [List.mem_singleton.mp hpart]
            exact (List.suffix_append _ _).isInfix

theorem searchUnheading_searchHeading (hfree : HeadingFree tables (splitKeepTrailing content).1) :
    searchUnheading tables (searchHeading tables content) = content := by
  rcases eq_or_ne content [] with rfl | hcontent
  · rfl
  have hlayout := layout_splitKeepTrailing hcontent
  have hheaded := (headed_searchHeadingLines tables).layout hlayout none
  have hheading : searchHeading tables content =
      join (searchHeadingLines tables none (splitKeepTrailing content).1)
        (splitKeepTrailing content).2 := if_neg hlayout.nonempty
  rw [hheading, searchUnheading, splitKeepTrailing_join hheaded]
  dsimp only
  rw [if_neg hheaded.nonempty, searchUnheadingLines_searchHeadingLines none hfree,
    join_splitKeepTrailing]

theorem pathUnheading_pathHeading (hlisting : PathListing tables (splitKeepTrailing content).1) :
    pathUnheading (pathHeading tables content) = content := by
  rcases eq_or_ne content [] with rfl | hcontent
  · rfl
  have hlayout := layout_splitKeepTrailing hcontent
  rw [pathHeading]
  dsimp only
  split_ifs with hfew
  · rw [pathUnheading]
    dsimp only
    rw [if_neg hlayout.nonempty, pathUnheadingLines_listing hlisting, join_splitKeepTrailing]
  · have hheaded := (headed_pathHeadingLines tables).layout hlayout none
    rw [pathUnheading, splitKeepTrailing_join hheaded]
    dsimp only
    rw [if_neg hheaded.nonempty, pathUnheadingLines_pathHeadingLines none hlisting,
      join_splitKeepTrailing]

end

/-- Each encoding is undone on the texts that hold nothing like its markers.  Only a count of
more digits than `str` writes keeps a text from being collapsed. -/
theorem encodings_undone (tables : CharTables) (hwrites : WritesDecimals tables) (content : Text) :
    (content.length + 1 < 10 ^ maxStrDigits → (collapseRuns content).isSome = true) ∧
    (RunFree tables content → ∀ folded, collapseRuns content = some folded →
      expandRuns tables folded = some content) ∧
    (BlockFree tables content →
      (foldRepeatedBlocks content).bind (unfoldRepeatedBlocks tables) = some content) ∧
    (RunFree tables content → BlockFree tables content →
      ∀ collapsed, collapseRuns content = some collapsed →
        ∃ folded, foldRepeatedBlocks collapsed = some folded ∧
          (unfoldRepeatedBlocks tables folded).bind (expandRuns tables) = some content) ∧
    (HeadingFree tables (splitKeepTrailing content).1 →
      searchUnheading tables (searchHeading tables content) = content) ∧
    (PathListing tables (splitKeepTrailing content).1 →
      pathUnheading (pathHeading tables content) = content) := by
  refine ⟨collapseRuns_isSome, fun hruns folded => expandRuns_collapseRuns hwrites hruns,
    fun hblocks => ?_, fun hruns hblocks collapsed hcollapsed => ?_,
    searchUnheading_searchHeading, pathUnheading_pathHeading⟩
  · obtain ⟨folded, hfolded⟩ := Option.isSome_iff_exists.mp (foldRepeatedBlocks_isSome content)
    rw [hfolded]
    exact unfoldRepeatedBlocks_fold hwrites hblocks hfolded
  · obtain ⟨folded, hfolded⟩ := Option.isSome_iff_exists.mp (foldRepeatedBlocks_isSome collapsed)
    refine ⟨folded, hfolded, ?_⟩
    rw [unfoldRepeatedBlocks_fold hwrites (blockFree_collapseRuns hwrites hblocks hcollapsed)
      hfolded, Option.bind_some]
    exact expandRuns_collapseRuns hwrites hruns hcollapsed

theorem writesDecimals_asciiTables : WritesDecimals asciiTables where
  digit char hdigit := by
    rw [Char.isDigit, Bool.and_eq_true, decide_eq_true_eq, decide_eq_true_eq] at hdigit
    have hlow : 48 ≤ char.toNat := UInt32.le_iff_toNat_le.mp hdigit.1
    have hhigh : char.toNat ≤ 57 := UInt32.le_iff_toNat_le.mp hdigit.2
    have hval := codePoint_val char
    have hrange : (0x30 : CodePoint) ≤ codePoint char ∧ codePoint char ≤ 0x39 := by
      rw [Fin.le_def, Fin.le_def, hval]
      exact ⟨hlow, hhigh⟩
    rw [asciiTables]
    dsimp only
    rw [if_pos hrange, hval]
    rfl
  blank := by decide

theorem encodings_undone_pairs :
    expandRuns asciiTables (text "a\n... (repeated 2 times)") = some (text "a\na") ∧
      searchUnheading asciiTables (searchHeading asciiTables (text "f:1:x\nf:2:y\n")) =
        text "f:1:x\nf:2:y\n" ∧
      pathUnheading (pathHeading asciiTables (text "d/x\nd/y")) = text "d/x\nd/y" := by
  have hruns := encodings_undone asciiTables writesDecimals_asciiTables (text "a\na")
  have hsearch := encodings_undone asciiTables writesDecimals_asciiTables (text "f:1:x\nf:2:y\n")
  have hpaths := encodings_undone asciiTables writesDecimals_asciiTables (text "d/x\nd/y")
  exact ⟨hruns.2.1 (by rw [RunFree]; decide +kernel) _ (by decide +kernel),
    hsearch.2.2.2.2.1 (by rw [HeadingFree]; decide +kernel),
    hpaths.2.2.2.2.2 (by rw [PathListing]; decide +kernel)⟩

end Legroom.LosslessCompaction
