import Legroom.Lib.SplitOn
import Legroom.Transforms.LogTemplate

/-!
# Reading log templates back

A reader knows the number of the next template.  It takes a line that reads as the header
with that number for a header, fills in the rows behind it, and passes on all other lines.
-/

namespace Legroom.Transforms

namespace LogTemplate

/-! ## The reader -/

def readSlot (word : Text) : Option Text := if word = wildcard then none else some word

/-- The number behind an opening parenthesis. -/
def readCount : Text → Option ℕ
  | [] => none
  | char :: digits =>
      let count := Nat.ofDigitChars 10 digits 0
      if char = '(' ∧ 0 < count ∧ decimal count = digits then some count else none

def openWord : Text := "[Template".toList

def closeWord : Text := "occurrences)".toList

def idWord (templateId : ℕ) : Text := 'T' :: (decimal templateId ++ [':'])

def readBody (words : List Text) : Option (Template × ℕ) :=
  match words.reverse with
  | last :: count :: close :: before =>
      if last = closeWord ∧ close.getLast? = some ']' then
        (readCount count).map fun count =>
          ((before.reverse ++ [close.dropLast]).map readSlot, count)
      else none
  | _ => none

/-- The template and the number of rows of a header. -/
def readHeader (templateId : ℕ) (row : Text) : Option (Template × ℕ) :=
  match row.splitOn ' ' with
  | first :: second :: words =>
      if first = openWord ∧ second = idWord templateId then readBody words else none
  | _ => none

def fillSlots : Template → List Text → Option (List Text)
  | [], [] => some []
  | [], _ :: _ => none
  | some constant :: template, values => (fillSlots template values).map (constant :: ·)
  | none :: template, value :: values => (fillSlots template values).map (value :: ·)
  | none :: _, [] => none

def fill (template : Template) (row : Text) : Option Text :=
  (fillSlots template (row.splitOn ' ')).map spaced

/-- The lines that rows stand for, of which the first belong to a template. -/
def decodeRows : ℕ → Template → ℕ → List Text → Option (List Text)
  | _, _, 0, [] => some []
  | _, _, _ + 1, [] => none
  | templateId, template, 0, row :: rows =>
      match readHeader templateId row with
      | some found => decodeRows (templateId + 1) found.1 found.2 rows
      | none => (decodeRows templateId template 0 rows).map (row :: ·)
  | templateId, template, left + 1, row :: rows => do
      let line ← fill template row
      (decodeRows templateId template left rows).map (line :: ·)

def decode (output : Text) : Option Text :=
  (decodeRows 1 [] 0 (output.splitOn '\n')).map (['\n'].intercalate ·)

example : decode "[Template T1: a <*> b] (2 occurrences)\nx\ny\nz\n".toList =
    some "a x b\na y b\nz\n".toList := by
  decide +kernel

/-! ## Words -/

variable {line token : Text}

theorem no_space_of_mem_tokenize (htoken : token ∈ tokenize line) :
    ∀ char ∈ token, isWhitespace char = false :=
  not_sep_of_mem_splitOnP (List.mem_of_mem_filter htoken)

variable {tokens : List Text}

theorem splitOn_spaced (htokens : ∀ token ∈ tokens, ' ' ∉ token) (hne : tokens ≠ []) :
    (spaced tokens).splitOn ' ' = tokens :=
  List.splitOn_intercalate ' ' htokens hne

theorem space_not_mem_of_tokenize (htoken : token ∈ tokenize line) : ' ' ∉ token := by
  intro hspace
  exact Bool.noConfusion (no_space_of_mem_tokenize htoken ' ' hspace)

/-! ## Rows of a template -/

variable {template : Template}

theorem fillSlots_variants (hfits : Fits template tokens) :
    fillSlots template (variants template tokens) = some tokens := by
  induction hfits with
  | nil => rfl
  | @cons slot token template tokens hslot hfits ih =>
      rw [variants] at ih
      cases slot with
      | none =>
          rw [variants, List.zip_cons_cons, List.filter_cons_of_pos rfl, List.map_cons, fillSlots,
            ih, Option.map_some]
      | some constant =>
          rw [variants, List.zip_cons_cons, List.filter_cons_of_neg Bool.false_ne_true, fillSlots,
            ih, Option.map_some, hslot constant rfl]

theorem length_of_fillSlots {values : List Text} (hfill : fillSlots template values = some tokens) :
    values.length = template.count none ∧ tokens.length = template.length := by
  induction template, values using fillSlots.induct generalizing tokens with
  | case1 =>
      cases hfill
      exact ⟨rfl, rfl⟩
  | case2 value values => cases hfill
  | case3 constant template values ih =>
      obtain ⟨filled, hfilled, rfl⟩ := Option.map_eq_some_iff.mp hfill
      obtain ⟨hvalues, htokens⟩ := ih hfilled
      exact ⟨by rw [hvalues, List.count_cons_of_ne (by simp)], by simp [htokens]⟩
  | case4 template value values ih =>
      obtain ⟨filled, hfilled, rfl⟩ := Option.map_eq_some_iff.mp hfill
      obtain ⟨hvalues, htokens⟩ := ih hfilled
      exact ⟨by rw [List.count_cons_self, List.length_cons, hvalues], by simp [htokens]⟩
  | case5 template => cases hfill

/-- A filled template has the words of the template and of the row. -/
theorem mem_of_fillSlots {values : List Text} (hfill : fillSlots template values = some tokens) :
    ∀ token ∈ tokens, some token ∈ template ∨ token ∈ values := by
  induction template, values using fillSlots.induct generalizing tokens with
  | case1 =>
      cases hfill
      exact fun token htoken => absurd htoken List.not_mem_nil
  | case2 value values => cases hfill
  | case3 constant template values ih =>
      obtain ⟨filled, hfilled, rfl⟩ := Option.map_eq_some_iff.mp hfill
      refine List.forall_mem_cons.mpr ⟨.inl List.mem_cons_self, fun token htoken => ?_⟩
      exact (ih hfilled token htoken).imp (List.mem_cons_of_mem _) id
  | case4 template value values ih =>
      obtain ⟨filled, hfilled, rfl⟩ := Option.map_eq_some_iff.mp hfill
      refine List.forall_mem_cons.mpr ⟨.inr List.mem_cons_self, fun token htoken => ?_⟩
      exact (ih hfilled token htoken).imp (List.mem_cons_of_mem _) (List.mem_cons_of_mem _)
  | case5 template => cases hfill

/-! ## Headers -/

variable {char : Char}

theorem isDigit_of_mem_decimal {value : ℕ} (hchar : char ∈ decimal value) : char.isDigit = true :=
  Nat.isDigit_of_mem_toDigits (by decide) (by decide) hchar

theorem space_not_mem_decimal (value : ℕ) : ' ' ∉ decimal value :=
  fun hspace => Bool.noConfusion (isDigit_of_mem_decimal hspace)

variable {words : List Text}

theorem spaced_cons (word : Text) (hwords : words ≠ []) :
    spaced (word :: words) = word ++ ' ' :: spaced words := by
  have happend := intercalate_append ' ' (List.cons_ne_nil word []) hwords
  rw [List.intercalate_singleton] at happend
  exact happend

/-- The words of a header behind its number. -/
def bodyWords (front : Template) (last : Option Text) (occurrences : ℕ) : List Text :=
  front.map slotText ++
    [slotText last ++ [']'], '(' :: decimal occurrences, closeWord]

variable (front : Template)

theorem spaced_bodyWords (last : Option Text) (occurrences : ℕ) :
    spaced (bodyWords front last occurrences) =
      spaced ((front ++ [last]).map slotText) ++ headerCount ++ decimal occurrences ++
        headerEnd := by
  have hcount : headerCount = [']', ' ', '('] := by decide
  have hend : headerEnd = ' ' :: closeWord := by decide
  induction front with
  | nil =>
      rw [bodyWords, List.map_nil, List.nil_append, spaced_cons _ (List.cons_ne_nil _ _),
        spaced_cons _ (List.cons_ne_nil _ _), hcount, hend, List.nil_append, List.map_singleton,
        spaced, spaced, List.intercalate_singleton, List.intercalate_singleton]
      simp only [List.append_assoc, List.cons_append, List.nil_append]
  | cons slot front ih =>
      have hne : bodyWords front last occurrences ≠ [] :=
        List.append_ne_nil_of_right_ne_nil _ (List.cons_ne_nil _ _)
      have hfront : (front ++ [last]).map slotText ≠ [] := by simp
      have hwords : bodyWords (slot :: front) last occurrences =
          slotText slot :: bodyWords front last occurrences := rfl
      rw [hwords, spaced_cons _ hne, ih, List.cons_append, List.map_cons, spaced_cons _ hfront]
      simp only [List.append_assoc, List.cons_append]

theorem header_eq (templateId : ℕ) (front : Template) (last : Option Text) (occurrences : ℕ) :
    header templateId (front ++ [last]) occurrences =
      spaced (openWord :: idWord templateId :: bodyWords front last occurrences) := by
  have hne : bodyWords front last occurrences ≠ [] :=
    List.append_ne_nil_of_right_ne_nil _ (List.cons_ne_nil _ _)
  have hstart : headerStart = openWord ++ [' ', 'T'] := by decide
  have hcolon : headerColon = [':', ' '] := by decide
  rw [spaced_cons _ (List.cons_ne_nil _ _), spaced_cons _ hne, spaced_bodyWords, header, hstart,
    hcolon, idWord]
  simp only [List.append_assoc, List.cons_append, List.nil_append]

/-- Constants that look like a wildcard are read as one. -/
def reread (template : Template) : Template := template.map fun slot => slot.filter (· ≠ wildcard)

theorem readSlot_slotText (slot : Option Text) :
    readSlot (slotText slot) = slot.filter (· ≠ wildcard) := by
  cases slot with
  | none => rfl
  | some constant =>
      rw [slotText, Option.getD_some, readSlot, Option.filter]
      by_cases hconstant : constant = wildcard
      · rw [if_pos hconstant, if_neg (by simpa using hconstant)]
      · rw [if_neg hconstant, if_pos (by simpa using hconstant)]

theorem readCount_decimal {count : ℕ} (hcount : 0 < count) :
    readCount ('(' :: decimal count) = some count := by
  have hread : Nat.ofDigitChars 10 (decimal count) 0 = count :=
    Nat.ofDigitChars_toDigits (by decide) (Nat.le_refl 10)
  rw [readCount, hread]
  exact if_pos ⟨rfl, hcount, rfl⟩

variable {occurrences : ℕ}

theorem readBody_bodyWords (last : Option Text) (hoccurrences : 0 < occurrences) :
    readBody (bodyWords front last occurrences) = some (reread (front ++ [last]), occurrences) := by
  have hreverse : (bodyWords front last occurrences).reverse =
      closeWord :: ('(' :: decimal occurrences) :: (slotText last ++ [']']) ::
        (front.map slotText).reverse := by
    rw [bodyWords, List.reverse_append]
    rfl
  rw [readBody, hreverse]
  dsimp only
  rw [if_pos ⟨rfl, List.getLast?_concat⟩, readCount_decimal hoccurrences, List.reverse_reverse,
    List.dropLast_concat, Option.map_some, reread, List.map_append, List.map_append, List.map_map,
    List.map_singleton, List.map_singleton, readSlot_slotText]
  have hslots : readSlot ∘ slotText = fun slot => slot.filter (· ≠ wildcard) :=
    funext readSlot_slotText
  rw [hslots]

/-- Words that a header can be made of. -/
def Spaceless (template : Template) : Prop := ∀ constant, some constant ∈ template → ' ' ∉ constant

theorem readHeader_header (templateId : ℕ) (hne : template ≠ []) (hoccurrences : 0 < occurrences)
    (hwords : Spaceless template) :
    readHeader templateId (header templateId template occurrences) =
      some (reread template, occurrences) := by
  obtain ⟨front, last, rfl⟩ := List.eq_nil_or_concat' template |>.resolve_left hne
  have hslot : ∀ slot ∈ front ++ [last], ' ' ∉ slotText slot := by
    intro slot hslot
    cases slot with
    | none => decide
    | some constant => exact hwords constant hslot
  have hall : ∀ word ∈ openWord :: idWord templateId :: bodyWords front last occurrences,
      ' ' ∉ word := by
    have hid := space_not_mem_decimal templateId
    have hcount := space_not_mem_decimal occurrences
    have hlast := hslot last (List.mem_append_right front List.mem_cons_self)
    refine List.forall_mem_cons.mpr ⟨by decide, List.forall_mem_cons.mpr ⟨by simp [idWord, hid], ?_⟩⟩
    rw [bodyWords, List.forall_mem_append, List.forall_mem_map]
    refine ⟨fun slot hmem => hslot slot (List.mem_append_left _ hmem), ?_⟩
    refine List.forall_mem_cons.mpr ⟨by simp [hlast], List.forall_mem_cons.mpr ⟨by simp [hcount], ?_⟩⟩
    exact List.forall_mem_singleton.mpr (by decide)
  rw [header_eq, readHeader, splitOn_spaced hall (List.cons_ne_nil _ _)]
  dsimp only
  rw [if_pos ⟨rfl, rfl⟩, readBody_bodyWords front last hoccurrences]

theorem readCount_pos {word : Text} {count : ℕ} (hread : readCount word = some count) :
    0 < count := by
  cases word with
  | nil => cases hread
  | cons char digits =>
      rw [readCount] at hread
      split_ifs at hread with hcount
      cases hread
      exact hcount.2.1

/-- A slot with a token was such a word. -/
theorem of_readSlot {word constant : Text} (hslot : readSlot word = some constant) :
    word = constant := by
  rw [readSlot] at hslot
  split_ifs at hslot
  exact Option.some.inj hslot

/-- The slots of a header are words of it, and it has four words more. -/
theorem of_readBody (hread : readBody words = some (template, occurrences)) :
    0 < occurrences ∧ template ≠ [] ∧ words.length = template.length + 2 ∧
      ∀ constant, some constant ∈ template →
        ∃ word ∈ words, ∀ char ∈ constant, char ∈ word := by
  rw [readBody] at hread
  have hwords := words.reverse_reverse
  rcases hreverse : words.reverse with _ | ⟨last, _ | ⟨count, _ | ⟨close, before⟩⟩⟩
  · rw [hreverse] at hread
    cases hread
  · rw [hreverse] at hread
    cases hread
  · rw [hreverse] at hread
    cases hread
  · rw [hreverse] at hread hwords
    dsimp only at hread
    split_ifs at hread
    obtain ⟨found, hfound, heq⟩ := Option.map_eq_some_iff.mp hread
    cases heq
    refine ⟨readCount_pos hfound, by simp, by rw [← hwords]; simp, ?_⟩
    intro constant hconstant
    obtain ⟨word, hword, hslot⟩ := List.mem_map.mp hconstant
    rw [← of_readSlot hslot, ← hwords]
    rcases List.mem_append.mp hword with hbefore | hclose
    · exact ⟨word, by simpa using .inl (List.mem_reverse.mp hbefore), fun char hchar => hchar⟩
    · rw [List.mem_singleton.mp hclose]
      exact ⟨close, by simp, fun char hchar => List.dropLast_subset close hchar⟩

variable {templateId : ℕ} {row : Text}

theorem of_readHeader (hread : readHeader templateId row = some (template, occurrences)) :
    0 < occurrences ∧ template ≠ [] ∧ row.count ' ' = template.length + 3 ∧
      ∀ constant, some constant ∈ template → ∃ word ∈ row.splitOn ' ', ∀ char ∈ constant, char ∈ word := by
  have hlength := length_splitOn ' ' row
  rw [readHeader] at hread
  rcases hsplit : row.splitOn ' ' with _ | ⟨first, _ | ⟨second, words⟩⟩
  · rw [hsplit] at hread
    cases hread
  · rw [hsplit] at hread
    cases hread
  · rw [hsplit] at hread hlength
    dsimp only at hread
    split_ifs at hread
    obtain ⟨hoccurrences, hne, hwords, hconstants⟩ := of_readBody hread
    rw [List.length_cons, List.length_cons, hwords] at hlength
    refine ⟨hoccurrences, hne, by omega, fun constant hconstant => ?_⟩
    obtain ⟨word, hword, hchars⟩ := hconstants constant hconstant
    exact ⟨word, List.mem_cons_of_mem _ (List.mem_cons_of_mem _ hword), hchars⟩

theorem spaceless_of_readHeader (hread : readHeader templateId row = some (template, occurrences)) :
    Spaceless template := by
  intro constant hconstant hspace
  obtain ⟨word, hword, hchars⟩ := (of_readHeader hread).2.2.2 constant hconstant
  exact not_mem_of_mem_splitOn hword (hchars ' ' hspace)

/-- A filled line has one space less than the template has slots. -/
theorem count_fill (hne : template ≠ []) (hspaceless : Spaceless template)
    (hfill : fill template row = some line) : line.count ' ' + 1 = template.length := by
  obtain ⟨tokens, htokens, rfl⟩ := Option.map_eq_some_iff.mp hfill
  have hlength := (length_of_fillSlots htokens).2
  rw [spaced, count_intercalate, hlength]
  · intro token htoken
    rcases mem_of_fillSlots htokens token htoken with hslot | hvalue
    · exact hspaceless token hslot
    · exact not_mem_of_mem_splitOn hvalue
  · rintro rfl
    exact hne (List.length_eq_zero_iff.mp hlength.symm)

/-! ## What the reader makes of the items -/

/-- A line, or the line and the carriage return of its line end. -/
def Ended (line raw : Text) : Prop := raw = line ∨ raw = line ++ ['\r']

/-- No line is taken for a header that is none, no constant looks like a wildcard, and the
tokens of the lines in a block have single spaces between them. -/
def Readable : ℕ → List Item → Prop
  | _, [] => True
  | templateId, .line text :: items =>
      readHeader templateId text = none ∧ Readable templateId items
  | templateId, .block template lines :: items =>
      some wildcard ∉ template ∧ (∀ line ∈ lines, line = spaced (tokenize line)) ∧
        Readable (templateId + 1) items

variable {raw : Text}

/-- A line that is taken for a header is not read back. -/
theorem ne_of_readHeader {text : Text}
    (hread : readHeader templateId text = some (template, occurrences)) (hended : Ended text raw)
    (hfill : fill template row = some line) : line ≠ raw := by
  obtain ⟨-, hne, hcount, -⟩ := of_readHeader hread
  have hline := count_fill hne (spaceless_of_readHeader hread) hfill
  have hraw : raw.count ' ' = text.count ' ' := by
    rcases hended with rfl | rfl
    · rfl
    · rw [List.count_append]
      rfl
  rintro rfl
  omega

theorem decodeRows_zero (templateId : ℕ) (left right : Template) (rows : List Text) :
    decodeRows templateId left 0 rows = decodeRows templateId right 0 rows := by
  induction rows generalizing left right with
  | nil => rfl
  | cons row rows ih =>
      rw [decodeRows, decodeRows, ih left right]

/-- The rows of a template, and what is behind them. -/
theorem decodeRows_append (templateId : ℕ) (template : Template) (front rest : List Text) :
    decodeRows templateId template front.length (front ++ rest) =
      (front.mapM (fill template)).bind fun lines =>
        (decodeRows templateId [] 0 rest).map (lines ++ ·) := by
  induction front with
  | nil =>
      rw [List.mapM_nil, List.length_nil, List.nil_append, decodeRows_zero templateId template []]
      exact Option.map_id'.symm
  | cons row front ih =>
      rw [List.length_cons, List.cons_append, decodeRows, ih, List.mapM_cons]
      cases fill template row with
      | none => rfl
      | some line =>
          cases front.mapM (fill template) with
          | none => rfl
          | some lines =>
              cases decodeRows templateId [] 0 rest with
              | none => rfl
              | some behind => rfl

theorem mem_spaced (hchar : char ∈ spaced words) : char = ' ' ∨ ∃ word ∈ words, char ∈ word := by
  induction words with
  | nil => exact absurd hchar List.not_mem_nil
  | cons word words ih =>
      cases words with
      | nil =>
          rw [spaced, List.intercalate_singleton] at hchar
          exact .inr ⟨word, List.mem_cons_self, hchar⟩
      | cons second words =>
          rw [spaced_cons word (List.cons_ne_nil second words), List.mem_append,
            List.mem_cons] at hchar
          rcases hchar with hword | hspace | hbehind
          · exact .inr ⟨word, List.mem_cons_self, hword⟩
          · exact .inl hspace
          · obtain hspace | ⟨found, hfound, hmem⟩ := ih hbehind
            · exact .inl hspace
            · exact .inr ⟨found, List.mem_cons_of_mem word hfound, hmem⟩

/-- Spaces are the only white space between tokens. -/
theorem eq_space_of_mem_spaced (hchar : char ∈ spaced (tokenize line))
    (hspace : isWhitespace char = true) : char = ' ' := by
  obtain heq | ⟨token, htoken, hmem⟩ := mem_spaced hchar
  · exact heq
  · rw [no_space_of_mem_tokenize htoken char hmem] at hspace
    cases hspace

/-- Single spaced, a line has no carriage return behind it. -/
theorem eq_of_spaced_ended (hended : Ended line raw) (hspaced : spaced (tokenize line) = raw) :
    raw = line := by
  obtain hraw | hraw := hended
  · exact hraw
  · have hreturn : '\r' ∈ spaced (tokenize line) := by
      rw [hspaced, hraw]
      exact List.mem_append_right line List.mem_cons_self
    exact absurd (eq_space_of_mem_spaced hreturn (by decide)) (by decide)

theorem reread_eq (hwildcard : some wildcard ∉ template) : reread template = template := by
  refine (List.map_congr_left fun slot hslot => ?_).trans (List.map_id template)
  cases slot with
  | none => rfl
  | some constant =>
      apply Option.filter_eq_some_iff.mpr
      exact ⟨rfl, decide_eq_true fun heq => hwildcard (heq ▸ hslot)⟩

theorem mem_of_mem_variants (htoken : token ∈ variants template tokens) : token ∈ tokens := by
  obtain ⟨slot, hslot, rfl⟩ := List.mem_map.mp htoken
  exact (List.of_mem_zip (List.mem_of_mem_filter hslot)).2

theorem length_variants (hfits : Fits template tokens) :
    (variants template tokens).length = template.count none :=
  (length_of_fillSlots (fillSlots_variants hfits)).1

theorem splitOn_variantRow (hnone : none ∈ template) (hfits : Fits template (tokenize line)) :
    (variantRow template line).splitOn ' ' = variants template (tokenize line) := by
  apply splitOn_spaced
  · exact fun token htoken => space_not_mem_of_tokenize (mem_of_mem_variants htoken)
  · intro hnil
    have hlength := length_variants hfits
    rw [hnil] at hlength
    exact List.count_eq_zero.mp hlength.symm hnone

theorem fill_variantRow (hnone : none ∈ template) (hwildcard : some wildcard ∉ template)
    (hfits : Fits template (tokenize line)) :
    fill (reread template) (variantRow template line) = some (spaced (tokenize line)) := by
  rw [fill, reread_eq hwildcard, splitOn_variantRow hnone hfits, fillSlots_variants hfits,
    Option.map_some]

theorem count_reread (template : Template) :
    (reread template).count none = template.count none + template.count (some wildcard) := by
  induction template with
  | nil => rfl
  | cons slot template ih =>
      rw [reread, List.map_cons, ← reread]
      cases slot with
      | none =>
          rw [Option.filter_none, List.count_cons_self, List.count_cons_self, ih,
            List.count_cons_of_ne (by simp)]
          omega
      | some constant =>
          by_cases hconstant : constant = wildcard
          · rw [Option.filter_some_neg (by simpa using hconstant), hconstant,
              List.count_cons_self, List.count_cons_self, ih, List.count_cons_of_ne (by simp)]
            omega
          · rw [Option.filter_some_pos (by simpa using hconstant),
              List.count_cons_of_ne (by simp), ih, List.count_cons_of_ne (by simp),
              List.count_cons_of_ne (by simpa using hconstant)]

/-- A constant that looks like a wildcard leaves too few tokens in the rows. -/
theorem fill_variantRow_eq_none (hnone : none ∈ template) (hwildcard : some wildcard ∈ template)
    (hfits : Fits template (tokenize line)) :
    fill (reread template) (variantRow template line) = none := by
  rw [fill, splitOn_variantRow hnone hfits, Option.map_eq_none_iff, Option.eq_none_iff_forall_ne_some]
  intro tokens htokens
  have hlength := (length_of_fillSlots htokens).1
  rw [length_variants hfits, count_reread] at hlength
  have hpos := List.count_pos_iff.mpr hwildcard
  omega

variable {lines : List Text}

theorem mapM_fill_variantRow (hnone : none ∈ template) (hwildcard : some wildcard ∉ template)
    (hfits : ∀ line ∈ lines, Fits template (tokenize line)) :
    (lines.map (variantRow template)).mapM (fill (reread template)) =
      some (lines.map fun line => spaced (tokenize line)) := by
  induction lines with
  | nil => rfl
  | cons line lines ih =>
      obtain ⟨hline, hlines⟩ := List.forall_mem_cons.mp hfits
      rw [List.map_cons, List.mapM_cons, fill_variantRow hnone hwildcard hline, ih hlines]
      rfl

/-- Tokens with single spaces between them are the lines exactly when the lines are so
spaced. -/
theorem map_spaced_eq_iff {raws : List Text} (hended : List.Forall₂ Ended lines raws) :
    lines.map (fun line => spaced (tokenize line)) = raws ↔
      (∀ line ∈ lines, line = spaced (tokenize line)) ∧ raws = lines := by
  induction hended with
  | nil => simp
  | @cons line raw lines raws hline hended ih =>
      rw [List.map_cons, List.cons.injEq, ih, List.forall_mem_cons, List.cons.injEq]
      constructor
      · rintro ⟨hspaced, hlines, hraws⟩
        have hraw := eq_of_spaced_ended hline hspaced
        exact ⟨⟨hraw.symm.trans hspaced.symm, hlines⟩, hraw, hraws⟩
      · rintro ⟨⟨hspaced, hlines⟩, hraw, hraws⟩
        exact ⟨hspaced.symm.trans hraw.symm, hlines, hraws⟩

theorem mapM_fill_eq_none (hne : lines ≠ []) (hnone : none ∈ template)
    (hwildcard : some wildcard ∈ template) (hfits : ∀ line ∈ lines, Fits template (tokenize line)) :
    (lines.map (variantRow template)).mapM (fill (reread template)) = none := by
  obtain ⟨line, lines, rfl⟩ := List.exists_cons_of_ne_nil hne
  rw [List.map_cons, List.mapM_cons,
    fill_variantRow_eq_none hnone hwildcard (hfits line List.mem_cons_self)]
  rfl

theorem exists_of_forall₂_append {left right raws : List Text}
    (hended : List.Forall₂ Ended (left ++ right) raws) :
    ∃ front back, raws = front ++ back ∧ List.Forall₂ Ended left front ∧
      List.Forall₂ Ended right back := by
  induction left generalizing raws with
  | nil => exact ⟨[], raws, rfl, .nil, hended⟩
  | cons line left ih =>
      obtain ⟨raw, raws, hline, hraws, rfl⟩ := List.forall₂_cons_left_iff.mp hended
      obtain ⟨front, back, rfl, hfront, hback⟩ := ih hraws
      exact ⟨raw :: front, back, rfl, .cons hline hfront, hback⟩

/-- What is read behind a line that is taken for a header does not begin with the line. -/
theorem decodeRows_header_ne {text : Text} {found : Template × ℕ}
    (hread : readHeader templateId text = some found) (hended : Ended text raw)
    (rows raws : List Text) :
    decodeRows (templateId + 1) found.1 found.2 rows ≠ some (raw :: raws) := by
  obtain ⟨template, occurrences⟩ := found
  obtain ⟨left, rfl⟩ := Nat.exists_eq_add_of_lt (of_readHeader hread).1
  rw [Nat.zero_add]
  cases rows with
  | nil => exact Option.some_ne_none _ ∘ Eq.symm
  | cons row rows =>
      intro heq
      rw [decodeRows, Option.bind_eq_bind, Option.bind_eq_some_iff] at heq
      obtain ⟨line, hline, hrest⟩ := heq
      obtain ⟨later, -, hcons⟩ := Option.map_eq_some_iff.mp hrest
      exact ne_of_readHeader hread hended hline (List.cons.inj hcons).1

/-- The reader gives the lines back exactly when the items are readable and the lines have
no carriage returns behind them. -/
theorem decodeRows_rows_iff {items : List Item} {raws : List Text}
    (hitems : ∀ item ∈ items, item.WellFormed)
    (hspaceless : ∀ item ∈ items, ∀ template lines, item = .block template lines →
      Spaceless template)
    (hended : List.Forall₂ Ended (items.flatMap Item.lines) raws) (templateId : ℕ) :
    decodeRows templateId [] 0 (Item.rows templateId items) = some raws ↔
      Readable templateId items ∧ raws = items.flatMap Item.lines := by
  induction items generalizing templateId raws with
  | nil =>
      cases hended
      exact iff_of_true rfl ⟨trivial, rfl⟩
  | cons item items ih =>
      obtain ⟨hitem, hrestItems⟩ := List.forall_mem_cons.mp hitems
      obtain ⟨htemplate, hrestSpaceless⟩ := List.forall_mem_cons.mp hspaceless
      cases item with
      | line text =>
          obtain ⟨raw, raws, hline, hbehind, rfl⟩ := List.forall₂_cons_left_iff.mp hended
          rw [Item.rows, decodeRows, Readable, List.flatMap_cons]
          cases hread : readHeader templateId text with
          | none =>
              have hrest := ih hrestItems hrestSpaceless hbehind templateId
              dsimp only
              rw [Option.map_eq_some_iff]
              constructor
              · rintro ⟨lines, hlines, heq⟩
                cases heq
                obtain ⟨hreadable, hraws⟩ := hrest.mp hlines
                exact ⟨⟨rfl, hreadable⟩, congrArg (text :: ·) hraws⟩
              · rintro ⟨⟨-, hreadable⟩, heq⟩
                obtain ⟨rfl, hraws⟩ := List.cons.inj heq
                exact ⟨raws, hrest.mpr ⟨hreadable, hraws⟩, rfl⟩
          | some found =>
              refine iff_of_false ?_ fun hreadable => Option.some_ne_none _ hreadable.1.1
              exact decodeRows_header_ne hread hline _ _
      | block template lines =>
          obtain ⟨hne, hnone, hfits⟩ := hitem
          obtain ⟨front, back, rfl, hfront, hback⟩ := exists_of_forall₂_append hended
          have hpos : 0 < lines.length := List.length_pos_iff.mpr hne
          rw [Item.rows, decodeRows, readHeader_header templateId (List.ne_nil_of_mem hnone) hpos
            (htemplate template lines rfl)]
          dsimp only
          rw [← List.length_map (variantRow template), decodeRows_append, Readable,
            List.flatMap_cons]
          by_cases hwildcard : some wildcard ∈ template
          · refine iff_of_false ?_ fun hreadable => hreadable.1.1 hwildcard
            rw [mapM_fill_eq_none hne hnone hwildcard hfits, Option.bind_none]
            exact (Option.some_ne_none _).symm
          · rw [mapM_fill_variantRow hnone hwildcard hfits, Option.bind_some,
              Option.map_eq_some_iff]
            have hlines := map_spaced_eq_iff hfront
            have hrest := ih hrestItems hrestSpaceless hback (templateId + 1)
            constructor
            · rintro ⟨later, hlater, heq⟩
              obtain ⟨hspaced, rfl⟩ := List.append_inj heq
                ((List.length_map _).trans hfront.length_eq)
              obtain ⟨hsingle, rfl⟩ := hlines.mp hspaced
              obtain ⟨hreadable, hraws⟩ := hrest.mp hlater
              exact ⟨⟨hwildcard, hsingle, hreadable⟩, congrArg (front ++ ·) hraws⟩
            · rintro ⟨⟨-, hsingle, hreadable⟩, heq⟩
              obtain ⟨rfl, hraws⟩ := List.append_inj heq hfront.length_eq.symm
              exact ⟨back, hrest.mpr ⟨hreadable, hraws⟩,
                congrArg (· ++ back) (hlines.mpr ⟨hsingle, rfl⟩)⟩

end LogTemplate

end Legroom.Transforms
