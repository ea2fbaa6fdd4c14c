import Mathlib.Data.List.TakeWhile
import Legroom.Transforms.LogTemplate

/-!
# Lines of a search

A line of `grep` output names a file and a line number in front of the text that was found.
The separators are colons for matches and dashes for lines around them, and a path may have
dashes and numbers of its own.
-/

namespace Legroom.Transforms

namespace Search

open LogTemplate (Text isWhitespace decimal)

inductive ScanTier where
  | colon
  | dash
  | permissive
deriving DecidableEq

/-- A line cut at the two separators of a number. -/
structure Marker where
  path : Text
  digits : Text
  body : Text
deriving DecidableEq

def isSeparator (char : Char) : Bool := char = ':' || char = '-'

def ScanTier.opens : ScanTier → Char → Bool
  | .colon, char => char = ':'
  | .dash, char => char = '-'
  | .permissive, char => isSeparator char

/-- The separator behind the digits. -/
def ScanTier.closes : ScanTier → Char → Char → Bool
  | .permissive, _, close => isSeparator close
  | _, opening, close => opening = close

/-- `u8::is_ascii_whitespace` -/
def isAsciiWhitespace (char : Char) : Bool :=
  char = ' ' || char = '\t' || char = '\n' || char = '\x0C' || char = '\r'

/-! ## Extensions -/

def isExtension (run : Text) : Bool :=
  1 ≤ run.length && run.length ≤ 8 && run.any Char.isAlpha

def hasExtensionDot : Text → Bool
  | [] => false
  | char :: rest =>
      (char = '.' && isExtension (rest.takeWhile Char.isAlphanum)) || hasExtensionDot rest

def isPathSeparator (char : Char) : Bool := char = '/' || char = '\\'

def lastSegment (path : Text) : Text :=
  (path.reverse.takeWhile fun char => !isPathSeparator char).reverse

def lastSegmentHasExtension (path : Text) : Bool := hasExtensionDot (lastSegment path)

/-- The first of `str::split_whitespace`, empty if there is none. -/
def firstToken (text : Text) : Text :=
  (text.dropWhile isWhitespace).takeWhile fun char => !isWhitespace char

def pathContinues (rest : Text) : Bool :=
  (firstToken rest).any isPathSeparator || hasExtensionDot (firstToken rest)

/-! ## The scan -/

/-- The number in front of a separator, if the characters in front of it are one. -/
def ScanTier.markerAt (tier : ScanTier) (path : Text) (opening : Char) (back : Text) :
    Option Marker :=
  let digits := back.takeWhile Char.isDigit
  match back.drop digits.length with
  | close :: body =>
      if digits ≠ [] ∧ tier.closes opening close then some ⟨path, digits, body⟩ else none
  | [] => none

/-- The walk over a line from behind `front`, whose first `skip` characters belong to a number
that was passed.  `first` is the leftmost number so far. -/
def scanFrom (tier : ScanTier) : Option Marker → ℕ → Text → Text → Option Marker
  | first, _, _, [] => first
  | first, skip + 1, front, char :: back => scanFrom tier first skip (front ++ [char]) back
  | first, 0, front, char :: back =>
      if tier.opens char ∧ ¬front.getLast?.any isSeparator then
        if tier ≠ .permissive ∧ front.any isAsciiWhitespace then first
        else
          match tier.markerAt front char back with
          | some marker =>
              if front = [] then none
              else if tier ≠ .dash ∨ lastSegmentHasExtension front ∨
                  ¬pathContinues marker.body then
                some marker
              else scanFrom tier (first <|> some marker) (marker.digits.length + 1)
                (front ++ [char]) back
          | none => scanFrom tier first 0 (front ++ [char]) back
      else scanFrom tier first 0 (front ++ [char]) back

/-- The length of the drive that stands in front of an absolute path. -/
def driveLength : Text → ℕ
  | letter :: colon :: slash :: _ =>
      if letter.isAlpha ∧ colon = ':' ∧ isPathSeparator slash then 2 else 0
  | _ => 0

/-- `parse::<u64>` on digits -/
def parseU64 (digits : Text) : Option ℕ :=
  let value := Nat.ofDigitChars 10 digits 0
  if value < 2 ^ 64 then some value else none

/-- What a line of the output is about. -/
structure ParsedLine where
  file : Text
  lineNumber : ℕ
  body : Text
deriving DecidableEq

def scanMatchLine (line : Text) (tier : ScanTier) : Option ParsedLine :=
  let start := driveLength line
  (scanFrom tier none 0 (line.take start) (line.drop start)).bind fun marker =>
    (parseU64 marker.digits).map fun number => ⟨marker.path, number, marker.body⟩

def parseMatchLine (line : Text) : Option ParsedLine :=
  scanMatchLine line .colon <|> scanMatchLine line .dash <|> scanMatchLine line .permissive

example : parseMatchLine "logs/2026-05-03/Makefile-12-all:".toList =
    some ⟨"logs/2026-05-03/Makefile".toList, 12, "all:".toList⟩ := by decide +kernel

/-! ## Passing over characters -/

variable {tier : ScanTier}

theorem scanFrom_pass {stretch : Text} (hstretch : ∀ char ∈ stretch, tier.opens char = false)
    (first : Option Marker) (front back : Text) :
    scanFrom tier first 0 front (stretch ++ back) =
      scanFrom tier first 0 (front ++ stretch) back := by
  induction stretch generalizing front with
  | nil => rw [List.nil_append, List.append_nil]
  | cons char stretch ih =>
      obtain ⟨hchar, hstretch⟩ := List.forall_mem_cons.mp hstretch
      rw [List.cons_append, scanFrom, hchar, if_neg (fun hopens => Bool.false_ne_true hopens.1),
        ih hstretch, List.append_assoc, List.singleton_append]

theorem scanFrom_skip (tier : ScanTier) (stretch : Text) (first : Option Marker)
    (front back : Text) : scanFrom tier first stretch.length front (stretch ++ back) =
      scanFrom tier first 0 (front ++ stretch) back := by
  induction stretch generalizing front with
  | nil => rw [List.nil_append, List.append_nil, List.length_nil]
  | cons char stretch ih =>
      rw [List.cons_append, List.length_cons, scanFrom, ih, List.append_assoc,
        List.singleton_append]

theorem isSeparator_of_closes {opening close : Char} (hopens : tier.opens opening = true)
    (hcloses : tier.closes opening close = true) : isSeparator close = true := by
  cases tier with
  | colon =>
      rw [← of_decide_eq_true hcloses, of_decide_eq_true hopens]
      rfl
  | dash =>
      rw [← of_decide_eq_true hcloses, of_decide_eq_true hopens]
      rfl
  | permissive => exact hcloses

theorem not_isDigit_of_isSeparator {char : Char} (hchar : isSeparator char = true) :
    char.isDigit = false := by
  rw [isSeparator, Bool.or_eq_true, decide_eq_true_iff, decide_eq_true_iff] at hchar
  rcases hchar with rfl | rfl
  · rfl
  · rfl

variable {back : Text} {marker : Marker}

/-- What a marker is cut from. -/
theorem markerAt_eq_some_iff {path : Text} {opening : Char} (hopens : tier.opens opening = true) :
    tier.markerAt path opening back = some marker ↔ marker.path = path ∧ marker.digits ≠ [] ∧
      (∀ digit ∈ marker.digits, digit.isDigit = true) ∧ ∃ close,
        tier.closes opening close = true ∧ back = marker.digits ++ close :: marker.body := by
  rw [ScanTier.markerAt]
  constructor
  · intro hmarker
    have hsplit : back.takeWhile Char.isDigit ++ back.drop (back.takeWhile Char.isDigit).length =
        back := by
      rw [← List.prefix_iff_eq_append]
      exact List.takeWhile_prefix Char.isDigit
    split at hmarker
    · rename_i close body hdrop
      split_ifs at hmarker with hcond
      cases hmarker
      rw [hdrop] at hsplit
      exact ⟨rfl, hcond.1, fun digit hdigit => List.mem_takeWhile_imp hdigit, close, hcond.2,
        hsplit.symm⟩
    · cases hmarker
  · rintro ⟨rfl, hne, hdigits, close, hcloses, rfl⟩
    have hclose := not_isDigit_of_isSeparator (isSeparator_of_closes hopens hcloses)
    have htake : (marker.digits ++ close :: marker.body).takeWhile Char.isDigit =
        marker.digits := by
      rw [List.takeWhile_append_of_pos hdigits, List.takeWhile_cons_of_neg, List.append_nil]
      rw [hclose]
      exact Bool.false_ne_true
    rw [htake, List.drop_left]
    exact if_pos ⟨hne, hcloses⟩

/-! ## Markers of a text -/

/-- The numbers between separators in a text, each with what is in front of it. -/
def markersFrom (tier : ScanTier) : Text → Text → List Marker
  | _, [] => []
  | front, char :: back =>
      (if tier.opens char ∧ ¬front.getLast?.any isSeparator then
        (tier.markerAt front char back).toList
      else []) ++ markersFrom tier (front ++ [char]) back

variable {right : Text}

theorem mem_markersFrom_append (front left : Text)
    (hmarker : marker ∈ markersFrom tier (front ++ left) right) :
    marker ∈ markersFrom tier front (left ++ right) := by
  induction left generalizing front with
  | nil => rwa [List.append_nil] at hmarker
  | cons char left ih =>
      rw [List.cons_append, markersFrom, List.mem_append]
      refine .inr (ih (front ++ [char]) ?_)
      rwa [List.append_assoc, List.singleton_append]

variable {front : Text}

theorem mem_markersFrom_head {char : Char}
    (hopens : tier.opens char = true ∧ ¬front.getLast?.any isSeparator)
    (hmarker : tier.markerAt front char back = some marker) :
    marker ∈ markersFrom tier front (char :: back) := by
  rw [markersFrom, if_pos hopens, hmarker]
  exact List.mem_append_left _ List.mem_cons_self

/-- What is in front of a text is in front of its markers. -/
theorem markersFrom_append_front (extra : Text) (hfront : front ≠ []) :
    markersFrom tier (extra ++ front) back =
      (markersFrom tier front back).map fun marker =>
        ⟨extra ++ marker.path, marker.digits, marker.body⟩ := by
  induction back generalizing front with
  | nil => rfl
  | cons char back ih =>
      have hmarkerAt : tier.markerAt (extra ++ front) char back =
          (tier.markerAt front char back).map fun marker =>
            ⟨extra ++ marker.path, marker.digits, marker.body⟩ := by
        rw [ScanTier.markerAt, ScanTier.markerAt]
        split
        · split_ifs
          · rfl
          · rfl
        · rfl
      rw [markersFrom, markersFrom, List.map_append, List.append_assoc,
        ih (List.append_ne_nil_of_right_ne_nil front (List.cons_ne_nil char [])),
        List.getLast?_append_of_ne_nil extra hfront, hmarkerAt]
      congr 1
      split_ifs
      · exact Option.toList_map ..
      · rfl

/-- Where every colon marker is behind white space, the colon tier finds none. -/
theorem scanFrom_colon_eq_none
    (hmarkers : ∀ marker ∈ markersFrom .colon front back,
      marker.path.any isAsciiWhitespace = true) :
    scanFrom .colon none 0 front back = none := by
  induction back generalizing front with
  | nil => rfl
  | cons char back ih =>
      have htail : scanFrom .colon none 0 (front ++ [char]) back = none := by
        refine ih fun marker hmarker => hmarkers marker ?_
        rw [markersFrom, List.mem_append]
        exact .inr hmarker
      rw [scanFrom]
      by_cases hopens : ScanTier.colon.opens char = true ∧ ¬front.getLast?.any isSeparator
      · rw [if_pos hopens]
        by_cases hblank : front.any isAsciiWhitespace = true
        · rw [if_pos ⟨by decide, hblank⟩]
        · rw [if_neg fun hbreak => hblank hbreak.2]
          cases hmarker : ScanTier.colon.markerAt front char back with
          | none => exact htail
          | some marker =>
              have hpath := ((markerAt_eq_some_iff hopens.1).mp hmarker).1
              have hmem := mem_markersFrom_head hopens hmarker
              rw [← hpath] at hblank
              exact absurd (hmarkers marker hmem) hblank
      · rw [if_neg hopens]
        exact htail

/-! ## Extensions in parts of a path -/

theorem takeWhile_append_dash (pred : Char → Bool) (hdash : pred '-' = false) (left right : Text) :
    (left ++ '-' :: right).takeWhile pred = left.takeWhile pred := by
  induction left with
  | nil => rw [List.nil_append, List.takeWhile_cons_of_neg (by simp [hdash]), List.takeWhile_nil]
  | cons char left ih =>
      rw [List.cons_append, List.takeWhile_cons, List.takeWhile_cons, ih]

/-- A dash ends an extension. -/
theorem hasExtensionDot_append_dash (left right : Text) :
    hasExtensionDot (left ++ '-' :: right) = (hasExtensionDot left || hasExtensionDot right) := by
  induction left with
  | nil =>
      rw [List.nil_append, hasExtensionDot, hasExtensionDot]
      rfl
  | cons char left ih =>
      rw [List.cons_append, hasExtensionDot, hasExtensionDot, ih,
        takeWhile_append_dash Char.isAlphanum rfl, Bool.or_assoc]

variable {digits : Text}

theorem hasExtensionDot_digits (hdigits : ∀ digit ∈ digits, digit.isDigit = true) :
    hasExtensionDot digits = false := by
  induction digits with
  | nil => rfl
  | cons digit digits ih =>
      obtain ⟨hdigit, hdigits⟩ := List.forall_mem_cons.mp hdigits
      have hdot : digit ≠ '.' := by
        rintro rfl
        exact absurd hdigit (by decide)
      rw [hasExtensionDot, ih hdigits, decide_eq_false hdot, Bool.false_and, Bool.or_false]

variable {left : Text}

theorem lastSegment_append (hright : right.any isPathSeparator = false) :
    lastSegment (left ++ right) = lastSegment left ++ right := by
  have hall : ∀ char ∈ right.reverse, (!isPathSeparator char) = true := by
    intro char hchar
    have hnot := List.any_eq_false.mp hright char (List.mem_reverse.mp hchar)
    rw [Bool.not_eq_true] at hnot
    rw [hnot]
    rfl
  rw [lastSegment, lastSegment, List.reverse_append, List.takeWhile_append_of_pos hall,
    List.reverse_append, List.reverse_reverse]

theorem any_isPathSeparator_digits (hdigits : ∀ digit ∈ digits, digit.isDigit = true) :
    digits.any isPathSeparator = false := by
  refine List.any_eq_false.mpr fun digit hdigit hseparator => ?_
  have hisDigit := hdigits digit hdigit
  rw [isPathSeparator, Bool.or_eq_true, decide_eq_true_iff, decide_eq_true_iff] at hseparator
  rcases hseparator with rfl | rfl
  · exact absurd hisDigit (by decide)
  · exact absurd hisDigit (by decide)

/-- A number at the end of a path is no extension. -/
theorem lastSegmentHasExtension_append_digits (front : Text)
    (hdigits : ∀ digit ∈ digits, digit.isDigit = true) :
    lastSegmentHasExtension (front ++ '-' :: digits) = lastSegmentHasExtension front := by
  have hbehind : ('-' :: digits).any isPathSeparator = false := by
    rw [List.any_cons, any_isPathSeparator_digits hdigits]
    rfl
  rw [lastSegmentHasExtension, lastSegment_append hbehind, hasExtensionDot_append_dash,
    hasExtensionDot_digits hdigits, Bool.or_false, lastSegmentHasExtension]

theorem firstToken_append (right : Text) (hleft : ∀ char ∈ left, isWhitespace char = false) :
    ∃ rest, firstToken (left ++ '-' :: right) = left ++ '-' :: rest := by
  have hdash : isWhitespace '-' = false := by decide
  have hdrop : (left ++ '-' :: right).dropWhile isWhitespace = left ++ '-' :: right := by
    cases left with
    | nil => exact List.dropWhile_cons_of_neg (by simp [hdash])
    | cons char left =>
        exact List.dropWhile_cons_of_neg (by simp [hleft char List.mem_cons_self])
  refine ⟨right.takeWhile fun char => !isWhitespace char, ?_⟩
  rw [firstToken, hdrop, List.takeWhile_append_of_pos fun char hchar => by
    rw [hleft char hchar]; rfl]
  rw [List.takeWhile_cons_of_pos (by rw [hdash]; rfl)]

/-- A path that has an extension behind a number goes on there. -/
theorem pathContinues_of_extension (hdigits : ∀ digit ∈ digits, digit.isDigit = true)
    (hleft : ∀ char ∈ left, isWhitespace char = false)
    (hpath : lastSegmentHasExtension (front ++ '-' :: digits ++ '-' :: left) = true)
    (hfront : lastSegmentHasExtension front = false) :
    pathContinues (left ++ '-' :: right) = true := by
  obtain ⟨rest, htoken⟩ := firstToken_append right hleft
  rw [pathContinues, htoken, List.any_append, hasExtensionDot_append_dash]
  cases hsegment : left.any isPathSeparator with
  | true => rfl
  | false =>
      have hbehind : ('-' :: digits ++ '-' :: left).any isPathSeparator = false := by
        rw [List.cons_append, List.any_cons, List.any_append, List.any_cons,
          any_isPathSeparator_digits hdigits, hsegment]
        rfl
      rw [List.append_assoc, lastSegmentHasExtension, lastSegment_append hbehind,
        List.cons_append, hasExtensionDot_append_dash, hasExtensionDot_append_dash,
        hasExtensionDot_digits hdigits, Bool.false_or] at hpath
      rw [lastSegmentHasExtension] at hfront
      rw [hfront, Bool.false_or] at hpath
      rw [hpath, Bool.true_or, Bool.or_true]

/-! ## Lines of `grep` -/

/-- A path as `grep` writes it in front of a separator. -/
structure GrepPath (path : Text) : Prop where
  nonempty : path ≠ []
  plain : ∀ char ∈ path, isWhitespace char = false
  colonless : ':' ∉ path.drop (driveLength path)
  closed : path.getLast? ≠ some '-'

namespace GrepPath

variable {path : Text}

theorem driveLength_append (hpath : GrepPath path) {separator next : Char} {rest : Text}
    (hseparator : isPathSeparator separator = false) (hnext : isPathSeparator next = false) :
    driveLength (path ++ separator :: next :: rest) = driveLength path := by
  match path, hpath.nonempty with
  | [first], _ =>
      rw [List.singleton_append, driveLength, hnext,
        if_neg fun hdrive => Bool.false_ne_true hdrive.2.2]
      rfl
  | [first, second], _ =>
      rw [List.cons_append, List.singleton_append, driveLength, hseparator,
        if_neg fun hdrive => Bool.false_ne_true hdrive.2.2]
      rfl
  | first :: second :: third :: path, _ => rfl

/-- A drive is shorter than the path. -/
theorem driveLength_lt (hpath : GrepPath path) : driveLength path < path.length := by
  match path, hpath.nonempty with
  | [first], _ => exact Nat.one_pos
  | [first, second], _ => exact Nat.two_pos
  | first :: second :: third :: path, _ =>
      rw [driveLength, List.length_cons, List.length_cons, List.length_cons]
      split_ifs
      · omega
      · omega

theorem getLast?_not_separator (hpath : GrepPath path) :
    ¬path.getLast?.any isSeparator = true := by
  obtain ⟨front, last, rfl⟩ := (List.eq_nil_or_concat' path).resolve_left hpath.nonempty
  rw [List.getLast?_concat, Option.any_some, isSeparator, Bool.or_eq_true, decide_eq_true_iff,
    decide_eq_true_iff]
  rintro (rfl | rfl)
  · have hlength := hpath.driveLength_lt
    refine hpath.colonless ?_
    rw [List.length_append, List.length_singleton] at hlength
    rw [List.drop_append_of_le_length (Nat.le_of_lt_succ hlength)]
    exact List.mem_append_right _ List.mem_cons_self
  · exact hpath.closed List.getLast?_concat

theorem not_asciiWhitespace (hpath : GrepPath path) {front back : Text}
    (hsplit : path = front ++ back) : ¬front.any isAsciiWhitespace = true := by
  intro hblank
  obtain ⟨char, hchar, hblank⟩ := List.any_eq_true.mp hblank
  have hplain := hpath.plain char (hsplit ▸ List.mem_append_left back hchar)
  simp only [isAsciiWhitespace, Bool.or_eq_true, decide_eq_true_iff] at hblank
  obtain (((rfl | rfl) | rfl) | rfl) | rfl := hblank <;> exact absurd hplain (by decide)

end GrepPath

theorem decimal_digits (number : ℕ) : decimal number ≠ [] ∧
    (∀ digit ∈ decimal number, digit.isDigit = true) ∧
      (number < 2 ^ 64 → parseU64 (decimal number) = some number) := by
  refine ⟨Nat.toDigits_ne_nil, fun digit hdigit =>
    Nat.isDigit_of_mem_toDigits (by decide) (by decide) hdigit, fun hnumber => ?_⟩
  rw [parseU64, decimal, Nat.ofDigitChars_ten_toDigits]
  exact if_pos hnumber

/-- Digits in front of a dash, at the beginning of a text that goes on with a dash. -/
theorem part_eq_cases {rest body : Text} (hdigits : ∀ digit ∈ digits, digit.isDigit = true)
    (heq : back ++ '-' :: rest = digits ++ '-' :: body) :
    back = digits ∨ ∃ left, back = digits ++ '-' :: left ∧ body = left ++ '-' :: rest := by
  rcases List.append_eq_append_iff.mp heq with ⟨inner, hinner, hrest⟩ | ⟨inner, hinner, hrest⟩
  · cases inner with
    | nil => exact .inl (hinner.trans (List.append_nil back)).symm
    | cons char inner =>
        obtain ⟨rfl, -⟩ := List.cons.inj hrest
        have hdash := hdigits '-' (hinner ▸ List.mem_append_right back List.mem_cons_self)
        exact absurd hdash (by decide)
  · cases inner with
    | nil => exact .inl (hinner.trans (List.append_nil digits))
    | cons char inner =>
        obtain ⟨rfl, hbody⟩ := List.cons.inj hrest
        exact .inr ⟨inner, hinner, hbody⟩

section

variable {path digits body : Text} (hpath : GrepPath path) (hne : digits ≠ [])
  (hdigits : ∀ digit ∈ digits, digit.isDigit = true)

include hpath hne hdigits

/-- The scan starts behind the drive of the path. -/
theorem scanMatchLine_eq {separator : Char} (hseparator : isPathSeparator separator = false)
    (tier : ScanTier) : scanMatchLine (path ++ separator :: (digits ++ separator :: body)) tier =
      (scanFrom tier none 0 (path.take (driveLength path))
        (path.drop (driveLength path) ++ separator :: (digits ++ separator :: body))).bind
          fun marker => (parseU64 marker.digits).map fun number =>
            ⟨marker.path, number, marker.body⟩ := by
  have hdrive : driveLength (path ++ separator :: (digits ++ separator :: body)) =
      driveLength path := by
    obtain ⟨digit, rest, rfl⟩ := List.exists_cons_of_ne_nil hne
    refine hpath.driveLength_append hseparator ?_
    have hany := any_isPathSeparator_digits hdigits
    rw [List.any_cons, Bool.or_eq_false_iff] at hany
    exact hany.1
  have hle := hpath.driveLength_lt.le
  rw [scanMatchLine, hdrive, List.take_append_of_le_length hle, List.drop_append_of_le_length hle]

/-- At the separator behind the path. -/
theorem scanFrom_separator {tier : ScanTier} {separator : Char}
    (hopens : tier.opens separator = true) (hcloses : tier.closes separator separator = true)
    (hstop : tier ≠ .dash ∨ lastSegmentHasExtension path = true) (first : Option Marker) :
    scanFrom tier first 0 path (separator :: (digits ++ separator :: body)) =
      some ⟨path, digits, body⟩ := by
  have hmarker : tier.markerAt path separator (digits ++ separator :: body) =
      some ⟨path, digits, body⟩ :=
    (markerAt_eq_some_iff hopens).mpr ⟨rfl, hne, hdigits, separator, hcloses, rfl⟩
  have hblank := hpath.not_asciiWhitespace (List.append_nil path).symm
  rw [scanFrom, if_pos ⟨hopens, hpath.getLast?_not_separator⟩,
    if_neg fun hbreak => hblank hbreak.2, hmarker]
  dsimp only
  rw [if_neg hpath.nonempty, if_pos (hstop.imp_right .inl)]

/-- The first colon behind the drive is the separator. -/
theorem scanFrom_colon (hcolon : ':' ∉ path.drop (driveLength path)) :
    scanFrom .colon none 0 (path.take (driveLength path))
      (path.drop (driveLength path) ++ ':' :: (digits ++ ':' :: body)) =
        some ⟨path, digits, body⟩ := by
  rw [scanFrom_pass, List.take_append_drop]
  · exact scanFrom_separator hpath hne hdigits rfl rfl (.inl (by decide)) none
  · exact fun char hchar => decide_eq_false fun heq => hcolon (heq ▸ hchar)

omit hne in
/-- No colon of the body separates anything. -/
theorem scanFrom_colon_dashes
    (hbody : ∀ marker ∈ markersFrom .colon ['-'] body,
      marker.path.any isAsciiWhitespace = true) :
    scanFrom .colon none 0 (path.take (driveLength path))
      (path.drop (driveLength path) ++ '-' :: (digits ++ '-' :: body)) = none := by
  have hcolonless : ∀ char ∈ path.drop (driveLength path) ++ ('-' :: digits ++ ['-']),
      ScanTier.colon.opens char = false := by
    intro char hchar
    refine decide_eq_false fun heq => ?_
    rw [heq, List.mem_append, List.mem_append, List.mem_cons, List.mem_singleton] at hchar
    rcases hchar with hchar | (hchar | hchar) | hchar
    · exact hpath.colonless hchar
    · exact absurd hchar (by decide)
    · exact absurd (hdigits ':' hchar) (by decide)
    · exact absurd hchar (by decide)
  have hsplit : path.drop (driveLength path) ++ '-' :: (digits ++ '-' :: body) =
      path.drop (driveLength path) ++ ('-' :: digits ++ ['-']) ++ body := by
    simp only [List.append_assoc, List.cons_append, List.nil_append]
  rw [hsplit, scanFrom_pass hcolonless, ← List.append_assoc, List.take_append_drop,
    ← List.append_assoc]
  refine scanFrom_colon_eq_none fun marker hmarker => ?_
  rw [markersFrom_append_front _ (List.cons_ne_nil '-' [])] at hmarker
  obtain ⟨inner, hinner, rfl⟩ := List.mem_map.mp hmarker
  rw [List.any_append, hbody inner hinner, Bool.or_true]

/-- From a place in the path on, the dash tier stops at its end. -/
theorem scanFrom_dash (hextension : lastSegmentHasExtension path = true) {front back : Text}
    (hsplit : path = front ++ back)
    (hmarkers : ∀ marker ∈ markersFrom .dash front (back ++ ['-']),
      marker.path ≠ [] ∧ lastSegmentHasExtension marker.path = false) (first : Option Marker) :
    scanFrom .dash first 0 front (back ++ '-' :: (digits ++ '-' :: body)) =
      some ⟨path, digits, body⟩ := by
  induction hlength : back.length using Nat.strong_induction_on generalizing front back first with
  | _ length ih =>
  cases back with
  | nil =>
      rw [List.append_nil] at hsplit
      rw [← hsplit, List.nil_append]
      exact scanFrom_separator hpath hne hdigits rfl rfl (.inr hextension) first
  | cons char back =>
      have hshorter : back.length < length := by
        rw [← hlength]
        exact Nat.lt_succ_self _
      have hnext : scanFrom .dash first 0 (front ++ [char])
          (back ++ '-' :: (digits ++ '-' :: body)) = some ⟨path, digits, body⟩ := by
        refine ih back.length hshorter (by rw [hsplit, List.append_assoc]; rfl)
          (fun marker hmarker => hmarkers marker ?_) first rfl
        exact mem_markersFrom_append front [char] hmarker
      rw [List.cons_append, scanFrom]
      by_cases hopens : ScanTier.dash.opens char = true ∧ ¬front.getLast?.any isSeparator
      · rw [if_pos hopens, if_neg fun hbreak => hpath.not_asciiWhitespace hsplit hbreak.2]
        cases hmarker : ScanTier.dash.markerAt front char
            (back ++ '-' :: (digits ++ '-' :: body)) with
        | none => exact hnext
        | some marker =>
            obtain ⟨hfront, hsome, hall, close, hclose, hback⟩ :=
              (markerAt_eq_some_iff hopens.1).mp hmarker
            obtain rfl : '-' = char := (of_decide_eq_true hopens.1).symm
            obtain rfl : '-' = close := of_decide_eq_true hclose
            rcases part_eq_cases hall hback with hend | ⟨left, hleft, hbody⟩
            · -- The number would end the path, which has its extension in front of it.
              obtain ⟨-, hnone⟩ := hmarkers ⟨front, marker.digits, []⟩
                (mem_markersFrom_head hopens ((markerAt_eq_some_iff rfl).mpr
                  ⟨rfl, hsome, hall, '-', rfl, by rw [hend]; rfl⟩))
              rw [hsplit, hend, lastSegmentHasExtension_append_digits front hall,
                hnone] at hextension
              exact absurd hextension Bool.false_ne_true
            · obtain ⟨hsome', hnone⟩ := hmarkers ⟨front, marker.digits, left ++ ['-']⟩
                (mem_markersFrom_head hopens ((markerAt_eq_some_iff rfl).mpr
                  ⟨rfl, hsome, hall, '-', rfl, by rw [hleft]; exact List.append_assoc _ _ _⟩))
              have hpassed : path = front ++ '-' :: marker.digits ++ '-' :: left := by
                rw [hsplit, hleft, List.append_assoc]
                rfl
              have hcontinues : pathContinues marker.body = true := by
                rw [hbody]
                refine pathContinues_of_extension hall (fun other hother => ?_)
                  (hpassed ▸ hextension) hnone
                refine hpath.plain other ?_
                rw [hpassed]
                exact List.mem_append_right _ (List.mem_cons_of_mem _ hother)
              have hstretch : back ++ '-' :: (digits ++ '-' :: body) =
                  (marker.digits ++ ['-']) ++ (left ++ '-' :: (digits ++ '-' :: body)) := by
                rw [hleft]
                simp only [List.append_assoc, List.cons_append, List.nil_append]
              have hlengths : (marker.digits ++ ['-']).length = marker.digits.length + 1 := by
                rw [List.length_append, List.length_singleton]
              dsimp only
              rw [if_neg hsome', if_neg, hstretch, ← hlengths, scanFrom_skip]
              · refine ih left.length ?_ ?_ (fun other hother => hmarkers other ?_) _ rfl
                · rw [← hlength, hleft, List.length_cons, List.length_append, List.length_cons]
                  omega
                · rw [hpassed]
                  simp only [List.append_assoc, List.cons_append, List.nil_append]
                · have hmem := mem_markersFrom_append front ('-' :: marker.digits ++ ['-'])
                    (by simpa only [List.append_assoc, List.cons_append, List.nil_append]
                      using hother)
                  rw [hleft]
                  simpa only [List.append_assoc, List.cons_append, List.nil_append] using hmem
              · rintro (htier | hext | hstop)
                · exact htier rfl
                · exact Bool.false_ne_true (hnone.symm.trans hext)
                · exact hstop hcontinues
      · rw [if_neg hopens]
        exact hnext

end

/-- A match line is read back, and so is a line around a match if its path has an extension,
which no number of the path follows, and its body has no number between colons. -/
theorem parseMatchLine_recovers {path : Text} {number : ℕ} (hpath : GrepPath path)
    (hnumber : number < 2 ^ 64) (body : Text) :
    parseMatchLine (path ++ ':' :: decimal number ++ ':' :: body) = some ⟨path, number, body⟩ ∧
    (lastSegmentHasExtension path = true →
      (∀ marker ∈ markersFrom .dash [] (path ++ ['-']),
        marker.path ≠ [] ∧ lastSegmentHasExtension marker.path = false) →
      (∀ marker ∈ markersFrom .colon ['-'] body, marker.path.any isAsciiWhitespace = true) →
      parseMatchLine (path ++ '-' :: decimal number ++ '-' :: body) =
        some ⟨path, number, body⟩) := by
  obtain ⟨hne, hdigits, hparse⟩ := decimal_digits number
  constructor
  · rw [List.append_assoc, List.cons_append, parseMatchLine,
      scanMatchLine_eq hpath hne hdigits (by decide),
      scanFrom_colon hpath hne hdigits hpath.colonless, Option.bind_some, hparse hnumber]
    rfl
  · intro hextension hmarkers hbody
    have hdash : scanFrom .dash none 0 (path.take (driveLength path))
        (path.drop (driveLength path) ++ '-' :: (decimal number ++ '-' :: body)) =
          some ⟨path, decimal number, body⟩ := by
      refine scanFrom_dash hpath hne hdigits hextension
        (List.take_append_drop (driveLength path) path).symm
        (fun marker hmarker => hmarkers marker ?_) none
      have hmem := mem_markersFrom_append [] (path.take (driveLength path)) hmarker
      rwa [← List.append_assoc, List.take_append_drop] at hmem
    rw [List.append_assoc, List.cons_append, parseMatchLine,
      scanMatchLine_eq hpath hne hdigits (by decide),
      scanFrom_colon_dashes hpath hdigits hbody, Option.bind_none,
      scanMatchLine_eq hpath hne hdigits (by decide), hdash, Option.bind_some, hparse hnumber]
    rfl

theorem parseMatchLine_recovers_dated :
    parseMatchLine ("logs/2026-05-03/app.log".toList ++ ':' :: decimal 12 ++ ':' ::
        "03:04:05 -1- up".toList) =
      some ⟨"logs/2026-05-03/app.log".toList, 12, "03:04:05 -1- up".toList⟩ ∧
    parseMatchLine ("logs/2026-05-03/app.log".toList ++ '-' :: decimal 12 ++ '-' ::
        "-1- at 03:04:05".toList) =
      some ⟨"logs/2026-05-03/app.log".toList, 12, "-1- at 03:04:05".toList⟩ := by
  have hplain : ("logs/2026-05-03/app.log".toList.all fun char => !isWhitespace char) = true := by
    decide +kernel
  have hpath : GrepPath "logs/2026-05-03/app.log".toList :=
    ⟨by decide +kernel, fun char hchar => by simpa using List.all_eq_true.mp hplain char hchar,
      by decide +kernel, by decide +kernel⟩
  exact ⟨(parseMatchLine_recovers hpath (by decide) _).1,
    (parseMatchLine_recovers hpath (by decide) _).2 (by decide +kernel) (by decide +kernel)
      (by decide +kernel)⟩

/-- A path with a dash at its end, a body with a number between colons and a path with a number
at its end. -/
theorem misread_lines :
    parseMatchLine ("a-".toList ++ ':' :: decimal 1 ++ ':' :: "b".toList) = none ∧
    parseMatchLine ("src/main.py".toList ++ '-' :: decimal 40 ++ '-' :: "foo:12:bar".toList) =
      some ⟨"src/main.py-40-foo".toList, 12, "bar".toList⟩ ∧
    parseMatchLine ("dir/a.b-5".toList ++ '-' :: decimal 7 ++ '-' :: "body".toList) =
      some ⟨"dir/a.b".toList, 5, "7-body".toList⟩ := by
  decide +kernel

end Search

end Legroom.Transforms
