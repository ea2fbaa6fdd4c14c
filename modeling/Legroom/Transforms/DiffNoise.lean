import Legroom.Transforms.DiffCompressor

/-!
# Noise in diffs

The hunks of lockfiles, and those of files in which only white space changed, are replaced
by a line with their number of lines.  What a file was and what it becomes are read off its
hunks.
-/

namespace Legroom.Transforms

namespace DiffNoise

open LogTemplate (Text byteLen decimal lines linesText TransformError)
open Diff (literal startsWith)

/-! ## Configuration and results -/

structure DiffNoiseConfig where
  lockfileSuffixes : List Text
  dropWhitespaceOnlyHunks : Bool

structure OffloadOutput where
  output : Text
  bytesSaved : ℕ
  cacheKey : Text
deriving DecidableEq

def OffloadOutput.fromLengths (inputLen : ℕ) (output cacheKey : Text) : OffloadOutput :=
  ⟨output, inputLen - byteLen output, cacheKey⟩

def name : String := "diff_noise"

/-! ## Sections -/

/-- The part of a diff that belongs to one file. -/
structure Segment where
  newPath : Text
  headerLines : List Text
  bodyLines : List Text
deriving DecidableEq

def Segment.lines (segment : Segment) : List Text := segment.headerLines ++ segment.bodyLines

/-- What is behind the last occurrence of a word. -/
def afterLast (word : String) : Text → Option Text
  | [] => literal word []
  | char :: text => (afterLast word text).or (literal word (char :: text))

def parseNewPath (header : Text) : Text := (afterLast " b/" header).getD []

def startsFile (line : Text) : Bool := startsWith line "diff --git"

/-- The state of the walk over the lines. -/
structure Walk where
  segments : List Segment
  current : Option Segment
  inBody : Bool

def Walk.finish (walk : Walk) : List Segment := walk.segments ++ walk.current.toList

def Walk.step (walk : Walk) (line : Text) : Walk :=
  if startsFile line then ⟨walk.finish, some ⟨parseNewPath line, [line], []⟩, false⟩
  else
    match walk.current with
    | none => walk
    | some segment =>
        if walk.inBody || startsWith line "@@" then
          ⟨walk.segments, some { segment with bodyLines := segment.bodyLines ++ [line] }, true⟩
        else
          ⟨walk.segments, some { segment with headerLines := segment.headerLines ++ [line] }, false⟩

def parseSegments (content : Text) : List Segment :=
  ((lines content).foldl Walk.step ⟨[], none, false⟩).finish

/-- The lines before the first file. -/
def preDiffLines (content : Text) : List Text :=
  (lines content).takeWhile fun line => !startsFile line

def leadingPreDiffLines (content : Text) : Text := linesText (preDiffLines content)

/-! ## Noise -/

/-- `char::is_ascii_whitespace` -/
def isAsciiWhitespace (char : Char) : Bool :=
  char = ' ' || char = '\t' || char = '\n' || char = '\x0C' || char = '\r'

def stripWs (text : Text) : Text := text.filter fun char => !isAsciiWhitespace char

/-- The stripped lines that begin with a sign, but not with three of them. -/
def signedLines (sign : Char) (body : List Text) : List Text :=
  body.filterMap fun line =>
    if line.head? = some sign ∧ ¬[sign, sign, sign] <+: line then some (stripWs line.tail) else none

def Segment.bodyIsWhitespaceOnly (segment : Segment) : Bool :=
  let adds := signedLines '+' segment.bodyLines
  let subs := signedLines '-' segment.bodyLines
  !(adds.isEmpty && subs.isEmpty) && decide (adds = subs)

def isLockfile (config : DiffNoiseConfig) (path : Text) : Bool :=
  !path.isEmpty && config.lockfileSuffixes.any fun suffix =>
    decide (suffix <:+ path) &&
      match (path.take (path.length - suffix.length)).getLast? with
      | none => true
      | some char => char = '/' || char = '\\'

def dropsWhitespace (config : DiffNoiseConfig) (segment : Segment) : Bool :=
  config.dropWhitespaceOnlyHunks && segment.bodyIsWhitespaceOnly

def drops (config : DiffNoiseConfig) (segment : Segment) : Bool :=
  isLockfile config segment.newPath || dropsWhitespace config segment

/-! ## The offload -/

def droppedLine (config : DiffNoiseConfig) (segment : Segment) : Text :=
  let reason := if isLockfile config segment.newPath then "lockfile" else "whitespace-only"
  "[diff_noise: ".toList ++ reason.toList ++ " hunks dropped (".toList ++
    decimal segment.bodyLines.length ++ " lines)]".toList

/-- The lines of a section in the output. -/
def emitted (config : DiffNoiseConfig) (segment : Segment) : List Text :=
  segment.headerLines ++
    if drops config segment then [droppedLine config segment] else segment.bodyLines

def marker (key : Text) : Text := "\n[diff_noise CCR: hash=".toList ++ key ++ [']']

/-- The outcome, and what is put into the store. -/
def apply (md5Hex24 : Text → Text) (config : DiffNoiseConfig) (content : Text) :
    Except TransformError OffloadOutput × List (Text × Text) :=
  let segments := parseSegments content
  if segments.isEmpty then (.error (.skipped name "no diff sections"), [])
  else
    let output := leadingPreDiffLines content ++ linesText (segments.flatMap (emitted config))
    if !segments.any (drops config) || byteLen content ≤ byteLen output then
      (.error (.skipped name "no droppable hunks"), [])
    else
      let key := md5Hex24 content
      (.ok (.fromLengths (byteLen content) (output ++ marker key) key), [(key, content)])

/-! ## Every line is in a section or before the first -/

namespace Walk

/-- The lines that were walked over since the first file. -/
def taken (walk : Walk) : List Text := walk.finish.flatMap Segment.lines

/-- As long as the body has not begun, it is empty. -/
def HeaderFirst (walk : Walk) : Prop :=
  walk.inBody = false → ∀ segment ∈ walk.current, segment.bodyLines = []

theorem step_taken {walk : Walk} (hheader : walk.HeaderFirst) {line : Text}
    (hstarted : walk.current.isSome = true ∨ startsFile line = true) :
    (walk.step line).taken = walk.taken ++ [line] ∧ (walk.step line).HeaderFirst ∧
      (walk.step line).current.isSome = true := by
  by_cases hfile : startsFile line = true
  · rw [step, if_pos hfile]
    refine ⟨?_, fun _ segment hsegment => ?_, rfl⟩
    · rw [taken, finish, List.flatMap_append]
      rfl
    · rw [← Option.some.inj hsegment]
  · obtain ⟨segment, hsegment⟩ := Option.isSome_iff_exists.mp (hstarted.resolve_right hfile)
    rw [step, if_neg hfile, hsegment]
    dsimp only
    by_cases hbody : (walk.inBody || startsWith line "@@") = true
    · rw [if_pos hbody]
      refine ⟨?_, fun hfalse => absurd hfalse.symm Bool.false_ne_true, rfl⟩
      simp only [taken, finish, hsegment, Option.toList_some, List.flatMap_append,
        List.flatMap_singleton, Segment.lines, List.append_assoc]
    · rw [if_neg hbody]
      rw [Bool.or_eq_true, not_or, Bool.not_eq_true] at hbody
      have hempty := hheader hbody.1 segment hsegment
      refine ⟨?_, fun _ other hother => ?_, rfl⟩
      · simp only [taken, finish, hsegment, Option.toList_some, List.flatMap_append,
          List.flatMap_singleton, Segment.lines, hempty, List.append_nil, List.append_assoc]
      · rw [← Option.some.inj hother]
        exact hempty

theorem foldl_taken (rest : List Text) {walk : Walk} (hheader : walk.HeaderFirst)
    (hstarted : walk.current.isSome = true) :
    (rest.foldl step walk).taken = walk.taken ++ rest := by
  induction rest generalizing walk with
  | nil => exact (List.append_nil _).symm
  | cons line rest ih =>
      obtain ⟨htaken, hheader, hstarted⟩ := step_taken hheader (.inl hstarted)
      rw [List.foldl_cons, ih hheader hstarted, htaken, List.append_assoc]
      rfl

theorem takeWhile_append_taken (rest : List Text) :
    rest.takeWhile (fun line => !startsFile line) ++
      (rest.foldl step ⟨[], none, false⟩).taken = rest := by
  induction rest with
  | nil => rfl
  | cons line rest ih =>
      by_cases hfile : startsFile line = true
      · have hstart : (⟨[], none, false⟩ : Walk).HeaderFirst := fun _ _ hnone => nomatch hnone
        obtain ⟨htaken, hheader, hstarted⟩ := step_taken hstart (.inr hfile)
        rw [List.takeWhile_cons_of_neg (by simpa using hfile), List.foldl_cons,
          foldl_taken rest hheader hstarted, htaken]
        rfl
      · rw [List.takeWhile_cons_of_pos (by simpa using hfile), List.foldl_cons, step, if_neg hfile,
          List.cons_append]
        exact congrArg (line :: ·) ih

end Walk

/-- The sections and what is before them make up the diff. -/
theorem lines_eq (content : Text) :
    lines content = preDiffLines content ++ (parseSegments content).flatMap Segment.lines :=
  (Walk.takeWhile_append_taken (lines content)).symm

/-! ## Versions of a file -/

inductive Side where
  | old
  | new

def Side.sign : Side → Char
  | .old => '-'
  | .new => '+'

/-- A line that is on both sides.  A hunk header stands for the lines between two hunks, and
`\ No newline at end of file` for none. -/
def sharedText (line : Text) : Option Text :=
  if line.head? = some '+' ∨ line.head? = some '-' ∨ line.head? = some '\\' then none else some line

/-- The text of a line that is on one side only. -/
def changedText (side : Side) (line : Text) : Option Text :=
  if line.head? = some side.sign then some line.tail else none

/-- One side of the hunks without white space. -/
def version (side : Side) (body : List Text) : List Text :=
  body.filterMap fun line => ((sharedText line).or (changedText side line)).map stripWs

def sharedLines (body : List Text) : List Text :=
  body.filterMap fun line => (sharedText line).map stripWs

/-- The changed lines of a side without white space, each with the number of shared lines
before it. -/
def changesAt (side : Side) : ℕ → List Text → List (ℕ × Text)
  | _, [] => []
  | place, line :: body =>
      match sharedText line with
      | some _ => changesAt side (place + 1) body
      | none =>
          ((changedText side line).map fun text => (place, stripWs text)).toList ++
            changesAt side place body

/-- Lines at their places among others. -/
def weave : ℕ → List Text → List (ℕ × Text) → List Text
  | place, [], changes => (changes.takeWhile (·.1 ≤ place)).map (·.2)
  | place, line :: shared, changes =>
      (changes.takeWhile (·.1 ≤ place)).map (·.2) ++
        line :: weave (place + 1) shared (changes.dropWhile (·.1 ≤ place))

variable {side : Side} {body : List Text}

theorem place_le_of_mem_changesAt {place : ℕ} {change : ℕ × Text}
    (hchange : change ∈ changesAt side place body) : place ≤ change.1 := by
  induction body generalizing place with
  | nil => exact absurd hchange List.not_mem_nil
  | cons line body ih =>
      rw [changesAt] at hchange
      split at hchange
      · exact (Nat.le_succ place).trans (ih hchange)
      · rcases List.mem_append.mp hchange with hfirst | hrest
        · obtain ⟨text, -, rfl⟩ := Option.map_eq_some_iff.mp (Option.mem_toList.mp hfirst)
          exact le_rfl
        · exact ih hrest

theorem weave_cons (place : ℕ) (shared : List Text) (text : Text) (changes : List (ℕ × Text)) :
    weave place shared ((place, text) :: changes) = text :: weave place shared changes := by
  cases shared with
  | nil => simp only [weave, List.takeWhile_cons, le_refl, decide_true, if_true, List.map_cons]
  | cons line shared =>
      simp only [weave, List.takeWhile_cons, List.dropWhile_cons, le_refl, decide_true, if_true,
        List.map_cons, List.cons_append]

/-- Behind a shared line all changes are later. -/
theorem weave_shared {place : ℕ} {line : Text} {shared : List Text} {changes : List (ℕ × Text)}
    (hlater : ∀ change ∈ changes, place + 1 ≤ change.1) :
    weave place (line :: shared) changes = line :: weave (place + 1) shared changes := by
  cases changes with
  | nil => rfl
  | cons change changes =>
      have hfirst : ¬change.1 ≤ place := Nat.not_le_of_lt (hlater change List.mem_cons_self)
      simp only [weave, List.takeWhile_cons, List.dropWhile_cons, hfirst, decide_false,
        Bool.false_eq_true, if_false, List.map_nil, List.nil_append]

/-- A version consists of the shared lines and the side's changes at their places. -/
theorem version_eq_weave (side : Side) (place : ℕ) (body : List Text) :
    version side body = weave place (sharedLines body) (changesAt side place body) := by
  induction body generalizing place with
  | nil => rfl
  | cons line body ih =>
      rw [version, sharedLines, changesAt, List.filterMap_cons, List.filterMap_cons]
      cases hshared : sharedText line with
      | some text =>
          exact (congrArg _ (ih (place + 1))).trans
            (weave_shared fun _ hchange => place_le_of_mem_changesAt hchange).symm
      | none =>
          cases hchanged : changedText side line with
          | none => exact ih place
          | some text => exact (congrArg _ (ih place)).trans (weave_cons place _ _ _).symm

/-! ## Dropped sections -/

/-- A line with a text that begins with two signs was added or removed. -/
def ChangesSigns (body : List Text) : Prop :=
  ∃ line ∈ body, ∃ side ∈ [Side.old, Side.new], (changedText side line).any fun text =>
    startsWith text "++" || startsWith text "--"

instance (body : List Text) : Decidable (ChangesSigns body) :=
  inferInstanceAs (Decidable (∃ line ∈ body, ∃ side ∈ [Side.old, Side.new], _))

/-- A removed line comes back behind or before a line that is shared. -/
def MovesLine (body : List Text) : Prop :=
  ∃ pair ∈ (changesAt .old 0 body).zip (changesAt .new 0 body),
    pair.1.2 = pair.2.2 ∧ pair.1.1 ≠ pair.2.1

/-- The removed and the added lines have equally many shared lines before them, one by one. -/
def SamePlaces (body : List Text) : Prop :=
  (changesAt .old 0 body).map (·.1) = (changesAt .new 0 body).map (·.1)

instance (body : List Text) : Decidable (SamePlaces body) :=
  inferInstanceAs (Decidable ((changesAt .old 0 body).map (·.1) = _))

theorem sharedText_of_sign {line : Text} (hsign : line.head? = some side.sign) :
    sharedText line = none := by
  rw [sharedText, if_pos]
  cases side with
  | old => exact .inr (.inl hsign)
  | new => exact .inl hsign

/-- A line with three signs has a text that begins with two. -/
theorem startsWith_of_signs {text : Text}
    (hsigns : [side.sign, side.sign, side.sign] <+: side.sign :: text) :
    (startsWith text "++" || startsWith text "--") = true := by
  have htext := (List.prefix_cons_inj side.sign).mp hsigns
  cases side with
  | old => exact Bool.or_eq_true_iff.mpr (.inr (decide_eq_true htext))
  | new => exact Bool.or_eq_true_iff.mpr (.inl (decide_eq_true htext))

/-- Without texts that begin with signs all changed lines are compared. -/
theorem signedLines_eq (hplain : ¬ChangesSigns body) (side : Side) (place : ℕ) :
    signedLines side.sign body = (changesAt side place body).map (·.2) := by
  induction body generalizing place with
  | nil => rfl
  | cons line body ih =>
      have hrest : ¬ChangesSigns body := fun ⟨other, hother, hsigns⟩ =>
        hplain ⟨other, List.mem_cons_of_mem _ hother, hsigns⟩
      rw [signedLines, List.filterMap_cons, changesAt]
      by_cases hsign : line.head? = some side.sign
      · obtain ⟨text, rfl⟩ := List.head?_eq_some_iff.mp hsign
        have hchanged : changedText side (side.sign :: text) = some text := if_pos hsign
        have hfew : ¬[side.sign, side.sign, side.sign] <+: side.sign :: text := by
          refine fun hsigns => hplain ⟨_, List.mem_cons_self, side, by cases side <;> simp, ?_⟩
          rw [hchanged]
          exact startsWith_of_signs hsigns
        rw [if_pos ⟨hsign, hfew⟩, sharedText_of_sign hsign, hchanged]
        exact congrArg (stripWs text :: ·) (ih hrest place)
      · have hchanged : changedText side line = none := if_neg hsign
        rw [if_neg fun hboth => hsign hboth.1, hchanged]
        cases sharedText line with
        | none => exact ih hrest place
        | some shared => exact ih hrest (place + 1)

variable {config : DiffNoiseConfig}

/-- The lines that a whitespace-only section removes are those that it adds. -/
theorem changes_texts_eq {segment : Segment} (hdrops : dropsWhitespace config segment = true)
    (hplain : ¬ChangesSigns segment.bodyLines) :
    (changesAt .old 0 segment.bodyLines).map (·.2) =
      (changesAt .new 0 segment.bodyLines).map (·.2) := by
  rw [← signedLines_eq hplain, ← signedLines_eq hplain]
  rw [dropsWhitespace, Segment.bodyIsWhitespaceOnly, Bool.and_eq_true, Bool.and_eq_true,
    decide_eq_true_eq] at hdrops
  exact hdrops.2.2.symm

theorem map_fst_eq {left right : List (ℕ × Text)} (htexts : left.map (·.2) = right.map (·.2))
    (hpairs : ∀ pair ∈ left.zip right, pair.1.2 = pair.2.2 → pair.1.1 = pair.2.1) :
    left.map (·.1) = right.map (·.1) := by
  induction left generalizing right with
  | nil => rw [List.map_eq_nil_iff.mp htexts.symm]
  | cons first left ih =>
      cases right with
      | nil => cases htexts
      | cons other right =>
          obtain ⟨hfirst, hrest⟩ := List.cons.inj htexts
          rw [List.zip_cons_cons, List.forall_mem_cons] at hpairs
          rw [List.map_cons, List.map_cons, hpairs.1 hfirst, ih hrest hpairs.2]

/-- Whitespace-only changes move no line if and only if they are all in their places. -/
theorem not_movesLine_iff
    (htexts : (changesAt .old 0 body).map (·.2) = (changesAt .new 0 body).map (·.2)) :
    ¬MovesLine body ↔ SamePlaces body := by
  constructor
  · intro hstays
    refine map_fst_eq htexts fun pair hpair hsame => ?_
    by_contra hplace
    exact hstays ⟨pair, hpair, hsame, hplace⟩
  · rintro hplaces ⟨pair, hpair, -, hplace⟩
    have hsame : changesAt .old 0 body = changesAt .new 0 body :=
      (List.zip_of_prod hplaces htexts).trans (List.zip_of_prod rfl rfl).symm
    rw [hsame] at hpair
    obtain ⟨index, hindex, rfl⟩ := List.mem_iff_getElem.mp hpair
    rw [List.getElem_zip] at hplace
    exact hplace rfl

theorem version_eq (hplaces : SamePlaces body)
    (htexts : (changesAt .old 0 body).map (·.2) = (changesAt .new 0 body).map (·.2)) :
    version .old body = version .new body := by
  have hsame : changesAt .old 0 body = changesAt .new 0 body :=
    (List.zip_of_prod hplaces htexts).trans (List.zip_of_prod rfl rfl).symm
  rw [version_eq_weave .old 0, version_eq_weave .new 0, hsame]

/-- What is dropped is noise, what is not dropped is kept, and the store gets the input. -/
structure OnlyNoise (config : DiffNoiseConfig) (content : Text) (result : OffloadOutput)
    (stored : List (Text × Text)) : Prop where
  accounted : lines content = preDiffLines content ++ (parseSegments content).flatMap fun segment =>
    segment.headerLines ++ segment.bodyLines
  kept : result.output = linesText (preDiffLines content ++
    (parseSegments content).flatMap fun segment => segment.headerLines ++
      if drops config segment then [droppedLine config segment] else segment.bodyLines) ++
        marker result.cacheKey
  whitespace : ∀ segment ∈ parseSegments content, isLockfile config segment.newPath = false →
    drops config segment = true →
      version .old segment.bodyLines = version .new segment.bodyLines ∧
        ¬MovesLine segment.bodyLines ∧ ¬ChangesSigns segment.bodyLines
  stored : stored = [(result.cacheKey, content)]

theorem apply_eq_ok {md5Hex24 : Text → Text} {content : Text} {result : OffloadOutput}
    {stored : List (Text × Text)} (happly : apply md5Hex24 config content = (.ok result, stored)) :
    result.output = leadingPreDiffLines content ++
        linesText ((parseSegments content).flatMap (emitted config)) ++ marker result.cacheKey ∧
      stored = [(result.cacheKey, content)] := by
  rw [apply] at happly
  dsimp only at happly
  split_ifs at happly
  · cases happly
  · cases happly
  · obtain ⟨hresult, hstored⟩ := Prod.mk.inj happly
    rw [← Except.ok.inj hresult]
    exact ⟨rfl, hstored.symm⟩

/-- The offload drops only noise if and only if no whitespace-only section changes a line whose
text begins with signs, and all of them change every line in its place. -/
theorem onlyNoise_iff {md5Hex24 : Text → Text} {config : DiffNoiseConfig} {content : Text}
    {result : OffloadOutput} {stored : List (Text × Text)}
    (happly : apply md5Hex24 config content = (.ok result, stored)) :
    OnlyNoise config content result stored ↔
      ∀ segment ∈ parseSegments content, isLockfile config segment.newPath = false →
        dropsWhitespace config segment = true →
          ¬ChangesSigns segment.bodyLines ∧ SamePlaces segment.bodyLines := by
  obtain ⟨houtput, hstored⟩ := apply_eq_ok happly
  constructor
  · intro hnoise segment hsegment hlockfile hdrops
    obtain ⟨-, hstays, hplain⟩ := hnoise.whitespace segment hsegment hlockfile
      (by rw [drops, hdrops, Bool.or_true])
    exact ⟨hplain, (not_movesLine_iff (changes_texts_eq hdrops hplain)).mp hstays⟩
  · refine fun hplaces =>
      ⟨lines_eq content, ?_, fun segment hsegment hlockfile hdrops => ?_, hstored⟩
    · rw [houtput, leadingPreDiffLines, linesText, linesText, linesText, List.flatMap_append]
      rfl
    · rw [drops, hlockfile, Bool.false_or] at hdrops
      obtain ⟨hplain, hplace⟩ := hplaces segment hsegment hlockfile hdrops
      have htexts := changes_texts_eq hdrops hplain
      exact ⟨version_eq hplace htexts, (not_movesLine_iff htexts).mpr hplace, hplain⟩

/-! ## Two diffs -/

def lockfileConfig : DiffNoiseConfig := ⟨[['l', 'o', 'c', 'k']], true⟩

def call (name : Char) : Text := List.replicate 30 name

def oneFile (hunk : List Text) : Segment :=
  ⟨['r'], ["diff --git a/r b/r".toList], "@@".toList :: hunk⟩

def diffOf (hunk : List Text) : Text := linesText (oneFile hunk).lines

/-- A call is indented. -/
def indentedHunk : List Text := ['-' :: call 'a', '+' :: ' ' :: call 'a']

/-- Two calls are swapped. -/
def swappedHunk : List Text := ['-' :: call 'a', ' ' :: call 'b', '+' :: call 'a']

theorem exists_of_isOk {Error Result State : Type*} {outcome : Except Error Result × State}
    (hok : outcome.1.isOk = true) : ∃ result state, outcome = (.ok result, state) := by
  obtain ⟨done, state⟩ := outcome
  cases done with
  | error _ => exact absurd hok Bool.false_ne_true
  | ok result => exact ⟨result, state, rfl⟩

theorem onlyNoise_indented : ∃ result stored,
    apply id lockfileConfig (diffOf indentedHunk) = (.ok result, stored) ∧
      OnlyNoise lockfileConfig (diffOf indentedHunk) result stored := by
  have hok : (apply id lockfileConfig (diffOf indentedHunk)).1.isOk = true := by decide +kernel
  obtain ⟨result, stored, happly⟩ := exists_of_isOk hok
  refine ⟨result, stored, happly, (onlyNoise_iff happly).mpr fun segment hsegment _ _ => ?_⟩
  have hsegments : parseSegments (diffOf indentedHunk) = [oneFile indentedHunk] := by
    decide +kernel
  rw [hsegments, List.mem_singleton] at hsegment
  subst hsegment
  exact ⟨by decide +kernel, by decide +kernel⟩

/-- The swapped calls are dropped. -/
theorem swapped_calls_dropped : ∃ result stored,
    apply id lockfileConfig (diffOf swappedHunk) = (.ok result, stored) ∧
      ¬OnlyNoise lockfileConfig (diffOf swappedHunk) result stored := by
  have hok : (apply id lockfileConfig (diffOf swappedHunk)).1.isOk = true := by decide +kernel
  obtain ⟨result, stored, happly⟩ := exists_of_isOk hok
  refine ⟨result, stored, happly, fun hnoise => ?_⟩
  have hsegment : oneFile swappedHunk ∈ parseSegments (diffOf swappedHunk) := by decide +kernel
  obtain ⟨hversions, -⟩ := hnoise.whitespace _ hsegment (by decide +kernel) (by decide +kernel)
  exact absurd hversions (by decide +kernel)

end DiffNoise

end Legroom.Transforms
