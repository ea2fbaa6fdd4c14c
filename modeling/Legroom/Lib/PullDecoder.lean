import Mathlib.Data.List.Forall2
import Mathlib.Tactic.Common

/-!
# Incremental pull decoders

A pull decoder owns a buffer.  The caller appends chunks to the buffer and asks
for the next output whenever it likes; the decoder either cuts an output off
the front of the buffer or reports that it needs more input.  Two laws make
the outputs independent of how the stream was cut into chunks: an output that
was found is found again, unchanged, when more input follows it, and input
discarded while waiting does not matter later.

An output may be fatal: reading stops there, because the decoder promises
nothing about its buffer afterwards.
-/

namespace Legroom

variable {A Output : Type*}

structure PullDecoder (A Output : Type*) where
  /-- One request for an output: the output, if any, and the new buffer. -/
  next : List A → Option Output × List A
  fatal : Output → Bool
  stable : ∀ {buf rest more output}, next buf = (some output, rest) →
    next (buf ++ more) = (some output, rest ++ more)
  resume : ∀ {buf rest more}, next buf = (none, rest) →
    next (buf ++ more) = next (rest ++ more)
  progress : ∀ {buf rest output}, next buf = (some output, rest) →
    fatal output = false → rest.length < buf.length

namespace PullDecoder

variable (decoder : PullDecoder A Output)

/-- What a caller does to a decoder. -/
inductive Call (A : Type*) where
  | push (chunk : List A)
  | pull
  deriving DecidableEq

/-- The stream that a sequence of calls feeds in. -/
def pushed : List (Call A) → List A
  | [] => []
  | .push chunk :: calls => chunk ++ pushed calls
  | .pull :: calls => pushed calls

/-- The outputs of a sequence of calls and the buffer it leaves.  A fatal
output ends the reading: what is pushed after it only accumulates. -/
def runCalls : List A → List (Call A) → List Output × List A
  | buf, [] => ([], buf)
  | buf, .push chunk :: calls => runCalls (buf ++ chunk) calls
  | buf, .pull :: calls =>
      match decoder.next buf with
      | (none, rest) => runCalls rest calls
      | (some output, rest) =>
          if decoder.fatal output then ([output], rest ++ pushed calls)
          else
            let later := runCalls rest calls
            (output :: later.1, later.2)

variable {buf rest : List A}
variable (calls : List (Call A))

theorem runCalls_pull_of_none (hnext : decoder.next buf = (none, rest)) :
    decoder.runCalls buf (.pull :: calls) = decoder.runCalls rest calls := by
  rw [runCalls, hnext]

variable {output : Output}

theorem runCalls_pull_of_fatal (hnext : decoder.next buf = (some output, rest))
    (hfatal : decoder.fatal output = true) :
    decoder.runCalls buf (.pull :: calls) = ([output], rest ++ pushed calls) := by
  rw [runCalls, hnext]
  simp only [hfatal, if_true]

theorem runCalls_pull_of_some (hnext : decoder.next buf = (some output, rest))
    (hfatal : decoder.fatal output = false) :
    decoder.runCalls buf (.pull :: calls) =
      (output :: (decoder.runCalls rest calls).1,
        (decoder.runCalls rest calls).2) := by
  rw [runCalls, hnext]
  simp only [hfatal, Bool.false_eq_true, if_false]

/-- Request outputs until the decoder needs more input or fails. -/
def drain (buf : List A) : List Output × List A :=
  match _hnext : decoder.next buf with
  | (none, rest) => ([], rest)
  | (some output, rest) =>
      if _hfatal : decoder.fatal output then ([output], rest)
      else
        let later := drain rest
        (output :: later.1, later.2)
termination_by buf.length
decreasing_by exact decoder.progress _hnext (by simpa using _hfatal)

theorem drain_of_none (hnext : decoder.next buf = (none, rest)) :
    decoder.drain buf = ([], rest) := by
  rw [drain]
  split
  · rename_i found heq
    rw [hnext] at heq
    cases heq
    rfl
  · rename_i heq
    rw [hnext] at heq
    cases heq

theorem drain_of_fatal (hnext : decoder.next buf = (some output, rest))
    (hfatal : decoder.fatal output = true) : decoder.drain buf = ([output], rest) := by
  rw [drain]
  split
  · rename_i heq
    rw [hnext] at heq
    cases heq
  · rename_i heq
    rw [hnext] at heq
    cases heq
    rw [dif_pos hfatal]

theorem drain_of_some (hnext : decoder.next buf = (some output, rest))
    (hfatal : decoder.fatal output = false) :
    decoder.drain buf =
      (output :: (decoder.drain rest).1, (decoder.drain rest).2) := by
  rw [drain]
  split
  · rename_i heq
    rw [hnext] at heq
    cases heq
  · rename_i heq
    rw [hnext] at heq
    cases heq
    rw [dif_neg (by simp [hfatal])]

/-- A drain depends on the buffer through the next request only. -/
theorem drain_congr {left right : List A}
    (hsame : decoder.next left = decoder.next right) :
    decoder.drain left = decoder.drain right := by
  rcases hnext : decoder.next right with ⟨_ | output, rest⟩
  · rw [decoder.drain_of_none hnext, decoder.drain_of_none (hsame.trans hnext)]
  · cases hfatal : decoder.fatal output with
    | true =>
        rw [decoder.drain_of_fatal hnext hfatal,
          decoder.drain_of_fatal (hsame.trans hnext) hfatal]
    | false =>
        rw [decoder.drain_of_some hnext hfatal,
          decoder.drain_of_some (hsame.trans hnext) hfatal]

/-- Waiting discards nothing that a later drain would have used. -/
theorem drain_resume (more : List A) (hnext : decoder.next buf = (none, rest)) :
    decoder.drain (buf ++ more) = decoder.drain (rest ++ more) :=
  decoder.drain_congr (decoder.resume hnext)

theorem next_of_drain_eq_nil (hdrain : (decoder.drain buf).1 = []) :
    (decoder.next buf).1 = none := by
  rcases hnext : decoder.next buf with ⟨_ | output, rest⟩
  · rfl
  · cases hfatal : decoder.fatal output with
    | true =>
        rw [decoder.drain_of_fatal hnext hfatal] at hdrain
        cases hdrain
    | false =>
        rw [decoder.drain_of_some hnext hfatal] at hdrain
        cases hdrain

/-- What is appended to a buffer is drained behind what the buffer leaves. -/
theorem drain_append (buf more : List A)
    (hclean : ∀ output ∈ (decoder.drain buf).1, decoder.fatal output = false) :
    decoder.drain (buf ++ more) =
      ((decoder.drain buf).1 ++ (decoder.drain ((decoder.drain buf).2 ++ more)).1,
        (decoder.drain ((decoder.drain buf).2 ++ more)).2) := by
  induction hlength : buf.length using Nat.strongRecOn generalizing buf with
  | ind length ih =>
      subst hlength
      rcases hnext : decoder.next buf with ⟨_ | output, rest⟩
      · rw [decoder.drain_resume more hnext, decoder.drain_of_none hnext]
        rfl
      · cases hfatal : decoder.fatal output with
        | true =>
            rw [decoder.drain_of_fatal hnext hfatal] at hclean
            cases hfatal.symm.trans (hclean output List.mem_cons_self)
        | false =>
            rw [decoder.drain_of_some hnext hfatal] at hclean ⊢
            rw [decoder.drain_of_some (decoder.stable hnext) hfatal,
              ih _ (decoder.progress hnext hfatal) rest
                (fun found hfound => hclean found (List.mem_cons_of_mem output hfound)) rfl]
            rfl

/-- More input takes back no output. -/
theorem prefix_drain (buf more : List A) :
    (decoder.drain buf).1 <+: (decoder.drain (buf ++ more)).1 := by
  induction hlength : buf.length using Nat.strongRecOn generalizing buf with
  | ind length ih =>
      subst hlength
      rcases hnext : decoder.next buf with ⟨_ | output, rest⟩
      · rw [decoder.drain_of_none hnext]
        exact List.nil_prefix
      · cases hfatal : decoder.fatal output with
        | true =>
            refine ⟨[], ?_⟩
            rw [decoder.drain_of_fatal hnext hfatal, List.append_nil,
              decoder.drain_of_fatal (decoder.stable hnext) hfatal]
        | false =>
            rw [decoder.drain_of_some hnext hfatal,
              decoder.drain_of_some (decoder.stable hnext) hfatal, List.cons_prefix_cons]
            exact ⟨rfl, ih _ (decoder.progress hnext hfatal) rest rfl⟩

/-- The outputs of calls followed by a drain.  A drain only happens when the
calls met no fatal output. -/
def finish (outcome : List Output × List A) : List Output × List A :=
  if outcome.1.any decoder.fatal then outcome
  else
    let later := decoder.drain outcome.2
    (outcome.1 ++ later.1, later.2)

theorem finish_cons (hfatal : decoder.fatal output = false) (outcome : List Output × List A) :
    decoder.finish (output :: outcome.1, outcome.2) =
      (output :: (decoder.finish outcome).1, (decoder.finish outcome).2) := by
  simp only [finish, List.any_cons, hfatal, Bool.false_or]
  split_ifs <;> rfl

/-- Chunk invariance: any calls, completed by a drain, give the outputs and the
leftover of draining the whole stream at once. -/
theorem finish_runCalls (buf : List A) (calls : List (Call A)) :
    decoder.finish (decoder.runCalls buf calls) =
      decoder.drain (buf ++ pushed calls) := by
  induction calls generalizing buf with
  | nil => simp [runCalls, pushed, finish]
  | cons call calls ih =>
      cases call with
      | push chunk => rw [runCalls, pushed, ih, List.append_assoc]
      | pull =>
          rw [pushed]
          rcases hnext : decoder.next buf with ⟨_ | output, rest⟩
          · rw [decoder.runCalls_pull_of_none calls hnext,
              decoder.drain_resume (pushed calls) hnext]
            exact ih rest
          · have hstable : decoder.next (buf ++ pushed calls) =
                (some output, rest ++ pushed calls) := decoder.stable hnext
            cases hfatal : decoder.fatal output with
            | true =>
                rw [decoder.runCalls_pull_of_fatal calls hnext hfatal,
                  decoder.drain_of_fatal hstable hfatal]
                simp [finish, hfatal]
            | false =>
                rw [decoder.runCalls_pull_of_some calls hnext hfatal,
                  decoder.drain_of_some hstable hfatal, ← ih rest]
                exact decoder.finish_cons hfatal (decoder.runCalls rest calls)

/-- If every output is cut off the front of the buffer, related by `Emits` to
the bytes cut, and waiting cuts nothing, then no byte of the stream is lost:
the cut pieces and the final buffer make up what was pushed. -/
theorem runCalls_lossless (Emits : Output → List A → Prop)
    (hwait : ∀ {buf rest}, decoder.next buf = (none, rest) → rest = buf)
    (hcut : ∀ {buf rest output}, decoder.next buf = (some output, rest) →
      decoder.fatal output = false → ∃ piece, buf = piece ++ rest ∧ Emits output piece)
    (buf : List A) (calls : List (Call A))
    (hclean : ∀ output ∈ (decoder.runCalls buf calls).1,
      decoder.fatal output = false) :
    ∃ pieces, List.Forall₂ Emits (decoder.runCalls buf calls).1 pieces ∧
      buf ++ pushed calls = pieces.flatten ++ (decoder.runCalls buf calls).2 := by
  induction calls generalizing buf with
  | nil => exact ⟨[], List.Forall₂.nil, by simp [runCalls, pushed]⟩
  | cons call calls ih =>
      cases call with
      | push chunk =>
          rw [runCalls] at hclean ⊢
          rw [pushed, ← List.append_assoc]
          exact ih (buf ++ chunk) hclean
      | pull =>
          rw [pushed]
          rcases hnext : decoder.next buf with ⟨_ | output, rest⟩
          · rw [decoder.runCalls_pull_of_none calls hnext] at hclean ⊢
            obtain rfl := hwait hnext
            exact ih rest hclean
          · cases hfatal : decoder.fatal output with
            | true =>
                rw [decoder.runCalls_pull_of_fatal calls hnext hfatal] at hclean
                exact absurd (hclean output List.mem_cons_self) (by simp [hfatal])
            | false =>
                rw [decoder.runCalls_pull_of_some calls hnext hfatal] at hclean ⊢
                obtain ⟨piece, hbuf, hemits⟩ := hcut hnext hfatal
                obtain ⟨pieces, hpieces, hrest⟩ := ih rest
                  fun later hlater => hclean later (List.mem_cons_of_mem _ hlater)
                refine ⟨piece :: pieces, List.Forall₂.cons hemits hpieces, ?_⟩
                rw [hbuf, List.append_assoc, hrest, List.flatten_cons,
                  List.append_assoc]

end PullDecoder

end Legroom
