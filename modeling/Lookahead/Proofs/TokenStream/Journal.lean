import Lookahead.Proofs.Tape.Journal
import Lookahead.Proofs.TokenStream.Draining

/-!
This module contains the journals of token streams over a source that ends: what each request has
recorded, in order. All requests but two make the tape advance and nothing else, and so record at most
that the end of the input has been reached.
-/

namespace Lookahead

namespace TokenStream

open TokenSource (EndsAt)

variable {σ τ μ : Type} [Token τ] [TokenSource σ τ] {rule : LandingRule σ τ μ}

section Advance

variable (s : TokenStream rule)

theorem reaches_peek (k : Int) : s.tape.Reaches (s.peek k).2.tape := by
  apply s.reaches_prime.trans
  unfold peek
  split
  . exact s.prime.tape.reaches_ensure _
  . exact .refl _

theorem reaches_consume : s.tape.Reaches s.consume.2.tape := by
  rcases s.consume_cases with ⟨h, -⟩ | ⟨h, -⟩
  . rw [h]
    exact s.reaches_prime.trans s.reaches_step
  . rw [h]
    exact s.reaches_peek 1

theorem reaches_range (start stop : Int) : s.tape.Reaches (s.range start stop).2.tape := by
  unfold range
  split
  . exact s.reaches_prime
  . exact .refl _

theorem reaches_select (start stop : Nat) (kinds : Option (List Int32)) :
    s.tape.Reaches (s.select start stop kinds).2.tape := by
  unfold select
  dsimp only
  split <;> exact s.reaches_prime

theorem reaches_triviaAfter (i : Nat) (channel : Option UInt32) :
    s.tape.Reaches (s.triviaAfter i channel).2.tape := by
  apply s.reaches_prime.trans
  unfold triviaAfter
  dsimp only
  split
  . exact .refl _
  . exact s.prime.tape.reaches_nextOn ..

theorem reaches_triviaBefore (i : Nat) (channel : Option UInt32) :
    s.tape.Reaches (s.triviaBefore i channel).2.tape := by
  apply s.reaches_prime.trans
  unfold triviaBefore
  dsimp only
  split
  . exact .refl _
  . split
    . exact .refl _
    . split <;> exact s.prime.tape.reaches_prevOn ..

theorem reaches_textIn (x : Interval) : s.tape.Reaches (s.textIn x).2.tape := by
  unfold textIn
  split
  . exact s.reaches_prime.trans (s.prime.tape.reaches_ensure _)
  . exact .refl _

theorem reaches_textBetween (start stop : Option τ) :
    s.tape.Reaches (s.textBetween start stop).2.tape := by
  unfold textBetween
  split
  . apply reaches_textIn
  . exact .refl _

/--
The request has the stream pull all that is left of its source.
-/
def Request.drains : Request τ → Bool
  | .drain | .text => true
  | _ => false

/--
A request that does not drain the source makes the tape advance, and that is all it does to it.
-/
theorem reaches_answer {request : Request τ} (h : request.drains = false) :
    s.tape.Reaches (s.answer request).2.tape := by
  cases request with
  | consume => exact s.reaches_consume
  | look k => exact s.reaches_peek k
  | peek k => exact s.reaches_peek k
  | behind k => exact s.reaches_prime
  | mark => exact .refl _
  | release marker => exact .refl _
  | seek i => exact s.reaches_prime.trans (s.prime.reaches_moveTo i)
  | reach i => exact s.tape.reaches_ensure i
  | pull n => exact s.tape.reaches_advance n
  | drain => contradiction
  | get i => exact .refl _
  | range start stop => exact s.reaches_range start stop
  | select start stop kinds => exact s.reaches_select start stop kinds
  | nextOn i channel => exact s.tape.reaches_nextOn i channel
  | prevOn i channel => exact s.tape.reaches_prevOn i channel
  | triviaAfter i channel => exact s.reaches_triviaAfter i channel
  | triviaBefore i channel => exact s.reaches_triviaBefore i channel
  | text => contradiction
  | textIn x => exact s.reaches_textIn x
  | textBetween start stop => exact s.reaches_textBetween start stop

theorem answer_snd_of_drains {request : Request τ} (h : request.drains = true) :
    (s.answer request).2 = s.drain := by
  cases request with
  | drain => rfl
  | text => rfl
  | _ => contradiction

end Advance

/--
What a request has recorded over a source that ends at `n`, in order. Draining records its rounds, which
bring what is left after the stream is primed.
-/
def noted (s : TokenStream rule) (source : σ) (n : Nat) (request : Request τ) : List Event :=
  if request.drains then
    Tape.ending source n s.tape s.prime.tape ++
      Tape.roundsRecord source n s.prime.size
        (Tape.chunked (max s.settings.fillChunk 1) (n + 1 - s.prime.size))
  else
    Tape.ending source n s.tape (s.answer request).2.tape

def notedInTurn (s : TokenStream rule) (source : σ) (n : Nat) : List (Request τ) → List Event
  | [] => []
  | request :: rest =>
    s.noted source n request ++ (s.answer request).2.notedInTurn source n rest

section Source

variable {source : σ} {n : Nat} {s : TokenStream rule}

theorem noted_of_drains {request : Request τ} (h : request.drains = true) :
    s.noted source n request =
      Tape.ending source n s.tape s.prime.tape ++
        Tape.roundsRecord source n s.prime.size
          (Tape.chunked (max s.settings.fillChunk 1) (n + 1 - s.prime.size)) := if_pos h

theorem noted_of_not_drains {request : Request τ} (h : request.drains = false) :
    s.noted source n request = Tape.ending source n s.tape (s.answer request).2.tape :=
  if_neg (Bool.not_eq_true _ ▸ h)

theorem Reachable.journal_answer (hs : Reachable rule source s) (hn : EndsAt source n)
    (request : Request τ) :
    (s.answer request).2.tape.journal.toList =
      s.tape.journal.toList ++ s.noted source n request := by
  cases h : request.drains with
  | true =>
    have hprime := hs.records.journal_of_reaches hn s.reaches_prime
    have hdrain := hs.records_prime.journal_drain hn s.fillChunk_pos
    rw [s.answer_snd_of_drains h]
    rw [s.drain_eq]
    rw [noted_of_drains h]
    rw [← List.append_assoc]
    rw [← hprime]
    exact hdrain
  | false =>
    rw [noted_of_not_drains h]
    exact hs.records.journal_of_reaches hn (s.reaches_answer h)

theorem Reachable.journal_answers (hs : Reachable rule source s) (hn : EndsAt source n)
    (requests : List (Request τ)) :
    (s.answers requests).2.tape.journal.toList =
      s.tape.journal.toList ++ s.notedInTurn source n requests := by
  induction requests generalizing s with
  | nil => exact (List.append_nil _).symm
  | cons request rest ih =>
    unfold TokenStream.answers notedInTurn
    rw [← List.append_assoc]
    rw [← hs.journal_answer hn]
    exact ih (hs.answer request)

/--
A request has the end recorded that its answer has come to.
-/
theorem Reachable.filter_noted (hs : Reachable rule source s) (hn : EndsAt source n)
    (request : Request τ) :
    (s.noted source n request).filter Event.isEnd =
      Tape.ending source n s.tape (s.answer request).2.tape := by
  cases h : request.drains with
  | true =>
    have hdrain := hs.records_prime.filter_roundsRecord_drain hn s.fillChunk_pos
    rw [s.answer_snd_of_drains h]
    rw [s.drain_eq]
    rw [noted_of_drains h]
    rw [List.filter_append]
    rw [Tape.filter_ending]
    unfold size
    rw [hdrain]
    exact Tape.ending_append_ending s.grows_tape_prime (Tape.grows_drain ..)
  | false =>
    rw [noted_of_not_drains h]
    apply Tape.filter_ending

theorem Reachable.filter_journal (hs : Reachable rule source s) (hn : EndsAt source n) :
    s.tape.journal.toList.filter Event.isEnd =
      if s.tape.exhausted then [Tape.theEnd source n] else [] := by
  change _ = Tape.ending source n { source } s.tape
  induction hs with
  | ofSource memory settings => rfl
  | @answer s request hs ih =>
    rw [hs.journal_answer hn]
    rw [List.filter_append]
    rw [ih]
    rw [hs.filter_noted hn]
    exact Tape.ending_append_ending hs.grows_tape (s.grows_tape_answer request)

theorem Reachable.theEnd_mem_noted_iff (hs : Reachable rule source s) (hn : EndsAt source n)
    (request : Request τ) :
    Tape.theEnd source n ∈ s.noted source n request ↔
      s.tape.exhausted = false ∧ (s.answer request).2.tape.exhausted = true := by
  rw [← Tape.theEnd_mem_ending_iff]
  rw [← hs.filter_noted hn]
  rw [List.mem_filter]
  exact ⟨fun h => ⟨h, rfl⟩, And.left⟩

end Source

/--
Over a source that ends, the journal of a stream is what its requests have recorded, in turn. The end of
the input is in it once if the tape has come to the end, and not at all before. It is recorded by just
the request that makes the tape come there, as the last of that many tokens, and never again. A request
that drains the source records, after the end if priming the stream has come to it, full rounds as long
as there is a chunk left and then one short round, each with the size of the tape by then and the end
just before the round that has brought it. No other request records a round.
-/
theorem journal_eq_notedInTurn (rule : LandingRule σ τ μ) (memory : μ) {source : σ} {n : Nat}
    (hn : EndsAt source n) (settings : TokenSettings) (requests : List (Request τ)) :
    let fresh := ofSource rule memory source settings
    let s := (fresh.answers requests).2
    s.tape.journal.toList = fresh.notedInTurn source n requests ∧
      s.tape.journal.toList.filter Event.isEnd =
        (if s.tape.exhausted then [Tape.theEnd source n] else []) ∧
      ∀ request : Request τ,
        let t := (s.answer request).2
        t.tape.journal.toList = s.tape.journal.toList ++ s.noted source n request ∧
          (Tape.theEnd source n ∈ s.noted source n request ↔
            s.tape.exhausted = false ∧ t.tape.exhausted = true) ∧
          (request.drains = false → ∀ e ∈ s.noted source n request, e.isRound = false) := by
  intro fresh s
  have hfresh : Reachable rule source fresh := .ofSource memory settings
  have hs : Reachable rule source s := hfresh.answers requests
  refine ⟨hfresh.journal_answers hn requests, hs.filter_journal hn, ?_⟩
  intro request t
  refine ⟨hs.journal_answer hn request, hs.theEnd_mem_noted_iff hn request, ?_⟩
  intro hdrains e he
  rw [noted_of_not_drains hdrains] at he
  exact Tape.isRound_of_mem_ending he

/--
Priming takes the first of four tokens, and the three left come as one full chunk, so that there is a
round more that brings nothing. If the end has been looked up before, that is the only round.
-/
theorem journal_eq_notedInTurn_even_chunk :
    let source : Replay :=
      ⟨#[⟨1, "x", 0, 0, 0, 0⟩, ⟨2, " ", 1, 0, 1, 1⟩, ⟨3, "y", 0, 0, 2, 2⟩], 0, "letters"⟩
    let fresh : TokenStream (μ := Unit) .exact := ofSource .exact () source ⟨3⟩
    let s := (fresh.answers [.look 1, .text, .seek 9]).2
    EndsAt source 3 ∧
      s.tape.journal.toList = [.exhausted 4 "letters", .drained 3 4, .drained 0 4] ∧
      s.tape.journal.toList.filter Event.isEnd = [.exhausted 4 "letters"] ∧
      Tape.theEnd source 3 ∉ s.noted source 3 .drain ∧
      (fresh.answers [.look 4, .text]).2.tape.journal.toList =
        [.exhausted 4 "letters", .drained 0 4] := by
  intro source fresh s
  have hn : EndsAt source 3 := by
    constructor <;> decide
  obtain ⟨hjournal, hends, hrequest⟩ :=
    journal_eq_notedInTurn .exact () hn ⟨3⟩ [.look 1, .text, .seek 9]
  obtain ⟨hearly, -, -⟩ := journal_eq_notedInTurn .exact () hn ⟨3⟩ [.look 4, .text]
  refine ⟨hn, ?_, ?_, ?_, ?_⟩
  . rw [hjournal]
    decide +kernel
  . rw [hends]
    decide +kernel
  . rw [(hrequest .drain).2.1]
    decide +kernel
  . rw [hearly]
    decide +kernel

end TokenStream

end Lookahead
