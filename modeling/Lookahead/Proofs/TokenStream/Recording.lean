import Lookahead.Proofs.TokenStream.Effect

/-!
This module contains streams whose rule keeps a record of every index that it is asked for and of
where it then lands. The record is all that they have in addition: without it they are the streams
that land by the rule itself, and they answer everything as these do.
-/

namespace Lookahead

namespace LandingRule

variable {σ τ μ : Type} [Token τ] [TokenSource σ τ]

/--
The rule that does what `rule` does and records what it is asked for and where it lands, oldest first.
-/
def recorded (rule : LandingRule σ τ μ) : LandingRule σ τ (μ × List (Nat × Nat)) where
  land m c i :=
    let landing := rule.land m.1 c i
    ⟨landing.index, landing.tape, landing.memory, m.2 ++ [(i, landing.index)]⟩
  reaches_land m c i := rule.reaches_land m.1 c i

end LandingRule

namespace TokenStream

variable {σ τ μ : Type} [Token τ] [TokenSource σ τ] {rule : LandingRule σ τ μ}

def record (s : TokenStream rule.recorded) : List (Nat × Nat) := s.memory.2

/--
The stream without its record.
-/
def unrecorded (s : TokenStream rule.recorded) : TokenStream rule where
  tape := s.tape
  cursor := s.cursor
  memory := s.memory.1
  settings := s.settings

section Forget

variable (s : TokenStream rule.recorded)

theorem unrecorded_moveTo (i : Nat) : s.unrecorded.moveTo i = (s.moveTo i).unrecorded := rfl

theorem unrecorded_prime : s.unrecorded.prime = s.prime.unrecorded := by
  cases hc : s.cursor with
  | some p =>
    have hsome : s.cursor.isSome := by simp [hc]
    rw [prime_of_isSome hsome]
    rw [prime_of_isSome (s := s.unrecorded) hsome]
  | none =>
    rw [prime_of_eq_none hc]
    rw [prime_of_eq_none (s := s.unrecorded) hc]
    rw [← unrecorded_moveTo]
    rfl

theorem unrecorded_peek (k : Int) : s.unrecorded.peek k = (s.peek k).map id unrecorded := by
  unfold peek behind
  rw [unrecorded_prime]
  split <;> rfl

theorem unrecorded_look (k : Int) : s.unrecorded.look k = (s.look k).map id unrecorded := by
  unfold look
  rw [unrecorded_peek]
  rfl

theorem unrecorded_step : s.unrecorded.step = s.step.unrecorded := by
  rw [step_eq]
  rw [step_eq]
  rw [unrecorded_prime]
  dsimp only
  rw [apply_ite unrecorded]
  rfl

theorem unrecorded_consume : s.unrecorded.consume = s.consume.map id unrecorded := by
  have hcan : s.unrecorded.canStep = s.canStep := rfl
  unfold consume
  rw [hcan]
  rw [unrecorded_look]
  rw [unrecorded_step]
  simp only [Prod.map_fst, Prod.map_snd]
  rw [unrecorded_step]
  rw [apply_ite (Prod.map id unrecorded)]
  rw [apply_ite (Prod.map id unrecorded)]
  rfl

theorem unrecorded_drain : s.unrecorded.drain = s.drain.unrecorded := by
  unfold drain
  rw [unrecorded_prime]
  rfl

theorem unrecorded_range (start stop : Int) :
    s.unrecorded.range start stop = (s.range start stop).map id unrecorded := by
  unfold range
  rw [unrecorded_prime]
  split <;> rfl

theorem unrecorded_select (start stop : Nat) (kinds : Option (List Int32)) :
    s.unrecorded.select start stop kinds = (s.select start stop kinds).map id unrecorded := by
  unfold select
  rw [unrecorded_prime]
  rw [apply_ite (Prod.map id unrecorded)]
  rfl

theorem unrecorded_triviaAfter (i : Nat) (channel : Option UInt32) :
    s.unrecorded.triviaAfter i channel = (s.triviaAfter i channel).map id unrecorded := by
  unfold triviaAfter
  rw [unrecorded_prime]
  rw [apply_ite (Prod.map id unrecorded)]
  rfl

theorem unrecorded_triviaBefore (i : Nat) (channel : Option UInt32) :
    s.unrecorded.triviaBefore i channel = (s.triviaBefore i channel).map id unrecorded := by
  unfold triviaBefore
  rw [unrecorded_prime]
  rw [apply_ite (Prod.map id unrecorded)]
  rw [apply_ite (Prod.map id unrecorded)]
  rw [apply_ite (Prod.map id unrecorded)]
  rfl

theorem unrecorded_textIn (x : Interval) :
    s.unrecorded.textIn x = (s.textIn x).map id unrecorded := by
  unfold textIn
  rw [unrecorded_prime]
  split <;> rfl

theorem unrecorded_textBetween (start stop : Option τ) :
    s.unrecorded.textBetween start stop = (s.textBetween start stop).map id unrecorded := by
  unfold textBetween
  split
  . apply unrecorded_textIn
  . rfl

theorem unrecorded_behind (k : Nat) :
    s.unrecorded.behind k = (s.behind k).map id unrecorded := by
  unfold behind
  rw [unrecorded_prime]
  rfl

theorem unrecorded_seek (i : Nat) : s.unrecorded.seek i = (s.seek i).unrecorded := by
  unfold seek
  rw [unrecorded_prime]
  apply unrecorded_moveTo

theorem unrecorded_text : s.unrecorded.text = s.text.map id unrecorded := by
  unfold text
  rw [unrecorded_drain]
  rfl

/--
Streams that are the same but for the record stay so whatever the answer is made into.
-/
theorem map_unrecorded {α β : Type} (f : α → β) {x : α × TokenStream rule}
    {y : α × TokenStream rule.recorded} (h : x = y.map id unrecorded) :
    x.map f id = (y.map f id).map id unrecorded := by
  rw [h]
  rfl

theorem unrecorded_answer (request : Request τ) :
    s.unrecorded.answer request = (s.answer request).map id unrecorded := by
  cases request with
  | mark => rfl
  | release marker => rfl
  | reach i => rfl
  | pull n => rfl
  | get i => rfl
  | nextOn i channel => rfl
  | prevOn i channel => rfl
  | seek i => exact congrArg _ (s.unrecorded_seek i)
  | drain => exact congrArg _ s.unrecorded_drain
  | consume => exact map_unrecorded _ s.unrecorded_consume
  | look k => exact map_unrecorded _ (s.unrecorded_look k)
  | peek k => exact map_unrecorded _ (s.unrecorded_peek k)
  | behind k => exact map_unrecorded _ (s.unrecorded_behind k)
  | range start stop => exact map_unrecorded _ (s.unrecorded_range start stop)
  | select start stop kinds => exact map_unrecorded _ (s.unrecorded_select start stop kinds)
  | triviaAfter i channel => exact map_unrecorded _ (s.unrecorded_triviaAfter i channel)
  | triviaBefore i channel => exact map_unrecorded _ (s.unrecorded_triviaBefore i channel)
  | text => exact map_unrecorded _ s.unrecorded_text
  | textIn x => exact map_unrecorded _ (s.unrecorded_textIn x)
  | textBetween start stop => exact map_unrecorded _ (s.unrecorded_textBetween start stop)

end Forget

/--
Whatever is asked of a stream, its record makes no difference to the answers, nor to the rest of it.
-/
theorem unrecorded_answers (s : TokenStream rule.recorded) (requests : List (Request τ)) :
    s.unrecorded.answers requests = (s.answers requests).map id unrecorded := by
  induction requests generalizing s with
  | nil => rfl
  | cons request rest ih =>
    unfold answers
    rw [unrecorded_answer]
    dsimp only [Prod.map]
    rw [ih]
    rfl

end TokenStream

end Lookahead
