import Lookahead.Proofs.Tape.Extent
import Lookahead.TokenStream.Request

/-!
This module contains what the operations of a token stream do to the stream. Most of them leave the
cursor alone once the stream is primed and do nothing but let the tape grow; only `seek` and
`consume` move, and a move asks the landing rule once.
-/

namespace Lookahead

namespace TokenStream

theorem Request.moves_or_stays {τ : Type} (request : Request τ) :
    request = .consume ∨ (∃ i, request = .seek i) ∨
      request ≠ .consume ∧ ∀ i, request ≠ .seek i := by
  cases request with
  | consume => exact .inl rfl
  | seek i => exact .inr (.inl ⟨i, rfl⟩)
  | _ => simp

variable {σ τ μ : Type} [Token τ] [TokenSource σ τ] {rule : LandingRule σ τ μ}

/--
The stream `t` is what becomes of `s` when nothing but its tape grows.
-/
structure Grows (s t : TokenStream rule) : Prop where
  tape : s.tape.Grows t.tape
  cursor_eq : t.cursor = s.cursor
  memory_eq : t.memory = s.memory
  settings_eq : t.settings = s.settings

namespace Grows

theorem refl (s : TokenStream rule) : s.Grows s := ⟨.refl, rfl, rfl, rfl⟩

theorem trans {s t u : TokenStream rule} (h₁ : s.Grows t) (h₂ : t.Grows u) : s.Grows u where
  tape := h₁.tape.trans h₂.tape
  cursor_eq := h₂.cursor_eq.trans h₁.cursor_eq
  memory_eq := h₂.memory_eq.trans h₁.memory_eq
  settings_eq := h₂.settings_eq.trans h₁.settings_eq

theorem eq_withTape {s t : TokenStream rule} (h : s.Grows t) : t = s.withTape t.tape := by
  have hc := h.cursor_eq
  have hm := h.memory_eq
  have hs := h.settings_eq
  cases t
  simp only at hc hm hs
  subst hc hm hs
  rfl

theorem index_eq {s t : TokenStream rule} (h : s.Grows t) : t.index = s.index := by
  unfold index
  rw [h.cursor_eq]

end Grows

theorem grows_withTape {s : TokenStream rule} {tape : Tape σ τ} (h : s.tape.Grows tape) :
    s.Grows (s.withTape tape) := ⟨h, rfl, rfl, rfl⟩

section Prime

theorem cursor_prime (s : TokenStream rule) : s.prime.cursor = some s.prime.index := by
  unfold prime
  split
  . next h => simp [index, h]
  . rfl

theorem isSome_cursor_prime (s : TokenStream rule) : s.prime.cursor.isSome := by
  rw [cursor_prime]
  rfl

theorem index_of_eq_none {s : TokenStream rule} (h : s.cursor = none) : s.index = 0 := by
  unfold index
  rw [h]
  rfl

theorem prime_of_isSome {s : TokenStream rule} (h : s.cursor.isSome) : s.prime = s := by
  unfold prime
  split
  . rfl
  . next hs => simp [hs] at h

theorem prime_of_eq_none {s : TokenStream rule} (h : s.cursor = none) :
    s.prime = (s.withTape (s.tape.ensure 0)).moveTo 0 := by
  unfold prime
  rw [h]

theorem prime_moveTo (s : TokenStream rule) (i : Nat) : (s.moveTo i).prime = s.moveTo i :=
  prime_of_isSome rfl

theorem Grows.prime_eq {s t : TokenStream rule} (h : s.prime.Grows t) : t.prime = t := by
  apply prime_of_isSome
  rw [h.cursor_eq]
  exact s.isSome_cursor_prime

theorem Grows.index_prime_eq {s t : TokenStream rule} (h : s.prime.Grows t) :
    t.prime.index = s.prime.index := by
  rw [h.prime_eq]
  exact h.index_eq

theorem reaches_moveTo (s : TokenStream rule) (i : Nat) : s.tape.Reaches (s.moveTo i).tape :=
  rule.reaches_land ..

theorem grows_tape_moveTo (s : TokenStream rule) (i : Nat) : s.tape.Grows (s.moveTo i).tape :=
  (s.reaches_moveTo i).grows

theorem reaches_prime (s : TokenStream rule) : s.tape.Reaches s.prime.tape := by
  unfold prime
  split
  . exact .refl _
  . exact (s.tape.reaches_ensure 0).trans (reaches_moveTo (s.withTape (s.tape.ensure 0)) 0)

theorem grows_tape_prime (s : TokenStream rule) : s.tape.Grows s.prime.tape := s.reaches_prime.grows

end Prime

section Operations

variable (s : TokenStream rule)

theorem grows_reach (i : Nat) : s.Grows (s.reach i).2 := grows_withTape (s.tape.grows_ensure i)

theorem grows_pull (n : Nat) : s.Grows (s.pull n).2 := grows_withTape (s.tape.grows_advance n)

theorem grows_nextOn (i : Nat) (channel : UInt32) : s.Grows (s.nextOn i channel).2 :=
  grows_withTape (s.tape.reaches_nextOn i channel).grows

theorem grows_prevOn (i : Nat) (channel : UInt32) : s.Grows (s.prevOn i channel).2 :=
  grows_withTape (s.tape.reaches_prevOn i channel).grows

theorem grows_drain : s.prime.Grows s.drain := grows_withTape (Tape.grows_drain ..)

theorem grows_peek (k : Int) : s.prime.Grows (s.peek k).2 := by
  unfold peek
  split
  . exact grows_withTape (Tape.grows_ensure ..)
  . exact .refl _

theorem grows_look (k : Int) : s.prime.Grows (s.look k).2 := s.grows_peek k

theorem grows_select (start stop : Nat) (kinds : Option (List Int32)) :
    s.prime.Grows (s.select start stop kinds).2 := by
  unfold select
  dsimp only
  split <;> exact .refl _

theorem grows_triviaAfter (i : Nat) (channel : Option UInt32) :
    s.prime.Grows (s.triviaAfter i channel).2 := by
  unfold triviaAfter
  dsimp only
  split
  . exact .refl _
  . exact s.prime.grows_nextOn ..

theorem grows_triviaBefore (i : Nat) (channel : Option UInt32) :
    s.prime.Grows (s.triviaBefore i channel).2 := by
  unfold triviaBefore
  dsimp only
  split
  . exact .refl _
  . split
    . exact .refl _
    . split <;> exact s.prime.grows_prevOn ..

theorem range_of_neg {start stop : Int} (h : ¬(0 ≤ start ∧ 0 ≤ stop)) :
    s.range start stop = (none, s) := by
  unfold range
  split
  . next hstart hstop =>
    rw [Int.mem_toNat?] at hstart hstop
    omega
  . rfl

theorem range_of_nonneg {start stop : Int} (h : 0 ≤ start ∧ 0 ≤ stop) :
    s.range start stop =
      (if s.prime.size = 0 then none
        else some (beforeEof (s.prime.tape.slice start.toNat (min stop.toNat (s.prime.size - 1)))),
        s.prime) := by
  have hstart : start.toNat? = some start.toNat := Int.mem_toNat?.mpr (by omega)
  have hstop : stop.toNat? = some stop.toNat := Int.mem_toNat?.mpr (by omega)
  unfold range
  rw [hstart]
  rw [hstop]

theorem grows_range (start stop : Int) (h : 0 ≤ start ∧ 0 ≤ stop) :
    s.prime.Grows (s.range start stop).2 := by
  rw [s.range_of_nonneg h]
  apply Grows.refl

theorem textIn_of_neg {x : Interval} (h : x.lo.toInt < 0 ∨ x.hi.toInt < 0) :
    s.textIn x = ("", s) := by
  unfold textIn
  split
  . next start stop hstart hstop =>
    rw [Int.mem_toNat?] at hstart hstop
    omega
  . rfl

theorem textIn_of_nonneg {x : Interval} (hlo : 0 ≤ x.lo.toInt) (hhi : 0 ≤ x.hi.toInt) :
    s.textIn x =
      let tape := s.prime.tape.ensure x.hi.toInt.toNat
      (joinText (tape.slice x.lo.toInt.toNat (min x.hi.toInt.toNat (tape.size - 1))),
        s.prime.withTape tape) := by
  have hstart : x.lo.toInt.toNat? = some x.lo.toInt.toNat := Int.mem_toNat?.mpr (by omega)
  have hstop : x.hi.toInt.toNat? = some x.hi.toInt.toNat := Int.mem_toNat?.mpr (by omega)
  unfold textIn
  rw [hstart]
  rw [hstop]
  rfl

theorem grows_textIn (x : Interval) (h : 0 ≤ x.lo.toInt ∧ 0 ≤ x.hi.toInt) :
    s.prime.Grows (s.textIn x).2 := by
  rw [s.textIn_of_nonneg h.1 h.2]
  apply grows_withTape
  apply Tape.grows_ensure

/--
The request needs the cursor of the stream, and so primes the stream.
-/
def Request.needsCursor : Request τ → Bool
  | .consume | .look _ | .peek _ | .behind _ | .seek _ | .drain | .select .. => true
  | .triviaAfter .. | .triviaBefore .. | .text => true
  | .range start stop => decide (0 ≤ start ∧ 0 ≤ stop)
  | .textIn x => decide (0 ≤ x.lo.toInt ∧ 0 ≤ x.hi.toInt)
  | .textBetween (some start) (some stop) =>
    decide (0 ≤ (Token.index start).toInt ∧ 0 ≤ (Token.index stop).toInt)
  | .textBetween .. | .mark | .release _ | .reach _ | .pull _ | .get _ | .nextOn .. => false
  | .prevOn .. => false

/--
Asked for what does not need its cursor, a stream at most lets its tape grow.
-/
theorem grows_answer_of_not_needsCursor {request : Request τ} (h : request.needsCursor = false) :
    s.Grows (s.answer request).2 := by
  cases request with
  | mark => exact .refl s
  | release marker => exact .refl s
  | reach i => apply grows_reach
  | pull n => apply grows_pull
  | get i => exact .refl s
  | range start stop =>
    change s.Grows (s.range start stop).2
    rw [s.range_of_neg (of_decide_eq_false h)]
    apply Grows.refl
  | nextOn i channel => apply grows_nextOn
  | prevOn i channel => apply grows_prevOn
  | textIn x =>
    have hneg := of_decide_eq_false h
    change s.Grows (s.textIn x).2
    rw [s.textIn_of_neg (by omega)]
    apply Grows.refl
  | textBetween start stop =>
    cases start with
    | none => exact .refl s
    | some t =>
      cases stop with
      | none => exact .refl s
      | some u =>
        have hneg := of_decide_eq_false h
        change s.Grows (s.textIn ⟨Token.index t, Token.index u⟩).2
        rw [s.textIn_of_neg (by dsimp only; omega)]
        apply Grows.refl
  | _ => contradiction

/--
Asked for anything else that does not move it, a stream primes itself and lets its tape grow.
-/
theorem grows_answer_of_needsCursor {request : Request τ} (h : request.needsCursor = true)
    (hc : request ≠ .consume) (hs : ∀ i, request ≠ .seek i) :
    s.prime.Grows (s.answer request).2 := by
  cases request with
  | consume => exact absurd rfl hc
  | seek i => exact absurd rfl (hs i)
  | look k => apply grows_look
  | peek k => apply grows_peek
  | behind k => apply Grows.refl
  | drain => apply grows_drain
  | range start stop => exact s.grows_range start stop (of_decide_eq_true h)
  | select start stop kinds => apply grows_select
  | triviaAfter i channel => apply grows_triviaAfter
  | triviaBefore i channel => apply grows_triviaBefore
  | text => apply grows_drain
  | textIn x => exact s.grows_textIn x (of_decide_eq_true h)
  | textBetween start stop =>
    cases start with
    | none => contradiction
    | some t =>
      cases stop with
      | none => contradiction
      | some u => exact s.grows_textIn _ (of_decide_eq_true h)
  | _ => contradiction

/--
A request other than `consume` and `seek` lets the tape grow, of the stream as it is or once it is
primed, and that is all.
-/
theorem grows_answer {request : Request τ} (hc : request ≠ .consume)
    (hs : ∀ i, request ≠ .seek i) :
    s.Grows (s.answer request).2 ∨ s.prime.Grows (s.answer request).2 := by
  cases h : request.needsCursor with
  | false => exact .inl (s.grows_answer_of_not_needsCursor h)
  | true => exact .inr (s.grows_answer_of_needsCursor h hc hs)

theorem step_eq :
    s.step =
      let p := Position.succ s.prime.index
      let reached := s.prime.tape.reach p
      let t := s.prime.withTape reached.2
      if reached.1 then t.moveTo p else t := rfl

theorem reaches_step : s.prime.tape.Reaches s.step.tape := by
  rw [step_eq]
  dsimp only
  have h := s.prime.tape.reaches_ensure (Position.succ s.prime.index)
  split
  . exact h.trans (reaches_moveTo (s.prime.withTape _) _)
  . exact h

theorem grows_tape_step : s.prime.tape.Grows s.step.tape := s.reaches_step.grows

/--
Looking at the token that the stream is on makes no difference to a step.
-/
theorem step_look : (s.look 1).2.step = s.step := by
  have hp := (s.grows_look 1).prime_eq
  have hi := (s.grows_look 1).index_eq
  have ht : (s.look 1).2 = s.prime.withTape (s.prime.tape.ensure (Position.add s.prime.index 0)) := rfl
  have hle : Position.add s.prime.index 0 ≤ Position.succ s.prime.index := by
    simp only [Position.succ, Position.add]
    omega
  rw [step_eq]
  rw [step_eq]
  rw [hp]
  rw [hi]
  rw [ht]
  dsimp only [withTape]
  rw [Tape.reach_ensure hle]

/--
The two ways in which `consume` ends, and what tells them apart.
-/
theorem consume_cases :
    s.consume = (.ok (), s.step) ∧ (s.canStep = true ∨ (s.look 1).1 ≠ Symbol.eof) ∨
      s.consume = (.error .consumeEof, (s.look 1).2) ∧ (s.look 1).1 = Symbol.eof := by
  unfold consume
  split
  . next h => exact .inl ⟨rfl, .inl h⟩
  . dsimp only
    split
    . next he => exact .inr ⟨rfl, he⟩
    . next he =>
      rw [step_look]
      exact .inl ⟨rfl, .inr he⟩

/--
All that a request can do: let the tape grow, of the stream as it is or once it is primed, take a
step, or move.
-/
theorem answer_cases (request : Request τ) :
    s.Grows (s.answer request).2 ∨ s.prime.Grows (s.answer request).2 ∨
      request = .consume ∧ (s.answer request).2 = s.step ∨
      ∃ i, request = .seek i ∧ (s.answer request).2 = s.prime.moveTo i := by
  rcases request.moves_or_stays with rfl | ⟨i, rfl⟩ | ⟨hc, hseek⟩
  . rcases s.consume_cases with ⟨h, -⟩ | ⟨h, -⟩
    . exact .inr (.inr (.inl ⟨rfl, congrArg Prod.snd h⟩))
    . refine .inr (.inl ?_)
      change s.prime.Grows s.consume.2
      rw [h]
      exact s.grows_look 1
  . exact .inr (.inr (.inr ⟨i, rfl, rfl⟩))
  . rcases s.grows_answer hc hseek with h | h
    . exact .inl h
    . exact .inr (.inl h)

/--
Whatever is asked of a stream, its tape only grows.
-/
theorem grows_tape_answer (request : Request τ) : s.tape.Grows (s.answer request).2.tape := by
  have hprime := s.grows_tape_prime
  rcases s.answer_cases request with h | h | ⟨-, h⟩ | ⟨i, -, h⟩
  . exact h.tape
  . exact hprime.trans h.tape
  . rw [h]
    exact hprime.trans s.grows_tape_step
  . rw [h]
    exact hprime.trans (grows_tape_moveTo s.prime i)

/--
A request that gives the stream a cursor primes it first.
-/
theorem grows_tape_prime_answer {s : TokenStream rule} {request : Request τ} (hc : s.cursor = none)
    (hsome : (s.answer request).2.cursor.isSome) :
    s.prime.tape.Grows (s.answer request).2.tape := by
  rcases s.answer_cases request with h | h | ⟨-, h⟩ | ⟨i, -, h⟩
  . rw [h.cursor_eq] at hsome
    simp [hc] at hsome
  . exact h.tape
  . rw [h]
    exact s.grows_tape_step
  . rw [h]
    exact grows_tape_moveTo s.prime i

end Operations

section Induction

variable {motive : TokenStream rule → Prop}
variable (grows : ∀ {s t : TokenStream rule}, s.Grows t → motive s → motive t)
variable (moveTo : ∀ {s : TokenStream rule} (i : Nat), motive s → motive (s.moveTo i))
variable {s : TokenStream rule}

include grows moveTo

theorem prime_induction (h : motive s) : motive s.prime := by
  cases hc : s.cursor with
  | some p => rwa [prime_of_isSome (by simp [hc])]
  | none =>
    rw [prime_of_eq_none hc]
    apply moveTo
    apply grows _ h
    apply grows_withTape
    apply Tape.grows_ensure

theorem step_induction (h : motive s) : motive s.step := by
  have hreached : motive (s.prime.reach (Position.succ s.prime.index)).2 := by
    apply grows (s.prime.grows_reach _)
    exact prime_induction grows moveTo h
  rw [step_eq]
  dsimp only
  split
  . apply moveTo
    exact hreached
  . exact hreached

/--
Every request keeps what is kept whenever the tape grows and whenever the stream moves.
-/
theorem answer_induction (h : motive s) (request : Request τ) : motive (s.answer request).2 := by
  have hprime : motive s.prime := prime_induction grows moveTo h
  rcases s.answer_cases request with hg | hg | ⟨-, ht⟩ | ⟨i, -, ht⟩
  . exact grows hg h
  . exact grows hg hprime
  . rw [ht]
    exact step_induction grows moveTo h
  . rw [ht]
    exact moveTo i hprime

theorem answers_induction (h : motive s) (requests : List (Request τ)) :
    motive (s.answers requests).2 := by
  induction requests generalizing s with
  | nil => exact h
  | cons request rest ih =>
    unfold answers
    apply ih
    exact answer_induction grows moveTo h request

end Induction

end TokenStream

end Lookahead
