import Lookahead.Proofs.Tape.Checked
import Lookahead.Proofs.TokenStream.Peek
import Lookahead.Proofs.TokenStream.Range

/-!
This module contains the operations of a token stream with every step checked that is not defined
everywhere: besides those of its tape, to go one back from a distance and to go one on from an index. An
operation without such steps is left out, and a request that fails has no answer. Over a source that
ends every request has one, the same as without the checks.
-/

namespace Lookahead

namespace TokenStream

variable {σ τ μ : Type} [Token τ] [TokenSource σ τ] {rule : LandingRule σ τ μ}

section Operations

variable (s : TokenStream rule)

def checkedPeek (k : Int) : Option (Option τ × TokenStream rule) :=
  if 0 < k then
    do
      let s := s.prime
      let distance ← Position.checkedPred k.natAbs
      let i := Position.add s.index distance
      let tape := s.tape.ensure i
      return (tape.tokens[i]?.or tape.tokens.back?, s.withTape tape)
  else
    some (s.behind k.natAbs)

def checkedLook (k : Int) : Option (Int32 × TokenStream rule) := do
  let (t, s) ← s.checkedPeek k
  return (match t with
    | some t => Token.kind t
    | none => Symbol.invalid, s)

def checkedConsume : Option (Except Fault Unit × TokenStream rule) :=
  if s.canStep then
    some (.ok (), s.step)
  else
    do
      let (symbol, s) ← s.checkedLook 1
      return if symbol = Symbol.eof then (.error .consumeEof, s) else (.ok (), s.step)

def checkedRange (start stop : Int) : Option (Option (List τ) × TokenStream rule) :=
  match start.toNat?, stop.toNat? with
  | some start, some stop =>
    let s := s.prime
    if s.size = 0 then
      some (none, s)
    else
      do
        let ts ← s.tape.checkedSlice start (min stop (s.size - 1))
        return (some (beforeEof ts), s)
  | _, _ => some (none, s)

def checkedSelect (start stop : Nat) (kinds : Option (List Int32)) :
    Option (Except Fault (List τ) × TokenStream rule) :=
  let s := s.prime
  if s.size ≤ start ∨ s.size ≤ stop then
    some (.error (.rangeOutOfRange start stop s.size), s)
  else
    do
      let ts ← s.tape.checkedSlice start stop
      let wanted (t : τ) : Bool :=
        match kinds with
        | some kinds => kinds.contains (Token.kind t)
        | none => true
      return (.ok (ts.filter wanted), s)

def checkedNextOn (i : Nat) (channel : UInt32) : Option (Nat × TokenStream rule) := do
  let (j, tape) ← s.tape.checkedNextOn i channel
  return (j, s.withTape tape)

def checkedPrevOn (i : Nat) (channel : UInt32) : Option (Option Nat × TokenStream rule) := do
  let (j, tape) ← s.tape.checkedPrevOn i channel
  return (j, s.withTape tape)

def checkedTriviaAfter (i : Nat) (channel : Option UInt32) :
    Option (Except Fault (List τ) × TokenStream rule) :=
  let s := s.prime
  if s.size ≤ i then
    some (.error (s.outOfRange i), s)
  else
    do
      let start ← Position.checkedSucc i
      let (stop, s) ← s.checkedNextOn start Channel.standard
      let ts ← s.tape.checkedSlice start stop
      return (.ok (ts.filter (isTrivia channel)), s)

def checkedTriviaBefore (i : Nat) (channel : Option UInt32) :
    Option (Except Fault (List τ) × TokenStream rule) :=
  let s := s.prime
  if s.size ≤ i then
    some (.error (s.outOfRange i), s)
  else if i = 0 then
    some (.ok [], s)
  else
    do
      let stop := i - 1
      let (previous, s) ← s.checkedPrevOn stop Channel.standard
      if previous = some stop then
        return (.ok [], s)
      else
        let start ← match previous with
          | some p => Position.checkedSucc p
          | none => some 0
        let ts ← s.tape.checkedSlice start stop
        return (.ok (ts.filter (isTrivia channel)), s)

def checkedTextIn (x : Interval) : Option (String × TokenStream rule) :=
  match x.lo.toInt.toNat?, x.hi.toInt.toNat? with
  | some start, some stop =>
    let s := s.prime
    let tape := s.tape.ensure stop
    if tape.size = 0 then
      some ("", s.withTape tape)
    else
      do
        let ts ← tape.checkedSlice start (min stop (tape.size - 1))
        return (joinText ts, s.withTape tape)
  | _, _ => some ("", s)

def checkedTextBetween (start stop : Option τ) : Option (String × TokenStream rule) :=
  match start, stop with
  | some start, some stop => s.checkedTextIn ⟨Token.index start, Token.index stop⟩
  | _, _ => some ("", s)

/--
The answer to a request that has been checked, which is the answer itself where there is nothing to
check.
-/
def checkedAnswer (request : Request τ) : Option (Answer τ × TokenStream rule) :=
  match request with
  | .consume => s.checkedConsume.map (Prod.map (.ofExcept fun _ => .done) id)
  | .look k => (s.checkedLook k).map (Prod.map .symbol id)
  | .peek k => (s.checkedPeek k).map (Prod.map .token id)
  | .range start stop => (s.checkedRange start stop).map (Prod.map .tokens id)
  | .select start stop kinds =>
    (s.checkedSelect start stop kinds).map (Prod.map (.ofExcept (.tokens ∘ some)) id)
  | .nextOn i channel => (s.checkedNextOn i channel).map (Prod.map (.index ∘ some) id)
  | .prevOn i channel => (s.checkedPrevOn i channel).map (Prod.map .index id)
  | .triviaAfter i channel =>
    (s.checkedTriviaAfter i channel).map (Prod.map (.ofExcept (.tokens ∘ some)) id)
  | .triviaBefore i channel =>
    (s.checkedTriviaBefore i channel).map (Prod.map (.ofExcept (.tokens ∘ some)) id)
  | .textIn x => (s.checkedTextIn x).map (Prod.map .text id)
  | .textBetween start stop => (s.checkedTextBetween start stop).map (Prod.map .text id)
  | request => some (s.answer request)

end Operations

def checkedAnswers (s : TokenStream rule) :
    List (Request τ) → Option (List (Answer τ) × TokenStream rule)
  | [] => some ([], s)
  | request :: rest => do
    let (a, s) ← s.checkedAnswer request
    let (as, s) ← s.checkedAnswers rest
    return (a :: as, s)

section Always

variable (s : TokenStream rule)

theorem checkedPeek_eq (k : Int) : s.checkedPeek k = some (s.peek k) := by
  unfold checkedPeek peek
  split
  . next hk =>
    have hnat : k.natAbs = k.toNat := by omega
    rw [Position.checkedPred_of_pos (by omega)]
    rw [hnat]
    rfl
  . rfl

theorem checkedLook_eq (k : Int) : s.checkedLook k = some (s.look k) := by
  unfold checkedLook
  rw [checkedPeek_eq]
  rfl

theorem checkedConsume_eq : s.checkedConsume = some s.consume := by
  unfold checkedConsume consume
  rw [checkedLook_eq]
  split <;> rfl

theorem checkedSelect_eq (start stop : Nat) (kinds : Option (List Int32)) :
    s.checkedSelect start stop kinds = some (s.select start stop kinds) := by
  unfold checkedSelect select
  dsimp only
  split
  . rfl
  . next h =>
    have hstop : stop < s.prime.tape.size := by
      unfold size at h
      omega
    rw [Tape.checkedSlice_of_lt hstop]
    rfl

theorem checkedPrevOn_eq (i : Nat) (channel : UInt32) :
    s.checkedPrevOn i channel = some (s.prevOn i channel) := by
  unfold checkedPrevOn
  rw [Tape.checkedPrevOn_eq]
  rfl

end Always

section Source

variable {source : σ} {n : Nat} {s : TokenStream rule}

theorem Reachable.checkedRange_eq (hs : Reachable rule source s) (start stop : Int) :
    s.checkedRange start stop = some (s.range start stop) := by
  have hpos := hs.size_prime_pos
  unfold checkedRange range
  generalize start.toNat? = start
  generalize stop.toNat? = stop
  cases start with
  | none => rfl
  | some start =>
    cases stop with
    | none => rfl
    | some stop =>
      dsimp only
      rw [if_neg (Nat.ne_of_gt hpos)]
      rw [if_neg (Nat.ne_of_gt hpos)]
      unfold size at hpos ⊢
      rw [Tape.checkedSlice_min hpos]
      rfl

theorem Reachable.checkedTextIn_eq (hs : Reachable rule source s) (x : Interval) :
    s.checkedTextIn x = some (s.textIn x) := by
  unfold checkedTextIn textIn
  generalize x.lo.toInt.toNat? = start
  generalize x.hi.toInt.toNat? = stop
  cases start with
  | none => rfl
  | some start =>
    cases stop with
    | none => rfl
    | some stop =>
      have hgrows := s.prime.tape.grows_ensure stop
      have hpos := Nat.lt_of_lt_of_le hs.size_prime_pos hgrows.size_le
      dsimp only
      rw [if_neg (Nat.ne_of_gt hpos)]
      rw [Tape.checkedSlice_min hpos]
      rfl

theorem Reachable.checkedTextBetween_eq (hs : Reachable rule source s) (start stop : Option τ) :
    s.checkedTextBetween start stop = some (s.textBetween start stop) := by
  cases start with
  | none => rfl
  | some start =>
    cases stop with
    | none => rfl
    | some stop => apply hs.checkedTextIn_eq

theorem Reachable.checkedNextOn_eq (hs : Reachable rule source s) (hn : TokenSource.EndsAt source n)
    (i : Nat) (channel : UInt32) : s.checkedNextOn i channel = some (s.nextOn i channel) := by
  unfold checkedNextOn
  rw [hs.records.checkedNextOn_eq hn]
  rfl

theorem Reachable.checkedTriviaAfter_eq (hs : Reachable rule source s) (hn : TokenSource.EndsAt source n)
    (i : Nat) (channel : Option UInt32) :
    s.checkedTriviaAfter i channel = some (s.triviaAfter i channel) := by
  have hlimit : s.prime.size < Position.limit := hs.records_prime.size_lt_limit hn
  unfold checkedTriviaAfter triviaAfter
  dsimp only
  split
  . rfl
  . next hi =>
    have hstop : (s.prime.nextOn (i + 1) Channel.standard).1 <
        (s.prime.nextOn (i + 1) Channel.standard).2.tape.size :=
      hs.records_prime.nextOn_fst_lt_size hn (i + 1) Channel.standard
    rw [Position.checkedSucc_of_lt (by omega)]
    dsimp only [bind, Option.bind]
    rw [hs.prime.checkedNextOn_eq hn]
    dsimp only
    rw [Tape.checkedSlice_of_lt hstop]
    rfl

theorem Reachable.checkedTriviaBefore_eq (hs : Reachable rule source s)
    (hn : TokenSource.EndsAt source n) (i : Nat) (channel : Option UInt32) :
    s.checkedTriviaBefore i channel = some (s.triviaBefore i channel) := by
  unfold checkedTriviaBefore triviaBefore
  dsimp only
  split
  . rfl
  . next hi =>
    split
    . rfl
    . next hzero =>
      have hstop : i - 1 < (s.prime.prevOn (i - 1) Channel.standard).2.tape.size := by
        apply Nat.lt_of_lt_of_le _ (s.prime.grows_prevOn (i - 1) Channel.standard).tape.size_le
        unfold size at hi
        omega
      -- What the search finds is a token on the tape, so there is a position after it.
      have hnext (p : Nat) (hp : (s.prime.prevOn (i - 1) Channel.standard).1 = some p) :
          Position.checkedSucc p = some (p + 1) :=
        hs.records_prime.checkedSucc_of_prevOn hn hp
      rw [checkedPrevOn_eq]
      dsimp only [bind, Option.bind]
      generalize s.prime.prevOn (i - 1) Channel.standard = found at hstop hnext ⊢
      obtain ⟨previous, t⟩ := found
      dsimp only at hstop hnext ⊢
      split
      . rfl
      . cases previous with
        | none =>
          dsimp only
          rw [Tape.checkedSlice_of_lt hstop]
          rfl
        | some p =>
          dsimp only
          rw [hnext p rfl]
          dsimp only
          rw [Tape.checkedSlice_of_lt hstop]
          rfl

/--
No request fails in any state of a stream over a source that ends.
-/
theorem Reachable.checkedAnswer_eq (hs : Reachable rule source s) (hn : TokenSource.EndsAt source n)
    (request : Request τ) : s.checkedAnswer request = some (s.answer request) := by
  cases request with
  | consume => exact congrArg (Option.map _) s.checkedConsume_eq
  | look k => exact congrArg (Option.map _) (s.checkedLook_eq k)
  | peek k => exact congrArg (Option.map _) (s.checkedPeek_eq k)
  | range start stop => exact congrArg (Option.map _) (hs.checkedRange_eq start stop)
  | select start stop kinds => exact congrArg (Option.map _) (s.checkedSelect_eq start stop kinds)
  | nextOn i channel => exact congrArg (Option.map _) (hs.checkedNextOn_eq hn i channel)
  | prevOn i channel => exact congrArg (Option.map _) (s.checkedPrevOn_eq i channel)
  | triviaAfter i channel => exact congrArg (Option.map _) (hs.checkedTriviaAfter_eq hn i channel)
  | triviaBefore i channel => exact congrArg (Option.map _) (hs.checkedTriviaBefore_eq hn i channel)
  | textIn x => exact congrArg (Option.map _) (hs.checkedTextIn_eq x)
  | textBetween start stop => exact congrArg (Option.map _) (hs.checkedTextBetween_eq start stop)
  | _ => rfl

theorem Reachable.checkedAnswers_eq (hs : Reachable rule source s) (hn : TokenSource.EndsAt source n)
    (requests : List (Request τ)) : s.checkedAnswers requests = some (s.answers requests) := by
  induction requests generalizing s with
  | nil => rfl
  | cons request rest ih =>
    unfold checkedAnswers TokenStream.answers
    rw [hs.checkedAnswer_eq hn]
    dsimp only [bind, Option.bind]
    rw [ih (hs.answer request)]
    rfl

end Source

/--
A stream over a source that ends never comes to a step that is not defined, whatever its rule does and
wherever its cursor is: with all such steps checked, every request has an answer in every state, and so
has every sequence of requests, the same as without the checks. The searches that a rule may make on the
tapes that it is handed never come to such a step either. Ahead of the cursor there is always a token to
be found, and between bounds that are not negative there is always a range.
-/
theorem checkedAnswers_eq_answers {source : σ} {n : Nat} (hn : TokenSource.EndsAt source n) :
    (∀ c : Tape σ τ, Tape.Grows { source } c →
      c.size < Position.limit ∧ ∀ (i : Nat) (channel : UInt32),
        c.checkedNextOn i channel = some (c.nextOn i channel) ∧
          c.checkedPrevOn i channel = some (c.prevOn i channel)) ∧
      ∀ {μ : Type} {rule : LandingRule σ τ μ} {s : TokenStream rule}, Reachable rule source s →
        Tape.Grows { source } s.tape ∧
          (∀ request : Request τ, s.checkedAnswer request = some (s.answer request)) ∧
          (∀ requests : List (Request τ), s.checkedAnswers requests = some (s.answers requests)) ∧
          (∀ k : Int, 0 < k → ∃ t, (s.peek k).1 = some t) ∧
          ∀ start stop : Int, 0 ≤ start → 0 ≤ stop → ∃ ts, (s.range start stop).1 = some ts := by
  constructor
  . intro c hc
    have hrecords := (Tape.records_new source).grows hc
    refine ⟨hrecords.size_lt_limit hn, ?_⟩
    intro i channel
    exact ⟨hrecords.checkedNextOn_eq hn i channel, c.checkedPrevOn_eq i channel⟩
  . intro μ rule s hs
    refine ⟨hs.grows_tape, ?_, ?_, ?_, ?_⟩
    . intro request
      exact hs.checkedAnswer_eq hn request
    . intro requests
      exact hs.checkedAnswers_eq hn requests
    . intro k hk
      exact ⟨_, hs.peek_of_pos hn hk⟩
    . intro start stop hstart hstop
      exact ⟨_, hs.range_fst ⟨hstart, hstop⟩⟩

/--
The largest arguments that there are, with the cursor as far out as it gets.
-/
theorem checkedAnswers_eq_answers_far_out :
    let source : Replay := ⟨#[⟨1, "x", 0, 0, 0, 0⟩, ⟨2, " ", 1, 0, 1, 1⟩], 0, ""⟩
    let fresh : TokenStream (LandingRule.reckon (σ := Replay) fun _ => Position.limit) :=
      ofSource _ () source {}
    let s := (fresh.answers [.reach Position.limit, .seek 3, .consume]).2
    let requests : List (Request PlainToken) :=
      [.look 1, .triviaAfter 2 none, .triviaBefore 1 (some 1), .nextOn Position.limit 7]
    TokenSource.EndsAt source 2 ∧ Reachable _ source s ∧ s.cursor = some Position.limit ∧
      Tape.checkedNextOn { source } Position.limit 7 = some (Tape.nextOn { source } Position.limit 7) ∧
      s.checkedAnswers requests = some (s.answers requests) ∧
      (∃ t, (s.peek Position.offsetLimit).1 = some t) ∧
      ∃ ts, (s.range Position.offsetLimit 0).1 = some ts := by
  intro source fresh s requests
  have hn : TokenSource.EndsAt source 2 := by
    constructor <;> decide
  have hs : Reachable _ source s :=
    (Reachable.ofSource () {}).answers [.reach Position.limit, .seek 3, .consume]
  obtain ⟨htape, hstream⟩ := checkedAnswers_eq_answers hn
  obtain ⟨-, -, hanswers, hpeek, hrange⟩ := hstream hs
  refine ⟨hn, hs, by decide +kernel, ?_, hanswers requests, ?_, ?_⟩
  . exact ((htape _ .refl).2 Position.limit 7).1
  . apply hpeek
    decide
  . apply hrange <;> decide

end TokenStream

end Lookahead
