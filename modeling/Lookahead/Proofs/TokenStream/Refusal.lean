import Lookahead.CharStream.Basic
import Lookahead.Proofs.TokenStream.Consultation
import Lookahead.Proofs.TokenStream.Range
import Lookahead.Proofs.TokenStream.Trivia

/-!
This module contains what a refused request leaves behind. Streams that have their cursor stay as they
are, but for a token stream that is refused to consume: it has looked, and the tokens it has pulled for
that stay on its tape. A new token stream is primed by the refused requests that need the cursor.
-/

namespace Lookahead

theorem CharStream.consume_snd_of_error {chars : CharStream} {fault : Fault} :
    (SymbolCursor.consume chars).1 = .error fault → (SymbolCursor.consume chars).2 = chars := by
  simp only [SymbolCursor.consume, consume]
  split
  . intro _
    rfl
  . intro h
    contradiction

namespace TokenStream

open TokenSource (after take)

def Answer.isRefused {τ : Type} : Answer τ → Bool
  | .refused _ => true
  | _ => false

theorem Answer.exists_of_isRefused {τ : Type} {a : Answer τ} (h : a.isRefused = true) :
    ∃ fault, a = .refused fault := by
  cases a with
  | refused fault => exact ⟨fault, rfl⟩
  | _ => contradiction

theorem Answer.eq_error_of_ofExcept {τ α : Type} {granted : α → Answer τ}
    (hgranted : ∀ a, (granted a).isRefused = false) {x : Except Fault α} {fault : Fault}
    (h : Answer.ofExcept granted x = .refused fault) : x = .error fault := by
  cases x with
  | ok a =>
    have hnot := hgranted a
    change granted a = _ at h
    rw [h] at hnot
    contradiction
  | error f =>
    cases h
    rfl

variable {σ τ μ : Type} [Token τ] [TokenSource σ τ] {rule : LandingRule σ τ μ}

section Faults

variable (s : TokenStream rule) {fault : Fault}

theorem eq_error_iff_of {α : Type} {x : Except Fault α} {p : Prop} {f : Fault}
    (hrefused : p → x = .error f) (hgranted : ¬p → ∃ a, x = .ok a) :
    x = .error fault ↔ p ∧ fault = f := by
  by_cases h : p
  . rw [hrefused h]
    rw [Except.error.injEq]
    rw [eq_comm]
    exact ⟨fun heq => ⟨h, heq⟩, And.right⟩
  . obtain ⟨a, ha⟩ := hgranted h
    rw [ha]
    simp [h]

theorem get_eq_error_iff (i : Int) :
    s.get i = .error fault ↔ (i < 0 ∨ s.size ≤ i) ∧ fault = .indexOutOfRange i s.size := by
  apply eq_error_iff_of
  . intro hout
    have hnone : (i.toNat?.bind fun i => s.tape.tokens[i]?) = none := by
      rw [Option.bind_eq_none_iff]
      intro j hj
      rw [Int.mem_toNat?] at hj
      apply Array.getElem?_eq_none
      unfold size Tape.size at hout
      omega
    unfold get
    rw [hnone]
  . intro hin
    have hi : i.toNat? = some i.toNat := Int.mem_toNat?.mpr (by omega)
    have hlt : i.toNat < s.tape.tokens.size := by
      unfold size Tape.size at hin
      omega
    unfold get
    rw [hi]
    rw [Option.bind_some]
    rw [Array.getElem?_eq_getElem hlt]
    exact ⟨_, rfl⟩

theorem select_eq_error_iff (start stop : Nat) (kinds : Option (List Int32)) :
    (s.select start stop kinds).1 = .error fault ↔
      (s.prime.size ≤ start ∨ s.prime.size ≤ stop) ∧
        fault = .rangeOutOfRange start stop s.prime.size := by
  apply eq_error_iff_of
  . intro h
    apply select_fst_of_le h
  . intro h
    unfold select
    dsimp only
    rw [if_neg h]
    exact ⟨_, rfl⟩

theorem triviaAfter_eq_error_iff (i : Nat) (channel : Option UInt32) :
    (s.triviaAfter i channel).1 = .error fault ↔
      s.prime.size ≤ i ∧ fault = s.prime.outOfRange i := by
  apply eq_error_iff_of
  . intro h
    rw [s.triviaAfter_of_le h]
  . intro h
    unfold triviaAfter
    dsimp only
    rw [if_neg h]
    exact ⟨_, rfl⟩

theorem triviaBefore_eq_error_iff (i : Nat) (channel : Option UInt32) :
    (s.triviaBefore i channel).1 = .error fault ↔
      s.prime.size ≤ i ∧ fault = s.prime.outOfRange i := by
  apply eq_error_iff_of
  . intro h
    rw [s.triviaBefore_of_le h]
  . intro h
    unfold triviaBefore
    dsimp only
    rw [if_neg h]
    split
    . exact ⟨_, rfl⟩
    . split <;> exact ⟨_, rfl⟩

end Faults

section Refused

variable {s : TokenStream rule} {request : Request τ} {fault : Fault}

/--
A refused request other than `consume` primes the stream, if it needs the cursor, and that is all.
-/
theorem answer_snd_of_refused (h : (s.answer request).1 = .refused fault) (hc : request ≠ .consume) :
    (s.answer request).2 = if request.needsCursor then s.prime else s := by
  cases request with
  | consume => exact absurd rfl hc
  | get i => rfl
  | select start stop kinds =>
    change (s.select start stop kinds).2 = s.prime
    unfold select
    dsimp only
    split <;> rfl
  | triviaAfter i channel =>
    have herror : (s.triviaAfter i channel).1 = .error fault :=
      Answer.eq_error_of_ofExcept (fun _ => rfl) h
    rw [triviaAfter_eq_error_iff] at herror
    change (s.triviaAfter i channel).2 = s.prime
    rw [s.triviaAfter_of_le herror.1]
  | triviaBefore i channel =>
    have herror : (s.triviaBefore i channel).1 = .error fault :=
      Answer.eq_error_of_ofExcept (fun _ => rfl) h
    rw [triviaBefore_eq_error_iff] at herror
    change (s.triviaBefore i channel).2 = s.prime
    rw [s.triviaBefore_of_le herror.1]
  | _ => contradiction

theorem consume_of_error (h : s.consume.1 = .error fault) :
    s.consume = (.error .consumeEof, (s.look 1).2) := by
  rcases s.consume_cases with ⟨hok, -⟩ | ⟨herror, -⟩
  . rw [hok] at h
    contradiction
  . exact herror

/--
A stream that has its cursor keeps it, and its memory, when a request is refused.
-/
theorem grows_answer_of_refused (h : (s.answer request).1 = .refused fault) (hsome : s.cursor.isSome) :
    s.Grows (s.answer request).2 := by
  have hprime := prime_of_isSome hsome
  by_cases hc : request = .consume
  . subst hc
    have herror : s.consume.1 = .error fault := Answer.eq_error_of_ofExcept (fun _ => rfl) h
    have hgrows := s.grows_look 1
    rw [hprime] at hgrows
    change s.Grows s.consume.2
    rw [consume_of_error herror]
    exact hgrows
  . rw [answer_snd_of_refused h hc]
    rw [hprime]
    rw [ite_self]
    apply Grows.refl

theorem grows_answers_of_refused {requests : List (Request τ)} (hsome : s.cursor.isSome)
    (h : ∀ a ∈ (s.answers requests).1, a.isRefused = true) :
    s.Grows (s.answers requests).2 := by
  induction requests generalizing s with
  | nil => exact .refl s
  | cons request rest ih =>
    unfold answers at h ⊢
    obtain ⟨fault, hfirst⟩ := Answer.exists_of_isRefused (h _ List.mem_cons_self)
    have hgrows := grows_answer_of_refused hfirst hsome
    apply hgrows.trans
    apply ih
    . rwa [hgrows.cursor_eq]
    . intro a ha
      exact h a (List.mem_cons_of_mem _ ha)

end Refused

section Calls

/--
The stream with a record of the moves to come.
-/
def withRecord (s : TokenStream rule) : TokenStream rule.recorded where
  tape := s.tape
  cursor := s.cursor
  memory := (s.memory, [])
  settings := s.settings

/--
The moves that the rule is asked for by a request: the indices together with where it lands.
-/
def calls (s : TokenStream rule) (request : Request τ) : List (Nat × Nat) :=
  (s.withRecord.answer request).2.record

theorem answer_withRecord_fst (s : TokenStream rule) (request : Request τ) :
    (s.withRecord.answer request).1 = (s.answer request).1 :=
  (congrArg Prod.fst (unrecorded_answer s.withRecord request)).symm

theorem calls_of_not_needsCursor {s : TokenStream rule} {request : Request τ}
    (h : request.needsCursor = false) : s.calls request = [] :=
  (s.withRecord.grows_answer_of_not_needsCursor h).record_eq

theorem calls_of_refused {s : TokenStream rule} {request : Request τ} {fault : Fault}
    (h : (s.answer request).1 = .refused fault) (hsome : s.cursor.isSome) :
    s.calls request = [] := by
  rw [← answer_withRecord_fst] at h
  exact (grows_answer_of_refused h hsome).record_eq

end Calls

/--
All that the request does to the stream is to prime it, if it is new: the first token is pulled, if it
is not on the tape yet, and the rule is asked once.
-/
structure OnlyPrimes (s : TokenStream rule) (request : Request τ) : Prop where
  answer_snd : (s.answer request).2 = s.prime
  of_isSome : s.cursor.isSome → s.prime = s ∧ s.calls request = []
  of_eq_none : s.cursor = none →
    let landing := rule.land s.memory (s.tape.ensure 0) 0
    s.prime =
        { s with tape := landing.tape, cursor := some landing.index, memory := landing.memory } ∧
      s.calls request = [(0, landing.index)] ∧
      (landing.tape = s.tape.ensure 0 → s.prime.size = max s.size 1)

section Source

variable {source : σ} {s : TokenStream rule} {request : Request τ} {fault : Fault}

theorem Reachable.onlyPrimes (hs : Reachable rule source s)
    (h : (s.answer request).1 = .refused fault) (hc : request ≠ .consume)
    (hneeds : request.needsCursor = true) : s.OnlyPrimes request where
  answer_snd := by
    rw [answer_snd_of_refused h hc]
    exact if_pos hneeds
  of_isSome hsome := ⟨prime_of_isSome hsome, calls_of_refused h hsome⟩
  of_eq_none hnone := by
    intro landing
    rw [prime_of_eq_none hnone]
    refine ⟨rfl, ?_, ?_⟩
    -- With a record the same request is refused, and leaves the record that priming leaves.
    . rw [← answer_withRecord_fst] at h
      unfold calls
      rw [answer_snd_of_refused h hc]
      rw [if_pos hneeds]
      rw [prime_of_eq_none (s := s.withRecord) hnone]
      rfl
    . intro htape
      change landing.tape.size = _
      rw [htape]
      exact hs.size_ensure_zero

end Source

/--
What a refused request leaves behind. Requests that do not need the cursor leave a stream as it is, a
new one too, whether they are refused or their bounds are negative. A stream that is refused anything
else is primed, and the fault tells how many tokens it has then. A stream with a cursor that is refused
to consume has looked at the token that it is on: its tape may have grown, with no token of the source
lost, and nothing else has happened to it. However many requests are refused to such a stream, it keeps
its cursor. A character stream that is refused to consume is as before.
-/
theorem refused_leaves_stream {source : σ} {s : TokenStream rule} (hs : Reachable rule source s) :
    (∀ (i : Int) (fault : Fault), s.get i = .error fault ↔
      (i < 0 ∨ s.size ≤ i) ∧ fault = .indexOutOfRange i s.size) ∧
      (∀ i : Int, (s.answer (.get i)).2 = s ∧ s.calls (.get i) = []) ∧
      (∀ start stop : Int, start < 0 ∨ stop < 0 →
        s.range start stop = (none, s) ∧ s.calls (.range start stop) = []) ∧
      (∀ x : Interval, x.lo.toInt < 0 ∨ x.hi.toInt < 0 →
        s.textIn x = ("", s) ∧ s.calls (.textIn x) = []) ∧
      (∀ (start stop : Nat) (kinds : Option (List Int32)) (fault : Fault),
        (s.select start stop kinds).1 = .error fault ↔
          (s.prime.size ≤ start ∨ s.prime.size ≤ stop) ∧
            fault = .rangeOutOfRange start stop s.prime.size) ∧
      (∀ (i : Nat) (channel : Option UInt32) (fault : Fault),
        let out := s.prime.size ≤ i ∧
          fault = .indexOutOfRange (min i Position.offsetLimit : Nat) s.prime.size
        ((s.triviaAfter i channel).1 = .error fault ↔ out) ∧
          ((s.triviaBefore i channel).1 = .error fault ↔ out)) ∧
      (∀ (request : Request τ) (fault : Fault), (s.answer request).1 = .refused fault →
        request ≠ .consume → request.needsCursor = true → s.OnlyPrimes request) ∧
      (∀ fault : Fault, s.consume.1 = .error fault → s.cursor.isSome →
        let t := s.consume.2
        fault = .consumeEof ∧ t = (s.look 1).2 ∧ s.Grows t ∧ s.calls .consume = [] ∧
          s.tape.tokens.toList <+: t.tape.tokens.toList ∧
          t.tape.tokens.toList = take t.size source ∧ t.tape.source = after t.size source) ∧
      (s.cursor.isSome → ∀ requests : List (Request τ),
        (∀ a ∈ (s.answers requests).1, a.isRefused = true) →
          s.Grows (s.answers requests).2) ∧
      ∀ (chars : CharStream) (fault : Fault), (SymbolCursor.consume chars).1 = .error fault →
        (SymbolCursor.consume chars).2 = chars := by
  refine ⟨?_, ?_, ?_, ?_, ?_, ?_, ?_, ?_, ?_, ?_⟩
  . intro i fault
    apply get_eq_error_iff
  . intro i
    exact ⟨rfl, calls_of_not_needsCursor rfl⟩
  . intro start stop h
    have hneg : ¬(0 ≤ start ∧ 0 ≤ stop) := by omega
    exact ⟨s.range_of_neg hneg, calls_of_not_needsCursor (decide_eq_false hneg)⟩
  . intro x h
    have hneg : ¬(0 ≤ x.lo.toInt ∧ 0 ≤ x.hi.toInt) := by omega
    exact ⟨s.textIn_of_neg h, calls_of_not_needsCursor (decide_eq_false hneg)⟩
  . intro start stop kinds fault
    apply select_eq_error_iff
  . intro i channel fault out
    exact ⟨s.triviaAfter_eq_error_iff i channel, s.triviaBefore_eq_error_iff i channel⟩
  . intro request fault h hc hneeds
    exact hs.onlyPrimes h hc hneeds
  . intro fault herror hsome t
    have hrefused : (s.answer .consume).1 = .refused fault :=
      congrArg (Answer.ofExcept fun _ => .done) herror
    have hgrows : s.Grows t := grows_answer_of_refused hrefused hsome
    have hconsume := consume_of_error herror
    have hrecords := hs.records.grows hgrows.tape
    rw [hconsume] at herror
    refine ⟨?_, congrArg Prod.snd hconsume, hgrows, calls_of_refused hrefused hsome,
      hgrows.tape.extends.isPrefix, hrecords.tokens_eq, hrecords.source_eq⟩
    exact (Except.error.inj herror).symm
  . intro hsome requests h
    exact grows_answers_of_refused hsome h
  . intro chars fault h
    exact chars.consume_snd_of_error h

/--
A new stream whose first token is off the channel, and one past the end of the input that has not
pulled the end yet.
-/
theorem refused_leaves_stream_past_end :
    let source : Replay := ⟨#[⟨1, " ", Channel.hidden, 0, 0, 0⟩, ⟨2, "x", 0, 0, 1, 1⟩], 0, ""⟩
    let fresh : TokenStream (.onChannel 0) := ofSource (.onChannel 0) () source {}
    let past : TokenStream (μ := Unit) .exact := ((ofSource .exact () source {}).answer (.seek 7)).2
    Reachable (.onChannel 0) source fresh ∧ Reachable .exact source past ∧
      fresh.get 0 = .error (.indexOutOfRange 0 0) ∧ fresh.range (-1) 3 = (none, fresh) ∧
      (fresh.select 1 2 none).1 = .error (.rangeOutOfRange 1 2 2) ∧
      (fresh.triviaAfter 2 none).1 = .error (.indexOutOfRange 2 2) ∧
      fresh.OnlyPrimes (.triviaAfter 2 none) ∧ past.consume.1 = .error .consumeEof ∧
      past.size = 1 ∧ past.consume.2.tape.tokens.toList = take 3 source ∧
      past.Grows (past.answers [.consume, .get 9, .select 0 8 none]).2 := by
  intro source fresh past
  have hfresh : Reachable (.onChannel 0) source fresh := .ofSource () {}
  have hpast : Reachable .exact source past := (Reachable.ofSource () {}).answer (.seek 7)
  have hn : TokenSource.EndsAt source 2 := by
    constructor <;> decide
  have hsize : fresh.prime.size = 2 := by decide +kernel
  obtain ⟨hget, -, hrange, -, hselect, htrivia, hprimes, -⟩ := refused_leaves_stream hfresh
  obtain ⟨-, -, -, -, -, -, -, hconsume, hrun, -⟩ := refused_leaves_stream hpast
  have hafter : (fresh.triviaAfter 2 none).1 = .error (.indexOutOfRange 2 2) := by
    rw [(htrivia 2 none _).1]
    rw [hsize]
    decide
  have hrefused : (fresh.answer (.triviaAfter 2 none)).1 = .refused (.indexOutOfRange 2 2) := by
    decide +kernel
  obtain ⟨hnegative, -⟩ := hrange (-1) 3 (by decide)
  have herror : past.consume.1 = .error .consumeEof := by
    rw [(consume_fst_eq_look hn (TokenSource.kindTells_of_plain source) hpast).1]
    rw [if_pos (by decide +kernel)]
  obtain ⟨-, -, -, -, -, htokens, -⟩ := hconsume _ herror rfl
  refine ⟨hfresh, hpast, ?_, hnegative, ?_, hafter, ?_, herror, ?_, ?_, ?_⟩
  . rw [hget]
    decide
  . rw [hselect]
    rw [hsize]
    decide
  . exact hprimes _ _ hrefused (by decide) rfl
  . decide +kernel
  . rw [htokens]
    decide +kernel
  . apply hrun rfl
    decide +kernel

end TokenStream

end Lookahead
