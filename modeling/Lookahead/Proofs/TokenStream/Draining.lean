import Lookahead.Proofs.Tape.Rounds
import Lookahead.Proofs.TokenStream.Run
import Lookahead.TokenSource.Replay

/-!
This module contains the draining of streams over a source that ends. Whatever has been pulled before
and in whatever chunks the rest is asked for, it all comes to the tape, once, and the stream stays
where it is.
-/

namespace Lookahead

namespace TokenStream

open TokenSource (EndsAt after take)

variable {σ τ μ : Type} [Token τ] [TokenSource σ τ] {rule : LandingRule σ τ μ}

theorem rounds_prime (s : TokenStream rule) : s.prime.tape.rounds = s.tape.rounds :=
  s.reaches_prime.rounds_eq

theorem settings_prime (s : TokenStream rule) : s.prime.settings = s.settings := by
  unfold prime
  split <;> rfl

theorem drain_eq (s : TokenStream rule) :
    s.drain = s.prime.withTape (s.prime.tape.drain (max s.settings.fillChunk 1)) := by
  rw [← s.settings_prime]
  rfl

theorem fillChunk_pos (s : TokenStream rule) : 0 < max s.settings.fillChunk 1 := by omega

section Source

variable {source : σ} {n : Nat} {s : TokenStream rule}

theorem Reachable.drains_drain (hs : Reachable rule source s) (hn : EndsAt source n) :
    let chunk := max s.settings.fillChunk 1
    Tape.Drains chunk ((n + 1 - s.prime.size) / chunk + 1) s.prime.tape s.drain.tape := by
  rw [s.drain_eq]
  exact (hs.records_prime.drains_drain hn s.fillChunk_pos).1

theorem Reachable.size_drain (hs : Reachable rule source s) (hn : EndsAt source n) :
    s.drain.size = n + 1 := by
  rw [s.drain_eq]
  exact (hs.records_prime.drains_drain hn s.fillChunk_pos).2

theorem Reachable.records_drain (hs : Reachable rule source s) : s.drain.tape.Records source :=
  (hs.answer .drain).records

theorem Reachable.exhausted_drain (hs : Reachable rule source s) (hn : EndsAt source n) :
    s.drain.tape.exhausted = true := by
  rw [hs.records_drain.exhausted_eq_decide hn]
  apply decide_eq_true
  apply hs.size_drain hn

theorem Reachable.toList_tokens_drain (hs : Reachable rule source s) (hn : EndsAt source n) :
    s.drain.tape.tokens.toList = take (n + 1) source := by
  rw [hs.records_drain.tokens_eq]
  exact congrArg (take · source) (hs.size_drain hn)

theorem Reachable.source_drain (hs : Reachable rule source s) (hn : EndsAt source n) :
    s.drain.tape.source = after (n + 1) source := by
  rw [hs.records_drain.source_eq]
  exact congrArg (after · source) (hs.size_drain hn)

/--
With nothing left all that a stream does is to record one more round.
-/
theorem Reachable.drain_drain (hs : Reachable rule source s) (hn : EndsAt source n) :
    s.drain.drain = s.drain.withTape (s.drain.tape.note (.drained 0 (n + 1))) := by
  rw [← hs.size_drain hn]
  rw [s.drain.drain_eq]
  rw [s.grows_drain.prime_eq]
  congr 1
  apply Tape.drain_of_exhausted (hs.exhausted_drain hn)
  apply fillChunk_pos

end Source

/--
Over a source that ends, draining a stream ends after as many full rounds as there are chunks in what
is left once the stream is primed, and one short round. All tokens up to the end of the input are on
the tape then, whatever was there before and whatever the chunks are, each pulled once over the life
of the stream. A stream that has a cursor keeps it, and draining again brings nothing.
-/
theorem drain_takes_rest {source : σ} {n : Nat} (hn : EndsAt source n) {s : TokenStream rule}
    (hs : Reachable rule source s) :
    let t := s.drain
    let chunk := max s.settings.fillChunk 1
    let rounds := (n + 1 - s.prime.size) / chunk + 1
    (t.tape.tokens.toList = take (n + 1) source ∧ t.tape.exhausted = true ∧ t.size = n + 1) ∧
      (t.tape.source = after (n + 1) source ∧
        ∀ pulls : σ → Nat, (∀ u, pulls (TokenSource.next u).2 = pulls u + 1) →
          pulls t.tape.source = pulls source + (n + 1)) ∧
      (∀ {μ' : Type} {rule' : LandingRule σ τ μ'} {u : TokenStream rule'},
        Reachable rule' source u → u.drain.tape.tokens = t.tape.tokens) ∧
      (s.cursor.isSome → t.cursor = s.cursor) ∧
      t.drain = t.withTape (t.tape.note (.drained 0 (n + 1))) ∧
      Tape.Drains chunk rounds s.prime.tape t.tape ∧
      t.tape.rounds = s.tape.rounds + rounds := by
  intro t chunk rounds
  have htokens := hs.toList_tokens_drain hn
  have hsource := hs.source_drain hn
  have hdrains := hs.drains_drain hn
  refine ⟨⟨htokens, hs.exhausted_drain hn, hs.size_drain hn⟩, ⟨hsource, ?_⟩, ?_, ?_,
    hs.drain_drain hn, hdrains, ?_⟩
  . intro pulls hpulls
    rw [hsource]
    apply TokenSource.count_after hpulls
  . intro μ' rule' u hu
    apply Array.toList_inj.mp
    rw [hu.toList_tokens_drain hn]
    exact htokens.symm
  . intro hsome
    rw [s.grows_drain.cursor_eq]
    rw [prime_of_isSome hsome]
  . rw [hdrains.rounds_eq]
    rw [rounds_prime]

theorem drain_takes_rest_after_peek :
    let source : Replay :=
      ⟨#[⟨1, "x", 0, 0, 0, 0⟩, ⟨2, " ", 1, 0, 1, 1⟩, ⟨3, "y", 0, 0, 2, 2⟩, ⟨1, "z", 0, 0, 3, 3⟩], 0, ""⟩
    let s : TokenStream (.onChannel 0) :=
      ((ofSource (.onChannel 0) () source ⟨2⟩).answers [.consume]).2
    let all : TokenStream (μ := Unit) .exact := ofSource .exact () source ⟨0⟩
    EndsAt source 4 ∧ Reachable (.onChannel 0) source s ∧ Reachable .exact source all ∧
      s.prime.size = 3 ∧ s.drain.size = 5 ∧ s.drain.tape.exhausted = true ∧
      s.drain.cursor = some 2 ∧ s.drain.tape.rounds = 2 ∧ all.drain.tape.rounds = 5 ∧
      all.drain.tape.tokens = s.drain.tape.tokens ∧
      s.drain.drain = s.drain.withTape (s.drain.tape.note (.drained 0 5)) := by
  intro source s all
  have hn : EndsAt source 4 := by
    constructor <;> decide
  have hs : Reachable (.onChannel 0) source s := (Reachable.ofSource () ⟨2⟩).answers [.consume]
  have hall : Reachable .exact source all := .ofSource () ⟨0⟩
  have hcursor : s.cursor = some 2 := by decide +kernel
  obtain ⟨⟨-, hexhausted, hsize⟩, -, hsame, hstay, hagain, -, hrounds⟩ := drain_takes_rest hn hs
  obtain ⟨-, -, -, -, -, -, hrounds'⟩ := drain_takes_rest hn hall
  refine ⟨hn, hs, hall, ?_, hsize, hexhausted, ?_, ?_, ?_, hsame hall, hagain⟩
  . decide +kernel
  . rw [hstay (by rw [hcursor]; rfl)]
    exact hcursor
  . rw [hrounds]
    decide +kernel
  . rw [hrounds']
    decide +kernel

end TokenStream

end Lookahead
