import Lookahead.Proofs.CharStream.Run
import Lookahead.Proofs.TokenStream.Priming
import Lookahead.TokenSource.Replay

/-!
This module contains the way back from speculation. A stream that marks where it is, is put to any
use, and is then released and sent back goes on as if nothing had happened, as far as a parser can
tell that looks ahead, consumes, seeks and asks for texts.
-/

namespace Lookahead

open TokenSource (EndsAt KindTells)

/--
What the cursor `s` has become, by now `t`, released from the mark made in `s` and sent back to where
it was then.
-/
def SymbolCursor.restore {α : Type} [SymbolCursor α] (s t : α) : α :=
  seek (release t (mark s)) (index s)

open SymbolCursor (restore)

theorem CharStream.restore_after (s : CharStream) (tried : List Request) :
    restore s (s.after tried) = s := by
  obtain ⟨p, h⟩ := s.exists_seek_eq_after tried
  rw [h]
  rfl

namespace TokenStream

variable {σ τ : Type} [Token τ] [TokenSource σ τ] {rule : LandingRule σ τ Unit}
variable {source : σ} {s t : TokenStream rule}

theorem reachable_restore (s : TokenStream rule) (ht : Reachable rule source t) :
    Reachable rule source (restore s t) := ht.answer (.seek s.index)

theorem Reachable.index_restore (hs : Reachable rule source s) (ht : Reachable rule source t)
    (hr : rule.Settles source) (hsome : s.cursor.isSome) : (restore s t).index = s.index :=
  hs.index_seek_index ht hr hsome

theorem grows_tape_restore (s t : TokenStream rule) : t.tape.Grows (restore s t).tape :=
  t.grows_tape_answer (.seek s.index)

/--
The stream sent back is the one from before, once that is primed, but for the tokens pulled.
-/
theorem Reachable.agrees_restore (hs : Reachable rule source s) (ht : Reachable rule source t)
    (hsteady : rule.Steady source) (hsettles : rule.Settles source) :
    Agrees source s.prime (restore s t) where
  records_left := hs.records_prime
  records_right := (reachable_restore s ht).records
  memory_eq := rfl
  cursor_eq := by
    rw [cursor_prime]
    change _ = some (restore s t).index
    congr 1
    cases hc : s.cursor with
    | some p =>
      have hsome : s.cursor.isSome := by simp [hc]
      rw [hs.index_restore ht hsettles hsome]
      rw [prime_of_isSome hsome]
    | none =>
      -- A stream that is yet to be primed is sent back to the start, which is where priming sends it.
      have hfirst := hs.records.grows (s.tape.grows_ensure 0)
      rw [prime_of_eq_none hc]
      change _ = (t.prime.moveTo s.index).index
      rw [index_of_eq_none hc]
      exact (hsteady hfirst ht.records_prime () 0).1

section Back

variable {n : Nat} (hs : Reachable rule source s) (hn : EndsAt source n) (hk : KindTells source)
variable (hsteady : rule.Steady source) (hsettles : rule.Settles source)

include hs hn hk hsteady hsettles

theorem Reachable.steady_answers_restore (ht : Reachable rule source t)
    {further : List (Request τ)} (hfurther : ∀ r ∈ further, r.IsSteady) :
    ((restore s t).answers further).1 = (s.answers further).1 := by
  have hagrees := (hs.agrees_restore ht hsteady hsettles).prime hsteady
  rw [prime_prime] at hagrees
  exact (hagrees.answers_of_prime hs (reachable_restore s ht) hn hsteady hk hfurther).symm

theorem Reachable.onTape_answers_restore (htape : rule.StaysOnTape source) (hs' : s.OnTape)
    (tried : List (Request τ)) {further : List (Request τ)}
    (hfurther : ∀ r ∈ further, (r.IsSteady ∨ r.isLook = true) ∧ ∀ i, r ≠ .seek i) :
    ((restore s (s.answers tried).2).answers further).1 = (s.answers further).1 := by
  have ht := hs.answers tried
  have hagrees := hs.agrees_restore ht hsteady hsettles
  rw [hs'.prime_eq] at hagrees
  have hback : (restore s (s.answers tried).2).OnTape := by
    refine ⟨rfl, ?_⟩
    have hgrows := (s.grows_tape_answers tried).trans (grows_tape_restore s _)
    rw [hs.index_restore ht hsettles hs'.isSome]
    exact Nat.lt_of_lt_of_le hs'.index_lt_size hgrows.size_le
  symm
  exact hagrees.answers_onTape hs (reachable_restore s ht) hn hsteady htape hk hs' hback hfurther

end Back

end TokenStream

namespace SymbolCursor

/--
Character streams, and streams of tokens that land exactly or on a channel, come back from anything
that they are put to, and then answer whatever sequence of requests ahead as they would have done
before. Behind the cursor token streams do so too, until they are sent elsewhere, if they were on a
token on the tape before.
-/
theorem answers_restore :
    (∀ (s : CharStream) (tried further : List CharStream.Request),
      let back := restore s (s.after tried)
      back.answers further = s.answers further ∧ index back = index s) ∧
    ∀ {σ τ : Type} [Token τ] [TokenSource σ τ] {source : σ} {n : Nat}, EndsAt source n →
      KindTells source → ∀ {rule : LandingRule σ τ Unit},
      (rule = .exact ∨ ∃ channel, rule = .onChannel channel) →
      ∀ {s : TokenStream rule}, TokenStream.Reachable rule source s →
      ∀ tried : List (TokenStream.Request τ),
      let back := restore s (s.answers tried).2
      (∀ further : List (TokenStream.Request τ), (∀ r ∈ further, r.IsSteady) →
        (back.answers further).1 = (s.answers further).1) ∧
      (s.cursor.isSome → s.index < s.size → ∀ further : List (TokenStream.Request τ),
        (∀ r ∈ further, (r.IsSteady ∨ r.isLook = true) ∧ ∀ i, r ≠ .seek i) →
        (back.answers further).1 = (s.answers further).1) ∧
      (s.cursor.isSome ∨ rule = .exact → index back = index s) := by
  constructor
  . intro s tried further back
    have hback : back = s := s.restore_after tried
    rw [hback]
    exact ⟨rfl, rfl⟩
  . intro σ τ _ _ source n hn hk rule hrule s hs tried back
    obtain ⟨hsteady, hsettles, htape⟩ :
        rule.Steady source ∧ rule.Settles source ∧ rule.StaysOnTape source := by
      rcases hrule with rfl | ⟨channel, rfl⟩
      . refine ⟨?_, ?_, ?_⟩
        . apply LandingRule.steady_exact
        . apply LandingRule.settles_exact
        . apply LandingRule.staysOnTape_exact
      . refine ⟨?_, ?_, ?_⟩
        . apply LandingRule.steady_onChannel hn
        . apply LandingRule.settles_onChannel hn
        . apply LandingRule.staysOnTape_onChannel hn
    have ht := hs.answers tried
    refine ⟨?_, ?_, ?_⟩
    . intro further hfurther
      exact hs.steady_answers_restore hn hk hsteady hsettles ht hfurther
    . intro hsome hlt further hfurther
      exact hs.onTape_answers_restore hn hk hsteady hsettles htape ⟨hsome, hlt⟩ tried hfurther
    . rintro (hsome | rfl)
      . exact hs.index_restore ht hsettles hsome
      . rfl

theorem answers_restore_among_hidden :
    let source : Replay :=
      ⟨#[⟨2, " ", 1, 0, 0, 0⟩, ⟨1, "x", 0, 0, 1, 1⟩, ⟨2, " ", 1, 0, 2, 2⟩, ⟨3, "y", 0, 0, 3, 3⟩], 0, ""⟩
    let rule : LandingRule Replay PlainToken Unit := .onChannel 0
    let fresh : TokenStream rule := TokenStream.ofSource rule () source {}
    let s := (fresh.answers [.consume, .look 1]).2
    let tried : List (TokenStream.Request PlainToken) := [.consume, .text, .consume, .seek 0, .pull 3]
    let further : List (TokenStream.Request PlainToken) := [.look 1, .textIn ⟨0, 2⟩, .seek 2, .consume]
    let around : List (TokenStream.Request PlainToken) := [.look (-2), .consume, .behind 3, .peek 2]
    EndsAt source 4 ∧ KindTells source ∧ TokenStream.Reachable rule source fresh ∧
      TokenStream.Reachable rule source s ∧ s.cursor.isSome ∧ s.index < s.size ∧
      ((restore fresh (fresh.answers tried).2).answers further).1 = (fresh.answers further).1 ∧
      ((restore s (s.answers tried).2).answers around).1 = (s.answers around).1 ∧
      index (restore s (s.answers tried).2) = index s := by
  intro source rule fresh s tried further around
  have hn : EndsAt source 4 := by
    constructor <;> decide
  have hk := TokenSource.kindTells_of_plain source
  have hrule : rule = .exact ∨ ∃ channel, rule = .onChannel channel := .inr ⟨0, rfl⟩
  have hfresh : TokenStream.Reachable rule source fresh := .ofSource () {}
  have hs : TokenStream.Reachable rule source s := hfresh.answers [.consume, .look 1]
  have hsome : s.cursor.isSome := by decide +kernel
  have hlt : s.index < s.size := by decide +kernel
  have hfurther : ∀ r ∈ further, r.IsSteady := by
    simp [further, TokenStream.Request.IsSteady]
  have haround : ∀ r ∈ around, (r.IsSteady ∨ r.isLook = true) ∧ ∀ i, r ≠ .seek i := by
    simp [around, TokenStream.Request.IsSteady, TokenStream.Request.isLook]
  obtain ⟨hsteady, -, -⟩ := answers_restore.2 hn hk hrule hfresh tried
  obtain ⟨-, hlook, hindex⟩ := answers_restore.2 hn hk hrule hs tried
  refine ⟨hn, hk, hfresh, hs, hsome, hlt, ?_, ?_, ?_⟩
  . exact hsteady further hfurther
  . exact hlook hsome hlt around haround
  . exact hindex (.inl hsome)

end SymbolCursor

end Lookahead
