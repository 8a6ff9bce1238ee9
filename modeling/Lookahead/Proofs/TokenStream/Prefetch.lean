import Lookahead.Proofs.Tape.Search
import Lookahead.Proofs.TokenStream.Consume
import Lookahead.Proofs.TokenStream.Text

/-!
This module contains the freedom that a stream has in when to pull its tokens. As long as the rule
lands by the tokens of the source and not by what is on the tape, lookahead, moves, searches and
texts come out the same however many tokens are pulled ahead of need and in whatever chunks.
-/

namespace Lookahead

namespace LandingRule

variable {σ τ μ : Type} [Token τ] [TokenSource σ τ]

/--
Where the rule lands, and what it remembers, does not depend on how much of the source is on the
tape.
-/
def Steady (rule : LandingRule σ τ μ) (source : σ) : Prop :=
  ∀ {c d : Tape σ τ}, c.Records source → d.Records source → ∀ (m : μ) (i : Nat),
    (rule.land m c i).index = (rule.land m d i).index ∧
      (rule.land m c i).memory = (rule.land m d i).memory

theorem steady_exact (source : σ) : Steady exact source := by
  intro c d _ _ m i
  exact ⟨rfl, rfl⟩

theorem steady_onChannel {source : σ} {n : Nat} (hn : TokenSource.EndsAt source n)
    (channel : UInt32) : Steady (onChannel channel) source := by
  intro c d hc hd m i
  refine ⟨?_, rfl⟩
  apply hc.nextOn_fst_eq hd hn

end LandingRule

namespace TokenStream

variable {σ τ μ : Type} [Token τ] [TokenSource σ τ] {rule : LandingRule σ τ μ}

/--
The streams differ at most in how much of their source is on the tape, and in their settings.
-/
structure Agrees (source : σ) (s t : TokenStream rule) : Prop where
  records_left : s.tape.Records source
  records_right : t.tape.Records source
  cursor_eq : s.cursor = t.cursor
  memory_eq : s.memory = t.memory

namespace Agrees

variable {source : σ} {s t s' t' : TokenStream rule}

theorem refl (h : s.tape.Records source) : Agrees source s s := ⟨h, h, rfl, rfl⟩

theorem symm (h : Agrees source s t) : Agrees source t s where
  records_left := h.records_right
  records_right := h.records_left
  cursor_eq := h.cursor_eq.symm
  memory_eq := h.memory_eq.symm

theorem trans (h : Agrees source s t) (h' : Agrees source t t') : Agrees source s t' where
  records_left := h.records_left
  records_right := h'.records_right
  cursor_eq := h.cursor_eq.trans h'.cursor_eq
  memory_eq := h.memory_eq.trans h'.memory_eq

theorem index_eq (h : Agrees source s t) : s.index = t.index := by
  unfold index
  rw [h.cursor_eq]

theorem grows (h : Agrees source s t) (hs : s.Grows s') (ht : t.Grows t') :
    Agrees source s' t' where
  records_left := h.records_left.grows hs.tape
  records_right := h.records_right.grows ht.tape
  cursor_eq := by
    rw [hs.cursor_eq]
    rw [ht.cursor_eq]
    exact h.cursor_eq
  memory_eq := by
    rw [hs.memory_eq]
    rw [ht.memory_eq]
    exact h.memory_eq

theorem moveTo (h : Agrees source s t) (hr : rule.Steady source) (i : Nat) :
    Agrees source (s.moveTo i) (t.moveTo i) := by
  obtain ⟨hindex, hmemory⟩ := hr h.records_left h.records_right s.memory i
  rw [h.memory_eq] at hindex hmemory
  constructor
  . exact h.records_left.grows (s.grows_tape_moveTo i)
  . exact h.records_right.grows (t.grows_tape_moveTo i)
  . unfold TokenStream.moveTo
    rw [h.memory_eq]
    exact congrArg some hindex
  . unfold TokenStream.moveTo
    rw [h.memory_eq]
    exact hmemory

theorem prime (h : Agrees source s t) (hr : rule.Steady source) :
    Agrees source s.prime t.prime := by
  have hcursor := h.cursor_eq
  unfold TokenStream.prime
  cases hc : t.cursor with
  | some p =>
    rw [hc] at hcursor
    rw [hcursor]
    exact h
  | none =>
    rw [hc] at hcursor
    rw [hcursor]
    apply moveTo _ hr
    apply h.grows
    . exact grows_withTape (s.tape.grows_ensure 0)
    . exact grows_withTape (t.tape.grows_ensure 0)

end Agrees

/--
The request does nothing but to pull tokens.
-/
def Request.isPull : Request τ → Bool
  | .reach _ => true
  | .pull _ => true
  | _ => false

/--
The request is about the tokens of the source and does not show how many of them are on the tape.
-/
def Request.IsSteady : Request τ → Prop
  | .look k => 0 ≤ k
  | .peek k => 0 ≤ k
  | .consume | .mark | .release _ | .seek _ | .drain | .nextOn .. | .prevOn .. => True
  | .text | .textIn _ | .textBetween .. => True
  | _ => False

theorem grows_answer_of_isPull (s : TokenStream rule) {request : Request τ}
    (h : request.isPull = true) : s.Grows (s.answer request).2 := by
  cases request with
  | reach i => exact s.grows_reach i
  | pull n => exact s.grows_pull n
  | _ => contradiction

/--
The answers to the requests that do more than to pull tokens, each with the index afterwards.
-/
def observed (s : TokenStream rule) : List (Request τ) → List (Answer τ × Nat)
  | [] => []
  | request :: rest =>
    let (a, t) := s.answer request
    if request.isPull then t.observed rest else (a, t.index) :: t.observed rest

namespace Agrees

variable {source : σ} {n : Nat} {s t : TokenStream rule}

section Operations

variable (h : Agrees source s t) (hs : Reachable rule source s) (ht : Reachable rule source t)
variable (hn : TokenSource.EndsAt source n) (hr : rule.Steady source)

include h hs ht hn hr

theorem peek_fst_eq {k : Int} (hk : 0 ≤ k) : (s.peek k).1 = (t.peek k).1 := by
  have hnot : ∀ size : Nat, ¬(k < 0 ∧ 0 ≤ s.prime.index + k ∧ s.prime.index + k < size) := by
    omega
  rw [hs.peek_fst hn]
  rw [ht.peek_fst hn]
  unfold tokenAt
  rw [← (h.prime hr).index_eq]
  rw [if_neg (hnot _)]
  rw [if_neg (hnot _)]

theorem look_fst_eq {k : Int} (hk : 0 ≤ k) : (s.look k).1 = (t.look k).1 := by
  unfold look
  dsimp only
  rw [h.peek_fst_eq hs ht hn hr hk]

theorem consume (hk : TokenSource.KindTells source) :
    s.consume.1 = t.consume.1 ∧ Agrees source s.consume.2 t.consume.2 := by
  have hprime := h.prime hr
  have hindex := hprime.index_eq
  constructor
  . rw [hs.consume_fst hn hk]
    rw [ht.consume_fst hn hk]
    rw [hindex]
  . by_cases hlt : s.prime.index < n
    . rw [hs.consume_snd_of_lt hn hk hlt]
      rw [hindex] at hlt ⊢
      rw [ht.consume_snd_of_lt hn hk hlt]
      apply moveTo _ hr
      apply hprime.grows
      . exact grows_withTape (s.prime.tape.grows_ensure _)
      . exact grows_withTape (t.prime.tape.grows_ensure _)
    . have hle := Nat.le_of_not_lt hlt
      apply hprime.grows
      . exact hs.grows_consume_of_le hn hle
      . rw [hindex] at hle
        exact ht.grows_consume_of_le hn hle

theorem textIn (x : Interval) :
    (s.textIn x).1 = (t.textIn x).1 ∧ Agrees source (s.textIn x).2 (t.textIn x).2 := by
  by_cases hx : x.lo.toInt < 0 ∨ x.hi.toInt < 0
  . rw [s.textIn_of_neg hx]
    rw [t.textIn_of_neg hx]
    exact ⟨rfl, h⟩
  . have hlo : 0 ≤ x.lo.toInt := by omega
    have hhi : 0 ≤ x.hi.toInt := by omega
    constructor
    . rw [hs.textIn_fst hn hlo hhi]
      rw [ht.textIn_fst hn hlo hhi]
    . rw [s.textIn_of_nonneg hlo hhi]
      rw [t.textIn_of_nonneg hlo hhi]
      apply (h.prime hr).grows
      . exact grows_withTape (s.prime.tape.grows_ensure _)
      . exact grows_withTape (t.prime.tape.grows_ensure _)

theorem textBetween (start stop : Option τ) :
    (s.textBetween start stop).1 = (t.textBetween start stop).1 ∧
      Agrees source (s.textBetween start stop).2 (t.textBetween start stop).2 := by
  unfold TokenStream.textBetween
  split
  . apply h.textIn hs ht hn hr
  . exact ⟨rfl, h⟩

/--
Streams that agree answer a steady request alike, and agree afterwards.
-/
theorem answer (hk : TokenSource.KindTells source) {request : Request τ}
    (hrequest : request.IsSteady) :
    (s.answer request).1 = (t.answer request).1 ∧
      Agrees source (s.answer request).2 (t.answer request).2 := by
  have hprime := h.prime hr
  cases request with
  | consume =>
    obtain ⟨hfst, hsnd⟩ := h.consume hs ht hn hr hk
    exact ⟨congrArg (Answer.ofExcept fun _ => .done) hfst, hsnd⟩
  | look k =>
    have hfst := h.look_fst_eq hs ht hn hr hrequest
    exact ⟨congrArg Answer.symbol hfst, hprime.grows (s.grows_look k) (t.grows_look k)⟩
  | peek k =>
    have hfst := h.peek_fst_eq hs ht hn hr hrequest
    exact ⟨congrArg Answer.token hfst, hprime.grows (s.grows_peek k) (t.grows_peek k)⟩
  | mark => exact ⟨rfl, h⟩
  | release marker => exact ⟨rfl, h⟩
  | seek i => exact ⟨rfl, hprime.moveTo hr i⟩
  | drain => exact ⟨rfl, hprime.grows s.grows_drain t.grows_drain⟩
  | nextOn i channel =>
    have hfst := h.records_left.nextOn_fst_eq h.records_right hn i channel
    refine ⟨congrArg (Answer.index ∘ some) hfst, ?_⟩
    exact h.grows (s.grows_nextOn i channel) (t.grows_nextOn i channel)
  | prevOn i channel =>
    have hfst := h.records_left.prevOn_fst_eq h.records_right hn i channel
    refine ⟨congrArg Answer.index hfst, ?_⟩
    exact h.grows (s.grows_prevOn i channel) (t.grows_prevOn i channel)
  | text =>
    have hfst : s.text.1 = t.text.1 := (hs.text_fst hn).trans (ht.text_fst hn).symm
    exact ⟨congrArg Answer.text hfst, hprime.grows s.grows_drain t.grows_drain⟩
  | textIn x =>
    obtain ⟨hfst, hsnd⟩ := h.textIn hs ht hn hr x
    exact ⟨congrArg Answer.text hfst, hsnd⟩
  | textBetween start stop =>
    obtain ⟨hfst, hsnd⟩ := h.textBetween hs ht hn hr start stop
    exact ⟨congrArg Answer.text hfst, hsnd⟩
  | _ => contradiction

end Operations

/--
Pulling tokens in between leaves no trace in the answers to steady requests.
-/
theorem answers (h : Agrees source s t) (hs : Reachable rule source s)
    (ht : Reachable rule source t) (hn : TokenSource.EndsAt source n) (hr : rule.Steady source)
    (hk : TokenSource.KindTells source) {requests : List (Request τ)}
    (hrequests : ∀ r ∈ requests.filter (!·.isPull), r.IsSteady) :
    s.observed (requests.filter (!·.isPull)) = t.observed requests ∧
      Agrees source (s.answers (requests.filter (!·.isPull))).2 (t.answers requests).2 := by
  induction requests generalizing s t with
  | nil => exact ⟨rfl, h⟩
  | cons request rest ih =>
    by_cases hpull : request.isPull = true
    . rw [List.filter_cons_of_neg (by simpa using hpull)] at hrequests ⊢
      have hnext := h.grows (.refl s) (t.grows_answer_of_isPull hpull)
      simp only [observed, TokenStream.answers, hpull, if_true]
      exact ih hnext hs (ht.answer request) hrequests
    . rw [List.filter_cons_of_pos (by simpa using hpull)] at hrequests ⊢
      rw [List.forall_mem_cons] at hrequests
      obtain ⟨hanswer, hnext⟩ := h.answer hs ht hn hr hk hrequests.1
      obtain ⟨hobserved, hfinal⟩ :=
        ih hnext (hs.answer request) (ht.answer request) hrequests.2
      simp only [observed, TokenStream.answers, if_neg hpull]
      refine ⟨?_, hfinal⟩
      rw [hanswer]
      rw [hnext.index_eq]
      rw [hobserved]

end Agrees

/--
Over a source that ends, a stream that lands exactly or on a channel answers steady requests alike,
with the same index after each of them and in the end, if tokens are pulled at any time in between
and if draining asks for other chunks.
-/
theorem observed_eq_of_pulls {source : σ} {n : Nat} (hn : TokenSource.EndsAt source n)
    (hk : TokenSource.KindTells source) {rule : LandingRule σ τ Unit}
    (hrule : rule = .exact ∨ ∃ channel, rule = .onChannel channel)
    {requests pulling : List (Request τ)} (hrequests : ∀ r ∈ requests, r.IsSteady)
    (hpulling : pulling.filter (!·.isPull) = requests) (settings settings' : TokenSettings) :
    let s := ofSource rule () source settings
    let t := ofSource rule () source settings'
    t.observed pulling = s.observed requests ∧
      (t.answers pulling).2.index = (s.answers requests).2.index := by
  intro s t
  have hr : rule.Steady source := by
    rcases hrule with rfl | ⟨channel, rfl⟩
    . exact LandingRule.steady_exact source
    . exact LandingRule.steady_onChannel hn channel
  have hs : Reachable rule source s := .ofSource () settings
  have ht : Reachable rule source t := .ofSource () settings'
  have h : Agrees source s t := ⟨hs.records, ht.records, rfl, rfl⟩
  rw [← hpulling] at hrequests ⊢
  obtain ⟨hobserved, hfinal⟩ := h.answers hs ht hn hr hk hrequests
  exact ⟨hobserved.symm, hfinal.index_eq.symm⟩

theorem observed_eq_of_pulls_hidden :
    let source : Replay := ⟨#[⟨2, " ", Channel.hidden, 0, 0, 0⟩, ⟨1, "x", 0, 0, 1, 1⟩], 0, ""⟩
    let requests : List (Request PlainToken) :=
      [.nextOn 0 7, .look 1, .consume, .prevOn 1 7, .consume, .textIn ⟨0, 5⟩, .seek 9, .peek 1,
        .text]
    let pulling : List (Request PlainToken) :=
      [.pull 1, .nextOn 0 7, .reach 0, .look 1, .consume, .prevOn 1 7, .pull 9, .consume,
        .textIn ⟨0, 5⟩, .reach 4, .seek 9, .peek 1, .text, .pull 0]
    TokenSource.EndsAt source 2 ∧ TokenSource.KindTells source ∧
      (∀ r ∈ requests, r.IsSteady) ∧ pulling.filter (!·.isPull) = requests ∧
      (ofSource (.onChannel 0) () source ⟨1⟩).observed pulling =
        (ofSource (.onChannel 0) () source ⟨1000⟩).observed requests := by
  intro source requests pulling
  have hn : TokenSource.EndsAt source 2 := by
    constructor <;> decide
  have hk := TokenSource.kindTells_of_plain source
  have hrequests : ∀ r ∈ requests, r.IsSteady := by simp [requests, Request.IsSteady]
  have hpulling : pulling.filter (!·.isPull) = requests := rfl
  refine ⟨hn, hk, hrequests, hpulling, ?_⟩
  exact (observed_eq_of_pulls hn hk (.inr ⟨0, rfl⟩) hrequests hpulling ⟨1000⟩ ⟨1⟩).1

end TokenStream

end Lookahead
