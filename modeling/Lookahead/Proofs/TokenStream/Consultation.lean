import Lookahead.Proofs.TokenStream.Consume
import Lookahead.Proofs.TokenStream.Recording

/-!
This module contains when a stream asks its landing rule, and for which index: once for the start,
when the stream is primed, and then once for each move. Nothing else that is asked of a stream reaches
the rule, whatever the rule does and whatever it remembers.
-/

namespace Lookahead

namespace TokenStream

open TokenSource (EndsAt KindTells)

variable {σ τ μ : Type} [Token τ] [TokenSource σ τ] {rule : LandingRule σ τ μ}

/--
The indices that the rule is asked for to prime the stream.
-/
def opening (s : TokenStream rule) : List Nat := if s.cursor.isSome then [] else [0]

/--
The indices that the rule is asked for by a request, in order.
-/
def asked (s : TokenStream rule) : Request τ → List Nat
  | .seek i => s.opening ++ [i]
  | .consume =>
    match s.consume.1 with
    | .ok _ => s.opening ++ [s.prime.index + 1]
    | .error _ => s.opening
  | request => if request.needsCursor then s.opening else []

theorem asked_consume_of_ok {s : TokenStream rule} (h : s.consume.1 = .ok ()) :
    s.asked .consume = s.opening ++ [s.prime.index + 1] := by
  simp only [asked, h]

theorem asked_consume_of_error {s : TokenStream rule} {fault : Fault}
    (h : s.consume.1 = .error fault) : s.asked .consume = s.opening := by
  simp only [asked, h]

theorem asked_of_stays (s : TokenStream rule) {request : Request τ} (hc : request ≠ .consume)
    (hseek : ∀ i, request ≠ .seek i) :
    s.asked request = if request.needsCursor then s.opening else [] := by
  cases request with
  | consume => exact absurd rfl hc
  | seek i => exact absurd rfl (hseek i)
  | _ => rfl

def askedInTurn (s : TokenStream rule) : List (Request τ) → List Nat
  | [] => []
  | request :: rest => s.asked request ++ (s.answer request).2.askedInTurn rest

section Record

variable {source : σ} {n : Nat} {s t : TokenStream rule.recorded}

def consulted (s : TokenStream rule.recorded) : List Nat := s.record.map Prod.fst

theorem Grows.record_eq (h : s.Grows t) : t.record = s.record := by
  unfold record
  rw [h.memory_eq]

theorem Grows.consulted_eq (h : s.Grows t) : t.consulted = s.consulted := by
  unfold consulted
  rw [h.record_eq]

theorem record_moveTo (s : TokenStream rule.recorded) (i : Nat) :
    (s.moveTo i).record = s.record ++ [(i, (s.moveTo i).index)] := rfl

theorem consulted_moveTo (s : TokenStream rule.recorded) (i : Nat) :
    (s.moveTo i).consulted = s.consulted ++ [i] := by
  unfold consulted
  rw [record_moveTo]
  rw [List.map_append]
  rfl

theorem consulted_prime (s : TokenStream rule.recorded) :
    s.prime.consulted = s.consulted ++ s.opening := by
  unfold opening
  split
  . next h =>
    rw [prime_of_isSome h]
    rw [List.append_nil]
  . next h =>
    rw [prime_of_eq_none (by simpa using h)]
    rw [consulted_moveTo]
    rfl

theorem Reachable.consulted_consume (hs : Reachable rule.recorded source s) (hn : EndsAt source n)
    (hk : KindTells source) : s.consume.2.consulted = s.consulted ++ s.asked .consume := by
  by_cases h : n ≤ s.prime.index
  . rw [asked_consume_of_error ((hs.consume_eq_error_iff hn hk).mpr h)]
    rw [(hs.grows_consume_of_le hn h).consulted_eq]
    apply consulted_prime
  . have hlt := Nat.lt_of_not_le h
    rw [asked_consume_of_ok ((hs.consume_eq_ok_iff hn hk).mpr hlt)]
    rw [hs.consume_snd_of_lt hn hk hlt]
    rw [consulted_moveTo]
    rw [← List.append_assoc]
    rw [← consulted_prime]
    rfl

/--
A request has the rule asked for just what `asked` says.
-/
theorem Reachable.consulted_answer (hs : Reachable rule.recorded source s) (hn : EndsAt source n)
    (hk : KindTells source) (request : Request τ) :
    (s.answer request).2.consulted = s.consulted ++ s.asked request := by
  rcases request.moves_or_stays with rfl | ⟨i, rfl⟩ | ⟨hc, hseek⟩
  . exact hs.consulted_consume hn hk
  . change (s.prime.moveTo i).consulted = s.consulted ++ (s.opening ++ [i])
    rw [consulted_moveTo]
    rw [consulted_prime]
    apply List.append_assoc
  . rw [s.asked_of_stays hc hseek]
    split
    . next h =>
      rw [(s.grows_answer_of_needsCursor h hc hseek).consulted_eq]
      apply consulted_prime
    . next h =>
      rw [(s.grows_answer_of_not_needsCursor (by simpa using h)).consulted_eq]
      rw [List.append_nil]

theorem Reachable.consulted_answers (hs : Reachable rule.recorded source s) (hn : EndsAt source n)
    (hk : KindTells source) (requests : List (Request τ)) :
    (s.answers requests).2.consulted = s.consulted ++ s.askedInTurn requests := by
  induction requests generalizing s with
  | nil => exact (List.append_nil _).symm
  | cons request rest ih =>
    unfold TokenStream.answers askedInTurn
    rw [← List.append_assoc]
    rw [← hs.consulted_answer hn hk request]
    apply ih
    exact hs.answer request

theorem unrecorded_asked (s : TokenStream rule.recorded) (request : Request τ) :
    s.unrecorded.asked request = s.asked request := by
  cases request with
  | consume =>
    unfold asked
    rw [unrecorded_consume]
    rw [unrecorded_prime]
    rfl
  | _ => rfl

theorem unrecorded_askedInTurn (s : TokenStream rule.recorded) (requests : List (Request τ)) :
    s.unrecorded.askedInTurn requests = s.askedInTurn requests := by
  induction requests generalizing s with
  | nil => rfl
  | cons request rest ih =>
    unfold askedInTurn
    rw [unrecorded_asked]
    rw [unrecorded_answer]
    rw [← ih]
    rfl

/--
The cursor is where the rule landed last.
-/
def AtLastLanding (s : TokenStream rule.recorded) : Prop :=
  s.cursor = s.record.getLast?.map Prod.snd

theorem AtLastLanding.answers (h : s.AtLastLanding) (requests : List (Request τ)) :
    (s.answers requests).2.AtLastLanding := by
  apply answers_induction (motive := AtLastLanding) _ _ h
  . intro s t hgrows h
    unfold AtLastLanding
    rw [hgrows.cursor_eq]
    rw [hgrows.record_eq]
    exact h
  . intro s i h
    unfold AtLastLanding
    rw [record_moveTo]
    rw [List.getLast?_concat]
    rfl

end Record

section Cursor

theorem isSome_cursor_step (s : TokenStream rule) : s.step.cursor.isSome := by
  rw [step_eq]
  dsimp only
  split
  . rfl
  . exact s.isSome_cursor_prime

theorem isSome_cursor_consume (s : TokenStream rule) : s.consume.2.cursor.isSome := by
  rcases s.consume_cases with ⟨h, -⟩ | ⟨h, -⟩
  . rw [h]
    exact s.isSome_cursor_step
  . rw [h]
    rw [(s.grows_look 1).cursor_eq]
    exact s.isSome_cursor_prime

/--
A stream gets its cursor from the first request that needs one.
-/
theorem isSome_cursor_answer (s : TokenStream rule) (request : Request τ) :
    (s.answer request).2.cursor.isSome = (s.cursor.isSome || request.needsCursor) := by
  cases h : request.needsCursor with
  | false =>
    rw [(s.grows_answer_of_not_needsCursor h).cursor_eq]
    rw [Bool.or_false]
  | true =>
    rw [Bool.or_true]
    rcases request.moves_or_stays with rfl | ⟨i, rfl⟩ | ⟨hc, hseek⟩
    . apply isSome_cursor_consume
    . rfl
    . rw [(s.grows_answer_of_needsCursor h hc hseek).cursor_eq]
      apply isSome_cursor_prime

theorem isSome_cursor_answers (s : TokenStream rule) (requests : List (Request τ)) :
    (s.answers requests).2.cursor.isSome =
      (s.cursor.isSome || requests.any Request.needsCursor) := by
  induction requests generalizing s with
  | nil => exact (Bool.or_false _).symm
  | cons request rest ih =>
    unfold answers
    rw [List.any_cons]
    rw [← Bool.or_assoc]
    rw [← isSome_cursor_answer]
    apply ih

theorem cursor_answer_of_stays {s : TokenStream rule} (hsome : s.cursor.isSome)
    {request : Request τ} (hc : request ≠ .consume) (hseek : ∀ i, request ≠ .seek i) :
    (s.answer request).2.cursor = s.cursor := by
  rcases s.grows_answer hc hseek with h | h
  . exact h.cursor_eq
  . rw [prime_of_isSome hsome] at h
    exact h.cursor_eq

end Cursor

/--
The rule of a stream is asked for the start by the first request that needs the cursor, for the index
sought by each `seek`, for the one after the cursor by each `consume` that is not refused, and for
nothing else. The cursor is where it landed when it was asked last, and no other request moves it.
-/
theorem asked_answers (rule : LandingRule σ τ μ) (memory : μ) {source : σ} {n : Nat}
    (hn : EndsAt source n) (hk : KindTells source) (settings : TokenSettings)
    (requests : List (Request τ)) :
    let fresh := ofSource rule memory source settings
    let s := (fresh.answers requests).2
    let recorded := (ofSource rule.recorded (memory, []) source settings).answers requests
    (recorded.1, recorded.2.unrecorded) = fresh.answers requests ∧
      recorded.2.record.map Prod.fst = fresh.askedInTurn requests ∧
      s.cursor = recorded.2.record.getLast?.map Prod.snd ∧
      s.cursor.isSome = requests.any Request.needsCursor ∧
      ∀ request : Request τ, request ≠ .consume → (∀ i, request ≠ .seek i) → s.cursor.isSome →
        (s.answer request).2.cursor = s.cursor := by
  intro fresh s recorded
  let blank := ofSource rule.recorded (memory, []) source settings
  have hblank : Reachable rule.recorded source blank := .ofSource (memory, []) settings
  have hsame : fresh.answers requests = recorded.map id unrecorded :=
    unrecorded_answers blank requests
  refine ⟨hsame.symm, ?_, ?_, ?_, ?_⟩
  . have hcalls : recorded.2.consulted = blank.consulted ++ blank.askedInTurn requests :=
      hblank.consulted_answers hn hk requests
    rw [← unrecorded_askedInTurn] at hcalls
    exact hcalls
  . have hfirst : blank.AtLastLanding := rfl
    have hlast : recorded.2.AtLastLanding := hfirst.answers requests
    rw [show s = recorded.2.unrecorded from congrArg Prod.snd hsame]
    exact hlast
  . apply isSome_cursor_answers
  . intro request hc hseek hsome
    exact cursor_answer_of_stays hsome hc hseek

/--
A rule that counts its moves and lands one further on every second one. It is not asked for the third
of the four tokens to be consumed, for that is the end of the input.
-/
theorem asked_answers_of_counting :
    let rule : LandingRule Replay PlainToken Nat :=
      ⟨fun moves tape i => ⟨i + moves % 2, tape, moves + 1⟩, fun _ tape _ => .refl tape⟩
    let source : Replay :=
      ⟨#[⟨1, "a", 0, 0, 0, 0⟩, ⟨2, "b", 0, 0, 1, 1⟩, ⟨3, "c", 0, 0, 2, 2⟩], 0, ""⟩
    let requests : List (Request PlainToken) :=
      [.pull 1, .peek (-1), .consume, .look 2, .consume, .consume, .seek 0, .text, .consume]
    let recorded := (ofSource rule.recorded (0, []) source {}).answers requests
    EndsAt source 3 ∧ KindTells source ∧
      recorded.2.record = [(0, 0), (1, 2), (3, 3), (0, 1), (2, 2)] ∧
      (ofSource rule 0 source {}).askedInTurn requests = [0, 1, 3, 0, 2] ∧
      ((ofSource rule 0 source {}).answers requests).2.cursor = some 2 := by
  intro rule source requests recorded
  have hn : EndsAt source 3 := by
    constructor <;> decide
  have hk := TokenSource.kindTells_of_plain source
  have hrecord : recorded.2.record = [(0, 0), (1, 2), (3, 3), (0, 1), (2, 2)] := by decide +kernel
  obtain ⟨-, hcalls, hcursor, -, -⟩ := asked_answers rule 0 hn hk {} requests
  refine ⟨hn, hk, hrecord, ?_, ?_⟩
  . rw [← hcalls]
    rw [hrecord]
    rfl
  . rw [hcursor]
    rw [hrecord]
    rfl

end TokenStream

end Lookahead
