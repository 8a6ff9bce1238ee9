import Lookahead.Proofs.Interval.Items
import Lookahead.Proofs.TokenStream.Draining

/-!
This module contains the texts of token streams over a source that ends, in terms of the tokens of
the source.
-/

namespace Lookahead

namespace TokenStream

open TokenSource (EndsAt nth take)

variable {σ τ μ : Type} [Token τ] [TokenSource σ τ] {rule : LandingRule σ τ μ}

section Source

variable {source : σ} {n : Nat} {s : TokenStream rule}

/--
The text is that of all tokens of the source.
-/
theorem Reachable.text_fst (hs : Reachable rule source s) (hn : TokenSource.EndsAt source n) :
    s.text.1 = joinText (TokenSource.take (n + 1) source) := by
  have htokens := (hs.answer .drain).records.tokens_eq
  unfold text
  dsimp only
  rw [← hs.size_drain hn]
  exact congrArg joinText htokens

/--
The text of an interval is that of the tokens of the source there, up to the end of the input.
-/
theorem Reachable.textIn_fst (hs : Reachable rule source s) (hn : TokenSource.EndsAt source n)
    {x : Interval} (hlo : 0 ≤ x.lo.toInt) (hhi : 0 ≤ x.hi.toInt) :
    (s.textIn x).1 =
      let start := x.lo.toInt.toNat
      let stop := min x.hi.toInt.toNat n
      joinText ((List.range' start (stop + 1 - start)).map (TokenSource.nth source)) := by
  have hle := hs.records_prime.size_le hn
  have hsize := hs.records_prime.size_ensure hn x.hi.toInt.toNat
  have hd := hs.records_prime.grows (s.prime.tape.grows_ensure x.hi.toInt.toNat)
  have hstop : min x.hi.toInt.toNat ((s.prime.tape.ensure x.hi.toInt.toNat).size - 1) =
      min x.hi.toInt.toNat n := by omega
  rw [s.textIn_of_nonneg hlo hhi]
  dsimp only
  rw [hstop]
  rw [hd.slice_eq (by omega)]

end Source

/--
The texts of the tokens, one after the other.
-/
def spelling (ts : List τ) : String := String.join (ts.map Token.text)

theorem spelling_append (ts us : List τ) : spelling (ts ++ us) = spelling ts ++ spelling us := by
  unfold spelling
  rw [List.map_append]
  rw [String.join_append]

section Spelling

variable {source : σ} {n : Nat}

theorem beforeEof_map_range' (hn : EndsAt source n) {start k : Nat} (hk : k ≤ n + 1 - start) :
    beforeEof ((List.range' start k).map (nth source)) = ((take n source).drop start).take k := by
  induction k generalizing start with
  | zero => simp [beforeEof]
  | succ k ih =>
    rw [List.range'_succ]
    rw [List.map_cons]
    unfold beforeEof
    rcases Nat.lt_or_ge start n with hlt | hge
    . rw [List.takeWhile_cons_of_pos (by simp [hn.isEof_nth_of_lt start hlt])]
      rw [TokenSource.drop_take hlt]
      rw [List.take_succ_cons]
      rw [← ih (by omega)]
      rfl
    . have hend : start = n := by omega
      rw [hend]
      rw [List.takeWhile_cons_of_neg (by simp [hn.isEof_nth])]
      rw [List.drop_eq_nil_of_le]
      . rfl
      . apply Nat.le_of_eq
        apply TokenSource.length_take

theorem beforeEof_take (hn : EndsAt source n) :
    beforeEof (take (n + 1) source) = take n source := by
  rw [TokenSource.take_eq_map_range']
  rw [beforeEof_map_range' hn (by omega)]
  rw [List.drop_zero]
  rw [List.take_of_length_le]
  rw [TokenSource.length_take]
  omega

variable {s : TokenStream rule}

theorem Reachable.textIn_eq_items (hs : Reachable rule source s) (hn : EndsAt source n)
    {x : Interval} (hlo : 0 ≤ x.lo.toInt) (hhi : 0 ≤ x.hi.toInt) :
    (s.textIn x).1 = spelling (x.items (take n source)) := by
  have hlength := TokenSource.length_take n source
  rw [hs.textIn_fst hn hlo hhi]
  rw [Interval.items_eq_take_drop hlo]
  dsimp only [joinText]
  rw [beforeEof_map_range' hn (by omega)]
  unfold spelling
  congr 2
  rw [List.take_eq_take_iff]
  rw [List.length_drop]
  omega

theorem Reachable.textIn_eq_ite (hs : Reachable rule source s) (hn : EndsAt source n)
    (x : Interval) :
    (s.textIn x).1 =
      if x.lo < 0 ∨ x.hi < x.lo then "" else spelling (x.items (take n source)) := by
  have hlo : x.lo < 0 ↔ x.lo.toInt < 0 := Int32.lt_iff_toInt_lt
  have hhi : x.hi < x.lo ↔ x.hi.toInt < x.lo.toInt := Int32.lt_iff_toInt_lt
  by_cases hneg : x.lo.toInt < 0 ∨ x.hi.toInt < 0
  . rw [s.textIn_of_neg hneg]
    rw [if_pos]
    rw [hlo]
    rw [hhi]
    omega
  . rw [hs.textIn_eq_items hn (by omega) (by omega)]
    split
    . next hempty =>
      rw [Interval.items_eq_nil]
      . rfl
      . rw [hlo] at hempty
        exact hempty.resolve_left (by omega)
    . rfl

theorem Reachable.text_eq_spelling (hs : Reachable rule source s) (hn : EndsAt source n) :
    s.text.1 = spelling (take n source) := by
  rw [hs.text_fst hn]
  unfold joinText
  rw [beforeEof_take hn]
  rfl

end Spelling

/--
Over a source that ends, the text of an interval is made of the tokens of the source that the interval
addresses, without the end of the input, whatever is on the tape and wherever the stream stands. The
text of the stream is made of all of them, and the text of what covers an interval is that of the
interval. The texts of intervals side by side make up the text of both, no matter which streams over
the source are asked for them.
-/
theorem textIn_eq_spelling {source : σ} {n : Nat} (hn : EndsAt source n) {s : TokenStream rule}
    (hs : Reachable rule source s) :
    (∀ x : Interval, (s.textIn x).1 =
      if x.lo < 0 ∨ x.hi < x.lo then "" else spelling (x.items (take n source))) ∧
      s.text.1 = spelling (take n source) ∧
      (∀ {κ : Type} [Spanned κ] (context : κ), s.textOf context = s.textIn (Spanned.span context)) ∧
      ∀ {μ' μ'' : Type} {rule' : LandingRule σ τ μ'} {rule'' : LandingRule σ τ μ''}
        {t : TokenStream rule'} {u : TokenStream rule''},
        Reachable rule' source t → Reachable rule'' source u →
        ∀ a b c : Int32, 0 ≤ a → a.toInt ≤ b.toInt + 1 → b ≤ c → 0 ≤ b → b < Int32.maxValue →
          (s.textIn ⟨a, b⟩).1 ++ (t.textIn ⟨b + 1, c⟩).1 = (u.textIn ⟨a, c⟩).1 := by
  refine ⟨hs.textIn_eq_ite hn, hs.text_eq_spelling hn, fun _ => rfl, ?_⟩
  intro μ' μ'' rule' rule'' t u ht hu a b c ha hab hbc hb hmax
  have hnext := Interval.toInt_add_one hmax
  have hitems := Interval.items_append_items ha hab hbc hmax (take n source)
  rw [Int32.le_iff_toInt_le] at ha hbc hb
  have hzero : (0 : Int32).toInt = 0 := by decide
  rw [hzero] at ha hb
  rw [hs.textIn_eq_items hn (x := ⟨a, b⟩) ha hb]
  rw [ht.textIn_eq_items hn (x := ⟨b + 1, c⟩) (by rw [hnext]; omega) (by dsimp only; omega)]
  rw [hu.textIn_eq_items hn (x := ⟨a, c⟩) ha (by dsimp only; omega)]
  rw [← spelling_append]
  rw [hitems]

theorem textIn_eq_spelling_past_listed_eof :
    let source : Replay :=
      ⟨#[⟨1, "x", 0, 0, 0, 0⟩, ⟨2, " ", 1, 0, 1, 1⟩, ⟨3, "😀", 0, 0, 2, 2⟩, ⟨-1, "?", 0, 0, 3, 3⟩,
        ⟨1, "y", 0, 0, 4, 4⟩], 0, ""⟩
    let s : TokenStream (.onChannel 0) :=
      ((ofSource (.onChannel 0) () source {}).answers [.seek 90, .pull 7]).2
    let fresh : TokenStream (μ := Unit) .exact := ofSource .exact () source {}
    EndsAt source 3 ∧ Reachable (.onChannel 0) source s ∧ Reachable .exact source fresh ∧
      (s.textIn ⟨1, 2147483647⟩).1 = " 😀" ∧ (s.textIn ⟨-1, 2⟩).1 = "" ∧ (s.textIn ⟨2, 1⟩).1 = "" ∧
      s.text.1 = "x 😀" ∧
      (s.textIn ⟨0, 1⟩).1 ++ (fresh.textIn ⟨1 + 1, 9⟩).1 = (fresh.textIn ⟨0, 9⟩).1 := by
  intro source s fresh
  have hn : EndsAt source 3 := by
    constructor <;> decide
  have hs : Reachable (.onChannel 0) source s := (Reachable.ofSource () {}).answers [.seek 90, .pull 7]
  have hfresh : Reachable .exact source fresh := .ofSource () {}
  obtain ⟨hin, htext, -, happend⟩ := textIn_eq_spelling hn hs
  refine ⟨hn, hs, hfresh, ?_, ?_, ?_, ?_, ?_⟩
  . rw [hin]
    decide
  . rw [hin]
    decide
  . rw [hin]
    decide
  . rw [htext]
    decide
  . exact happend hfresh hfresh 0 1 9 (by decide) (by decide) (by decide) (by decide) (by decide)

end TokenStream

end Lookahead
