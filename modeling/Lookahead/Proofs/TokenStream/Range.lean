import Lookahead.Proofs.TokenStream.Text

/-!
This module contains how the questions about ranges of tokens hang together. Each of them is about the
tokens on the tape whose indices are in the range. They differ in what they make of bounds off the
tape, and in whether they tell the end of the input.
-/

namespace Lookahead

namespace Tape

variable {σ τ : Type}

/--
The tokens on the tape whose indices are in the range, in order.
-/
def within (c : Tape σ τ) (start stop : Nat) : List τ :=
  (c.tokens.toList.zipIdx.filter fun t => start ≤ t.2 ∧ t.2 ≤ stop).map Prod.fst

section Within

variable (c : Tape σ τ) (start stop : Nat)

theorem within_eq_take_drop :
    c.within start stop = (c.tokens.toList.drop start).take (stop + 1 - start) := by
  have hfilter := Interval.map_filter_zipIdx c.tokens.toList start (stop + 1) 0
  rw [Nat.sub_zero] at hfilter
  rw [Nat.max_zero] at hfilter
  rw [← hfilter]
  unfold within
  congr 2
  funext t
  rw [decide_eq_decide]
  omega

theorem sublist_within : (c.within start stop).Sublist c.tokens.toList := by
  rw [within_eq_take_drop]
  apply (List.take_sublist ..).trans
  apply List.drop_sublist

variable {c start stop}

theorem within_eq_nil (h : stop < start ∨ c.size ≤ start) : c.within start stop = [] := by
  rw [within_eq_take_drop]
  rcases h with h | h
  . have hzero : stop + 1 - start = 0 := by omega
    rw [hzero]
    apply List.take_zero
  . rw [List.drop_eq_nil_of_le]
    . apply List.take_nil
    . exact h

theorem slice_eq_within (hstop : stop < c.size) : c.slice start stop = c.within start stop := by
  unfold slice
  rw [if_pos hstop]
  rw [Array.toList_extract]
  rw [within_eq_take_drop]

theorem slice_min_eq_within (hc : 0 < c.size) :
    c.slice start (min stop (c.size - 1)) = c.within start stop := by
  rw [slice_eq_within (by omega)]
  rw [within_eq_take_drop]
  rw [within_eq_take_drop]
  rw [List.take_eq_take_iff]
  rw [List.length_drop]
  unfold size at hc ⊢
  rw [Array.length_toList]
  omega

end Within

variable [Token τ] [TokenSource σ τ]

namespace Records

variable {source : σ} {c d : Tape σ τ} {start stop : Nat}

theorem lt_size_of_lt_size (hc : Records source c) (hd : Records source d) (hstop : d.Covers stop)
    {i : Nat} (hi : i ≤ stop) (hlt : i < c.size) : i < d.size := by
  apply hd.lt_size_of_covers (hstop.imp_left (Nat.lt_of_le_of_lt hi))
  intro j hj
  apply hc.isEof_nth_of_lt
  omega

/--
Two tapes over a source that both reach as far as the range does have the same tokens there.
-/
theorem within_eq (hc : Records source c) (hd : Records source d) (hc' : c.Covers stop)
    (hd' : d.Covers stop) : c.within start stop = d.within start stop := by
  apply List.ext_getElem?
  intro i
  rw [within_eq_take_drop]
  rw [within_eq_take_drop]
  rw [List.getElem?_take]
  rw [List.getElem?_take]
  split
  . next hi =>
    -- Up to the end of the range neither tape lacks a token that the other has.
    have hle : start + i ≤ stop := by omega
    have hsame : start + i < c.size ↔ start + i < d.size :=
      ⟨hc.lt_size_of_lt_size hd hd' hle, hd.lt_size_of_lt_size hc hc' hle⟩
    rw [List.getElem?_drop]
    rw [List.getElem?_drop]
    rw [Array.getElem?_toList]
    rw [Array.getElem?_toList]
    rw [hc.getElem?_tokens]
    rw [hd.getElem?_tokens]
    simp only [hsame]
  . rfl

theorem pairwise_isEof (h : Records source c) :
    c.tokens.toList.Pairwise fun t _ => Token.isEof t = false := by
  rw [List.pairwise_iff_getElem]
  intro i j hi hj hij
  have ht : c.tokens.toList[i]? = some (TokenSource.nth source i) := by
    rw [Array.getElem?_toList]
    apply h.getElem?_of_lt hi
  rw [List.getElem?_eq_getElem hi] at ht
  rw [Option.some_inj.mp ht]
  apply h.isEof_nth_of_lt
  exact Nat.lt_of_le_of_lt hij hj

end Records

end Tape

namespace TokenStream

variable {σ τ μ : Type} [Token τ] [TokenSource σ τ] {rule : LandingRule σ τ μ}

/--
Only the last token can be the end of the input, so what is before the first that is are the others.
-/
theorem beforeEof_eq_filter {ts : List τ} (h : ts.Pairwise fun t _ => Token.isEof t = false) :
    beforeEof ts = ts.filter fun t => !Token.isEof t := by
  unfold beforeEof
  induction h with
  | nil => rfl
  | @cons t ts hrest _ ih =>
    cases ht : Token.isEof t with
    | false =>
      rw [List.takeWhile_cons_of_pos (by simp [ht])]
      rw [List.filter_cons_of_pos (by simp [ht])]
      rw [ih]
    | true =>
      have hnil : ts = [] := by
        apply List.eq_nil_iff_forall_not_mem.mpr
        intro u hu
        rw [hrest u hu] at ht
        contradiction
      rw [hnil]
      rw [List.takeWhile_cons_of_neg (by simp [ht])]
      rw [List.filter_cons_of_neg (by simp [ht])]
      rfl

theorem beforeEof_within {source : σ} {c : Tape σ τ} (h : c.Records source) (start stop : Nat) :
    beforeEof (c.within start stop) = (c.within start stop).filter fun t => !Token.isEof t := by
  apply beforeEof_eq_filter
  apply List.Pairwise.sublist _ h.pairwise_isEof
  apply Tape.sublist_within

section Source

variable {source : σ} {s : TokenStream rule}

theorem Reachable.range_fst (hs : Reachable rule source s) {start stop : Int}
    (h : 0 ≤ start ∧ 0 ≤ stop) :
    (s.range start stop).1 =
      some ((s.prime.tape.within start.toNat stop.toNat).filter fun t => !Token.isEof t) := by
  have hpos := hs.size_prime_pos
  rw [s.range_of_nonneg h]
  dsimp only
  rw [if_neg (Nat.ne_of_gt hpos)]
  rw [← beforeEof_within hs.records_prime]
  rw [← Tape.slice_min_eq_within hpos]
  rfl

theorem select_none_fst {start stop : Nat} (hstart : start < s.prime.size)
    (hstop : stop < s.prime.size) :
    (s.select start stop none).1 = .ok (s.prime.tape.within start stop) := by
  rw [← Tape.slice_eq_within hstop]
  unfold select
  dsimp only
  rw [if_neg (by omega)]
  rw [List.filter_eq_self.mpr fun _ _ => rfl]

theorem select_some_fst {start stop : Nat} (hstart : start < s.prime.size)
    (hstop : stop < s.prime.size) (kinds : List Int32) :
    (s.select start stop (some kinds)).1 =
      .ok ((s.prime.tape.within start stop).filter fun t => Token.kind t ∈ kinds) := by
  rw [← Tape.slice_eq_within hstop]
  unfold select
  dsimp only
  rw [if_neg (by omega)]
  simp only [List.contains_eq_mem]

theorem select_fst_of_le {start stop : Nat} (h : s.prime.size ≤ start ∨ s.prime.size ≤ stop)
    (kinds : Option (List Int32)) :
    (s.select start stop kinds).1 = .error (.rangeOutOfRange start stop s.prime.size) := by
  unfold select
  dsimp only
  rw [if_pos h]

theorem Reachable.textIn_eq_within (hs : Reachable rule source s) {x : Interval}
    (hlo : 0 ≤ x.lo.toInt) (hhi : 0 ≤ x.hi.toInt) :
    (s.textIn x).1 = spelling (((s.prime.tape.ensure x.hi.toInt.toNat).within x.lo.toInt.toNat
      x.hi.toInt.toNat).filter fun t => !Token.isEof t) := by
  have hgrows := s.prime.tape.grows_ensure x.hi.toInt.toNat
  have hpos := Nat.lt_of_lt_of_le hs.size_prime_pos hgrows.size_le
  rw [s.textIn_of_nonneg hlo hhi]
  dsimp only
  rw [Tape.slice_min_eq_within hpos]
  unfold joinText
  rw [beforeEof_within (hs.records_prime.grows hgrows)]
  rfl

/--
Once the stream has all of a range that there is, the text of the range is that of its tokens, no
matter which stream over the source is asked for it.
-/
theorem Reachable.textIn_eq_spelling_range (hs : Reachable rule source s) {μ' : Type}
    {rule' : LandingRule σ τ μ'} {t : TokenStream rule'} (ht : Reachable rule' source t) {x : Interval}
    (hlo : 0 ≤ x.lo.toInt) (hhi : 0 ≤ x.hi.toInt) :
    ∃ ts, ((s.reach x.hi.toInt.toNat).2.range x.lo.toInt x.hi.toInt).1 = some ts ∧
      (t.textIn x).1 = spelling ts := by
  have hlimit : x.hi.toInt.toNat < Position.limit := by
    have hle := x.hi.toInt_lt
    unfold Position.limit
    omega
  have hu := hs.answer (.reach x.hi.toInt.toNat)
  have hcovers := (s.tape.covers_ensure hlimit).grows (s.reach x.hi.toInt.toNat).2.grows_tape_prime
  have ht' := ht.records_prime.grows (t.prime.tape.grows_ensure x.hi.toInt.toNat)
  refine ⟨_, hu.range_fst ⟨hlo, hhi⟩, ?_⟩
  rw [ht.textIn_eq_within hlo hhi]
  rw [ht'.within_eq hu.records_prime (t.prime.tape.covers_ensure hlimit) hcovers]

theorem Reachable.range_of_select (hs : Reachable rule source s) {start stop : Nat} {ts : List τ}
    (h : (s.select start stop none).1 = .ok ts) :
    (s.range start stop).1 = some (ts.filter fun t => !Token.isEof t) := by
  by_cases hin : start < s.prime.size ∧ stop < s.prime.size
  . rw [select_none_fst hin.1 hin.2] at h
    cases h
    apply hs.range_fst
    omega
  . rw [select_fst_of_le (by omega)] at h
    contradiction

end Source

/--
What a stream has in a range is what is on its tape there once it is primed. Asked for the range, it
leaves out the end of the input, and only a negative bound is refused. Asked for what is of certain
kinds there, it refuses every bound off the tape but keeps the end of the input. Where both grant the
range they differ in the end of the input alone, and once the stream has pulled as far as the range
goes, the text of the range is that of its tokens.
-/
theorem ranges_agree {source : σ} {s : TokenStream rule} (hs : Reachable rule source s) :
    let tape := s.prime.tape
    (∀ start stop : Int, (s.range start stop).1 =
      if 0 ≤ start ∧ 0 ≤ stop then
        some ((tape.within start.toNat stop.toNat).filter fun t => !Token.isEof t)
      else none) ∧
      (∀ start stop : Nat, stop < start ∨ tape.size ≤ start → tape.within start stop = []) ∧
      (∀ start stop : Nat, start < tape.size → stop < tape.size →
        (s.select start stop none).1 = .ok (tape.within start stop) ∧
          ∀ kinds, (s.select start stop (some kinds)).1 =
            .ok ((tape.within start stop).filter fun t => Token.kind t ∈ kinds)) ∧
      (∀ start stop : Nat, tape.size ≤ start ∨ tape.size ≤ stop →
        ∀ kinds, (s.select start stop kinds).1 = .error (.rangeOutOfRange start stop tape.size)) ∧
      (∀ (start stop : Nat) (ts : List τ), (s.select start stop none).1 = .ok ts →
        (s.range start stop).1 = some (ts.filter fun t => !Token.isEof t)) ∧
      ∀ {μ' : Type} {rule' : LandingRule σ τ μ'} {t : TokenStream rule'},
        Reachable rule' source t → ∀ a b : Int32, 0 ≤ a → 0 ≤ b →
          ∃ ts, ((s.reach b.toInt.toNat).2.range a.toInt b.toInt).1 = some ts ∧
            (t.textIn ⟨a, b⟩).1 = spelling ts := by
  intro tape
  refine ⟨?_, ?_, ?_, ?_, ?_, ?_⟩
  . intro start stop
    split
    . next h => apply hs.range_fst h
    . next h => rw [s.range_of_neg h]
  . intro start stop h
    apply Tape.within_eq_nil h
  . intro start stop hstart hstop
    constructor
    . apply select_none_fst hstart hstop
    . apply select_some_fst hstart hstop
  . intro start stop h kinds
    apply select_fst_of_le h
  . intro start stop ts h
    apply hs.range_of_select h
  . intro μ' rule' t ht a b ha hb
    have hzero : (0 : Int32).toInt = 0 := by decide
    rw [Int32.le_iff_toInt_le] at ha hb
    rw [hzero] at ha hb
    exact hs.textIn_eq_spelling_range ht (x := ⟨a, b⟩) ha hb

theorem ranges_agree_past_tape :
    let source : Replay :=
      ⟨#[⟨1, "x", 0, 0, 0, 0⟩, ⟨2, " ", 1, 0, 1, 1⟩, ⟨3, "😀", 0, 0, 2, 2⟩], 0, ""⟩
    let fresh : TokenStream (.onChannel 0) := ofSource (.onChannel 0) () source {}
    let part := (fresh.answer (.pull 2)).2
    let whole := (fresh.answer .drain).2
    Reachable (.onChannel 0) source fresh ∧ Reachable (.onChannel 0) source part ∧
      Reachable (.onChannel 0) source whole ∧ part.prime.size = 2 ∧ whole.prime.size = 4 ∧
      (part.range 1 9).1 = some [⟨2, " ", 1, 1, 1, 1⟩] ∧ (part.range 1 (-1)).1 = none ∧
      part.prime.tape.within 1 0 = [] ∧
      (part.select 1 2 none).1 = .error (.rangeOutOfRange 1 2 2) ∧
      (whole.select 2 3 none).1 = .ok (whole.prime.tape.within 2 3) ∧
      (whole.select 0 3 (some [-1, 1, -1])).1 =
        .ok ((whole.prime.tape.within 0 3).filter fun t => Token.kind t ∈ [-1, 1, -1]) ∧
      (whole.range 2 3).1 = some ((whole.prime.tape.within 2 3).filter fun t => !Token.isEof t) ∧
      ∃ ts, ((part.reach 9).2.range 1 9).1 = some ts ∧ (fresh.textIn ⟨1, 9⟩).1 = spelling ts := by
  intro source fresh part whole
  have hfresh : Reachable (.onChannel 0) source fresh := .ofSource () {}
  have hpart : Reachable (.onChannel 0) source part := hfresh.answer (.pull 2)
  have hwhole : Reachable (.onChannel 0) source whole := hfresh.answer .drain
  have hsize : part.prime.size = 2 := by decide +kernel
  have hsize' : whole.prime.size = 4 := by decide +kernel
  obtain ⟨hrange, hnil, -, herror, -, htext⟩ := ranges_agree hpart
  obtain ⟨-, -, hselect, -, hsame, -⟩ := ranges_agree hwhole
  have hlt (i : Nat) (hi : i < 4) : i < whole.prime.tape.size := by
    change i < whole.prime.size
    omega
  obtain ⟨hall, -⟩ := hselect 2 3 (hlt 2 (by decide)) (hlt 3 (by decide))
  obtain ⟨-, hkinds⟩ := hselect 0 3 (hlt 0 (by decide)) (hlt 3 (by decide))
  refine ⟨hfresh, hpart, hwhole, hsize, hsize', ?_, ?_, ?_, ?_, hall, hkinds _, ?_, ?_⟩
  . rw [hrange]
    decide +kernel
  . rw [hrange]
    decide
  . apply hnil 1 0 (.inl (by decide))
  . rw [herror 1 2 (.inr (Nat.le_of_eq hsize))]
    change Except.error (Fault.rangeOutOfRange 1 2 part.prime.size) = _
    rw [hsize]
  . apply hsame 2 3 _ hall
  . apply htext hfresh 1 9 (by decide) (by decide)

end TokenStream

end Lookahead
