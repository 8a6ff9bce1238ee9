import Lookahead.Proofs.CharStream.Run
import Lookahead.Proofs.TokenStream.Looking
import Lookahead.TokenSource.Replay

/-!
This module contains what a cursor owes to those who look around from it, and which streams live up
to that. A look finds the symbol at the place that its distance names, or the end of the input if the
place lies outside. Character streams always do so. Token streams do ahead of the cursor; behind it
they only know their tape, and answer with no symbol at all where that has nothing.
-/

namespace Lookahead

namespace SymbolCursor

/--
The place at distance `i` from position `p`. The distance 0 names none.
-/
def place (p : Nat) (i : Int) : Int := if 0 < i then p + i - 1 else p + i

/--
The symbol that the input has at a place, or the end of the input if the place lies outside.
-/
def symbolAt (input : Nat → Option Int32) (q : Int) : Int32 :=
  if 0 ≤ q then (input q.toNat).getD Symbol.eof else Symbol.eof

/--
Looking at distance `i` finds the symbol that the input has there. The distance counts from where the
cursor is after the look, as it may have to be primed.
-/
def Finds {α : Type} [SymbolCursor α] (s : α) (input : Nat → Option Int32) (i : Int) : Prop :=
  (look s i).1 = symbolAt input (place (index (look s i).2) i)

instance {α : Type} [SymbolCursor α] (s : α) (input : Nat → Option Int32) (i : Int) :
    Decidable (Finds s input i) := inferInstanceAs (Decidable (_ = _))

theorem place_of_pos {p : Nat} {i : Int} (h : 0 < i) : place p i = p + i - 1 := by
  unfold place
  rw [if_pos h]

theorem place_neg_of_pos {p : Nat} {i : Int} (h : 0 < i) : place p (-i) = p - i := by
  unfold place
  rw [if_neg (by omega)]
  rfl

theorem place_add (p q : Nat) (i : Int) : place (p + q) i = place p i + q := by
  unfold place
  split <;> omega

theorem symbolAt_of_neg (input : Nat → Option Int32) {q : Int} (h : q < 0) :
    symbolAt input q = Symbol.eof := by
  unfold symbolAt
  rw [if_neg (by omega)]

theorem symbolAt_of_nonneg (input : Nat → Option Int32) {q : Int} (h : 0 ≤ q) :
    symbolAt input q = (input q.toNat).getD Symbol.eof := by
  unfold symbolAt
  rw [if_pos h]

end SymbolCursor

open SymbolCursor (Finds place symbolAt symbolAt_of_neg symbolAt_of_nonneg)

namespace CharStream

theorem offset?_cursor (s : CharStream) (i : Int) :
    Position.offset? s.cursor (if 0 < i then i - 1 else i) =
      if 0 ≤ place s.cursor i ∧ place s.cursor i ≤ Position.limit then
        some (place s.cursor i).toNat
      else
        none := by
  have hplace : place s.cursor i = s.cursor + if 0 < i then i - 1 else i := by
    unfold place
    split <;> omega
  rw [hplace]
  rfl

variable {b : CodeBuffer} {s : CharStream}

theorem Reachable.symbolAt?_eq_none (hs : s.Reachable b) {q : Nat} (h : s.size ≤ q) :
    b.symbolAt? q = none := by
  unfold CodeBuffer.symbolAt?
  rw [List.getElem?_eq_none]
  . rfl
  . rw [Cells.length_toList]
    rw [← hs.cells_eq]
    exact h

theorem Reachable.look_eq (hs : s.Reachable b) (hb : b.Built) (hsize : s.size ≤ Position.limit)
    {i : Int} (hi : i ≠ 0) : s.look i = symbolAt b.symbolAt? (place s.cursor i) := by
  unfold look
  rw [if_neg hi]
  dsimp only
  rw [offset?_cursor]
  rw [hs.symbolAt?_eq hb]
  by_cases hneg : place s.cursor i < 0
  . rw [if_neg (by omega)]
    rw [symbolAt_of_neg _ hneg]
    rfl
  . rw [symbolAt_of_nonneg _ (by omega)]
    split
    . rfl
    . -- Past the largest position there is no code point either.
      rw [hs.symbolAt?_eq_none (by omega)]
      rfl

theorem Reachable.finds (hs : s.Reachable b) (hb : b.Built) (hsize : s.size ≤ Position.limit)
    {i : Int} (hi : i ≠ 0) : Finds s b.symbolAt? i := hs.look_eq hb hsize hi

end CharStream

namespace TokenSource

/--
The kinds of the tokens of a source that ends at `n`, the end of the input the last of them.
-/
def kinds {σ τ : Type} [Token τ] [TokenSource σ τ] (source : σ) (n q : Nat) : Option Int32 :=
  if q ≤ n then some (Token.kind (nth source q)) else none

end TokenSource

namespace TokenStream

open TokenSource (EndsAt KindTells kinds nth)

variable {σ τ μ : Type} [Token τ] [TokenSource σ τ]

theorem symbolAt_kinds {source : σ} {n : Nat} (hn : EndsAt source n) (hk : KindTells source)
    {q : Int} (hq : 0 ≤ q) :
    symbolAt (kinds source n) q = Token.kind (nth source (min q n).toNat) := by
  rw [symbolAt_of_nonneg _ hq]
  unfold kinds
  split
  . rw [Int.min_eq_left (by omega)]
    rfl
  . rw [Int.min_eq_right (by omega)]
    exact ((hk n).mp hn.isEof_nth).symm

/--
The place at distance `i` is ahead of the cursor, or the tape has a token there.
-/
def InSight {rule : LandingRule σ τ μ} (s : TokenStream rule) (i : Int) : Prop :=
  0 < i ∨ i < 0 ∧ 0 ≤ place s.prime.index i ∧ place s.prime.index i < s.prime.size

instance {rule : LandingRule σ τ μ} (s : TokenStream rule) (i : Int) : Decidable (s.InSight i) :=
  inferInstanceAs (Decidable (_ ∨ _ ∧ _ ∧ _))

section Reachable

variable {rule : LandingRule σ τ μ} {source : σ} {n : Nat} {s : TokenStream rule} {i : Int}

theorem finds_iff_look {input : Nat → Option Int32} :
    Finds s input i ↔ (s.look i).1 = symbolAt input (place s.prime.index i) := by
  rw [← (s.grows_look i).index_eq]
  rfl

theorem InSight.place_nonneg (h : s.InSight i) : 0 ≤ place s.prime.index i := by
  rcases h with h | ⟨-, h, -⟩
  . unfold place
    rw [if_pos h]
    omega
  . exact h

theorem Reachable.peek_of_inSight (hs : Reachable rule source s) (hn : EndsAt source n)
    (h : s.InSight i) :
    (s.peek i).1 = some (nth source (min (place s.prime.index i) n).toNat) := by
  rcases h with h | ⟨hi, hstart, htape⟩
  . rw [hs.peek_of_pos hn h]
    unfold place
    rw [if_pos h]
  . have hsize : s.prime.size ≤ n + 1 := hs.records_prime.size_le hn
    have hplace : place s.prime.index i = s.prime.index + i := if_neg (by omega)
    rw [hplace] at hstart htape ⊢
    rw [hs.peek_fst hn]
    unfold tokenAt
    rw [if_neg (by omega)]
    rw [if_pos ⟨hi, hstart, htape⟩]
    rw [Int.min_eq_left (by omega)]

theorem Reachable.peek_of_not_inSight (hs : Reachable rule source s) (hn : EndsAt source n)
    (h : ¬s.InSight i) : (s.peek i).1 = none := by
  have hi : ¬0 < i := fun hi => h (.inl hi)
  have hplace : place s.prime.index i = s.prime.index + i := if_neg hi
  rw [hs.peek_fst hn]
  unfold tokenAt
  rw [if_neg hi]
  rw [if_neg]
  rw [← hplace]
  exact fun htape => h (.inr htape)

theorem Reachable.finds (hs : Reachable rule source s) (hn : EndsAt source n)
    (hk : KindTells source) (h : s.InSight i) : Finds s (kinds source n) i := by
  rw [finds_iff_look]
  rw [symbolAt_kinds hn hk h.place_nonneg]
  exact look_fst_of_peek (hs.peek_of_inSight hn h)

theorem Reachable.look_eq_invalid (hs : Reachable rule source s) (hn : EndsAt source n)
    (h : ¬s.InSight i) : (s.look i).1 = Symbol.invalid := by
  unfold look
  dsimp only
  rw [hs.peek_of_not_inSight hn h]

/--
A token out of sight is found only by accident, if it has the kind that stands for none.
-/
theorem Reachable.finds_iff (hs : Reachable rule source s) (hn : EndsAt source n)
    (hk : KindTells source) :
    Finds s (kinds source n) i ↔
      s.InSight i ∨ symbolAt (kinds source n) (place s.prime.index i) = Symbol.invalid := by
  by_cases h : s.InSight i
  . exact ⟨fun _ => .inl h, fun _ => hs.finds hn hk h⟩
  . rw [finds_iff_look]
    rw [hs.look_eq_invalid hn h]
    simp [h, eq_comm]

end Reachable

end TokenStream

namespace SymbolCursor

open CodeBuffer (Builder)
open TokenSource (EndsAt KindTells kinds)

variable {σ τ : Type} [Token τ] [TokenSource σ τ]

/--
Looking around from a character stream finds each code point of the buffer under its own number, and
the end of the input outside on either side. Looking around from a token stream finds the kinds of
the tokens of the source likewise, and the end of the input past them, ahead of the cursor and
behind it where the tape has a token. Anywhere else behind the cursor, which is before the start or
on tokens not pulled yet, it answers with no symbol, and so finds what is there only if that is a
token of no kind.
-/
theorem finds_or_invalid {b : CodeBuffer} (hb : b.Built) {source : σ} {n : Nat}
    (hn : EndsAt source n) (hk : KindTells source) :
    (∀ {s : CharStream}, s.Reachable b → s.size ≤ Position.limit →
      (∀ c ∈ b.unread.toList, c.toInt32.toInt = c.toNat) ∧
        ∀ i ≠ 0, Finds s b.symbolAt? i) ∧
      ∀ {μ : Type} {rule : LandingRule σ τ μ} {t : TokenStream rule},
        TokenStream.Reachable rule source t → ∀ i,
          (t.InSight i → Finds t (kinds source n) i) ∧
            (¬t.InSight i → (look t i).1 = Symbol.invalid) ∧
            (Finds t (kinds source n) i ↔
              t.InSight i ∨
                symbolAt (kinds source n) (place t.prime.index i) = Symbol.invalid) := by
  constructor
  . intro s hs hsize
    constructor
    . intro c hc
      exact CharStream.toInt_toInt32 (hb.toNat_lt_of_mem_unread hc)
    . intro i hi
      exact hs.finds hb hsize hi
  . intro μ rule t ht i
    exact ⟨ht.finds hn hk, ht.look_eq_invalid hn, ht.finds_iff hn hk⟩

theorem finds_or_invalid_among_hidden :
    let b := (Builder.pushAll {} [0x20AC, 0x61, 0xD83D, 0xDE00, 0xDC00]).build.setPosition 1
    let s := ((CharStream.ofBuffer b "").answer (.seek 2)).2
    let source : Replay := ⟨#[⟨1, "x", 0, 0, 0, 0⟩, ⟨2, " ", 1, 0, 1, 1⟩, ⟨3, "y", 0, 0, 2, 2⟩], 0, ""⟩
    let rule : LandingRule Replay PlainToken Unit := .onChannel 0
    let t : TokenStream rule := ((TokenStream.ofSource rule () source {}).answers [.seek 1]).2
    (b.Built ∧ s.Reachable b ∧ s.size = 3 ∧ (0xDC00 : UInt32).toInt32.toInt = 0xDC00 ∧
      Finds s b.symbolAt? (-1) ∧ Finds s b.symbolAt? (-3) ∧ Finds s b.symbolAt? 2) ∧
      EndsAt source 3 ∧ KindTells source ∧ TokenStream.Reachable rule source t ∧
      t.prime.index = 2 ∧ t.InSight (-1) ∧ ¬t.InSight (-3) ∧ Finds t (kinds source 3) (-1) ∧
      Finds t (kinds source 3) 9 ∧ (look t (-3)).1 = Symbol.invalid := by
  intro b s source rule t
  have hb : b.Built := by
    apply CodeBuffer.Built.setPosition 1
    exact @CodeBuffer.Built.build [.flat [0x20AC, 0x61, 0xD83D, 0xDE00, 0xDC00]] _ rfl
  have hs : s.Reachable b := .answer (.seek 2) (.ofBuffer "")
  have hsize : s.size = 3 := by decide +kernel
  have hn : EndsAt source 3 := by
    constructor <;> decide
  have hk := TokenSource.kindTells_of_plain source
  have ht : TokenStream.Reachable rule source t :=
    (TokenStream.Reachable.ofSource () {}).answers [.seek 1]
  have hbehind : t.InSight (-1) := by decide +kernel
  have houtside : ¬t.InSight (-3) := by decide +kernel
  obtain ⟨hchars, htokens⟩ := finds_or_invalid hb hn hk
  obtain ⟨hpoint, hfinds⟩ := hchars hs (by rw [hsize]; decide)
  refine ⟨⟨hb, hs, hsize, ?_, ?_, ?_, ?_⟩, hn, hk, ht, ?_, hbehind, houtside, ?_, ?_, ?_⟩
  . exact hpoint _ (by decide +kernel)
  . exact hfinds _ (by decide)
  . exact hfinds _ (by decide)
  . exact hfinds _ (by decide)
  . decide +kernel
  . exact (htokens ht _).1 hbehind
  . exact (htokens ht _).1 (.inl (by decide))
  . exact (htokens ht _).2.1 houtside

/--
A new token stream answers with no symbol before its start, where the input is over, and so does one
that has moved ahead of its tape, where the input goes on.
-/
theorem not_finds_behind :
    let source : Replay := ⟨#[⟨1, "a", 0, 0, 0, 0⟩, ⟨2, "b", 0, 0, 1, 1⟩, ⟨3, "c", 0, 0, 2, 2⟩], 0, ""⟩
    let fresh : TokenStream (μ := Unit) .exact := .ofSource .exact () source {}
    let ahead : TokenStream (μ := Unit) .exact := (fresh.answers [.seek 2]).2
    EndsAt source 3 ∧ KindTells source ∧
      (TokenStream.Reachable .exact source fresh ∧ (look fresh (-1)).1 = 0 ∧
        index (look fresh (-1)).2 = 0 ∧ symbolAt (kinds source 3) (-1) = Symbol.eof ∧
        ¬Finds fresh (kinds source 3) (-1)) ∧
      TokenStream.Reachable .exact source ahead ∧ (look ahead (-1)).1 = 0 ∧
        index (look ahead (-1)).2 = 2 ∧ symbolAt (kinds source 3) 1 = 2 ∧
        ¬Finds ahead (kinds source 3) (-1) := by
  intro source fresh ahead
  have hn : EndsAt source 3 := by
    constructor <;> decide
  have hk := TokenSource.kindTells_of_plain source
  have hfresh : TokenStream.Reachable .exact source fresh := .ofSource () {}
  have hahead : TokenStream.Reachable .exact source ahead := hfresh.answers [.seek 2]
  refine ⟨hn, hk, ⟨hfresh, ?_, ?_, ?_, ?_⟩, hahead, ?_, ?_, ?_, ?_⟩
  all_goals decide +kernel

end SymbolCursor

end Lookahead
