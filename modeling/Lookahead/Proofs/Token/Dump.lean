import Mathlib
import Lookahead.Token.Dump

/-!
This module contains what the written form of a token gives away. The text stands in it unquoted and may
look like any of the parts around it. The parts before the text are numbers, which end at the first mark
that follows them, and the parts after it are told from the end, so a written form can be taken apart in
one way only. Escapes are told from what they stand for as long as the text itself has no backslash.
-/

namespace Lookahead

section Lists

variable {α : Type} {a : α} {xs ys zs ws : List α}

/--
A list is taken apart in one way at the first place of an element.
-/
theorem append_cons_inj_of_not_mem (hx : a ∉ xs) (hy : a ∉ ys) :
    xs ++ a :: zs = ys ++ a :: ws ↔ xs = ys ∧ zs = ws := by
  induction xs generalizing ys with
  | nil =>
    cases ys with
    | nil => simp
    | cons y ys =>
      rw [List.mem_cons, not_or] at hy
      simp [hy.1]
  | cons x xs ih =>
    rw [List.mem_cons, not_or] at hx
    cases ys with
    | nil => simp [Ne.symm hx.1]
    | cons y ys =>
      rw [List.mem_cons, not_or] at hy
      simp [ih hx.2 hy.2, and_assoc]

/--
A list is taken apart in one way at the last place of an element.
-/
theorem append_cons_inj_of_not_mem_right (hz : a ∉ zs) (hw : a ∉ ws) :
    xs ++ a :: zs = ys ++ a :: ws ↔ xs = ys ∧ zs = ws := by
  rw [← List.reverse_inj]
  simp only [List.reverse_append, List.reverse_cons, List.append_assoc, List.singleton_append]
  rw [append_cons_inj_of_not_mem (by simpa using hz) (by simpa using hw)]
  rw [List.reverse_inj, List.reverse_inj]
  exact and_comm

end Lists

namespace PlainToken

section Numbers

theorem not_mem_repr_nat {c : Char} (hc : ¬c.isDigit) (n : Nat) : c ∉ n.repr.toList := by
  intro h
  rw [Nat.toList_repr] at h
  exact hc (Nat.isDigit_of_mem_toDigits (by decide) (by decide) h)

theorem not_mem_repr_int {c : Char} (hc : ¬c.isDigit) (hsign : c ≠ '-') (n : Int) :
    c ∉ n.repr.toList := by
  rw [Int.repr_eq_if]
  split
  . exact not_mem_repr_nat hc _
  . rw [String.toList_append, List.mem_append, not_or]
    exact ⟨by simpa using hsign, not_mem_repr_nat hc _⟩

end Numbers

section Text

/--
The characters of a text that are written as escapes.
-/
def breaks : List Char := ['\n', '\r', '\t']

theorem not_mem_escape {c : Char} (hc : c ∈ breaks) (d : Char) : c ∉ escape d := by
  unfold breaks at hc
  unfold escape
  split <;> grind

theorem not_mem_escapedText {c : Char} (hc : c ∈ breaks) (text : String) :
    c ∉ (escapedText text).toList := by
  rw [escapedText, String.toList_ofList, List.mem_flatMap]
  rintro ⟨d, -, hd⟩
  exact not_mem_escape hc d hd

theorem escape_ne_nil (c : Char) : escape c ≠ [] := by
  unfold escape
  split <;> simp

/--
Apart from a backslash, which begins every escape, a character is told by the start of what is written.
-/
theorem escape_append_inj {c d : Char} (hc : c ≠ '\\') (hd : d ≠ '\\') (r s : List Char) :
    escape c ++ r = escape d ++ s ↔ c = d ∧ r = s := by
  unfold escape
  split <;> split <;> grind

theorem flatMap_escape_inj {cs ds : List Char} (hcs : '\\' ∉ cs) (hds : '\\' ∉ ds) :
    cs.flatMap escape = ds.flatMap escape ↔ cs = ds := by
  induction cs generalizing ds with
  | nil =>
    cases ds with
    | nil => simp
    | cons d ds => simp [escape_ne_nil]
  | cons c cs ih =>
    rw [List.mem_cons, not_or] at hcs
    cases ds with
    | nil => simp [escape_ne_nil]
    | cons d ds =>
      rw [List.mem_cons, not_or] at hds
      rw [List.flatMap_cons, List.flatMap_cons]
      rw [escape_append_inj (Ne.symm hcs.1) (Ne.symm hds.1)]
      rw [ih hcs.2 hds.2]
      rw [List.cons.injEq]

theorem escapedText_inj {text text' : String} (h : '\\' ∉ text.toList) (h' : '\\' ∉ text'.toList) :
    escapedText text = escapedText text' ↔ text = text' := by
  unfold escapedText
  rw [String.ofList_inj]
  rw [flatMap_escape_inj h h']
  rw [String.toList_inj]

end Text

section Parts

theorem not_mem_channelPart {c : Char} (hc : ¬c.isDigit) (hlabel : c ∉ ",channel=".toList)
    (channel : UInt32) : c ∉ (channelPart channel).toList := by
  unfold channelPart
  split
  . simp
  . rw [String.toList_append, List.mem_append, not_or]
    exact ⟨hlabel, not_mem_repr_nat hc _⟩

theorem channelPart_inj {channel channel' : UInt32} :
    channelPart channel = channelPart channel' ↔ channel = channel' := by
  unfold channelPart
  split <;> split
  . next h h' => simp [h, h']
  . next h h' => simp [h, Ne.symm h']
  . next h h' => simp [h, h']
  . next h h' =>
    rw [String.append_right_inj]
    rw [Nat.toString_eq_repr, Nat.toString_eq_repr]
    rw [Nat.repr_inj]
    exact UInt32.toNat_inj

/--
What follows the last `<` of a written form: the kind of the token, and its channel if that is shown.
-/
def ending (kind : Int32) (channel : UInt32) : List Char :=
  kind.toInt.repr.toList ++ '>' :: ((channelPart channel).toList ++ [']'])

theorem not_mem_ending (kind : Int32) (channel : UInt32) : '<' ∉ ending kind channel := by
  have hkind := not_mem_repr_int (c := '<') (by decide) (by decide) kind.toInt
  have hchannel := not_mem_channelPart (c := '<') (by decide) (by decide) channel
  simp [ending, hkind, hchannel]

theorem ending_inj {kind kind' : Int32} {channel channel' : UInt32} :
    ending kind channel = ending kind' channel' ↔ kind = kind' ∧ channel = channel' := by
  have hkind := not_mem_repr_int (c := '>') (by decide) (by decide)
  unfold ending
  rw [append_cons_inj_of_not_mem (hkind _) (hkind _)]
  rw [List.append_cancel_right_eq]
  rw [String.toList_inj, String.toList_inj]
  rw [Int.repr_inj]
  rw [Int32.toInt_inj]
  rw [channelPart_inj]

end Parts

section Dump

variable {t u : PlainToken}

theorem toList_dump (t : PlainToken) :
    t.dump.toList =
      "[@".toList ++ (t.index.toInt.repr.toList ++ ',' :: (t.start.toInt.repr.toList ++ ':' ::
        (t.stop.toInt.repr.toList ++ '=' :: ("'".toList ++ ((escapedText t.text).toList ++
          "',".toList ++ '<' :: ending t.kind t.channel))))) := by
  unfold dump
  simp [ending]

/--
The written form gives away all of a token but the text, and of the text what is written for it.
-/
theorem dump_eq_iff :
    t.dump = u.dump ↔
      t.index = u.index ∧ t.start = u.start ∧ t.stop = u.stop ∧
        escapedText t.text = escapedText u.text ∧ t.kind = u.kind ∧ t.channel = u.channel := by
  have hcomma := not_mem_repr_int (c := ',') (by decide) (by decide)
  have hcolon := not_mem_repr_int (c := ':') (by decide) (by decide)
  have hequals := not_mem_repr_int (c := '=') (by decide) (by decide)
  rw [← String.toList_inj]
  rw [toList_dump, toList_dump]
  rw [List.append_cancel_left_eq]
  rw [append_cons_inj_of_not_mem (hcomma _) (hcomma _)]
  rw [append_cons_inj_of_not_mem (hcolon _) (hcolon _)]
  rw [append_cons_inj_of_not_mem (hequals _) (hequals _)]
  rw [List.append_cancel_left_eq]
  -- The text may hold any of the marks, so what is left is taken apart at the last one.
  rw [append_cons_inj_of_not_mem_right (not_mem_ending _ _) (not_mem_ending _ _)]
  rw [List.append_cancel_right_eq]
  rw [ending_inj]
  simp only [String.toList_inj, Int.repr_inj, Int32.toInt_inj]

/--
What is written around the text of a token is made of other characters.
-/
theorem foreign_of_mem_breaks {c : Char} (hc : c ∈ breaks) :
    ¬c.isDigit ∧ c ≠ '-' ∧ c ∉ ",channel=".toList ∧ c ∉ "[@,:='<>]".toList := by
  simp only [breaks, List.mem_cons, List.not_mem_nil, or_false] at hc
  rcases hc with rfl | rfl | rfl <;> decide

theorem not_mem_dump {c : Char} (hc : c ∈ breaks) (t : PlainToken) : c ∉ t.dump.toList := by
  obtain ⟨hdigit, hsign, hlabel, hmarks⟩ := foreign_of_mem_breaks hc
  have hnumber := not_mem_repr_int hdigit hsign
  have hchannel := not_mem_channelPart hdigit hlabel t.channel
  have htext := not_mem_escapedText hc t.text
  rw [toList_dump]
  unfold ending
  simp_all

end Dump

/--
No written form of a token has a line break or a tab in it. Two tokens whose texts have no backslash are
written the same way only if they agree in all that they are made of, whatever else is in their texts.
-/
theorem dump_identifies (t u : PlainToken) :
    ('\n' ∉ t.dump.toList ∧ '\r' ∉ t.dump.toList ∧ '\t' ∉ t.dump.toList) ∧
      ('\\' ∉ t.text.toList → '\\' ∉ u.text.toList → (t.dump = u.dump ↔ t = u)) := by
  refine ⟨⟨not_mem_dump (by decide) t, not_mem_dump (by decide) t, not_mem_dump (by decide) t⟩, ?_⟩
  intro ht hu
  rw [dump_eq_iff]
  rw [escapedText_inj ht hu]
  constructor
  . rintro ⟨hindex, hstart, hstop, htext, hkind, hchannel⟩
    cases t
    cases u
    rw [mk.injEq]
    exact ⟨hkind, htext, hchannel, hindex, hstart, hstop⟩
  . rintro rfl
    simp

/--
A text that goes on like the written form of another token, channel and all.
-/
theorem dump_identifies_lookalike :
    let t : PlainToken := ⟨5, "a',<7>,channel=2]", 0, 1, 0, 0⟩
    let u : PlainToken := ⟨7, "a", 2, 1, 0, 0⟩
    '\\' ∉ t.text.toList ∧ '\\' ∉ u.text.toList ∧ t.dump = u.dump ++ "',<5>]" ∧ t.dump ≠ u.dump := by
  intro t u
  have ht : '\\' ∉ t.text.toList := by decide
  have hu : '\\' ∉ u.text.toList := by decide
  have hne : t ≠ u := by decide
  refine ⟨ht, hu, by decide, ?_⟩
  rw [Ne, (dump_identifies t u).2 ht hu]
  exact hne

/--
A text with a backslash may be written like one with a line break.
-/
example : dump ⟨1, "a\\n", 0, 0, 0, 2⟩ = dump ⟨1, "a\n", 0, 0, 0, 2⟩ := by decide

end PlainToken

end Lookahead
