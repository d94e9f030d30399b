import Dockerfile.Editor.QuickFix
import Dockerfile.Proofs.Quoting.Declaration

/-!
# Labels that are read back

The fix for `MAINTAINER` quotes its value with a backslash in front of each double quote, whatever the
escape character is, and keeps what begins and ends with a double quote. What the label says then can
be told by counting: a quote that is left out, or a character that escapes, is missing in what is read
(`count_unquoteFrom`). So the value is read back if and only if it is `Text.Labelable`
(`Fix.quoteLabel_eq_enquote`, `Fix.labelable_of_unquote`).
-/

namespace Dockerfile

open Text

namespace Text

/-- What stands between the double quotes of a text that has no others, and no escape character. -/
def segment? (escape : Char) : Text → Option Text
  | '"' :: rest =>
      if rest.getLast? = some '"' ∧ '"' ∉ rest.dropLast ∧ escape ∉ rest.dropLast then some rest.dropLast
      else none
  | _ => none

def labelValue (escape : Char) (text : Text) : Text :=
  (segment? escape text).getD text

/-- The text is a part in double quotes, or can be put in double quotes with a backslash in front of
each double quote. -/
def Labelable (escape : Char) (region : Text) : Prop :=
  (segment? escape (trimBlanks region)).isSome ∨
    trim region = trimBlanks region ∧ escape ∉ trimBlanks region ∧
      ¬((trimBlanks region).head? = some '"' ∧ (trimBlanks region).getLast? = some '"' ∧
        1 < (trimBlanks region).length) ∧
      ('"' ∈ trimBlanks region → escape = '\\')

variable {escape : Char} {text s : Text}

theorem segment?_eq_some_iff : segment? escape text = some s ↔
    text = '"' :: (s ++ ['"']) ∧ '"' ∉ s ∧ escape ∉ s := by
  constructor
  · intro h
    unfold segment? at h
    split at h
    · rename_i rest
      rw [Option.ite_none_right_eq_some] at h
      obtain ⟨⟨hlast, hdouble, hescape⟩, hs⟩ := h
      obtain rfl := Option.some.inj hs
      exact ⟨by rw [List.dropLast_append_getLast? _ hlast], hdouble, hescape⟩
    · cases h
  · rintro ⟨rfl, hdouble, hescape⟩
    rw [segment?, List.getLast?_concat, List.dropLast_concat, if_pos ⟨rfl, hdouble, hescape⟩]

/-- Without quotes and escape characters a value is written as it is. -/
theorem guarded_of_plain (hdouble : '"' ∉ s) (hescape : escape ∉ s) : guarded escape s = s := by
  induction s with
  | nil => rfl
  | cons c s ih =>
      rw [List.mem_cons, not_or] at hdouble hescape
      rw [guarded, if_neg (not_or.mpr ⟨Ne.symm hdouble.1, Ne.symm hescape.1⟩), ih hdouble.2 hescape.2]

end Text

/-! ## What is left of a text in quotes -/

theorem unquoteFrom_sublist (escape : Char) (quote : Option Char) (text : Text) :
    (unquoteFrom escape quote text).Sublist text := by
  fun_induction unquoteFrom escape quote text <;> simp_all [List.Sublist.cons]

theorem unquoteFrom_blanks {escape : Char} (he : isBlank escape = false) {blanks : Text}
    (h : ∀ c ∈ blanks, isBlank c = true) : unquoteFrom escape none blanks = blanks := by
  induction blanks with
  | nil => rfl
  | cons c blanks ih =>
      have hc := h c List.mem_cons_self
      have hescape : c ≠ escape := by
        rintro rfl
        rw [he] at hc
        cases hc
      have hmark : ¬(c = '"' ∨ c = '\x27') := by
        rintro (rfl | rfl) <;> cases hc
      rw [unquoteFrom.eq_def]
      simp only [reduceCtorEq, if_false, if_neg hescape, true_and, if_neg hmark]
      rw [ih fun d hd => h d (List.mem_cons_of_mem _ hd)]

/-- If all single quotes are left, then no part in single quotes begins. Each double quote that is left
was escaped, and of two escape characters one is left out. -/
theorem count_unquoteFrom {escape : Char} (hescape : escape = '\\' ∨ escape = '\x60')
    {quote : Option Char} (hquote : quote = none ∨ quote = some '"') {text : Text}
    (hlast : ∀ c ∈ text.getLast?, c ≠ escape)
    (hmarks : (unquoteFrom escape quote text).count '\x27' = text.count '\x27') :
    (unquoteFrom escape quote text).count '"' + 2 * (unquoteFrom escape quote text).count escape ≤
      text.count escape := by
  have hother : escape ≠ '"' ∧ escape ≠ '\x27' := by rcases hescape with rfl | rfl <;> decide
  have htail {c : Char} {rest : Text} (h : ∀ e ∈ (c :: rest).getLast?, e ≠ escape) :
      ∀ e ∈ rest.getLast?, e ≠ escape := by
    intro e he
    refine h e ?_
    rw [List.getLast?_cons, Option.mem_def.mp he]
    rfl
  fun_induction unquoteFrom escape quote text with
  | case1 quote => simp
  | case2 rest ih => simp at hquote
  | case3 c rest hc ih => simp at hquote
  | case4 c rest hc ih =>
      obtain rfl : c = '"' := by simpa using hquote
      rw [List.count_cons_of_ne (by decide)] at hmarks
      rw [List.count_cons_of_ne (Ne.symm hother.1)]
      exact ih (.inl rfl) (htail hlast) hmarks
  | case5 quote h hc => exact absurd rfl (hlast escape rfl)
  | case6 quote h d rest hc ih =>
      rw [List.count_cons_of_ne hother.2, List.count_cons, List.count_cons, Nat.add_right_cancel_iff]
        at hmarks
      have ih := ih hquote (htail (htail hlast)) hmarks
      simp only [List.count_cons, BEq.rfl, if_true]
      have hd : ¬((d == '"') = true ∧ (d == escape) = true) := by
        rintro ⟨hd, hd'⟩
        rw [beq_iff_eq] at hd hd'
        exact hother.1 (hd'.symm.trans hd)
      split <;> split <;> first | omega | exact absurd ⟨‹_›, ‹_›⟩ hd
  | case7 quote c rest h hc hne hmark ih =>
      obtain ⟨rfl, rfl | rfl⟩ := hmark
      · rw [List.count_cons_of_ne (by decide)] at hmarks
        rw [List.count_cons_of_ne (Ne.symm hother.1)]
        exact ih (.inr rfl) (htail hlast) hmarks
      · have hle := (unquoteFrom_sublist escape (some '\x27') rest).count_le '\x27'
        rw [List.count_cons_self] at hmarks
        omega
  | case8 quote c rest h hc hne hmark ih =>
      have hdouble : c ≠ '"' := by
        rintro rfl
        rcases hquote with rfl | rfl
        · exact hmark ⟨rfl, .inl rfl⟩
        · exact hc rfl
      rw [List.count_cons, List.count_cons, Nat.add_right_cancel_iff] at hmarks
      rw [List.count_cons_of_ne hdouble, List.count_cons_of_ne hne, List.count_cons_of_ne hne]
      exact ih hquote (htail hlast) hmarks

/-! ## What the fix quotes -/

namespace Text

theorem count_dropWhile {f : Char → Bool} {c : Char} (hc : f c = false) (text : Text) :
    (text.dropWhile f).count c = text.count c := by
  have htake : (text.takeWhile f).count c = 0 := by
    refine List.count_eq_zero.mpr fun hmem => ?_
    rw [List.all_eq_true.mp List.all_takeWhile c hmem] at hc
    cases hc
  have hsplit := congrArg (List.count c) (@List.takeWhile_append_dropWhile _ f text)
  rw [List.count_append, htake, Nat.zero_add] at hsplit
  exact hsplit

theorem count_trim {c : Char} (hc : isWhiteSpace c = false) (text : Text) :
    (trim text).count c = text.count c := by
  rw [trim, trimEnd, List.count_reverse, count_dropWhile hc, List.count_reverse, trimStart,
    count_dropWhile hc]

theorem count_trimBlanks {c : Char} (hc : isBlank c = false) (text : Text) :
    (trimBlanks text).count c = text.count c := by
  rw [trimBlanks, trimBlanksEnd, List.count_reverse, count_dropWhile hc, List.count_reverse,
    trimBlanksStart, count_dropWhile hc]

/-- A text is what is left of it without the blanks around, between those. -/
theorem exists_blanks (text : Text) : ∃ a b, text = a ++ (trimBlanks text ++ b) ∧
    (∀ c ∈ a, isBlank c = true) ∧ ∀ c ∈ b, isBlank c = true := by
  refine ⟨text.takeWhile isBlank, ((trimBlanksStart text).reverse.takeWhile isBlank).reverse, ?_,
    List.all_eq_true.mp List.all_takeWhile, fun c hc => ?_⟩
  · rw [trimBlanks, trimBlanksEnd_append_blanks]
    exact List.takeWhile_append_dropWhile.symm
  · exact List.all_eq_true.mp List.all_takeWhile c (List.mem_reverse.mp hc)

theorem eq_nil_of_getLast?_append {front blanks : Text} (hblanks : ∀ c ∈ blanks, isBlank c = true)
    (hlast : ∀ c ∈ (front ++ blanks).getLast?, isBlank c = false) : blanks = [] := by
  refine List.getLast?_eq_none_iff.mp (Option.eq_none_iff_forall_not_mem.mpr fun c hc => ?_)
  have hblank := hlast c (by rw [List.getLast?_append, Option.mem_def.mp hc]; rfl)
  rw [hblanks c (List.mem_of_getLast? hc)] at hblank
  cases hblank

/-- White space around a text that begins and ends with other characters is trimmed. -/
theorem trim_eq_of_ends {a r b : Text} (ha : ∀ c ∈ a, isWhiteSpace c = true)
    (hb : ∀ c ∈ b, isWhiteSpace c = true) (hfirst : ∀ c ∈ r.head?, isWhiteSpace c = false)
    (hlast : ∃ c ∈ r.getLast?, isWhiteSpace c = false) : trim (a ++ (r ++ b)) = r := by
  obtain ⟨last, hlast, hcontent⟩ := hlast
  have hne : r ≠ [] := by
    rintro rfl
    cases hlast
  have hstart : trimStart (a ++ (r ++ b)) = r ++ b :=
    (spanWhile ha (by rwa [List.head?_append_of_ne_nil _ hne])).2
  have hend : (r ++ b).reverse.dropWhile isWhiteSpace = r.reverse := by
    rw [List.reverse_append]
    refine (spanWhile (fun c hc => hb c (List.mem_reverse.mp hc)) ?_).2
    rw [List.head?_reverse, Option.mem_def.mp hlast]
    rintro c ⟨⟩
    exact hcontent
  rw [trim, hstart, trimEnd, hend, List.reverse_reverse]

end Text

namespace Fix

variable {escape : Char}

/-- A text begins and ends with a double quote, and these are two. -/
def IsQuoted (text : Text) : Prop :=
  text.head? = some '"' ∧ text.getLast? = some '"' ∧ 1 < text.length

def backslashed (value : Text) : Text :=
  value.flatMap fun c => if c = '"' then ['\\', '"'] else [c]

theorem quoteLabel_of_quoted {value : Text} (h : IsQuoted value) : quoteLabel value = value :=
  if_pos h

theorem quoteLabel_of_not_quoted {value : Text} (h : ¬IsQuoted value) :
    quoteLabel value = '"' :: (backslashed value ++ ['"']) :=
  if_neg h

theorem count_backslashed (c : Char) (value : Text) :
    (backslashed value).count c = value.count c + if c = '\\' then value.count '"' else 0 := by
  induction value with
  | nil => simp [backslashed]
  | cons d value ih =>
      rw [backslashed, List.flatMap_cons, ← backslashed, List.count_append, ih]
      by_cases hd : d = '"'
      · subst hd
        by_cases hc : c = '\\'
        · subst hc
          simp only [if_true, List.count_cons, List.count_nil]
          simp
          omega
        · simp only [if_true, if_neg hc, List.count_cons, List.count_nil]
          simp [Ne.symm hc]
          omega
      · rw [if_neg hd, List.count_cons, List.count_cons_of_ne hd, List.count_cons, List.count_nil]
        omega

theorem backslashed_eq_guarded {value : Text} (hescape : escape ∉ value)
    (hdouble : '"' ∈ value → escape = '\\') : backslashed value = guarded escape value := by
  induction value with
  | nil => rfl
  | cons c value ih =>
      rw [List.mem_cons, not_or] at hescape
      have ih := ih hescape.2 fun h => hdouble (List.mem_cons_of_mem _ h)
      rw [backslashed, List.flatMap_cons, ← backslashed, ih, guarded]
      by_cases hc : c = '"'
      · subst hc
        rw [if_pos rfl, if_pos (.inl rfl), hdouble List.mem_cons_self]
        rfl
      · rw [if_neg hc, if_neg (not_or.mpr ⟨hc, Ne.symm hescape.1⟩)]
        rfl

theorem getLast?_quoteLabel (value : Text) : (quoteLabel value).getLast? = some '"' := by
  unfold quoteLabel
  split
  · rename_i h
    exact h.2.1
  · exact List.getLast?_concat

theorem getLast?_label (value : Text) :
    ("LABEL maintainer=".toList ++ quoteLabel value).getLast? = some '"' := by
  rw [List.getLast?_append, getLast?_quoteLabel]
  rfl

theorem mem_quoteLabel {value : Text} {c : Char} (h : c ∈ quoteLabel value) :
    c ∈ value ∨ c = '"' ∨ c = '\\' := by
  unfold quoteLabel at h
  split at h
  · exact .inl h
  · simp only [List.cons_append, List.mem_cons, List.mem_append, List.mem_flatMap, List.not_mem_nil,
      or_false] at h
    rcases h with h | ⟨d, hd, h⟩ | h
    · exact .inr (.inl h)
    · split at h
      · simp only [List.mem_cons, List.not_mem_nil, or_false] at h
        exact h.elim (fun h => .inr (.inr h)) fun h => .inr (.inl h)
      · rw [List.mem_singleton.mp h]
        exact .inl hd
    · exact .inr (.inl h)

theorem isQuoted_of_segment? {text s : Text} (h : segment? escape text = some s) : IsQuoted text := by
  obtain ⟨rfl, -, -⟩ := segment?_eq_some_iff.mp h
  exact ⟨rfl, List.getLast?_concat (l := '"' :: s), by simp⟩

theorem quoteLabel_eq_enquote {region : Text} (h : Labelable escape region) :
    quoteLabel (trim region) = enquote escape (labelValue escape (trimBlanks region)) := by
  rcases h with hsegment | ⟨htrim, hescape, hquoted, hdouble⟩
  · obtain ⟨s, hs⟩ := Option.isSome_iff_exists.mp hsegment
    obtain ⟨hr, hdouble, hescape⟩ := segment?_eq_some_iff.mp hs
    obtain ⟨a, b, hregion, ha, hb⟩ := exists_blanks region
    have htrim : trim (a ++ (trimBlanks region ++ b)) = trimBlanks region := by
      refine trim_eq_of_ends (fun c hc => isWhiteSpace_of_isBlank (ha c hc))
        (fun c hc => isWhiteSpace_of_isBlank (hb c hc)) ?_ ⟨'"', ?_, by decide⟩
      · rw [hr]
        rintro c ⟨⟩
        decide
      · rw [hr]
        exact List.getLast?_concat (l := '"' :: s)
    rw [← hregion] at htrim
    rw [htrim, quoteLabel_of_quoted (isQuoted_of_segment? hs), labelValue, hs, Option.getD_some, enquote,
      guarded_of_plain hdouble hescape, hr]
  · have hnone : segment? escape (trimBlanks region) = none :=
      Option.eq_none_iff_forall_ne_some.mpr fun s hs => hquoted (isQuoted_of_segment? hs)
    rw [htrim, quoteLabel_of_not_quoted hquoted, backslashed_eq_guarded hescape hdouble, labelValue,
      hnone]
    rfl

theorem count_quoteLabel_of_ne {c : Char} (hdouble : c ≠ '"') (hbackslash : c ≠ '\\') (value : Text) :
    (quoteLabel value).count c = value.count c := by
  by_cases h : IsQuoted value
  · rw [quoteLabel_of_quoted h]
  · rw [quoteLabel_of_not_quoted h, List.count_cons_of_ne (Ne.symm hdouble), List.count_append,
      count_backslashed, if_neg hbackslash, List.count_cons_of_ne (Ne.symm hdouble)]
    rfl

/-- If all quotes and escape characters of the value are read back, then it has no quotes around it,
does not escape, and has no double quotes that the backslash does not escape. -/
theorem plain_of_count {value blanks read : Text} (hescape : escape = '\\' ∨ escape = '\x60')
    (hblanks : ∀ c ∈ blanks, isBlank c = true)
    (h : unquote escape (quoteLabel value ++ blanks) = read)
    (hcount : ∀ c, c = '\x27' ∨ c = '"' ∨ c = escape → read.count c = value.count c) :
    ¬IsQuoted value ∧ escape ∉ value ∧ ('"' ∈ value → escape = '\\') := by
  have hother : escape ≠ '"' ∧ isBlank escape = false := by rcases hescape with rfl | rfl <;> decide
  have hnone {c : Char} (hc : isBlank c = false) : blanks.count c = 0 := by
    refine List.count_eq_zero.mpr fun hmem => ?_
    rw [hblanks c hmem] at hc
    cases hc
  have hlast : ∀ c ∈ (quoteLabel value ++ blanks).getLast?, c ≠ escape := by
    rw [List.getLast?_append, getLast?_quoteLabel]
    rintro c hc rfl
    rcases Option.or_eq_some_iff.mp hc with hc | ⟨-, hc⟩
    · have hblank := hblanks c (List.mem_of_getLast? hc)
      rw [hother.2] at hblank
      cases hblank
    · exact hother.1 (Option.some.inj hc).symm
  have hbound := @count_unquoteFrom _ hescape none (.inl rfl) _ hlast
  rw [show unquoteFrom escape none (quoteLabel value ++ blanks) = read from h, List.count_append,
    List.count_append, hnone rfl, hnone hother.2, count_quoteLabel_of_ne (by decide) (by decide),
    hcount _ (.inl rfl), hcount _ (.inr (.inl rfl)), hcount _ (.inr (.inr rfl))] at hbound
  have hbound := hbound rfl
  by_cases hquoted : IsQuoted value
  · -- The quotes around it would be left out.
    rw [quoteLabel_of_quoted hquoted] at hbound
    have := List.count_pos_iff.mpr (List.mem_of_head? hquoted.1)
    omega
  · rw [quoteLabel_of_not_quoted hquoted, List.count_cons_of_ne (Ne.symm hother.1), List.count_append,
      count_backslashed, List.count_cons_of_ne (Ne.symm hother.1), List.count_nil] at hbound
    refine ⟨hquoted, fun hmem => ?_, fun hmem => ?_⟩
    · have := List.count_pos_iff.mpr hmem
      split at hbound <;> omega
    · have := List.count_pos_iff.mpr hmem
      split at hbound
      · assumption
      · omega

/-- If the value of the label is what it stands for, then it could be put in double quotes. -/
theorem labelable_of_unquote {region blanks : Text} (hescape : escape = '\\' ∨ escape = '\x60')
    (hblanks : ∀ c ∈ blanks, isBlank c = true)
    (h : unquote escape (quoteLabel (trim region) ++ blanks) =
      labelValue escape (trimBlanks region)) : Labelable escape region := by
  by_cases hsegment : (segment? escape (trimBlanks region)).isSome
  · exact .inl hsegment
  rw [labelValue, Option.not_isSome_iff_eq_none.mp hsegment, Option.getD_none] at h
  have hother : escape ≠ '"' ∧ isBlank escape = false := by rcases hescape with rfl | rfl <;> decide
  obtain ⟨hquoted, hescaped, hdoubled⟩ := plain_of_count hescape hblanks h fun c hc => by
    have hcontent : isWhiteSpace c = false ∧ isBlank c = false := by
      rcases hescape with rfl | rfl <;> rcases hc with rfl | rfl | rfl <;> decide
    rw [count_trim hcontent.1, count_trimBlanks hcontent.2]
  rw [quoteLabel_of_not_quoted hquoted, backslashed_eq_guarded hescaped hdoubled, ← enquote,
    unquote_enquote_append hother.1, unquote, unquoteFrom_blanks hother.2 hblanks] at h
  have htrim : trim region = trimBlanks region := by
    rw [← h, eq_nil_of_getLast?_append hblanks, List.append_nil]
    rw [h]
    exact isBlank_getLast?_trimBlanksEnd _
  rw [htrim] at hescaped hdoubled hquoted
  exact .inr ⟨htrim, hescaped, hquoted, hdoubled⟩

end Fix

end Dockerfile
