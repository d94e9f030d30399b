import Dockerfile.Editor.QuickFix
import Dockerfile.Proofs.StringArray.Grammar

/-!
# Arrays with other quotes

The fix for single quotes puts a double quote in the place of each, and a backslash in front of each
double quote that it takes to stand in a string. It counts quotes where the reader of arrays also heeds
the escape character; so the strings are the same only if the array is `requotable`
(`StringArray.strings_requoted_iff`).
-/

namespace Dockerfile

namespace Fix

/-- Whether the fix takes a character to stand in a string: there is an odd number of single quotes
between the start of the array and the character. -/
def takenInside (text : Text) (start : Nat) (p : Placed) : Bool :=
  (Text.slice text ⟨start, p.offset⟩).count '\x27' % 2 == 1

/-- What is put in the place of a character that is taken to stand in a string, or not. -/
def requoted (inside : Bool) (c : Char) : Text :=
  if c = '\x27' then ['"'] else if c = '"' ∧ inside then ['\\', '"'] else [c]

theorem requoted_of_ne {c : Char} (hsingle : c ≠ '\x27') (hdouble : c ≠ '"') (inside : Bool) :
    requoted inside c = [c] := by
  simp [requoted, hsingle, hdouble]

theorem doubleQuotes_cons (inside : Bool) (c : Char) (rest : Text) :
    doubleQuotes inside (c :: rest) =
      requoted inside c ++ doubleQuotes (inside ^^ c == '\x27') rest := by
  by_cases hsingle : c = '\x27'
  · simp [doubleQuotes, requoted, hsingle]
  · have hsame : (inside ^^ c == '\x27') = inside := by
      rw [beq_false_of_ne hsingle, Bool.xor_false]
    rw [hsame, doubleQuotes, requoted, if_neg hsingle, if_neg hsingle]
    split <;> rfl

end Fix

namespace StringArray

/-- The characters of an array with double quotes for single ones. -/
def requote (inside : Placed → Bool) (chars : List Placed) : Text :=
  chars.flatMap fun p => Fix.requoted (inside p) p.char

/-- Whether an array keeps its strings in double quotes. `inside` says which characters the fix takes to
stand in a string, and `opened` whether the characters begin in one. No single quote may be escaped; a
double quote has to be taken to stand in a string exactly if it is not escaped, and then a backslash
has to escape it. -/
def requotable (escape : Char) (inside : Placed → Bool) (opened : Bool) : List Placed → Bool
  | [] => true
  | p :: rest =>
      if p.char = '\x27' then requotable escape inside (!opened) rest
      else if opened && p.char == escape then
        match rest with
        | [] => true
        | q :: rest =>
            q.char != '\x27' && !(q.char == '"' && inside q) && requotable escape inside true rest
      else
        !(opened && p.char == '"' && !(inside p && escape == '\\')) &&
          requotable escape inside opened rest

variable {escape : Char} {inside : Placed → Bool}

section Steps

variable {p : Placed}

theorem requotable_quote (hp : p.char = '\x27') (opened : Bool) (rest : List Placed) :
    requotable escape inside opened (p :: rest) = requotable escape inside (!opened) rest := by
  cases rest <;> simp [requotable, hp]

theorem requotable_outside (hp : p.char ≠ '\x27') (rest : List Placed) :
    requotable escape inside false (p :: rest) = requotable escape inside false rest := by
  cases rest <;> simp [requotable, hp]

theorem requotable_plain (hp : p.char ≠ '\x27') (hescape : p.char ≠ escape) (rest : List Placed) :
    requotable escape inside true (p :: rest) =
      (!(p.char == '"' && !(inside p && escape == '\\')) && requotable escape inside true rest) := by
  cases rest <;> simp [requotable, hp, hescape]

theorem requotable_escaped (hp : p.char ≠ '\x27') (hescape : p.char = escape) (q : Placed)
    (rest : List Placed) : requotable escape inside true (p :: q :: rest) =
      (q.char != '\x27' && !(q.char == '"' && inside q) && requotable escape inside true rest) := by
  simp [requotable, ← hescape, hp]

end Steps

section Requote

@[simp] theorem requote_nil : requote inside [] = [] := rfl

@[simp] theorem requote_cons (p : Placed) (chars : List Placed) :
    requote inside (p :: chars) = Fix.requoted (inside p) p.char ++ requote inside chars := rfl

@[simp] theorem requote_append (a b : List Placed) :
    requote inside (a ++ b) = requote inside a ++ requote inside b :=
  List.flatMap_append

def Unquoted (chars : List Placed) : Prop :=
  ∀ p ∈ chars, p.char ≠ '\x27' ∧ p.char ≠ '"'

theorem Unquoted.nil : Unquoted [] := by
  intro p hp
  cases hp

theorem IsSpace.unquoted {chars : List Placed} (h : IsSpace chars) : Unquoted chars := by
  intro p hp
  have hspace := h p hp
  constructor <;>
  · intro heq
    rw [heq] at hspace
    revert hspace
    decide

theorem IsSpace.of_text {chars chars' : List Placed} (h : IsSpace chars)
    (htext : Placed.text chars' = Placed.text chars) : IsSpace chars' := by
  intro p hp
  have hmem : p.char ∈ Placed.text chars := htext ▸ List.mem_map_of_mem hp
  obtain ⟨q, hq, heq⟩ := List.mem_map.mp hmem
  exact heq ▸ h q hq

theorem Unquoted.requote {chars : List Placed} (h : Unquoted chars) :
    requote inside chars = Placed.text chars := by
  induction chars with
  | nil => rfl
  | cons p chars ih =>
      obtain ⟨hsingle, hdouble⟩ := h p List.mem_cons_self
      rw [requote_cons, Fix.requoted_of_ne hsingle hdouble,
        ih fun q hq => h q (List.mem_cons_of_mem _ hq)]
      rfl

theorem Unquoted.requotable_append {chars : List Placed} (h : Unquoted chars) (rest : List Placed) :
    requotable escape inside false (chars ++ rest) = requotable escape inside false rest := by
  induction chars with
  | nil => rfl
  | cons p chars ih =>
      rw [List.cons_append, requotable_outside (h p List.mem_cons_self).1,
        ih fun q hq => h q (List.mem_cons_of_mem _ hq)]

end Requote

/-! ## Strings -/

/-- A string goes on with a double quote, or with an escaped quote of either kind. -/
inductive Quotes (escape : Char) : List Placed → Prop
  | alone {p : Placed} {rest : List Placed} (is_double : p.char = '"')
      (next : Inside '\x27' escape rest) : Quotes escape (p :: rest)
  | escaped {p q : Placed} {rest : List Placed} (is_escape : p.char = escape)
      (is_quote : q.char = '\x27' ∨ q.char = '"') (next : Inside '\x27' escape rest) :
      Quotes escape (p :: q :: rest)

/-- Without quotes, it does not matter which quote delimits a string. -/
theorem Inside.unquoted {chars chars' : List Placed} (h : Inside '\x27' escape chars)
    (hunquoted : Unquoted chars) (htext : Placed.text chars' = Placed.text chars) :
    Inside '"' escape chars' := by
  induction h generalizing chars' with
  | nil =>
      obtain rfl : chars' = [] := List.map_eq_nil_iff.mp htext
      exact .nil
  | @plain p rest _ not_escape _ ih =>
      obtain ⟨hp, hrest⟩ := List.forall_mem_cons.mp hunquoted
      obtain ⟨p', rest', rfl, hchar, hrest'⟩ := List.map_eq_cons_iff.mp htext
      exact .plain (hchar ▸ hp.2) (hchar ▸ not_escape) (ih hrest hrest')
  | @escaped p q rest is_escape _ ih =>
      obtain ⟨-, hrest⟩ := List.forall_mem_cons.mp hunquoted
      obtain ⟨-, hrest⟩ := List.forall_mem_cons.mp hrest
      obtain ⟨p', tail, rfl, hchar, htail⟩ := List.map_eq_cons_iff.mp htext
      obtain ⟨q', rest', rfl, -, hrest'⟩ := List.map_eq_cons_iff.mp htail
      exact .escaped (hchar.trans is_escape) (ih hrest hrest')

theorem Inside.requotable_append {chars : List Placed} (h : Inside '\x27' escape chars)
    (hunquoted : Unquoted chars) (rest : List Placed) :
    requotable escape inside true (chars ++ rest) = requotable escape inside true rest := by
  induction h with
  | nil => rfl
  | @plain p chars not_quote not_escape _ ih =>
      obtain ⟨hp, hchars⟩ := List.forall_mem_cons.mp hunquoted
      rw [List.cons_append, requotable_plain not_quote not_escape, ih hchars]
      simp [hp.2]
  | @escaped p q chars is_escape _ ih =>
      obtain ⟨hp, hchars⟩ := List.forall_mem_cons.mp hunquoted
      obtain ⟨hq, hchars⟩ := List.forall_mem_cons.mp hchars
      rw [List.cons_append, List.cons_append, requotable_escaped hp.1 is_escape, ih hchars]
      simp [hq.1, hq.2]

section Strings

variable (hescape : escape = '\\' ∨ escape = '\x60')
include hescape

theorem escape_ne : escape ≠ '\x27' ∧ escape ≠ '"' := by
  rcases hescape with rfl | rfl <;> decide

theorem Inside.exists_cut {chars : List Placed} (h : Inside '\x27' escape chars) :
    Unquoted chars ∨ ∃ front tail, chars = front ++ tail ∧ Unquoted front ∧
      Inside '\x27' escape front ∧ Quotes escape tail := by
  induction h with
  | nil => exact .inl Unquoted.nil
  | @plain p rest not_quote not_escape next ih =>
      by_cases hdouble : p.char = '"'
      · exact .inr ⟨[], _, rfl, Unquoted.nil, .nil, .alone hdouble next⟩
      · rcases ih with hrest | ⟨front, tail, rfl, hfront, hinside, htail⟩
        · exact .inl (List.forall_mem_cons.mpr ⟨⟨not_quote, hdouble⟩, hrest⟩)
        · exact .inr ⟨p :: front, tail, rfl, List.forall_mem_cons.mpr ⟨⟨not_quote, hdouble⟩, hfront⟩,
            .plain not_quote not_escape hinside, htail⟩
  | @escaped p q rest is_escape next ih =>
      by_cases hquote : q.char = '\x27' ∨ q.char = '"'
      · exact .inr ⟨[], _, rfl, Unquoted.nil, .nil, .escaped is_escape hquote next⟩
      · have hp : p.char ≠ '\x27' ∧ p.char ≠ '"' := is_escape ▸ escape_ne hescape
        rcases ih with hrest | ⟨front, tail, rfl, hfront, hinside, htail⟩
        · exact .inl (List.forall_mem_cons.mpr ⟨hp, List.forall_mem_cons.mpr
            ⟨not_or.mp hquote, hrest⟩⟩)
        · exact .inr ⟨p :: q :: front, tail, rfl, List.forall_mem_cons.mpr
            ⟨hp, List.forall_mem_cons.mpr ⟨not_or.mp hquote, hfront⟩⟩, .escaped is_escape hinside, htail⟩

theorem Inside.requotable_close {chars : List Placed} (h : Inside '\x27' escape chars)
    {closing : Placed} (hclosing : closing.char = '\x27') (rest : List Placed) :
    requotable escape inside true (chars ++ closing :: rest) =
      (requotable escape inside true chars && requotable escape inside false rest) := by
  induction h with
  | nil => rw [List.nil_append, requotable_quote hclosing]; rfl
  | plain not_quote not_escape _ ih =>
      rw [List.cons_append, requotable_plain not_quote not_escape,
        requotable_plain not_quote not_escape, ih, Bool.and_assoc]
  | escaped is_escape _ ih =>
      have hp := is_escape ▸ (escape_ne hescape).1
      rw [List.cons_append, List.cons_append, requotable_escaped hp is_escape,
        requotable_escaped hp is_escape, ih]
      simp only [Bool.and_assoc]

end Strings

/-- Behind an opening quote either this string is read and this text is left, or another string is
read, if any. -/
def Rereads (kept : Bool) (value more : Text) (read : Option (Text × Placed × List Placed)) : Prop :=
  if kept then ∃ closing rest, read = some (value, closing, rest) ∧ Placed.text rest = more
  else ∀ r ∈ read, r.1 ≠ value

namespace Rereads

variable {kept : Bool} {value more : Text} {read : Option (Text × Placed × List Placed)}

theorem prepend (h : Rereads kept value more read) (front : Text) :
    Rereads kept (front ++ value) more (read.map fun r => (front ++ r.1, r.2)) := by
  cases kept with
  | true =>
      obtain ⟨closing, rest, rfl, hmore⟩ := h
      exact ⟨closing, rest, rfl, hmore⟩
  | false =>
      intro r hr heq
      obtain ⟨r, hread, rfl⟩ := Option.map_eq_some_iff.mp hr
      exact h r hread (List.append_cancel_left heq)

theorem of_head? (h : ∀ r ∈ read, r.1.head? ≠ value.head?) : Rereads false value more read :=
  fun r hr heq => h r hr (congrArg List.head? heq)

end Rereads

theorem decode_literally {q : Char} (hq : q = '\x27' ∨ q = '"') (text : Text) :
    decode escape (escape :: q :: text) = q :: decode escape text := by
  have hletter : q ≠ 'u' ∧ letter? q = none := by rcases hq with rfl | rfl <;> decide
  rw [decode_escaped, if_neg fun h => hletter.1 h.2.1, hletter.2]
  simp

section Strings

variable (hescape : escape = '\\' ∨ escape = '\x60')
include hescape

/-- A quote or a backslash behind the escape character stands for itself. -/
theorem closeLiteral_literally {p q : Placed} (hp : p.char = escape)
    (hq : q.char = '\x27' ∨ q.char = '"' ∨ q.char = '\\') (rest : List Placed) :
    closeLiteral '"' escape (p :: q :: rest) =
      (closeLiteral '"' escape rest).map fun r => (q.char :: r.1, r.2) := by
  have hletter : q.char ≠ 'u' ∧ letter? q.char = none := by
    rcases hq with hq | hq | hq <;> rw [hq] <;> decide
  rw [closeLiteral_escaped (hp ▸ (escape_ne hescape).2) hp, decodeEscape_eq,
    if_neg fun h => hletter.1 h.2.1, hletter.2]
  simp

/-- How a string is read from one of its quotes on, if what stands behind is read like this. -/
theorem Quotes.reread {tail chars : List Placed} {more : Text} (h : Quotes escape tail)
    (htext : Placed.text chars = requote inside tail ++ '"' :: more)
    (hnext : ∀ rest chars, rest.length < tail.length → Inside '\x27' escape rest →
      Placed.text chars = requote inside rest ++ '"' :: more →
        Rereads (requotable escape inside true rest) (decode escape (Placed.text rest)) more
          (closeLiteral '"' escape chars)) :
    Rereads (requotable escape inside true tail) (decode escape (Placed.text tail)) more
      (closeLiteral '"' escape chars) := by
  obtain ⟨hsingle, hdouble⟩ := escape_ne hescape
  cases h with
  | @alone p rest is_double next =>
      have hp : p.char ≠ '\x27' ∧ p.char ≠ escape := is_double ▸ ⟨by decide, hdouble.symm⟩
      rw [Placed.text_cons, decode_plain hp.2, is_double, requotable_plain hp.1 hp.2, is_double]
      cases hinside : inside p with
      | false =>
          rw [requote_cons, is_double, hinside] at htext
          obtain ⟨q, rest', rfl, hq, -⟩ := List.map_eq_cons_iff.mp htext
          rw [closeLiteral_quote hq]
          exact .of_head? (by simp)
      | true =>
          rw [requote_cons, is_double, hinside] at htext
          obtain ⟨b, behind, rfl, hb, hbehind⟩ := List.map_eq_cons_iff.mp htext
          obtain ⟨q, rest', rfl, hq, hrest⟩ := List.map_eq_cons_iff.mp hbehind
          by_cases hbackslash : escape = '\\'
          · rw [closeLiteral_literally hescape (hb.trans hbackslash.symm) (.inr (.inl hq)), hq]
            have hstep := (hnext rest rest' (by simp) next hrest).prepend ['"']
            simpa [hbackslash] using hstep
          · rw [closeLiteral_plain (hb ▸ by decide) (hb ▸ Ne.symm hbackslash), hb,
              closeLiteral_quote hq, beq_false_of_ne hbackslash]
            exact .of_head? (by simp)
  | @escaped p q rest is_escape is_quote next =>
      have hp : p.char ≠ '\x27' ∧ p.char ≠ '"' := is_escape ▸ ⟨hsingle, hdouble⟩
      rw [Placed.text_cons, Placed.text_cons, is_escape, decode_literally is_quote,
        requotable_escaped hp.1 is_escape]
      rw [requote_cons, requote_cons, Fix.requoted_of_ne hp.1 hp.2, is_escape] at htext
      obtain ⟨e, behind, rfl, he, hbehind⟩ := List.map_eq_cons_iff.mp htext
      rcases is_quote with hq | hq
      · rw [hq] at hbehind ⊢
        obtain ⟨q', rest', rfl, hq', -⟩ := List.map_eq_cons_iff.mp hbehind
        rw [closeLiteral_literally hescape he (.inr (.inl hq')), hq']
        refine .of_head? fun r hr => ?_
        obtain ⟨r, -, rfl⟩ := Option.map_eq_some_iff.mp hr
        simp
      rw [hq] at hbehind ⊢
      cases hinside : inside q with
      | false =>
          rw [hinside] at hbehind
          obtain ⟨q', rest', rfl, hq', hrest⟩ := List.map_eq_cons_iff.mp hbehind
          rw [closeLiteral_literally hescape he (.inr (.inl hq')), hq']
          exact (hnext rest rest' (by simp only [List.length_cons]; omega) next hrest).prepend ['"']
      | true =>
          rw [hinside] at hbehind
          obtain ⟨b, last, rfl, hb, hlast⟩ := List.map_eq_cons_iff.mp hbehind
          obtain ⟨q', rest', rfl, hq', -⟩ := List.map_eq_cons_iff.mp hlast
          rw [closeLiteral_literally hescape he (.inr (.inr hb)), hb, closeLiteral_quote hq']
          exact .of_head? (by simp)

theorem Quotes.head_not_digit {tail : List Placed} (h : Quotes escape tail) :
    ∀ p ∈ tail.head?, isHexDigit p.char = false := by
  have hd := delimits (.inl rfl : '"' = '"' ∨ _) hescape
  cases h with
  | alone is_double _ =>
      rintro p ⟨⟩
      rw [is_double, hd.quote_digit]
  | escaped is_escape _ _ =>
      rintro p ⟨⟩
      rw [is_escape, hd.escape_digit]

theorem Quotes.requoted_head_not_digit {tail chars : List Placed} {more : Text}
    (h : Quotes escape tail) (htext : Placed.text chars = requote inside tail ++ more) :
    ∀ p ∈ chars.head?, isHexDigit p.char = false := by
  have hd := delimits (.inl rfl : '"' = '"' ∨ _) hescape
  intro p hp
  obtain ⟨rest, rfl⟩ := List.head?_eq_some_iff.mp hp
  cases h with
  | @alone q _ is_double _ =>
      rw [requote_cons, is_double, Placed.text_cons] at htext
      cases hinside : inside q <;> rw [hinside] at htext <;> rw [(List.cons.inj htext).1] <;> decide
  | @escaped q _ _ is_escape _ _ =>
      have hq : q.char ≠ '\x27' ∧ q.char ≠ '"' := is_escape ▸ escape_ne hescape
      rw [requote_cons, Fix.requoted_of_ne hq.1 hq.2, is_escape, Placed.text_cons] at htext
      rw [(List.cons.inj htext).1, hd.escape_digit]

theorem Quotes.isInside {tail : List Placed} (h : Quotes escape tail) : Inside '\x27' escape tail := by
  cases h with
  | alone is_double next =>
      exact .plain (is_double ▸ by decide) (is_double ▸ (escape_ne hescape).2.symm) next
  | escaped is_escape _ next => exact .escaped is_escape next

/-- How a string is read behind its opening quote if its quotes are replaced. -/
theorem closeLiteral_requoted {chars chars' : List Placed} {more : Text}
    (h : Inside '\x27' escape chars)
    (htext : Placed.text chars' = requote inside chars ++ '"' :: more) :
    Rereads (requotable escape inside true chars) (decode escape (Placed.text chars)) more
      (closeLiteral '"' escape chars') := by
  have hd := delimits (.inr rfl : '\x27' = '"' ∨ _) hescape
  have hd' := delimits (.inl rfl : '"' = '"' ∨ _) hescape
  generalize hn : chars.length = n
  induction n using Nat.strongRecOn generalizing chars chars' with
  | ind n ih =>
      rcases h.exists_cut hescape with hunquoted | ⟨front, tail, rfl, hfront, hinside, htail⟩
      · rw [hunquoted.requote] at htext
        obtain ⟨a, behind, rfl, ha, hbehind⟩ := List.map_eq_append_iff.mp htext
        obtain ⟨closing, rest, rfl, hclosing, hrest⟩ := List.map_eq_cons_iff.mp hbehind
        have hkept := @Inside.requotable_append escape inside chars h hunquoted []
        rw [List.append_nil] at hkept
        rw [hkept, closeLiteral_inside hd' (h.unquoted hunquoted ha) hclosing,
          show Placed.text a = Placed.text chars from ha]
        exact ⟨closing, rest, rfl, hrest⟩
      · rw [requote_append, hfront.requote, List.append_assoc] at htext
        obtain ⟨a, tail', rfl, ha, htail'⟩ := List.map_eq_append_iff.mp htext
        rw [List.length_append] at hn
        rw [hinside.requotable_append hfront, decode_append hd hinside (htail.isInside hescape)
          (htail.head_not_digit hescape), closeLiteral_append hd' (hinside.unquoted hfront ha),
          show Placed.text a = Placed.text front from ha]
        · exact (htail.reread hescape htail' fun rest chars hlt hrest hchars =>
            ih rest.length (by omega) hrest hchars rfl).prepend _
        · exact htail.requoted_head_not_digit hescape htail'

end Strings

/-! ## Arrays -/

/-- Whether a string and what follows are read, told by whether the string is read again. -/
theorem elements_reread {quote escape : Char} (hd : Delimits quote escape) {p : Placed}
    (hp : p.char = quote) {expect : Expect} (hexpect : expect = .valueOrClose ∨ expect = .value)
    {kept follows : Bool} {value more : Text} {values : List Text} {rest : List Placed} {stop : Nat}
    (h : Rereads kept value more (closeLiteral quote escape rest))
    (hnext : ∀ rest', Placed.text rest' = more →
      ((∃ r, elements quote escape stop .commaOrClose rest' = .ok r ∧
        r.1.map Literal.value = values) ↔ follows = true)) :
    (∃ r, elements quote escape stop expect (p :: rest) = .ok r ∧
        r.1.map Literal.value = value :: values) ↔ kept = true ∧ follows = true := by
  rw [elements_quote hd hp hexpect]
  cases kept with
  | false =>
      refine iff_of_false ?_ (by simp)
      rintro ⟨r, hr, hvalues⟩
      cases hclose : closeLiteral quote escape rest with
      | none =>
          rw [hclose] at hr
          cases hr
      | some other =>
          rw [hclose] at hr
          cases hrest : elements quote escape stop .commaOrClose other.2.2 with
          | error error =>
              simp only [hrest] at hr
              cases hr
          | ok r' =>
              simp only [hrest] at hr
              cases hr
              exact h other hclose (List.cons.inj hvalues).1
  | true =>
      obtain ⟨closing, rest', hclose, hmore⟩ := h
      rw [hclose]
      refine Iff.trans ?_ ((hnext rest' hmore).trans (and_iff_right rfl).symm)
      cases hrest : elements quote escape stop .commaOrClose rest' with
      | error error => simp [hrest, Except.map]
      | ok r => simp [hrest, Except.map]

section Arrays

variable (hescape : escape = '\\' ∨ escape = '\x60')
include hescape

/-- The strings of an array whose quotes are replaced are the same exactly if it is requotable. -/
theorem elements_requoted_iff {expect : Expect} {chars chars' : List Placed} {literals : List Literal}
    {closing : Placed} (h : Follows '\x27' escape expect chars literals closing)
    (hexpect : ∀ p, expect ≠ .nothing p) (htext : Placed.text chars' = requote inside chars)
    (stop : Nat) :
    (∃ r, elements '"' escape stop expect chars' = .ok r ∧
        r.1.map Literal.value = literals.map Literal.value) ↔
      requotable escape inside false chars = true := by
  have hd := delimits (.inl rfl : '"' = '"' ∨ _) hescape
  induction h generalizing chars' with
  | @done space closing is_space => exact absurd rfl (hexpect closing)
  | @close expect space back closing expected is_space closing_char back_space =>
      have hunquoted : Unquoted (closing :: back) :=
        List.forall_mem_cons.mpr ⟨by rw [closing_char]; decide, back_space.unquoted⟩
      have hkept := @Unquoted.requotable_append escape inside _ hunquoted []
      rw [List.append_nil] at hkept
      rw [is_space.unquoted.requotable_append, hkept]
      rw [requote_append, is_space.unquoted.requote, hunquoted.requote] at htext
      obtain ⟨space', behind, rfl, hspace', hbehind⟩ := List.map_eq_append_iff.mp htext
      obtain ⟨closing', back', rfl, hclosing', hback'⟩ := List.map_eq_cons_iff.mp hbehind
      refine iff_of_true ⟨_, elements_of_follows hd (.close expected (is_space.of_text hspace')
        (hclosing'.trans closing_char) (back_space.of_text hback')), rfl⟩ rfl
  | @comma space rest p closing literals is_space comma_char next ih =>
      have hp : p.char ≠ '\x27' ∧ p.char ≠ '"' := by rw [comma_char]; decide
      rw [is_space.unquoted.requotable_append, requotable_outside hp.1]
      rw [requote_append, is_space.unquoted.requote, requote_cons, Fix.requoted_of_ne hp.1 hp.2]
        at htext
      obtain ⟨space', behind, rfl, hspace', hbehind⟩ := List.map_eq_append_iff.mp htext
      obtain ⟨p', rest', rfl, hp', hrest'⟩ := List.map_eq_cons_iff.mp hbehind
      rw [elements_space (is_space.of_text hspace'), elements_comma (hp'.trans comma_char)]
      exact ih (fun p => by simp) hrest'
  | @string expect space rest closing s literals expected is_space next ih =>
      rw [Quoted.chars, List.cons_append, List.append_assoc, List.singleton_append] at htext ⊢
      rw [is_space.unquoted.requotable_append, requotable_quote s.opening_char, Bool.not_false,
        s.inside_valid.requotable_close hescape s.closing_char, Bool.and_eq_true]
      rw [requote_append, is_space.unquoted.requote, requote_cons, s.opening_char, requote_append,
        requote_cons, s.closing_char] at htext
      obtain ⟨space', behind, rfl, hspace', hbehind⟩ := List.map_eq_append_iff.mp htext
      obtain ⟨opening', chars', rfl, hopening', hchars'⟩ := List.map_eq_cons_iff.mp hbehind
      rw [elements_space (is_space.of_text hspace')]
      exact elements_reread hd hopening' expected
        (closeLiteral_requoted hescape s.inside_valid hchars')
        fun _ hrest' => ih (fun p => by simp) hrest'

/-- The text of an array in single quotes, with its quotes replaced, is read as the same strings exactly
if the array is requotable. -/
theorem strings_requoted_iff {e e' : Excerpt} {array : StringArray}
    (harray : parse '\x27' escape e = .ok array) (htext : e'.text = requote inside e.chars) :
    (∃ array', parse '"' escape e' = .ok array' ∧
        array'.strings.map Literal.value = array.strings.map Literal.value) ↔
      requotable escape inside false e.chars = true := by
  obtain ⟨front, opening, rest, literals, closing, hchars, hfront, hopening, hrest, rfl⟩ :=
    exists_bracket harray
  have hp : opening.char ≠ '\x27' ∧ opening.char ≠ '"' := by rw [hopening]; decide
  rw [hchars, requote_append, hfront.unquoted.requote, requote_cons, Fix.requoted_of_ne hp.1 hp.2]
    at htext
  obtain ⟨front', behind, hchars', hfront', hbehind⟩ := List.map_eq_append_iff.mp htext
  obtain ⟨opening', rest', rfl, hopening', hrest'⟩ := List.map_eq_cons_iff.mp hbehind
  have hfollows := follows_of_elements (delimits (.inr rfl) hescape) hrest
  rw [parse_bracket hchars' (hfront.of_text hfront') (hopening'.trans hopening), hchars,
    hfront.unquoted.requotable_append, requotable_outside hp.1,
    ← elements_requoted_iff hescape hfollows (fun p => by simp) hrest' e'.stop]
  cases elements '"' escape e'.stop .valueOrClose rest' with
  | error error => simp [Except.map]
  | ok r => simp [Except.map]

end Arrays

end StringArray

end Dockerfile
