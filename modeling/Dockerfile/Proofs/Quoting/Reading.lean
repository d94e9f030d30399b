import Dockerfile.Proofs.Argument

/-!
# Quotes and escapes, character by character

Whether a character has a meaning of its own depends on what stands in front of it: on the quote that
is open there, and on whether the character in front escapes it. `Quoting` says both, and is found by
reading from the left, one character at a time. Splitting into arguments and resolving quotes read
the same way: a word ends in front of the first blank that is neither quoted nor escaped
(`Argument.Word.reads_read`), and of a value what quotes or escapes is left out (`unquoteFrom_eq`).
-/

namespace Dockerfile

/-- What the characters in front of another make of it: the quote that is open, and whether the
character is escaped. -/
structure Quoting where
  quote : Option Placed
  escaped : Bool
  deriving DecidableEq, Repr

namespace Quoting

/-- No quote is open, and nothing is escaped. -/
def bare : Quoting :=
  ⟨none, false⟩

def quoteMarks : Text :=
  ['"', '\x27']

/-- Behind one more character. An escaped character means nothing, a quote that is open is closed by
its like, and the escape character escapes what follows it, except in single quotes. -/
def next (marks : Text) (escape : Char) (s : Quoting) (p : Placed) : Quoting :=
  if s.escaped then ⟨s.quote, false⟩
  else
    match s.quote with
    | none => if p.char ∈ marks then ⟨some p, false⟩ else ⟨none, p.char == escape⟩
    | some q =>
        if p.char = q.char then bare else ⟨some q, q.char == '"' && p.char == escape⟩

def after (marks : Text) (escape : Char) (s : Quoting) (chars : List Placed) : Quoting :=
  chars.foldl (next marks escape) s

/-- A blank separates if it is neither quoted nor escaped. -/
def Separates (s : Quoting) (p : Placed) : Prop :=
  isBlank p.char = true ∧ s = bare

/-- The open quote, as arguments record it. -/
def openQuote (s : Quoting) : Option OpenQuote :=
  s.quote.map fun q => ⟨q.char, q.offset⟩

theorem mem_quoteMarks {c : Char} : c ∈ quoteMarks ↔ c = '"' ∨ c = '\x27' := by
  simp [quoteMarks]

section After

variable {marks : Text} {escape : Char} {s : Quoting}

@[simp] theorem after_nil : s.after marks escape [] = s := rfl

@[simp] theorem after_cons (p : Placed) (chars : List Placed) :
    s.after marks escape (p :: chars) = (s.next marks escape p).after marks escape chars := rfl

@[simp] theorem after_append (a b : List Placed) :
    s.after marks escape (a ++ b) = (s.after marks escape a).after marks escape b :=
  List.foldl_append

theorem next_escaped (h : s.escaped = true) (p : Placed) :
    s.next marks escape p = ⟨s.quote, false⟩ :=
  if_pos h

theorem next_mark {p : Placed} (h : p.char ∈ marks) :
    bare.next marks escape p = ⟨some p, false⟩ :=
  if_pos h

theorem next_escape {p : Placed} (h : p.char ∉ marks) (hescape : p.char = escape) :
    bare.next marks escape p = ⟨none, true⟩ :=
  (if_neg h).trans (by rw [hescape, beq_self_eq_true])

theorem next_plain {p : Placed} (h : p.char ∉ marks) (hescape : p.char ≠ escape) :
    bare.next marks escape p = bare :=
  (if_neg h).trans (by rw [beq_false_of_ne hescape, bare])

variable {p q : Placed}

theorem next_close (h : p.char = q.char) :
    (⟨some q, false⟩ : Quoting).next marks escape p = bare :=
  if_pos h

theorem next_quoted_escape (h : p.char ≠ q.char) (hescape : q.char = '"' ∧ p.char = escape) :
    (⟨some q, false⟩ : Quoting).next marks escape p = ⟨some q, true⟩ :=
  (if_neg h).trans (by rw [hescape.1, hescape.2]; simp)

theorem next_quoted_plain (h : p.char ≠ q.char) (hescape : ¬ (q.char = '"' ∧ p.char = escape)) :
    (⟨some q, false⟩ : Quoting).next marks escape p = ⟨some q, false⟩ :=
  (if_neg h).trans (by simpa using hescape)

theorem next_separator {p : Placed} (h : s.Separates p) (hescape : isBlank escape = false) :
    s.next Quoting.quoteMarks escape p = bare := by
  have hmark : p.char ∉ Quoting.quoteMarks := by
    intro hmem
    have hblank := h.1
    rcases mem_quoteMarks.mp hmem with hchar | hchar <;> rw [hchar] at hblank <;> cases hblank
  rw [h.2]
  refine next_plain hmark fun heq => ?_
  rw [← heq, h.1] at hescape
  cases hescape

end After

theorem mem_marks_of_quote {marks : Text} {escape : Char} {s : Quoting}
    (hs : ∀ q ∈ s.quote, q.char ∈ marks) (chars : List Placed) :
    ∀ q ∈ (s.after marks escape chars).quote, q.char ∈ marks := by
  induction chars generalizing s with
  | nil => exact hs
  | cons p chars ih =>
      refine ih fun q hq => ?_
      unfold next at hq
      split at hq
      · exact hs q hq
      · split at hq
        · split at hq
          · cases hq
            assumption
          · cases hq
        · rename_i r hr
          split at hq
          · cases hq
          · cases hq
            exact hs _ hr

def Unbroken (escape : Char) (s : Quoting) (word : List Placed) : Prop :=
  ∀ a p b, word = a ++ p :: b → ¬ (s.after quoteMarks escape a).Separates p

theorem unbroken_nil (escape : Char) (s : Quoting) : Unbroken escape s [] := by
  intro a p b h
  cases a <;> cases h

theorem unbroken_cons {escape : Char} {s : Quoting} {p : Placed} {word : List Placed} :
    Unbroken escape s (p :: word) ↔
      ¬ s.Separates p ∧ Unbroken escape (s.next quoteMarks escape p) word := by
  constructor
  · intro h
    exact ⟨h [] p word rfl, fun a q b hword => h (p :: a) q b (by rw [hword]; rfl)⟩
  · rintro ⟨hfirst, hrest⟩ a q b hword
    cases a with
    | nil =>
        cases hword
        exact hfirst
    | cons r a =>
        cases hword
        exact hrest a q b rfl

theorem not_separates_of_not_blank {p : Placed} (h : ¬ isBlank p.char = true) (s : Quoting) :
    ¬ s.Separates p :=
  fun hsep => h hsep.1

theorem not_separates_of_escaped {s : Quoting} (h : s.escaped = true) (p : Placed) :
    ¬ s.Separates p := by
  rintro ⟨-, rfl⟩
  cases h

theorem not_separates_of_quoted {s : Quoting} {q : Placed} (h : s.quote = some q) (p : Placed) :
    ¬ s.Separates p := by
  rintro ⟨-, rfl⟩
  cases h

/-- Without an open quote and behind no escape there is nothing to know. -/
theorem eq_bare {s : Quoting} (hs : s.escaped = false) (h : s.quote = none) : s = bare := by
  obtain ⟨quote, escaped⟩ := s
  obtain rfl : quote = none := h
  obtain rfl : escaped = false := hs
  rfl

theorem exists_quote {s : Quoting} {opened : OpenQuote} (hs : s.escaped = false)
    (h : s.openQuote = some opened) :
    ∃ q : Placed, s = ⟨some q, false⟩ ∧ opened = ⟨q.char, q.offset⟩ := by
  obtain ⟨quote, escaped⟩ := s
  obtain ⟨q, hq, rfl⟩ := Option.map_eq_some_iff.mp h
  obtain rfl : escaped = false := hs
  exact ⟨q, by rw [show quote = some q from hq], rfl⟩

end Quoting

open Quoting

namespace Argument.Word

/-- A word as it is read behind `s`: no character of it separates, what follows it starts with one
that does, and the quote that it leaves open is the one open behind it. -/
structure Reads (escape : Char) (s : Quoting) (word : Word) : Prop where
  unbroken : Unbroken escape s word.chars
  openQuote : word.openQuote = (s.after quoteMarks escape word.chars).openQuote
  rest : word.rest = [] ∨ ∃ p rest, word.rest = p :: rest ∧
    (s.after quoteMarks escape word.chars).Separates p

theorem Reads.prepend {escape : Char} {s : Quoting} {p : Placed} {word : Word}
    (h : Reads escape (s.next quoteMarks escape p) word) (hp : ¬ s.Separates p) :
    Reads escape s (word.prepend [p]) :=
  ⟨unbroken_cons.mpr ⟨hp, h.unbroken⟩, h.openQuote, h.rest⟩

/-- A word that something follows leaves no quote open. -/
theorem Reads.openQuote_eq_none {escape : Char} {s : Quoting} {word : Word}
    (h : Reads escape s word) (hne : word.rest ≠ []) : word.openQuote = none := by
  rcases h.rest with hnil | ⟨p, rest, -, hsep⟩
  · exact absurd hnil hne
  · rw [h.openQuote, hsep.2]
    rfl

/-- A word is read up to the first separating blank. -/
theorem reads_read (escape : Char) {s : Quoting} (hs : s.escaped = false) (chars : List Placed) :
    Reads escape s (read escape s.openQuote chars) := by
  generalize hquote : s.openQuote = quote
  fun_induction read escape quote chars generalizing s with
  | case1 => exact ⟨unbroken_nil escape s, hquote.symm, .inl rfl⟩
  | case2 p rest hb =>
      obtain rfl := eq_bare hs (Option.map_eq_none_iff.mp hquote)
      exact ⟨unbroken_nil escape bare, rfl, .inr ⟨p, rest, rfl, hb, rfl⟩⟩
  | case3 p rest hb hmark ih =>
      obtain rfl := eq_bare hs (Option.map_eq_none_iff.mp hquote)
      have hnext : bare.next quoteMarks escape p = _ := next_mark (mem_quoteMarks.mpr hmark)
      refine Reads.prepend ?_ (not_separates_of_not_blank hb bare)
      rw [hnext]
      exact ih rfl rfl
  | case4 p hb hmark heq =>
      obtain rfl := eq_bare hs (Option.map_eq_none_iff.mp hquote)
      have hnext := next_escape ((not_congr mem_quoteMarks).mpr hmark) heq
      refine @Reads.prepend escape bare p ⟨[], [], none⟩ ?_ (not_separates_of_not_blank hb bare)
      rw [hnext]
      exact ⟨unbroken_nil escape _, rfl, .inl rfl⟩
  | case5 p hb hmark heq q rest ih =>
      obtain rfl := eq_bare hs (Option.map_eq_none_iff.mp hquote)
      have hnext := next_escape ((not_congr mem_quoteMarks).mpr hmark) heq
      refine @Reads.prepend escape bare p ((read escape none rest).prepend [q]) ?_
        (not_separates_of_not_blank hb bare)
      rw [hnext]
      exact (ih rfl rfl : Reads escape (next quoteMarks escape ⟨none, true⟩ q) _).prepend
        (not_separates_of_escaped rfl q)
  | case6 p rest hb hmark heq ih =>
      obtain rfl := eq_bare hs (Option.map_eq_none_iff.mp hquote)
      have hnext := next_plain ((not_congr mem_quoteMarks).mpr hmark) heq
      refine Reads.prepend ?_ (not_separates_of_not_blank hb bare)
      rw [hnext]
      exact ih rfl rfl
  | case7 p rest opened hclose ih =>
      obtain ⟨q, rfl, rfl⟩ := exists_quote hs hquote
      have hnext : (⟨some q, false⟩ : Quoting).next quoteMarks escape p = _ := next_close hclose
      refine Reads.prepend ?_ (not_separates_of_quoted rfl p)
      rw [hnext]
      exact ih rfl rfl
  | case8 p opened hclose heq =>
      obtain ⟨q, rfl, rfl⟩ := exists_quote hs hquote
      have hnext : (⟨some q, false⟩ : Quoting).next quoteMarks escape p = _ :=
        next_quoted_escape hclose heq
      refine @Reads.prepend escape _ p ⟨[], [], _⟩ ?_ (not_separates_of_quoted rfl p)
      rw [hnext]
      exact ⟨unbroken_nil escape _, rfl, .inl rfl⟩
  | case9 p opened hclose heq r rest ih =>
      obtain ⟨q, rfl, rfl⟩ := exists_quote hs hquote
      have hnext : (⟨some q, false⟩ : Quoting).next quoteMarks escape p = _ :=
        next_quoted_escape hclose heq
      refine @Reads.prepend escape _ p ((read escape _ rest).prepend [r]) ?_
        (not_separates_of_quoted rfl p)
      rw [hnext]
      exact (ih rfl rfl : Reads escape (next quoteMarks escape ⟨some q, true⟩ r) _).prepend
        (not_separates_of_escaped rfl r)
  | case10 p rest opened hclose heq ih =>
      obtain ⟨q, rfl, rfl⟩ := exists_quote hs hquote
      have hnext : (⟨some q, false⟩ : Quoting).next quoteMarks escape p = _ :=
        next_quoted_plain hclose heq
      refine Reads.prepend ?_ (not_separates_of_quoted rfl p)
      rw [hnext]
      exact ih rfl rfl

end Argument.Word

/-! ## Resolving quotes -/

namespace Quoting

/-- What is left of characters behind `s` when their quotes and escapes are resolved: those that are
escaped and those that change nothing. An escape character at the end has nothing to escape. -/
def resolved (escape : Char) (s : Quoting) : List Placed → Text
  | [] => []
  | p :: rest =>
      let next := s.next quoteMarks escape p
      if s.escaped ∨ next = s ∨ rest = [] ∧ next.escaped then p.char :: resolved escape next rest
      else resolved escape next rest

section Resolved

variable {escape : Char} {s : Quoting} {p : Placed} {rest : List Placed}

theorem resolved_of_unchanged (h : s.next quoteMarks escape p = s) :
    resolved escape s (p :: rest) = p.char :: resolved escape s rest := by
  rw [resolved]
  simp only [h, true_or, or_true, if_true]

theorem resolved_of_changed {t : Quoting} (hs : s.escaped = false) (h : s.next quoteMarks escape p = t)
    (hne : t ≠ s) (ht : t.escaped = false) :
    resolved escape s (p :: rest) = resolved escape t rest := by
  rw [resolved]
  simp only [h, hs, hne, ht, Bool.false_eq_true, and_false, or_self, if_false]

theorem resolved_of_escape (hs : s.escaped = false) (h : s.next quoteMarks escape p = ⟨s.quote, true⟩) :
    resolved escape s [p] = [p.char] ∧ ∀ q rest, resolved escape s (p :: q :: rest) =
      q.char :: resolved escape s rest := by
  have hne : (⟨s.quote, true⟩ : Quoting) ≠ s := by
    rintro heq
    rw [← heq] at hs
    cases hs
  have hself : (⟨s.quote, false⟩ : Quoting) = s := by rw [← hs]
  constructor
  · rw [resolved]
    simp only [h, and_self, or_true, if_true]
    rfl
  · intro q rest
    rw [resolved]
    simp only [h, hs, hne, reduceCtorEq, false_and, Bool.false_eq_true, or_self, if_false]
    rw [resolved]
    simp only [next_escaped, true_or, if_true, hself]

theorem next_of_escape (hescape : escape ∉ quoteMarks) (hs : s.escaped = false)
    (hmark : ∀ q ∈ s.quote, q.char ∈ quoteMarks) (hquote : s.quote.map Placed.char ≠ some '\x27')
    (hp : p.char = escape) : s.next quoteMarks escape p = ⟨s.quote, true⟩ := by
  obtain ⟨quote, escaped⟩ := s
  obtain rfl : escaped = false := hs
  rw [← hp] at hescape
  cases quote with
  | none => exact next_escape hescape hp
  | some q =>
      have hdouble : q.char = '"' := (mem_quoteMarks.mp (hmark q rfl)).resolve_right fun h =>
        hquote (congrArg some h)
      refine next_quoted_escape ?_ ⟨hdouble, hp⟩
      rintro heq
      rw [heq] at hescape
      exact hescape (hmark q rfl)

end Resolved

end Quoting

theorem unquoteFrom_eq {escape : Char} (hescape : escape ∉ quoteMarks) {s : Quoting}
    (hs : s.escaped = false) (hmark : ∀ q ∈ s.quote, q.char ∈ quoteMarks) (chars : List Placed) :
    unquoteFrom escape (s.quote.map Placed.char) (Placed.text chars) = resolved escape s chars := by
  generalize htext : Placed.text chars = text
  generalize hquote : s.quote.map Placed.char = quote
  have hbare : ∀ q ∈ bare.quote, q.char ∈ quoteMarks := by simp [bare]
  have hopened {q : Placed} (h : s.quote = some q) : s = ⟨some q, false⟩ := by rw [← h, ← hs]
  fun_induction unquoteFrom escape quote text generalizing s chars with
  | case1 =>
      obtain rfl := List.map_eq_nil_iff.mp htext
      rfl
  | case2 rest ih =>
      obtain ⟨p, chars, rfl, hp, hrest⟩ := List.map_eq_cons_iff.mp htext
      obtain ⟨q, hq, hchar⟩ := Option.map_eq_some_iff.mp hquote
      obtain rfl := hopened hq
      rw [resolved_of_changed rfl (next_close (hp.trans hchar.symm)) (by simp [bare]) rfl]
      exact ih rfl hbare chars hrest rfl (by simp [bare])
  | case3 c rest hc ih =>
      obtain ⟨p, chars, rfl, rfl, hrest⟩ := List.map_eq_cons_iff.mp htext
      obtain ⟨q, hq, hchar⟩ := Option.map_eq_some_iff.mp hquote
      obtain rfl := hopened hq
      rw [resolved_of_unchanged (next_quoted_plain (by rwa [hchar]) (by simp [hchar])),
        ih rfl hmark chars hrest hquote hopened]
  | case4 c rest hc ih =>
      obtain ⟨p, chars, rfl, hp, hrest⟩ := List.map_eq_cons_iff.mp htext
      obtain ⟨q, hq, hchar⟩ := Option.map_eq_some_iff.mp hquote
      obtain rfl := hopened hq
      rw [resolved_of_changed rfl (next_close (hp.trans hchar.symm)) (by simp [bare]) rfl]
      exact ih rfl hbare chars hrest rfl (by simp [bare])
  | case5 quote hsingle =>
      obtain ⟨p, chars, rfl, hp, hrest⟩ := List.map_eq_cons_iff.mp htext
      obtain rfl := List.map_eq_nil_iff.mp hrest
      rw [(resolved_of_escape hs (next_of_escape hescape hs hmark (by rwa [hquote]) hp)).1, hp]
  | case6 quote hsingle d rest hne ih =>
      obtain ⟨p, chars, rfl, hp, hrest⟩ := List.map_eq_cons_iff.mp htext
      obtain ⟨r, chars, rfl, rfl, hrest'⟩ := List.map_eq_cons_iff.mp hrest
      rw [(resolved_of_escape hs (next_of_escape hescape hs hmark (by rwa [hquote]) hp)).2,
        ih hs hmark chars hrest' hquote hopened]
  | case7 quote c rest hsingle hclose hne hopen ih =>
      obtain ⟨p, chars, rfl, rfl, hrest⟩ := List.map_eq_cons_iff.mp htext
      obtain ⟨rfl, hopen⟩ := hopen
      obtain rfl := eq_bare hs (Option.map_eq_none_iff.mp hquote)
      have hmem := mem_quoteMarks.mpr hopen
      rw [resolved_of_changed rfl (next_mark hmem) (by simp [bare]) rfl]
      exact ih rfl (by rintro q ⟨⟩; exact hmem) chars hrest rfl (by rintro q ⟨⟩; rfl)
  | case8 quote c rest hsingle hclose hne hopen ih =>
      obtain ⟨p, chars, rfl, rfl, hrest⟩ := List.map_eq_cons_iff.mp htext
      have hnext : s.next quoteMarks escape p = s := by
        cases hq : s.quote with
        | none =>
            obtain rfl := eq_bare hs hq
            exact next_plain (fun h => hopen ⟨hquote.symm, mem_quoteMarks.mp h⟩) hne
        | some q =>
            obtain rfl := hopened hq
            exact next_quoted_plain (fun h => hclose (by rw [← hquote, h]; rfl)) fun h => hne h.2
      rw [resolved_of_unchanged hnext, ih hs hmark chars hrest hquote hopened]

end Dockerfile
