import Dockerfile.Editor.Highlighting
import Dockerfile.Proofs.Quoting.Separation

/-!
# Quoted parts and their highlighting

Splitting a text tells where its quoted parts begin and end (`Quoting.parts`). An editor colours
quoted parts that are looked for without the escape character, so a quote that is escaped is taken
for one that begins or ends a part. Both find the same parts if and only if this happens nowhere but
at the last character of an argument whose quote is open (`Token.ofQuotes_parts_iff`).
-/

namespace Dockerfile

namespace Quoting

/-- A quoted part: the quote that opens it, and the one that closes it, if one does. -/
structure Part where
  opening : Placed
  closing : Option Placed
  deriving DecidableEq, Repr

/-- From quote to quote, or up to `stop` if the part is not closed. -/
def Part.span (stop : Nat) (part : Part) : Span :=
  match part.closing with
  | some p => part.opening.spanTo p
  | none => ⟨part.opening.offset, max stop part.opening.offset⟩

/-- The quoted parts that end among these characters, or are open behind them, if they are read
behind `s`. -/
def parts (escape : Char) (s : Quoting) : List Placed → List Part
  | [] => s.quote.toList.map fun q => ⟨q, none⟩
  | p :: rest =>
      let next := s.next quoteMarks escape p
      match s.quote, next.quote with
      | some q, none => ⟨q, some p⟩ :: parts escape next rest
      | _, _ => parts escape next rest

/-- An escaped quote where one of its kind would open or close a part. -/
def Misread (s : Quoting) (p : Placed) : Prop :=
  s.escaped = true ∧
    match s.quote with
    | none => p.char ∈ quoteMarks
    | some q => p.char = q.char

instance decidableMisread : (s : Quoting) → (p : Placed) → Decidable (s.Misread p)
  | ⟨none, escaped⟩, p => inferInstanceAs (Decidable (escaped = true ∧ p.char ∈ quoteMarks))
  | ⟨some q, escaped⟩, p => inferInstanceAs (Decidable (escaped = true ∧ p.char = q.char))

/-- Of these characters none can be misread, unless it is the last and a quote is open. -/
def Harmless (escape : Char) (s : Quoting) : List Placed → Prop
  | [] => True
  | p :: rest =>
      (s.Misread p → s.quote.isSome = true ∧ rest = []) ∧
        Harmless escape (s.next quoteMarks escape p) rest

instance decidableHarmless (escape : Char) : (s : Quoting) → (chars : List Placed) →
    Decidable (Harmless escape s chars)
  | _, [] => inferInstanceAs (Decidable True)
  | s, p :: rest =>
      have := decidableHarmless escape (s.next quoteMarks escape p) rest
      inferInstanceAs (Decidable (_ ∧ _))

section Parts

variable {escape : Char} {s : Quoting} {p q : Placed} {chars rest : List Placed}

/-- A character opens a quote, closes one or leaves the quote as it is. -/
theorem quote_next (escape : Char) (s : Quoting) (p : Placed) :
    (s.next quoteMarks escape p).quote = s.quote ∨
      s.quote = none ∧ (s.next quoteMarks escape p).quote = some p ∨
      (s.next quoteMarks escape p).quote = none := by
  unfold next
  split
  · exact .inl rfl
  · split
    · rename_i hquote
      split
      · exact .inr (.inl ⟨hquote, rfl⟩)
      · exact .inr (.inr rfl)
    · rename_i q hquote
      split
      · exact .inr (.inr rfl)
      · exact .inl hquote.symm

theorem parts_of_closed (hs : s.quote = some q) (h : (s.next quoteMarks escape p).quote = none) :
    parts escape s (p :: rest) = ⟨q, some p⟩ :: parts escape (s.next quoteMarks escape p) rest := by
  simp only [parts, hs, h]

theorem parts_of_quoted (h : (s.next quoteMarks escape p).quote = some q) :
    parts escape s (p :: rest) = parts escape (s.next quoteMarks escape p) rest := by
  rw [parts, h]
  cases s.quote <;> rfl

theorem parts_of_unquoted (hs : s.quote = none) :
    parts escape s (p :: rest) = parts escape (s.next quoteMarks escape p) rest := by
  rw [parts, hs]

theorem exists_parts_of_quoted (hs : s.quote = some q) (chars : List Placed) :
    ∃ closing more, parts escape s chars = ⟨q, closing⟩ :: more ∧ ∀ r ∈ closing, r ∈ chars := by
  induction chars generalizing s with
  | nil => exact ⟨none, [], by rw [parts, hs]; rfl, by simp⟩
  | cons p rest ih =>
      cases hnext : (s.next quoteMarks escape p).quote with
      | none => exact ⟨some p, _, parts_of_closed hs hnext, by simp⟩
      | some r =>
          obtain rfl : q = r := by
            rcases quote_next escape s p with h | ⟨h, -⟩ | h
            · rw [hnext, hs] at h
              exact (Option.some.inj h).symm
            · rw [hs] at h
              cases h
            · rw [hnext] at h
              cases h
          obtain ⟨closing, more, hparts, hclosing⟩ := ih hnext
          exact ⟨closing, more, (parts_of_quoted hnext).trans hparts,
            fun r hr => List.mem_cons_of_mem p (hclosing r hr)⟩

theorem opening_mem_of_unquoted (hs : s.quote = none) {part : Part}
    (h : part ∈ (parts escape s chars).head?) : part.opening ∈ chars := by
  induction chars generalizing s with
  | nil =>
      rw [parts, hs] at h
      cases h
  | cons p rest ih =>
      rw [parts_of_unquoted hs] at h
      cases hnext : (s.next quoteMarks escape p).quote with
      | none => exact List.mem_cons_of_mem p (ih hnext h)
      | some r =>
          obtain rfl : r = p := by
            rcases quote_next escape s p with h | ⟨-, h⟩ | h <;> rw [hnext] at h
            · rw [hs] at h
              cases h
            · exact Option.some.inj h
            · cases h
          obtain ⟨closing, more, hparts, -⟩ := @exists_parts_of_quoted escape _ r hnext rest
          rw [hparts] at h
          cases h
          exact List.mem_cons_self

/-! ## Without the escape character -/

theorem exists_quotedSpans (stop : Nat) (q : Placed) (chars : List Placed) :
    ∃ span more, Token.quotedSpans stop (some q) chars = span :: more ∧ span.start = q.offset := by
  induction chars with
  | nil => exact ⟨_, [], rfl, rfl⟩
  | cons p rest ih =>
      rw [Token.quotedSpans]
      by_cases hclose : p.char = q.char
      · exact ⟨_, _, if_pos hclose, rfl⟩
      · simpa only [if_neg hclose] using ih

theorem next_of_not_misread (h : ¬ s.Misread p) :
    (s.quote = none ∧ p.char ∉ quoteMarks ∧ (s.next quoteMarks escape p).quote = none) ∨
      (s.quote = none ∧ p.char ∈ quoteMarks ∧ (s.next quoteMarks escape p).quote = some p) ∨
      (∃ q, s.quote = some q ∧ p.char = q.char ∧ (s.next quoteMarks escape p).quote = none) ∨
      ∃ q, s.quote = some q ∧ p.char ≠ q.char ∧ (s.next quoteMarks escape p).quote = some q := by
  obtain ⟨quote, mute⟩ := s
  cases quote with
  | none =>
      by_cases hmark : p.char ∈ quoteMarks
      · cases mute with
        | true => exact absurd ⟨rfl, hmark⟩ h
        | false => exact .inr (.inl ⟨rfl, hmark, congrArg quote (next_mark hmark)⟩)
      · refine .inl ⟨rfl, hmark, ?_⟩
        cases mute <;> simp [next, hmark]
  | some q =>
      by_cases hclose : p.char = q.char
      · cases mute with
        | true => exact absurd ⟨rfl, hclose⟩ h
        | false => exact .inr (.inr (.inl ⟨q, rfl, hclose, congrArg quote (next_close hclose)⟩))
      · refine .inr (.inr (.inr ⟨q, rfl, hclose, ?_⟩))
        cases mute <;> simp [next, hclose]

/-- If a quote is taken for one that opens a part, the spans begin too early. -/
theorem quotedSpans_ne_of_unquoted {stop : Nat} (hs : s.quote = none)
    (ordered : ∀ r ∈ rest, p.stop ≤ r.offset) :
    Token.quotedSpans stop (some p) rest ≠ (parts escape s rest).map (Part.span stop) := by
  obtain ⟨span, more, hspans, hstart⟩ := exists_quotedSpans stop p rest
  intro heq
  rw [hspans] at heq
  obtain ⟨part, others, hparts, hpart, -⟩ := List.map_eq_cons_iff.mp heq.symm
  have hmem : part.opening ∈ rest := opening_mem_of_unquoted hs (by rw [hparts]; rfl)
  have hopening : (Part.span stop part).start = part.opening.offset := by
    rw [Part.span]
    split <;> rfl
  have hle := ordered _ hmem
  have hlt := p.offset_lt_stop
  rw [hpart, hstart] at hopening
  omega

/-- If a quote is taken for one that closes a part, the first span ends too early. -/
theorem quotedSpans_ne_of_quoted {stop : Nat} (hs : s.quote = some q) (hq : q.stop ≤ p.offset)
    (hne : rest ≠ []) (ordered : ∀ r ∈ rest, p.stop ≤ r.offset)
    (hstop : ∀ r ∈ rest.getLast?, r.stop = stop) {spans : List Span} :
    q.spanTo p :: spans ≠ (parts escape s rest).map (Part.span stop) := by
  obtain ⟨closing, more, hparts, hclosing⟩ := @exists_parts_of_quoted escape _ _ hs rest
  obtain ⟨r, hr, hspan⟩ : ∃ r ∈ rest, Part.span stop ⟨q, closing⟩ = q.spanTo r := by
    cases closing with
    | some r => exact ⟨r, hclosing r rfl, rfl⟩
    | none =>
        obtain ⟨r, hr⟩ := List.getLast?_isSome.mpr hne |> Option.isSome_iff_exists.mp
        exact ⟨r, List.mem_of_getLast? hr, by rw [Part.span, Placed.spanTo, hstop r hr]⟩
  intro heq
  rw [hparts, List.map_cons, hspan] at heq
  have hends : max p.stop q.offset = max r.stop q.offset :=
    congrArg Span.stop (List.cons.inj heq).1
  have hle := ordered r hr
  have hp := p.offset_lt_stop
  have hr := r.offset_lt_stop
  have hq' := q.offset_lt_stop
  omega

/-- The two ways to look for quoted parts agree if and only if nothing that matters is misread. -/
theorem quotedSpans_eq_iff {stop : Nat}
    (ordered : (s.quote.toList ++ chars).Pairwise fun p q => p.stop ≤ q.offset)
    (hstop : ∀ p ∈ chars.getLast?, p.stop = stop) :
    Token.quotedSpans stop s.quote chars = (parts escape s chars).map (Part.span stop) ↔
      Harmless escape s chars := by
  induction chars generalizing s with
  | nil =>
      refine iff_of_true ?_ trivial
      rw [Token.quotedSpans.eq_def, parts]
      cases s.quote <;> rfl
  | cons p rest ih =>
      obtain ⟨-, hlater, hbefore⟩ := List.pairwise_append.mp ordered
      obtain ⟨hbehind, hrest⟩ := List.pairwise_cons.mp hlater
      have hstop' : ∀ r ∈ rest.getLast?, r.stop = stop := by
        intro r hr
        refine hstop r ?_
        rw [List.getLast?_cons, Option.mem_def.mp hr]
        rfl
      have hnext : ((s.next quoteMarks escape p).quote.toList ++ rest).Pairwise
          fun p q => p.stop ≤ q.offset := by
        rcases quote_next escape s p with h | ⟨-, h⟩ | h <;> rw [h]
        · exact ordered.sublist ((List.sublist_cons_self p rest).append_left _)
        · exact hlater
        · exact hrest
      have ih := ih hnext hstop'
      by_cases hmisread : s.Misread p
      · have hescaped : s.next quoteMarks escape p = _ := next_escaped hmisread.1 p
        have hkind := hmisread.2
        rw [Harmless]
        cases hs : s.quote with
        | none =>
            rw [hs] at hkind
            refine iff_of_false ?_ fun h => absurd (h.1 hmisread).1 (by simp)
            rw [Token.quotedSpans, parts_of_unquoted hs]
            simp only [if_pos (mem_quoteMarks.mp hkind)]
            exact quotedSpans_ne_of_unquoted (by rw [hescaped, hs]) hbehind
        | some q =>
            rw [hs] at hkind
            have hopen : (s.next quoteMarks escape p).quote = some q := by rw [hescaped, hs]
            rw [Token.quotedSpans, parts_of_quoted hopen]
            simp only [if_pos hkind]
            by_cases hne : rest = []
            · subst hne
              refine iff_of_true ?_ ⟨fun _ => ⟨rfl, rfl⟩, trivial⟩
              rw [parts, hopen, Token.quotedSpans, Option.toList_some, List.map_singleton,
                List.map_singleton, Part.span, Placed.spanTo, hstop p rfl]
            · refine iff_of_false ?_ fun h => absurd (h.1 hmisread).2 hne
              exact quotedSpans_ne_of_quoted hopen (hbefore q (by simp [hs]) p List.mem_cons_self) hne
                hbehind hstop'
      · rw [Harmless]
        simp only [hmisread, false_implies, true_and]
        rw [← ih]
        rcases @next_of_not_misread escape _ _ hmisread with ⟨hs, hp, h⟩ | ⟨hs, hp, h⟩ |
          ⟨q, hs, hp, h⟩ | ⟨q, hs, hp, h⟩
        · rw [parts_of_unquoted hs, hs, h, Token.quotedSpans]
          simp only [if_neg fun hmark => hp (mem_quoteMarks.mpr hmark)]
        · rw [parts_of_unquoted hs, hs, h, Token.quotedSpans]
          simp only [if_pos (mem_quoteMarks.mp hp)]
        · rw [parts_of_closed hs h, hs, h, Token.quotedSpans]
          simp only [if_pos hp, List.map_cons, List.cons.injEq, true_and, Part.span]
        · rw [parts_of_quoted h, hs, h, Token.quotedSpans]
          simp only [if_neg hp]

end Parts

theorem Run.bare_of_left {escape : Char} {front word rest : List Placed}
    (hescape : isBlank escape = false) (h : Run escape front word rest) :
    bare.after quoteMarks escape front = bare := by
  rcases h.left with rfl | ⟨a, p, rfl, hsep⟩
  · rfl
  · rw [after_append, after_cons, after_nil, next_separator hsep hescape]

end Quoting

open Quoting

namespace Token

/-- The parts of an argument that are coloured as strings are its quoted parts if and only if no
escaped quote is misread, or only the last character of an open part. The quoted parts are those of
the reading by which the text is split, which is behind `front` where the argument begins. -/
theorem ofQuotes_parts_iff {escape : Char} (hescape : isBlank escape = false) {text : Text}
    {region : Excerpt} (hregion : region.Within text) {arg : Argument}
    (harg : arg ∈ Argument.split escape region) :
    ∃ front rest, region.chars = front ++ (arg.content.chars ++ rest) ∧
      arg.start = total Placed.size front ∧
      let s := bare.after quoteMarks escape front
      ((ofQuotes arg).map Token.span =
          (parts escape s arg.content.chars).map (Part.span arg.content.stop) ↔
        Harmless escape s arg.content.chars) := by
  obtain ⟨front, word, rest, hsplit, hrun, hstart, -, rfl, -⟩ :=
    (Argument.Gap.start escape region).sound hescape harg
  have ordered : arg.content.chars.Pairwise fun p q => p.stop ≤ q.offset := by
    refine ((Text.pairwise_place 0 text).sublist hregion.chars).sublist ?_
    rw [hsplit]
    exact (List.sublist_append_left _ _).trans (List.sublist_append_right _ _)
  have hstop : ∀ p ∈ arg.content.chars.getLast?, p.stop = arg.content.stop := by
    intro p hp
    rw [Excerpt.stop, Placed.stopOr, Option.mem_def.mp hp]
  refine ⟨front, rest, hsplit, hstart, ?_⟩
  have hspans : (ofQuotes arg).map Token.span =
      quotedSpans arg.content.stop none arg.content.chars := by
    rw [ofQuotes, List.map_map]
    exact List.map_id _
  rw [hspans, hrun.bare_of_left hescape]
  exact quotedSpans_eq_iff (s := bare) ordered hstop

/-- A quoted part with an escaped single quote in it, and one that is open where an escaped double
quote ends the argument. -/
theorem ofQuotes_parts_quoted :
    let region := Excerpt.ofText 4 "x\"a\\'\"\"b\\\"".toList
    let arg : Argument := ⟨⟨region.chars, 14⟩, 0, 10, some ⟨'"', 10⟩⟩
    isBlank '\\' = false ∧ region.Within "RUN x\"a\\'\"\"b\\\"".toList ∧
      arg ∈ Argument.split '\\' region ∧
      (ofQuotes arg).map Token.span =
        (parts '\\' bare region.chars).map (Part.span arg.content.stop) := by
  intro region arg
  have hregion : region.Within "RUN x\"a\\'\"\"b\\\"".toList :=
    ⟨List.sublist_append_right (Text.place 0 "RUN ".toList) _, by decide⟩
  have harg : arg ∈ Argument.split '\\' region := by decide +kernel
  obtain ⟨front, rest, -, hstart, hiff⟩ := ofQuotes_parts_iff (by decide) hregion harg
  obtain rfl : front = [] := by
    cases front with
    | nil => rfl
    | cons p front =>
        have hsize := p.size_pos
        rw [total_cons] at hstart
        exact absurd (show 0 = p.size + total Placed.size front from hstart) (by omega)
  exact ⟨by decide, hregion, harg, hiff.mpr (by decide +kernel)⟩

/-- In `"a\"b"` there is one quoted part. Two are coloured, since the escaped quote is taken for the
end of the first. -/
theorem ofQuotes_escaped :
    ¬ ∀ arg ∈ Argument.split '\\' (Excerpt.ofText 4 "\"a\\\"b\"".toList),
      (ofQuotes arg).map Token.span =
        (parts '\\' bare arg.content.chars).map (Part.span arg.content.stop) := by
  decide +kernel

end Token

end Dockerfile
