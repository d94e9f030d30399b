import Dockerfile.Proofs.Directive.Entry
import Dockerfile.Proofs.Text.Casing

/-!
# The shape of a directive

What a line says that is read as a directive, character by character. With another name, or another
value behind the same equals sign, the line is a directive too.
-/

namespace Dockerfile

theorem Excerpt.span_place {e : Excerpt} {offset : Nat} {text : Text}
    (h : e.chars = Text.place offset text) (hne : text ≠ []) :
    e.span = ⟨offset, offset + Text.byteLength text⟩ := by
  obtain ⟨front, c, rfl⟩ : ∃ front c, text = front ++ [c] :=
    ⟨_, _, (List.dropLast_concat_getLast hne).symm⟩
  have hstart : e.start = offset := by
    rw [Excerpt.start, h]
    cases front <;> rfl
  have hstop : e.stop = offset + Text.byteLength (front ++ [c]) := by
    rw [Excerpt.stop, h, Text.place_append, Text.place_cons, Text.place_nil, Placed.stopOr,
      List.getLast?_concat, Text.byteLength_append, ← Nat.add_assoc]
    rfl
  rw [Excerpt.span, hstart, hstop, Nat.max_eq_left (Nat.le_add_right _ _)]

theorem isAlpha_toLower (c : Char) : c.toLower.isAlpha = c.isAlpha := by
  induction c using cases_ascii with
  | ascii n hn => revert n; decide +kernel
  | other c _ hlower => rw [hlower]

theorem isAlphanum_toLower (c : Char) : c.toLower.isAlphanum = c.isAlphanum := by
  induction c using cases_ascii with
  | ascii n hn => revert n; decide +kernel
  | other c _ hlower => rw [hlower]

namespace Directive

/-- A mark, a name, an equals sign and the rest, with blanks between them. -/
structure Shape (content lead gap name gap' rest : Text) : Prop where
  split : content = lead ++ '#' :: (gap ++ (name ++ (gap' ++ '=' :: rest)))
  lead : ∀ c ∈ lead, isBlank c = true
  gap : ∀ c ∈ gap, isBlank c = true
  first : ∃ c more, name = c :: more ∧ c.isAlpha = true
  name : ∀ c ∈ name, c.isAlphanum = true
  gap' : ∀ c ∈ gap', isBlank c = true

theorem isBlank_of_isAlphanum {c : Char} (h : c.isAlphanum = true) : isBlank c = false := by
  cases hblank : isBlank c with
  | false => rfl
  | true =>
      simp only [isBlank, Bool.or_eq_true, beq_iff_eq] at hblank
      rcases hblank with rfl | rfl <;> cases h

theorem exists_shape {line : Line} {d : Directive} (h : ofLine? line = some d) :
    ∃ lead gap name gap' rest, Shape line.content lead gap name gap' rest := by
  have hentry := ofLine?_entry line
  rw [h] at hentry
  have hlead := @List.takeWhile_append_dropWhile _ isBlank line.content
  have hall : ∀ {f : Char → Bool} {text : Text}, ∀ c ∈ text.takeWhile f, f c = true :=
    fun c hc => List.all_eq_true.mp List.all_takeWhile c hc
  cases hcore : line.content.dropWhile isBlank with
  | nil =>
      rw [hcore] at hentry
      cases hentry
  | cons mark core =>
      rw [hcore] at hentry hlead
      have hgap := @List.takeWhile_append_dropWhile _ isBlank core
      have hname := @List.takeWhile_append_dropWhile _ Char.isAlphanum (core.dropWhile isBlank)
      have hgap' := @List.takeWhile_append_dropWhile _ isBlank
        ((core.dropWhile isBlank).dropWhile Char.isAlphanum)
      simp only [entryOf?] at hentry
      split at hentry
      · rename_i first name equals rest hfirst hrest
        split at hentry
        · rename_i hok
          obtain ⟨rfl, halpha, rfl⟩ := hok
          rw [hrest] at hgap'
          refine ⟨line.content.takeWhile isBlank, core.takeWhile isBlank,
            (core.dropWhile isBlank).takeWhile Char.isAlphanum,
            ((core.dropWhile isBlank).dropWhile Char.isAlphanum).takeWhile isBlank, rest,
            ?_, hall, hall, ⟨first, name, hfirst, halpha⟩, hall, hall⟩
          rw [hgap', hname, hgap, hlead]
        · cases hentry
      · cases hentry

theorem Shape.ofLine?_eq {line : Line} {lead gap name gap' rest : Text}
    (h : Shape line.content lead gap name gap' rest) :
    ofLine? line = some ⟨⟨Text.place (line.start + Text.byteLength (lead ++ '#' :: gap)) name,
        line.start + Text.byteLength (lead ++ ['#'])⟩,
      Text.trimBlanksEnd (rest.dropWhile isBlank),
      ⟨line.start + Text.byteLength (lead ++ '#' :: (gap ++ (name ++ (gap' ++
          '=' :: rest.takeWhile isBlank)))),
        line.start + Text.byteLength (lead ++ '#' :: (gap ++ (name ++ (gap' ++
          '=' :: rest.takeWhile isBlank)))) +
            Text.byteLength (Text.trimBlanksEnd (rest.dropWhile isBlank))⟩,
      ⟨line.start + Text.byteLength lead, line.stop⟩⟩ := by
  obtain ⟨first, more, hname, halpha⟩ := h.first
  have hblank : isBlank first = false := isBlank_of_isAlphanum (h.name first (by simp [hname]))
  obtain ⟨htake₁, hdrop₁⟩ := @Text.spanWhile isBlank lead
    ('#' :: (gap ++ (name ++ (gap' ++ '=' :: rest)))) h.lead (by rintro c ⟨⟩; rfl)
  obtain ⟨htake₂, hdrop₂⟩ := @Text.spanWhile isBlank gap (name ++ (gap' ++ '=' :: rest)) h.gap (by
    rw [hname]
    rintro c ⟨⟩
    exact hblank)
  obtain ⟨htake₃, hdrop₃⟩ := @Text.spanWhile Char.isAlphanum name (gap' ++ '=' :: rest) h.name (by
    intro c hc
    cases hgap : gap' with
    | nil =>
        rw [hgap] at hc
        cases Option.some.inj hc
        rfl
    | cons b gap =>
        rw [hgap] at hc
        cases Option.some.inj hc
        have hb := h.gap' c (by rw [hgap]; exact List.mem_cons_self)
        cases halnum : c.isAlphanum with
        | false => rfl
        | true =>
            rw [isBlank_of_isAlphanum halnum] at hb
            cases hb)
  obtain ⟨htake₄, hdrop₄⟩ := @Text.spanWhile isBlank gap' ('=' :: rest) h.gap' (by rintro c ⟨⟩; rfl)
  have hwhole : line.stop = line.start + Text.byteLength (lead ++ '#' :: (gap ++ (name ++ (gap' ++
      '=' :: rest.takeWhile isBlank)))) + Text.byteLength (rest.dropWhile isBlank) := by
    have hrest := congrArg Text.byteLength (@List.takeWhile_append_dropWhile _ isBlank rest)
    rw [Text.byteLength_append] at hrest
    rw [Line.stop, h.split]
    simp only [Text.byteLength_append, Text.byteLength_cons]
    omega
  unfold ofLine?
  rw [hwhole, h.split, Text.dropWhile_place, htake₁, hdrop₁, Text.place_cons]
  dsimp only
  rw [Text.dropWhile_place, htake₂, hdrop₂, Text.takeWhile_place Char.isAlphanum, htake₃,
    Text.dropWhile_place Char.isAlphanum, htake₃, hdrop₃, Text.dropWhile_place, htake₄, hdrop₄]
  have hstart : line.start + Text.byteLength (lead ++ '#' :: gap) =
      line.start + Text.byteLength lead + '#'.utf8Size + Text.byteLength gap := by
    simp only [Text.byteLength_append, Text.byteLength_cons]
    omega
  have hvalue : line.start + Text.byteLength (lead ++ '#' :: (gap ++ (name ++ (gap' ++
      '=' :: rest.takeWhile isBlank)))) =
      line.start + Text.byteLength lead + '#'.utf8Size + Text.byteLength gap + Text.byteLength name +
        Text.byteLength gap' + '='.utf8Size + Text.byteLength (rest.takeWhile isBlank) := by
    simp only [Text.byteLength_append, Text.byteLength_cons]
    omega
  rw [hvalue, hstart, hname, Text.place_cons, Text.place_cons]
  dsimp only
  have hanchor : (Placed.mk '#' (line.start + Text.byteLength lead)).stop =
      line.start + Text.byteLength (lead ++ ['#']) := by
    rw [Text.byteLength_append, ← Nat.add_assoc]
    rfl
  rw [if_pos ⟨rfl, halpha, rfl⟩, Text.dropWhile_place, Text.startOr_place, Text.text_place, hanchor]

theorem exists_name {line : Line} {d : Directive} (h : ofLine? line = some d) :
    ∃ a name rest, line.content = a ++ (name ++ rest) ∧ a ≠ [] ∧ name ≠ [] ∧
      (∀ c ∈ name, c.isAlphanum = true) ∧ d.name.text = name ∧
      d.name.span = ⟨line.start + Text.byteLength a, line.start + Text.byteLength (a ++ name)⟩ ∧
      ∀ line' : Line, line'.content = a ++ (Text.lowercase name ++ rest) →
        ∃ d', ofLine? line' = some d' ∧ d'.name.text = Text.lowercase name ∧ d'.value = d.value := by
  obtain ⟨lead, gap, name, gap', rest, hshape⟩ := exists_shape h
  have hd := hshape.ofLine?_eq
  rw [h] at hd
  cases hd
  obtain ⟨first, more, hname, halpha⟩ := hshape.first
  have hne : name ≠ [] := by simp [hname]
  refine ⟨lead ++ '#' :: gap, name, gap' ++ '=' :: rest, ?_, by simp, hne, hshape.name,
    Text.text_place _ _, ?_, ?_⟩
  · rw [hshape.split]
    simp
  · rw [Excerpt.span_place rfl hne, Text.byteLength_append _ name, ← Nat.add_assoc]
  · intro line' hline'
    have hshape' : Shape line'.content lead gap (Text.lowercase name) gap' rest := by
      refine ⟨by rw [hline']; simp, hshape.lead, hshape.gap,
        ⟨first.toLower, Text.lowercase more, by rw [hname]; rfl, ?_⟩, ?_, hshape.gap'⟩
      · rw [isAlpha_toLower, halpha]
      · intro c hc
        obtain ⟨b, hb, rfl⟩ := List.mem_map.mp hc
        rw [isAlphanum_toLower, hshape.name b hb]
    exact ⟨_, hshape'.ofLine?_eq, Text.text_place _ _, rfl⟩

theorem exists_value {line : Line} {d : Directive} (h : ofLine? line = some d) :
    ∃ a b, line.content = a ++ b ∧ a ≠ [] ∧ d.value = Text.trimBlanksEnd b ∧
      d.valueSpan = ⟨line.start + Text.byteLength a,
        line.start + Text.byteLength a + Text.byteLength d.value⟩ ∧
      ∀ {w : Text} (line' : Line), line'.content = a ++ w → (∀ c ∈ w.head?, isBlank c = false) →
        ∃ d', ofLine? line' = some d' ∧ d'.name.text = d.name.text ∧
          d'.value = Text.trimBlanksEnd w := by
  obtain ⟨lead, gap, name, gap', rest, hshape⟩ := exists_shape h
  have hd := hshape.ofLine?_eq
  rw [h] at hd
  cases hd
  refine ⟨lead ++ '#' :: (gap ++ (name ++ (gap' ++ '=' :: rest.takeWhile isBlank))),
    rest.dropWhile isBlank, ?_, by simp, rfl, rfl, ?_⟩
  · have hsplit := hshape.split
    rw [← @List.takeWhile_append_dropWhile _ isBlank rest] at hsplit
    rw [hsplit]
    simp
  · intro w line' hline' hw
    have hshape' : Shape line'.content lead gap name gap' (rest.takeWhile isBlank ++ w) :=
      ⟨by rw [hline']; simp, hshape.lead, hshape.gap, hshape.first, hshape.name, hshape.gap'⟩
    refine ⟨_, hshape'.ofLine?_eq, ?_, ?_⟩
    · rw [Excerpt.text, Excerpt.text, Text.text_place, Text.text_place]
    · rw [(Text.spanWhile (fun c hc => List.all_eq_true.mp List.all_takeWhile c hc) hw).2]

/-- A line without an equals sign is no directive. -/
theorem ofLine?_of_not_mem {line : Line} (h : '=' ∉ line.content) : ofLine? line = none := by
  cases hread : ofLine? line with
  | none => rfl
  | some d =>
      obtain ⟨_, _, _, _, _, hshape⟩ := exists_shape hread
      exact absurd (by rw [hshape.split]; simp) h

/-- A directive without a value ends with its equals sign, without which it is none, or with a blank
that a value can replace. -/
theorem exists_missing {line : Line} {d : Directive} (h : ofLine? line = some d) (hvalue : d.value = []) :
    ∃ a b, line.content = a ++ [b] ∧ a ≠ [] ∧ d.valueSpan = Span.empty line.stop ∧
      (b ≠ '=' → ∀ {c : Char} (line' : Line), line'.content = a ++ [c] → isBlank c = false →
        ∃ d', ofLine? line' = some d' ∧ d'.name.text = d.name.text ∧ d'.value = [c]) ∧
      (b = '=' → ∀ {c : Char} (line' : Line), line'.content = a ++ [c] → c ≠ '=' →
        ofLine? line' = none) := by
  obtain ⟨lead, gap, name, gap', rest, hshape⟩ := exists_shape h
  have hd := hshape.ofLine?_eq
  rw [h] at hd
  cases hd
  have hrest : rest.dropWhile isBlank = [] := by
    refine Classical.byContradiction fun hne => ?_
    have hhead := List.head_dropWhile_not isBlank hne
    rw [Text.trimBlanksEnd_eq_nil_iff.mp hvalue _ (List.head_mem hne)] at hhead
    cases hhead
  have htake : rest.takeWhile isBlank = rest := by
    have := @List.takeWhile_append_dropWhile _ isBlank rest
    rwa [hrest, List.append_nil] at this
  have hblank : ∀ c ∈ rest, isBlank c = true := by
    intro c hc
    rw [← htake] at hc
    exact List.all_eq_true.mp List.all_takeWhile c hc
  have hspan : Span.mk (line.start + Text.byteLength (lead ++ '#' :: (gap ++ (name ++ (gap' ++
      '=' :: rest.takeWhile isBlank))))) (line.start + Text.byteLength (lead ++ '#' :: (gap ++ (name ++
        (gap' ++ '=' :: rest.takeWhile isBlank)))) +
          Text.byteLength (Text.trimBlanksEnd (rest.dropWhile isBlank))) = Span.empty line.stop := by
    rw [htake, hrest, ← hshape.split]
    rfl
  rcases List.eq_nil_or_concat rest with rfl | ⟨blanks, b, rfl⟩
  · refine ⟨lead ++ '#' :: (gap ++ (name ++ gap')), '=', ?_, by simp, hspan, fun hne => absurd rfl hne,
      ?_⟩
    · rw [hshape.split]
      simp
    · intro _ c line' hline' hc
      refine ofLine?_of_not_mem ?_
      rw [hline']
      simp only [List.mem_append, List.mem_cons, List.not_mem_nil, or_false]
      rintro ((hmem | hmem | hmem | hmem | hmem) | hmem)
      · cases hshape.lead _ hmem
      · cases hmem
      · cases hshape.gap _ hmem
      · cases hshape.name _ hmem
      · cases hshape.gap' _ hmem
      · exact hc hmem.symm
  · refine ⟨lead ++ '#' :: (gap ++ (name ++ (gap' ++ '=' :: blanks))), b, ?_, by simp, hspan, ?_, ?_⟩
    · rw [hshape.split]
      simp
    · intro _ c line' hline' hc
      have hshape' : Shape line'.content lead gap name gap' (blanks ++ [c]) :=
        ⟨by rw [hline']; simp, hshape.lead, hshape.gap, hshape.first, hshape.name, hshape.gap'⟩
      refine ⟨_, hshape'.ofLine?_eq, ?_, ?_⟩
      · rw [Excerpt.text, Excerpt.text, Text.text_place, Text.text_place]
      · rw [(Text.spanWhile (fun e he => hblank e (by simp [he])) (by rintro e ⟨⟩; exact hc)).2]
        simp [Text.trimBlanksEnd, hc]
    · rintro rfl
      cases hblank '=' (by simp)

end Directive

end Dockerfile
