import Dockerfile.Proofs.Directive.Blocks
import Dockerfile.Proofs.Directive.Shape
import Dockerfile.Proofs.File.Patched

/-!
# Files in which a directive is changed

The name of a directive can be written in lower case, and its value replaced: all instructions stay
what they are unless another escape character is in force afterwards (`File.keepsAll_of_name`,
`File.revalues_of_value`). A missing value can be put in the place that is reported, unless that is
the equals sign: then the line is no directive any more (`File.replaced_of_missing`).
-/

namespace Dockerfile

theorem exists_append_of_forall₂ {α : Type} {r : α → α → Prop} {a b c : List α}
    (h : List.Forall₂ r (a ++ b) c) :
    ∃ a' b', c = a' ++ b' ∧ List.Forall₂ r a a' ∧ List.Forall₂ r b b' := by
  induction a generalizing c with
  | nil => exact ⟨[], c, rfl, .nil, h⟩
  | cons x a ih =>
      cases h with
      | cons hx h =>
          obtain ⟨a', b', rfl, ha, hb⟩ := ih h
          exact ⟨_ :: a', b', rfl, .cons hx ha, hb⟩

theorem Line.Same.content_eq {line line' : Line} (h : line.Same line') :
    line'.content = line.content := by
  rw [← line.indent_append_core, ← line'.indent_append_core, h.indent, h.core]

/-- The lines of a text in which the part from a place in one line to a place in the same line or a later
one is replaced. -/
theorem Text.Cut.exists_lines_replaced {text front rest front' rest' x y v z w : Text}
    {before before' tail after : List Line} {first last : Line}
    (h : Cut text front rest before (first :: tail))
    (h' : Cut text front' rest' before' (last :: after)) (hfirst : first.content = x ++ y)
    (hx : x ≠ []) (hlast : last.content = v ++ z) (hw : ∀ c ∈ w, isLineBreak c = false) :
    ∃ after', List.Forall₂ Line.Same after after' ∧
      lines (replaceSpan text ⟨byteLength (front ++ x), byteLength (front' ++ v)⟩ w) =
        before ++ ⟨byteLength front, x ++ (w ++ z), last.terminator⟩ :: after' := by
  obtain ⟨more, rfl, hclean, -, -⟩ := h.exists_next
  obtain ⟨more', rfl, hclean', -, hends⟩ := h'.exists_next
  have clean : ∀ c ∈ x ++ (w ++ z), isLineBreak c = false := by
    intro c hc
    simp only [List.mem_append] at hc
    rcases hc with hc | hc | hc
    · exact hclean c (by rw [hfirst]; exact List.mem_append_left _ hc)
    · exact hw c hc
    · exact hclean' c (by rw [hlast]; exact List.mem_append_right _ hc)
  obtain ⟨after', hfrom, hsame⟩ := exists_linesFrom_same clean
    (hends.imp_right fun hnext => ⟨hnext.1, _, hnext.2.lined⟩) (byteLength front)
  refine ⟨after', hsame, ?_⟩
  have htake : takeBytes (byteLength (front ++ x)) text = front ++ x := by
    rw [h.split, hfirst, List.append_assoc, ← List.append_assoc front, takeBytes_append_byteLength]
  have hdrop : dropBytes (byteLength (front' ++ v)) text = z ++ (last.terminator ++ more') := by
    rw [h'.split, hlast, List.append_assoc, ← List.append_assoc front', dropBytes_append_byteLength]
  have hsplit : replaceSpan text ⟨byteLength (front ++ x), byteLength (front' ++ v)⟩ w =
      front ++ ((x ++ (w ++ z)) ++ (last.terminator ++ more')) := by
    rw [replaceSpan, htake, hdrop]
    simp only [List.append_assoc]
  rw [hsplit, h.leading.eq, hfrom]
  intro hhead
  obtain ⟨c, x, rfl⟩ := List.exists_cons_of_ne_nil hx
  cases Option.some.inj hhead
  have hbreak := clean '\n' List.mem_cons_self
  cases hbreak

/-- An empty place at the end of a line is reported as the last character of the line. -/
theorem Text.Cut.widen_last {text front rest a : Text} {b : Char} {before tail : List Line} {line : Line}
    (h : Cut text front rest before (line :: tail)) (hcontent : line.content = a ++ [b]) :
    widen text (Span.empty line.stop) = ⟨byteLength (front ++ a), byteLength (front ++ (a ++ [b]))⟩ ∧
      slice text ⟨byteLength (front ++ a), byteLength (front ++ (a ++ [b]))⟩ = [b] ∧
      spanOf text (rangeOf text ⟨byteLength (front ++ a), byteLength (front ++ (a ++ [b]))⟩) =
        ⟨byteLength (front ++ a), byteLength (front ++ (a ++ [b]))⟩ := by
  obtain ⟨more, rfl, hclean, hbreak, -⟩ := h.exists_next
  have hb : isLineBreak b = false := hclean b (by rw [hcontent]; simp)
  have hsplit : text = (front ++ a) ++ b :: (line.terminator ++ more) := by
    rw [h.split, hcontent]
    simp
  have hstop : line.stop = byteLength (front ++ (a ++ [b])) := by
    rw [Line.stop, hcontent, h.start_eq, ← byteLength_append]
  have hsize : byteLength (front ++ (a ++ [b])) = byteLength (front ++ a) + b.utf8Size := by
    simp only [byteLength_append, byteLength_cons, byteLength_nil]
    omega
  have hbounds : isBoundary text line.stop = true := by
    refine isBoundary_iff.mpr ⟨front ++ (a ++ [b]), line.terminator ++ more, ?_, hstop.symm⟩
    rw [hsplit]
    simp
  have hempty := clampSpan_of_wellPlaced (.of_boundaries (Nat.le_refl _) hbounds hbounds :
    (Span.empty line.stop).WellPlaced text)
  have hfound := h.spanOf_rangeOf h (hcontent ▸ List.prefix_append a [b])
    (List.prefix_refl line.content) (by
      rw [hcontent, byteLength_append]
      omega)
  rw [← Line.stop, hstop, h.start_eq, ← byteLength_append] at hfound
  refine ⟨?_, ?_, hfound⟩
  · rw [hstop, hsize] at hempty ⊢
    rw [hsplit] at hempty ⊢
    exact widen_backward hempty hb hbreak
  · rw [hsize, hsplit]
    exact slice_append (front ++ a) [b] (line.terminator ++ more)

namespace File

/-- The directives of a text take these lines, and its body the lines behind them, if there is one. -/
structure Headed (text : Text) (taken lines : List Line) (found : List Directive) : Prop where
  lines_eq : Text.lines text = taken ++ lines
  blocks : Directive.Blocks taken found
  body : lines = [] ∨ (∀ d ∈ found.getLast?, d.isOpen = false) ∧
    ∃ line tail, lines = line :: tail ∧ Directive.ofLine? line = none

namespace Headed

variable {text text' : Text} {taken taken' lines lines' : List Line} {found found' : List Directive}

theorem exists_of_text (text : Text) : ∃ taken lines found, Headed text taken lines found := by
  obtain ⟨taken, found, last, htaken, hupto⟩ := Directive.exists_taken text
  obtain ⟨hblocks, rfl⟩ := htaken.blocks
  rcases hupto with hall | ⟨front, body, line, tail, hcut, hline, hclosed⟩
  · exact ⟨taken, [], found, by rw [hall, List.append_nil], hblocks, .inl rfl⟩
  · exact ⟨taken, line :: tail, found, hcut.lines_eq, hblocks, .inr ⟨hclosed, line, tail, rfl, hline⟩⟩

theorem bodied (h : Headed text taken lines found) (hne : lines ≠ []) :
    Bodied text taken lines found := by
  obtain ⟨hclosed, hfirst⟩ := h.body.resolve_left hne
  exact ⟨h.lines_eq, ⟨_, h.blocks.taken, hclosed⟩, hfirst⟩

theorem directives_eq (h : Headed text taken lines found) : (parse text).directives = found := by
  cases hlines : lines with
  | nil =>
      have hall := h.lines_eq
      rw [hlines, List.append_nil] at hall
      exact (parse_of_readAll ((Directive.readAll_of_taken h.blocks.taken).1 hall.symm)).1
  | cons line tail =>
      rw [hlines] at h
      exact (h.bodied (by simp)).directives_eq

theorem instructions_eq_nil (h : Headed text taken [] found) : (parse text).instructions = [] := by
  have hall := h.lines_eq
  rw [List.append_nil] at hall
  have hread := (Directive.readAll_of_taken h.blocks.taken).1 hall.symm
  rw [instructions_parse, (parse_of_readAll hread).2.2, Directive.bodyChars_byteLength]
  simp [Body.logicalLines]

/-- Other directives in front of the same body give the same instructions if they select the same
escape character. -/
theorem keepsAll (h : Headed text taken lines found) (h' : Headed text' taken' lines' found')
    (hsame : List.Forall₂ Line.Same lines lines')
    (hescape : (parse text').escape = (parse text).escape) : KeepsAll text text' := by
  cases hsame with
  | nil => rw [KeepsAll, h.instructions_eq_nil, h'.instructions_eq_nil]
  | cons hline hsame =>
      exact keepsAll_of_lines (h.bodied (by simp)) (h'.bodied (by simp)) hescape
        (Body.text_runs_congr (.cons hline hsame) rfl)

/-- Without the line of one of them, the directives in front of it are left. -/
theorem directives_of_none {before tail : List Line} {others : List Directive}
    (hbefore : Directive.Blocks before others) (hclosed : ∀ e ∈ others.getLast?, e.isOpen = false)
    {line : Line} (hline : Directive.ofLine? line = none)
    (hlines : Text.lines text = before ++ line :: tail) : (parse text).directives = others :=
  (Bodied.mk hlines ⟨_, hbefore.taken, hclosed⟩ ⟨line, tail, rfl, hline⟩).directives_eq

theorem exists_replaced {d : Directive} (hd : d ∈ (parse text).directives) :
    ∃ before line more after first others behind, Text.lines text = before ++ line :: (more ++ after) ∧
      (parse text).directives = others ++ d :: behind ∧ Directive.ofLine? line = some first ∧
      Directive.Extends first more d ∧
      (∀ {text' line' more' after' first' d'}, Directive.ofLine? line' = some first' →
        Directive.Extends first' more' d' → (d.isOpen = false → d'.isOpen = false) →
        List.Forall₂ Line.Same after after' →
        Text.lines text' = before ++ line' :: (more' ++ after') →
        ((parse text').escape = (parse text).escape → KeepsAll text text') ∧
          ∃ behind', (parse text').directives = others ++ d' :: behind' ∧
            behind'.map Directive.entry = behind.map Directive.entry) ∧
      ∀ {text' line' tail}, Directive.ofLine? line' = none →
        Text.lines text' = before ++ line' :: tail → (parse text').directives = others := by
  obtain ⟨taken, lines, found, h⟩ := exists_of_text text
  have hfound := h.directives_eq
  rw [hfound] at hd
  obtain ⟨before, line, more, after, first, others, behind, rfl, rfl, hread, hextends, hbefore, hclosed,
    hblocks, hreplace⟩ := h.blocks.exists_of_mem hd
  refine ⟨before, line, more, after ++ lines, first, others, behind, ?_, hfound, hread, hextends, ?_,
    fun hline hlines => directives_of_none hbefore hclosed hline hlines⟩
  · rw [h.lines_eq]
    simp
  · intro text' line' more' tail' first' d' hread' hextends' hopen hsame hlines'
    obtain ⟨after', lines', rfl, hafter, hbody⟩ := exists_append_of_forall₂ hsame
    obtain ⟨behind', hblocks', hentries⟩ := hblocks.congr
      (hafter.flip.imp fun _ _ hline => hline.content_eq)
    have hnil : after' = [] ↔ after = [] := by
      rw [← List.length_eq_zero_iff, ← List.length_eq_zero_iff, hafter.length_eq]
    have h' : Headed text' (before ++ line' :: (more' ++ after')) lines' (others ++ d' :: behind') := by
      refine ⟨by rw [hlines']; simp, hreplace hread' hextends' hopen hblocks' hnil, ?_⟩
      rcases h.body with rfl | ⟨hclosed, l, tail, rfl, hfirst⟩
      · exact .inl (List.forall₂_nil_left_iff.mp hbody)
      · refine .inr ⟨?_, ?_⟩
        · rw [List.getLast?_append_cons, List.getLast?_cons] at hclosed ⊢
          rintro e ⟨⟩
          have hclosed := hclosed _ rfl
          have hlast := congrArg List.getLast? hentries
          rw [List.getLast?_map, List.getLast?_map] at hlast
          cases hend : behind.getLast? with
          | none =>
              rw [hend] at hclosed hlast
              rw [Option.map_eq_none_iff.mp hlast]
              exact hopen hclosed
          | some e =>
              rw [hend] at hclosed hlast
              obtain ⟨e', he', hentry⟩ := Option.map_eq_some_iff.mp hlast
              rw [he']
              exact (Directive.isOpen_congr hentry).trans hclosed
        · cases hbody with
          | cons hline hbody =>
              exact ⟨_, _, rfl, Directive.ofLine?_eq_none_congr (by rw [hline.content_eq]) hfirst⟩
    exact ⟨h.keepsAll h' hbody, behind', h'.directives_eq, hentries⟩

end Headed

/-- Directives of which one selects the escape character that another selected. -/
theorem escapeUnder_replaced {others behind behind' : List Directive} {d d' : Directive}
    (hescape : d'.escapeChar? = d.escapeChar?)
    (hbehind : behind'.map Directive.entry = behind.map Directive.entry) :
    escapeUnder (others ++ d' :: behind') = escapeUnder (others ++ d :: behind) := by
  have hselected := selectedEscape?_congr hbehind
  unfold selectedEscape? at hselected
  rw [escapeUnder, escapeUnder, selectedEscape?, selectedEscape?, List.findSome?_append,
    List.findSome?_append, List.findSome?_cons, List.findSome?_cons, hescape, hselected]

/-- The directive has another value, and all others say the same; so do all instructions, unless
another escape character is in force. -/
structure Revalues (text : Text) (d : Directive) (value : Text) (text' : Text) : Prop where
  directives : ∃ others behind, (parse text).directives = others ++ d :: behind ∧
    (parse text').directives.map Directive.entry =
      others.map Directive.entry ++ (d.name.text, value) :: behind.map Directive.entry
  keepsAll : (parse text').escape = (parse text).escape → KeepsAll text text'

/-- A value ends in a line behind which there are only the other directives and the body. -/
theorem exists_end_of_value {text a b : Text} {before more after : List Line} {line : Line}
    {first d : Directive} (hlines : Text.lines text = before ++ line :: (more ++ after))
    (hcontent : line.content = a ++ b) (hfirst : first.value = Text.trimBlanksEnd b)
    (hspan : first.valueSpan = ⟨line.start + Text.byteLength a,
      line.start + Text.byteLength a + Text.byteLength first.value⟩)
    (hextends : Directive.Extends first more d) (hvalue : d.value ≠ []) :
    ∃ front rest v z before' last, Text.Cut text front rest before' (last :: after) ∧
      last.content = v ++ z ∧ (∀ c ∈ z, isBlank c = true) ∧
      d.valueSpan = ⟨line.start + Text.byteLength a, last.start + Text.byteLength v⟩ ∧
      line.start + Text.byteLength a < last.start + Text.byteLength v := by
  have hblanks : ∀ content : Text, ∀ c ∈ (content.reverse.takeWhile isBlank).reverse,
      isBlank c = true :=
    fun content c hc => List.all_eq_true.mp List.all_takeWhile c (List.mem_reverse.mp hc)
  by_cases hmore : more = []
  · subst hmore
    cases hextends
    obtain ⟨front, rest, hcut⟩ := Text.Cut.exists_of_lines hlines
    have htrim := Text.trimBlanksEnd_append_blanks b
    rw [← hfirst] at htrim
    refine ⟨front, rest, a ++ first.value, _, before, line, hcut, ?_, hblanks b, ?_, ?_⟩
    · rw [hcontent, List.append_assoc, htrim]
    · rw [hspan, Text.byteLength_append, Nat.add_assoc]
    · have := Text.byteLength_pos_of_ne_nil hvalue
      rw [Text.byteLength_append]
      omega
  · obtain ⟨init, last, rfl, hlast⟩ := hextends.exists_last hmore
    have hordered := (lined_lines text).pairwise
    have hlines' : Text.lines text = (before ++ line :: init) ++ last :: after := by
      rw [hlines]
      simp
    rw [hlines'] at hordered
    obtain ⟨front, rest, hcut⟩ := Text.Cut.exists_of_lines hlines'
    refine ⟨front, rest, Text.trimBlanksEnd last.content, _, _, last, hcut,
      (Text.trimBlanksEnd_append_blanks _).symm, hblanks last.content, by rw [hlast, hspan], ?_⟩
    have hbehind := (List.pairwise_append.mp hordered).2.2 line (by simp) last List.mem_cons_self
    have hsize := congrArg Text.byteLength hcontent
    rw [Text.byteLength_append] at hsize
    unfold Line.stop at hbehind
    omega

variable {text : Text} {d : Directive} (hd : d ∈ (parse text).directives)
include hd

/-- A directive with its name in lower case leaves all instructions as they are. -/
theorem keepsAll_of_name : d.name.span.isEmpty = false ∧
    Text.spanOf text (Text.rangeOf text d.name.span) = d.name.span ∧
    KeepsAll text (Text.replaceSpan text d.name.span (Text.lowercase (Text.slice text d.name.span))) := by
  obtain ⟨before, line, more, after, first, others, behind, hlines, hfound, hread, hextends, hreplace,
    hdropped⟩ := Headed.exists_replaced hd
  obtain ⟨front, rest, hcut⟩ := Text.Cut.exists_of_lines hlines
  obtain ⟨a, name, tail, hcontent, ha, hname, halnum, htext, hspan, hrenamed⟩ :=
    Directive.exists_name hread
  have hlt : Text.byteLength a < Text.byteLength (a ++ name) := by
    have := Text.byteLength_pos_of_ne_nil hname
    rw [Text.byteLength_append]
    omega
  rw [hextends.name_eq, hspan]
  refine ⟨decide_eq_false (by dsimp only; omega), ?_, ?_⟩
  · refine hcut.spanOf_rangeOf hcut (hcontent ▸ List.prefix_append a _) ?_ (by omega)
    rw [hcontent, ← List.append_assoc]
    exact List.prefix_append _ _
  · have hslice : Text.slice text ⟨line.start + Text.byteLength a,
        line.start + Text.byteLength (a ++ name)⟩ = name := by
      obtain ⟨more, rfl, -, -, -⟩ := hcut.exists_next
      have hsplit := hcut.split
      rw [hcontent, List.append_assoc, List.append_assoc, ← List.append_assoc front] at hsplit
      rw [hsplit, hcut.start_eq, Text.byteLength_append a, ← Nat.add_assoc, ← Text.byteLength_append,
        Text.slice_append]
    have hclean : ∀ c ∈ Text.lowercase name, isLineBreak c = false := by
      intro c hc
      obtain ⟨b, hb, rfl⟩ := List.mem_map.mp hc
      rw [isLineBreak_toLower]
      obtain ⟨_, rfl, hclean, -, -⟩ := hcut.exists_next
      exact hclean b (by rw [hcontent]; exact List.mem_append_right _ (List.mem_append_left _ hb))
    obtain ⟨tail', hsame, hlines'⟩ := hcut.exists_lines_replaced hcut hcontent ha
      (by rw [hcontent, List.append_assoc] : line.content = (a ++ name) ++ tail) hclean
    obtain ⟨more', after', rfl, hmore, hafter⟩ := exists_append_of_forall₂ hsame
    obtain ⟨first', hread', hname', hvalue⟩ := hrenamed
      ⟨Text.byteLength front, a ++ (Text.lowercase name ++ tail), line.terminator⟩ rfl
    obtain ⟨d', hextends', hvalue', hnames⟩ := hextends.congr
      (hmore.flip.imp fun _ _ hline => hline.content_eq) hvalue
    rw [hslice, hcut.start_eq, ← Text.byteLength_append, ← Text.byteLength_append]
    obtain ⟨hkeeps, behind', hfound', hbehind⟩ := hreplace hread' hextends' (fun hopen => by
      rw [Directive.isOpen_of_value hvalue', hopen]) hafter hlines'
    refine hkeeps ?_
    rw [File.escape, File.escape, hfound, hfound']
    refine escapeUnder_replaced ?_ hbehind
    rw [Directive.escapeChar?, Directive.escapeChar?, Directive.isEscape, Directive.isEscape, hvalue',
      hnames, hname', hextends.name_eq, htext, Text.sameIgnoringCase, Text.sameIgnoringCase,
      Text.lowercase_lowercase]

theorem revalues_of_value (hvalue : d.value ≠ []) : d.valueSpan.isEmpty = false ∧
    Text.spanOf text (Text.rangeOf text d.valueSpan) = d.valueSpan ∧
    ∀ {c : Char}, isBlank c = false → isLineBreak c = false →
      Revalues text d [c] (Text.replaceSpan text d.valueSpan [c]) := by
  obtain ⟨before, line, more, after, first, others, behind, hlines, hfound, hread, hextends, hreplace,
    hdropped⟩ := Headed.exists_replaced hd
  obtain ⟨front, rest, hcut⟩ := Text.Cut.exists_of_lines hlines
  obtain ⟨a, b, hcontent, ha, hfirst, hspan, hrevalued⟩ := Directive.exists_value hread
  obtain ⟨front', rest', v, z, before', last, hcut', hlast, hz, hspan, hlt⟩ :=
    exists_end_of_value hlines hcontent hfirst hspan hextends hvalue
  rw [hspan]
  refine ⟨decide_eq_false (by dsimp only; omega), hcut.spanOf_rangeOf hcut'
    (hcontent ▸ List.prefix_append a b) (hlast ▸ List.prefix_append v z) (by omega), ?_⟩
  · intro c hc hclean
    rw [hcut.start_eq, hcut'.start_eq, ← Text.byteLength_append, ← Text.byteLength_append]
    obtain ⟨after', hsame, hlines'⟩ := hcut.exists_lines_replaced hcut' hcontent ha hlast
      (w := [c]) (fun e he => by rw [List.mem_singleton.mp he]; exact hclean)
    obtain ⟨d', hread', hname, hvalue'⟩ := hrevalued (w := [c] ++ z)
      ⟨Text.byteLength front, a ++ ([c] ++ z), last.terminator⟩ rfl (by rintro e ⟨⟩; exact hc)
    have hsingle : d'.value = [c] := by
      rw [hvalue', Text.trimBlanksEnd, List.reverse_append,
        List.dropWhile_append_of_pos fun e he => hz e (List.mem_reverse.mp he)]
      simp [hc]
    have hclosed : d'.isOpen = false := by
      rw [Directive.isOpen, hsingle]
      rfl
    obtain ⟨hkeeps, behind', hfound', hbehind⟩ :=
      hreplace hread' (.nil d') (fun _ => hclosed) hsame hlines'
    refine ⟨⟨others, behind, hfound, ?_⟩, hkeeps⟩
    rw [hfound', List.map_append, List.map_cons, hbehind, Directive.entry, hname, hsingle,
      hextends.name_eq]

/-- A single character can be put in the place that is reported of a missing value. If that place is
the equals sign, the directives end there. -/
theorem replaced_of_missing (hvalue : d.value = []) :
    Text.spanOf text (Text.rangeOf text (Text.widen text d.valueSpan)) =
        Text.widen text d.valueSpan ∧
      ∀ {c : Char}, isBlank c = false → isLineBreak c = false →
        (Text.slice text (Text.widen text d.valueSpan) ≠ ['='] →
          Revalues text d [c] (Text.replaceSpan text (Text.widen text d.valueSpan) [c])) ∧
        (Text.slice text (Text.widen text d.valueSpan) = ['='] → c ≠ '=' →
          ∃ others behind, (parse text).directives = others ++ d :: behind ∧
            (parse (Text.replaceSpan text (Text.widen text d.valueSpan) [c])).directives = others) := by
  obtain ⟨before, line, more, after, first, others, behind, hlines, hfound, hread, hextends, hreplace,
    hdropped⟩ := Headed.exists_replaced hd
  obtain ⟨rfl, rfl⟩ := hextends.eq_of_missing hvalue
  obtain ⟨front, rest, hcut⟩ := Text.Cut.exists_of_lines hlines
  obtain ⟨a, b, hcontent, ha, hspan, hrevalued, hundone⟩ := Directive.exists_missing hread hvalue
  obtain ⟨hwiden, hslice, hfound'⟩ := hcut.widen_last hcontent
  rw [hspan, hwiden, hslice]
  refine ⟨hfound', fun {c} hc hclean => ?_⟩
  obtain ⟨after', hsame, hlines'⟩ := hcut.exists_lines_replaced hcut hcontent ha
    (by rw [hcontent, List.append_nil] : line.content = (a ++ [b]) ++ [])
    (w := [c]) (fun e he => by rw [List.mem_singleton.mp he]; exact hclean)
  refine ⟨fun hne => ?_, fun heq hequals => ⟨others, behind, hfound, ?_⟩⟩
  · obtain ⟨d', hread', hname, hvalue'⟩ := hrevalued (by simpa using hne)
      ⟨Text.byteLength front, a ++ ([c] ++ []), line.terminator⟩ (by simp) hc
    have hclosed : d'.isOpen = false := by
      rw [Directive.isOpen, hvalue']
      rfl
    obtain ⟨hkeeps, behind', hfound', hbehind⟩ :=
      hreplace hread' (.nil d') (fun _ => hclosed) hsame hlines'
    refine ⟨⟨others, behind, hfound, ?_⟩, hkeeps⟩
    rw [hfound', List.map_append, List.map_cons, hbehind, Directive.entry, hname, hvalue']
  · exact hdropped (hundone (by simpa using heq)
      ⟨Text.byteLength front, a ++ ([c] ++ []), line.terminator⟩ (by simp) hequals) hlines'

end File

end Dockerfile
