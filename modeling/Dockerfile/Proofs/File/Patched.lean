import Dockerfile.Proofs.Body.EmptyLines
import Dockerfile.Proofs.Body.Restyled
import Dockerfile.Proofs.Directive.Entry
import Dockerfile.Proofs.File.Reading
import Dockerfile.Proofs.File.Respelled
import Dockerfile.Proofs.Text.Selection

/-!
# Files in which one instruction is changed

A part of an instruction is replaced. All other instructions say what they said before, in the same
order, if the line that results has content and goes on exactly if the last line of the part did
(`File.keepsOthers_of_line`).
-/

namespace Dockerfile

def Instruction.wording (inst : Instruction) : Text × List Text :=
  (inst.keyword.text, inst.arguments.map Argument.text)

/-- The first of two parts of a text that is not blank starts the core of the text. -/
theorem Text.head?_core_append (a b : Text) :
    ((a ++ b).dropWhile isBlank).head? =
      (a.dropWhile isBlank).head?.or (b.dropWhile isBlank).head? := by
  rw [List.dropWhile_append]
  cases a.dropWhile isBlank <;> rfl

/-- The lines behind a line do not depend on what it says, but for the places where they start. -/
theorem Text.exists_linesFrom_same {content terminator rest : Text} {after : List Line}
    (clean : ∀ c ∈ content, isLineBreak c = false)
    (ends : after = [] ∧ terminator = [] ∧ rest = [] ∨
      IsTerminator terminator rest ∧ ∃ start, Lined start rest after) (start : Nat) :
    ∃ after', linesFrom start start (content ++ (terminator ++ rest)) =
        ⟨start, content, terminator⟩ :: after' ∧ List.Forall₂ Line.Same after after' := by
  rcases ends with ⟨rfl, rfl, rfl⟩ | ⟨ends, k, hlined⟩
  · refine ⟨[], ?_, .nil⟩
    rw [List.append_nil, List.append_nil, linesFrom_last clean]
  · exact ⟨_, linesFrom_line clean ends _ _, hlined.same _⟩

/-- Behind a line there are the lines of whatever text follows, but for a line feed that then belongs to
the carriage return at its end. -/
theorem Text.exists_linesFrom_joined {content terminator rest : Text}
    (clean : ∀ c ∈ content, isLineBreak c = false) (ends : IsTerminator terminator rest)
    (rest' : Text) (k : Nat) :
    ∃ terminator' lines start, linesFrom k k (content ++ (terminator ++ rest')) =
        ⟨k, content, terminator'⟩ :: lines ∧ terminator' ≠ [] ∧
      (Lined start rest' lines ∨ ∃ more, rest' = '\n' :: more ∧ Lined start more lines) := by
  by_cases hkept : IsTerminator terminator rest'
  · exact ⟨terminator, _, _, linesFrom_line clean hkept k k, ends.ne_nil, .inl (lined_linesFrom _ _)⟩
  · obtain ⟨rfl, more, rfl⟩ := ends.lost hkept
    have hjoined : content ++ (['\r'] ++ '\n' :: more) = content ++ (['\r', '\n'] ++ more) := rfl
    rw [hjoined]
    exact ⟨['\r', '\n'], _, _, linesFrom_line clean (.inl rfl) k k, by simp,
      .inr ⟨more, rfl, lined_linesFrom _ _⟩⟩

/-- What stands between a place in one line and a place in the same line or a later one. -/
theorem Text.Cut.exists_between {text front body front' body' x c v z : Text}
    {before before' tail after : List Line} {first last : Line}
    (h : Cut text front body before (first :: tail))
    (h' : Cut text front' body' before' (last :: after)) (hx : first.content = x ++ c)
    (hz : last.content = v ++ z)
    (hle : first.start + byteLength x ≤ last.start + byteLength v) :
    ∃ y rest, body = x ++ (y ++ (z ++ (last.terminator ++ rest))) ∧
      byteLength (front ++ (x ++ y)) = last.start + byteLength v ∧
      (∀ c ∈ z, isLineBreak c = false) ∧
      (after = [] ∧ last.terminator = [] ∧ rest = [] ∨
        IsTerminator last.terminator rest ∧ ∃ start, Lined start rest after) := by
  obtain ⟨_, hbody, -, -, -⟩ := h.exists_next
  obtain ⟨rest, hbody', hclean, -, hends⟩ := h'.exists_next
  have hfront : front ++ x <+: text := by
    rw [h.split, hbody, hx, List.append_assoc]
    exact (List.prefix_append_right_inj _).mpr (List.prefix_append x _)
  have hsplit : text = (front' ++ v) ++ (z ++ (last.terminator ++ rest)) := by
    rw [h'.split, hbody', hz]
    simp only [List.append_assoc]
  obtain ⟨y, hy⟩ := prefix_of_byteLength_le hfront ⟨_, hsplit.symm⟩ (by
    rwa [byteLength_append, byteLength_append, ← h.start_eq, ← h'.start_eq])
  refine ⟨y, rest, ?_, ?_, ?_, hends.imp_right fun h => ⟨h.1, _, h.2.lined⟩⟩
  · rw [h.split, ← hy] at hsplit
    simpa only [List.append_assoc, List.append_cancel_left_eq] using hsplit
  · rw [← List.append_assoc, hy, byteLength_append, ← h'.start_eq]
  · exact fun d hd => hclean d (by rw [hz]; exact List.mem_append_right _ hd)

theorem Style.isNamed_text {escape : Char} {span : Span} (style : Style escape span)
    (chars : List Placed) : Text.isNamed (style.text chars) = Text.isNamed (Placed.text chars) := by
  rw [Text.isNamed, Text.isNamed, style.takeWhile_text fun _ _ => style.not_isBlank_of_mem_write,
    style.isEmpty_text, ← Placed.text_takeWhile, Placed.text, List.isEmpty_map]

theorem File.isBlank_escape (text : Text) : isBlank (parse text).escape = false :=
  (Bool.or_eq_false_iff.mp (escapeUnder_content _).1).1

theorem Directive.ofLine?_of_isComment {line : Line} (h : line.isComment = false) :
    ofLine? line = none := by
  refine ofLine?_eq_none fun c hc => ?_
  rintro rfl
  rw [show line.isComment = true from beq_iff_eq.mpr hc] at h
  cases h

namespace File

/-! ## The lines of the body -/

/-- The text has these directives, in the lines `taken`, and its body in the lines behind them. -/
structure Bodied (text : Text) (taken lines : List Line) (found : List Directive) : Prop where
  lines_eq : Text.lines text = taken ++ lines
  directives : ∃ last, Directive.Taken none taken found last ∧ ∀ d ∈ last, d.isOpen = false
  first : ∃ line tail, lines = line :: tail ∧ Directive.ofLine? line = none

namespace Bodied

variable {text : Text} {taken lines : List Line} {found : List Directive}

theorem readAll_eq (h : Bodied text taken lines found) :
    ∃ front body, Text.Cut text front body taken lines ∧
      Directive.readAll text = (found, Text.byteLength front) := by
  obtain ⟨hlines, ⟨last, htaken, hclosed⟩, line, tail, rfl, hline⟩ := h
  obtain ⟨front, body, hcut⟩ := Text.Cut.exists_of_lines hlines
  refine ⟨front, body, hcut, ?_⟩
  rw [Directive.readAll, hlines, htaken.readFrom_append hclosed hline, hcut.start_eq]

theorem directives_eq (h : Bodied text taken lines found) : (parse text).directives = found := by
  obtain ⟨front, body, -, hread⟩ := h.readAll_eq
  exact (parse_of_readAll hread).1

theorem chars_eq (h : Bodied text taken lines found) :
    (logicalLines text).map Instruction.chars = Body.runs (parse text).escape none lines := by
  obtain ⟨front, body, hcut, hread⟩ := h.readAll_eq
  exact chars_logicalLines hcut (by rw [hread])

theorem traces_eq (h : Bodied text taken lines found) :
    (logicalLines text).map Body.Trace.ofLine = Body.traces (parse text).escape none lines := by
  obtain ⟨front, body, hcut, hread⟩ := h.readAll_eq
  have hchars := Directive.bodyChars_append front body
  rw [← hcut.split] at hchars
  rw [logicalLines, hread, hchars]
  exact Body.traces_logicalLines (escapeUnder_content _).1 _ hcut.lined

theorem comments_eq (h : Bodied text taken lines found) :
    (parse text).comments.map Comment.text =
      found.map (fun d => (d.comment text).text) ++ lines.filterMap Line.comment? := by
  obtain ⟨front, body, hcut, hread⟩ := h.readAll_eq
  have hchars := Directive.bodyChars_append front body
  rw [← hcut.split] at hchars
  rw [(parse_of_readAll hread).2.1, List.map_append, List.map_map, hchars,
    Body.comments_read (escapeUnder_content _).1 _ hcut.lined]
  rfl

/-- The comments depend on nothing but the directives and the comment lines. -/
theorem comments_congr {text' : Text} {lines' : List Line} (h : Bodied text taken lines found)
    (h' : Bodied text' taken lines' found)
    (hlines : lines'.filterMap Line.comment? = lines.filterMap Line.comment?) :
    (parse text').comments.map Comment.text = (parse text).comments.map Comment.text := by
  obtain ⟨front, body, hcut, hread⟩ := h.readAll_eq
  obtain ⟨front', body', hcut', -⟩ := h'.readAll_eq
  obtain rfl : front' = front := hcut'.front_eq.trans hcut.front_eq.symm
  have hfound : found.map (Directive.comment text') = found.map (Directive.comment text) := by
    rw [hcut.split] at hread ⊢
    rw [hcut'.split]
    exact Directive.comment_append hread body'
  rw [h.comments_eq, h'.comments_eq, hlines]
  congr 1
  simpa using congrArg (List.map Comment.text) hfound

theorem congr {text' : Text} {line : Line} {tail : List Line} (h : Bodied text taken lines found)
    (hlines : Text.lines text' = taken ++ line :: tail) (hline : Directive.ofLine? line = none) :
    Bodied text' taken (line :: tail) found :=
  ⟨hlines, h.directives, line, tail, rfl, hline⟩

/-- The lines of the body in front of a place are the same whatever text is put there, but for a line
feed that then belongs to the carriage return in front of it. -/
theorem exists_behind {before : List Line} {front rest : Text}
    (h : Bodied text taken (before ++ lines) found) (hbefore : before ≠ [])
    (hcut : Text.Cut text front rest (taken ++ before) lines) (rest' : Text) :
    ∃ before' after start, List.Forall₂ Line.Same before before' ∧
      Bodied (front ++ rest') taken (before' ++ after) found ∧
      (Lined start rest' after ∨ ∃ more, rest' = '\n' :: more ∧ Lined start more after) := by
  obtain ⟨pre, previous, rfl⟩ : ∃ pre previous, before = pre ++ [previous] :=
    ⟨_, _, (List.dropLast_append_getLast hbefore).symm⟩
  have hlines := hcut.lines_eq
  rw [← List.append_assoc, List.append_assoc, List.singleton_append] at hlines
  obtain ⟨lead, body, hlead⟩ := Text.Cut.exists_of_lines hlines
  obtain ⟨own, rfl, hclean, -, ⟨hnil, -⟩ | ⟨ends, hnext⟩⟩ := hlead.exists_next
  · exact absurd hnil hcut.lined.ne_nil
  have hfront : front = lead ++ (previous.content ++ previous.terminator) := by
    rw [hcut.front_eq, hnext.front_eq, List.append_assoc]
  obtain ⟨terminator, after, start, hfrom, hterm, hafter⟩ :=
    Text.exists_linesFrom_joined hclean ends rest' (Text.byteLength lead)
  refine ⟨pre ++ [⟨Text.byteLength lead, previous.content, terminator⟩], after, start, ?_,
    ⟨?_, h.directives, ?_⟩, hafter⟩
  · refine List.rel_append (List.forall₂_same.mpr fun l _ => .of_content rfl rfl) (.cons ?_ .nil)
    refine .of_content rfl ?_
    rw [List.isEmpty_eq_false_iff.mpr hterm, List.isEmpty_eq_false_iff.mpr ends.ne_nil]
  · have hhead : ∀ more, (previous.content ++ (previous.terminator ++ more)).head? =
        (previous.content ++ previous.terminator).head? := by
      intro more
      rw [← List.append_assoc, List.head?_append_of_ne_nil _ (by simp [ends.ne_nil])]
    have hwhole : Text.lines (lead ++ (previous.content ++ (previous.terminator ++ rest'))) = _ :=
      hlead.leading.eq (by rw [hhead, hhead]; exact id)
    rw [hfrom] at hwhole
    rw [hfront]
    simpa only [List.append_assoc, List.singleton_append] using hwhole
  · obtain ⟨line, more, hcons, hfirst⟩ := h.first
    cases pre with
    | nil =>
        obtain ⟨rfl, -⟩ := List.cons.inj hcons
        refine ⟨_, _, rfl, Directive.ofLine?_eq_none_congr ?_ hfirst⟩
        rfl
    | cons l pre =>
        obtain ⟨rfl, -⟩ := List.cons.inj hcons
        exact ⟨_, _, rfl, hfirst⟩

theorem exists_of_mem {inst : Instruction} (h : inst ∈ (parse text).instructions) :
    ∃ taken lines found, Bodied text taken lines found := by
  obtain ⟨taken, found, last, htaken, hupto⟩ := Directive.exists_taken text
  rcases hupto with hall | ⟨front, body, line, tail, hcut, hline, hclosed⟩
  · have hread := (Directive.readAll_of_taken htaken).1 hall
    rw [instructions_parse, (parse_of_readAll hread).2.2, Directive.bodyChars_byteLength] at h
    simp [Body.logicalLines] at h
  · exact ⟨taken, line :: tail, found, hcut.lines_eq, ⟨last, htaken, hclosed⟩, line, tail, rfl, hline⟩

end Bodied

/-! ## From logical lines to instructions -/

/-- All instructions but `inst` are still there, in the same order and with the same words. -/
def KeepsOthers (text : Text) (inst : Instruction) (text' : Text) : Prop :=
  ∃ front middle rest, (parse text).instructions = front ++ inst :: rest ∧
    (parse text').instructions.map Instruction.wording =
      front.map Instruction.wording ++ (middle ++ rest.map Instruction.wording)

/-- In the place of `inst` there is an instruction that keeps this text, and all others are still there,
in the same order and with the same words. -/
def Exchanges (text : Text) (inst : Instruction) (kept text' : Text) : Prop :=
  (parse text').escape = (parse text).escape ∧
    ∃ front rest front' inst' rest', (parse text).instructions = front ++ inst :: rest ∧
      (parse text').instructions = front' ++ inst' :: rest' ∧ Placed.text inst'.chars = kept ∧
      front'.map Instruction.wording = front.map Instruction.wording ∧
      rest'.map Instruction.wording = rest.map Instruction.wording

theorem Exchanges.keepsOthers {text text' kept : Text} {inst : Instruction}
    (h : Exchanges text inst kept text') : KeepsOthers text inst text' := by
  obtain ⟨-, front, rest, front', inst', rest', hlines, hlines', -, hfront, hrest⟩ := h
  refine ⟨front, [inst'.wording], rest, hlines, ?_⟩
  rw [hlines', List.map_append, List.map_cons, hfront, hrest]
  rfl

/-- All instructions are still there, in the same order and with the same words. -/
def KeepsAll (text text' : Text) : Prop :=
  (parse text').instructions.map Instruction.wording =
    (parse text).instructions.map Instruction.wording

section Wording

variable {text text' : Text}

theorem wording_congr {line line' : Instruction} (h : line ∈ logicalLines text)
    (h' : line' ∈ logicalLines text') (hescape : (parse text').escape = (parse text).escape)
    (htext : Placed.text line'.chars = Placed.text line.chars) :
    line'.isNamed = line.isNamed ∧ line'.wording = line.wording := by
  obtain ⟨hnamed, hreading⟩ := line_reading h
  obtain ⟨hnamed', hreading'⟩ := line_reading h'
  refine ⟨by rw [hnamed', hnamed, htext], ?_⟩
  show ((Instruction.reading _).keyword, (Instruction.reading _).arguments) =
    ((Instruction.reading _).keyword, (Instruction.reading _).arguments)
  rw [hreading', hreading, htext, hescape]
  rfl

theorem wordings_congr (hescape : (parse text').escape = (parse text).escape)
    {lines lines' : List Instruction} (h : lines ⊆ logicalLines text)
    (h' : lines' ⊆ logicalLines text')
    (htext : (lines'.map Instruction.chars).map Placed.text =
      (lines.map Instruction.chars).map Placed.text) :
    (lines'.filter Instruction.isNamed).map Instruction.wording =
      (lines.filter Instruction.isNamed).map Instruction.wording := by
  induction lines generalizing lines' with
  | nil =>
      obtain rfl : lines' = [] := by simpa using htext
      rfl
  | cons line lines ih =>
      cases lines' with
      | nil => simp at htext
      | cons line' lines' =>
          obtain ⟨hhead, htail⟩ := List.cons.inj htext
          obtain ⟨hnamed, hwording⟩ := wording_congr (h List.mem_cons_self) (h' List.mem_cons_self)
            hescape hhead
          have ih := ih (fun l hl => h (List.mem_cons_of_mem _ hl))
            (fun l hl => h' (List.mem_cons_of_mem _ hl)) htail
          simp only [List.filter_cons, hnamed]
          split
          · rw [List.map_cons, List.map_cons, hwording, ih]
          · exact ih

/-- Logical lines with the same characters give the same instructions. -/
theorem keepsAll_of_lines {taken taken' lines lines' : List Line} {found found' : List Directive}
    (h : Bodied text taken lines found) (h' : Bodied text' taken' lines' found')
    (hescape : (parse text').escape = (parse text).escape)
    (hruns : (Body.runs (parse text).escape none lines').map Placed.text =
      (Body.runs (parse text).escape none lines).map Placed.text) : KeepsAll text text' := by
  rw [KeepsAll, instructions_parse, instructions_parse]
  refine wordings_congr hescape (List.Subset.refl _) (List.Subset.refl _) ?_
  rw [h'.chars_eq, h.chars_eq, hescape, hruns]

theorem exists_split_of_chars {closed later : List (List Placed)} {inst : Instruction} {p : Placed}
    (hinst : inst ∈ (parse text).instructions) (hp : p ∈ inst.chars)
    (hchars : (logicalLines text).map Instruction.chars = closed ++ inst.chars :: later) :
    ∃ front rest, logicalLines text = front ++ inst :: rest ∧ inst.isNamed = true ∧
      front.map Instruction.chars = closed ∧ rest.map Instruction.chars = later := by
  obtain ⟨front, behind, hlines, hfront, hbehind⟩ := List.map_eq_append_iff.mp hchars
  obtain ⟨line, rest, rfl, hline, hrest⟩ := List.map_eq_cons_iff.mp hbehind
  rw [instructions_parse] at hinst
  obtain ⟨hmem, hnamed⟩ := List.mem_filter.mp hinst
  obtain rfl : line = inst := by
    refine eq_of_mem_chars ?_ hmem (hline ▸ hp) hp
    rw [hlines]
    exact List.mem_append_right _ List.mem_cons_self
  exact ⟨front, rest, hlines, hnamed, hfront, hrest⟩

section Exchange

variable (hescape : (parse text').escape = (parse text).escape)
  {closed later later' : List (List Placed)} {inst : Instruction} {p : Placed}
  (hinst : inst ∈ (parse text).instructions) (hp : p ∈ inst.chars)
  (hchars : (logicalLines text).map Instruction.chars = closed ++ inst.chars :: later)
  (hlater : later'.map Placed.text = later.map Placed.text)
include hescape hinst hp hchars hlater

theorem exists_others_of_chars {middle : List (List Placed)}
    (hchars' : (logicalLines text').map Instruction.chars = closed ++ (middle ++ later')) :
    ∃ front rest front' others rest', (parse text).instructions = front ++ inst :: rest ∧
      (parse text').instructions = front' ++ (others.filter Instruction.isNamed ++ rest') ∧
      others ⊆ logicalLines text' ∧ others.map Instruction.chars = middle ∧
      front'.map Instruction.wording = front.map Instruction.wording ∧
      rest'.map Instruction.wording = rest.map Instruction.wording := by
  obtain ⟨front, rest, hlines, hnamed, hfront, hrest⟩ := exists_split_of_chars hinst hp hchars
  obtain ⟨front', behind', hlines', hfront', hbehind'⟩ := List.map_eq_append_iff.mp hchars'
  obtain ⟨others, rest', rfl, hothers, hrest'⟩ := List.map_eq_append_iff.mp hbehind'
  refine ⟨front.filter Instruction.isNamed, rest.filter Instruction.isNamed,
    front'.filter Instruction.isNamed, others, rest'.filter Instruction.isNamed, ?_, ?_, ?_, hothers,
    ?_, ?_⟩
  · rw [instructions_parse, hlines, List.filter_append, List.filter_cons, if_pos hnamed]
  · rw [instructions_parse, hlines', List.filter_append, List.filter_append]
  · rw [hlines']
    exact fun l hl => List.mem_append_right _ (List.mem_append_left _ hl)
  · refine wordings_congr hescape ?_ ?_ (by rw [hfront', hfront])
    · rw [hlines]
      exact List.subset_append_left _ _
    · rw [hlines']
      exact List.subset_append_left _ _
  · refine wordings_congr hescape ?_ ?_ (by rw [hrest', hrest, hlater])
    · rw [hlines]
      exact fun l hl => List.mem_append_right _ (List.mem_cons_of_mem _ hl)
    · rw [hlines']
      exact fun l hl => List.mem_append_right _ (List.mem_append_right _ hl)

theorem keepsOthers_of_chars {middle : List (List Placed)}
    (hchars' : (logicalLines text').map Instruction.chars = closed ++ (middle ++ later')) :
    KeepsOthers text inst text' := by
  obtain ⟨front, rest, front', others, rest', hlines, hlines', -, -, hfront, hrest⟩ :=
    exists_others_of_chars hescape hinst hp hchars hlater hchars'
  refine ⟨front, (others.filter Instruction.isNamed).map Instruction.wording, rest, hlines, ?_⟩
  rw [hlines', List.map_append, List.map_append, hfront, hrest]

theorem exchanges_of_chars {run : List Placed} (hnamed : (Placed.text run).isNamed = true)
    (hchars' : (logicalLines text').map Instruction.chars = closed ++ run :: later') :
    Exchanges text inst (Placed.text run) text' := by
  rw [← List.singleton_append] at hchars'
  obtain ⟨front, rest, front', others, rest', hlines, hlines', hothers, hrun, hfront, hrest⟩ :=
    exists_others_of_chars hescape hinst hp hchars hlater hchars'
  obtain ⟨inst', rfl, rfl⟩ := List.map_eq_singleton_iff.mp hrun
  rw [← (line_reading (hothers List.mem_cons_self)).1] at hnamed
  rw [List.filter_cons_of_pos hnamed] at hlines'
  exact ⟨hescape, front, rest, front', inst', rest', hlines, hlines', rfl, hfront, hrest⟩

end Exchange

/-- All other instructions are kept if logical lines change in one place, and none is lost behind it that
has a keyword. -/
theorem keepsOthers_of_texts (hescape : (parse text').escape = (parse text).escape)
    {closed dropped later : List (List Placed)} {inst : Instruction} {p : Placed}
    (hinst : inst ∈ (parse text).instructions) (hp : p ∈ inst.chars)
    (hchars : (logicalLines text).map Instruction.chars =
      closed ++ inst.chars :: (dropped ++ later))
    (hdropped : ∀ run ∈ dropped, (Placed.text run).isNamed = false) {middle : List Text}
    (htexts : ((logicalLines text').map Instruction.chars).map Placed.text =
      closed.map Placed.text ++ (middle ++ later.map Placed.text)) : KeepsOthers text inst text' := by
  obtain ⟨front, tail, hlines, hnamed, rfl, htail⟩ := exists_split_of_chars hinst hp hchars
  obtain ⟨gone, rest, rfl, rfl, rfl⟩ := List.map_eq_append_iff.mp htail
  rw [List.map_map] at htexts
  obtain ⟨front', behind', hlines', hfront', hbehind'⟩ := List.map_eq_append_iff.mp htexts
  obtain ⟨others, rest', rfl, -, hrest'⟩ := List.map_eq_append_iff.mp hbehind'
  have hgone : gone.filter Instruction.isNamed = [] := by
    refine List.filter_eq_nil_iff.mpr fun line hline => ?_
    have hmem : line ∈ logicalLines text := by simp [hlines, hline]
    rw [(line_reading hmem).1, hdropped _ (List.mem_map_of_mem hline)]
    decide
  have hsame : ∀ {lines lines' : List Instruction}, lines ⊆ logicalLines text →
      lines' ⊆ logicalLines text' →
      lines'.map (Placed.text ∘ Instruction.chars) = (lines.map Instruction.chars).map Placed.text →
      (lines'.filter Instruction.isNamed).map Instruction.wording =
        (lines.filter Instruction.isNamed).map Instruction.wording := by
    intro lines lines' h h' htext
    exact wordings_congr hescape h h' (by rw [List.map_map]; exact htext)
  refine ⟨front.filter Instruction.isNamed, (others.filter Instruction.isNamed).map Instruction.wording,
    rest.filter Instruction.isNamed, ?_, ?_⟩
  · rw [instructions_parse, hlines, List.filter_append, List.filter_cons, if_pos hnamed,
      List.filter_append, hgone, List.nil_append]
  · rw [instructions_parse, hlines', List.filter_append, List.filter_append, List.map_append,
      List.map_append]
    congr 1
    · exact hsame (by simp [hlines]) (by simp [hlines']) hfront'
    · congr 1
      exact hsame (by rw [hlines]; intro l hl; simp [hl]) (by rw [hlines']; intro l hl; simp [hl])
        hrest'

end Wording

/-! ## A part of an instruction -/

/-- The part of an instruction from one of its characters to another, and the lines that hold it: it
begins behind `x` in the line `first` and ends in front of `z` in the line `last`. -/
structure Stretch (text : Text) (inst : Instruction) (p q : Placed) where
  taken : List Line
  before : List Line
  middle : List Line
  after : List Line
  first : Line
  last : Line
  found : List Directive
  front : Text
  x : Text
  y : Text
  z : Text
  rest : Text
  split : text = front ++ (x ++ (y ++ (z ++ (last.terminator ++ rest))))
  margin : ∀ c ∈ front.getLast?, isLineBreak c = true
  bodied : Bodied text taken (before ++ (middle ++ last :: after)) found
  head : (middle ++ [last]).head? = some first
  leading : Text.Leading front (x ++ (y ++ (z ++ (last.terminator ++ rest)))) (taken ++ before)
  lined : Lined (Text.byteLength front) (x ++ (y ++ (z ++ (last.terminator ++ rest))))
    (middle ++ last :: after)
  start : p.offset = Text.byteLength (front ++ x)
  stop : q.stop = Text.byteLength (front ++ (x ++ y))
  first_content : ∃ c, first.content = x ++ p.char :: c
  first_comment : first.isComment = false
  last_content : ∃ v, last.content = v ++ q.char :: z ∧
    q.offset = last.start + Text.byteLength v
  clean : ∀ c ∈ x ++ z, isLineBreak c = false
  ends : after = [] ∧ last.terminator = [] ∧ rest = [] ∨
    IsTerminator last.terminator rest ∧ ∃ start, Lined start rest after

/-- Characters of an instruction, the first no later than the second, stand in lines of the body. -/
theorem exists_lines_of_mem {text : Text} {inst : Instruction}
    (hinst : inst ∈ (parse text).instructions) {p q : Placed} (hp : p ∈ inst.chars)
    (hq : q ∈ inst.chars) (hpq : p.offset ≤ q.offset) :
    ∃ taken before middle after first last found,
      Bodied text taken (before ++ (middle ++ last :: after)) found ∧
      (middle ++ [last]).head? = some first ∧ first.isComment = false ∧
      p ∈ Text.place first.start first.content ∧ q ∈ Text.place last.start last.content := by
  obtain ⟨taken, lines, found, hbodied⟩ := Bodied.exists_of_mem hinst
  have hrun : inst.chars ∈ Body.runs (parse text).escape none lines := by
    rw [← hbodied.chars_eq]
    exact List.mem_map_of_mem (mem_logicalLines hinst)
  have hline : ∀ r ∈ inst.chars, ∃ l ∈ lines, l.isComment = false ∧
      r ∈ Text.place l.start l.content := by
    intro r hr
    rcases Body.mem_runs hrun hr with ⟨kept, hkept, -⟩ | ⟨l, hl, hcomment, hmem⟩
    · cases hkept
    · obtain ⟨tail, htail⟩ := Body.kept_prefix (parse text).escape l
      refine ⟨l, hl, hcomment, ?_⟩
      rw [← l.indent_append_core, ← htail, ← List.append_assoc, Text.place_append]
      exact List.mem_append_left _ hmem
  obtain ⟨first, hfirst, hcomment, hpfirst⟩ := hline p hp
  obtain ⟨last, hlast, -, hqlast⟩ := hline q hq
  obtain ⟨before, behind, rfl⟩ := List.append_of_mem hfirst
  have hordered := (lined_lines text).pairwise
  rw [hbodied.lines_eq] at hordered
  rcases List.mem_append.mp hlast with hlast | hlast
  · have hbefore := (List.pairwise_append.mp (List.pairwise_append.mp hordered).2.1).2.2
    have := hbefore last hlast first List.mem_cons_self
    have := (Text.offset_of_mem_place hpfirst).1
    have : q.stop ≤ last.stop := (Text.offset_of_mem_place hqlast).2
    have := q.offset_lt_stop
    omega
  rcases List.mem_cons.mp hlast with rfl | hlast
  · exact ⟨taken, before, [], behind, last, last, found, hbodied, rfl, hcomment, hpfirst, hqlast⟩
  · obtain ⟨middle, after, rfl⟩ := List.append_of_mem hlast
    exact ⟨taken, before, first :: middle, after, first, last, found, hbodied, rfl, hcomment, hpfirst,
      hqlast⟩

theorem exists_cons_of_head? {middle : List Line} {first last : Line}
    (h : (middle ++ [last]).head? = some first) (after : List Line) :
    ∃ tail, middle ++ last :: after = first :: tail := by
  refine List.head?_eq_some_iff.mp ?_
  rw [← h, List.head?_append, List.head?_append]
  rfl

theorem exists_stretch {text : Text} {inst : Instruction} (hinst : inst ∈ (parse text).instructions)
    {p q : Placed} (hp : p ∈ inst.chars) (hq : q ∈ inst.chars) (hpq : p.offset ≤ q.offset) :
    Nonempty (Stretch text inst p q) := by
  obtain ⟨taken, before, middle, after, first, last, found, hbodied, hhead, hcomment, hpfirst, hqlast⟩ :=
    exists_lines_of_mem hinst hp hq hpq
  obtain ⟨tail, htail⟩ := exists_cons_of_head? hhead after
  have hlines := hbodied.lines_eq
  rw [← List.append_assoc, ← List.append_assoc] at hlines
  obtain ⟨front', body', hcut'⟩ := Text.Cut.exists_of_lines hlines
  rw [List.append_assoc, htail] at hlines
  obtain ⟨front, body, hcut⟩ := Text.Cut.exists_of_lines hlines
  obtain ⟨_, -, hclean, -, -⟩ := hcut.exists_next
  obtain ⟨x, c, hx, hpx⟩ := Text.exists_split_of_mem_place hpfirst
  obtain ⟨v, z, hz, hqv⟩ := Text.exists_split_of_mem_place hqlast
  have hstop : last.start + Text.byteLength (v ++ [q.char]) = q.stop := by
    simp only [Text.byteLength_append, Text.byteLength_cons, Text.byteLength_nil, Placed.stop,
      Placed.size, hqv]
    omega
  obtain ⟨y, rest, hbody, hsize, hclean', hends⟩ := hcut.exists_between hcut' hx
    (by rw [hz, List.append_assoc]; rfl : last.content = (v ++ [q.char]) ++ z) (by
      have := q.offset_lt_stop
      omega)
  exact ⟨{
    taken, before, middle, after, first, last, found, front, x, y, z, rest
    split := hbody ▸ hcut.split
    margin := hcut.margin
    bodied := hbodied
    head := hhead
    leading := hbody ▸ hcut.leading
    lined := htail ▸ hbody ▸ hcut.lined
    start := by rw [hpx, hcut.start_eq, Text.byteLength_append]
    stop := by rw [hsize, hstop]
    first_content := ⟨c, hx⟩
    first_comment := hcomment
    last_content := ⟨v, hz, hqv⟩
    clean := by
      intro d hd
      rcases List.mem_append.mp hd with hd | hd
      · exact hclean d (by rw [hx]; exact List.mem_append_left _ hd)
      · exact hclean' d hd
    ends := hends }⟩

namespace Stretch

variable {text : Text} {inst : Instruction} {p q : Placed}

theorem exists_tail (h : Stretch text inst p q) :
    ∃ tail, h.middle ++ h.last :: h.after = h.first :: tail :=
  exists_cons_of_head? h.head h.after

theorem first_start (h : Stretch text inst p q) : h.first.start = Text.byteLength h.front := by
  have hlined := h.lined
  obtain ⟨tail, htail⟩ := h.exists_tail
  rw [htail] at hlined
  obtain ⟨_, -, hstart, -⟩ := hlined.exists_head
  exact hstart

theorem first_range (h : Stretch text inst p q) :
    h.first.start ≤ p.offset ∧ p.stop ≤ h.first.stop := by
  obtain ⟨c, hc⟩ := h.first_content
  have hp := h.start
  have hstart := h.first_start
  rw [Text.byteLength_append] at hp
  simp only [Line.stop, hc, Text.byteLength_append, Text.byteLength_cons, Placed.stop, Placed.size]
  omega

theorem last_range (h : Stretch text inst p q) :
    h.last.start ≤ q.offset ∧ q.stop ≤ h.last.stop := by
  obtain ⟨v, hv, hqv⟩ := h.last_content
  simp only [Line.stop, hv, Text.byteLength_append, Text.byteLength_cons, Placed.stop, Placed.size]
  omega

section Runs

variable (h : Stretch text inst p q) (hinst : inst ∈ (parse text).instructions) (hp : p ∈ inst.chars)
  (hq : q ∈ inst.chars)

def opened : Option (List Placed) :=
  Body.standing (parse text).escape none h.before

theorem lines_ordered : (h.before ++ (h.middle ++ h.last :: h.after)).Pairwise
    fun a b => a.stop < b.start := by
  have hordered := (lined_lines text).pairwise
  rw [h.bodied.lines_eq] at hordered
  exact (List.pairwise_append.mp hordered).2.1

include hinst in
theorem chars_mem_runs : inst.chars ∈ Body.runs (parse text).escape none
    (h.before ++ (h.middle ++ h.last :: h.after)) := by
  rw [← h.bodied.chars_eq]
  exact List.mem_map_of_mem (mem_logicalLines hinst)

include hinst hp in
theorem first_adds : h.first.Adds (parse text).escape p := by
  refine Body.adds_of_mem_runs h.lines_ordered (h.chars_mem_runs hinst) hp ?_ h.first_range
  obtain ⟨tail, htail⟩ := h.exists_tail
  rw [htail]
  exact List.mem_append_right _ List.mem_cons_self

include hinst hq in
theorem last_adds : h.last.Adds (parse text).escape q :=
  Body.adds_of_mem_runs h.lines_ordered (h.chars_mem_runs hinst) hq (by simp) h.last_range

theorem lt_of_adds_before {l : Line} (hl : l ∈ h.before) {r : Placed}
    (hadds : l.Adds (parse text).escape r) : r.offset < p.offset := by
  obtain ⟨tail, htail⟩ := h.exists_tail
  have := (List.pairwise_append.mp h.lines_ordered).2.2 l hl h.first (htail ▸ List.mem_cons_self)
  have := Body.stop_le_of_mem_kept hadds.kept
  have := h.first_range
  have := r.offset_lt_stop
  omega

theorem le_of_adds_after {l : Line} (hl : l ∈ h.after) {r : Placed}
    (hadds : l.Adds (parse text).escape r) : q.stop ≤ r.offset := by
  have hordered := (List.pairwise_append.mp h.lines_ordered).2.1
  have := (List.pairwise_cons.mp (List.pairwise_append.mp hordered).2.1).1 l hl
  have := Body.stop_le_of_mem_kept hadds.kept
  have := h.last_range
  omega

include hinst hp hq in
/-- What the logical lines keep, and where the instruction is among them. -/
theorem runs_eq :
    (∃ kept, Body.extended? (parse text).escape
        (Body.standing (parse text).escape h.opened h.middle) h.last = some kept ∧
      inst.chars = kept ++
        Body.further (parse text).escape (h.last.goesOn (parse text).escape) h.after) ∧
      (logicalLines text).map Instruction.chars =
        Body.ended (parse text).escape none h.before ++ inst.chars ::
          Body.behind (parse text).escape (h.last.goesOn (parse text).escape) h.after := by
  rw [h.bodied.chars_eq]
  exact Body.runs_of_mem h.lines_ordered (h.chars_mem_runs hinst) hp h.head h.first_range hq
    h.last_range

end Runs

/-! ## One line in place of the stretch -/

/-- The line that results if the stretch, and what stands in front of it behind `x`, is replaced. -/
def line (h : Stretch text inst p q) (x w : Text) : Line :=
  ⟨Text.byteLength h.front, x ++ (w ++ h.z), h.last.terminator⟩

def patched (h : Stretch text inst p q) (x w : Text) : Text :=
  h.front ++ (x ++ (w ++ (h.z ++ (h.last.terminator ++ h.rest))))

theorem exists_after (h : Stretch text inst p q) {x w : Text}
    (clean : ∀ c ∈ x ++ (w ++ h.z), isLineBreak c = false) :
    ∃ after, Text.linesFrom (Text.byteLength h.front) (Text.byteLength h.front)
        (x ++ (w ++ (h.z ++ (h.last.terminator ++ h.rest)))) = h.line x w :: after ∧
      List.Forall₂ Line.Same h.after after := by
  have hassoc : x ++ (w ++ (h.z ++ (h.last.terminator ++ h.rest))) =
      (x ++ (w ++ h.z)) ++ (h.last.terminator ++ h.rest) := by
    simp only [List.append_assoc]
  rw [hassoc]
  exact Text.exists_linesFrom_same clean h.ends _

theorem exists_bodied (h : Stretch text inst p q) {x w : Text}
    (clean : ∀ c ∈ x ++ (w ++ h.z), isLineBreak c = false)
    (hline : (h.line x w).isContent = true ∨
      h.last.terminator = [] ∧ (h.line x w).core = []) :
    ∃ after, List.Forall₂ Line.Same h.after after ∧
      Bodied (h.patched x w) h.taken (h.before ++ h.line x w :: after) h.found := by
  obtain ⟨after, hfrom, hsame⟩ := h.exists_after clean
  refine ⟨after, hsame, ?_⟩
  have hhead : (x ++ (w ++ (h.z ++ (h.last.terminator ++ h.rest)))).head? = some '\n' →
      (h.x ++ (h.y ++ (h.z ++ (h.last.terminator ++ h.rest)))).head? = some '\n' := by
    intro hnewline
    exfalso
    have hassoc : x ++ (w ++ (h.z ++ (h.last.terminator ++ h.rest))) =
        (x ++ (w ++ h.z)) ++ (h.last.terminator ++ h.rest) := by
      simp only [List.append_assoc]
    rw [hassoc] at hnewline
    cases hcontent : x ++ (w ++ h.z) with
    | nil =>
        have hcore : (h.line x w).core = [] := by
          rw [Line.core, line, hcontent]
          rfl
        rcases hline with hline | ⟨hterm, -⟩
        · simp [Line.isContent, hcore] at hline
        · rcases h.ends with ⟨-, -, hrest⟩ | ⟨ends, -⟩
          · simp [hcontent, hterm, hrest] at hnewline
          · exact ends.ne_nil hterm
    | cons c content =>
        rw [hcontent] at hnewline clean
        have hbreak := clean c List.mem_cons_self
        cases Option.some.inj hnewline
        simp [isLineBreak] at hbreak
  have hlines : Text.lines (h.patched x w) =
      h.taken ++ (h.before ++ h.line x w :: after) := by
    rw [patched, h.leading.eq hhead, hfrom, List.append_assoc]
  have hnone : Directive.ofLine? (h.line x w) = none := by
    refine Directive.ofLine?_of_isComment ?_
    rcases hline with hcontent | ⟨-, hcore⟩
    · unfold Line.isContent at hcontent
      simp_all
    · rw [Line.isComment, hcore]
      rfl
  obtain ⟨line, tail, hcons, hfirst⟩ := h.bodied.first
  cases hbefore : h.before with
  | nil =>
      rw [hbefore] at hlines
      exact h.bodied.congr hlines hnone
  | cons l before =>
      rw [hbefore] at hlines hcons
      obtain ⟨rfl, -⟩ := List.cons.inj hcons
      exact h.bodied.congr hlines hfirst

/-- If a line that is passed over is put in place of the stretch, the lines in front and behind are the
same. That line itself may be gone with its line feed, which then belongs to a carriage return. -/
theorem exists_bodied_skipped (h : Stretch text inst p q) (hbefore : h.before ≠ [])
    (hskip : (h.line [] []).isSkipped = true) :
    ∃ before gone after, List.Forall₂ Line.Same h.before before ∧ (∀ l ∈ gone, l.isSkipped = true) ∧
      List.Forall₂ Line.Same h.after after ∧
      Bodied (h.patched [] []) h.taken (before ++ (gone ++ after)) h.found := by
  have hclean : ∀ c ∈ h.z, isLineBreak c = false := fun c hc => h.clean c (List.mem_append_right _ hc)
  obtain ⟨before, lines, start, hsame, hbodied, hbehind⟩ := h.bodied.exists_behind hbefore
    ⟨h.split, h.leading, h.lined, h.margin⟩ (h.z ++ (h.last.terminator ++ h.rest))
  obtain ⟨gone, after, rfl, hgone, hafter⟩ : ∃ gone after, lines = gone ++ after ∧
      (∀ l ∈ gone, l.isSkipped = true) ∧ List.Forall₂ Line.Same h.after after := by
    rcases hbehind with hlined | ⟨more, hfeed, hlined⟩
    · obtain ⟨after, hafter, hsame⟩ := Text.exists_linesFrom_same hclean h.ends start
      rw [hlined.linesFrom_eq] at hafter
      exact ⟨[⟨start, h.z, h.last.terminator⟩], after, hafter,
        fun l hl => List.mem_singleton.mp hl ▸ hskip, hsame⟩
    · -- Only the line feed was left of the line, so nothing is left of it now.
      have hz : h.z = [] := by
        cases hz : h.z with
        | nil => rfl
        | cons c z =>
            rw [hz] at hfeed
            have hbreak := hclean c (hz ▸ List.mem_cons_self)
            rw [(List.cons.inj hfeed).1] at hbreak
            cases hbreak
      rw [hz, List.nil_append] at hfeed
      rcases h.ends with ⟨-, hnil, hrest⟩ | ⟨hends, k, hafter⟩
      · simp [hnil, hrest] at hfeed
      · obtain ⟨-, rfl⟩ := hends.eq_feed hfeed
        exact ⟨[], lines, rfl, by simp, hlined.linesFrom_eq ▸ hafter.same start⟩
  exact ⟨before, gone, after, hsame, hgone, hafter, hbodied⟩

theorem escape_eq (h : Stretch text inst p q) {text' : Text} {lines : List Line}
    (hbodied : Bodied text' h.taken lines h.found) : (parse text').escape = (parse text).escape := by
  rw [File.escape, File.escape, hbodied.directives_eq, h.bodied.directives_eq]

theorem exists_runs_patched (h : Stretch text inst p q) {x w : Text}
    (clean : ∀ c ∈ x ++ (w ++ h.z), isLineBreak c = false)
    (hcontent : (h.line x w).isContent = true) :
    ∃ kept after, Body.extended? (parse text).escape h.opened (h.line x w) = some kept ∧
      List.Forall₂ Line.Same h.after after ∧
      (parse (h.patched x w)).escape = (parse text).escape ∧
      (logicalLines (h.patched x w)).map Instruction.chars =
        Body.ended (parse text).escape none h.before ++
          (kept ++ Body.further (parse text).escape ((h.line x w).goesOn (parse text).escape) after) ::
            Body.behind (parse text).escape ((h.line x w).goesOn (parse text).escape) after := by
  obtain ⟨after, hsame, hbodied⟩ := h.exists_bodied clean (.inl hcontent)
  have hescape := h.escape_eq hbodied
  obtain ⟨kept, hkept⟩ := Option.isSome_iff_exists.mp
    (@Body.isSome_extended?_of_isContent (parse text).escape h.opened _ hcontent)
  refine ⟨kept, after, hkept, hsame, hescape, ?_⟩
  rw [hbodied.chars_eq, hescape, Body.runs_append]
  exact congrArg _ (Body.runs_cons hkept after)

/-- All other instructions are kept if the new line has content, or ends the file, and goes on if the
last line of the stretch did. -/
theorem keepsOthers_of_line (h : Stretch text inst p q)
    (hinst : inst ∈ (parse text).instructions) (hp : p ∈ inst.chars) (hq : q ∈ inst.chars)
    {x w : Text} (clean : ∀ c ∈ x ++ (w ++ h.z), isLineBreak c = false)
    (hline : (h.line x w).isContent = true ∨ h.last.terminator = [] ∧ (h.line x w).core = [])
    (hgoes : (h.line x w).goesOn (parse text).escape = h.last.goesOn (parse text).escape) :
    KeepsOthers text inst (h.patched x w) := by
  have hchars := (h.runs_eq hinst hp hq).2
  rcases hline with hcontent | hline
  · obtain ⟨kept, after, -, hsame, hescape, hchars'⟩ := h.exists_runs_patched clean hcontent
    rw [hgoes, ← List.singleton_append] at hchars'
    exact keepsOthers_of_chars hescape hinst hp hchars (Body.text_behind_congr hsame _) hchars'
  · obtain ⟨after, hsame, hbodied⟩ := h.exists_bodied clean (.inr hline)
    have hescape := h.escape_eq hbodied
    obtain ⟨hafter, -, -⟩ | ⟨ends, -⟩ := h.ends
    · rw [hafter] at hsame
      have hchars' := hbodied.chars_eq
      rw [hescape, Body.runs_append, List.forall₂_nil_left_iff.mp hsame,
        ← List.append_nil (Body.runs _ _ _)] at hchars'
      refine keepsOthers_of_chars hescape hinst hp hchars ?_ hchars'
      rw [hafter, Body.behind_nil]
    · exact absurd hline.1 ends.ne_nil

section Swallowed

variable (h : Stretch text inst p q) (hinst : inst ∈ (parse text).instructions) (hp : p ∈ inst.chars)
  (hq : q ∈ inst.chars)
  (hlost : h.last.goesOn (parse text).escape = false →
    ∀ run ∈ (Body.runs (parse text).escape none h.after).head?, (Placed.text run).isNamed = false)
include hinst hp hq hlost

/-- All other instructions are kept if the instruction goes on now where it did not, and what it takes in
has no keyword. -/
theorem keepsOthers_of_texts {text' : Text} (hescape : (parse text').escape = (parse text).escape)
    {middle : List Text} (htexts : ((logicalLines text').map Instruction.chars).map Placed.text =
      (Body.ended (parse text).escape none h.before).map Placed.text ++
        (middle ++ (Body.behind (parse text).escape true h.after).map Placed.text)) :
    KeepsOthers text inst text' := by
  have hlined : h.after = [] ∨ ∃ start text, Lined start text h.after :=
    h.ends.imp And.left fun ends => ⟨_, _, ends.2.choose_spec⟩
  obtain ⟨dropped, hbehind, hdropped⟩ := Body.exists_lost hlined hlost
  refine File.keepsOthers_of_texts hescape hinst hp ?_ hdropped htexts
  rw [← hbehind]
  exact (h.runs_eq hinst hp hq).2

theorem keepsOthers_of_goesOn {x w : Text} (clean : ∀ c ∈ x ++ (w ++ h.z), isLineBreak c = false)
    (hcontent : (h.line x w).isContent = true)
    (hgoes : (h.line x w).goesOn (parse text).escape = true) :
    KeepsOthers text inst (h.patched x w) := by
  obtain ⟨kept, after, -, hsame, hescape, hchars⟩ := h.exists_runs_patched clean hcontent
  have htexts := congrArg (List.map Placed.text) hchars
  rw [hgoes, List.map_append, List.map_cons, Body.text_behind_congr hsame,
    ← List.singleton_append] at htexts
  exact h.keepsOthers_of_texts hinst hp hq hlost hescape htexts

theorem keepsOthers_of_skipped (hopened : h.opened.isSome = true)
    (hskip : (h.line [] []).isSkipped = true) : KeepsOthers text inst (h.patched [] []) := by
  obtain ⟨kept, hkept⟩ := Option.isSome_iff_exists.mp hopened
  have hbefore : h.before ≠ [] := by
    intro hnil
    rw [opened, hnil] at hkept
    cases hkept
  obtain ⟨before, gone, after, hbefore, hgone, hafter, hbodied⟩ := h.exists_bodied_skipped hbefore hskip
  have hescape := h.escape_eq hbodied
  have hsame : List.Forall₂ Line.Same (h.before ++ (gone ++ h.after)) (before ++ (gone ++ after)) :=
    List.rel_append hbefore
      (List.rel_append (List.forall₂_same.mpr fun l _ => .of_content rfl rfl) hafter)
  have htexts := @Body.text_runs_congr (parse text).escape none none _ _ hsame rfl
  have hruns : Body.runs (parse text).escape none (h.before ++ (gone ++ h.after)) =
      Body.ended (parse text).escape none h.before ++
        ([kept ++ Body.keptFrom (parse text).escape h.after] ++
          Body.behind (parse text).escape true h.after) := by
    rw [Body.runs_append, show Body.standing _ none h.before = _ from hkept,
      Body.runs_of_skipped hgone, Body.runs_some]
    rfl
  rw [hruns, List.map_append, List.map_append] at htexts
  rw [← hescape, ← hbodied.chars_eq, hescape] at htexts
  exact h.keepsOthers_of_texts hinst hp hq hlost hescape htexts

end Swallowed

theorem head_ne_mark (h : Stretch text inst p q) :
    ∀ c ∈ (h.x.dropWhile isBlank).head?, c ≠ '#' := by
  rintro c hc rfl
  obtain ⟨content, hcontent⟩ := h.first_content
  have hcomment : h.first.isComment = true := by
    rw [Line.isComment, Line.core, hcontent, Text.head?_core_append, Option.mem_def.mp hc]
    rfl
  rw [h.first_comment] at hcomment
  cases hcomment

theorem clean_line (h : Stretch text inst p q) {x w : Text} (hx : x <+: h.x)
    (hw : ∀ c ∈ w, isLineBreak c = false) : ∀ c ∈ x ++ (w ++ h.z), isLineBreak c = false := by
  intro c hc
  simp only [List.mem_append] at hc
  rcases hc with hc | hc | hc
  · exact h.clean c (List.mem_append_left _ (hx.subset hc))
  · exact hw c hc
  · exact h.clean c (List.mem_append_right _ hc)

theorem isContent_line (h : Stretch text inst p q) {x w : Text}
    (hhead : ∀ c ∈ ((x ++ (w ++ h.z)).dropWhile isBlank).head?, c ≠ '#')
    (hcore : (h.line x w).core ≠ []) : (h.line x w).isContent = true := by
  have hcomment : (h.line x w).isComment = false := by
    refine beq_eq_false_iff_ne.mpr fun hmark => ?_
    exact hhead '#' hmark rfl
  simp [Line.isContent, hcomment, hcore]

/-- The new line goes on if the last line of the stretch did, unless what is put there ends with the
escape character. -/
theorem goesOn_line (h : Stretch text inst p q) (hinst : inst ∈ (parse text).instructions)
    (hq : q ∈ inst.chars) {x w : Text} (hends : h.last.terminator ≠ [] →
      (∀ c ∈ h.z, isBlank c = true) → Text.beforeEscape? (parse text).escape (x ++ w) = none) :
    (h.line x w).goesOn (parse text).escape = h.last.goesOn (parse text).escape := by
  have he := isBlank_escape text
  by_cases hterm : h.last.terminator = []
  · rw [Line.goesOn_of_nil hterm, Line.goesOn_of_nil (show (h.line x w).terminator = [] from hterm)]
  · obtain ⟨v, hv, hqv⟩ := h.last_content
    have hcontent : (h.line x w).content = (x ++ w) ++ h.z := by
      rw [List.append_assoc]
      rfl
    rw [Line.goesOn_of_mem_kept he hterm hv hqv (h.last_adds hinst hq).kept,
      @Line.goesOn_eq_content _ (h.line x w) he hterm, hcontent,
      Body.beforeEscape?_append fun hz => hends hterm (List.all_eq_true.mp hz), Option.isSome_map]

/-- All other instructions are kept if what is put in place of the stretch does not make its line a
comment, does not leave it blank, and does not end with the escape character in front of the end of the
line. -/
theorem keepsOthers (h : Stretch text inst p q) (hinst : inst ∈ (parse text).instructions)
    (hp : p ∈ inst.chars) (hq : q ∈ inst.chars) {x w : Text} (hx : x <+: h.x)
    (hw : ∀ c ∈ w, isLineBreak c = false)
    (hhead : ∀ c ∈ ((x ++ (w ++ h.z)).dropWhile isBlank).head?, c ≠ '#')
    (hcontent : h.last.terminator ≠ [] → ∃ c ∈ x ++ (w ++ h.z), isBlank c = false)
    (hends : h.last.terminator ≠ [] → (∀ c ∈ h.z, isBlank c = true) →
      Text.beforeEscape? (parse text).escape (x ++ w) = none) :
    KeepsOthers text inst (h.patched x w) := by
  refine h.keepsOthers_of_line hinst hp hq (h.clean_line hx hw) ?_ (h.goesOn_line hinst hq hends)
  by_cases hcore : (h.line x w).core = []
  · refine .inr ⟨Classical.byContradiction fun hterm => ?_, hcore⟩
    obtain ⟨c, hc, hblank⟩ := hcontent hterm
    rw [List.dropWhile_eq_nil_iff.mp hcore c hc] at hblank
    cases hblank
  · exact .inl (h.isContent_line hhead hcore)

/-! ## What the instruction keeps -/

section Kept

variable (h : Stretch text inst p q) (hinst : inst ∈ (parse text).instructions)
include hinst

/-- What the instruction keeps behind the stretch, if that does not end with a blank. -/
theorem exists_chars_last (hp : p ∈ inst.chars) (hq : q ∈ inst.chars) (hblank : isBlank q.char = false) :
    ∃ front, inst.chars = front ++ q ::
      (Text.place q.stop (Text.keptAtEnd (parse text).escape h.last.terminator h.z) ++
        Body.further (parse text).escape (h.last.goesOn (parse text).escape) h.after) := by
  have he := isBlank_escape text
  obtain ⟨v, hv, hqv⟩ := h.last_content
  obtain ⟨⟨kept, hkept, hchars⟩, -⟩ := h.runs_eq hinst hp hq
  have hadded := Line.indent_append_kept_of_mem he hv hqv (h.last_adds hinst hq).kept
  obtain ⟨v', rfl, hcore⟩ : ∃ v', v = h.last.indent ++ v' ∧ h.last.kept (parse text).escape =
      v' ++ q.char :: Text.keptAtEnd (parse text).escape h.last.terminator h.z := by
    rcases List.append_eq_append_iff.mp hadded with ⟨v', hv', hcore⟩ | ⟨w, hindent, hcore⟩
    · exact ⟨v', hv', hcore⟩
    · cases w with
      | nil => exact ⟨[], by simpa using hindent.symm, hcore.symm⟩
      | cons c w =>
          obtain ⟨rfl, -⟩ := List.cons.inj hcore
          rw [h.last.isBlank_of_mem_indent (by simp [hindent])] at hblank
          cases hblank
  have hoffset : h.last.start + Text.byteLength h.last.indent + Text.byteLength v' = q.offset := by
    rw [hqv, Text.byteLength_append, Nat.add_assoc]
  refine ⟨Body.lead (Body.standing (parse text).escape h.opened h.middle) h.last ++
    Text.place (h.last.start + Text.byteLength h.last.indent) v', ?_⟩
  rw [hchars, Body.eq_of_extended? hkept, hcore, Text.place_append, Text.place_cons, hoffset]
  simp only [List.append_assoc, List.cons_append]
  rfl

variable (hp : inst.chars.head? = some p) (hblank : isBlank p.char = false)
include hp hblank

/-- If the instruction begins with the stretch, then only blanks stand in front of that. -/
theorem lead_eq_nil (hq : q ∈ inst.chars) :
    Body.lead h.opened h.first = [] ∧ h.first.indent = h.x := by
  have hmem := List.mem_of_head? hp
  obtain ⟨c, hc⟩ := h.first_content
  obtain ⟨tail, htail⟩ := h.exists_tail
  have hcore : h.first.core ≠ [] := by
    intro hnil
    rw [List.dropWhile_eq_nil_iff.mp hnil p.char (by simp [hc])] at hblank
    cases hblank
  obtain ⟨kept, hkept⟩ := Option.isSome_iff_exists.mp
    (@Body.isSome_extended?_of_isContent (parse text).escape h.opened h.first
      (by simp [Line.isContent, h.first_comment, hcore]))
  have hchars : ∃ rest, inst.chars = kept ++ rest := by
    have hruns := (h.runs_eq hinst hmem hq).2
    rw [h.bodied.chars_eq, htail, Body.runs_append] at hruns
    have hruns := (Body.runs_cons hkept tail).symm.trans (List.append_cancel_left hruns)
    exact ⟨_, (List.cons.inj hruns).1.symm⟩
  obtain ⟨rest, hchars⟩ := hchars
  rw [Body.eq_of_extended? hkept] at hchars
  have hindent : p ∉ Text.place h.first.start h.first.indent := by
    intro hp
    rw [Text.isBlank_of_mem_place (fun _ => h.first.isBlank_of_mem_indent) p hp] at hblank
    cases hblank
  have hlead : Body.lead h.opened h.first = [] := by
    refine List.eq_nil_iff_forall_not_mem.mpr fun r hr => ?_
    obtain ⟨first, lead, hlead⟩ := List.exists_cons_of_ne_nil (List.ne_nil_of_mem hr)
    obtain rfl : first = p := by
      rw [hchars, hlead] at hp
      exact Option.some.inj hp
    have hr : first ∈ Body.lead h.opened h.first := hlead ▸ List.mem_cons_self
    cases hopened : h.opened with
    | none =>
        rw [hopened] at hr
        cases hr
    | some before =>
        rw [hopened] at hr
        refine (List.mem_append.mp hr).elim (fun hr => ?_) hindent
        obtain ⟨l, hl, hadds⟩ := Body.mem_of_mem_standing hopened hr
        exact absurd (h.lt_of_adds_before hl hadds) (Nat.lt_irrefl _)
  refine ⟨hlead, ?_⟩
  have hadds := (h.first_adds hinst hmem).kept
  rw [Text.place_append] at hadds
  have hadds := (List.mem_append.mp hadds).resolve_left hindent
  obtain ⟨d, core, hd⟩ : ∃ d core, h.first.kept (parse text).escape = d :: core := by
    refine List.exists_cons_of_ne_nil fun hnil => ?_
    rw [hnil] at hadds
    cases hadds
  rw [hlead, hd, List.nil_append, Text.place_cons, List.cons_append] at hchars
  rw [hchars] at hp
  have hoffset := congrArg Placed.offset (Option.some.inj hp)
  rw [h.start, h.first_start, Text.byteLength_append] at hoffset
  exact (Text.eq_of_byteLength_eq (h.first.indent_append_core.trans hc) (Nat.add_left_cancel hoffset)).1

/-- What the line keeps with another text in the place of the stretch. -/
theorem text_kept_line (hq : q ∈ inst.chars) {w : Text}
    (hfirst : ∃ c ∈ w.head?, isBlank c = false)
    (hends : Text.beforeEscape? (parse text).escape (h.x ++ w) = none) {kept : List Placed}
    (hkept : Body.extended? (parse text).escape h.opened (h.line h.x w) = some kept) :
    Placed.text kept = w ++ Text.keptAtEnd (parse text).escape h.last.terminator h.z := by
  have he := isBlank_escape text
  obtain ⟨hlead, hindent⟩ := h.lead_eq_nil hinst hp hblank hq
  obtain ⟨first, hfirst, hcontent⟩ := hfirst
  obtain ⟨w', rfl⟩ := List.head?_eq_some_iff.mp hfirst
  obtain ⟨hlindent, -⟩ : (h.line h.x (first :: w')).indent = h.x ∧
      (h.line h.x (first :: w')).core = first :: w' ++ h.z :=
    Text.spanWhile (hindent ▸ fun _ => h.first.isBlank_of_mem_indent) (by rintro c ⟨⟩; exact hcontent)
  have hlkept := @Line.indent_append_kept (parse text).escape (h.line h.x (first :: w')) he
  rw [show (h.line h.x (first :: w')).content = (h.x ++ first :: w') ++ h.z from
    (List.append_assoc _ _ _).symm, Text.keptAtEnd_append fun _ _ => hends, hlindent,
    List.append_assoc] at hlkept
  have hnone : Body.lead h.opened (h.line h.x (first :: w')) = [] := by
    cases hopened : h.opened with
    | none => rfl
    | some before =>
        rw [hopened, Body.lead, List.append_eq_nil_iff, hindent] at hlead
        have hnil := Text.text_place h.first.start h.x
        rw [hlead.2] at hnil
        rw [Body.lead, hlindent, hlead.1, ← hnil]
        rfl
  rw [Body.eq_of_extended? hkept, hnone, List.nil_append, List.append_cancel_left hlkept,
    Text.text_place]
  rfl

/-- Another text in the place of the stretch is what the instruction keeps, in front of what it keeps
behind the stretch. -/
theorem exchanges (hq : q ∈ inst.chars) (hqblank : isBlank q.char = false) {w : Text}
    (hw : ∀ c ∈ w, isLineBreak c = false) (hfirst : ∃ c ∈ w.head?, isBlank c = false ∧ c ≠ '#')
    (hlast : ∃ c ∈ w.getLast?, isBlank c = false ∧ c ≠ (parse text).escape) :
    ∃ front rest, inst.chars = front ++ q :: rest ∧
      Exchanges text inst (w ++ Placed.text rest) (h.patched h.x w) := by
  have hmem := List.mem_of_head? hp
  obtain ⟨-, hindent⟩ := h.lead_eq_nil hinst hp hblank hq
  obtain ⟨last, hlast, hlblank, hescape⟩ := hlast
  have hends : Text.beforeEscape? (parse text).escape (h.x ++ w) = none :=
    Text.beforeEscape?_of_getLast? (isBlank_escape text)
      (by rw [List.getLast?_append, hlast]; rfl) hlblank hescape
  obtain ⟨first, hfirst, hcontent, hmark⟩ := hfirst
  obtain ⟨w', rfl⟩ := List.head?_eq_some_iff.mp hfirst
  have hline : (h.line h.x (first :: w')).core = first :: w' ++ h.z :=
    (Text.spanWhile (hindent ▸ fun _ => h.first.isBlank_of_mem_indent)
      (by rintro c ⟨⟩; exact hcontent)).2
  obtain ⟨kept, after, hkept, hsame, hescape, hchars'⟩ :=
    h.exists_runs_patched (h.clean_line List.prefix_rfl hw) (h.isContent_line (by
      show ∀ c ∈ (h.line h.x (first :: w')).core.head?, c ≠ '#'
      rw [hline]
      rintro c ⟨⟩
      exact hmark) (by rw [hline]; simp))
  rw [h.goesOn_line hinst hq fun _ _ => hends] at hchars'
  obtain ⟨front, hchars⟩ := h.exists_chars_last hinst hmem hq hqblank
  refine ⟨front, _, hchars, ?_⟩
  have htext : Placed.text (kept ++
      Body.further (parse text).escape (h.last.goesOn (parse text).escape) after) =
        first :: w' ++ Placed.text
          (Text.place q.stop (Text.keptAtEnd (parse text).escape h.last.terminator h.z) ++
            Body.further (parse text).escape (h.last.goesOn (parse text).escape) h.after) := by
    rw [Placed.text_append, Placed.text_append, Text.text_place,
      h.text_kept_line hinst hp hblank hq ⟨first, rfl, hcontent⟩ hends hkept,
      Body.text_further_congr hsame, List.append_assoc]
  rw [← htext]
  refine exchanges_of_chars hescape hinst hmem (h.runs_eq hinst hmem hq).2
    (Body.text_behind_congr hsame _) ?_ hchars'
  rw [htext, Text.isNamed]
  simp [hcontent]

end Kept

/-! ## Another style in the stretch -/

theorem stop_eq (h : Stretch text inst p q) : q.stop = p.offset + Text.byteLength h.y := by
  rw [h.start, h.stop, ← List.append_assoc, Text.byteLength_append _ h.y]

/-- The text that holds the stretch, if that is written in another style. -/
theorem styled_eq (h : Stretch text inst p q) (style : Style (parse text).escape ⟨p.offset, q.stop⟩) :
    style.text (Text.place (Text.byteLength h.front)
        (h.x ++ (h.y ++ (h.z ++ (h.last.terminator ++ h.rest))))) =
      h.x ++ (style.text (Text.place p.offset h.y) ++ (h.z ++ (h.last.terminator ++ h.rest))) := by
  have hstart : Text.byteLength h.front + Text.byteLength h.x = p.offset := by
    rw [h.start, Text.byteLength_append]
  have hfront : style.text (Text.place (Text.byteLength h.front) h.x) = h.x := by
    rw [style.text_of_outside, Text.text_place]
    rintro r hr ⟨hle, -⟩
    have := (Text.offset_of_mem_place hr).2
    have := r.offset_lt_stop
    dsimp only at hle
    omega
  have hrest : ∀ rest, style.text (Text.place q.stop rest) = rest := by
    intro rest
    rw [style.text_of_outside, Text.text_place]
    exact fun r hr hinside => Nat.not_lt_of_le (Text.offset_of_mem_place hr).1 hinside.2
  rw [Text.place_append, Text.place_append, style.text_append, style.text_append, hstart, ← h.stop_eq,
    hfront, hrest]

theorem exchanges_styled (h : Stretch text inst p q) (hinst : inst ∈ (parse text).instructions)
    (hp : p ∈ inst.chars) (hq : q ∈ inst.chars)
    (style : Style (parse text).escape ⟨p.offset, q.stop⟩) :
    Exchanges text inst (style.text inst.chars)
      (h.patched h.x (style.text (Text.place p.offset h.y))) := by
  have hstyled := h.lined.styled style (Text.byteLength h.front)
  rw [h.styled_eq] at hstyled
  obtain ⟨lines', hfrom⟩ : ∃ lines', Text.linesFrom (Text.byteLength h.front)
      (Text.byteLength h.front) (h.x ++ (style.text (Text.place p.offset h.y) ++
        (h.z ++ (h.last.terminator ++ h.rest)))) = lines' := ⟨_, rfl⟩
  rw [hfrom] at hstyled
  have hlines : Text.lines (h.patched h.x (style.text (Text.place p.offset h.y))) =
      h.taken ++ (h.before ++ lines') := by
    rw [patched, h.leading.eq ?_, hfrom, List.append_assoc]
    intro hhead
    rw [← h.styled_eq, style.head?_text_iff (fun hplain => ?_) (by decide), Text.text_place] at hhead
    · exact hhead
    · have := hplain.inside
      simp [isLineBreak] at this
  have hbodied : Bodied (h.patched h.x (style.text (Text.place p.offset h.y))) h.taken
      (h.before ++ lines') h.found := by
    obtain ⟨l, rest, hl, hlnone⟩ := h.bodied.first
    obtain ⟨tail, htail⟩ := h.exists_tail
    rw [htail] at hstyled
    obtain ⟨first, tail', hfirst, -, rfl⟩ := List.forall₂_cons_left_iff.mp hstyled
    cases hbefore : h.before with
    | nil =>
        rw [hbefore] at hlines
        exact h.bodied.congr hlines
          (Directive.ofLine?_of_isComment (hfirst.isComment_eq.trans h.first_comment))
    | cons b before =>
        rw [hbefore] at hlines hl
        obtain ⟨rfl, -⟩ := List.cons.inj hl
        exact h.bodied.congr hlines hlnone
  have hescape := h.escape_eq hbodied
  have hchars := (h.runs_eq hinst hp hq).2
  have hruns := h.bodied.chars_eq.symm.trans hchars
  rw [Body.runs_append] at hruns
  have hruns := List.append_cancel_left hruns
  have hopened : h.opened.map Placed.text = h.opened.map style.text := by
    refine Option.map_congr fun kept hkept => (style.text_of_outside fun r hr hinside => ?_).symm
    obtain ⟨l, hl, hadds⟩ := Body.mem_of_mem_standing hkept hr
    exact Nat.not_lt_of_le hinside.1 (h.lt_of_adds_before hl hadds)
  have htexts := Body.text_runs_styled hstyled hopened
  rw [opened, hruns, List.map_cons] at htexts
  obtain ⟨run, later, hruns', hrun, hlater⟩ := List.map_eq_cons_iff.mp htexts
  have hchars' := hbodied.chars_eq
  rw [hescape, Body.runs_append, hruns'] at hchars'
  rw [← hrun]
  refine exchanges_of_chars hescape hinst hp hchars (hlater.trans ?_) ?_ hchars'
  · refine List.map_congr_left fun run hrun => style.text_of_outside fun r hr hinside => ?_
    obtain ⟨l, hl, hadds⟩ := Body.mem_of_mem_behind hrun hr
    exact Nat.not_lt_of_le (h.le_of_adds_after hl hadds) hinside.2
  · rw [hrun, style.isNamed_text, ← (line_reading (mem_logicalLines hinst)).1]
    exact isNamed_of_mem hinst

end Stretch

end File

end Dockerfile
