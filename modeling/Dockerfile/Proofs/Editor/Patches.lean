import Dockerfile.Proofs.Editor.Mending
import Dockerfile.Proofs.File.Patched
import Dockerfile.Proofs.Quoting.Labels
import Dockerfile.Proofs.StringArray.Requoted

/-!
# Fixes inside an instruction

A fix that replaces a part of an instruction leaves all other instructions as they are. What is put
there does not end with the escape character and begins no comment. Where nothing is put, the
instruction may go on now in the line behind it, and what begins there is lost if it is an instruction
(`Text.Dangles`).
-/

namespace Dockerfile

theorem TextEdit.apply_of_found {text : Text} {span : Span}
    (h : Text.spanOf text (Text.rangeOf text span) = span) (new : Text) :
    apply text (ofSpan text span new) = Text.replaceSpan text span new := by
  rw [apply, ofSpan, h]

namespace Text

/-- Without the part of the text in the span, the logical line goes on behind it: at the start of a
line, a line break there lets the line be passed over and a number sign makes it a comment, and behind
the escape character a line break makes a continuation. -/
def Bridges (escape : Char) (text : Text) (span : Span) : Prop :=
  ∃ next ∈ ((dropBytes span.stop text).dropWhile isBlank).head?,
    ((∀ c ∈ (takeBytes span.start text).getLast?, isLineBreak c = true) ∧
        (next = '#' ∨ isLineBreak next = true)) ∨
      ((takeBytes span.start text).getLast? = some escape ∧ isLineBreak next = true)

instance (escape : Char) (text : Text) (span : Span) : Decidable (Bridges escape text span) :=
  decidable_of_iff (((dropBytes span.stop text).dropWhile isBlank).head?.any fun next =>
      (takeBytes span.start text).getLast?.all isLineBreak && (next == '#' || isLineBreak next) ||
        (takeBytes span.start text).getLast? == some escape && isLineBreak next)
    (by simp [Bridges, Option.any_eq_true, Option.all_eq_true])

/-- Behind the line that the offset is in, the next logical line begins, and it is an instruction. -/
def Borders (escape : Char) (text : Text) (offset : Nat) : Prop :=
  (line text (lineOf text offset)).goesOn escape = false ∧
    ∃ run ∈ (Body.runs escape none ((lines text).drop (lineOf text offset + 1))).head?,
      (Placed.text run).isNamed = true

instance (escape : Char) (text : Text) (offset : Nat) : Decidable (Borders escape text offset) :=
  decidable_of_iff (((line text (lineOf text offset)).goesOn escape == false) &&
      (Body.runs escape none ((lines text).drop (lineOf text offset + 1))).head?.any fun run =>
        (Placed.text run).isNamed)
    (by simp [Borders, Option.any_eq_true])

/-- Without the part of the text in the span, its instruction takes in the one behind. -/
def Dangles (escape : Char) (text : Text) (span : Span) : Prop :=
  Bridges escape text span ∧ Borders escape text span.stop

instance (escape : Char) (text : Text) (span : Span) : Decidable (Dangles escape text span) :=
  inferInstanceAs (Decidable (_ ∧ _))

/-- The blanks in front of a span do not reach over the start of its line. -/
theorem withLeadingBlanks_eq {front x rest : Text} (margin : ∀ c ∈ front.getLast?, isLineBreak c = true)
    (stop : Nat) :
    Fix.withLeadingBlanks (front ++ (x ++ rest)) ⟨byteLength (front ++ x), stop⟩ =
      ⟨byteLength (front ++ trimBlanksEnd x), stop⟩ := by
  have hfront : front.reverse.takeWhile isBlank = [] := by
    refine List.takeWhile_eq_nil_iff.mpr fun hlt hblank => ?_
    have hlast : front.getLast? = some (front.reverse.get ⟨0, hlt⟩) := by
      rw [List.getLast?_eq_head?_reverse, List.head?_eq_getElem?]
      exact List.getElem?_eq_getElem hlt
    rw [Body.isBlank_of_isLineBreak (margin _ hlast)] at hblank
    cases hblank
  have hblanks : (front ++ x).reverse.takeWhile isBlank = x.reverse.takeWhile isBlank := by
    rw [List.reverse_append, List.takeWhile_append, hfront, List.append_nil]
    split
    · rename_i hall
      exact ((List.takeWhile_prefix isBlank).eq_of_length hall).symm
    · rfl
  have hsize := congrArg byteLength (trimBlanksEnd_append_blanks x)
  rw [byteLength_append, byteLength_reverse] at hsize
  rw [Fix.withLeadingBlanks, ← List.append_assoc, takeBytes_append_byteLength, hblanks,
    byteLength_append, byteLength_append]
  dsimp only
  congr 1
  omega

end Text

/-- The span goes from one character of the instruction to another. -/
def Instruction.Holds (inst : Instruction) (span : Span) : Prop :=
  ∃ p ∈ inst.chars, ∃ q ∈ inst.chars, p.offset ≤ q.offset ∧ span = ⟨p.offset, q.stop⟩

theorem Instruction.Holds.of_excerpt {text : Text} {inst : Instruction} {e : Excerpt}
    (h : e.Within text) (hne : e.chars ≠ []) (hchars : e.chars ⊆ inst.chars) : inst.Holds e.span := by
  have hhead := List.head?_eq_some_head hne
  have hlast := List.getLast?_eq_some_getLast hne
  have hle := h.head_offset_le hne
  refine ⟨_, hchars (List.head_mem hne), _, hchars (List.getLast_mem hne), hle, ?_⟩
  have := (e.chars.getLast hne).offset_lt_stop
  rw [Excerpt.span_eq_spanTo hhead hlast, Placed.spanTo]
  congr 1
  omega

theorem Instruction.Holds.isEmpty {inst : Instruction} {span : Span} (h : inst.Holds span) :
    span.isEmpty = false := by
  obtain ⟨p, -, q, -, hpq, rfl⟩ := h
  have := q.offset_lt_stop
  exact decide_eq_false (by dsimp only; omega)

namespace File

variable {text : Text} {inst : Instruction}

theorem Exchanges.exists_getElem? {kept text' : Text} (h : Exchanges text inst kept text') {k : Nat}
    (hk : (parse text).instructions[k]? = some inst) :
    ∃ inst', (parse text').instructions[k]? = some inst' ∧ inst'.escape = inst.escape ∧
      inst'.reading = kept.lineReading inst.escape inst'.emptyLines.length := by
  obtain ⟨hescape, front, rest, front', inst', rest', hlines, hlines', rfl, hfront, -⟩ := h
  have hlength := congrArg List.length hfront
  rw [List.length_map, List.length_map] at hlength
  have hinst : (parse text).instructions[front.length]? = some inst := by
    rw [hlines, List.getElem?_append_right (Nat.le_refl _), Nat.sub_self]
    rfl
  obtain rfl : k = front.length :=
    (List.getElem?_inj (List.getElem?_eq_some_iff.mp hk).1 (instructions_nodup text)).mp
      (hk.trans hinst.symm)
  have hmem : inst' ∈ (parse text').instructions := by simp [hlines']
  have hsame : inst'.escape = inst.escape := by
    rw [escape_of_mem hmem, hescape, escape_of_mem (List.mem_of_getElem? hk)]
  refine ⟨inst', ?_, hsame, ?_⟩
  · rw [hlines', ← hlength, List.getElem?_append_right (Nat.le_refl _), Nat.sub_self]
    rfl
  · rw [← hsame, escape_of_mem hmem]
    exact (line_reading (mem_logicalLines hmem)).2

theorem selectable_of_holds (hinst : inst ∈ (parse text).instructions) {span : Span}
    (h : inst.Holds span) : span.Selectable text := by
  obtain ⟨p, hp, q, hq, hpq, rfl⟩ := h
  have hwithin := (instruction_within hinst).chars
  have hline := mem_logicalLines hinst
  have hspan := Placed.selectable_spanTo (hwithin.mem hp) (hwithin.mem hq) hpq
    (not_break_of_mem hline hp) (not_break_of_mem hline hq)
  have := q.offset_lt_stop
  rwa [Placed.spanTo, Nat.max_eq_left (by omega)] at hspan

namespace Stretch

variable {p q : Placed}

/-- What replacing the stretch, and what stands in front of it behind `x`, makes of the text. -/
theorem takeBytes_eq (h : Stretch text inst p q) {x : Text} (hx : x <+: h.x) :
    Text.takeBytes (Text.byteLength (h.front ++ x)) text = h.front ++ x := by
  obtain ⟨v, hv⟩ := hx
  have hsplit : text = (h.front ++ x) ++ (v ++ (h.y ++ (h.z ++ (h.last.terminator ++ h.rest)))) := by
    rw [List.append_assoc, ← List.append_assoc x, hv]
    exact h.split
  exact (congrArg _ hsplit).trans (Text.takeBytes_append_byteLength _ _)

theorem dropBytes_eq (h : Stretch text inst p q) :
    Text.dropBytes q.stop text = h.z ++ (h.last.terminator ++ h.rest) := by
  have hsplit : text = (h.front ++ (h.x ++ h.y)) ++ (h.z ++ (h.last.terminator ++ h.rest)) := by
    rw [List.append_assoc, List.append_assoc]
    exact h.split
  rw [h.stop]
  exact (congrArg _ hsplit).trans (Text.dropBytes_append_byteLength _ _)

theorem replaceSpan_eq (h : Stretch text inst p q) {x : Text} (hx : x <+: h.x) (w : Text) :
    Text.replaceSpan text ⟨Text.byteLength (h.front ++ x), q.stop⟩ w = h.patched x w := by
  rw [Text.replaceSpan, h.takeBytes_eq hx, h.dropBytes_eq, patched]
  simp only [List.append_assoc]

theorem slice_eq (h : Stretch text inst p q) : Text.slice text ⟨p.offset, q.stop⟩ = h.y := by
  have hsplit : text = (h.front ++ h.x) ++ (h.y ++ (h.z ++ (h.last.terminator ++ h.rest))) := by
    rw [List.append_assoc]
    exact h.split
  rw [h.start, h.stop, ← List.append_assoc, Text.byteLength_append _ h.y]
  exact (congrArg (fun text => Text.slice text _) hsplit).trans (Text.slice_append _ _ _)

/-- If only blanks stand behind the stretch in its line, the first other character is a line break. -/
theorem exists_break_behind (h : Stretch text inst p q) (hterm : h.last.terminator ≠ [])
    (hz : ∀ c ∈ h.z, isBlank c = true) :
    ∃ next ∈ (h.z.dropWhile isBlank).head?.or
      ((h.last.terminator ++ h.rest).dropWhile isBlank).head?, isLineBreak next = true := by
  rcases h.ends with ⟨-, hnil, -⟩ | ⟨ends, -⟩
  · exact absurd hnil hterm
  · obtain ⟨next, terminator, hnext⟩ := List.exists_cons_of_ne_nil hterm
    have hinside : isLineBreak next = true := ends.isLineBreak_head h.rest next (by rw [hnext]; rfl)
    rw [List.dropWhile_eq_nil_iff.mpr hz, hnext, List.cons_append, List.dropWhile_cons_of_neg
      (by rw [Body.isBlank_of_isLineBreak hinside]; decide)]
    exact ⟨next, rfl, hinside⟩

theorem lineOf_stop (h : Stretch text inst p q) :
    Text.line text (Text.lineOf text q.stop) = h.last ∧
      (Text.lines text).drop (Text.lineOf text q.stop + 1) = h.after := by
  have hlines := h.bodied.lines_eq
  rw [← List.append_assoc, ← List.append_assoc] at hlines
  obtain ⟨front, rest, hcut⟩ := Text.Cut.exists_of_lines hlines
  obtain ⟨v, hv, hqv⟩ := h.last_content
  have hstop : q.stop = h.last.start + Text.byteLength (v ++ [q.char]) := by
    simp only [Text.byteLength_append, Text.byteLength_cons, Text.byteLength_nil, Placed.stop,
      Placed.size, hqv]
    omega
  rw [hstop, hcut.lineOf_eq ⟨h.z, by rw [hv, List.append_assoc]; rfl⟩]
  exact ⟨hcut.line_eq, by rw [hlines, List.drop_append]; simp⟩

/-- What is left of the first line begins like that. -/
theorem head_ne_mark_append (h : Stretch text inst p q) {x rest : Text} (hfront : x <+: h.x)
    (hcontent : ∃ c ∈ x, isBlank c = false) :
    ∀ c ∈ ((x ++ rest).dropWhile isBlank).head?, c ≠ '#' := by
  obtain ⟨v, hv⟩ := hfront
  obtain ⟨d, hd, hblank⟩ := hcontent
  have hne : x.dropWhile isBlank ≠ [] := by
    intro hnil
    rw [List.dropWhile_eq_nil_iff.mp hnil d hd] at hblank
    cases hblank
  obtain ⟨first, core, hcore⟩ := List.exists_cons_of_ne_nil hne
  intro c hc
  refine h.head_ne_mark c ?_
  rw [Text.head?_core_append, hcore] at hc
  rw [← hv, Text.head?_core_append, hcore]
  exact hc

/-- All other instructions are kept if the stretch is removed with the blanks in front of it, and the
logical line does not go on for that reason. -/
theorem keepsOthers_of_not_bridges (h : Stretch text inst p q)
    (hinst : inst ∈ (parse text).instructions) (hp : p ∈ inst.chars) (hq : q ∈ inst.chars)
    (hbridges : ¬Text.Bridges (parse text).escape text
      ⟨Text.byteLength (h.front ++ Text.trimBlanksEnd h.x), q.stop⟩) :
    KeepsOthers text inst (h.patched (Text.trimBlanksEnd h.x) []) := by
  have he := isBlank_escape text
  have hfront := Text.trimBlanksEnd_prefix h.x
  have hblank := Text.isBlank_getLast?_trimBlanksEnd h.x
  rw [Text.Bridges, h.takeBytes_eq hfront, h.dropBytes_eq, Text.head?_core_append] at hbridges
  generalize hx : Text.trimBlanksEnd h.x = x at hfront hblank hbridges
  cases hlast : x.getLast? with
  | none =>
      obtain rfl := List.getLast?_eq_none_iff.mp hlast
      have hmargin : ∀ c ∈ (h.front ++ []).getLast?, isLineBreak c = true := by
        rw [List.append_nil]
        exact h.margin
      refine h.keepsOthers hinst hp hq hfront (by simp) ?_ ?_ fun _ _ => rfl
      · rintro c hc rfl
        have hc : (h.z.dropWhile isBlank).head? = some '#' := hc
        exact hbridges ⟨'#', by rw [hc]; rfl, .inl ⟨hmargin, .inl rfl⟩⟩
      · intro hterm
        refine Classical.byContradiction fun hnone => ?_
        obtain ⟨next, hnext, hinside⟩ := h.exists_break_behind hterm (by
          intro c hc
          refine Classical.byContradiction fun hblank => hnone ⟨c, hc, by simpa using hblank⟩)
        exact hbridges ⟨next, hnext, .inl ⟨hmargin, .inr hinside⟩⟩
  | some last =>
      have hcontent : isBlank last = false := hblank last hlast
      have hmem : last ∈ x := List.mem_of_getLast? hlast
      refine h.keepsOthers hinst hp hq hfront (by simp)
        (h.head_ne_mark_append hfront ⟨last, hmem, hcontent⟩)
        (fun _ => ⟨last, List.mem_append_left _ hmem, hcontent⟩) ?_
      · intro hterm hz
        rw [List.append_nil]
        refine Text.beforeEscape?_of_getLast? he hlast hcontent fun hescape => ?_
        obtain ⟨next, hnext, hinside⟩ := h.exists_break_behind hterm hz
        refine hbridges ⟨next, hnext, .inr ⟨?_, hinside⟩⟩
        rw [List.getLast?_append, hlast, hescape]
        rfl

/-- What comes first behind the stretch, but for blanks, stands in its line, or only a line break does. -/
theorem core_or_terminated (h : Stretch text inst p q) {next : Char}
    (hnext : next ∈ (h.z.dropWhile isBlank).head?.or
      ((h.last.terminator ++ h.rest).dropWhile isBlank).head?) :
    next ∈ (h.z.dropWhile isBlank).head? ∨ h.z.dropWhile isBlank = [] ∧ h.last.terminator ≠ [] := by
  rcases Option.or_eq_some_iff.mp (Option.mem_def.mp hnext) with hcore | ⟨hnone, hbehind⟩
  · exact .inl hcore
  · refine .inr ⟨List.head?_eq_none_iff.mp hnone, fun hterm => ?_⟩
    rcases h.ends with ⟨-, -, hrest⟩ | ⟨ends, -⟩
    · simp [hterm, hrest] at hbehind
    · exact ends.ne_nil hterm

theorem not_break_core (h : Stretch text inst p q) {c : Char}
    (hc : c ∈ (h.z.dropWhile isBlank).head?) : isLineBreak c = false :=
  h.clean c (List.mem_append_right _ ((List.dropWhile_sublist _).mem (List.mem_of_head? hc)))

/-- If only blanks stand in front of the stretch in its first line, a character of the instruction in
front of it that is no blank stands in an earlier line. -/
theorem isSome_opened (h : Stretch text inst p q) (hinst : inst ∈ (parse text).instructions)
    (hp : p ∈ inst.chars) (hq : q ∈ inst.chars)
    (hfirst : ∃ r ∈ inst.chars, isBlank r.char = false ∧ r.offset < p.offset)
    (hnil : Text.trimBlanksEnd h.x = []) : h.opened.isSome = true := by
  obtain ⟨r, hr, hblank, hlt⟩ := hfirst
  obtain ⟨tail, htail⟩ := h.exists_tail
  refine Option.isSome_iff_ne_none.mpr fun hopened => ?_
  have hruns := (h.runs_eq hinst hp hq).2
  rw [h.bodied.chars_eq, Body.runs_append, show Body.standing _ none h.before = none from hopened]
    at hruns
  have hmem : inst.chars ∈ Body.runs (parse text).escape none (h.middle ++ h.last :: h.after) := by
    rw [List.append_cancel_left hruns]
    exact List.mem_cons_self
  obtain ⟨kept, hkept, -⟩ | ⟨l, hl, hadds⟩ := Body.mem_runs hmem hr
  · cases hkept
  have hrange := Body.stop_le_of_mem_kept hadds.kept
  have hprange := h.first_range
  rw [htail] at hl
  -- It would stand in the first line, where only blanks are in front of `p`, or behind that line.
  rcases List.mem_cons.mp hl with rfl | hl
  · obtain ⟨c, hc⟩ := h.first_content
    obtain ⟨rest, hrest⟩ := Body.kept_prefix (parse text).escape h.first
    have hplace : r ∈ Text.place h.first.start (h.x ++ p.char :: c) := by
      rw [← hc, ← h.first.indent_append_core, ← hrest, ← List.append_assoc, Text.place_append]
      exact List.mem_append_left _ hadds.kept
    rw [Text.place_append] at hplace
    rcases List.mem_append.mp hplace with hx | hbehind
    · rw [Text.isBlank_of_mem_place (Text.trimBlanksEnd_eq_nil_iff.mp hnil) r hx] at hblank
      cases hblank
    · have := (Text.offset_of_mem_place hbehind).1
      rw [h.first_start, ← Text.byteLength_append, ← h.start] at this
      omega
  · have hordered := (List.pairwise_append.mp h.lines_ordered).2.1
    rw [htail] at hordered
    have := List.rel_of_pairwise_cons hordered hl
    have := p.offset_lt_stop
    omega

/-- All other instructions are kept if the stretch is removed with the blanks in front of it, and there
is none directly behind its line, which the logical line would take in. -/
theorem keepsOthers_of_bridges (h : Stretch text inst p q) (hinst : inst ∈ (parse text).instructions)
    (hp : p ∈ inst.chars) (hq : q ∈ inst.chars)
    (hfirst : ∃ r ∈ inst.chars, isBlank r.char = false ∧ r.offset < p.offset)
    (hbridges : Text.Bridges (parse text).escape text
      ⟨Text.byteLength (h.front ++ Text.trimBlanksEnd h.x), q.stop⟩)
    (hborders : ¬Text.Borders (parse text).escape text q.stop) :
    KeepsOthers text inst (h.patched (Text.trimBlanksEnd h.x) []) := by
  have he := isBlank_escape text
  have hfront := Text.trimBlanksEnd_prefix h.x
  have hblank := Text.isBlank_getLast?_trimBlanksEnd h.x
  obtain ⟨hline, hdrop⟩ := h.lineOf_stop
  have hlost : h.last.goesOn (parse text).escape = false →
      ∀ run ∈ (Body.runs (parse text).escape none h.after).head?,
        (Placed.text run).isNamed = false := by
    intro hgoes run hrun
    refine Bool.eq_false_iff.mpr fun hnamed => hborders ⟨by rw [hline, hgoes], run, ?_, hnamed⟩
    rwa [hdrop]
  rw [Text.Bridges, h.takeBytes_eq hfront, h.dropBytes_eq, Text.head?_core_append] at hbridges
  obtain ⟨next, hnext, hcase⟩ := hbridges
  cases hlast : (Text.trimBlanksEnd h.x).getLast? with
  | none =>
      -- The line is a comment now, or blank: the logical line passes it over and goes on.
      have hnil := List.getLast?_eq_none_iff.mp hlast
      have hskip : (h.line [] []).isSkipped = true := by
        rcases h.core_or_terminated hnext with hcore | ⟨hcore, hterm⟩
        · have hbreak := h.not_break_core hcore
          have hmark : next = '#' := by
            rcases hcase with ⟨-, hmark | hinside⟩ | ⟨-, hinside⟩
            · exact hmark
            all_goals
              rw [hinside] at hbreak
              cases hbreak
          have hcomment : (h.line [] []).isComment = true := beq_iff_eq.mpr (hmark ▸ hcore)
          rw [Line.isSkipped, hcomment, Bool.true_or]
        · have hempty : (h.line [] []).core = [] := hcore
          rw [Line.isSkipped, hempty, show (h.line [] []).terminator = h.last.terminator from rfl]
          simp [hterm]
      rw [hnil]
      exact h.keepsOthers_of_skipped hinst hp hq hlost (h.isSome_opened hinst hp hq hfirst hnil) hskip
  | some last =>
      have hcontent : isBlank last = false := hblank last hlast
      have hmem : last ∈ Text.trimBlanksEnd h.x := List.mem_of_getLast? hlast
      -- The line ends with the escape character now, so it is continued.
      obtain ⟨hescape, hinside⟩ : last = (parse text).escape ∧ isLineBreak next = true := by
        rw [List.getLast?_append, hlast] at hcase
        rcases hcase with ⟨hmargin, -⟩ | ⟨hescape, hinside⟩
        · have hclean := h.clean last (List.mem_append_left _ (hfront.subset hmem))
          rw [hmargin last rfl] at hclean
          cases hclean
        · exact ⟨Option.some.inj hescape, hinside⟩
      obtain ⟨hcore, hterm⟩ := (h.core_or_terminated hnext).resolve_left fun hcore => by
        rw [h.not_break_core hcore] at hinside
        cases hinside
      refine h.keepsOthers_of_goesOn hinst hp hq hlost (h.clean_line hfront (by simp)) ?_ ?_
      · refine h.isContent_line (h.head_ne_mark_append hfront ⟨last, hmem, hcontent⟩) fun hnil => ?_
        have hblanks := List.dropWhile_eq_nil_iff.mp hnil last (List.mem_append_left _ hmem)
        rw [hcontent] at hblanks
        cases hblanks
      · obtain ⟨init, hinit⟩ := List.getLast?_eq_some_iff.mp hlast
        refine (@Line.goesOn_eq_content _ (h.line _ []) he hterm).trans
          (Option.isSome_iff_exists.mpr ⟨init, ?_⟩)
        refine (Text.beforeEscape?_eq_some_iff he).mpr ⟨h.z, ?_, List.dropWhile_eq_nil_iff.mp hcore⟩
        show Text.trimBlanksEnd h.x ++ ([] ++ h.z) = _
        rw [hinit, hescape, List.nil_append, List.append_assoc, List.singleton_append]

/-- All other instructions are kept if the stretch is removed with the blanks in front of it, and
nothing dangles. -/
theorem keepsOthers_removed (h : Stretch text inst p q) (hinst : inst ∈ (parse text).instructions)
    (hp : p ∈ inst.chars) (hq : q ∈ inst.chars)
    (hfirst : ∃ r ∈ inst.chars, isBlank r.char = false ∧ r.offset < p.offset)
    (hdangles : ¬Text.Dangles (parse text).escape text
      ⟨Text.byteLength (h.front ++ Text.trimBlanksEnd h.x), q.stop⟩) :
    KeepsOthers text inst (h.patched (Text.trimBlanksEnd h.x) []) := by
  by_cases hbridges : Text.Bridges (parse text).escape text
      ⟨Text.byteLength (h.front ++ Text.trimBlanksEnd h.x), q.stop⟩
  · exact h.keepsOthers_of_bridges hinst hp hq hfirst hbridges fun hborders => hdangles ⟨hbridges, hborders⟩
  · exact h.keepsOthers_of_not_bridges hinst hp hq hbridges

end Stretch

end File

/-! ## Styles -/

theorem Plain.of_toUpper_ne {escape c : Char} (he : escape = '\\' ∨ escape = '\x60')
    (h : c.toUpper ≠ c) : Plain escape c ∧ Plain escape c.toUpper := by
  have hcaseless : ∀ d, Caseless d → c ≠ d ∧ c.toUpper ≠ d := by
    intro d hd
    have hc : c ≠ d := by
      rintro rfl
      exact h hd.2
    refine ⟨hc, fun hupper => hc ((hd.toLower_eq_iff c).mp ?_)⟩
    rw [← toLower_toUpper, hupper, hd.1]
  have hspace := hcaseless ' ' (by decide)
  have htab := hcaseless '\t' (by decide)
  have hreturn := hcaseless '\r' (by decide)
  have hfeed := hcaseless '\n' (by decide)
  have hmark := hcaseless '#' (by decide)
  have hescape : c ≠ escape ∧ c.toUpper ≠ escape := by
    rcases he with rfl | rfl
    · exact hcaseless _ (by decide)
    · exact hcaseless _ (by decide)
  constructor
  · exact ⟨by simp [isBlank, hspace.1, htab.1], by simp [isLineBreak, hreturn.1, hfeed.1], hmark.1,
      hescape.1⟩
  · exact ⟨by simp [isBlank, hspace.2, htab.2], by simp [isLineBreak, hreturn.2, hfeed.2], hmark.2,
      hescape.2⟩

theorem Plain.of_quote {escape c : Char} (he : escape = '\\' ∨ escape = '\x60')
    (h : c = '\x27' ∨ c = '"') : Plain escape c := by
  rcases he with rfl | rfl <;> rcases h with rfl | rfl <;> constructor <;> decide

theorem Fix.doubleQuotes_eq (front done text rest : Text) :
    doubleQuotes (done.count '\x27' % 2 == 1) text =
      (Text.place (Text.byteLength front + Text.byteLength done) text).flatMap fun p =>
        requoted (takenInside (front ++ (done ++ (text ++ rest))) (Text.byteLength front) p) p.char := by
  induction text generalizing done with
  | nil => rfl
  | cons c text ih =>
      have htaken : takenInside (front ++ (done ++ (c :: text ++ rest))) (Text.byteLength front)
          ⟨c, Text.byteLength front + Text.byteLength done⟩ = (done.count '\x27' % 2 == 1) := by
        rw [takenInside, Text.slice_append]
      have hnext : ((done.count '\x27' % 2 == 1) ^^ c == '\x27') =
          ((done ++ [c]).count '\x27' % 2 == 1) := by
        rw [List.count_append, List.count_singleton]
        cases c == '\x27' <;> rcases Nat.mod_two_eq_zero_or_one (done.count '\x27') with h | h <;>
          simp [h, Nat.add_mod]
      have ih := ih (done ++ [c])
      rw [Text.byteLength_append, Text.byteLength_cons, Text.byteLength_nil, Nat.add_zero,
        ← Nat.add_assoc, List.append_assoc, List.singleton_append, ← List.cons_append, ← hnext] at ih
      rw [doubleQuotes_cons, ih, Text.place_cons, List.flatMap_cons, htaken]

namespace Style

variable {escape : Char} (he : escape = '\\' ∨ escape = '\x60')

include he in
theorem mild_uppercase : Mild escape fun p => [p.char.toUpper] := by
  intro p
  by_cases hupper : p.char.toUpper = p.char
  · exact .inl (congrArg (fun c => [c]) hupper)
  · obtain ⟨hold, hnew⟩ := Plain.of_toUpper_ne he hupper
    exact .inr ⟨hold, _, hnew, .inl rfl⟩

include he in
theorem mild_requoted (inside : Placed → Bool) :
    Mild escape fun p => Fix.requoted (inside p) p.char := by
  intro p
  unfold Fix.requoted
  dsimp only
  split
  · rename_i hsingle
    exact .inr ⟨.of_quote he (.inl hsingle), _, .of_quote he (.inr rfl), .inl rfl⟩
  · split
    · rename_i hdouble
      exact .inr ⟨.of_quote he (.inr hdouble.1), _, .of_quote he (.inr rfl), .inr rfl⟩
    · exact .inl rfl

def uppercase (span : Span) : Style escape span :=
  within span (mild_uppercase he)

/-- Double quotes for single ones, and escaped ones for double quotes in strings. -/
def doubleQuotes (text : Text) (span : Span) : Style escape span :=
  within span (mild_requoted he (Fix.takenInside text span.start))

theorem uppercase_text {span : Span} {text : Text}
    (hstop : span.stop = span.start + Text.byteLength text) :
    (uppercase he span).text (Text.place span.start text) = Text.uppercase text := by
  rw [uppercase, text_within]
  · have hmap := congrArg Text.uppercase (Text.text_place span.start text)
    rw [Text.uppercase, Placed.text, List.map_map] at hmap
    rw [← List.map_eq_flatMap, ← hmap]
    rfl
  · intro p hp hout
    have := Text.offset_of_mem_place hp
    have := p.offset_lt_stop
    omega

theorem doubleQuotes_text {span : Span} {front text rest whole : Text}
    (hwhole : whole = front ++ (text ++ rest))
    (hspan : span = ⟨Text.byteLength front, Text.byteLength front + Text.byteLength text⟩) :
    (doubleQuotes he whole span).text (Text.place span.start text) = Fix.doubleQuotes false text := by
  subst hwhole hspan
  rw [doubleQuotes, text_within]
  · exact (Fix.doubleQuotes_eq front [] text rest).symm
  · intro p hp hout
    have := Text.offset_of_mem_place hp
    have := p.offset_lt_stop
    dsimp only at *
    omega

end Style

namespace File

variable {text : Text} {inst : Instruction}

theorem escape_eq (text : Text) : (parse text).escape = '\\' ∨ (parse text).escape = '\x60' :=
  escapeUnder_eq _

theorem ne_escape {c : Char} (text : Text) (hbackslash : c ≠ '\\') (hbacktick : c ≠ '\x60') :
    c ≠ (parse text).escape := by
  rcases escape_eq text with h | h <;> rwa [h]

/-! ## Spans in an instruction -/

section Spans

variable (hinst : inst ∈ (parse text).instructions) {span : Span} (hspan : inst.Holds span)
include hinst hspan

theorem exists_around : ∃ front rest, text = front ++ (Text.slice text span ++ rest) ∧
    span = ⟨Text.byteLength front, Text.byteLength front + Text.byteLength (Text.slice text span)⟩ := by
  obtain ⟨p, hp, q, hq, hpq, rfl⟩ := hspan
  obtain ⟨h⟩ := exists_stretch hinst hp hq hpq
  refine ⟨h.front ++ h.x, h.z ++ (h.last.terminator ++ h.rest), ?_, ?_⟩
  · rw [h.slice_eq, List.append_assoc]
    exact h.split
  · rw [h.slice_eq, ← h.start, ← h.stop_eq]

/-- The instruction keeps the same characters in another style, and all others are kept. -/
theorem exchanges_of_styled (style : Style (parse text).escape span) :
    Exchanges text inst (style.text inst.chars) (Text.replaceSpan text span
      (style.text (Text.place span.start (Text.slice text span)))) := by
  obtain ⟨p, hp, q, hq, hpq, rfl⟩ := hspan
  obtain ⟨h⟩ := exists_stretch hinst hp hq hpq
  have hreplaced := h.replaceSpan_eq List.prefix_rfl (style.text (Text.place p.offset h.y))
  rw [← h.start] at hreplaced
  rw [h.slice_eq, hreplaced]
  exact h.exchanges_styled hinst hp hq style

theorem exchanges_uppercase : Exchanges text inst
    ((Style.uppercase (escape_eq text) span).text inst.chars)
    (Text.replaceSpan text span (Text.uppercase (Text.slice text span))) := by
  obtain ⟨front, rest, -, hsplit⟩ := exists_around hinst hspan
  have hexchanges := exchanges_of_styled hinst hspan
    (Style.uppercase (escape_eq text) span)
  have hstop : span.stop = span.start + Text.byteLength (Text.slice text span) := by
    have hstart := congrArg Span.start hsplit
    have hstop := congrArg Span.stop hsplit
    dsimp only at hstart hstop
    rw [hstop, hstart]
  rwa [Style.uppercase_text _ hstop] at hexchanges

theorem exchanges_doubleQuotes : Exchanges text inst
    ((Style.doubleQuotes (escape_eq text) text span).text inst.chars)
    (Text.replaceSpan text span (Fix.doubleQuotes false (Text.slice text span))) := by
  obtain ⟨front, rest, htext, hsplit⟩ := exists_around hinst hspan
  have hexchanges := exchanges_of_styled hinst hspan
    (Style.doubleQuotes (escape_eq text) text span)
  rwa [Style.doubleQuotes_text _ htext hsplit] at hexchanges

/-- All other instructions are kept if a span of the instruction is replaced by a text that neither
begins a comment nor ends with the escape character. -/
theorem keepsOthers_of_written {w : Text} (hw : ∀ c ∈ w, isLineBreak c = false)
    (hfirst : ∃ c ∈ w.head?, isBlank c = false ∧ c ≠ '#')
    (hlast : ∃ c ∈ w.getLast?, isBlank c = false ∧ c ≠ (parse text).escape) :
    KeepsOthers text inst (Text.replaceSpan text span w) := by
  have he := isBlank_escape text
  obtain ⟨p, hp, q, hq, hpq, rfl⟩ := hspan
  obtain ⟨h⟩ := exists_stretch hinst hp hq hpq
  obtain ⟨first, hfirst, hcontent, hmark⟩ := hfirst
  obtain ⟨rest, rfl⟩ := List.head?_eq_some_iff.mp hfirst
  rw [h.start, h.replaceSpan_eq (List.prefix_refl _)]
  refine h.keepsOthers hinst hp hq (List.prefix_refl _) hw ?_ (fun _ => ⟨first, by simp, hcontent⟩) ?_
  · intro c hc
    rw [Text.head?_core_append] at hc
    rcases Option.or_eq_some_iff.mp (Option.mem_def.mp hc) with hc | ⟨-, hc⟩
    · exact h.head_ne_mark c hc
    · rw [List.cons_append, List.dropWhile_cons_of_neg (by simp [hcontent])] at hc
      obtain rfl := Option.some.inj hc
      exact hmark
  · intro _ _
    obtain ⟨last, hlast, hblank, hne⟩ := hlast
    refine Text.beforeEscape?_of_getLast? he ?_ hblank hne
    rw [List.getLast?_append, hlast]
    rfl

theorem exists_stretch_withLeadingBlanks : ∃ p ∈ inst.chars, ∃ q ∈ inst.chars,
    ∃ h : Stretch text inst p q, span.start = p.offset ∧ Fix.withLeadingBlanks text span =
      ⟨Text.byteLength (h.front ++ Text.trimBlanksEnd h.x), q.stop⟩ := by
  obtain ⟨p, hp, q, hq, hpq, rfl⟩ := hspan
  obtain ⟨h⟩ := exists_stretch hinst hp hq hpq
  refine ⟨p, hp, q, hq, h, rfl, ?_⟩
  rw [h.start]
  exact (congrArg (Fix.withLeadingBlanks · _) h.split).trans (Text.withLeadingBlanks_eq h.margin _)

theorem selectable_withLeadingBlanks : (Fix.withLeadingBlanks text span).Selectable text := by
  obtain ⟨p, hp, q, hq, h, -, hspan⟩ := exists_stretch_withLeadingBlanks hinst hspan
  have hwithin := (instruction_within hinst).chars
  have hclean : ∀ {r}, r ∈ inst.chars → ∀ c, isLineBreak c = true → r.char ≠ c := by
    rintro r hr c hc rfl
    rw [not_break_of_mem (mem_logicalLines hinst) hr] at hc
    cases hc
  have htrim := Text.trimBlanksEnd_append_blanks h.x
  have hsplit : text = (h.front ++ Text.trimBlanksEnd h.x) ++
      ((h.x.reverse.takeWhile isBlank).reverse ++ (h.y ++ (h.z ++ (h.last.terminator ++ h.rest)))) := by
    rw [List.append_assoc, ← List.append_assoc (Text.trimBlanksEnd h.x), htrim]
    exact h.split
  rw [hspan]
  refine ⟨?_, ?_, Text.not_splitsNewline_stop (hwithin.mem hq) (hclean hq _ rfl)⟩
  · refine .of_boundaries ?_ (Text.isBoundary_iff.mpr ⟨_, _, hsplit, rfl⟩)
      (Text.isBoundary_of_mem_place (hwithin.mem hq)).2
    have hsize := congrArg Text.byteLength htrim
    rw [Text.byteLength_append] at hsize
    rw [h.stop]
    simp only [Text.byteLength_append]
    omega
  · cases hblanks : (h.x.reverse.takeWhile isBlank).reverse with
    | nil =>
        rw [hblanks, List.append_nil] at htrim
        dsimp only
        rw [htrim, ← h.start]
        exact Text.not_splitsNewline_offset (hwithin.mem hp) (hclean hp _ rfl)
    | cons b blanks =>
        have hb : isBlank b = true := by
          have hmem : b ∈ (h.x.reverse.takeWhile isBlank).reverse := hblanks ▸ List.mem_cons_self
          exact List.all_eq_true.mp List.all_takeWhile b (List.mem_reverse.mp hmem)
        rw [hblanks] at hsplit
        have hhead := @Text.not_splitsNewline_append (h.front ++ Text.trimBlanksEnd h.x)
          (b :: blanks ++ (h.y ++ (h.z ++ (h.last.terminator ++ h.rest)))) (by
            rintro c hc rfl
            cases Option.some.inj hc
            cases hb)
        exact (congrArg (fun text => ¬Text.SplitsNewline text _) hsplit).mpr hhead

/-- All other instructions are kept if a span of the instruction is removed, with the blanks in front
of it, and what is left does not dangle. -/
theorem keepsOthers_of_removed
    (hfirst : ∃ r ∈ inst.chars, isBlank r.char = false ∧ r.offset < span.start)
    (hdangles : ¬Text.Dangles (parse text).escape text (Fix.withLeadingBlanks text span)) :
    KeepsOthers text inst (Text.replaceSpan text (Fix.withLeadingBlanks text span) []) := by
  obtain ⟨p, hp, q, hq, h, hstart, hspan⟩ := exists_stretch_withLeadingBlanks hinst hspan
  rw [hspan] at hdangles ⊢
  rw [hstart] at hfirst
  rw [h.replaceSpan_eq (Text.trimBlanksEnd_prefix _)]
  exact h.keepsOthers_removed hinst hp hq hfirst hdangles

end Spans

end File

end Dockerfile
