import Dockerfile.Proofs.Directive.Entry
import Dockerfile.Proofs.File.Patched
import Mathlib.Algebra.Order.BigOperators.Group.List
import Mathlib.Algebra.Order.Group.Nat

/-!
# Files without an empty line

The empty lines that an instruction passes over can be removed: directives and comments stay what
they are, and so do all instructions, but that one of them passes over fewer lines
(`File.unlined_of_cut`). A line feed alone in the next line then belongs to the carriage return in
front of it, and the line is gone too; but it was empty as well.
-/

namespace Dockerfile

namespace File

variable {text : Text}

/-- An empty line that an instruction passes over stands behind the first line of the body. -/
theorem exists_body_of_emptyLine {inst : Instruction} (hinst : inst ∈ (parse text).instructions)
    {span : Span} (hspan : span ∈ inst.emptyLines) :
    ∃ taken before line after found front rest, line.IsEmpty ∧ span = line.span ∧ before ≠ [] ∧
      Bodied text taken (before ++ line :: after) found ∧
      Text.Cut text front rest (taken ++ before) (line :: after) := by
  obtain ⟨taken, lines, found, hbodied⟩ := Bodied.exists_of_mem hinst
  obtain ⟨start, hstart, rfl⟩ := Body.exists_lineAt_of_mem (mem_logicalLines hinst)
  rw [Body.lineAt_emptyLines] at hspan
  have hchars := bodyChars_suffix text
  obtain ⟨⟨front, rest, before, line, after, hcut, hcore, hterm, rfl⟩, r, hr, hlt⟩ :=
    Body.readUntil_passes (hstart.trans hchars) hspan
  obtain ⟨lead, body, hlead, hread⟩ := hbodied.readAll_eq
  obtain ⟨first, tail, rfl, -⟩ := hbodied.first
  have hbehind : first.start < line.start := by
    have hle := hstart.subset hr
    rw [hread, Directive.bodyChars] at hle
    have := (Text.offset_of_mem_place hle).1
    rw [hlead.start_eq]
    exact Nat.lt_of_le_of_lt this hlt
  have hlines := hcut.lines_eq
  have hordered := (lined_lines text).pairwise
  rw [hbodied.lines_eq] at hlines hordered
  rcases List.append_eq_append_iff.mp hlines with ⟨mid, rfl, htail⟩ | ⟨mid, rfl, hmid⟩
  · cases mid with
    | nil =>
        obtain ⟨rfl, -⟩ := List.cons.inj htail
        exact absurd hbehind (Nat.lt_irrefl _)
    | cons l mid =>
        exact ⟨taken, l :: mid, line, after, found, front, rest, ⟨hcore, hterm⟩, rfl, by simp,
          htail ▸ hbodied, hcut⟩
  · exfalso
    cases mid with
    | nil =>
        obtain ⟨rfl, -⟩ := List.cons.inj hmid
        exact absurd hbehind (Nat.lt_irrefl _)
    | cons l mid =>
        obtain ⟨rfl, -⟩ := List.cons.inj hmid
        have := (List.pairwise_append.mp hordered).2.2 line
          (List.mem_append_right _ List.mem_cons_self) first List.mem_cons_self
        have : line.start ≤ line.stop := Nat.le_add_right _ _
        omega

def emptyLines (file : File) : List Span :=
  file.instructions.flatMap Instruction.emptyLines

/-- One text is the other without empty lines that instructions pass over, `span` among them. -/
structure Unlined (text : Text) (span : Span) (text' : Text) : Prop where
  directives : (parse text').directives = (parse text).directives
  comments : (parse text').comments.map Comment.text = (parse text).comments.map Comment.text
  lines : ∃ keep : Span → Bool, keep span = false ∧
    (logicalLines text').map Body.summary = (logicalLines text).map fun line =>
      (Placed.text line.chars, (line.emptyLines.filter keep).length)

namespace Unlined

variable {span : Span} {text' : Text} (h : Unlined text span text')
include h

/-- Every instruction says the same, but that it passes over fewer lines. -/
theorem exists_reading : ∃ keep : Span → Bool, keep span = false ∧
    (parse text').instructions.map Instruction.reading = (parse text).instructions.map fun inst =>
      { inst.reading with emptyLines := (inst.emptyLines.filter keep).length } := by
  obtain ⟨keep, hspan, hlines⟩ := h.lines
  refine ⟨keep, hspan, ?_⟩
  have hescape : (parse text').escape = (parse text).escape := by
    rw [File.escape, File.escape, h.directives]
  rw [instructions_reading, hlines, hescape, instructions_parse, List.filter_map, List.map_map,
    List.filter_congr (p := Instruction.isNamed) fun line hmem => (line_reading hmem).1]
  refine List.map_congr_left fun line hmem => ?_
  rw [(line_reading (List.mem_filter.mp hmem).1).2]
  rfl

theorem keepsAll : KeepsAll text text' := by
  obtain ⟨keep, -, hreading⟩ := h.exists_reading
  have hwording := congrArg (List.map fun r : Instruction.Reading => (r.keyword, r.arguments)) hreading
  rwa [List.map_map, List.map_map] at hwording

theorem texts_eq :
    (parse text').instructions.map (fun inst => (inst.keyword.text, inst.region.text)) =
      (parse text).instructions.map fun inst => (inst.keyword.text, inst.region.text) := by
  obtain ⟨keep, -, hreading⟩ := h.exists_reading
  have htexts := congrArg (List.map fun r : Instruction.Reading => (r.keyword, r.region)) hreading
  rwa [List.map_map, List.map_map] at htexts

/-- An instruction that passed over the line has one line less to pass over. -/
theorem emptyLines_lt {inst : Instruction} (hinst : inst ∈ (parse text).instructions)
    (hspan : span ∈ inst.emptyLines) :
    (parse text').emptyLines.length < (parse text).emptyLines.length := by
  obtain ⟨keep, hdropped, hreading⟩ := h.exists_reading
  have hcounts := congrArg (List.map Instruction.Reading.emptyLines) hreading
  rw [List.map_map, List.map_map] at hcounts
  have hcounts := congrArg List.sum hcounts
  rw [emptyLines, emptyLines, List.length_flatMap, List.length_flatMap]
  refine lt_of_eq_of_lt hcounts (List.sum_lt_sum _ _ ?_ ⟨inst, hinst, ?_⟩)
  · exact fun i _ => List.length_filter_le _ _
  · refine Nat.lt_of_le_of_ne (List.length_filter_le _ _) fun heq => ?_
    have hkept := List.filter_eq_self.mp (List.filter_sublist.eq_of_length heq) span hspan
    rw [hdropped] at hkept
    cases hkept

end Unlined

/-- Lines are told from the others by their places. -/
theorem exists_keep {start : Nat} {text : Text} {front gone kept : List Line}
    (h : Lined start text (front ++ (gone ++ kept))) :
    ∃ keep : Span → Bool, (∀ line ∈ gone, keep line.span = false) ∧
      ∀ line ∈ front ++ kept, keep line.span = true := by
  obtain ⟨-, hrest, hfront⟩ := List.pairwise_append.mp h.pairwise
  obtain ⟨-, -, hkept⟩ := List.pairwise_append.mp hrest
  refine ⟨fun span => decide (span ∉ gone.map Line.span),
    fun line hline => decide_eq_false (by simpa using ⟨line, hline, rfl⟩),
    fun line hline => decide_eq_true ?_⟩
  intro hmem
  obtain ⟨l, hl, hspan⟩ := List.mem_map.mp hmem
  have hstart : l.start = line.start := congrArg Span.start hspan
  have hle : l.start ≤ l.stop := Nat.le_add_right _ _
  have hle' : line.start ≤ line.stop := Nat.le_add_right _ _
  rcases List.mem_append.mp hline with hline | hline
  · have := hfront line hline l (List.mem_append_left _ hl)
    omega
  · have := hkept l hl line hline
    omega

/-- A file whose body has the same lines, but for empty ones. -/
theorem Bodied.unlined {text' : Text} {taken front gone kept lines' : List Line}
    {found : List Directive} (h : Bodied text taken (front ++ (gone ++ kept)) found)
    (h' : Bodied text' taken lines' found) (hgone : ∀ l ∈ gone, l.IsEmpty)
    (hsame : List.Forall₂ Line.Same (front ++ kept) lines') {line : Line} (hline : line ∈ gone) :
    Unlined text line.span text' := by
  have hescape : (parse text').escape = (parse text).escape := by
    rw [File.escape, File.escape, h.directives_eq, h'.directives_eq]
  obtain ⟨start, lead, hlead, -⟩ := h.readAll_eq
  obtain ⟨keep, hdropped, hkept⟩ := exists_keep hlead.lined
  have hfilter : ((front ++ (gone ++ kept)).filter fun l => keep l.span) = front ++ kept := by
    rw [List.filter_append, List.filter_append,
      List.filter_eq_self.mpr fun l hl => hkept l (List.mem_append_left _ hl),
      List.filter_eq_self.mpr fun l hl => hkept l (List.mem_append_right _ hl),
      List.filter_eq_nil_iff.mpr fun l hl => by simp [hdropped l hl], List.nil_append]
  have hempty : ∀ l ∈ front ++ (gone ++ kept), keep l.span = false → l.IsEmpty := by
    intro l hl hfalse
    rcases List.mem_append.mp hl with hl | hl
    · simp [hkept l (List.mem_append_left _ hl)] at hfalse
    · rcases List.mem_append.mp hl with hl | hl
      · exact hgone l hl
      · simp [hkept l (List.mem_append_right _ hl)] at hfalse
  refine ⟨by rw [h.directives_eq, h'.directives_eq], h.comments_congr h' ?_, keep,
    hdropped line hline, ?_⟩
  · rw [Body.filterMap_comment?_congr hsame, ← hfilter, Body.filterMap_comment?_filter hempty]
  · have htraces := congrArg (List.map Body.Trace.summary) h'.traces_eq
    have hall := @Body.traces_filter (parse text).escape keep _ hempty none
    rw [hfilter, Option.map_none] at hall
    rw [hescape, Body.summary_traces_congr hsame rfl, hall, ← h.traces_eq, List.map_map,
      List.map_map, List.map_map] at htraces
    exact htraces

/-- An empty line that is not the first of the body can be removed. -/
theorem unlined_of_cut {taken before after : List Line} {line : Line} {found : List Directive}
    {front rest : Text} (hempty : line.IsEmpty) (hbefore : before ≠ [])
    (hbodied : Bodied text taken (before ++ line :: after) found)
    (hcut : Text.Cut text front rest (taken ++ before) (line :: after)) :
    ∃ rest', text = front ++ ((line.content ++ line.terminator) ++ rest') ∧
      Unlined text line.span (front ++ rest') := by
  obtain ⟨rest', rfl, -, -, ⟨-, hnil, -⟩ | ⟨-, hnext⟩⟩ := hcut.exists_next
  · exact absurd hnil hempty.2
  obtain ⟨before', lines, start, hsame, hbodied', hbehind⟩ := hbodied.exists_behind hbefore hcut rest'
  obtain ⟨gone, kept, rfl, hgone, hkept⟩ : ∃ gone kept, after = gone ++ kept ∧
      (∀ l ∈ gone, l.IsEmpty) ∧ List.Forall₂ Line.Same kept lines := by
    rcases hbehind with hlined | ⟨more, rfl, hlined⟩
    · exact ⟨[], after, rfl, by simp, hlined.linesFrom_eq ▸ hnext.lined.same _⟩
    · -- The line feed ended a further empty line.
      have hends : IsTerminator ['\n'] more := .inr (.inl rfl)
      have hfeed := @Text.linesFrom_line [] _ _ (by simp) hends
        (Text.byteLength (front ++ (line.content ++ line.terminator)))
        (Text.byteLength (front ++ (line.content ++ line.terminator)))
      rw [List.nil_append, List.singleton_append, hnext.lined.linesFrom_eq] at hfeed
      refine ⟨[⟨_, [], ['\n']⟩], _, hfeed, ?_, hlined.linesFrom_eq ▸ (lined_linesFrom _ _).same _⟩
      intro l hl
      rw [List.mem_singleton.mp hl]
      exact ⟨rfl, by simp⟩
  refine ⟨rest', ?_, ?_⟩
  · rw [hcut.split]
    simp only [List.append_assoc]
  have hsplit : before ++ line :: (gone ++ kept) = before ++ ((line :: gone) ++ kept) := rfl
  refine Bodied.unlined (hsplit ▸ hbodied) hbodied' ?_ (List.rel_append hsame hkept)
    List.mem_cons_self
  intro l hl
  rcases List.mem_cons.mp hl with rfl | hl
  · exact hempty
  · exact hgone l hl

end File

end Dockerfile
