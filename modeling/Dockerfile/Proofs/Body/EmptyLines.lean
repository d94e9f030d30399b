import Dockerfile.Proofs.Body.Patched
import Dockerfile.Proofs.Body.Run
import Dockerfile.Proofs.Text.RoundTrip

/-!
# Empty lines in instructions

What a logical line keeps and passes over depends on what its lines say, not on where they stand
(`Body.summary_traces_congr`). Without some of its blank lines it keeps the same, and passes over the
others (`Body.traces_filter`). What the readers record as an empty line is one: a line of blanks with
a terminator, behind the first character that is read (`Body.readUntil_passes`).
-/

namespace Dockerfile

/-- A line of nothing but blanks, with a terminator. -/
def Line.IsEmpty (line : Line) : Prop :=
  line.core = [] ∧ line.terminator ≠ []

theorem Line.comment?_of_isEmpty {line : Line} (h : line.IsEmpty) : line.comment? = none := by
  rw [comment?, h.1]

namespace Body

variable {escape : Char}

theorem extended?_of_isEmpty {line : Line} (h : line.IsEmpty) (opened : Option (List Placed)) :
    extended? escape opened line = none := by
  cases opened with
  | none => simp [extended?, Line.isContent, h.1]
  | some kept => simp [extended?, Line.isSkipped, h.1, h.2]

namespace Trace

def restrict (keep : Span → Bool) (trace : Trace) : Trace :=
  { trace with passed := trace.passed.filter keep }

def summary (trace : Trace) : Text × Nat :=
  (Placed.text trace.kept, trace.passed.length)

variable {keep : Span → Bool} {line : Line}

theorem restrict_pass_of_dropped (h : keep line.span = false) (trace : Trace) :
    (trace.pass line).restrict keep = trace.restrict keep := by
  unfold pass
  split
  · simp [restrict, h]
  · rfl

theorem restrict_pass_of_kept (h : keep line.span = true) (trace : Trace) :
    (trace.pass line).restrict keep = (trace.restrict keep).pass line := by
  unfold pass
  split
  · simp [restrict, h]
  · rfl

theorem kept_restrict (opened : Option Trace) :
    (opened.map (restrict keep)).map kept = opened.map kept := by
  rw [Option.map_map]
  rfl

end Trace

/-- Without some of the blank lines, logical lines keep the same and pass over the others. -/
theorem traces_filter {keep : Span → Bool} {lines : List Line}
    (h : ∀ line ∈ lines, keep line.span = false → line.IsEmpty) (opened : Option Trace) :
    traces escape (opened.map (Trace.restrict keep)) (lines.filter fun line => keep line.span) =
      (traces escape opened lines).map (Trace.restrict keep) := by
  induction lines generalizing opened with
  | nil => cases opened <;> rfl
  | cons line lines ih =>
      have ih := ih fun l hl => h l (List.mem_cons_of_mem _ hl)
      cases hkeep : keep line.span with
      | false =>
          have hpassed := @extended?_of_isEmpty escape _ (h line List.mem_cons_self hkeep)
          rw [show (line :: lines).filter (fun line => keep line.span) = _ from
            List.filter_cons_of_neg (by simp [hkeep]), traces_of_passed (hpassed _), ← ih,
            Option.map_map]
          congr 1
          exact Option.map_congr fun trace _ => (Trace.restrict_pass_of_dropped hkeep trace).symm
      | true =>
          rw [show (line :: lines).filter (fun line => keep line.span) = line :: _ from
            List.filter_cons_of_pos hkeep]
          cases hextended : extended? escape (opened.map Trace.kept) line with
          | none =>
              rw [traces_of_passed hextended,
                traces_of_passed (by rw [Trace.kept_restrict, hextended]), ← ih, Option.map_map,
                Option.map_map]
              congr 1
              exact Option.map_congr fun trace _ => (Trace.restrict_pass_of_kept hkeep trace).symm
          | some kept =>
              have hpassed : ((opened.map (Trace.restrict keep)).map Trace.passed).getD [] =
                  ((opened.map Trace.passed).getD []).filter keep := by
                cases opened <;> rfl
              rw [traces_of_extended hextended,
                traces_of_extended (by rw [Trace.kept_restrict, hextended]), hpassed]
              split
              · exact ih (some ⟨kept, (opened.map Trace.passed).getD []⟩)
              · rw [List.map_cons, ← ih none]
                rfl

theorem Line.Same.comment?_eq {line line' : Line} (h : line.Same line') :
    line'.comment? = line.comment? := by
  rw [Line.comment?, Line.comment?, h.core]

theorem filterMap_comment?_congr {lines lines' : List Line} (h : List.Forall₂ Line.Same lines lines') :
    lines'.filterMap Line.comment? = lines.filterMap Line.comment? := by
  induction h with
  | nil => rfl
  | cons hline _ ih => rw [List.filterMap_cons, List.filterMap_cons, Line.Same.comment?_eq hline, ih]

theorem filterMap_comment?_filter {keep : Span → Bool} {lines : List Line}
    (h : ∀ line ∈ lines, keep line.span = false → line.IsEmpty) :
    (lines.filter fun line => keep line.span).filterMap Line.comment? =
      lines.filterMap Line.comment? := by
  rw [List.filterMap_filter]
  refine List.filterMap_congr fun line hline => ?_
  cases hkeep : keep line.span with
  | false => simp [Line.comment?_of_isEmpty (h line hline hkeep)]
  | true => simp

/-- What logical lines keep, and how many lines they pass over, does not depend on where they stand. -/
theorem summary_traces_congr {lines lines' : List Line} (h : List.Forall₂ Line.Same lines lines')
    {opened opened' : Option Trace}
    (hopened : opened'.map Trace.summary = opened.map Trace.summary) :
    (traces escape opened' lines').map Trace.summary = (traces escape opened lines).map Trace.summary := by
  induction h generalizing opened opened' with
  | nil => simp only [traces, ← Option.toList_map, hopened]
  | @cons line line' lines lines' hline _ ih =>
      have hkept : (opened'.map Trace.kept).map Placed.text = (opened.map Trace.kept).map Placed.text := by
        have := congrArg (Option.map Prod.fst) hopened
        simpa [Option.map_map, Function.comp_def, Trace.summary] using this
      have hpassed : ((opened'.map Trace.passed).getD []).length =
          ((opened.map Trace.passed).getD []).length := by
        have := congrArg (Option.map Prod.snd) hopened
        cases opened <;> cases opened' <;> simp_all [Trace.summary]
      have hextended := @text_extended?_congr escape _ _ line line' hline hkept
      cases hsome : extended? escape (opened.map Trace.kept) line with
      | none =>
          rw [hsome] at hextended
          rw [traces_of_passed hsome, traces_of_passed (Option.map_eq_none_iff.mp hextended)]
          refine ih ?_
          cases opened <;> cases opened' <;> simp_all [Trace.summary, Trace.pass, hline.core]
          split <;> simp_all
      | some kept =>
          rw [hsome] at hextended
          obtain ⟨kept', hkept', htext⟩ := Option.map_eq_some_iff.mp hextended
          rw [traces_of_extended hsome, traces_of_extended hkept', hline.goesOn_eq]
          split
          · exact ih (by simp [Trace.summary, htext, hpassed])
          · rw [List.map_cons, List.map_cons, ih rfl]
            simp [Trace.summary, htext, hpassed]

end Body

/-! ## The lines that are recorded -/

namespace Text

/-- The text can be cut in front of a line wherever a line terminator ends. -/
theorem exists_cut_behind {a b : Text} (margin : ∀ c ∈ a.getLast?, isLineBreak c = true)
    (hcut : ¬(a.getLast? = some '\r' ∧ b.head? = some '\n')) :
    ∃ before, Cut (a ++ b) a b before (linesFrom (byteLength a) (byteLength a) b) := by
  obtain ⟨lead, col, before, rfl, hcol, hleading⟩ :=
    (leading_nil (a ++ b)).exists_last a b rfl hcut
  obtain rfl : col = [] := by
    refine Classical.byContradiction fun hne => ?_
    have hlast := List.getLast?_eq_some_getLast hne
    have hbreak := margin (col.getLast hne) (by rw [List.getLast?_append, hlast]; rfl)
    rw [hcol _ (List.getLast_mem hne)] at hbreak
    cases hbreak
  rw [List.append_nil] at margin ⊢
  exact ⟨before, rfl, hleading, lined_linesFrom _ _, margin⟩

def IsEmptyLine (text : Text) (span : Span) : Prop :=
  ∃ front rest before line after, Cut text front rest before (line :: after) ∧ line.core = [] ∧
    line.terminator ≠ [] ∧ span = line.span

end Text

namespace Body

variable {text : Text} {escape : Char} {chars rest : List Placed}

def AtLine (text : Text) (chars : List Placed) : Prop :=
  ∃ front rest before lines, Text.Cut text front rest before lines ∧
    chars = Text.place (Text.byteLength front) rest

theorem AtLine.of_afterNewline? (hc : chars <:+ Text.place 0 text)
    (h : afterNewline? chars = some rest) : AtLine text rest := by
  obtain ⟨a, b, rfl, rfl⟩ := Text.exists_split_of_suffix_place hc
  cases b with
  | nil => simp [afterNewline?] at h
  | cons c b =>
      have hbreak : isLineBreak c = true := by
        rw [Text.place_cons] at h
        rw [← isSome_afterNewline? ⟨c, 0 + Text.byteLength a⟩, h]
        rfl
      obtain ⟨terminator, more, hsplit, ends⟩ := exists_terminator hbreak b
      rw [hsplit, afterNewline?_place ends] at h
      cases h
      have hlast : ∀ d ∈ (a ++ terminator).getLast?, d ∈ terminator := by
        intro d hd
        rw [List.getLast?_append_of_ne_nil _ ends.ne_nil] at hd
        exact List.mem_of_getLast? hd
      obtain ⟨before, hcut⟩ := @Text.exists_cut_behind (a ++ terminator) more
        (fun d hd => ends.isLineBreak_of_mem (hlast d hd)) (by
          rintro ⟨hreturn, hfeed⟩
          rw [List.getLast?_append_of_ne_nil _ ends.ne_nil] at hreturn
          rcases ends with rfl | rfl | ⟨-, hne⟩
          · simp at hreturn
          · simp at hreturn
          · exact hne hfeed)
      rw [List.append_assoc, ← hsplit] at hcut
      exact ⟨_, _, _, _, hcut, by rw [Text.byteLength_append, Nat.zero_add]⟩

theorem AtLine.of_break {p : Placed} (hc : p :: rest <:+ Text.place 0 text)
    (hp : isLineBreak p.char = true) : AtLine text (dropNewline (p :: rest)) := by
  obtain ⟨after, hafter⟩ := Option.isSome_iff_exists.mp ((isSome_afterNewline? p rest).trans hp)
  rw [dropNewline, hafter]
  exact .of_afterNewline? hc hafter

theorem AtLine.isEmptyLine {p : Placed} (h : AtLine text chars)
    (hdrop : (chars.dropWhile fun q => isBlank q.char) = p :: rest) (hp : isLineBreak p.char = true)
    (stop : Nat) : Text.IsEmptyLine text ⟨Placed.startOr stop chars, p.offset⟩ := by
  obtain ⟨front, more, before, lines, hcut, rfl⟩ := h
  cases lines with
  | nil => exact absurd rfl hcut.lined.ne_nil
  | cons line after =>
      obtain ⟨rest', rfl, hclean, hbreak, hnext⟩ := hcut.exists_next
      rw [← hcut.start_eq, dropWhile_place_line line hbreak] at hdrop
      have hcore : line.core = [] := by
        cases hcore : line.core with
        | nil => rfl
        | cons c core =>
            rw [hcore, List.cons_append, Text.place_cons] at hdrop
            obtain ⟨rfl, -⟩ := List.cons.inj hdrop
            have hc : c ∈ line.content := by
              rw [← line.indent_append_core, hcore]
              exact List.mem_append_right _ List.mem_cons_self
            rw [hclean c hc] at hp
            cases hp
      have hindent : line.indent = line.content := by
        rw [← line.indent_append_core, hcore, List.append_nil]
      rw [hcore, hindent, List.nil_append] at hdrop
      have hterm : line.terminator ≠ [] := by
        rintro hterm
        rcases hnext with ⟨-, -, hnil⟩ | ⟨ends, -⟩
        · simp [hterm, hnil] at hdrop
        · exact ends.ne_nil hterm
      refine ⟨front, _, before, line, after, hcut, hcore, hterm, ?_⟩
      obtain ⟨b, terminator, hb⟩ := List.exists_cons_of_ne_nil hterm
      rw [hb, List.cons_append, Text.place_cons] at hdrop
      obtain ⟨rfl, -⟩ := List.cons.inj hdrop
      have hstart : Placed.startOr stop (Text.place (Text.byteLength front)
          (line.content ++ (line.terminator ++ rest'))) = line.start := by
        rw [← hcut.start_eq, hb]
        cases line.content <;> rfl
      rw [hstart]
      rfl

/-- What is recorded as passed over is an empty line, and begins with one of the characters read. -/
theorem skipLines_passes {stop : Nat} (hc : chars <:+ Text.place 0 text)
    (h : chars ≠ [] → AtLine text chars) {span : Span} (hspan : span ∈ (skipLines stop chars).emptyLines) :
    Text.IsEmptyLine text span ∧ ∃ r ∈ chars, span.start = r.offset := by
  fun_induction skipLines stop chars with
  | case1 => cases hspan
  | case2 chars p rest hdrop hp next ih =>
      have hsuf : p :: rest <:+ chars := suffix_of_dropWhile hdrop
      have hne : chars ≠ [] := by
        rintro rfl
        cases hdrop
      rcases List.mem_cons.mp hspan with rfl | hspan
      · refine ⟨(h hne).isEmptyLine hdrop hp _, ?_⟩
        obtain ⟨q, chars, rfl⟩ := List.exists_cons_of_ne_nil hne
        exact ⟨q, List.mem_cons_self, rfl⟩
      · have hnext := (dropNewline_suffix (p :: rest)).trans hsuf
        obtain ⟨hempty, r, hr, hstart⟩ := ih (hnext.trans hc)
          (fun _ => .of_break (hsuf.trans hc) hp) hspan
        exact ⟨hempty, r, hnext.subset hr, hstart⟩
  | case3 chars p rest hdrop _ hmark comment next ih =>
      have hsuf : p :: rest <:+ chars := suffix_of_dropWhile hdrop
      have hread : comment.2 <:+ p :: rest :=
        (Comment.read_suffix _ _ rest).trans (List.suffix_cons _ _)
      have hline : comment.2 ≠ [] → AtLine text comment.2 := by
        intro hne
        show AtLine text (dropNewline (rest.dropWhile fun q => !isLineBreak q.char))
        cases hbody : rest.dropWhile fun q => !isLineBreak q.char with
        | nil =>
            refine absurd ?_ hne
            show dropNewline (rest.dropWhile fun q => !isLineBreak q.char) = []
            rw [hbody]
            rfl
        | cons b tail =>
            have hb := @List.head?_dropWhile_not _ (fun q : Placed => !isLineBreak q.char) rest
            rw [hbody] at hb
            refine .of_break ?_ (by simpa using hb)
            exact (suffix_of_dropWhile hbody).trans ((List.suffix_cons p rest).trans (hsuf.trans hc))
      obtain ⟨hempty, r, hr, hstart⟩ := ih ((hread.trans hsuf).trans hc) hline hspan
      exact ⟨hempty, r, (hread.trans hsuf).subset hr, hstart⟩
  | case4 => cases hspan

/-- What a reader records as an empty line is one, and begins behind a character that was read. -/
theorem readUntil_passes {ends : Char → Bool} {stop : Nat} (hc : chars <:+ Text.place 0 text)
    {span : Span} (hspan : span ∈ (readUntil ends escape stop chars).emptyLines) :
    Text.IsEmptyLine text span ∧ ∃ r ∈ chars, r.offset < span.start := by
  fun_induction readUntil ends escape stop chars with
  | case1 => cases hspan
  | case2 p rest after hafter skipped next ih =>
      obtain ⟨_, tail, heq, -, hnewline⟩ := exists_of_afterContinuation? hafter
      cases heq
      have hsuf : after <:+ rest :=
        (afterNewline?_tiling hnewline : Tiling escape 0 _ _ _ _).suffix.trans (List.dropWhile_suffix _)
      have hskip : skipped.rest <:+ after := (skipLines_tiling after : Tiling escape _ _ _ _ _).suffix
      have hrest : rest <:+ Text.place 0 text := (List.suffix_cons p rest).trans hc
      rcases List.mem_append.mp hspan with hspan | hspan
      · obtain ⟨hempty, r, hr, hstart⟩ := skipLines_passes (hsuf.trans hrest)
          (fun _ => .of_afterNewline? ((List.dropWhile_suffix _).trans hrest) hnewline) hspan
        refine ⟨hempty, p, List.mem_cons_self, ?_⟩
        have hordered := (Text.pairwise_place 0 text).sublist hc.sublist
        have hbehind := List.rel_of_pairwise_cons hordered (hsuf.subset hr)
        have := p.offset_lt_stop
        omega
      · obtain ⟨hempty, r, hr, hlt⟩ := ih ((hskip.trans hsuf).trans hrest) hspan
        exact ⟨hempty, r, List.mem_cons_of_mem _ ((hskip.trans hsuf).subset hr), hlt⟩
  | case3 => cases hspan
  | case4 p rest _ _ next ih =>
      obtain ⟨hempty, r, hr, hlt⟩ := ih ((List.suffix_cons p rest).trans hc) hspan
      exact ⟨hempty, r, List.mem_cons_of_mem _ hr, hlt⟩

end Body

end Dockerfile
