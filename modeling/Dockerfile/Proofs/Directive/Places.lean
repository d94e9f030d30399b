import Dockerfile.File
import Dockerfile.Proofs.Body.Readers
import Dockerfile.Proofs.Text.Lines

/-!
# The places of directives

A directive covers its lines from the mark on, and the directives of a file cover its first lines up
to where the body begins (`Directive.readAll_tiling`). All spans of a directive lie in the text.
-/

namespace Dockerfile

namespace Directive

/-- What a line says that is read as a directive: where its mark, its name and its value stand. -/
theorem exists_of_ofLine? {line : Line} {d : Directive} (h : ofLine? line = some d) :
    ∃ blanks body, line.content = blanks ++ '#' :: body ∧ (∀ c ∈ blanks, isBlank c = true) ∧
      d.span = ⟨line.start + Text.byteLength blanks, line.stop⟩ ∧
      d.name.chars.Sublist (Text.place line.start line.content) ∧
      d.name.anchor = line.start + Text.byteLength (blanks ++ ['#']) ∧
      ∃ a b, line.content = a ++ b ∧ d.value = Text.trimBlanksEnd b ∧
        d.valueSpan = ⟨line.start + Text.byteLength a,
          line.start + Text.byteLength a + Text.byteLength d.value⟩ := by
  have hsplit : Text.place line.start line.content =
      (Text.place line.start line.content).takeWhile (fun p => isBlank p.char) ++
        (Text.place line.start line.content).dropWhile (fun p => isBlank p.char) :=
    List.takeWhile_append_dropWhile.symm
  simp only [ofLine?] at h
  split at h
  · cases h
  · rename_i mark rest hmark
    split at h
    · rename_i first _ equals rest' hname hrest
      split at h
      · rename_i hok
        cases h
        have hsuf : mark :: rest <:+ Text.place line.start line.content :=
          suffix_of_dropWhile hmark
        obtain ⟨blanks, tail, hcontent, hplace⟩ := Text.exists_split_of_suffix_place hsuf
        have hvalue : (rest'.dropWhile fun p => isBlank p.char) <:+
            Text.place line.start line.content := by
          refine (List.dropWhile_suffix _).trans ((List.suffix_cons equals rest').trans ?_)
          rw [← hrest]
          exact (((List.dropWhile_suffix _).trans (List.dropWhile_suffix _)).trans
            (List.dropWhile_suffix _)).trans ((List.suffix_cons mark rest).trans hsuf)
        obtain ⟨a, b, hab, hb⟩ := Text.exists_split_of_suffix_place hvalue
        cases tail with
        | nil => cases hplace
        | cons c body =>
            obtain ⟨rfl, hbody⟩ := List.cons.inj hplace
            have hc : c = '#' := hok.1
            subst hc
            refine ⟨blanks, body, hcontent, ?_, rfl, ?_, ?_, a, b, hab, ?_, ?_⟩
            · intro c hc
              rw [hmark] at hsplit
              have htake : Text.place line.start blanks =
                  (Text.place line.start line.content).takeWhile fun p => isBlank p.char := by
                rw [hcontent, Text.place_append] at hsplit
                rw [hcontent, Text.place_append]
                exact List.append_inj_left' hsplit (by simp [hbody])
              have hall : ((Text.place line.start blanks).all fun p => isBlank p.char) = true := by
                rw [htake]; exact List.all_takeWhile
              have hmem : c ∈ Placed.text (Text.place line.start blanks) := by
                rwa [Text.text_place]
              obtain ⟨p, hp, rfl⟩ := List.mem_map.mp hmem
              exact List.all_eq_true.mp hall p hp
            · exact ((List.takeWhile_sublist _).trans (List.dropWhile_sublist _)).trans
                ((List.sublist_cons_self _ _).trans hsuf.sublist)
            · simp [Placed.stop, Placed.size, Nat.add_assoc]
            · rw [hb, Text.text_place]
            · have hstop : line.stop = line.start + Text.byteLength a + Text.byteLength b := by
                rw [Line.stop, hab, Text.byteLength_append, Nat.add_assoc]
              rw [hb, hstop, Text.startOr_place, Text.text_place]
      · cases h
    · cases h

def bodyChars (text : Text) (resume : Nat) : List Placed :=
  Text.place resume (Text.dropBytes resume text)

theorem bodyChars_append (a b : Text) :
    bodyChars (a ++ b) (Text.byteLength a) = Text.place (Text.byteLength a) b := by
  rw [bodyChars, Text.dropBytes_append_byteLength]

theorem bodyChars_byteLength (text : Text) : bodyChars text (Text.byteLength text) = [] := by
  have hnil := bodyChars_append text []
  rwa [List.append_nil] at hnil

theorem comment_eq {text before body after : Text} {d : Directive}
    (htext : text = before ++ '#' :: (body ++ after))
    (hspan : d.span = ⟨Text.byteLength before,
      Text.byteLength before + 1 + Text.byteLength body⟩) :
    d.comment text = Comment.ofBody (Text.byteLength before)
      (Text.byteLength before + 1 + Text.byteLength body) body := by
  have hbefore : Text.byteLength before + 1 = Text.byteLength (before ++ ['#']) := by
    rw [Text.byteLength_append]; rfl
  have hslice := Text.slice_append (before ++ ['#']) body after
  rw [List.append_assoc, List.singleton_append] at hslice
  rw [comment, hspan, htext, hbefore, hslice]

theorem mark_size : ('#' : Char).utf8Size = 1 := rfl

theorem mark_char (offset : Nat) : (⟨'#', offset⟩ : Placed).char = '#' := rfl

theorem comment_tiling {escape : Char} {text before body after : Text} {d : Directive}
    {comments : List Comment} {rest : List Placed}
    (htext : text = before ++ '#' :: (body ++ after))
    (hspan : d.span = ⟨Text.byteLength before,
      Text.byteLength before + 1 + Text.byteLength body⟩)
    (next : Tiling escape (Text.byteLength text)
      (Text.place (Text.byteLength before + 1 + Text.byteLength body) after) comments [] rest) :
    Tiling escape (Text.byteLength text) (Text.place (Text.byteLength before) ('#' :: (body ++ after)))
      (d.comment text :: comments) [] rest := by
  have hlen : Text.byteLength text =
      Text.byteLength before + 1 + Text.byteLength body + Text.byteLength after := by
    rw [htext]
    simp only [Text.byteLength_append, Text.byteLength_cons, mark_size]
    omega
  have hstart : Placed.startOr (Text.byteLength text)
      (Text.place (Text.byteLength before + 1 + Text.byteLength body) after) =
        Text.byteLength before + 1 + Text.byteLength body := by
    rw [hlen, Text.startOr_place]
  rw [comment_eq htext hspan, Text.place_cons, Text.place_append]
  have h : Tiling escape (Text.byteLength text) _ (Comment.ofBody _ _ (Placed.text
      (Text.place (Text.byteLength before + 1) body)) :: comments) [] rest :=
    .comment (mark_char (Text.byteLength before)) next
  rwa [hstart, Text.text_place] at h

theorem exists_mark_of_ofLine? (escape : Char) {text before rest : Text} {line : Line}
    {d : Directive} (htext : text = before ++ (line.content ++ (line.terminator ++ rest)))
    (hstart : line.start = Text.byteLength before) (h : ofLine? line = some d) :
    ∃ before' body, text = before' ++ '#' :: (body ++ (line.terminator ++ rest)) ∧
      d.span = ⟨Text.byteLength before', Text.byteLength before' + 1 + Text.byteLength body⟩ ∧
      Text.byteLength before' + 1 + Text.byteLength body + Text.byteLength line.terminator =
        Text.byteLength before + Text.byteLength (line.content ++ line.terminator) ∧
      Tiling escape (Text.byteLength text)
        (Text.place (Text.byteLength before) (line.content ++ (line.terminator ++ rest))) [] []
        (Text.place (Text.byteLength before') ('#' :: (body ++ (line.terminator ++ rest)))) := by
  obtain ⟨blanks, body, hcontent, hblanks, hspan, -⟩ := exists_of_ofLine? h
  refine ⟨before ++ blanks, body, ?_, ?_, ?_, ?_⟩
  · rw [htext, hcontent]
    simp only [List.append_assoc, List.cons_append]
  · rw [hspan, Line.stop, hcontent, hstart]
    simp only [Text.byteLength_append, Text.byteLength_cons, mark_size, Span.mk.injEq, true_and]
    omega
  · rw [hcontent]
    simp only [Text.byteLength_append, Text.byteLength_cons, mark_size]
    omega
  · rw [hcontent, Text.byteLength_append, List.append_assoc]
    exact .of_place fun c hc => .inl (hblanks c hc)

/-- The directive at hand and those behind it cover the text from its mark to the body. -/
theorem readFrom_tiling (escape : Char) {text : Text} (lines : List Line) :
    ∀ {before body terminator rest : Text} {d : Directive},
      text = before ++ '#' :: (body ++ (terminator ++ rest)) →
      d.span = ⟨Text.byteLength before, Text.byteLength before + 1 + Text.byteLength body⟩ →
      (∀ c ∈ terminator, isLineBreak c = true) →
      (lines = [] ∧ terminator ++ rest = [] ∨
        Lined (Text.byteLength before + 1 + Text.byteLength body + Text.byteLength terminator)
          rest lines) →
      Tiling escape (Text.byteLength text)
        (Text.place (Text.byteLength before) ('#' :: (body ++ (terminator ++ rest))))
        ((readFrom (Text.byteLength text) (some d) lines).1.map (comment text)) []
        (bodyChars text (readFrom (Text.byteLength text) (some d) lines).2) := by
  induction lines with
  | nil =>
      intro before body terminator rest d htext hspan _ hlines
      have hend : terminator ++ rest = [] := by
        rcases hlines with ⟨-, hend⟩ | hlined
        · exact hend
        · cases hlined
      refine comment_tiling htext hspan ?_
      show Tiling _ _ _ [] [] (bodyChars text (Text.byteLength text))
      rw [hend, bodyChars_byteLength]
      exact .done _
  | cons line lines ih =>
      intro before body terminator rest d htext hspan hterm hlines
      have hlined := hlines.resolve_left (by simp)
      obtain ⟨rest', rfl, hstart, hclean, hbreak, hnext⟩ := hlined.exists_head
      have hterm' (offset : Nat) (after : Text) : Tiling escape (Text.byteLength text)
          (Text.place offset (terminator ++ after)) [] []
          (Text.place (offset + Text.byteLength terminator) after) :=
        .of_place fun c hc => .inr (hterm c hc)
      have hsplit : text = (before ++ '#' :: (body ++ terminator)) ++
          (line.content ++ (line.terminator ++ rest')) := by
        rw [htext]; simp only [List.append_assoc, List.cons_append]
      have hoffset : line.start = Text.byteLength (before ++ '#' :: (body ++ terminator)) := by
        rw [hstart]
        simp only [Text.byteLength_append, Text.byteLength_cons, mark_size]
        omega
      cases hopen : d.isOpen with
      | true =>
          have hfound : readFrom (Text.byteLength text) (some d) (line :: lines) =
              readFrom (Text.byteLength text) (some (d.extend line)) lines := by
            rw [readFrom, if_pos hopen]
          have htext' : text = before ++ '#' :: ((body ++ (terminator ++ line.content)) ++
              (line.terminator ++ rest')) := by
            rw [htext]; simp only [List.append_assoc]
          have h := ih (d := d.extend line) htext' ?_ hbreak ?_
          · rw [hfound]
            simpa only [List.append_assoc] using h
          · simp only [extend, hspan, Line.stop, hstart, Text.byteLength_append]
            simp only [Span.mk.injEq, true_and]
            omega
          · rcases hnext with hnil | ⟨-, hnext⟩
            · exact .inl hnil
            · refine .inr ?_
              simpa only [Text.byteLength_append, Nat.add_assoc] using hnext
      | false =>
          cases hline : ofLine? line with
          | none =>
              have hfound : readFrom (Text.byteLength text) (some d) (line :: lines) =
                  ([d], line.start) := by
                rw [readFrom, if_neg (by simp [hopen]), hline]
              have hbody := bodyChars_append (before ++ '#' :: (body ++ terminator))
                (line.content ++ (line.terminator ++ rest'))
              rw [hfound]
              refine comment_tiling htext hspan ?_
              rw [← hsplit, ← hoffset] at hbody
              rw [hbody, hstart]
              exact hterm' _ _
          | some next =>
              have hfound : readFrom (Text.byteLength text) (some d) (line :: lines) =
                  (d :: (readFrom (Text.byteLength text) (some next) lines).1,
                    (readFrom (Text.byteLength text) (some next) lines).2) := by
                rw [readFrom, if_neg (by simp [hopen]), hline]
              obtain ⟨before', body', htext', hspan', hlen, hmark⟩ :=
                exists_mark_of_ofLine? escape hsplit hoffset hline
              rw [← hoffset, hstart] at hlen hmark
              have h := ih htext' hspan' hbreak (by rw [hlen]; exact hnext.imp id And.right)
              rw [hfound]
              exact comment_tiling htext hspan ((hterm' _ _).trans (hmark.trans h))

/-- The directives of a file cover it up to its body. -/
theorem readAll_tiling (escape : Char) (text : Text) :
    Tiling escape (Text.byteLength text) (Text.place 0 text)
      ((readAll text).1.map (comment text)) [] (bodyChars text (readAll text).2) := by
  have hlined := lined_lines text
  unfold readAll
  cases hlines : Text.lines text with
  | nil => rw [hlines] at hlined; cases hlined
  | cons line lines =>
      rw [hlines] at hlined
      obtain ⟨rest, htext, hstart, -, hbreak, hnext⟩ := hlined.exists_head
      cases hline : ofLine? line with
      | none =>
          have hfound : readFrom (Text.byteLength text) none (line :: lines) = ([], line.start) := by
            rw [readFrom, hline]
          have hbody := bodyChars_append [] text
          rw [hfound, hstart]
          rw [List.nil_append, Text.byteLength_nil] at hbody
          rw [hbody]
          exact .done _
      | some d =>
          have hfound : readFrom (Text.byteLength text) none (line :: lines) =
              readFrom (Text.byteLength text) (some d) lines := by
            rw [readFrom, hline]
          obtain ⟨before, body, htext', hspan, hlen, hmark⟩ :=
            @exists_mark_of_ofLine? escape text [] rest line d htext hstart hline
          rw [hfound]
          rw [Text.byteLength_nil, ← htext] at hmark
          rw [Text.byteLength_nil] at hlen
          exact hmark.trans (readFrom_tiling escape lines htext' hspan hbreak
            (by rw [hlen]; exact hnext.imp id And.right))

/-! ## Spans -/

/-- All spans of the directive lie in the text, and the value ends within the directive. -/
structure Within (text : Text) (d : Directive) : Prop where
  name : d.name.Within text
  value : d.valueSpan.WellPlaced text
  span : d.span.WellPlaced text
  value_stop : d.valueSpan.stop ≤ d.span.stop

section Spans

variable {text before rest : Text} {line : Line} {d : Directive}

theorem line_stop_boundary (htext : text = before ++ (line.content ++ rest))
    (hstart : line.start = Text.byteLength before) : Text.isBoundary text line.stop = true :=
  Text.isBoundary_iff.mpr ⟨before ++ line.content, rest, by rw [htext, List.append_assoc],
    by rw [Line.stop, hstart, Text.byteLength_append]⟩

theorem ofLine?_within (htext : text = before ++ (line.content ++ rest))
    (hstart : line.start = Text.byteLength before) (h : ofLine? line = some d) :
    d.Within text := by
  obtain ⟨blanks, body, hcontent, -, hspan, hname, hanchor, a, b, hab, hvalue, hvalueSpan⟩ :=
    exists_of_ofLine? h
  obtain ⟨tail, htail⟩ := Text.trimBlanksEnd_prefix b
  rw [← hvalue] at htail
  have hplace : (Text.place line.start line.content).Sublist (Text.place 0 text) := by
    rw [htext, Text.place_append, Text.place_append, Nat.zero_add, hstart]
    exact (List.sublist_append_left _ _).trans (List.sublist_append_right _ _)
  have hstop : line.stop = line.start + Text.byteLength line.content := rfl
  refine ⟨⟨hname.trans hplace, ?_⟩, ?_, ?_, ?_⟩
  · refine Text.isBoundary_iff.mpr ⟨before ++ (blanks ++ ['#']), body ++ rest, ?_, ?_⟩
    · rw [htext, hcontent]; simp
    · rw [hanchor, hstart, Text.byteLength_append]
  · rw [hvalueSpan]
    refine .of_boundaries (Nat.le_add_right _ _) ?_ ?_
    · refine Text.isBoundary_iff.mpr ⟨before ++ a, b ++ rest, ?_, ?_⟩
      · rw [htext, hab]; simp
      · rw [hstart, Text.byteLength_append]
    · refine Text.isBoundary_iff.mpr ⟨before ++ (a ++ d.value), tail ++ rest, ?_, ?_⟩
      · rw [htext, hab, ← htail]; simp
      · rw [hstart, Text.byteLength_append, Text.byteLength_append, Nat.add_assoc]
  · rw [hspan]
    refine .of_boundaries ?_ ?_ (line_stop_boundary htext hstart)
    · rw [hstop, hcontent, Text.byteLength_append]
      omega
    · refine Text.isBoundary_iff.mpr ⟨before ++ blanks, '#' :: body ++ rest, ?_, ?_⟩
      · rw [htext, hcontent]; simp
      · rw [hstart, Text.byteLength_append]
  · have hlen := congrArg Text.byteLength htail
    rw [hvalueSpan, hspan, hstop, hab]
    simp only [Text.byteLength_append] at hlen ⊢
    omega

theorem extend_within (htext : text = before ++ (line.content ++ rest))
    (hstart : line.start = Text.byteLength before) (h : d.Within text)
    (hle : d.span.stop ≤ line.start) : (d.extend line).Within text := by
  obtain ⟨tail, htail⟩ := Text.trimBlanksEnd_prefix line.content
  have hlen := congrArg Text.byteLength htail
  rw [Text.byteLength_append] at hlen
  have hordered := h.value.ordered
  have hspan := h.span.ordered
  have hvalue := h.value_stop
  have hstop : line.stop = line.start + Text.byteLength line.content := rfl
  refine ⟨h.name, ?_, ?_, ?_⟩
  · refine .of_boundaries (by omega) h.value.start_boundary ?_
    refine Text.isBoundary_iff.mpr
      ⟨before ++ Text.trimBlanksEnd line.content, tail ++ rest, ?_, ?_⟩
    · rw [htext, List.append_assoc, ← List.append_assoc _ tail, htail]
    · rw [hstart, Text.byteLength_append]
  · refine .of_boundaries (by omega) h.span.start_boundary (line_stop_boundary htext hstart)
  · simp only [extend]
    omega

end Spans

theorem readFrom_within {text : Text} (lines : List Line) :
    ∀ {current : Option Directive}, (∀ d ∈ current, d.Within text) →
      (lines = [] ∨ ∃ before rest, text = before ++ rest ∧
        Lined (Text.byteLength before) rest lines ∧
        ∀ d ∈ current, d.span.stop ≤ Text.byteLength before) →
      ∀ d ∈ (readFrom (Text.byteLength text) current lines).1, d.Within text := by
  induction lines with
  | nil =>
      intro current hcurrent _ d hd
      exact hcurrent d (by simpa [readFrom] using hd)
  | cons line lines ih =>
      intro current hcurrent hlines
      obtain ⟨before, rest, htext, hlined, hle⟩ := hlines.resolve_left (by simp)
      obtain ⟨rest', rfl, hstart, -, -, hnext⟩ := hlined.exists_head
      have hstop : line.stop = Text.byteLength before + Text.byteLength line.content := by
        rw [Line.stop, hstart]
      -- Behind this line the same holds of every directive that ends with it.
      have hlines' (d : Directive) (hd : d.span.stop = line.stop) : lines = [] ∨
          ∃ before rest, text = before ++ rest ∧ Lined (Text.byteLength before) rest lines ∧
            ∀ e ∈ some d, e.span.stop ≤ Text.byteLength before := by
        rcases hnext with ⟨hnil, -⟩ | ⟨-, hnext⟩
        · exact .inl hnil
        · refine .inr ⟨before ++ (line.content ++ line.terminator), rest', ?_, ?_, ?_⟩
          · rw [htext]; simp
          · rwa [Text.byteLength_append]
          · intro e he
            cases Option.mem_some.mp he
            simp only [Text.byteLength_append]
            omega
      have hfresh {next : Directive} (hnext : ofLine? line = some next) :
          ∀ e ∈ (readFrom (Text.byteLength text) (some next) lines).1, e.Within text := by
        obtain ⟨_, _, _, _, hspan, _⟩ := exists_of_ofLine? hnext
        refine ih ?_ (hlines' next (by rw [hspan]))
        intro e he
        cases Option.mem_some.mp he
        exact ofLine?_within htext hstart hnext
      cases current with
      | none =>
          rw [readFrom]
          cases hline : ofLine? line with
          | none => intro e he; simp at he
          | some next => exact hfresh hline
      | some d =>
          have hd := hcurrent d rfl
          rw [readFrom]
          split
          · refine ih ?_ (hlines' (d.extend line) rfl)
            intro e he
            cases Option.mem_some.mp he
            exact extend_within htext hstart hd (by rw [hstart]; exact hle d rfl)
          · cases hline : ofLine? line with
            | none => intro e he; rw [List.mem_singleton.mp he]; exact hd
            | some next =>
                intro e he
                rcases List.mem_cons.mp he with rfl | he
                · exact hd
                · exact hfresh hline e he

theorem readAll_within {text : Text} {d : Directive} (h : d ∈ (readAll text).1) : d.Within text :=
  readFrom_within (Text.lines text) (by simp)
    (.inr ⟨[], text, rfl, lined_lines text, by simp⟩) d h

end Directive

end Dockerfile
