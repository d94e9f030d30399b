import Dockerfile.Proofs.Body.Insertion
import Dockerfile.Proofs.Directive.Taken
import Dockerfile.Proofs.File.Reading

/-!
# Continuations are transparent

An instruction may be broken into lines anywhere in its region: a continuation in front of one of its
characters leaves the reading of the file as it was (`File.reading_insert_continuation`), unless what
follows would then be a comment or a blank line of its own.
-/

namespace Dockerfile

namespace Directive

/-- Only a line whose first character other than a blank is the mark can be a directive. -/
theorem ofLine?_eq_none {line : Line} (h : ∀ c ∈ (line.content.dropWhile isBlank).head?, c ≠ '#') :
    ofLine? line = none := by
  cases hline : ofLine? line with
  | none => rfl
  | some d =>
      obtain ⟨blanks, body, hcontent, hblanks, -⟩ := exists_of_ofLine? hline
      rw [hcontent, List.dropWhile_append_of_pos hblanks, List.dropWhile_cons,
        if_neg (by decide)] at h
      exact absurd rfl (h '#' rfl)

theorem comment_append {front body : Text} {found : List Directive}
    (h : readAll (front ++ body) = (found, Text.byteLength front)) (body' : Text) :
    found.map (comment (front ++ body')) = found.map (comment (front ++ body)) := by
  refine List.map_congr_left ?_
  intro d hd
  have htiling := readAll_tiling defaultEscape (front ++ body)
  rw [h] at htiling
  have hspan := htiling.comment_span (List.suffix_refl _) (List.mem_map.mpr ⟨d, hd, rfl⟩)
  have hrest : Placed.startOr (Text.byteLength (front ++ body))
      (bodyChars (front ++ body) (Text.byteLength front)) = Text.byteLength front := by
    rw [bodyChars_append, Text.byteLength_append, Text.startOr_place]
  rw [hrest] at hspan
  have hstart : d.span.start < d.span.stop := hspan.2.1
  have hstop : d.span.stop ≤ Text.byteLength front := hspan.2.2
  have hslice (rest : Text) := @Text.slice_append_of_le front ⟨d.span.start + 1, d.span.stop⟩
    (Nat.le_trans hstart hstop) hstop rest
  rw [comment, comment, hslice, hslice]

end Directive

namespace Body

theorem not_comment_of_mem {escape : Char} {stop offset : Nat} {before after : Text} {y : Placed}
    (hy : y.offset = offset + Text.byteLength before) (hbreak : isLineBreak y.char = false)
    (hclean : ∀ c ∈ before, isLineBreak c = false)
    (h : ∃ line ∈ logicalLines escape stop (Text.place offset (before ++ y.char :: after)),
      y ∈ line.chars) :
    ∀ c ∈ (before.dropWhile isBlank).head?, c ≠ '#' := by
  rintro _ hc rfl
  obtain ⟨rest, hrest⟩ := List.head?_eq_some_iff.mp (Option.mem_def.mp hc)
  have hblank : ∀ c ∈ before.takeWhile isBlank, endsWord c = true := by
    intro c hc
    simp [endsWord, List.all_eq_true.mp List.all_takeWhile c hc]
  have hsplit : before = before.takeWhile isBlank ++ '#' :: rest := by
    rw [← hrest, List.takeWhile_append_dropWhile]
  generalize before.takeWhile isBlank = blanks at hblank hsplit
  subst hsplit
  have hnodup := Text.nodup_place offset ((blanks ++ '#' :: rest) ++ y.char :: after)
  rw [Text.place_around hy, Text.place_append, List.append_assoc] at h hnodup
  have hdrop : ((Text.place offset blanks ++ (Text.place (offset + Text.byteLength blanks)
      ('#' :: rest) ++ y :: Text.place y.stop after)).dropWhile fun p => endsWord p.char) =
        ⟨'#', offset + Text.byteLength blanks⟩ ::
          (Text.place (offset + Text.byteLength blanks + 1) rest ++ y :: Text.place y.stop after) := by
    rw [List.dropWhile_append_of_pos fun p hp => hblank p.char (Text.char_mem_of_mem_place hp)]
    rfl
  obtain ⟨line, hline, hmem⟩ := h
  rw [(read_of_comment hdrop rfl).2] at hline
  -- The comment takes all of its line, and `y` would be part of it.
  have hread : (Comment.read stop (offset + Text.byteLength blanks)
      (Text.place (offset + Text.byteLength blanks + 1) rest ++ y :: Text.place y.stop after)).2 <:+
        Text.place y.stop after := by
    refine (dropNewline_suffix _).trans ?_
    rw [← List.singleton_append, ← List.append_assoc, List.dropWhile_append_of_pos]
    · exact List.dropWhile_suffix _
    · intro p hp
      rcases List.mem_append.mp hp with hp | hp
      · simp [hclean p.char (by simp [Text.char_mem_of_mem_place hp])]
      · simp [List.mem_singleton.mp hp, hbreak]
  have hin := hread.mem (mem_of_mem_logicalLines hline hmem)
  have hlater := (List.nodup_append.mp (List.nodup_append.mp hnodup).2.1).2.1
  exact (List.nodup_cons.mp hlater).1 hin

end Body

namespace Directive

theorem readAll_insert {escape : Char} {front before after newline : Text} {y : Char}
    {found : List Directive} {last : Option Directive} {taken tail : List Line} {line : Line}
    (htaken : Taken none taken found last) (hclosed : ∀ d ∈ last, d.isOpen = false)
    (hleading : Text.Leading front (before ++ y :: after) taken)
    (hfrom : Text.linesFrom (Text.byteLength front) (Text.byteLength front)
      (before ++ y :: after) = line :: tail)
    (hline : ofLine? line = none) (he : Body.endsWord escape = false) (hm : escape ≠ '#')
    (hnewline : IsTerminator newline (y :: after))
    (hmark : (∀ c ∈ before, isLineBreak c = false) →
      ∀ c ∈ (before.dropWhile isBlank).head?, c ≠ '#') :
    readAll (front ++ (before ++ escape :: (newline ++ y :: after))) =
      (found, Text.byteLength front) := by
  simp only [Body.endsWord, Bool.or_eq_false_iff] at he
  have hhead : (before ++ escape :: (newline ++ y :: after)).head? = some '\n' →
      (before ++ y :: after).head? = some '\n' := by
    cases before with
    | nil =>
        intro h
        rw [List.nil_append, List.head?_cons, Option.some.injEq] at h
        rw [h] at he
        simp [isLineBreak] at he
    | cons c before => exact id
  have hlead : Text.Leading front (before ++ escape :: (newline ++ y :: after)) taken :=
    ⟨fun h => hleading.eq fun h' => hhead (h h'), hleading.start_lt⟩
  obtain ⟨line', tail', hfrom', hline'⟩ : ∃ line' tail', Text.linesFrom (Text.byteLength front)
      (Text.byteLength front) (before ++ escape :: (newline ++ y :: after)) = line' :: tail' ∧
      ofLine? line' = none := by
    rcases before.exists_first_line with hclean | ⟨content, terminator, rest, rfl, hclean, ends⟩
    · -- The first line of the body is broken: it now ends with the escape character.
      have hclean' : ∀ c ∈ before ++ [escape], isLineBreak c = false := by
        intro c hc
        rcases List.mem_append.mp hc with hc | hc
        · exact hclean c hc
        · rw [List.mem_singleton.mp hc]; exact he.2
      obtain ⟨t, tail', hfrom', -⟩ := Text.exists_linesFrom hclean'
        (hnewline.isLineBreak_head (y :: after)) (Text.byteLength front)
      rw [List.append_assoc, List.singleton_append] at hfrom'
      refine ⟨_, tail', hfrom', ofLine?_eq_none ?_⟩
      intro c hc
      rw [List.dropWhile_append] at hc
      cases hd : before.dropWhile isBlank with
      | nil =>
          simp only [hd, List.isEmpty_nil, if_true, List.dropWhile_cons, he.1] at hc
          cases Option.mem_some.mp hc
          exact hm
      | cons d rest =>
          rw [hd] at hc
          exact hmark hclean c (by rw [hd]; exact hc)
    · -- The line that is broken comes later.
      rw [List.append_assoc, List.append_assoc] at hfrom ⊢
      obtain ⟨t, tail₁, hfrom₁, -⟩ := Text.exists_linesFrom hclean
        (ends.isLineBreak_head (rest ++ y :: after)) (Text.byteLength front)
      obtain ⟨t', tail', hfrom', -⟩ := Text.exists_linesFrom hclean
        (ends.isLineBreak_head (rest ++ escape :: (newline ++ y :: after))) (Text.byteLength front)
      rw [hfrom] at hfrom₁
      obtain ⟨rfl, -⟩ := List.cons.inj hfrom₁
      exact ⟨_, tail', hfrom', hline⟩
  exact (readAll_of_taken htaken).2 rfl hlead hfrom' hline' hclosed

end Directive

namespace Body

theorem afterContinuation?_newline {escape : Char} {newline : Text} {y q : Placed}
    {tail : List Placed} (hnewline : IsTerminator newline (Placed.text (y :: tail)))
    (hq : q.char = escape) :
    afterContinuation? escape (q :: (Text.place 0 newline ++ y :: tail)) = some (y :: tail) := by
  simp only [afterContinuation?, if_pos hq]
  rcases hnewline with rfl | rfl | ⟨rfl, hne⟩
  · simp [isBlank, afterNewline?]
  · simp [isBlank, afterNewline?]
  · have hy : y.char ≠ '\n' := by simpa using hne
    simp [isBlank, afterNewline?, hy]

/-- A line that starts with content is not passed over. -/
theorem skipLines_eq_self {stop : Nat} {chars : List Placed}
    (h : ∀ c ∈ ((Placed.text chars).dropWhile isBlank).head?, isLineBreak c = false ∧ c ≠ '#') :
    skipLines stop chars = ⟨[], [], chars⟩ := by
  rw [← Placed.text_dropWhile isBlank] at h
  cases hd : chars.dropWhile fun p => isBlank p.char with
  | nil => exact skipLines_of_nil hd
  | cons p rest =>
      rw [hd] at h
      exact skipLines_of_content hd (h p.char rfl).1 (h p.char rfl).2

/-- A body with a continuation put in front of a character of one of its lines. -/
theorem summary_insert {escape : Char} {front before after newline : Text} {y : Placed}
    (he : endsWord escape = false) (hm : escape ≠ '#')
    (hy : y.offset = Text.byteLength front + Text.byteLength before)
    (hbreak : isLineBreak y.char = false) (hnewline : IsTerminator newline (y.char :: after))
    (hfirm : ∀ c ∈ ((y.char :: after).dropWhile isBlank).head?, isLineBreak c = false ∧ c ≠ '#')
    (h : ∃ line ∈ logicalLines escape (Text.byteLength (front ++ (before ++ y.char :: after)))
      (Text.place (Text.byteLength front) (before ++ y.char :: after)), y ∈ line.chars) :
    let text := front ++ (before ++ y.char :: after)
    let chars := Text.place (Text.byteLength front) (before ++ y.char :: after)
    let text' := front ++ (before ++ escape :: (newline ++ y.char :: after))
    let chars' := Text.place (Text.byteLength front) (before ++ escape :: (newline ++ y.char :: after))
    (read escape (Text.byteLength text') chars').comments.map Comment.text =
        (read escape (Text.byteLength text) chars).comments.map Comment.text ∧
      (logicalLines escape (Text.byteLength text') chars').map summary =
        (logicalLines escape (Text.byteLength text) chars).map summary := by
  intro text chars text' chars'
  have hchars : chars = Text.place (Text.byteLength front) before ++
      y :: Text.place y.stop after := Text.place_around hy
  have hnodup : chars.Nodup := Text.nodup_place _ _
  have htail : Placed.text (y :: Text.place y.stop after) = y.char :: after := by simp
  -- The continuation may stand at any offsets, for the reading does not depend on them.
  have hcont : afterContinuation? escape
      (⟨escape, 0⟩ :: (Text.place 0 newline ++ y :: Text.place y.stop after)) =
        some (y :: Text.place y.stop after) :=
    afterContinuation?_newline (by rw [htail]; exact hnewline) rfl
  have hrun : readUntil isLineBreak escape (Text.byteLength text)
      (⟨escape, 0⟩ :: (Text.place 0 newline ++ y :: Text.place y.stop after)) =
        readUntil isLineBreak escape (Text.byteLength text) (y :: Text.place y.stop after) := by
    rw [readUntil_of_continuation hcont, skipLines_eq_self (by rw [htail]; exact hfirm)]
    rfl
  rw [hchars] at hnodup
  have h : ∃ line ∈ logicalLines escape (Text.byteLength text) chars, y ∈ line.chars := h
  rw [hchars] at h
  obtain ⟨hcomments, hlines⟩ := read_insert he hm hbreak rfl hrun hnodup h
  have hsuffix : chars' <:+ Text.place 0 text' := by
    show _ <:+ Text.place 0 (front ++ _)
    rw [Text.place_append, Nat.zero_add]
    exact List.suffix_append _ _
  have hsame : Relaid (fun _ _ _ _ => False) False (Text.byteLength text') true chars'
      (Text.place (Text.byteLength front) before ++
        ⟨escape, 0⟩ :: (Text.place 0 newline ++ y :: Text.place y.stop after)) := by
    refine (Relaid.of_text ?_).2
    show _ = Placed.text (Text.place _ _)
    simp
  obtain ⟨hcomments', hlines'⟩ := read_relaid he hsuffix hsame (Text.byteLength text)
  have hkept := congrArg (List.map fun k : List Placed × List Span => (Placed.text k.1, k.2.length))
    hlines
  rw [List.map_map, List.map_map] at hkept
  rw [hchars]
  constructor
  · rw [← hcomments', hcomments]
  · rw [← hlines'.summary_eq]
    exact hkept

end Body

namespace File

theorem parse_of_readAll {text : Text} {found : List Directive} {resume : Nat}
    (h : Directive.readAll text = (found, resume)) :
    (parse text).directives = found ∧
      (parse text).comments = found.map (Directive.comment text) ++
        (Body.read (escapeUnder found) (Text.byteLength text)
          (Directive.bodyChars text resume)).comments ∧
      logicalLines text = Body.logicalLines (escapeUnder found) (Text.byteLength text)
        (Directive.bodyChars text resume) := by
  unfold logicalLines parse escape
  rw [h]
  exact ⟨rfl, rfl, rfl⟩

theorem reading_congr {front body body' : Text} {found : List Directive}
    (h : Directive.readAll (front ++ body) = (found, Text.byteLength front))
    (h' : Directive.readAll (front ++ body') = (found, Text.byteLength front))
    (hcomments : (Body.read (escapeUnder found) (Text.byteLength (front ++ body'))
        (Text.place (Text.byteLength front) body')).comments.map Comment.text =
      (Body.read (escapeUnder found) (Text.byteLength (front ++ body))
        (Text.place (Text.byteLength front) body)).comments.map Comment.text)
    (hlines : (Body.logicalLines (escapeUnder found) (Text.byteLength (front ++ body'))
        (Text.place (Text.byteLength front) body')).map Body.summary =
      (Body.logicalLines (escapeUnder found) (Text.byteLength (front ++ body))
        (Text.place (Text.byteLength front) body)).map Body.summary) :
    (parse (front ++ body')).reading = (parse (front ++ body)).reading := by
  obtain ⟨hd, hc, hl⟩ := parse_of_readAll h
  obtain ⟨hd', hc', hl'⟩ := parse_of_readAll h'
  rw [Directive.bodyChars_append] at hc hl hc' hl'
  rw [reading, reading, instructions_reading, instructions_reading, hl, hl', hlines, hc, hc',
    List.map_append, List.map_append, hcomments, Directive.comment_append h body', escape, escape, hd,
    hd']

/-- A continuation in front of a character of an instruction's region leaves the reading as it is, if
the next character other than a blank starts neither a comment nor a blank line. -/
theorem reading_insert_continuation (text : Text) {inst : Instruction}
    (hinst : inst ∈ (parse text).instructions) {q : Placed} (hq : q ∈ inst.region.chars)
    {newline : Text}
    (hnewline : newline = ['\n'] ∨ newline = ['\r', '\n'] ∨ newline = ['\r'])
    (hnext : ∀ c ∈ ((Text.dropBytes q.offset text).dropWhile isBlank).head?,
      c ≠ '#' ∧ c ≠ '\r' ∧ c ≠ '\n') :
    (parse (Text.takeBytes q.offset text ++
        (parse text).escape :: (newline ++ Text.dropBytes q.offset text))).reading =
      (parse text).reading := by
  have hline := mem_logicalLines hinst
  have hchars : q ∈ inst.chars := List.mem_append_right _ hq
  have hbreak := not_break_of_mem hline hchars
  obtain ⟨taken, found, last, htaken, hends⟩ := Directive.exists_taken text
  rcases hends with hall | ⟨front, body, line, tail, ⟨rfl, hleading, hlined, -⟩, hnone, hclosed⟩
  · -- Without a body there is no instruction.
    have hread := (Directive.readAll_of_taken htaken).1 hall
    rw [(parse_of_readAll hread).2.2, Directive.bodyChars_byteLength] at hline
    cases Body.mem_of_mem_logicalLines hline hchars
  · have hfrom := hlined.linesFrom_eq
    have hread := (Directive.readAll_of_taken htaken).2 rfl hleading hfrom hnone hclosed
    obtain ⟨hd, -, hl⟩ := parse_of_readAll hread
    rw [hl, Directive.bodyChars_append] at hline
    obtain ⟨before, after, rfl, hoffset⟩ :=
      Text.exists_split_of_mem_place (Body.mem_of_mem_logicalLines hline hchars)
    have hcut : q.offset = Text.byteLength (front ++ before) := by
      rw [hoffset, Text.byteLength_append]
    obtain ⟨he, hm⟩ := escapeUnder_content found
    have hescape : (parse (front ++ (before ++ q.char :: after))).escape = escapeUnder found := by
      rw [escape, hd]
    rw [hescape, hcut, ← List.append_assoc, Text.takeBytes_append_byteLength,
      Text.dropBytes_append_byteLength, List.append_assoc, List.append_assoc]
    rw [hcut, ← List.append_assoc, Text.dropBytes_append_byteLength] at hnext
    have hfirm : ∀ c ∈ ((q.char :: after).dropWhile isBlank).head?,
        isLineBreak c = false ∧ c ≠ '#' := by
      intro c hc
      obtain ⟨h1, h2, h3⟩ := hnext c hc
      exact ⟨by simp [isLineBreak, h2, h3], h1⟩
    have hterminator : IsTerminator newline (q.char :: after) := by
      rcases hnewline with rfl | rfl | rfl
      · exact .inr (.inl rfl)
      · exact .inl rfl
      · refine .inr (.inr ⟨rfl, ?_⟩)
        rintro hhead
        rw [List.head?_cons, Option.some.injEq] at hhead
        rw [hhead] at hbreak
        cases hbreak
    have hread' := Directive.readAll_insert htaken hclosed hleading hfrom hnone he hm hterminator
      fun hclean => Body.not_comment_of_mem hoffset hbreak hclean ⟨inst, hline, hchars⟩
    obtain ⟨hcomments, hlines⟩ := Body.summary_insert he hm hoffset hbreak hterminator hfirm
      ⟨inst, hline, hchars⟩
    exact reading_congr hread hread' hcomments hlines

/-- `RUN a b` says the same if it is broken in front of its last argument. -/
theorem reading_insert_continuation_run :
    (parse (Text.takeBytes 6 "RUN a b".toList ++
        (parse "RUN a b".toList).escape :: (['\n'] ++ Text.dropBytes 6 "RUN a b".toList))).reading =
      (parse "RUN a b".toList).reading := by
  have hhead : ((Text.dropBytes 6 "RUN a b".toList).dropWhile isBlank).head? = some 'b' := by decide
  refine @reading_insert_continuation "RUN a b".toList
    ⟨⟨Text.place 0 "RUN".toList, 0⟩, ⟨Text.place 3 " a b".toList, 3⟩, [], '\\'⟩
    (by decide +kernel) ⟨'b', 6⟩ (by decide) ['\n'] (.inl rfl) ?_
  intro c hc
  obtain rfl : 'b' = c := Option.some.inj (hhead.symm.trans hc)
  decide

end File

end Dockerfile
