import Dockerfile.Proofs.Body.Run

/-!
# A continuation more

A continuation that is put in front of a character of a line changes nothing that is read. No reader
looks further ahead than to the next character, except over the blanks behind an escape character, so
up to the place of insertion everything is read as before; there the continuation is passed, and the
rest is the same (`Body.read_insert`).
-/

namespace Dockerfile

/-- A list behind which a character comes that it does not hold itself. -/
theorem exists_append_of_mem_suffix {y : Placed} {front tail rest : List Placed}
    (hnodup : (front ++ y :: tail).Nodup) (hsuf : rest <:+ front ++ y :: tail) (hy : y ∈ rest) :
    ∃ middle, rest = middle ++ y :: tail := by
  have htail := (List.nodup_append.mp hnodup).2.1
  rcases List.suffix_or_suffix_of_suffix hsuf (List.suffix_append front (y :: tail)) with h | h
  · rcases List.suffix_cons_iff.mp h with rfl | h
    · exact ⟨[], rfl⟩
    · exact absurd (h.mem hy) (List.nodup_cons.mp htail).1
  · obtain ⟨middle, rfl⟩ := h
    exact ⟨middle, rfl⟩

section Locality

variable {escape : Char} {front middle back new : List Placed}

/-- The end of a line is recognised by what stands up to the next character. -/
theorem afterNewline?_insert (h : afterNewline? (front ++ back) = some (middle ++ back))
    (hnew : ∀ p ∈ new.head?, p.char ≠ '\n') : afterNewline? (front ++ new) = some (middle ++ new) := by
  cases front with
  | nil =>
      have := afterNewline?_length h
      simp only [List.nil_append, List.length_append] at this
      omega
  | cons c front =>
      simp only [List.cons_append, afterNewline?_cons] at h ⊢
      split at h
      · rename_i hc
        rw [if_pos hc]
        have h := Option.some.inj h
        congr 1
        cases front with
        | nil =>
            have hmiddle : middle = [] := by
              have hlen := congrArg List.length h
              simp only [List.nil_append, List.length_append] at hlen
              split at hlen
              · rw [List.length_tail] at hlen
                exact List.length_eq_zero_iff.mp (by omega)
              · exact List.length_eq_zero_iff.mp (by omega)
            subst hmiddle
            rw [if_neg]
            rintro ⟨-, hhead⟩
            obtain ⟨p, hp, hchar⟩ := Option.map_eq_some_iff.mp hhead
            exact hnew p hp hchar
        | cons d front =>
            simp only [List.cons_append, List.head?_cons, List.tail_cons, Option.map_some,
              Option.some.injEq] at h ⊢
            by_cases hcrlf : c.char = '\r' ∧ d.char = '\n'
            · rw [if_pos hcrlf] at h ⊢
              rw [List.append_cancel_right h]
            · rw [if_neg hcrlf, ← List.cons_append] at h
              rw [if_neg hcrlf, ← List.append_cancel_right h]
              rfl
      · cases h

theorem dropWhile_insert {f : Char → Bool}
    (h : ((front ++ back).dropWhile fun p => f p.char) = middle ++ back)
    (hnew : middle = [] → ∀ p ∈ new.head?, f p.char = false) :
    (middle ≠ [] → ((front ++ new).takeWhile fun p => f p.char) =
        (front ++ back).takeWhile fun p => f p.char) ∧
      ((front ++ new).dropWhile fun p => f p.char) = middle ++ new := by
  induction front with
  | nil =>
      have hle := length_dropWhile_le (fun p : Placed => f p.char) back
      rw [List.nil_append] at h
      rw [h, List.length_append] at hle
      obtain rfl : middle = [] := List.length_eq_zero_iff.mp (by omega)
      refine ⟨fun hne => absurd rfl hne, ?_⟩
      cases new with
      | nil => rfl
      | cons p new => simp [hnew rfl p rfl]
  | cons c front ih =>
      simp only [List.cons_append, List.dropWhile_cons, List.takeWhile_cons] at h ⊢
      cases hc : f c.char with
      | true =>
          rw [hc, if_pos rfl] at h
          obtain ⟨htake, hdrop⟩ := ih h
          simp only [if_true]
          exact ⟨fun hne => by rw [htake hne], hdrop⟩
      | false =>
          rw [hc, if_neg (by simp), ← List.cons_append] at h
          rw [← List.append_cancel_right h]
          simp

theorem dropWhile_blanks_insert {escape : Char} (he : Body.endsWord escape = false) {q : Placed}
    {tail : List Placed} (hq : q.char = escape) :
    (front.dropWhile fun r => isBlank r.char) = [] ∧
        afterNewline? ((front ++ q :: tail).dropWhile fun r => isBlank r.char) = none ∨
      ∃ d rest, ∀ back, ((front ++ back).dropWhile fun r => isBlank r.char) = d :: (rest ++ back) := by
  simp only [Body.endsWord, Bool.or_eq_false_iff] at he
  cases hfront : front.dropWhile fun r => isBlank r.char with
  | nil =>
      refine .inl ⟨rfl, ?_⟩
      rw [List.dropWhile_append, hfront, List.dropWhile_cons, hq, he.1]
      simp [afterNewline?_cons, hq, he.2]
  | cons d rest =>
      refine .inr ⟨d, rest, fun back => ?_⟩
      rw [List.dropWhile_append, hfront]
      rfl

/-- Whether an escape character continues the line is decided by what stands up to the first
character other than a blank. -/
theorem afterContinuation?_insert_none (he : Body.endsWord escape = false) {p q : Placed}
    {tail : List Placed} (hq : q.char = escape)
    (h : afterContinuation? escape (p :: (front ++ back)) = none) :
    afterContinuation? escape (p :: (front ++ q :: tail)) = none := by
  by_cases hp : p.char = escape
  · simp only [afterContinuation?, if_pos hp] at h ⊢
    rcases @dropWhile_blanks_insert front escape he q tail hq with ⟨-, hnone⟩ | ⟨d, rest, hd⟩
    · exact hnone
    · rw [hd, afterNewline?_cons] at h ⊢
      split at h
      · cases h
      · rename_i hbreak
        rw [if_neg hbreak]
  · simp only [afterContinuation?, if_neg hp]

theorem afterContinuation?_insert (he : Body.endsWord escape = false) {p q : Placed}
    {tail : List Placed} (hq : q.char = escape)
    (h : afterContinuation? escape (p :: (front ++ back)) = some (middle ++ back)) :
    afterContinuation? escape (p :: (front ++ q :: tail)) = some (middle ++ q :: tail) := by
  by_cases hp : p.char = escape
  · simp only [afterContinuation?, if_pos hp] at h ⊢
    rcases @dropWhile_blanks_insert front escape he q tail hq with ⟨hnil, -⟩ | ⟨d, rest, hd⟩
    · rw [List.dropWhile_append, hnil] at h
      have hlt := afterNewline?_length h
      have hle := length_dropWhile_le (fun r : Placed => isBlank r.char) back
      simp only [List.isEmpty_nil, if_true, List.length_append] at hlt
      omega
    · rw [hd, ← List.cons_append] at h ⊢
      refine afterNewline?_insert h ?_
      intro r hr
      cases Option.mem_some.mp hr
      rw [hq]
      rintro rfl
      simp [Body.endsWord, isBlank, isLineBreak] at he
  · simp only [afterContinuation?, if_neg hp] at h
    cases h

theorem afterContinuation?_suffix {p : Placed} {chars rest : List Placed}
    (h : afterContinuation? escape (p :: chars) = some rest) : rest <:+ chars := by
  obtain ⟨_, _, heq, -, hafter⟩ := exists_of_afterContinuation? h
  cases heq
  obtain ⟨ends, hends, -, -⟩ := exists_of_afterNewline? hafter
  refine List.IsSuffix.trans ?_ (List.dropWhile_suffix fun q : Placed => isBlank q.char)
  rw [hends]
  exact List.suffix_append _ _

end Locality

/-! ## Readers -/

section Readers

variable {escape : Char} {stop : Nat} {y q : Placed} {front middle tail tail' : List Placed}

/-- At the end of a line, what comes next stands behind the terminator. -/
theorem dropNewline_insert (tail' : List Placed) (hy : isLineBreak y.char = false)
    (hq : q.char ≠ '\n') {b : Placed} {rest : List Placed} (hb : isLineBreak b.char = true)
    (h : dropNewline (b :: rest) = middle ++ y :: tail) :
    ∃ before, rest = before ++ y :: tail ∧
      dropNewline (b :: (before ++ q :: tail')) = middle ++ q :: tail' := by
  have hsuf : y :: tail <:+ b :: rest := by
    refine List.IsSuffix.trans ?_ (dropNewline_suffix (b :: rest))
    rw [h]
    exact List.suffix_append middle (y :: tail)
  rcases List.suffix_cons_iff.mp hsuf with heq | ⟨before, rfl⟩
  · obtain ⟨rfl, -⟩ := List.cons.inj heq
    rw [hb] at hy
    cases hy
  · refine ⟨before, rfl, ?_⟩
    have hafter : afterNewline? ((b :: before) ++ y :: tail) = some (middle ++ y :: tail) := by
      unfold dropNewline at h
      rw [afterNewline?_cons, if_pos hb] at h
      rw [List.cons_append, afterNewline?_cons, if_pos hb, ← h]
      rfl
    have hafter' := @afterNewline?_insert _ _ _ (q :: tail') hafter fun r hr => by
      cases Option.mem_some.mp hr
      exact hq
    unfold dropNewline
    rw [← List.cons_append, hafter']
    rfl

theorem Comment.read_insert (tail' : List Placed) (hy : isLineBreak y.char = false)
    (hq : q.char ≠ '\n') {start : Nat}
    (h : (Comment.read stop start (front ++ y :: tail)).2 = middle ++ y :: tail) :
    Comment.read stop start (front ++ q :: tail') =
      ((Comment.read stop start (front ++ y :: tail)).1, middle ++ q :: tail') := by
  unfold Comment.read at h ⊢
  simp only at h ⊢
  have hhead := List.head?_dropWhile_not (fun p : Placed => !isLineBreak p.char) (front ++ y :: tail)
  cases hd : (front ++ y :: tail).dropWhile fun p => !isLineBreak p.char with
  | nil =>
      rw [hd] at h
      simp [dropNewline, afterNewline?] at h
  | cons b rest =>
      rw [hd] at h hhead
      obtain ⟨before, rfl, hnext⟩ :=
        dropNewline_insert tail' hy hq (by simpa using hhead) h
      obtain ⟨htake, hdrop⟩ := @dropWhile_insert _ (b :: before) _ (q :: tail')
        (fun c => !isLineBreak c) hd (by simp)
      rw [htake (by simp), hdrop, List.cons_append, hnext]
      rfl

namespace Body

theorem ne_newline (he : endsWord escape = false) (hq : q.char = escape) : q.char ≠ '\n' := by
  intro h
  rw [← hq, h] at he
  simp [endsWord, isBlank, isLineBreak] at he

/-- A line with content is not passed over, wherever in it the escape character is put. -/
theorem skipLines_content_insert (he : endsWord escape = false) (hm : escape ≠ '#')
    (hq : q.char = escape) (hfront : ∀ p ∈ (front.dropWhile fun p => isBlank p.char).head?,
      isLineBreak p.char = false ∧ p.char ≠ '#') :
    skipLines stop (front ++ q :: tail') = ⟨[], [], front ++ q :: tail'⟩ := by
  simp only [endsWord, Bool.or_eq_false_iff] at he
  cases hd : front.dropWhile fun p => isBlank p.char with
  | nil =>
      have hdrop : ((front ++ q :: tail').dropWhile fun p => isBlank p.char) = q :: tail' := by
        rw [List.dropWhile_append, hd]
        simp [hq, he.1]
      exact skipLines_of_content hdrop (by rw [hq]; exact he.2) (by rw [hq]; exact hm)
  | cons d rest =>
      have hdrop : ((front ++ q :: tail').dropWhile fun p => isBlank p.char) =
          d :: (rest ++ q :: tail') := by
        rw [List.dropWhile_append, hd]
        rfl
      rw [hd] at hfront
      exact skipLines_of_content hdrop (hfront d rfl).1 (hfront d rfl).2

theorem skipLines_insert (he : endsWord escape = false) (hm : escape ≠ '#')
    (hy : isLineBreak y.char = false) (hq : q.char = escape)
    (h : (skipLines stop (front ++ y :: tail)).rest = middle ++ y :: tail) :
    skipLines stop (front ++ q :: tail') =
      { skipLines stop (front ++ y :: tail) with rest := middle ++ q :: tail' } := by
  generalize hc : front ++ y :: tail = chars at h ⊢
  fun_induction skipLines stop chars generalizing front with
  | case1 chars hd =>
      subst hc
      obtain rfl := List.append_cancel_right h
      refine skipLines_content_insert he hm hq ?_
      rw [List.dropWhile_append] at hd
      split at hd
      · rename_i hfront
        rw [List.isEmpty_iff.mp hfront]
        simp
      · simp at hd
  | case2 chars p rest hd hp next =>
      rename_i ih
      subst hc
      obtain ⟨front', hfront'⟩ : y :: tail <:+ dropNewline (p :: rest) := by
        have hrest : middle ++ y :: tail <:+ dropNewline (p :: rest) := by
          rw [← h]
          exact (skipLines_tiling _ : Tiling escape _ _ _ _ _).suffix
        exact (List.suffix_append middle _).trans hrest
      obtain ⟨before, rfl, hnext⟩ :=
        dropNewline_insert tail' hy (ne_newline he hq) hp hfront'.symm
      have hdrop := (@dropWhile_insert front (p :: before) _ (q :: tail') isBlank hd (by simp)).2
      rw [List.cons_append] at hdrop
      have hstart (back : List Placed) : Placed.startOr stop (front ++ back) =
          Placed.startOr stop (front ++ y :: tail) := by
        cases front with
        | nil =>
            have := length_dropWhile_le (fun r : Placed => isBlank r.char) (y :: tail)
            rw [List.nil_append] at hd
            rw [hd] at this
            simp at this
            omega
        | cons r front => rfl
      rw [skipLines_of_break hdrop hp, hnext, ih hfront' h, hstart]
  | case3 chars p rest hd hb hp comment =>
      rename_i next ih
      subst hc
      have hsuf : middle ++ y :: tail <:+ comment.2 := by
        rw [← h]
        exact (skipLines_tiling _ : Tiling escape _ _ _ _ _).suffix
      obtain ⟨front', hfront'⟩ := (List.suffix_append middle _).trans hsuf
      obtain ⟨before, rfl⟩ : y :: tail <:+ rest := by
        refine List.IsSuffix.trans ⟨front', hfront'⟩ (Comment.read_suffix _ _ _)
      have hdrop := (@dropWhile_insert front (p :: before) _ (q :: tail') isBlank hd (by simp)).2
      rw [List.cons_append] at hdrop
      have hread := Comment.read_insert tail' hy (ne_newline he hq) hfront'.symm
      rw [skipLines_of_comment hdrop hp, hread]
      simp only
      rw [ih hfront' h]
  | case4 chars p rest hd hb hp =>
      subst hc
      obtain rfl := List.append_cancel_right h
      refine skipLines_content_insert he hm hq ?_
      intro d hd'
      rw [List.dropWhile_append] at hd
      split at hd
      · rename_i hfront
        rw [List.isEmpty_iff.mp hfront] at hd'
        cases hd'
      · obtain ⟨rest', hrest'⟩ := List.head?_eq_some_iff.mp (Option.mem_def.mp hd')
        rw [hrest'] at hd
        obtain ⟨rfl, -⟩ := List.cons.inj hd
        exact ⟨by simpa using hb, hp⟩

/-- Behind a continuation that stands in front of the place of insertion, the same is passed over. -/
theorem continuation_insert (tail' : List Placed) (he : endsWord escape = false) (hm : escape ≠ '#')
    (hy : isLineBreak y.char = false) (hq : q.char = escape) {p : Placed} {after : List Placed}
    (hc : afterContinuation? escape (p :: (front ++ y :: tail)) = some after)
    (h : (skipLines stop after).rest = middle ++ y :: tail) :
    ∃ after', afterContinuation? escape (p :: (front ++ q :: tail')) = some after' ∧
      skipLines stop after' = { skipLines stop after with rest := middle ++ q :: tail' } := by
  obtain ⟨before, rfl⟩ : y :: tail <:+ after := by
    have hsuf := (skipLines_tiling after : Tiling escape stop _ _ _ _).suffix
    rw [h] at hsuf
    exact (List.suffix_append middle _).trans hsuf
  exact ⟨before ++ q :: tail', afterContinuation?_insert he hq hc,
    skipLines_insert he hm hy hq h⟩

/-- A line that ends before the place of insertion is read as before. -/
theorem readUntil_insert_rest (he : endsWord escape = false) (hm : escape ≠ '#')
    (hy : isLineBreak y.char = false) (hq : q.char = escape)
    (h : (readUntil isLineBreak escape stop (front ++ y :: tail)).rest = middle ++ y :: tail) :
    readUntil isLineBreak escape stop (front ++ q :: tail') =
      { readUntil isLineBreak escape stop (front ++ y :: tail) with
        rest := middle ++ q :: tail' } := by
  generalize hc : front ++ y :: tail = chars at h ⊢
  fun_induction readUntil isLineBreak escape stop chars generalizing front with
  | case1 => simp at hc
  | case2 p rest after hafter skipped =>
      rename_i next ih
      have hlen := readUntil_length isLineBreak escape stop skipped.rest
      have hskip := skipLines_length stop after
      have hshort := afterContinuation?_length hafter
      cases front with
      | nil =>
          rw [List.nil_append] at hc
          have hrest : next.rest.length ≤ skipped.rest.length := hlen
          have hnext : next.rest = middle ++ y :: tail := h
          rw [hnext, List.length_append, hc] at hrest
          have : skipped.rest.length ≤ after.length := hskip
          omega
      | cons p' front =>
          obtain ⟨rfl, rfl⟩ := List.cons.inj hc
          obtain ⟨front', hfront'⟩ : y :: tail <:+ skipped.rest := by
            have hsuf := (readUntil_tiling (fun _ h => h) skipped.rest :
              Tiling escape stop _ _ _ (readUntil isLineBreak escape stop skipped.rest).rest).suffix
            rw [show (readUntil isLineBreak escape stop skipped.rest).rest = _ from h] at hsuf
            exact (List.suffix_append middle _).trans hsuf
          obtain ⟨after', hafter', hskip'⟩ := continuation_insert tail' he hm hy hq hafter
            hfront'.symm
          rw [List.cons_append, readUntil_of_continuation hafter', hskip']
          simp only
          rw [ih hfront' h]
  | case3 p rest hnone hp =>
      cases front with
      | nil =>
          obtain ⟨rfl, -⟩ := List.cons.inj hc
          rw [hp] at hy
          cases hy
      | cons p' front =>
          obtain ⟨rfl, rfl⟩ := List.cons.inj hc
          rw [List.cons_append, readUntil_of_end (afterContinuation?_insert_none he hq hnone) hp]
          have hrest : (p' :: front) ++ y :: tail = middle ++ y :: tail := h
          rw [← List.append_cancel_right hrest]
          rfl
  | case4 p rest hnone hp next =>
      rename_i ih
      cases front with
      | nil =>
          obtain ⟨rfl, rfl⟩ := List.cons.inj hc
          have hlen : next.rest.length ≤ tail.length :=
            readUntil_length isLineBreak escape stop tail
          have hnext : next.rest = middle ++ y :: tail := h
          rw [hnext, List.length_append, List.length_cons] at hlen
          omega
      | cons p' front =>
          obtain ⟨rfl, rfl⟩ := List.cons.inj hc
          rw [List.cons_append, readUntil_of_char (afterContinuation?_insert_none he hq hnone)
            (by simpa using hp), ih rfl h]

/-- Inside a line that goes on up to it, the continuation is passed. -/
theorem readUntil_insert (he : endsWord escape = false) (hm : escape ≠ '#')
    (hy : isLineBreak y.char = false) (hq : q.char = escape)
    (hrun : readUntil isLineBreak escape stop (q :: tail') =
      readUntil isLineBreak escape stop (y :: tail))
    (hnodup : (front ++ y :: tail).Nodup)
    (h : y ∈ (readUntil isLineBreak escape stop (front ++ y :: tail)).chars) :
    readUntil isLineBreak escape stop (front ++ q :: tail') =
      readUntil isLineBreak escape stop (front ++ y :: tail) := by
  generalize hc : front ++ y :: tail = chars at h ⊢
  fun_induction readUntil isLineBreak escape stop chars generalizing front with
  | case1 => simp at hc
  | case2 p rest after hafter skipped =>
      rename_i next ih
      have hkept : y ∈ skipped.rest := by
        have hsub := (readUntil_tiling (fun _ h => h) skipped.rest : Tiling escape stop _ _
          (readUntil isLineBreak escape stop skipped.rest).chars _).kept_sublist
        exact hsub.mem (List.mem_append_left _ h)
      have hsuf : skipped.rest <:+ rest :=
        (skipLines_tiling after : Tiling escape stop _ _ _ _).suffix.trans
          (afterContinuation?_suffix hafter)
      cases front with
      | nil =>
          obtain ⟨rfl, rfl⟩ := List.cons.inj hc
          exact absurd (hsuf.mem hkept) (List.nodup_cons.mp hnodup).1
      | cons p' front =>
          obtain ⟨rfl, rfl⟩ := List.cons.inj hc
          obtain ⟨front', hfront'⟩ := exists_append_of_mem_suffix (List.nodup_cons.mp hnodup).2 hsuf
            hkept
          obtain ⟨after', hafter', hskip'⟩ := continuation_insert tail' he hm hy hq hafter
            hfront'
          have hnodup' : (front' ++ y :: tail).Nodup := by
            rw [← hfront']
            exact (List.nodup_cons.mp hnodup).2.sublist hsuf.sublist
          rw [List.cons_append, readUntil_of_continuation hafter', hskip']
          simp only
          rw [ih hnodup' hfront'.symm h]
  | case3 p rest hnone hp => cases h
  | case4 p rest hnone hp next =>
      rename_i ih
      cases front with
      | nil =>
          rw [List.nil_append] at hc
          rw [List.nil_append, hrun, hc]
          exact readUntil_of_char hnone (by simpa using hp)
      | cons p' front =>
          obtain ⟨rfl, rfl⟩ := List.cons.inj hc
          have hne : y ≠ p' := by
            rintro rfl
            exact (List.nodup_cons.mp hnodup).1 (List.mem_append_right _ List.mem_cons_self)
          rw [List.cons_append, readUntil_of_char (afterContinuation?_insert_none he hq hnone)
            (by simpa using hp), ih (List.nodup_cons.mp hnodup).2 rfl
            ((List.mem_cons.mp h).resolve_left hne)]

/-- What a line keeps, and the lines it passes over. -/
def kept (line : Instruction) : List Placed × List Span :=
  (line.chars, line.emptyLines)

theorem kept_lineAt (chars : List Placed) :
    kept (lineAt escape stop chars) = ((readUntil isLineBreak escape stop chars).chars,
      (readUntil isLineBreak escape stop chars).emptyLines) := by
  rw [kept, lineAt_chars, lineAt_emptyLines]

def ReadsAlike (escape : Char) (stop : Nat) (chars chars' : List Placed) : Prop :=
  (read escape stop chars').comments = (read escape stop chars).comments ∧
    (logicalLines escape stop chars').map kept = (logicalLines escape stop chars).map kept

section Steps

variable {chars chars' rest rest' : List Placed} {p p' : Placed}

theorem ReadsAlike.comment (h : (chars.dropWhile fun p => endsWord p.char) = p :: rest)
    (h' : (chars'.dropWhile fun p => endsWord p.char) = p :: rest') (hp : p.char = '#')
    (hread : (Comment.read stop p.offset rest').1 = (Comment.read stop p.offset rest).1)
    (next : ReadsAlike escape stop (Comment.read stop p.offset rest).2
      (Comment.read stop p.offset rest').2) : ReadsAlike escape stop chars chars' := by
  obtain ⟨hcomments, hlines⟩ := next
  rw [ReadsAlike, (read_of_comment h hp).1, (read_of_comment h hp).2, (read_of_comment h' hp).1,
    (read_of_comment h' hp).2, hread, hcomments]
  exact ⟨rfl, hlines⟩

theorem ReadsAlike.line {after' : List Placed}
    (h : (chars.dropWhile fun p => endsWord p.char) = p :: rest)
    (h' : (chars'.dropWhile fun p => endsWord p.char) = p' :: rest') (hp : p.char ≠ '#')
    (hp' : p'.char ≠ '#')
    (hline : readUntil isLineBreak escape stop (p' :: rest') =
      { readUntil isLineBreak escape stop (p :: rest) with rest := after' })
    (next : ReadsAlike escape stop (dropNewline (afterLine escape stop (p :: rest)))
      (dropNewline after')) : ReadsAlike escape stop chars chars' := by
  obtain ⟨hcomments, hlines⟩ := next
  rw [ReadsAlike, (read_of_line h hp).1, (read_of_line h hp).2, (read_of_line h' hp').1,
    (read_of_line h' hp').2, commentsIn_eq, commentsIn_eq, afterLine_eq (p' :: rest'),
    List.map_cons, List.map_cons, kept_lineAt, kept_lineAt, hline]
  simp only
  rw [hcomments, hlines]
  exact ⟨rfl, rfl⟩

end Steps

/-- What is read starts as before, or with the escape character if that is put first. -/
theorem exists_start_insert {rest middle : List Placed} {p : Placed} (he : endsWord escape = false)
    (hm : escape ≠ '#') (hq : q.char = escape)
    (h : ((front ++ y :: tail).dropWhile fun p => endsWord p.char) = p :: rest)
    (hmiddle : p :: rest = middle ++ y :: tail) (hp : p.char ≠ '#') :
    ∃ p' rest', ((front ++ q :: tail').dropWhile fun p => endsWord p.char) = p' :: rest' ∧
      p' :: rest' = middle ++ q :: tail' ∧ p'.char ≠ '#' := by
  rw [hmiddle] at h
  have hdrop := (@dropWhile_insert _ _ _ (q :: tail') endsWord h (by simp [hq, he])).2
  rw [hdrop]
  cases middle with
  | nil => exact ⟨q, tail', rfl, rfl, by rw [hq]; exact hm⟩
  | cons r middle =>
      obtain ⟨rfl, -⟩ := List.cons.inj hmiddle
      exact ⟨p, middle ++ q :: tail', rfl, rfl, hp⟩

/-- A body in which a continuation is put in front of a character of a line. -/
theorem read_insert (he : endsWord escape = false) (hm : escape ≠ '#')
    (hy : isLineBreak y.char = false) (hq : q.char = escape)
    (hrun : readUntil isLineBreak escape stop (q :: tail') =
      readUntil isLineBreak escape stop (y :: tail))
    (hnodup : (front ++ y :: tail).Nodup)
    (h : ∃ line ∈ logicalLines escape stop (front ++ y :: tail), y ∈ line.chars) :
    ReadsAlike escape stop (front ++ y :: tail) (front ++ q :: tail') := by
  obtain ⟨line, hline, hmem⟩ := h
  generalize hc : front ++ y :: tail = chars at hline hnodup ⊢
  fun_induction logicalLines escape stop chars generalizing front with
  | case1 => cases hline
  | case2 chars p rest hd hp ih =>
      subst hc
      have hread : (Comment.read stop p.offset rest).2 <:+ front ++ y :: tail :=
        ((Comment.read_suffix stop p.offset rest).trans (List.suffix_cons p rest)).trans
          (suffix_of_dropWhile hd)
      obtain ⟨front', hfront'⟩ := exists_append_of_mem_suffix hnodup hread
        (mem_of_mem_logicalLines hline hmem)
      obtain ⟨before, rfl⟩ : y :: tail <:+ rest := by
        refine List.IsSuffix.trans ?_ (Comment.read_suffix stop p.offset rest)
        rw [hfront']
        exact List.suffix_append _ _
      have hdrop := (@dropWhile_insert front (p :: before) _ (q :: tail') endsWord hd (by simp)).2
      rw [List.cons_append] at hdrop
      have hinsert := Comment.read_insert tail' hy (ne_newline he hq) hfront'
      refine .comment hd hdrop hp (by rw [hinsert]) ?_
      rw [hinsert]
      exact ih hfront'.symm hline (hnodup.sublist hread.sublist)
  | case3 chars p rest hd hp ih =>
      subst hc
      have hsuf : p :: rest <:+ front ++ y :: tail := suffix_of_dropWhile hd
      have hafter := (line_tiling escape stop (p :: rest)).suffix
      rcases List.mem_cons.mp hline with rfl | hline
      · -- The continuation stands in this line.
        have hin : y ∈ p :: rest := by
          have hsub := (line_tiling escape stop (p :: rest)).kept_sublist
          exact hsub.mem (List.mem_append_left _ hmem)
        obtain ⟨middle, hmiddle⟩ := exists_append_of_mem_suffix hnodup hsuf hin
        obtain ⟨p', rest', hdrop, hparts, hp'⟩ := exists_start_insert he hm hq hd hmiddle hp
        refine .line hd hdrop hp hp' (?_ : _ = readUntil isLineBreak escape stop (p :: rest)) ?_
        · rw [lineAt_chars] at hmem
          rw [hparts, hmiddle]
          rw [hmiddle] at hmem hsuf
          exact readUntil_insert he hm hy hq hrun (hnodup.sublist hsuf.sublist) hmem
        · rw [afterLine_eq]
          exact ⟨rfl, rfl⟩
      · have hin := mem_of_mem_logicalLines hline hmem
        have hnext := (dropNewline_suffix (afterLine escape stop (p :: rest))).trans
          (hafter.trans hsuf)
        obtain ⟨front', hfront'⟩ := exists_append_of_mem_suffix hnodup hnext hin
        have hrest' := ih hfront'.symm hline (hnodup.sublist hnext.sublist)
        rcases readUntil_rest isLineBreak escape stop (p :: rest) with hnil | ⟨b, rest₁, hrest, hb⟩
        · rw [afterLine_eq, hnil] at hin
          simp [dropNewline, afterNewline?] at hin
        · rw [afterLine_eq, hrest] at hfront' hafter
          obtain ⟨before, rfl, hinsert⟩ := dropNewline_insert tail' hy (ne_newline he hq) hb hfront'
          obtain ⟨middle, hmiddle⟩ : y :: tail <:+ p :: rest :=
            ((List.suffix_append before _).trans (List.suffix_cons b _)).trans hafter
          obtain ⟨p', rest', hdrop, hparts, hp'⟩ := exists_start_insert he hm hq hd hmiddle.symm hp
          refine @ReadsAlike.line _ _ _ _ _ _ _ _ (b :: (before ++ q :: tail')) hd hdrop hp hp' ?_ ?_
          · rw [hparts, ← hmiddle]
            rw [← hmiddle, ← List.cons_append] at hrest
            exact readUntil_insert_rest he hm hy hq hrest
          · rw [hinsert]
            exact hrest'

end Body

end Readers

end Dockerfile
