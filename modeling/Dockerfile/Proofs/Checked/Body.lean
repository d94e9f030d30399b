import Dockerfile.Proofs.Body.Run
import Dockerfile.Proofs.Checked.Instruction

/-!
# The body of a file, access by access

The readers of a body go through the text by offset: each looks at what stands behind its offset and
moves on. The offsets they reach are those at which the ends of the text stand that the readers of
`Dockerfile.Body` leave over, so each of them is one at which the text can be cut, and a reader that
goes on has moved.
-/

namespace Dockerfile

namespace Checked

abbrev offsetOf (text : Text) (rest : List Placed) : Nat :=
  Placed.startOr (Text.byteLength text) rest

def peek (text : Text) (offset : Nat) : Checked (Option Char) := do
  return (← sliceFrom text offset).head?

def behindNewline (text : Text) (offset : Nat) : Nat :=
  offset + (Text.newlineLength? text offset).getD 0

def continuationLength? (text : Text) (offset : Nat) (escape : Char) : Checked (Option Nat) :=
  match (Text.placedFrom? text offset).bind (afterContinuation? escape) with
  | some rest => some <$> minus (offsetOf text rest) offset
  | none => return none

def comment (text : Text) (start : Nat) : Checked (Comment × Nat) := do
  let line ← sliceFrom text start
  let stop := start + Text.byteLength (line.takeWhile fun c => !isLineBreak c)
  let body ← slice text (start + 1) stop
  let lead ← minus (Text.byteLength body) (Text.byteLength (Text.trimBlanksStart body))
  let content := Text.trimBlanks body
  let contentStart := start + 1 + lead
  let whole ← span start stop
  let inner ← span contentStart (contentStart + Text.byteLength content)
  return (⟨whole, inner, content⟩, behindNewline text stop)

structure Passage where
  chars : List Placed
  emptyLines : List Span
  comments : List Comment
  stop : Nat

def behindBlanks (text : Text) (start : Nat) : Checked Nat := do
  let rest ← sliceFrom text start
  return start + (← minus (Text.byteLength rest) (Text.byteLength (Text.trimBlanksStart rest)))

def skipLines (text : Text) (start : Nat) : Checked Passage := do
  let first ← behindBlanks text start
  match ← peek text first with
  | some c =>
      if isLineBreak c then
        let line ← span start first
        let next ← onward (Text.byteLength text) start (behindNewline text first)
        let later ← skipLines text next.1
        return { later with emptyLines := line :: later.emptyLines }
      else if c = '#' then
        let read ← comment text first
        let next ← onward (Text.byteLength text) start read.2
        let later ← skipLines text next.1
        return { later with comments := read.1 :: later.comments }
      else return ⟨[], [], [], start⟩
  | none => return ⟨[], [], [], start⟩
termination_by Text.byteLength text - start
decreasing_by
  all_goals
    have := next.2
    omega

def readUntil (ends : Char → Bool) (text : Text) (escape : Char) (start : Nat) :
    Checked Passage := do
  match ← peek text start with
  | some c =>
      match ← continuationLength? text start escape with
      | some length =>
          let skipped ← skipLines text (start + length)
          let next ← onward (Text.byteLength text) start skipped.stop
          let later ← readUntil ends text escape next.1
          return { later with
            emptyLines := skipped.emptyLines ++ later.emptyLines
            comments := skipped.comments ++ later.comments }
      | none =>
          if ends c then return ⟨[], [], [], start⟩
          else
            let next ← onward (Text.byteLength text) start (start + c.utf8Size)
            let later ← readUntil ends text escape next.1
            return { later with chars := ⟨c, start⟩ :: later.chars }
  | none => return ⟨[], [], [], start⟩
termination_by Text.byteLength text - start
decreasing_by
  all_goals
    have := next.2
    omega

def content? (text : Text) (start : Nat) : Checked (Option (Nat × Char)) := do
  match ← peek text start with
  | some c =>
      if Body.endsWord c then
        let next ← onward (Text.byteLength text) start
          (if isBlank c then start + 1 else behindNewline text start)
        content? text next.1
      else return some (start, c)
  | none => return none
termination_by Text.byteLength text - start
decreasing_by
  have := next.2
  omega

def body (text : Text) (escape : Char) (start : Nat) : Checked Body := do
  match ← content? text start with
  | some (first, c) =>
      if c = '#' then
        let read ← comment text first
        let next ← onward (Text.byteLength text) start read.2
        let later ← body text escape next.1
        return { later with comments := read.1 :: later.comments }
      else
        let keyword ← readUntil Body.endsWord text escape first
        let region ← readUntil isLineBreak text escape keyword.stop
        let next ← onward (Text.byteLength text) start (behindNewline text region.stop)
        let later ← body text escape next.1
        let comments := keyword.comments ++ region.comments ++ later.comments
        if keyword.chars.isEmpty then return ⟨comments, later.instructions⟩
        else
          let anchor := if keyword.stop < Text.byteLength text then keyword.stop else first
          let inst ← instruction ⟨keyword.chars, first⟩ ⟨region.chars, anchor⟩
            (keyword.emptyLines ++ region.emptyLines) escape
          return ⟨comments, inst :: later.instructions⟩
  | none => return ⟨[], []⟩
termination_by Text.byteLength text - start
decreasing_by
  all_goals
    have := next.2
    omega

/-! ## The ends of a text -/

section Ends

variable {text : Text} {chars rest : List Placed}

/-- A text can be cut where one of its ends is divided. -/
theorem slice_chars {a : List Placed} (h : a ++ rest <:+ Text.place 0 text) :
    slice text (offsetOf text (a ++ rest)) (offsetOf text rest) = .ok (Placed.text a) := by
  obtain ⟨before, htext, hstart, hstop⟩ := Text.exists_split_of_append_suffix h
  exact slice_eq htext hstart hstop

theorem sliceFrom_chars (h : chars <:+ Text.place 0 text) :
    sliceFrom text (offsetOf text chars) = .ok (Placed.text chars) := by
  have hnil : chars ++ [] <:+ Text.place 0 text := by rwa [List.append_nil]
  have hcut := slice_chars hnil
  rwa [List.append_nil] at hcut

theorem peek_chars (h : chars <:+ Text.place 0 text) :
    peek text (offsetOf text chars) = .ok (chars.head?.map Placed.char) := by
  rw [peek, sliceFrom_chars h, ok_bind, Placed.text, List.head?_map]
  rfl

theorem offsetOf_append {a : List Placed} (h : a ++ rest <:+ Text.place 0 text) :
    offsetOf text rest = offsetOf text (a ++ rest) + Text.byteLength (Placed.text a) := by
  obtain ⟨before, -, hstart, hstop⟩ := Text.exists_split_of_append_suffix h
  exact hstop.trans (congrArg (· + _) hstart.symm)

theorem offsetOf_le (h : chars <:+ Text.place 0 text) : offsetOf text chars ≤ Text.byteLength text :=
  Text.le_byteLength_of_isBoundary (Text.isBoundary_startOr h)

theorem offsetOf_lt (h : chars <:+ Text.place 0 text) (hrest : rest <:+ chars)
    (hlt : rest.length < chars.length) : offsetOf text chars < offsetOf text rest := by
  obtain ⟨a, rfl⟩ := hrest
  have hpos : 0 < Text.byteLength (Placed.text a) := by
    cases a with
    | nil => exact absurd hlt (Nat.lt_irrefl _)
    | cons p a =>
        rw [Placed.text_cons, Text.byteLength_cons]
        have := p.char.utf8Size_pos
        omega
  rw [offsetOf_append h]
  omega

theorem onward_chars (h : chars <:+ Text.place 0 text) (hrest : rest <:+ chars)
    (hlt : rest.length < chars.length) :
    ∃ next, onward (Text.byteLength text) (offsetOf text chars) (offsetOf text rest) = .ok next ∧
      next.1 = offsetOf text rest :=
  ⟨_, onward_eq (offsetOf_lt h hrest hlt) (offsetOf_le (hrest.trans h)), rfl⟩

theorem placedFrom?_chars (h : chars <:+ Text.place 0 text) :
    Text.placedFrom? text (offsetOf text chars) = some chars := by
  have hboundary : Text.isBoundary text (offsetOf text chars) = true := Text.isBoundary_startOr h
  obtain ⟨a, b, rfl, hchars⟩ := Text.exists_split_of_suffix_place h
  rw [Nat.zero_add] at hchars
  have hstart : offsetOf (a ++ b) chars = Text.byteLength a := by
    rw [hchars, offsetOf, Text.byteLength_append, Text.startOr_place]
  rw [Text.placedFrom?, if_pos hboundary, hstart, Text.dropBytes_append_byteLength, hchars]

theorem newlineLength?_chars (h : chars <:+ Text.place 0 text) :
    Text.newlineLength? text (offsetOf text chars) =
      (afterNewline? chars).map fun rest => offsetOf text rest - offsetOf text chars := by
  rw [Text.newlineLength?, placedFrom?_chars h]
  rfl

theorem behindNewline_chars (h : chars <:+ Text.place 0 text) :
    behindNewline text (offsetOf text chars) = offsetOf text (dropNewline chars) := by
  have hle := Text.startOr_le_startOr h (dropNewline_suffix chars)
  rw [behindNewline, newlineLength?_chars h]
  unfold dropNewline at hle ⊢
  cases hafter : afterNewline? chars with
  | none => rfl
  | some rest =>
      rw [hafter] at hle
      exact Nat.add_sub_cancel' hle

@[simp] theorem continuationLength?_eq (text : Text) (offset : Nat) (escape : Char) :
    continuationLength? text offset escape =
      .ok (Text.continuationLength? text offset escape) := by
  unfold continuationLength? Text.continuationLength? Text.placedFrom?
  split
  · rename_i rest h
    split at h
    · rename_i hboundary
      obtain ⟨a, b, rfl, rfl⟩ := Text.isBoundary_iff.mp hboundary
      rw [Text.dropBytes_append_byteLength, Option.bind_some] at h
      have hplace : Text.place (Text.byteLength a) b <:+ Text.place 0 (a ++ b) := by
        rw [Text.place_append, Nat.zero_add]
        exact List.suffix_append _ _
      have hsuffix := (@afterContinuation?_tiling escape 0 _ _ h).suffix
      have hle := Text.startOr_le_startOr hplace hsuffix
      rw [Text.byteLength_append, Text.startOr_place, ← Text.byteLength_append] at hle
      rw [minus_eq hle, if_pos hboundary, Text.dropBytes_append_byteLength, Option.bind_some, h]
      rfl
    · cases h
  · rename_i h
    rw [h]
    rfl

theorem continuationLength?_chars (h : chars <:+ Text.place 0 text) (escape : Char) :
    Text.continuationLength? text (offsetOf text chars) escape =
      (afterContinuation? escape chars).map fun rest => offsetOf text rest - offsetOf text chars := by
  rw [Text.continuationLength?, placedFrom?_chars h]
  rfl

end Ends

/-! ## The readers -/

section Readers

variable {text : Text}

theorem comment_eq {mark : Placed} (hmark : mark.char = '#') {rest : List Placed}
    (h : mark :: rest <:+ Text.place 0 text) :
    comment text mark.offset =
      .ok ((Comment.read (Text.byteLength text) mark.offset rest).1,
        offsetOf text (Comment.read (Text.byteLength text) mark.offset rest).2) := by
  have hstart : offsetOf text (mark :: rest) = mark.offset := rfl
  have hsize : mark.stop = mark.offset + 1 := by rw [Placed.stop, Placed.size, hmark]; rfl
  have hrest : rest <:+ Text.place 0 text := (List.suffix_cons mark rest).trans h
  have hbehind : offsetOf text rest = mark.offset + 1 := by
    have happend := offsetOf_append (a := [mark]) h
    rw [happend, Placed.text_cons, hmark]
    rfl
  have happend := @List.takeWhile_append_dropWhile _ (fun p : Placed => !isLineBreak p.char) rest
  have htake := Placed.text_takeWhile (fun c => !isLineBreak c) rest
  unfold Comment.read
  generalize rest.takeWhile (fun p => !isLineBreak p.char) = body at *
  generalize rest.dropWhile (fun p => !isLineBreak p.char) = after at *
  subst happend
  have hbody := offsetOf_append hrest
  have hline : Text.byteLength ((Placed.text (mark :: (body ++ after))).takeWhile
      fun c => !isLineBreak c) = 1 + Text.byteLength (Placed.text body) := by
    rw [Placed.text_cons, hmark, List.takeWhile_cons_of_pos rfl, ← htake, Text.byteLength_cons]
    rfl
  have hstop : mark.offset + (1 + Text.byteLength (Placed.text body)) = offsetOf text after := by
    omega
  have hcut : slice text (mark.offset + 1) (offsetOf text after) = .ok (Placed.text body) := by
    rw [← hbehind]
    exact slice_chars hrest
  have hafter : after <:+ Text.place 0 text := (List.suffix_append body after).trans hrest
  have hline' : sliceFrom text mark.offset = .ok (Placed.text (mark :: (body ++ after))) :=
    sliceFrom_chars h
  simp only [comment, hline', hline, hstop, hcut, ok_bind, minus_trimBlanksStart, span_add,
    behindNewline_chars hafter, pure_eq]
  rfl

theorem behindBlanks_eq {chars : List Placed} (h : chars <:+ Text.place 0 text) :
    behindBlanks text (offsetOf text chars) =
      .ok (offsetOf text (chars.dropWhile fun p => isBlank p.char)) := by
  have happend := @List.takeWhile_append_dropWhile _ (fun p : Placed => isBlank p.char) chars
  have htake := Placed.text_takeWhile isBlank chars
  have hoffset := offsetOf_append (happend.symm ▸ h)
  rw [happend, htake] at hoffset
  rw [behindBlanks, sliceFrom_chars h, ok_bind, minus_trimBlanksStart, hoffset]
  rfl

/-- Behind a terminator less of the text is left. -/
theorem dropNewline_length_lt {p : Placed} (h : isLineBreak p.char = true) (rest : List Placed) :
    (dropNewline (p :: rest)).length < (p :: rest).length := by
  obtain ⟨after, hafter⟩ := Option.isSome_iff_exists.mp ((isSome_afterNewline? p rest).trans h)
  have hlt := afterNewline?_length hafter
  rwa [dropNewline, hafter]

theorem Comment.read_length_lt (stop : Nat) (p : Placed) (rest : List Placed) :
    (Comment.read stop p.offset rest).2.length < (p :: rest).length :=
  Nat.lt_succ_of_le (Comment.read_length stop p.offset rest)

theorem skipLines_eq {chars : List Placed} (h : chars <:+ Text.place 0 text) :
    skipLines text (offsetOf text chars) =
      .ok ⟨[], (Body.skipLines (Text.byteLength text) chars).emptyLines,
        (Body.skipLines (Text.byteLength text) chars).comments,
        offsetOf text (Body.skipLines (Text.byteLength text) chars).rest⟩ := by
  have hfirst := behindBlanks_eq h
  have hsuffix := List.dropWhile_suffix (l := chars) fun p => isBlank p.char
  fun_induction Body.skipLines (Text.byteLength text) chars with
  | case1 chars hc =>
      rw [hc] at hsuffix hfirst
      have hpeek := peek_chars (hsuffix.trans h)
      rw [skipLines]
      simp only [hfirst, hpeek, ok_bind]
      rfl
  | case2 chars p rest hc hb next ih =>
      rw [hc] at hsuffix hfirst
      have hpeek := peek_chars (hsuffix.trans h)
      have hbehind := behindNewline_chars (hsuffix.trans h)
      have hline : span (offsetOf text chars) (offsetOf text (p :: rest)) =
          .ok ⟨offsetOf text chars, p.offset⟩ := span_eq (Text.startOr_le_startOr h hsuffix)
      have hdrop := (dropNewline_suffix (p :: rest)).trans hsuffix
      obtain ⟨next', hnext, hnext'⟩ := onward_chars h hdrop
        (Nat.lt_of_lt_of_le (dropNewline_length_lt hb rest) hsuffix.length_le)
      have hlater := ih (hdrop.trans h) (behindBlanks_eq (hdrop.trans h)) (List.dropWhile_suffix _)
      rw [← hnext'] at hlater
      rw [skipLines]
      simp only [hfirst, hpeek, List.head?_cons, Option.map_some, ok_bind, hb, if_true, hline, hbehind,
        hnext, hlater, pure_eq]
      rfl
  | case3 chars p rest hc hb hm comment next ih =>
      rw [hc] at hsuffix hfirst
      have hpeek := peek_chars (hsuffix.trans h)
      have hread : Checked.comment text (offsetOf text (p :: rest)) =
          .ok (comment.1, offsetOf text comment.2) := comment_eq hm (hsuffix.trans h)
      have hdrop : comment.2 <:+ chars :=
        (Comment.read_suffix _ p.offset rest).trans ((List.suffix_cons p rest).trans hsuffix)
      obtain ⟨next', hnext, hnext'⟩ := onward_chars h hdrop
        (Nat.lt_of_lt_of_le (Comment.read_length_lt _ p rest) hsuffix.length_le)
      have hlater := ih (hdrop.trans h) (behindBlanks_eq (hdrop.trans h)) (List.dropWhile_suffix _)
      rw [← hnext'] at hlater
      rw [skipLines]
      simp only [hfirst, hpeek, List.head?_cons, Option.map_some, ok_bind, hm, if_true, hread, hnext, hlater,
        pure_eq]
      rfl
  | case4 chars p rest hc hb hm =>
      rw [hc] at hsuffix hfirst
      have hpeek := peek_chars (hsuffix.trans h)
      rw [skipLines]
      simp only [hfirst, hpeek, List.head?_cons, Option.map_some, ok_bind, hb, if_false, hm, pure_eq]
      rfl

theorem readUntil_eq (ends : Char → Bool) (escape : Char) {chars : List Placed}
    (h : chars <:+ Text.place 0 text) :
    readUntil ends text escape (offsetOf text chars) =
      .ok ⟨(Body.readUntil ends escape (Text.byteLength text) chars).chars,
        (Body.readUntil ends escape (Text.byteLength text) chars).emptyLines,
        (Body.readUntil ends escape (Text.byteLength text) chars).comments,
        offsetOf text (Body.readUntil ends escape (Text.byteLength text) chars).rest⟩ := by
  have hpeek := peek_chars h
  have hlength := continuationLength?_chars h escape
  fun_induction Body.readUntil ends escape (Text.byteLength text) chars with
  | case1 =>
      rw [readUntil, hpeek]
      rfl
  | case2 p rest after hc skipped next ih =>
      have hafter := (@afterContinuation?_tiling escape 0 _ _ hc).suffix
      have hbehind : offsetOf text (p :: rest) + (offsetOf text after - offsetOf text (p :: rest)) =
          offsetOf text after := Nat.add_sub_cancel' (Text.startOr_le_startOr h hafter)
      have hskipped : skipLines text (offsetOf text after) =
          .ok ⟨[], skipped.emptyLines, skipped.comments, offsetOf text skipped.rest⟩ :=
        skipLines_eq (hafter.trans h)
      have hrest : skipped.rest <:+ p :: rest :=
        (@Body.skipLines_tiling escape _ after).suffix.trans hafter
      have hlt : skipped.rest.length < (p :: rest).length :=
        Nat.lt_of_le_of_lt (Body.skipLines_length _ after) (afterContinuation?_length hc)
      obtain ⟨next', hnext, hnext'⟩ := onward_chars h hrest hlt
      have hlater := ih (hrest.trans h) (peek_chars (hrest.trans h))
        (continuationLength?_chars (hrest.trans h) escape)
      rw [← hnext'] at hlater
      rw [readUntil]
      simp only [hpeek, List.head?_cons, Option.map_some, ok_bind, continuationLength?_eq, hlength, hc,
        hbehind, hskipped, hnext, hlater, pure_eq]
      rfl
  | case3 p rest hc hp =>
      rw [readUntil]
      simp only [hpeek, List.head?_cons, Option.map_some, Option.map_none, ok_bind,
        continuationLength?_eq, hlength, hc, hp, if_true, pure_eq]
  | case4 p rest hc hp next ih =>
      have hrest : rest <:+ p :: rest := List.suffix_cons p rest
      have hstep : offsetOf text (p :: rest) + p.char.utf8Size = offsetOf text rest :=
        (offsetOf_append (a := [p]) h).symm
      obtain ⟨next', hnext, hnext'⟩ := onward_chars h hrest (Nat.lt_add_one _)
      have hlater := ih (hrest.trans h) (peek_chars (hrest.trans h))
        (continuationLength?_chars (hrest.trans h) escape)
      rw [← hnext'] at hlater
      rw [readUntil]
      simp only [hpeek, List.head?_cons, Option.map_some, Option.map_none, ok_bind,
        continuationLength?_eq, hlength, hc, hp, hstep, hnext, hlater, pure_eq]
      rfl

/-- Passing a blank or a line break leads to the same content. -/
theorem exists_behind_endsWord {p : Placed} {rest : List Placed}
    (h : p :: rest <:+ Text.place 0 text) (hp : Body.endsWord p.char = true) :
    ∃ after, after <:+ p :: rest ∧ after.length < (p :: rest).length ∧
      (if isBlank p.char then offsetOf text (p :: rest) + 1
        else behindNewline text (offsetOf text (p :: rest))) = offsetOf text after ∧
      (after.dropWhile fun q => Body.endsWord q.char) =
        (p :: rest).dropWhile fun q => Body.endsWord q.char := by
  cases hb : isBlank p.char with
  | true =>
      have hsize : p.char.utf8Size = 1 := by
        simp only [isBlank, Bool.or_eq_true, beq_iff_eq] at hb
        rcases hb with hb | hb <;> rw [hb] <;> rfl
      have hstep := offsetOf_append (a := [p]) h
      rw [Placed.text_cons, Text.byteLength_cons, hsize] at hstep
      refine ⟨rest, List.suffix_cons p rest, Nat.lt_add_one _, hstep.symm, ?_⟩
      exact (List.dropWhile_cons_of_pos (p := fun q : Placed => Body.endsWord q.char) hp).symm
  | false =>
      have hbreak : isLineBreak p.char = true := by simpa [Body.endsWord, hb] using hp
      exact ⟨dropNewline (p :: rest), dropNewline_suffix _, dropNewline_length_lt hbreak rest,
        behindNewline_chars h, Body.dropWhile_dropNewline _⟩

theorem content?_eq {chars : List Placed} (h : chars <:+ Text.place 0 text) :
    content? text (offsetOf text chars) =
      .ok ((chars.dropWhile fun p => Body.endsWord p.char).head?.map
        fun p => (p.offset, p.char)) := by
  induction hn : chars.length using Nat.strong_induction_on generalizing chars with
  | _ n ih =>
      have hpeek := peek_chars h
      rw [content?]
      cases chars with
      | nil =>
          simp only [hpeek, ok_bind]
          rfl
      | cons p rest =>
          simp only [hpeek, List.head?_cons, Option.map_some, ok_bind]
          cases hp : Body.endsWord p.char with
          | true =>
              obtain ⟨after, hafter, hlt, hoffset, hdrop⟩ := exists_behind_endsWord h hp
              obtain ⟨next, hnext, hnext'⟩ := onward_chars h hafter hlt
              have hlater := ih after.length (hn ▸ hlt) (hafter.trans h) rfl
              simp only [if_true, hoffset, hnext, ok_bind, hnext', hlater, hdrop]
          | false =>
              rw [List.dropWhile_cons_of_neg (by simp [hp])]
              rfl

/-- Where a region starts matters only behind the end of the keyword. -/
theorem ofParts_startOr {start : Nat} {keyword : Excerpt} (hstart : start ≤ keyword.span.stop)
    (region rest : List Placed) (emptyLines : List Span) (escape : Char) :
    Instruction.ofParts keyword ⟨region, Placed.startOr start rest⟩ emptyLines escape =
      Instruction.ofParts keyword ⟨region, Placed.startOr keyword.stop rest⟩ emptyLines escape := by
  unfold Instruction.ofParts
  cases rest with
  | nil =>
      have hstop : keyword.stop ≤ keyword.span.stop := Nat.le_max_left _ _
      simp only [Placed.startOr_nil, Nat.max_eq_right hstart, Nat.max_eq_right hstop]
  | cons p rest => rfl

theorem startOr_of_suffix {rest : List Placed} (h : rest <:+ Text.place 0 text) (start : Nat) :
    (if offsetOf text rest < Text.byteLength text then offsetOf text rest else start) =
      Placed.startOr start rest := by
  cases rest with
  | nil => exact if_neg (Nat.lt_irrefl _)
  | cons p rest =>
      have hstop := (Text.offset_of_mem_place (h.mem List.mem_cons_self)).2
      have hoffset : offsetOf text (p :: rest) = p.offset := rfl
      have := p.offset_lt_stop
      exact if_pos (by omega)

theorem start_le_keyword_stop {p : Placed} {rest : List Placed} (h : p :: rest <:+ Text.place 0 text)
    (escape : Char) :
    p.offset ≤ (⟨(Body.readUntil Body.endsWord escape (Text.byteLength text) (p :: rest)).chars,
      p.offset⟩ : Excerpt).span.stop := by
  refine Nat.le_trans ?_ (Nat.le_max_right _ _)
  have hkept := (@Body.readUntil_tiling escape (Text.byteLength text) _
    (fun _ => Body.endsWord_of_isLineBreak) (p :: rest)).kept_sublist
  show p.offset ≤ Placed.startOr p.offset _
  cases hkeyword : (Body.readUntil Body.endsWord escape (Text.byteLength text) (p :: rest)).chars with
  | nil => exact Nat.le_refl _
  | cons q more =>
      rw [hkeyword] at hkept
      exact Text.startOr_le_offset h (hkept.mem (List.mem_append_left _ List.mem_cons_self))

theorem body_eq (escape : Char) {chars : List Placed} (h : chars <:+ Text.place 0 text) :
    body text escape (offsetOf text chars) =
      .ok (Body.read escape (Text.byteLength text) chars) := by
  have hcontent := content?_eq h
  have hsuffix := List.dropWhile_suffix (l := chars) fun p => Body.endsWord p.char
  fun_induction Body.read escape (Text.byteLength text) chars with
  | case1 chars hc =>
      rw [hc] at hcontent
      rw [body, hcontent]
      rfl
  | case2 chars p rest hc hm comment next ih =>
      rw [hc] at hcontent hsuffix
      have hread : Checked.comment text p.offset =
          .ok (comment.1, offsetOf text comment.2) := comment_eq hm (hsuffix.trans h)
      have hdrop : comment.2 <:+ chars :=
        (Comment.read_suffix _ p.offset rest).trans ((List.suffix_cons p rest).trans hsuffix)
      obtain ⟨next', hnext, hnext'⟩ := onward_chars h hdrop
        (Nat.lt_of_lt_of_le (Comment.read_length_lt _ p rest) hsuffix.length_le)
      have hlater := ih (hdrop.trans h) (content?_eq (hdrop.trans h)) (List.dropWhile_suffix _)
      rw [← hnext'] at hlater
      rw [body]
      simp only [hcontent, List.head?_cons, Option.map_some, ok_bind, hm, if_true, hread, hnext,
        hlater, pure_eq]
      rfl
  | case3 chars p rest hc hm keyword region next word inst ih =>
      rw [hc] at hcontent hsuffix
      have hend : Body.endsWord p.char = false := by
        have hhead := List.head?_dropWhile_not (fun p : Placed => Body.endsWord p.char) chars
        rw [hc] at hhead
        simpa using hhead
      have hchars := hsuffix.trans h
      have hkept : keyword.rest <:+ p :: rest :=
        (Body.readUntil_tiling (fun _ => Body.endsWord_of_isLineBreak) (p :: rest)).suffix
      have hregion : region.rest <:+ keyword.rest :=
        (Body.readUntil_tiling (fun _ hbreak => hbreak) keyword.rest).suffix
      have hdrop := (dropNewline_suffix region.rest).trans (hregion.trans hkept)
      have hlt : (dropNewline region.rest).length < (p :: rest).length :=
        Nat.lt_of_le_of_lt ((dropNewline_suffix _).trans hregion).length_le
          (Body.readUntil_length_lt Body.endsWord escape _ p rest hend)
      obtain ⟨next', hnext, hnext'⟩ := onward_chars h (hdrop.trans hsuffix)
        (Nat.lt_of_lt_of_le hlt hsuffix.length_le)
      have hlater := ih ((hdrop.trans hsuffix).trans h) (content?_eq ((hdrop.trans hsuffix).trans h))
        (List.dropWhile_suffix _)
      rw [← hnext'] at hlater
      have hword : readUntil Body.endsWord text escape p.offset =
          .ok ⟨keyword.chars, keyword.emptyLines, keyword.comments, offsetOf text keyword.rest⟩ :=
        readUntil_eq Body.endsWord escape hchars
      have hline : readUntil isLineBreak text escape (offsetOf text keyword.rest) =
          .ok ⟨region.chars, region.emptyLines, region.comments, offsetOf text region.rest⟩ :=
        readUntil_eq isLineBreak escape (hkept.trans hchars)
      have hinst := ofParts_startOr (start_le_keyword_stop hchars escape) region.chars keyword.rest
        (keyword.emptyLines ++ region.emptyLines) escape
      have hanchor := startOr_of_suffix (hkept.trans hchars) p.offset
      rw [body]
      simp only [hcontent, List.head?_cons, Option.map_some, ok_bind, hm, if_false, hword, hline,
        behindNewline_chars (hregion.trans (hkept.trans hchars)), hnext, hlater, instruction_eq,
        hanchor, pure_eq]
      rw [hinst]
      have hempty : word.isEmpty = keyword.chars.isEmpty := rfl
      rw [hempty]
      split <;> rfl

end Readers

end Checked

end Dockerfile
