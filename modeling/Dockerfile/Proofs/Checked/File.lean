import Dockerfile.Proofs.Directive.Taken
import Dockerfile.Proofs.File.SourceMap
import Dockerfile.Proofs.Checked.Body

/-!
# Whole files, access by access

Directives are read line by line, by number. A value that goes on in later lines keeps the start of
its place, which none of those lines lies in front of.
-/

namespace Dockerfile

theorem Excerpt.Within.start_le_stop {text : Text} {e : Excerpt} (h : e.Within text) :
    e.start ≤ e.stop := by
  have hpairwise := (Text.pairwise_place 0 text).sublist h.chars
  unfold start stop
  cases hchars : e.chars with
  | nil => exact Nat.le_refl _
  | cons p rest =>
      rw [hchars] at hpairwise
      have hstop := Placed.stop_le_stopOr hpairwise List.mem_cons_self e.anchor
      exact Nat.le_trans (Nat.le_of_lt p.offset_lt_stop) hstop

/-- The body begins between two characters of the text. -/
theorem Directive.exists_front (text : Text) :
    ∃ front body, text = front ++ body ∧ (readAll text).2 = Text.byteLength front := by
  obtain ⟨taken, found, last, htaken, hlines | ⟨front, body, line, tail, hcut, hnone, hclosed⟩⟩ :=
    exists_taken text
  · exact ⟨text, [], (List.append_nil text).symm, by rw [(readAll_of_taken htaken).1 hlines]⟩
  · refine ⟨front, body, hcut.split, ?_⟩
    rw [(readAll_of_taken htaken).2 hcut.split hcut.leading hcut.lined.linesFrom_eq hnone hclosed]

namespace Checked

def placed (d : Directive) : Checked Directive := do
  let _ ← span d.name.start d.name.stop
  let _ ← span d.valueSpan.start d.valueSpan.stop
  let _ ← span d.span.start d.span.stop
  return d

def directive? (text : Text) (number : Nat) : Checked (Option Directive) := do
  match Directive.ofLine? ⟨Text.lineStart text number, ← lineText text number, []⟩ with
  | some d => some <$> placed d
  | none => return none

def extend (text : Text) (number : Nat) (d : Directive) : Checked Directive := do
  placed (d.extend ⟨Text.lineStart text number, ← lineText text number, []⟩)

def directivesFrom (text : Text) (current : Option Directive) (number : Nat) :
    Checked (List Directive × Nat) := do
  if number < (Text.lines text).length then
    match current with
    | some d =>
        if d.isOpen then directivesFrom text (some (← extend text number d)) (number + 1)
        else
          match ← directive? text number with
          | some next =>
              let found ← directivesFrom text (some next) (number + 1)
              return (d :: found.1, found.2)
          | none => return ([d], Text.lineStart text number)
    | none =>
        match ← directive? text number with
        | some next => directivesFrom text (some next) (number + 1)
        | none => return ([], Text.lineStart text number)
  else return (current.toList, Text.byteLength text)
termination_by (Text.lines text).length - number

def directiveComment (text : Text) (d : Directive) : Checked Comment := do
  return Comment.ofBody d.span.start d.span.stop
    (← sliceSpan text ⟨d.span.start + 1, d.span.stop⟩)

def parse (text : Text) : Checked File := do
  let _ ← lineStarts text
  let found ← directivesFrom text none 0
  let body ← body text (File.escapeUnder found.1) found.2
  let comments ← found.1.mapM (directiveComment text)
  return ⟨found.1, comments ++ body.comments, body.instructions⟩

theorem placed_eq {text : Text} {d : Directive} (h : d.Within text) : placed d = .ok d := by
  rw [placed, span_eq h.name.start_le_stop, ok_bind, span_eq h.value.ordered, ok_bind,
    span_eq h.span.ordered]
  rfl

section Directives

variable {text front rest : Text} {before after : List Line} {line : Line}

theorem directive?_eq (h : Text.Cut text front rest before (line :: after)) :
    directive? text before.length = .ok (Directive.ofLine? line) := by
  obtain ⟨rest', hrest, -⟩ := h.exists_next
  have hline : Directive.ofLine? ⟨Text.lineStart text before.length,
      (Text.line text before.length).content, []⟩ = Directive.ofLine? line := by
    rw [Text.lineStart, h.line_eq]
    rfl
  rw [directive?, lineText_eq, ok_bind, hline]
  cases hd : Directive.ofLine? line with
  | none => rfl
  | some d =>
      have hwithin : d.Within text := Directive.ofLine?_within (by rw [h.split, hrest]) h.start_eq hd
      simp only [placed_eq hwithin, map_ok]

theorem extend_eq (h : Text.Cut text front rest before (line :: after)) {d : Directive}
    (hd : d.Within text) (hle : d.span.stop ≤ line.start) :
    extend text before.length d = .ok (d.extend line) ∧ (d.extend line).Within text := by
  obtain ⟨rest', hrest, -⟩ := h.exists_next
  have hwithin : (d.extend line).Within text :=
    Directive.extend_within (by rw [h.split, hrest]) h.start_eq hd hle
  have hline : d.extend ⟨Text.lineStart text before.length,
      (Text.line text before.length).content, []⟩ = d.extend line := by
    rw [Text.lineStart, h.line_eq]
    rfl
  rw [extend, lineText_eq, ok_bind, hline, placed_eq hwithin]
  exact ⟨rfl, hwithin⟩

/-- What is said of the directive at hand in front of a line holds behind the line too. -/
theorem exists_next_cut (h : Text.Cut text front rest before (line :: after)) {d : Directive}
    (hwithin : d.Within text) (hstop : d.span.stop = line.stop) :
    after = [] ∨ ∃ front rest, Text.Cut text front rest (before ++ [line]) after ∧
      ∀ e ∈ some d, e.Within text ∧ e.span.stop ≤ Text.byteLength front := by
  obtain ⟨rest', -, -, -, ⟨hnil, -⟩ | ⟨-, hnext⟩⟩ := h.exists_next
  · exact .inl hnil
  · refine .inr ⟨_, _, hnext, fun e he => ?_⟩
    obtain rfl := Option.mem_some.mp he
    refine ⟨hwithin, ?_⟩
    rw [hstop, Line.stop, h.start_eq, Text.byteLength_append, Text.byteLength_append]
    omega

/-- From a line on, the directives are read with every place in order. -/
theorem directivesFrom_eq (lines : List Line) {number : Nat} {current : Option Directive}
    (hnumber : number + lines.length = (Text.lines text).length)
    (hlines : lines = [] ∨ ∃ front rest before, Text.Cut text front rest before lines ∧
      number = before.length ∧ ∀ d ∈ current, d.Within text ∧ d.span.stop ≤ Text.byteLength front) :
    directivesFrom text current number =
      .ok (Directive.readFrom (Text.byteLength text) current lines) := by
  induction lines generalizing number current with
  | nil =>
      rw [directivesFrom.eq_def, if_neg (by simp only [List.length_nil] at hnumber; omega)]
      rfl
  | cons line lines ih =>
      obtain ⟨front, rest, before, hcut, rfl, hcurrent⟩ := hlines.resolve_left (by simp)
      have hlater {d : Directive} (hwithin : d.Within text) (hstop : d.span.stop = line.stop) :
          directivesFrom text (some d) (before.length + 1) =
            .ok (Directive.readFrom (Text.byteLength text) (some d) lines) := by
        refine ih (by rw [List.length_cons] at hnumber; omega)
          ((exists_next_cut hcut hwithin hstop).imp_right ?_)
        rintro ⟨front, rest, hcut, hcurrent⟩
        exact ⟨front, rest, _, hcut, by simp, hcurrent⟩
      have hfresh {next : Directive} (hnext : Directive.ofLine? line = some next) :
          directivesFrom text (some next) (before.length + 1) =
            .ok (Directive.readFrom (Text.byteLength text) (some next) lines) := by
        obtain ⟨rest', hrest, -⟩ := hcut.exists_next
        obtain ⟨_, _, _, _, hspan, _⟩ := Directive.exists_of_ofLine? hnext
        exact hlater (Directive.ofLine?_within (by rw [hcut.split, hrest]) hcut.start_eq hnext)
          (by rw [hspan])
      have hstart : Text.lineStart text before.length = line.start := by
        rw [Text.lineStart, hcut.line_eq]
      rw [directivesFrom.eq_def, if_pos (by rw [List.length_cons] at hnumber; omega)]
      cases current with
      | none =>
          simp only [directive?_eq hcut, ok_bind, Directive.readFrom, hstart, pure_eq]
          cases hline : Directive.ofLine? line with
          | none => rfl
          | some next => exact hfresh hline
      | some d =>
          obtain ⟨hwithin, hle⟩ := hcurrent d rfl
          obtain ⟨hextend, hextended⟩ := extend_eq hcut hwithin (by rw [hcut.start_eq]; exact hle)
          simp only [directive?_eq hcut, hextend, ok_bind, Directive.readFrom, hstart, pure_eq]
          cases hopen : d.isOpen with
          | true => exact hlater hextended rfl
          | false =>
              cases hline : Directive.ofLine? line with
              | none => rfl
              | some next =>
                  simp only [Bool.false_eq_true, if_false, hfresh hline, ok_bind]

end Directives

/-- Every access that reading a text makes is possible. -/
@[simp] theorem parse_eq (text : Text) : parse text = .ok (File.parse text) := by
  have hfound : directivesFrom text none 0 = .ok (Directive.readAll text) :=
    directivesFrom_eq _ (Nat.zero_add _)
      (.inr ⟨[], text, [], Text.cut_start text, rfl, by simp⟩)
  have hcomments (ds : List Directive) :
      ds.mapM (directiveComment text) = .ok (ds.map (Directive.comment text)) :=
    mapM_eq fun d _ => by rw [directiveComment, sliceSpan_eq]; rfl
  have hsuffix := File.bodyChars_suffix text
  have hbody := body_eq (File.escapeUnder (Directive.readAll text).1) hsuffix
  have hstart : offsetOf text (Directive.bodyChars text (Directive.readAll text).2) =
      (Directive.readAll text).2 := by
    obtain ⟨front, body, htext, hresume⟩ := Directive.exists_front text
    rw [hresume, htext, Directive.bodyChars_append, offsetOf, Text.byteLength_append,
      Text.startOr_place]
  rw [hstart] at hbody
  simp only [parse, lineStarts_eq, hfound, hbody, hcomments, ok_bind, pure_eq]
  rfl

end Checked

end Dockerfile
