import Dockerfile.Proofs.Body.Patched

/-!
# Lines with other plain characters

Characters without a meaning for the readers of lines can be written as others of that kind. Each line
is then passed, kept or continued as it was before, and what logical lines keep is written anew in the
same way (`Body.text_runs_styled`).
-/

namespace Dockerfile

/-- A character that neither separates nor begins a comment nor continues a line. -/
structure Plain (escape c : Char) : Prop where
  blank : isBlank c = false
  inside : isLineBreak c = false
  mark : c ≠ '#'
  content : c ≠ escape

/-- A character is written as it is or, if it is plain, as another plain one, with a backslash in front
or without. -/
def Mild (escape : Char) (write : Placed → Text) : Prop :=
  ∀ p, write p = [p.char] ∨
    Plain escape p.char ∧ ∃ d, Plain escape d ∧ (write p = [d] ∨ write p = ['\\', d])

structure Style (escape : Char) (span : Span) where
  write : Placed → Text
  outside {p : Placed} (h : ¬(span.start ≤ p.offset ∧ p.offset < span.stop)) : write p = [p.char]
  mild : Mild escape write

namespace Style

variable {escape : Char} {span : Span} (style : Style escape span)

def text (chars : List Placed) : Text :=
  chars.flatMap style.write

@[simp] theorem text_nil : style.text [] = [] := rfl

@[simp] theorem text_cons (p : Placed) (chars : List Placed) :
    style.text (p :: chars) = style.write p ++ style.text chars := rfl

@[simp] theorem text_append (a b : List Placed) :
    style.text (a ++ b) = style.text a ++ style.text b :=
  List.flatMap_append

def within (span : Span) {write : Placed → Text} (mild : Mild escape write) : Style escape span where
  write p := if span.start ≤ p.offset ∧ p.offset < span.stop then write p else [p.char]
  outside h := if_neg h
  mild p := by
    dsimp only
    split
    · exact mild p
    · exact .inl rfl

theorem text_within {write : Placed → Text} (mild : Mild escape write) {chars : List Placed}
    (h : ∀ p ∈ chars, ¬(span.start ≤ p.offset ∧ p.offset < span.stop) → write p = [p.char]) :
    (within span mild).text chars = chars.flatMap write := by
  refine List.flatMap_congr fun p hp => ?_
  by_cases hinside : span.start ≤ p.offset ∧ p.offset < span.stop
  · exact if_pos hinside
  · exact (if_neg hinside).trans (h p hp hinside).symm

/-! ## Characters -/

theorem write_of_not_plain {p : Placed} (h : ¬Plain escape p.char) : style.write p = [p.char] :=
  (style.mild p).resolve_right fun hplain => h hplain.1

theorem write_ne_nil (p : Placed) : style.write p ≠ [] := by
  rcases style.mild p with h | ⟨-, d, -, h | h⟩ <;> simp [h]

/-- A property that neither plain characters nor the backslash have does not depend on the style. -/
theorem eq_of_mem_write {f : Char → Bool} (hplain : ∀ c, Plain escape c → f c = false)
    (hbackslash : f '\\' = false) {p : Placed} {c : Char} (hc : c ∈ style.write p) :
    f c = f p.char := by
  rcases style.mild p with h | ⟨hp, d, hd, h | h⟩
  · rw [h, List.mem_singleton] at hc
    rw [hc]
  · rw [h, List.mem_singleton] at hc
    rw [hc, hplain _ hd, hplain _ hp]
  · rw [h] at hc
    rw [hplain _ hp]
    rcases List.mem_cons.mp hc with rfl | hc
    · exact hbackslash
    · rw [List.mem_singleton.mp hc, hplain _ hd]

theorem isBlank_of_mem_write {p : Placed} {c : Char} (hc : c ∈ style.write p) :
    isBlank c = isBlank p.char :=
  style.eq_of_mem_write (fun _ h => h.blank) (by decide) hc

theorem not_isBlank_of_mem_write {p : Placed} {c : Char} (hc : c ∈ style.write p) :
    (!isBlank c) = !isBlank p.char :=
  congrArg _ (style.isBlank_of_mem_write hc)

theorem isLineBreak_of_mem_write {p : Placed} {c : Char} (hc : c ∈ style.write p) :
    isLineBreak c = isLineBreak p.char :=
  style.eq_of_mem_write (fun _ h => h.inside) (by decide) hc

/-! ## Texts -/

theorem text_of_write {chars : List Placed} (h : ∀ p ∈ chars, style.write p = [p.char]) :
    style.text chars = Placed.text chars := by
  induction chars with
  | nil => rfl
  | cons p chars ih =>
      rw [text_cons, Placed.text_cons, h p List.mem_cons_self,
        ih fun q hq => h q (List.mem_cons_of_mem _ hq)]
      rfl

theorem isEmpty_text (chars : List Placed) : (style.text chars).isEmpty = chars.isEmpty := by
  cases chars with
  | nil => rfl
  | cons p chars => simp [style.write_ne_nil]

theorem text_of_not_plain {chars : List Placed} (h : ∀ p ∈ chars, ¬Plain escape p.char) :
    style.text chars = Placed.text chars :=
  style.text_of_write fun p hp => style.write_of_not_plain (h p hp)

theorem text_of_outside {chars : List Placed}
    (h : ∀ p ∈ chars, ¬(span.start ≤ p.offset ∧ p.offset < span.stop)) :
    style.text chars = Placed.text chars :=
  style.text_of_write fun p hp => style.outside (h p hp)

theorem text_of_blank {chars : List Placed} (h : ∀ p ∈ chars, isBlank p.char = true) :
    style.text chars = Placed.text chars :=
  style.text_of_not_plain fun p hp hplain => by
    have hblank := h p hp
    rw [hplain.blank] at hblank
    cases hblank

theorem clean {start : Nat} {text : Text} (h : ∀ c ∈ text, isLineBreak c = false) :
    ∀ c ∈ style.text (Text.place start text), isLineBreak c = false := by
  intro c hc
  obtain ⟨p, hp, hc⟩ := List.mem_flatMap.mp hc
  rw [style.isLineBreak_of_mem_write hc]
  exact h _ (Text.char_mem_of_mem_place hp)

section While

variable {f : Char → Bool} (hf : ∀ p, ∀ c ∈ style.write p, f c = f p.char)
include hf

theorem takeWhile_text (chars : List Placed) :
    (style.text chars).takeWhile f = style.text (chars.takeWhile fun p => f p.char) := by
  induction chars with
  | nil => rfl
  | cons p chars ih =>
      by_cases hp : f p.char = true
      · rw [text_cons, List.takeWhile_append_of_pos fun c hc => (hf p c hc).trans hp,
          List.takeWhile_cons_of_pos (p := fun q : Placed => f q.char) hp, text_cons, ih]
      · obtain ⟨c, w, hw⟩ := List.exists_cons_of_ne_nil (style.write_ne_nil p)
        have hc : ¬f c = true := by rwa [hf p c (by rw [hw]; exact List.mem_cons_self)]
        rw [text_cons, hw, List.cons_append, List.takeWhile_cons_of_neg hc,
          List.takeWhile_cons_of_neg (p := fun q : Placed => f q.char) hp]
        rfl

theorem dropWhile_text (chars : List Placed) :
    (style.text chars).dropWhile f = style.text (chars.dropWhile fun p => f p.char) := by
  induction chars with
  | nil => rfl
  | cons p chars ih =>
      by_cases hp : f p.char = true
      · rw [text_cons, List.dropWhile_append_of_pos fun c hc => (hf p c hc).trans hp,
          List.dropWhile_cons_of_pos (p := fun q : Placed => f q.char) hp, ih]
      · obtain ⟨c, w, hw⟩ := List.exists_cons_of_ne_nil (style.write_ne_nil p)
        have hc : ¬f c = true := by rwa [hf p c (by rw [hw]; exact List.mem_cons_self)]
        rw [text_cons, hw, List.cons_append, List.dropWhile_cons_of_neg hc,
          List.dropWhile_cons_of_neg (p := fun q : Placed => f q.char) hp, text_cons, hw,
          List.cons_append]

end While

theorem head?_text_iff {c : Char} (hc : ¬Plain escape c) (hbackslash : c ≠ '\\')
    (chars : List Placed) :
    (style.text chars).head? = some c ↔ (Placed.text chars).head? = some c := by
  cases chars with
  | nil => exact Iff.rfl
  | cons p chars =>
      rcases style.mild p with h | ⟨hp, d, hd, h | h⟩
      · simp [h]
      all_goals
        rw [text_cons, h, Placed.text_cons]
        refine iff_of_false (fun hhead => ?_) (fun hhead => hc (Option.some.inj hhead ▸ hp))
      · exact hc (Option.some.inj hhead ▸ hd)
      · exact hbackslash (Option.some.inj hhead).symm

theorem all_isBlank (start : Nat) (text : Text) :
    (style.text (Text.place start text)).all isBlank = text.all isBlank := by
  have hdrop := style.dropWhile_text (fun _ _ => style.isBlank_of_mem_write) (Text.place start text)
  rw [Text.dropWhile_place] at hdrop
  rw [Bool.eq_iff_iff, List.all_eq_true, List.all_eq_true, ← List.dropWhile_eq_nil_iff,
    ← List.dropWhile_eq_nil_iff, hdrop]
  cases text.dropWhile isBlank with
  | nil => exact Iff.rfl
  | cons c text => simp [style.write_ne_nil]

theorem beforeEscape?_text (start : Nat) (text : Text) :
    Text.beforeEscape? escape (style.text (Text.place start text)) =
      (Text.beforeEscape? escape text).map fun front => style.text (Text.place start front) := by
  induction text generalizing start with
  | nil => rfl
  | cons c text ih =>
      have hkept : ∀ front, style.write ⟨c, start⟩ ++ style.text (Text.place (start + c.utf8Size) front) =
          style.text (Text.place start (c :: front)) := fun _ => rfl
      rw [Text.place_cons, text_cons, Text.beforeEscape?]
      rcases style.mild ⟨c, start⟩ with h | ⟨hp, d, hd, h | h⟩
      · rw [h, List.singleton_append, Text.beforeEscape?, style.all_isBlank, ih]
        split
        · rfl
        · rw [Option.map_map, Option.map_map]
          congr 1
          funext front
          rw [Function.comp_apply, Function.comp_apply, ← hkept, h]
          rfl
      · rw [h, List.singleton_append, Text.beforeEscape?, if_neg fun h => hd.content h.1,
          if_neg fun h => hp.content h.1, ih, Option.map_map, Option.map_map]
        congr 1
        funext front
        rw [Function.comp_apply, Function.comp_apply, ← hkept, h]
        rfl
      · rw [h, List.cons_append, List.singleton_append, Text.beforeEscape?, Text.beforeEscape?,
          if_neg (by simp [hd.blank]), if_neg fun h => hd.content h.1,
          if_neg fun h => hp.content h.1, ih, Option.map_map, Option.map_map, Option.map_map]
        congr 1
        funext front
        rw [Function.comp_apply, Function.comp_apply, Function.comp_apply, ← hkept, h]
        rfl

end Style

/-! ## Lines -/

structure Line.Styled {escape : Char} {span : Span} (style : Style escape span) (line line' : Line) :
    Prop where
  content : line'.content = style.text (Text.place line.start line.content)
  terminator : line'.terminator = line.terminator

namespace Line.Styled

variable {escape : Char} {span : Span} {style : Style escape span} {line line' : Line}
  (h : line.Styled style line')
include h

theorem indent_eq : line'.indent = line.indent := by
  rw [indent, h.content, style.takeWhile_text fun _ _ => style.isBlank_of_mem_write,
    Text.takeWhile_place, style.text_of_blank, Text.text_place]
  · rfl
  · exact Text.isBlank_of_mem_place fun _ => line.isBlank_of_mem_indent

theorem core_eq : line'.core =
    style.text (Text.place (line.start + Text.byteLength line.indent) line.core) := by
  rw [core, h.content, style.dropWhile_text fun _ _ => style.isBlank_of_mem_write,
    Text.dropWhile_place]
  rfl

theorem isEmpty_core : line'.core.isEmpty = line.core.isEmpty := by
  rw [h.core_eq, style.isEmpty_text]
  cases line.core <;> rfl

theorem isComment_eq : line'.isComment = line.isComment := by
  rw [isComment, isComment, Bool.eq_iff_iff, beq_iff_eq, beq_iff_eq, h.core_eq,
    style.head?_text_iff (fun hplain => hplain.mark rfl) (by decide), Text.text_place]

theorem isContent_eq : line'.isContent = line.isContent := by
  rw [isContent, isContent, h.isEmpty_core, h.isComment_eq]

theorem isSkipped_eq : line'.isSkipped = line.isSkipped := by
  rw [isSkipped, isSkipped, h.isEmpty_core, h.isComment_eq, h.terminator]

theorem beforeContinuation?_eq : line'.beforeContinuation? escape =
    (line.beforeContinuation? escape).map fun front =>
      style.text (Text.place (line.start + Text.byteLength line.indent) front) := by
  rw [beforeContinuation?, beforeContinuation?, h.terminator, h.core_eq]
  split
  · rfl
  · exact style.beforeEscape?_text _ _

theorem goesOn_eq : line'.goesOn escape = line.goesOn escape := by
  rw [goesOn, goesOn, h.beforeContinuation?_eq, Option.isSome_map]

theorem kept_eq : line'.kept escape =
    style.text (Text.place (line.start + Text.byteLength line.indent) (line.kept escape)) := by
  rw [kept, kept, h.beforeContinuation?_eq, h.core_eq]
  cases line.beforeContinuation? escape <;> rfl

end Line.Styled

theorem Lined.styled {start : Nat} {text : Text} {lines : List Line} (h : Lined start text lines)
    {escape : Char} {span : Span} (style : Style escape span) (start' : Nat) :
    List.Forall₂ (Line.Styled style) lines
      (Text.linesFrom start' start' (style.text (Text.place start text))) := by
  induction h generalizing start' with
  | last start clean =>
      rw [Text.linesFrom_last (style.clean clean)]
      exact .cons ⟨rfl, rfl⟩ .nil
  | @cons start content terminator rest lines clean ends _ ih =>
      have hbreaks : style.text (Text.place (start + Text.byteLength content) terminator) =
          terminator := by
        rw [style.text_of_not_plain, Text.text_place]
        intro p hp hplain
        have hbreak := ends.isLineBreak_of_mem (Text.char_mem_of_mem_place hp)
        rw [hplain.inside] at hbreak
        cases hbreak
      have hends := ends.congr (fun hhead => by
        rwa [style.head?_text_iff (fun hplain => by
          have := hplain.inside
          simp [isLineBreak] at this) (by decide), Text.text_place] at hhead :
        (style.text (Text.place (start + Text.byteLength content + Text.byteLength terminator)
          rest)).head? = some '\n' → rest.head? = some '\n')
      rw [Text.place_append, Text.place_append, style.text_append, style.text_append, hbreaks,
        Text.linesFrom_line (style.clean clean) hends]
      rw [Text.byteLength_append, ← Nat.add_assoc] at ih
      exact .cons ⟨rfl, rfl⟩ (ih _)

namespace Body

variable {escape : Char} {span : Span} {style : Style escape span}
  {opened opened' : Option (List Placed)}

theorem text_extended?_styled {line line' : Line} (h : line.Styled style line')
    (hopened : opened'.map Placed.text = opened.map style.text) :
    (extended? escape opened' line').map Placed.text =
      (extended? escape opened line).map style.text := by
  cases opened with
  | none =>
      obtain rfl : opened' = none := Option.map_eq_none_iff.mp hopened
      simp only [extended?, h.isContent_eq, h.kept_eq]
      split <;> simp
  | some kept =>
      obtain ⟨kept', rfl, htext⟩ := Option.map_eq_some_iff.mp hopened
      have hindent : style.text (Text.place line.start line.indent) = line.indent := by
        rw [style.text_of_blank (Text.isBlank_of_mem_place fun _ => line.isBlank_of_mem_indent),
          Text.text_place]
      simp only [extended?, h.isSkipped_eq, h.kept_eq, h.indent_eq]
      split <;> simp [htext, hindent, Text.place_append]

/-- What logical lines keep is written in the style of the lines. -/
theorem text_runs_styled {lines lines' : List Line} (h : List.Forall₂ (Line.Styled style) lines lines')
    (hopened : opened'.map Placed.text = opened.map style.text) :
    (runs escape opened' lines').map Placed.text = (runs escape opened lines).map style.text := by
  induction h generalizing opened opened' with
  | nil => simp only [runs, ← Option.toList_map, hopened]
  | @cons line line' lines lines' hline _ ih =>
      have hextended := text_extended?_styled hline hopened
      cases hkept : extended? escape opened line with
      | none =>
          rw [hkept] at hextended
          rw [runs_of_passed hkept, runs_of_passed (Option.map_eq_none_iff.mp hextended)]
          exact ih hopened
      | some kept =>
          rw [hkept] at hextended
          obtain ⟨kept', hkept', htext⟩ := Option.map_eq_some_iff.mp hextended
          rw [runs_of_extended hkept, runs_of_extended hkept', hline.goesOn_eq]
          split
          · exact ih (congrArg some htext)
          · rw [List.map_cons, List.map_cons, htext, @ih none none rfl]

end Body

end Dockerfile
