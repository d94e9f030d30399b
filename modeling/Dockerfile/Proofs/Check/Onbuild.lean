import Dockerfile.Check.File
import Dockerfile.Check.Instruction
import Dockerfile.Proofs.Body.Seam
import Dockerfile.Proofs.Check.Moved
import Dockerfile.Proofs.Text.Widening

/-!
# Deferred instructions are checked like others

An instruction behind `ONBUILD` is cut out of the region of the instruction that defers it, and not
read from the text. It is the same instruction, eight bytes further on, and so are the findings
(`withEmptyLines_onbuild`).
-/

namespace Dockerfile

/-! ## Lines that begin with a word -/

namespace Body

variable {escape : Char} {stop : Nat}

def GoesOn (chars : List Placed) : Prop :=
  ∀ q ∈ (chars.dropWhile fun r => isBlank r.char).head?, isLineBreak q.char = false

theorem goesOn_cons {p : Placed} (hp : endsWord p.char = false) (rest : List Placed) :
    GoesOn (p :: rest) := by
  have hcontent : isBlank p.char = false ∧ isLineBreak p.char = false := by
    simpa [endsWord] using hp
  intro q hq
  rw [List.dropWhile_cons_of_neg (by simp [hcontent.1])] at hq
  cases hq
  exact hcontent.2

theorem GoesOn.cons_blank {p : Placed} (hp : isBlank p.char = true) {rest : List Placed}
    (h : GoesOn rest) : GoesOn (p :: rest) := by
  have hdrop : ((p :: rest).dropWhile fun r => isBlank r.char) =
      rest.dropWhile fun r => isBlank r.char := List.dropWhile_cons_of_pos hp
  rw [GoesOn, hdrop]
  exact h

theorem GoesOn.afterContinuation? {rest : List Placed} (h : GoesOn rest) (p : Placed) :
    afterContinuation? escape (p :: rest) = none := by
  rw [Dockerfile.afterContinuation?]
  split
  · cases hdrop : rest.dropWhile fun r => isBlank r.char with
    | nil => rfl
    | cons q tail =>
        rw [GoesOn, hdrop] at h
        rw [afterNewline?_cons, h q rfl]
        rfl
  · rfl

section Words

variable {word : List Placed} {blank p : Placed} {rest : List Placed}
  (hword : ∀ q ∈ word, endsWord q.char = false) (hblank : isBlank blank.char = true)
  (hp : endsWord p.char = false)
include hword hblank hp

theorem readUntil_word :
    readUntil endsWord escape stop (word ++ blank :: p :: rest) =
      ⟨word, [], [], blank :: p :: rest⟩ := by
  induction word with
  | nil =>
      exact readUntil_of_end ((goesOn_cons hp rest).afterContinuation? blank)
        (by simp [endsWord, hblank])
  | cons q word ih =>
      have hq := hword q List.mem_cons_self
      have hrest : ∀ r ∈ word, endsWord r.char = false := fun r hr =>
        hword r (List.mem_cons_of_mem _ hr)
      have hgoesOn : GoesOn (word ++ blank :: p :: rest) := by
        cases word with
        | nil => exact (goesOn_cons hp rest).cons_blank hblank
        | cons r word => exact goesOn_cons (hrest r List.mem_cons_self) _
      rw [List.cons_append, readUntil_of_char (hgoesOn.afterContinuation? q) hq, ih hrest]

/-- Behind a word and a blank stands all that a line is without them. -/
theorem lineAt_word :
    (lineAt escape stop (word ++ blank :: p :: rest)).keyword.chars = word ∧
      (lineAt escape stop (word ++ blank :: p :: rest)).region.chars =
        blank :: (lineAt escape stop (p :: rest)).chars ∧
      (lineAt escape stop (word ++ blank :: p :: rest)).emptyLines =
        (lineAt escape stop (p :: rest)).emptyLines ∧
      afterLine escape stop (word ++ blank :: p :: rest) = afterLine escape stop (p :: rest) := by
  have hkeyword : readUntil endsWord escape stop (word ++ blank :: p :: rest) = _ :=
    readUntil_word hword hblank hp
  have hregion : readUntil isLineBreak escape stop (blank :: p :: rest) =
      ⟨blank :: (lineAt escape stop (p :: rest)).chars, (lineAt escape stop (p :: rest)).emptyLines,
        commentsIn escape stop (p :: rest), afterLine escape stop (p :: rest)⟩ := by
    rw [readUntil_of_char ((goesOn_cons hp rest).afterContinuation? blank)
      (isLineBreak_of_isBlank hblank), readUntil_isLineBreak]
  have hline : lineAt escape stop (word ++ blank :: p :: rest) =
      Instruction.ofParts ⟨word, Placed.startOr stop (word ++ blank :: p :: rest)⟩
        ⟨blank :: (lineAt escape stop (p :: rest)).chars,
          Placed.startOr (Excerpt.stop ⟨word, Placed.startOr stop (word ++ blank :: p :: rest)⟩)
            (blank :: p :: rest)⟩
        (lineAt escape stop (p :: rest)).emptyLines escape := by
    rw [lineAt, hkeyword, hregion, List.nil_append]
  refine ⟨by rw [hline]; rfl, by rw [hline]; rfl, by rw [hline]; rfl, ?_⟩
  rw [afterLine, afterKeyword, hkeyword, hregion]

end Words

end Body

/-! ## The instruction behind `ONBUILD` -/

/-- The text begins with a character of a keyword: no blank, line break or mark of a comment, and no
continuation. -/
def Text.StartsKeyword (escape : Char) (text : Text) : Prop :=
  afterContinuation? escape (place 0 text) = none ∧
    ∃ c rest, text = c :: rest ∧ Body.endsWord c = false ∧ c ≠ '#'

/-- What is put in front of an instruction to defer it. -/
def Text.onbuild : Text :=
  "ONBUILD ".toList

theorem Excerpt.moved_of_chars {n : Nat} {e e' : Excerpt} (h : e'.chars = e.chars.map (Placed.shift n))
    (hne : e.chars ≠ []) : e.Moved n e' := by
  refine ⟨h, ?_⟩
  obtain ⟨front, p, hchars⟩ := (List.eq_nil_or_concat e.chars).resolve_left hne
  rw [List.concat_eq_append] at hchars
  rw [Excerpt.stop, Excerpt.stop, h, hchars, List.map_append, List.map_singleton]
  simp only [Placed.stopOr, List.getLast?_concat, Placed.stop_shift]

/-- The instruction is an `ONBUILD` behind which stands another, `n` bytes further on. -/
structure Instruction.Wraps (n : Nat) (outer inst : Instruction) : Prop where
  keyword : outer.keyword.text = "ONBUILD".toList
  region : ∃ blank, isBlank blank.char = true ∧
    outer.region.chars = blank :: inst.chars.map (Placed.shift n)
  emptyLines : outer.emptyLines = inst.emptyLines.map (Span.shift n)
  escape : outer.escape = inst.escape

/-- The keyword of the instruction is all that stands in front of its first blank. -/
structure Instruction.Cut (inst : Instruction) : Prop where
  named : inst.isNamed = true
  keyword : inst.keyword.chars = inst.chars.takeWhile fun p => !isBlank p.char
  region : inst.region.chars = inst.chars.dropWhile fun p => !isBlank p.char

theorem Instruction.Cut.exists_cons {inst : Instruction} (h : inst.Cut) :
    ∃ p rest, inst.chars = p :: rest ∧ isBlank p.char = false := by
  have hnamed := h.named
  rw [isNamed, Excerpt.isEmpty, h.keyword] at hnamed
  cases hchars : inst.chars with
  | nil => simp [hchars] at hnamed
  | cons p rest =>
      cases hp : isBlank p.char with
      | false => exact ⟨p, rest, rfl, hp⟩
      | true => simp [hchars, hp] at hnamed

namespace Instruction.Wraps

variable {n : Nat} {outer inst : Instruction} (h : outer.Wraps n inst)
include h

theorem kind : outer.kind = some .ONBUILD := by
  rw [Instruction.kind, h.keyword]
  decide

/-- What an `ONBUILD` defers is what stands behind it. -/
theorem exists_trigger (hcut : inst.Cut) :
    outer.arguments.isEmpty = false ∧ ∃ trigger, outer.trigger? = some trigger ∧
      inst.keyword.Moved n trigger.keyword ∧
      trigger.region.chars = inst.region.chars.map (Placed.shift n) ∧
      trigger.escape = inst.escape := by
  obtain ⟨blank, hblank, hregion⟩ := h.region
  obtain ⟨p, rest, hchars, hp⟩ := hcut.exists_cons
  have hp' : isBlank (p.shift n).char = false := hp
  have hbehind : (outer.region.chars.dropWhile fun q => isBlank q.char) =
      (p :: rest).map (Placed.shift n) := by
    rw [hregion, hchars, List.dropWhile_cons_of_pos (by exact hblank)]
    exact List.dropWhile_cons_of_neg (by simp [hp])
  constructor
  · have hregion' : outer.region.chars = blank :: p.shift n :: rest.map (Placed.shift n) := by
      rw [hregion, hchars, List.map_cons]
    simp [arguments, Argument.split, hregion', Argument.splitFrom, hblank, hp]
  · have hkeyword : ((p :: rest).map (Placed.shift n)).takeWhile (fun q => !isBlank q.char) =
        inst.keyword.chars.map (Placed.shift n) := by
      rw [hcut.keyword, hchars, takeWhile_shift n fun c => !isBlank c]
    have hrest : ((p :: rest).map (Placed.shift n)).dropWhile (fun q => !isBlank q.char) =
        inst.region.chars.map (Placed.shift n) := by
      rw [hcut.region, hchars, dropWhile_shift n fun c => !isBlank c]
    have hnamed : inst.keyword.chars ≠ [] := by
      have := hcut.named
      simpa [isNamed, Excerpt.isEmpty] using this
    have htrigger : outer.trigger? = some (ofParts
        (outer.region.part (inst.keyword.chars.map (Placed.shift n))
          (inst.region.chars.map (Placed.shift n)))
        (outer.region.part (inst.region.chars.map (Placed.shift n)) []) [] outer.escape) := by
      rw [trigger?, isKind, h.kind, ← hkeyword, ← hrest]
      simp only [beq_self_eq_true, if_true, hbehind]
      rfl
    exact ⟨_, htrigger, Excerpt.moved_of_chars rfl hnamed, rfl, h.escape⟩

end Instruction.Wraps

namespace Body

variable {escape : Char}

theorem ofText_of_startsKeyword {text : Text} (h : Text.StartsKeyword escape text) :
    (lineAt escape (Text.byteLength text) (Text.place 0 text)).isNamed = true ∧
      (ofText escape text).instructions =
        lineAt escape (Text.byteLength text) (Text.place 0 text) ::
          (read escape (Text.byteLength text) (dropNewline
            (afterLine escape (Text.byteLength text) (Text.place 0 text)))).instructions := by
  obtain ⟨hcont, c, rest, rfl, hword, hmark⟩ := h
  have hcontent : isBlank c = false ∧ isLineBreak c = false := by
    simpa [endsWord] using hword
  rw [ofText, Text.place_cons] at *
  have hnamed : (lineAt escape (Text.byteLength (c :: rest))
      (⟨c, 0⟩ :: Text.place (0 + c.utf8Size) rest)).isNamed = true := by
    rw [isNamed_lineAt_iff, lineAt_chars, readUntil_of_char hcont hcontent.2]
    exact ⟨_, _, rfl, hcontent.1⟩
  refine ⟨hnamed, ?_⟩
  have hdrop : ((⟨c, 0⟩ :: Text.place (0 + c.utf8Size) rest).dropWhile fun p : Placed =>
      endsWord p.char) = ⟨c, 0⟩ :: Text.place (0 + c.utf8Size) rest :=
    List.dropWhile_cons_of_neg (by simp [hword])
  rw [(read_of_line hdrop hmark).1, List.filter_cons_of_pos hnamed]
  rfl

/-- `ONBUILD` in front of a text that begins with a keyword is read as one word more. -/
theorem place_onbuild (text : Text) :
    Text.place 0 (Text.onbuild ++ text) =
      Text.place 0 "ONBUILD".toList ++ ⟨' ', 7⟩ :: (Text.place 0 text).map (Placed.shift 8) := by
  rw [← place_shift, Text.place_append]
  rfl

/-- An instruction that defers another is read as one. -/
theorem ofText_onbuild {text : Text} {inst : Instruction}
    (hstart : Text.StartsKeyword escape text) (hread : (ofText escape text).instructions = [inst]) :
    inst.Cut ∧ ∃ outer, (ofText escape (Text.onbuild ++ text)).instructions = [outer] ∧
      outer.Wraps 8 inst := by
  obtain ⟨hnamed, hinsts⟩ := ofText_of_startsKeyword hstart
  rw [hinsts] at hread
  obtain ⟨rfl, hrest⟩ := List.cons.inj hread
  obtain ⟨hword, hregion⟩ := @keyword_eq escape (Text.byteLength text) (Text.place 0 text)
  refine ⟨⟨hnamed, hword, hregion⟩, ?_⟩
  have hstart' : Text.StartsKeyword escape (Text.onbuild ++ text) :=
    ⟨(goesOn_cons (by decide : endsWord 'N' = false) _).afterContinuation? ⟨'O', 0⟩, 'O', _, rfl,
      by decide, by decide⟩
  obtain ⟨-, hinsts'⟩ := ofText_of_startsKeyword hstart'
  obtain ⟨q, tail, hq, hcons⟩ : ∃ q tail, endsWord q.char = false ∧
      (Text.place 0 text).map (Placed.shift 8) = q :: tail := by
    obtain ⟨-, c, rest, rfl, hword, -⟩ := hstart
    exact ⟨_, _, hword, rfl⟩
  have hstop : Text.byteLength (Text.onbuild ++ text) = Text.byteLength text + 8 := by
    rw [Text.byteLength_append, Nat.add_comm]
    rfl
  obtain ⟨hkeyword, hregion', hempty, hbehind⟩ :=
    @lineAt_word escape (Text.byteLength (Text.onbuild ++ text)) (Text.place 0 "ONBUILD".toList)
      ⟨' ', 7⟩ q tail (by decide) (by decide) hq
  rw [← hcons, ← place_onbuild, hstop, lineAt_shift] at hregion' hempty
  rw [← hcons, ← place_onbuild] at hkeyword
  rw [← hcons, ← place_onbuild, hstop, afterLine_shift] at hbehind
  refine ⟨_, ?_, ⟨?_, ⟨⟨' ', 7⟩, by decide, hregion'.trans ?_⟩, hempty, rfl⟩⟩
  · rw [hinsts', hstop, hbehind, dropNewline_shift, read_shift]
    exact congrArg (List.cons _ <| List.map (Instruction.shift 8) ·) hrest
  · rw [← hstop, Excerpt.text, hkeyword]
    rfl
  · exact congrArg (List.cons _) List.map_append.symm

end Body

/-! ## Findings behind `ONBUILD` -/

theorem Instruction.trigger?_eq_none {inst : Instruction} (h : inst.kind ≠ some .ONBUILD) :
    inst.trigger? = none := by
  cases htrigger : inst.trigger? with
  | none => rfl
  | some trigger => exact absurd (Check.kind_of_trigger? htrigger) h

namespace Check

variable {n : Nat} {inst inst' : Instruction}

theorem keyword_moved (h : inst.keyword.Moved n inst'.keyword) (k : Keyword) :
    keyword k inst' = shift n (keyword k inst) := by
  have hspan : inst'.keywordSpan = inst.keywordSpan.shift n := h.span
  simp only [keyword, h.text, hspan, shift_append, shift_ite]
  rfl

theorem behindKeyword_of_empty {k : Keyword} (h : inst.region.chars = []) :
    behindKeyword k inst = [⟨.argumentMissing inst.keyword.text, inst.keywordSpan⟩] := by
  rw [behindKeyword, Instruction.arguments, Argument.split, h, Argument.splitFrom]
  rfl

theorem behindKeyword_moved (h : inst.Moved n inst') {k : Keyword} (hkind : inst.kind = some k)
    (hk : k ≠ .ONBUILD) : behindKeyword k inst' = shift n (behindKeyword k inst) := by
  have hnone := Instruction.trigger?_eq_none fun h => hk (Option.some.inj (hkind.symm.trans h))
  have hnone' := Instruction.trigger?_eq_none fun hk' =>
    hk (Option.some.inj (hkind.symm.trans (h.kind.symm.trans hk')))
  have hflags : flags k inst'.flags = shift n (flags k inst.flags) := by
    rw [flags, h.flags]
    exact shift_flatMap (flag_shift _ inst.flags) inst.flags
  simp only [behindKeyword, hnone, hnone', h.arguments, List.isEmpty_map, isArrayVolume_moved h,
    quotes_moved h, hflags, ofKeyword_moved h, h.keyword.text, h.keywordSpan, shift_append, shift_ite]
  rfl

/-- What is found in an instruction depends on its characters, and moves with them. -/
theorem instruction_moved (hkeyword : inst.keyword.Moved n inst'.keyword)
    (hregion : inst'.region.chars = inst.region.chars.map (Placed.shift n))
    (hescape : inst'.escape = inst.escape) (hkind : inst.kind ≠ some .ONBUILD) :
    instruction inst' = shift n (instruction inst) := by
  have hspan : inst'.keywordSpan = inst.keywordSpan.shift n := hkeyword.span
  have hsame : inst'.kind = inst.kind := congrArg Keyword.ofText? hkeyword.text
  cases hk : inst.kind with
  | none =>
      rw [instruction_of_unknown hk, instruction_of_unknown (hsame.trans hk), hkeyword.text, hspan]
      rfl
  | some k =>
      rw [instruction_of_kind hk, instruction_of_kind (hsame.trans hk), shift_append,
        keyword_moved hkeyword]
      congr 1
      cases hempty : inst.region.chars with
      | nil =>
          have hempty' : inst'.region.chars = [] := by rw [hregion, hempty]; rfl
          rw [behindKeyword_of_empty hempty, behindKeyword_of_empty hempty', hkeyword.text, hspan]
          rfl
      | cons p rest =>
          have hne : inst.region.chars ≠ [] := by rw [hempty]; exact List.cons_ne_nil p rest
          refine behindKeyword_moved ⟨hkeyword, Excerpt.moved_of_chars hregion hne, hescape⟩ hk ?_
          rintro rfl
          exact hkind hk

/-- An instruction that can be deferred is checked behind `ONBUILD` as it is checked alone. -/
theorem withEmptyLines_wraps {outer : Instruction} (h : outer.Wraps n inst) (hcut : inst.Cut)
    (hkind : inst.kind ≠ some .FROM ∧ inst.kind ≠ some .MAINTAINER ∧ inst.kind ≠ some .ONBUILD) :
    withEmptyLines outer = shift n (withEmptyLines inst) := by
  obtain ⟨hsome, trigger, htrigger, hkeyword, hregion, hescape⟩ := h.exists_trigger hcut
  have hspelled : keyword .ONBUILD outer = [] := by
    rw [keyword, h.keyword]
    rfl
  have hdeferred : deferred trigger = instruction trigger := by
    have hsame : trigger.kind = inst.kind := congrArg Keyword.ofText? hkeyword.text
    rw [deferred, hsame]
    split
    · rename_i hk
      exact absurd hk hkind.2.2
    · rename_i hk
      exact absurd hk hkind.1
    · rename_i hk
      exact absurd hk hkind.2.1
    · rfl
  have hbehind : behindKeyword .ONBUILD outer = instruction trigger := by
    rw [behindKeyword, hsome, htrigger, ← hdeferred]
    rfl
  rw [withEmptyLines, instruction_of_kind h.kind, hspelled, hbehind, List.nil_append,
    instruction_moved hkeyword hregion hescape hkind.2.2, h.emptyLines, withEmptyLines, shift_append]
  congr 1
  rw [shift, List.map_map, List.map_map]
  rfl

end Check

/-! ## Reports behind `ONBUILD` -/

namespace Text

variable (front : Text) {text : Text}

theorem cut_append_add (limit : Nat) :
    takeBytes (limit + byteLength front) (front ++ text) = front ++ takeBytes limit text ∧
      dropBytes (limit + byteLength front) (front ++ text) = dropBytes limit text := by
  induction front with
  | nil => exact ⟨rfl, rfl⟩
  | cons c front ih =>
      have hfits : c.utf8Size ≤ limit + byteLength (c :: front) := by
        rw [byteLength_cons]
        omega
      have hrest : limit + byteLength (c :: front) - c.utf8Size = limit + byteLength front := by
        rw [byteLength_cons]
        omega
      rw [takeBytes, dropBytes] at ih ⊢
      rw [List.cons_append, takeFit, dropFit, if_pos hfits, if_pos hfits, hrest, ih.1, ih.2]
      exact ⟨rfl, rfl⟩

theorem clampSpan_shift (span : Span) :
    clampSpan (front ++ text) (span.shift (byteLength front)) =
      (clampSpan text span).shift (byteLength front) := by
  have hfloor : ∀ offset, floorBoundary (front ++ text) (offset + byteLength front) =
      floorBoundary text offset + byteLength front := by
    intro offset
    rw [floorBoundary, (cut_append_add front offset).1, byteLength_append, Nat.add_comm,
      floorBoundary]
  simp only [clampSpan, Span.shift, hfloor, Nat.add_max_add_right]

/-- Behind another text a span is widened as it is in its own, unless that begins with a line
break. -/
theorem widen_shift (hne : text ≠ []) (hhead : ∀ c ∈ text.head?, isLineBreak c = false)
    (span : Span) :
    widen (front ++ text) (span.shift (byteLength front)) =
      (widen text span).shift (byteLength front) := by
  unfold widen
  rw [clampSpan_shift]
  generalize clampSpan text span = clamped
  have hcut := @cut_append_add front text clamped.start
  obtain ⟨htake, hdrop⟩ := hcut
  have hsplit := takeBytes_append_dropBytes clamped.start text
  have hle : byteLength (takeBytes clamped.start text) ≤ clamped.start := total_takeFit_le _ _ _
  simp only [Span.shift, ne_eq, Nat.add_right_cancel_iff, htake, hdrop]
  generalize takeBytes clamped.start text = before at *
  split
  · rfl
  rcases List.eq_nil_or_concat before with rfl | ⟨before, last, rfl⟩
  · -- In front of the text there is nothing to widen over, but its first character can be.
    rw [List.nil_append] at hsplit
    rw [hsplit]
    obtain ⟨c, rest, rfl⟩ := List.exists_cons_of_ne_nil hne
    simp only [hhead c rfl, Bool.false_eq_true, if_false, Nat.add_right_comm]
  · have hlast : last.utf8Size ≤ clamped.start := by
      rw [List.concat_eq_append, byteLength_append, byteLength_cons] at hle
      omega
    have hback : (if isLineBreak last = true then
          (⟨clamped.start + byteLength front, clamped.stop + byteLength front⟩ : Span)
        else ⟨clamped.start + byteLength front - last.utf8Size, clamped.start + byteLength front⟩) =
          Span.shift (byteLength front) (if isLineBreak last = true then clamped
            else ⟨clamped.start - last.utf8Size, clamped.start⟩) := by
      split
      · rfl
      · exact congrArg (Span.mk · _) (Nat.sub_add_comm hlast)
    rw [List.concat_eq_append, ← List.append_assoc, List.getLast?_concat, List.getLast?_concat]
    simp only [hback]
    cases dropBytes clamped.start text with
    | nil => rfl
    | cons c rest =>
        dsimp only
        split
        · rfl
        · exact congrArg (Span.mk _) (Nat.add_right_comm _ _ _)

end Text

/-- The report at the same place of a text that has another one in front. -/
def Diagnostic.behind (front text : Text) (d : Diagnostic) : Diagnostic :=
  { d with
    span := d.span.shift (Text.byteLength front)
    range := Text.rangeOf (front ++ text) (d.span.shift (Text.byteLength front)) }

theorem Diagnostic.ofFinding?_shift (front : Text) {text : Text} (hne : text ≠ [])
    (hhead : ∀ c ∈ text.head?, isLineBreak c = false) (settings : Settings) (f : Finding) :
    ofFinding? (front ++ text) settings (f.shift (Text.byteLength front)) =
      (ofFinding? text settings f).map (behind front text) := by
  have hwiden := Text.widen_shift front hne hhead f.span
  have hspan : (f.shift (Text.byteLength front)).span = f.span.shift (Text.byteLength front) := rfl
  simp only [ofFinding?, hspan, hwiden, Option.map_map]
  rfl

/-- Deferring an instruction changes nothing of what is found in it: `ONBUILD` in front of a text that
is one instruction makes one instruction of both, with the same findings eight bytes further on, which
are reported there. -/
theorem withEmptyLines_onbuild (escape : Char) (text : Text) (inst : Instruction)
    (hstart : Text.StartsKeyword escape text)
    (hread : (Body.ofText escape text).instructions = [inst])
    (hkind : inst.kind ≠ some .FROM ∧ inst.kind ≠ some .MAINTAINER ∧ inst.kind ≠ some .ONBUILD) :
    ∃ outer, (Body.ofText escape (Text.onbuild ++ text)).instructions = [outer] ∧
      Check.withEmptyLines outer = (Check.withEmptyLines inst).map (Finding.shift 8) ∧
      ∀ settings, (Check.withEmptyLines outer).filterMap
          (Diagnostic.ofFinding? (Text.onbuild ++ text) settings) =
        ((Check.withEmptyLines inst).filterMap (Diagnostic.ofFinding? text settings)).map
          (Diagnostic.behind Text.onbuild text) := by
  obtain ⟨hcut, outer, houter, hwraps⟩ := Body.ofText_onbuild hstart hread
  have hfindings : Check.withEmptyLines outer = (Check.withEmptyLines inst).map (Finding.shift 8) :=
    Check.withEmptyLines_wraps hwraps hcut hkind
  refine ⟨outer, houter, hfindings, fun settings => ?_⟩
  obtain ⟨-, c, rest, rfl, hword, -⟩ := hstart
  have hhead : ∀ d ∈ (c :: rest).head?, isLineBreak d = false := by
    rintro d ⟨⟩
    exact (Bool.or_eq_false_iff.mp hword).2
  rw [hfindings, List.filterMap_map, List.map_filterMap]
  congr 1
  funext f
  exact Diagnostic.ofFinding?_shift Text.onbuild (List.cons_ne_nil c rest) hhead settings f

/-- A `copy` with one argument behind a blank line: its case, the missing argument and the line are
reported, each eight bytes further on. -/
theorem onbuild_copy :
    ∃ inst outer, (Body.ofText '\\' "copy \\\n\n a".toList).instructions = [inst] ∧
      (Body.ofText '\\' "ONBUILD copy \\\n\n a".toList).instructions = [outer] ∧
      (Check.withEmptyLines inst).map Finding.span = [⟨0, 4⟩, ⟨9, 10⟩, ⟨7, 7⟩] ∧
      (Check.withEmptyLines outer).map Finding.span = [⟨8, 12⟩, ⟨17, 18⟩, ⟨15, 15⟩] := by
  obtain ⟨inst, hinst⟩ : ∃ inst, (Body.ofText '\\' "copy \\\n\n a".toList).instructions = [inst] :=
    List.length_eq_one_iff.mp (by decide +kernel)
  obtain ⟨hkind, hspans⟩ : inst.kind = some .COPY ∧
      (Check.withEmptyLines inst).map Finding.span = [⟨0, 4⟩, ⟨9, 10⟩, ⟨7, 7⟩] := by
    have hall : ∀ inst ∈ (Body.ofText '\\' "copy \\\n\n a".toList).instructions,
        inst.kind = some .COPY ∧
          (Check.withEmptyLines inst).map Finding.span = [⟨0, 4⟩, ⟨9, 10⟩, ⟨7, 7⟩] := by
      decide +kernel
    exact hall inst (by rw [hinst]; exact List.mem_singleton_self inst)
  have hstart : Text.StartsKeyword '\\' "copy \\\n\n a".toList :=
    ⟨by decide +kernel, 'c', _, rfl, by decide, by decide⟩
  obtain ⟨outer, houter, hfindings, -⟩ :=
    withEmptyLines_onbuild '\\' "copy \\\n\n a".toList inst hstart hinst (by rw [hkind]; decide)
  refine ⟨inst, outer, hinst, houter, hspans, ?_⟩
  have hshift : ((Check.withEmptyLines inst).map (Finding.shift 8)).map Finding.span =
      ((Check.withEmptyLines inst).map Finding.span).map (Span.shift 8) := by
    rw [List.map_map, List.map_map]
    rfl
  rw [hfindings, hshift, hspans]
  rfl

end Dockerfile
