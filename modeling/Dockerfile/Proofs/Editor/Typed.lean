import Dockerfile.Proofs.Check.Places
import Dockerfile.Proofs.Checked.Completion
import Dockerfile.Proofs.Text.Selection

/-!
# What was typed in front of a cursor

An editor completes the piece of a text that ends at its cursor: the name of a directive or of a
variable, a keyword, a word, a flag or its value, a tag. Each is found by a rule of its own, and there
is at most one of a kind (`Completion.Piece.unique`, `Completion.ArgumentPiece.unique`). To replace it,
the completion takes as many bytes in front of the cursor as the piece has. In a line these are the
piece (`Completion.replacesAll_line`). The characters of an argument need not stand side by side: of
the bytes that a continuation takes inside of it, or behind it, as many stay at its start
(`Completion.replaces_argument`).
-/

namespace Dockerfile

/-! ## Offsets that an editor can point to -/

namespace Text

theorem takeUnits_prefix_of_le {units units' : Nat} (h : units ≤ units') (text : Text) :
    takeUnits units text <+: takeUnits units' text := by
  induction text generalizing units units' with
  | nil => exact List.prefix_refl _
  | cons c text ih =>
      rw [takeUnits, takeUnits]
      by_cases hzero : units = 0
      · rw [if_pos hzero]
        exact List.nil_prefix
      · rw [if_neg hzero, if_neg (by omega)]
        exact List.cons_prefix_cons.mpr ⟨rfl, ih (by omega)⟩

theorem offsetAt_mono (text : Text) {p q : Position} (h : q.before p = false) :
    offsetAt text p ≤ offsetAt text q := by
  simp only [Position.before, Bool.or_eq_false_iff, decide_eq_false_iff_not, Bool.and_eq_false_iff,
    beq_eq_false_iff_ne] at h
  cases hq : (lines text)[q.line]? with
  | none =>
      rw [offsetAt, offsetAt, hq]
      exact le_byteLength_of_isBoundary (Checked.isBoundary_offsetAt text p)
  | some line' =>
      obtain ⟨hlt', hline'⟩ := List.getElem?_eq_some_iff.mp hq
      obtain ⟨line, hp⟩ : ∃ line, (lines text)[p.line]? = some line :=
        ⟨_, List.getElem?_eq_getElem (by omega)⟩
      rw [offsetAt_eq_of_line hp, offsetAt_eq_of_line hq]
      rcases Nat.lt_or_eq_of_le (Nat.le_of_not_lt h.1) with hbefore | hsame
      · obtain ⟨hlt, hline⟩ := List.getElem?_eq_some_iff.mp hp
        have hordered := List.pairwise_iff_getElem.mp (lined_lines text).pairwise p.line q.line hlt
          hlt' hbefore
        have hstop := total_le_of_prefix Char.utf8Size (prefix_takeUnits p.character line.content)
        rw [hline, hline'] at hordered
        unfold Line.stop at hordered
        unfold byteLength at *
        omega
      · rw [hsame, hq] at hp
        obtain rfl := Option.some.inj hp
        have hunits : p.character ≤ q.character := by omega
        have hle := total_le_of_prefix Char.utf8Size (takeUnits_prefix_of_le hunits line'.content)
        exact Nat.add_le_add_left hle _

theorem floorBoundary_of_inside {a b : Text} {c : Char} {offset : Nat} (h : byteLength a ≤ offset)
    (hlt : offset < byteLength a + c.utf8Size) : floorBoundary (a ++ c :: b) offset = byteLength a := by
  have htake : takeBytes offset (a ++ c :: b) = a := by
    induction a generalizing offset with
    | nil =>
        rw [byteLength_nil, Nat.zero_add] at hlt
        exact if_neg (Nat.not_le_of_lt hlt)
    | cons d a ih =>
        rw [byteLength_cons] at h hlt
        rw [List.cons_append, takeBytes, takeFit, if_pos (by omega)]
        exact congrArg (d :: ·) (ih (by omega) (by omega))
  rw [floorBoundary, htake]

/-- An offset inside a character counts as the start of the character. -/
theorem positionAt_of_inside {text : Text} {p : Placed} (hp : p ∈ place 0 text) {offset : Nat}
    (h : p.offset ≤ offset) (hlt : offset < p.stop) : positionAt text offset = positionAt text p.offset := by
  obtain ⟨a, b, rfl, hoffset⟩ := exists_split_of_mem_place hp
  rw [Nat.zero_add] at hoffset
  have hsize : p.stop = p.offset + p.char.utf8Size := rfl
  have hpos := p.char.utf8Size_pos
  have hfloor := floorBoundary_of_inside (b := b) (c := p.char) (hoffset ▸ h) (by omega)
  have hstart : floorBoundary (a ++ p.char :: b) p.offset = byteLength a :=
    floorBoundary_of_inside (Nat.le_of_eq hoffset.symm) (by omega)
  rw [positionAt, positionAt, hfloor, hstart]

theorem stop_le_of_isBoundary {text : Text} {p : Placed} (hp : p ∈ place 0 text) {offset : Nat}
    (h : isBoundary text offset = true) (hlt : p.offset < offset) : p.stop ≤ offset := by
  refine Nat.le_of_not_lt fun hinside => ?_
  obtain ⟨a, b, rfl, hoffset⟩ := exists_split_of_mem_place hp
  rw [Nat.zero_add] at hoffset
  have hsize : p.stop = p.offset + p.char.utf8Size := rfl
  have hfloor := floorBoundary_of_isBoundary h
  rw [floorBoundary_of_inside (by omega) (by omega)] at hfloor
  omega

end Text

/-- The ends of a character other than a line break are found again from their positions. -/
theorem Placed.offsetAt_positionAt {text : Text} {p : Placed} (hp : p ∈ Text.place 0 text)
    (hbreak : isLineBreak p.char = false) :
    Text.offsetAt text (Text.positionAt text p.offset) = p.offset ∧
      Text.offsetAt text (Text.positionAt text p.stop) = p.stop := by
  have hone := p.selectable_spanTo hp hp (Nat.le_refl _) hbreak hbreak
  have hstop : max p.stop p.offset = p.stop := Nat.max_eq_left (Nat.le_of_lt p.offset_lt_stop)
  have hends := Text.offsetAt_positionAt hone.placed.stop_boundary hone.stop
  rw [spanTo, hstop] at hends
  exact ⟨Text.offsetAt_positionAt hone.placed.start_boundary hone.start, hends⟩

/-! ## What is being completed -/

namespace Completion

def lineBefore (text : Text) (offset : Nat) : List Placed :=
  let start := Text.lineStart text (Text.lineOf text offset)
  Text.place start (Text.slice text ⟨start, offset⟩)

def argumentBefore (inst : Instruction) (offset : Nat) : List Placed :=
  match inst.arguments.find? fun arg => arg.span.contains offset with
  | some arg => arg.content.chars.takeWhile fun p => p.offset < offset
  | none => []

/-- What is being completed outside arguments, up to the cursor: the name of a directive, a word where
no instruction is, the keyword of an instruction, or the name of a variable behind its mark. -/
inductive Piece (a : Analysis) (offset : Nat) : CompletionKind → List Placed → Prop
  | directive {lead mark blanks name : List Placed}
      (line : lineBefore a.text offset = lead ++ mark ++ blanks ++ name)
      (lead_blank : ∀ p ∈ lead ++ blanks, isBlank p.char = true)
      (mark_text : Placed.text mark = ['#']) (letters : ∀ p ∈ name, p.char.isAlpha = true) :
      Piece a offset .directive name
  | word {lead word : List Placed} (outside : a.file.instructionAround? offset = none)
      (line : lineBefore a.text offset = lead ++ word) (lead_blank : ∀ p ∈ lead, isBlank p.char = true)
      (letters : ∀ p ∈ word, p.char.isAlpha = true) : Piece a offset .keyword word
  | keyword {index : Nat} {inst : Instruction}
      (around : a.file.instructionAround? offset = some (index, inst))
      (touched : offset ≤ inst.keywordSpan.stop) :
      Piece a offset .keyword (inst.keyword.chars.takeWhile fun p => p.offset < offset)
  | name {lead mark name : List Placed} {kind : CompletionKind}
      (is_variable : kind = .var ∨ kind = .predefined)
      (line : lineBefore a.text offset = lead ++ mark ++ name)
      (mark_text : Placed.text mark = ['$'] ∨ Placed.text mark = ['$', '\x7b'])
      (letters : ∀ p ∈ name, Substitution.isNameChar p.char = true) : Piece a offset kind name

def Within (a : Analysis) (offset : Nat) (inst : Instruction) : Prop :=
  (∃ index, a.file.instructionAround? offset = some (index, inst)) ∧ inst.keywordSpan.stop < offset

/-- What is being completed of an argument, up to the cursor: all of it, or the value of a flag, or the
tag of an image. -/
inductive ArgumentPiece (a : Analysis) (offset : Nat) : CompletionKind → List Placed → Prop
  | flag {inst : Instruction} (inside : Within a offset inst) :
      ArgumentPiece a offset .flag (argumentBefore inst offset)
  | word {inst : Instruction} (inside : Within a offset inst) :
      ArgumentPiece a offset .keyword (argumentBefore inst offset)
  | stage {inst : Instruction} (inside : Within a offset inst) (is_from : inst.isKind .FROM = true) :
      ArgumentPiece a offset .stage (argumentBefore inst offset)
  | source {inst : Instruction} {mark value : List Placed} (inside : Within a offset inst)
      (is_copy : inst.isKind .COPY = true) (argument : argumentBefore inst offset = mark ++ value)
      (mark_text : Placed.text mark = "--from=".toList) : ArgumentPiece a offset .stage value
  | tag {inst : Instruction} {image tag : List Placed} {colon : Placed} (inside : Within a offset inst)
      (is_from : inst.isKind .FROM = true)
      (argument : argumentBefore inst offset = image ++ [colon] ++ tag)
      (colon_char : colon.char = ':') (last : ':' ∉ Placed.text tag) : ArgumentPiece a offset .tag tag

/-- The range goes from no earlier than the piece to the cursor. It is the piece if and only if fewer
bytes are passed over, inside the piece and behind it, than its first character takes. -/
structure Replaces (text : Text) (offset : Nat) (piece : List Placed) (range : Range) : Prop where
  stop : (Text.spanOf text range).stop = offset
  start_le : Placed.startOr offset piece ≤ (Text.spanOf text range).start
  start_eq_iff : (Text.spanOf text range).start = Placed.startOr offset piece ↔
    ∀ p ∈ piece.head?, offset < p.stop + Text.byteLength (Placed.text piece)

def ReplacesAll (text : Text) (offset : Nat) (piece : List Placed) (range : Range) : Prop :=
  Text.spanOf text range = ⟨Placed.startOr offset piece, offset⟩

end Completion

/-! ## No more than one piece -/

/-- What a text ends with, up to the last character that does not fit, is determined. -/
theorem suffix_unique {α : Type} {f : α → Bool} {a b a' b' : List α} (h : a ++ b = a' ++ b')
    (hb : ∀ x ∈ b, f x = true) (hb' : ∀ x ∈ b', f x = true) (ha : ∀ x ∈ a.getLast?, f x = false)
    (ha' : ∀ x ∈ a'.getLast?, f x = false) : b = b' := by
  have key : ∀ {a z b : List α}, (∀ x ∈ (a ++ z).getLast?, f x = false) →
      (∀ x ∈ z ++ b, f x = true) → z = [] := by
    intro a z b hlast hall
    rcases List.eq_nil_or_concat z with rfl | ⟨z, x, rfl⟩
    · rfl
    · have hfalse := hlast x (by simp)
      rw [hall x (by simp)] at hfalse
      cases hfalse
  rcases List.append_eq_append_iff.mp h with ⟨z, rfl, rfl⟩ | ⟨z, rfl, rfl⟩
  · rw [key ha' hb, List.nil_append]
  · rw [key ha hb', List.nil_append]

theorem isLineBreak_of_imp {f : Char → Bool} (hreturn : f '\r' = false) (hfeed : f '\n' = false)
    {c : Char} (h : f c = true) : isLineBreak c = false := by
  refine Bool.eq_false_iff.mpr fun hbreak => ?_
  simp only [isLineBreak, Bool.or_eq_true, beq_iff_eq] at hbreak
  rcases hbreak with rfl | rfl
  · rw [hreturn] at h
    cases h
  · rw [hfeed] at h
    cases h

theorem bne_of_not_mem {mark : Char} {text : Text} (h : mark ∉ text) :
    ∀ c ∈ text, (c != mark) = true := by
  rintro c hc
  refine bne_iff_ne.mpr ?_
  rintro rfl
  exact h hc

theorem exists_last {mark : Char} {text : Text} (h : mark ∈ text) :
    ∃ before after, text = before ++ mark :: after ∧ mark ∉ after := by
  obtain ⟨after, before, hreverse, hafter⟩ := List.eq_append_cons_of_mem (List.mem_reverse.mpr h)
  refine ⟨before.reverse, after.reverse, ?_, List.mem_reverse.not.mpr hafter⟩
  rw [← List.reverse_reverse text, hreverse]
  simp

theorem behind_last {mark : Char} {before after : Text} (h : mark ∉ after) :
    ((before ++ mark :: after).reverse.takeWhile fun c => c != mark).reverse = after := by
  rw [List.reverse_append, List.reverse_cons, List.append_assoc, List.singleton_append,
    List.takeWhile_append_of_pos (bne_of_not_mem (List.mem_reverse.not.mpr h)),
    List.takeWhile_cons_of_neg (by simp), List.append_nil, List.reverse_reverse]

namespace Completion

variable {a : Analysis} {offset : Nat} {kind : CompletionKind} {piece piece' : List Placed}

theorem isAlpha_of_isBlank {c : Char} (h : isBlank c = true) : c.isAlpha = false := by
  simp only [isBlank, Bool.or_eq_true, beq_iff_eq] at h
  rcases h with rfl | rfl <;> decide

theorem not_alpha_of_directive {lead mark blanks : List Placed} (hmark : Placed.text mark = ['#'])
    (hblank : ∀ p ∈ lead ++ blanks, isBlank p.char = true) :
    ∀ p ∈ (lead ++ mark ++ blanks).getLast?, p.char.isAlpha = false := by
  intro p hp
  have hmem := List.mem_of_getLast? hp
  simp only [List.mem_append] at hmem hblank
  rcases hmem with (hp | hp) | hp
  · exact isAlpha_of_isBlank (hblank p (.inl hp))
  · have hchar : p.char ∈ Placed.text mark := List.mem_map_of_mem hp
    rw [hmark, List.mem_singleton] at hchar
    rw [hchar]
    rfl
  · exact isAlpha_of_isBlank (hblank p (.inr hp))

theorem not_nameChar_of_mark {lead mark : List Placed}
    (hmark : Placed.text mark = ['$'] ∨ Placed.text mark = ['$', '\x7b']) :
    ∀ p ∈ (lead ++ mark).getLast?, Substitution.isNameChar p.char = false := by
  have hne : mark ≠ [] := by
    rintro rfl
    simp at hmark
  intro p hp
  rw [List.getLast?_append_of_ne_nil _ hne] at hp
  have hchar : p.char ∈ Placed.text mark := List.mem_map_of_mem (List.mem_of_getLast? hp)
  rcases hmark with hmark | hmark <;> rw [hmark] at hchar
  · rw [List.mem_singleton.mp hchar]
    rfl
  · rcases List.mem_pair.mp hchar with h | h <;> rw [h] <;> rfl

/-- Outside arguments no more than one piece is being completed. -/
theorem Piece.unique (h : Piece a offset kind piece) (h' : Piece a offset kind piece') :
    piece = piece' := by
  cases h with
  | directive line lead_blank mark_text letters =>
      cases h' with
      | directive line' lead_blank' mark_text' letters' =>
          exact suffix_unique (f := fun p => p.char.isAlpha) (line.symm.trans line') letters letters'
            (not_alpha_of_directive mark_text lead_blank)
            (not_alpha_of_directive mark_text' lead_blank')
      | name is_variable => simp at is_variable
  | word outside line lead_blank letters =>
      cases h' with
      | word _ line' lead_blank' letters' =>
          exact suffix_unique (f := fun p => p.char.isAlpha) (line.symm.trans line') letters letters'
            (fun p hp => isAlpha_of_isBlank (lead_blank p (List.mem_of_getLast? hp)))
            fun p hp => isAlpha_of_isBlank (lead_blank' p (List.mem_of_getLast? hp))
      | keyword around => rw [outside] at around; cases around
      | name is_variable => simp at is_variable
  | keyword around =>
      cases h' with
      | word outside => rw [outside] at around; cases around
      | keyword around' =>
          rw [around] at around'
          cases around'
          rfl
      | name is_variable => simp at is_variable
  | name is_variable line mark_text letters =>
      cases h' with
      | name _ line' mark_text' letters' =>
          exact suffix_unique (f := fun p => Substitution.isNameChar p.char) (line.symm.trans line')
            letters letters' (not_nameChar_of_mark mark_text) (not_nameChar_of_mark mark_text')
      | directive => simp at is_variable
      | word => simp at is_variable
      | keyword => simp at is_variable

theorem Within.unique {inst inst' : Instruction} (h : Within a offset inst)
    (h' : Within a offset inst') : inst = inst' := by
  obtain ⟨⟨index, hfound⟩, -⟩ := h
  obtain ⟨⟨index', hfound'⟩, -⟩ := h'
  rw [hfound] at hfound'
  cases hfound'
  rfl

theorem not_copy_of_from {inst : Instruction} (hfrom : inst.isKind .FROM = true)
    (hcopy : inst.isKind .COPY = true) : False := by
  have hkind := (beq_iff_eq.mp hfrom).symm.trans (beq_iff_eq.mp hcopy)
  cases hkind

theorem ArgumentPiece.unique (h : ArgumentPiece a offset kind piece)
    (h' : ArgumentPiece a offset kind piece') : piece = piece' := by
  cases h with
  | flag inside =>
      cases h' with
      | flag inside' => rw [inside.unique inside']
  | word inside =>
      cases h' with
      | word inside' => rw [inside.unique inside']
  | stage inside is_from =>
      cases h' with
      | stage inside' => rw [inside.unique inside']
      | source inside' is_copy =>
          exact (not_copy_of_from is_from (inside.unique inside' ▸ is_copy)).elim
  | source inside is_copy argument mark_text =>
      cases h' with
      | stage inside' is_from =>
          exact (not_copy_of_from is_from (inside.unique inside' ▸ is_copy)).elim
      | source inside' _ argument' mark_text' =>
          obtain rfl := inside.unique inside'
          refine (List.append_inj (argument.symm.trans argument') ?_).2
          have hlength := congrArg List.length (mark_text.trans mark_text'.symm)
          simpa only [Placed.text, List.length_map] using hlength
  | tag inside _ argument colon_char last =>
      cases h' with
      | tag inside' _ argument' colon_char' last' =>
          obtain rfl := inside.unique inside'
          exact suffix_unique (f := fun p => p.char != ':') (argument.symm.trans argument')
            (fun p hp => bne_of_not_mem last _ (List.mem_map_of_mem hp))
            (fun p hp => bne_of_not_mem last' _ (List.mem_map_of_mem hp)) (by simp [colon_char])
            (by simp [colon_char'])

theorem Piece.not_argument (h : Piece a offset kind piece) (h' : ArgumentPiece a offset kind piece') :
    False := by
  cases h with
  | directive => cases h'
  | word outside =>
      cases h' with
      | word inside =>
          obtain ⟨⟨index, hfound⟩, -⟩ := inside
          rw [outside] at hfound
          cases hfound
  | keyword around touched =>
      cases h' with
      | word inside =>
          obtain ⟨⟨index, hfound⟩, hbehind⟩ := inside
          rw [around] at hfound
          cases hfound
          exact Nat.not_lt_of_le touched hbehind
  | name is_variable => cases h' <;> simp at is_variable

end Completion

/-! ## Ranges -/

theorem Text.spanOf_rangeOf_of_le {text : Text} {start offset : Nat} (hle : start ≤ offset)
    (h : offsetAt text (positionAt text offset) = offset) :
    spanOf text (rangeOf text ⟨start, offset⟩) = ⟨offsetAt text (positionAt text start), offset⟩ := by
  have hmono := offsetAt_mono text (positionAt_mono text hle)
  rw [h] at hmono
  simp only [spanOf, rangeOf, h, Nat.min_eq_left hmono, Nat.max_eq_right hmono]

/-- The characters of a piece take no more bytes than the file has from its start to the cursor. -/
theorem Placed.byteLength_text_le {p : Placed} {chars : List Placed} {offset : Nat}
    (ordered : (p :: chars).Pairwise fun p q => p.stop ≤ q.offset)
    (hstop : ∀ q ∈ p :: chars, q.stop ≤ offset) :
    p.offset + Text.byteLength (Placed.text (p :: chars)) ≤ offset := by
  induction chars generalizing p with
  | nil => exact hstop p List.mem_cons_self
  | cons q chars ih =>
      obtain ⟨hfirst, hrest⟩ := List.pairwise_cons.mp ordered
      have hle := ih hrest fun r hr => hstop r (List.mem_cons_of_mem _ hr)
      have hnext := hfirst q List.mem_cons_self
      rw [Placed.text_cons, Text.byteLength_cons]
      have hsize : p.stop = p.offset + p.char.utf8Size := rfl
      omega

namespace Completion

variable {text : Text} {offset : Nat} {piece : List Placed}

/-- The range of as many bytes in front of the cursor as the piece has. -/
theorem replaces_typedSpan (hoffset : Text.offsetAt text (Text.positionAt text offset) = offset)
    (hpiece : piece.Sublist (Text.place 0 text)) (hclean : ∀ p ∈ piece, isLineBreak p.char = false)
    (hstop : ∀ p ∈ piece, p.stop ≤ offset) :
    Replaces text offset piece (Text.rangeOf text (typedSpan (Placed.text piece) offset)) := by
  have hspan := Text.spanOf_rangeOf_of_le
    (Nat.sub_le offset (Text.byteLength (Placed.text piece))) hoffset
  rw [← typedSpan] at hspan
  cases piece with
  | nil =>
      have hstart : Text.spanOf text (Text.rangeOf text (typedSpan (Placed.text []) offset)) =
          ⟨offset, offset⟩ := by rw [hspan]; exact congrArg (Span.mk · offset) hoffset
      exact ⟨by rw [hstart], by rw [hstart]; exact Nat.le_refl _, by rw [hstart]; simp⟩
  | cons p rest =>
      have hp := hpiece.mem List.mem_cons_self
      have hbreak := hclean p List.mem_cons_self
      have hle := Placed.byteLength_text_le ((Text.pairwise_place 0 text).sublist hpiece) hstop
      have hsize := p.offset_lt_stop
      obtain ⟨hstart, hend⟩ := p.offsetAt_positionAt hp hbreak
      refine ⟨by rw [hspan], ?_, ?_⟩
      · rw [hspan, Placed.startOr_cons]
        have hstart_le : p.offset ≤ offset - Text.byteLength (Placed.text (p :: rest)) := by omega
        have hmono := Text.offsetAt_mono text (Text.positionAt_mono text hstart_le)
        rwa [hstart] at hmono
      · rw [hspan, Placed.startOr_cons, List.head?_cons]
        constructor
        · rintro heq q ⟨⟩
          refine Nat.lt_of_not_le fun hbehind => ?_
          have hstop_le : p.stop ≤ offset - Text.byteLength (Placed.text (p :: rest)) := by omega
          have hmono := Text.offsetAt_mono text (Text.positionAt_mono text hstop_le)
          rw [hend, show Text.offsetAt text _ = _ from heq] at hmono
          omega
        · intro hfew
          have hlt := hfew p rfl
          show Text.offsetAt text (Text.positionAt text _) = _
          rw [Text.positionAt_of_inside hp (by omega) (by omega), hstart]

/-- What stands side by side in front of the cursor is replaced. -/
theorem replacesAll_typedSpan (hoffset : Text.offsetAt text (Text.positionAt text offset) = offset)
    (hpiece : piece.Sublist (Text.place 0 text)) (hclean : ∀ p ∈ piece, isLineBreak p.char = false)
    (hstop : ∀ p ∈ piece, p.stop ≤ offset)
    (hside : Placed.startOr offset piece + Text.byteLength (Placed.text piece) = offset) :
    ReplacesAll text offset piece (Text.rangeOf text (typedSpan (Placed.text piece) offset)) := by
  have h := replaces_typedSpan hoffset hpiece hclean hstop
  have hstart := h.start_eq_iff.mpr fun p hp => by
    obtain ⟨rest, rfl⟩ := List.head?_eq_some_iff.mp hp
    have := p.offset_lt_stop
    rw [Placed.startOr_cons] at hside
    omega
  unfold ReplacesAll
  rw [← hstart]
  exact congrArg (Span.mk _) h.stop

/-! ## Pieces of a line -/

theorem exists_of_directiveTyped? {before typed : Text} (h : directiveTyped? before = some typed) :
    ∃ lead blanks, before = lead ++ ['#'] ++ blanks ++ typed ∧
      (∀ c ∈ lead ++ blanks, isBlank c = true) ∧ ∀ c ∈ typed, c.isAlpha = true := by
  unfold directiveTyped? at h
  split at h
  · rename_i rest hrest
    obtain ⟨hall, h⟩ := Option.ite_none_right_eq_some.mp h
    obtain rfl := Option.some.inj h
    refine ⟨before.takeWhile isBlank, rest.takeWhile isBlank, ?_, fun c hc => ?_,
      List.all_eq_true.mp hall⟩
    · rw [Text.trimBlanksStart, List.append_assoc, List.takeWhile_append_dropWhile, List.append_assoc,
        List.singleton_append, ← hrest]
      exact List.takeWhile_append_dropWhile.symm
    · exact (List.mem_append.mp hc).elim List.mem_takeWhile_imp List.mem_takeWhile_imp
  · cases h

theorem exists_of_substitutionTyped? {before name : Text} {braced : Bool}
    (h : substitutionTyped? before = some (braced, name)) :
    ∃ lead mark, before = lead ++ mark ++ name ∧ (mark = ['$'] ∨ mark = ['$', '\x7b']) ∧
      ∀ c ∈ name, Substitution.isNameChar c = true := by
  unfold substitutionTyped? at h
  obtain ⟨hdollar, h⟩ := Option.ite_none_right_eq_some.mp h
  obtain ⟨front, after, rfl, hafter⟩ := exists_last (List.contains_iff_mem.mp hdollar)
  simp only [behind_last hafter] at h
  obtain ⟨hall, h⟩ := Option.ite_none_right_eq_some.mp h
  obtain ⟨-, rfl⟩ := Prod.mk.inj (Option.some.inj h)
  have hletters := List.all_eq_true.mp hall
  by_cases hbrace : (after.head? == some '\x7b') = true
  · rw [if_pos hbrace] at hletters ⊢
    obtain ⟨name, rfl⟩ := List.head?_eq_some_iff.mp (beq_iff_eq.mp hbrace)
    exact ⟨front, ['$', '\x7b'], by rw [List.append_assoc]; rfl, .inr rfl, hletters⟩
  · rw [if_neg hbrace] at hletters ⊢
    exact ⟨front, ['$'], by rw [List.append_assoc]; rfl, .inl rfl, hletters⟩

section Line

variable (h : Text.isBoundary text offset = true)
include h

theorem exists_lineBefore : ∃ front before rest, text = front ++ (before ++ rest) ∧
    Text.slice text ⟨Text.lineStart text (Text.lineOf text offset), offset⟩ = before ∧
    lineBefore text offset = Text.place (Text.byteLength front) before ∧
    offset = Text.byteLength front + Text.byteLength before := by
  obtain ⟨front, before, rest, htext, hstart, hoffset⟩ := Checked.exists_before h
  have hbefore : Text.slice text ⟨Text.lineStart text (Text.lineOf text offset), offset⟩ = before := by
    rw [hstart, hoffset]
    exact (congrArg (fun text => Text.slice text _) htext).trans (Text.slice_append _ _ _)
  refine ⟨front, before, rest, htext, hbefore, ?_, hoffset⟩
  rw [lineBefore, hbefore, hstart]

theorem text_lineBefore : Placed.text (lineBefore text offset) =
    Text.slice text ⟨Text.lineStart text (Text.lineOf text offset), offset⟩ := by
  obtain ⟨front, before, rest, -, hslice, hline, -⟩ := exists_lineBefore h
  rw [hline, hslice, Text.text_place]

theorem replacesAll_line (hoffset : Text.offsetAt text (Text.positionAt text offset) = offset)
    {lead : List Placed} (hline : lineBefore text offset = lead ++ piece)
    (hclean : ∀ p ∈ piece, isLineBreak p.char = false) :
    ReplacesAll text offset piece (Text.rangeOf text (typedSpan (Placed.text piece) offset)) := by
  obtain ⟨front, before, rest, htext, -, hplace, hcut⟩ := exists_lineBefore h
  rw [hplace] at hline
  obtain ⟨hbefore, -, hpiece⟩ := Text.split_of_place_eq hline
  have hsub : piece.Sublist (Text.place 0 text) := by
    rw [htext, Text.place_append, Text.place_append, Nat.zero_add, hline]
    exact (List.sublist_append_right lead piece).trans
      ((List.sublist_append_left _ _).trans (List.sublist_append_right _ _))
  have hlength : offset = Text.byteLength front + Text.byteLength (Placed.text lead) +
      Text.byteLength (Placed.text piece) := by
    rw [hcut, hbefore, Text.byteLength_append, Nat.add_assoc]
  refine replacesAll_typedSpan hoffset hsub hclean (fun p hp => ?_) ?_
  · rw [hpiece] at hp
    have := (Text.offset_of_mem_place hp).2
    omega
  · have hstart := Text.startOr_place
      (Text.byteLength front + Text.byteLength (Placed.text lead)) (Placed.text piece)
    rw [← hpiece, ← hlength] at hstart
    rw [hstart, hlength]

end Line

end Completion

/-! ## Pieces of an argument -/

theorem Excerpt.textBefore_eq {text : Text} {e : Excerpt} (h : e.Within text) {offset : Nat}
    (hoffset : Text.isBoundary text offset = true) :
    e.textBefore offset = Placed.text (e.chars.takeWhile fun p => p.offset < offset) := by
  have hgo : ∀ chars : List Placed, chars ⊆ e.chars → indexAt.go offset chars =
      Text.byteLength (Placed.text (chars.takeWhile fun p => p.offset < offset)) := by
    intro chars hchars
    induction chars with
    | nil => rfl
    | cons p chars ih =>
        obtain ⟨hp, hchars⟩ := List.cons_subset.mp hchars
        rw [indexAt.go]
        by_cases hlt : p.offset < offset
        · have hstop := Text.stop_le_of_isBoundary (h.chars.mem hp) hoffset hlt
          rw [if_neg (by omega), if_neg (by omega), List.takeWhile_cons_of_pos (by simpa using hlt),
            ih hchars]
          rfl
        · rw [if_pos (by omega), List.takeWhile_cons_of_neg (by simpa using hlt)]
          rfl
  have htext : e.text = Placed.text (e.chars.takeWhile fun p => p.offset < offset) ++
      Placed.text (e.chars.dropWhile fun p => p.offset < offset) := by
    rw [← Placed.text_append, List.takeWhile_append_dropWhile]
    rfl
  rw [textBefore, indexAt, hgo e.chars (List.Subset.refl _), htext]
  exact Text.takeBytes_append_byteLength _ _

namespace Completion

variable {text : Text} {offset : Nat} {inst : Instruction}

section Argument

variable (hinst : inst ∈ (File.parse text).instructions) (h : Text.isBoundary text offset = true)
include hinst h

theorem argumentBefore_spec : (argumentBefore inst offset).Sublist (Text.place 0 text) ∧
    ∀ p ∈ argumentBefore inst offset, isLineBreak p.char = false ∧ p.stop ≤ offset := by
  unfold argumentBefore
  cases hfound : inst.arguments.find? fun arg => arg.span.contains offset with
  | none => exact ⟨List.nil_sublist _, by simp⟩
  | some arg =>
      have hmem := List.mem_of_find?_eq_some hfound
      have hargument := (File.instruction_within hinst).argument hmem
      refine ⟨(List.takeWhile_sublist _).trans hargument.chars, ?_⟩
      intro p (hp : p ∈ arg.content.chars.takeWhile _)
      have hp' := (List.takeWhile_sublist _).mem hp
      have hregion := (Argument.infix_of_mem_splitFrom hmem).mem hp'
      refine ⟨File.not_break_of_mem (File.mem_logicalLines hinst) (List.mem_append_right _ hregion), ?_⟩
      have hlt := List.mem_takeWhile_imp hp
      exact Text.stop_le_of_isBoundary (hargument.chars.mem hp') h (by simpa using hlt)

theorem replaces_argument (hoffset : Text.offsetAt text (Text.positionAt text offset) = offset)
    {lead piece : List Placed} (hargument : argumentBefore inst offset = lead ++ piece) :
    Replaces text offset piece (Text.rangeOf text (typedSpan (Placed.text piece) offset)) := by
  obtain ⟨hsub, hchars⟩ := argumentBefore_spec hinst h
  rw [hargument] at hsub hchars
  exact replaces_typedSpan hoffset ((List.sublist_append_right lead piece).trans hsub)
    (fun p hp => (hchars p (List.mem_append_right _ hp)).1)
    (fun p hp => (hchars p (List.mem_append_right _ hp)).2)

/-- What was typed of the argument that the cursor touches. -/
theorem text_argumentBefore :
    Placed.text (argumentBefore inst offset) =
      ((inst.arguments.zipIdx.find? fun arg => arg.1.span.contains offset).map fun arg =>
        arg.1.content.textBefore offset).getD [] := by
  have hfst : inst.arguments.find? (fun arg => arg.span.contains offset) =
      (inst.arguments.zipIdx.find? fun arg => arg.1.span.contains offset).map Prod.fst := by
    have hmap := List.find?_map (f := Prod.fst)
      (p := fun arg : Argument => arg.span.contains offset) (l := inst.arguments.zipIdx)
    rwa [List.zipIdx_map_fst] at hmap
  unfold argumentBefore
  rw [hfst]
  cases hfound : inst.arguments.zipIdx.find? fun arg => arg.1.span.contains offset with
  | none => rfl
  | some found =>
      have hmem := List.mem_zipIdx' (List.mem_of_find?_eq_some hfound)
      exact (Excerpt.textBefore_eq
        ((File.instruction_within hinst).argument (hmem.2 ▸ List.getElem_mem hmem.1)) h).symm

end Argument

end Completion

end Dockerfile
