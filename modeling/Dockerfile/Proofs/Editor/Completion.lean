import Dockerfile.Proofs.Editor.Typed

/-!
# What a completion replaces

Each plan offers items of one sort, and each item replaces the piece in front of the cursor that it
completes. This is shown for the items of each sort, then for the plan inside the arguments of an
instruction (`Completion.argumentPlan_completes`), and for any place (`Analysis.completion_replaces`).
-/

namespace Dockerfile

namespace Completion

variable {offset : Nat} {inst : Instruction}

/-! ## Items -/

section Items

variable {a : Analysis} {item : CompletionItem}

theorem mem_directiveItems {typed : Text} (h : item ∈ directiveItems a offset typed) :
    item.kind = .directive ∧ item.edit.range = Text.rangeOf a.text (typedSpan typed offset) := by
  obtain ⟨name, -, rfl⟩ := List.mem_map.mp h
  exact ⟨rfl, rfl⟩

theorem mem_keywordsAt {span : Span} {withBlank : Bool} {allowed : Keyword → Bool}
    (h : item ∈ keywordsAt a span withBlank allowed) :
    item.kind = .keyword ∧ item.edit.range = Text.rangeOf a.text span := by
  obtain ⟨k, -, rfl⟩ := List.mem_map.mp h
  exact ⟨rfl, rfl⟩

theorem mem_wordItems {words : List String} {span : Span} (h : item ∈ wordItems a words span) :
    item.kind = .keyword ∧ item.edit.range = Text.rangeOf a.text span := by
  obtain ⟨word, -, rfl⟩ := List.mem_map.mp h
  exact ⟨rfl, rfl⟩

theorem mem_variableItems {typed : Text} {closeBrace : Bool}
    (h : item ∈ variableItems a offset typed closeBrace) :
    (item.kind = .var ∨ item.kind = .predefined) ∧
      item.edit.range = Text.rangeOf a.text (typedSpan typed offset) := by
  rcases List.mem_append.mp h with h | h
  · obtain ⟨b, -, rfl⟩ := List.mem_map.mp h
    exact ⟨.inl rfl, rfl⟩
  · obtain ⟨name, -, rfl⟩ := List.mem_map.mp h
    exact ⟨.inr rfl, rfl⟩

theorem mem_stageItems {current : Option Nat} {typed : Text}
    (h : item ∈ stageItems a current offset typed) :
    item.kind = .stage ∧ item.edit.range = Text.rangeOf a.text (typedSpan typed offset) := by
  obtain ⟨stage, -, hitem⟩ := List.mem_filterMap.mp h
  split at hitem
  · cases hitem
  · split at hitem
    · obtain rfl := Option.some.inj hitem
      exact ⟨rfl, rfl⟩
    · cases hitem

theorem mem_flagItems {index : Nat} {typed : Text} (h : item ∈ flagItems a index inst offset typed) :
    (item.kind = .flag ∧ item.edit.range = Text.rangeOf a.text (typedSpan typed offset)) ∨
      inst.isKind .COPY = true ∧ ∃ value, typed = "--from=".toList ++ value ∧ item.kind = .stage ∧
        item.edit.range = Text.rangeOf a.text (typedSpan value offset) := by
  unfold flagItems at h
  dsimp only at h
  split at h
  · rename_i hsource
    obtain ⟨hcopy, hprefix⟩ := Bool.and_eq_true_iff.mp hsource
    obtain ⟨value, rfl⟩ := List.isPrefixOf_iff_prefix.mp hprefix
    rw [List.drop_left] at h
    exact .inr ⟨hcopy, value, rfl, mem_stageItems h⟩
  · split at h
    · cases h
    · split at h
      · cases h
      · obtain ⟨name, -, rfl⟩ := List.mem_map.mp h
        exact .inl ⟨rfl, rfl⟩

end Items

/-! ## The last colon -/

theorem splitLastColon?_append {before tag : Text} (h : ':' ∉ tag) :
    splitLastColon? (before ++ ':' :: tag) = some (before, tag) := by
  have hlength : (before ++ ':' :: tag).length - tag.length - 1 = before.length := by
    rw [List.length_append, List.length_cons]
    omega
  unfold splitLastColon?
  simp only [behind_last h, hlength, List.take_left]
  rw [if_pos (by simp)]

theorem splitLastColon?_eq_some_iff {text before tag : Text} :
    splitLastColon? text = some (before, tag) ↔ text = before ++ ':' :: tag ∧ ':' ∉ tag := by
  constructor
  · intro h
    have hmem : ':' ∈ text := by
      unfold splitLastColon? at h
      exact List.contains_iff_mem.mp (Option.ite_none_right_eq_some.mp h).1
    obtain ⟨front, after, rfl, hafter⟩ := exists_last hmem
    rw [splitLastColon?_append hafter] at h
    obtain ⟨rfl, rfl⟩ := Prod.mk.inj (Option.some.inj h)
    exact ⟨rfl, hafter⟩
  · rintro ⟨rfl, h⟩
    exact splitLastColon?_append h

end Completion

/-- What the plan offers replaces what is being completed; in an argument, as far as its range does. -/
structure CompletionPlan.Completes (a : Analysis) (offset : Nat) (plan : CompletionPlan) : Prop where
  items : ∀ item ∈ plan.items,
    (∃ piece, Completion.Piece a offset item.kind piece ∧
      Completion.ReplacesAll a.text offset piece item.edit.range) ∨
    ∃ piece, Completion.ArgumentPiece a offset item.kind piece ∧
      Completion.Replaces a.text offset piece item.edit.range
  query : ∀ q ∈ plan.query, ∃ piece, Completion.ArgumentPiece a offset .tag piece ∧
    Placed.text piece = q.typed ∧ Completion.Replaces a.text offset piece q.range

namespace Completion

/-! ## Plans -/

section Plans

variable {text : Text} {settings : Settings} {offset : Nat}
  (h : Text.isBoundary text offset = true)
  (hoffset : Text.offsetAt text (Text.positionAt text offset) = offset)
include h hoffset

section Argument

variable {index : Nat} {inst : Instruction}
  (hfound : (File.parse text).instructionAround? offset = some (index, inst))
include hfound

theorem replaces_within {lead piece : List Placed}
    (hargument : argumentBefore inst offset = lead ++ piece) :
    Replaces text offset piece (Text.rangeOf text (typedSpan (Placed.text piece) offset)) :=
  replaces_argument (Checked.mem_of_instructionAround? hfound).1 h hoffset hargument

variable (hbehind : inst.keywordSpan.stop < offset) {typed : Text}
  (htyped : Placed.text (argumentBefore inst offset) = typed)
include hbehind htyped

theorem flagItems_completes : CompletionPlan.Completes (analyze text settings) offset
    { items := flagItems (analyze text settings) index inst offset typed } := by
  have hwithin : Within (analyze text settings) offset inst := ⟨⟨index, hfound⟩, hbehind⟩
  refine ⟨fun item hitem => .inr ?_, by simp⟩
  rcases mem_flagItems hitem with ⟨hkind, hrange⟩ | ⟨hcopy, value, hvalue, hkind, hrange⟩
  · rw [hkind, hrange, ← htyped]
    exact ⟨_, .flag hwithin, replaces_within h hoffset hfound (List.nil_append _).symm⟩
  · obtain ⟨mark, piece, hargument, hmark, rfl⟩ :=
      List.map_eq_append_iff.mp (htyped.trans hvalue)
    rw [hkind, hrange]
    exact ⟨piece, .source hwithin hcopy hargument hmark,
      replaces_within h hoffset hfound hargument⟩

theorem imagePlan_completes (hfrom : inst.isKind .FROM = true) :
    (imagePlan (analyze text settings) index offset typed).Completes (analyze text settings)
      offset := by
  have hwithin : Within (analyze text settings) offset inst := ⟨⟨index, hfound⟩, hbehind⟩
  unfold imagePlan
  split
  · rename_i repository tag hsplit
    split
    · exact ⟨by simp, by simp⟩
    · refine ⟨by simp, ?_⟩
      rintro q ⟨⟩
      obtain ⟨himage, hlast⟩ := splitLastColon?_eq_some_iff.mp hsplit
      obtain ⟨image, rest, hargument, -, hrest⟩ :=
        List.map_eq_append_iff.mp (htyped.trans himage)
      obtain ⟨colon, piece, rfl, hcolon, rfl⟩ := List.map_eq_cons_iff.mp hrest
      rw [List.append_cons] at hargument
      exact ⟨piece, .tag hwithin hfrom hargument hcolon hlast, rfl,
        replaces_within h hoffset hfound hargument⟩
  · refine ⟨fun item hitem => .inr ?_, by simp⟩
    obtain ⟨hkind, hrange⟩ := mem_stageItems hitem
    rw [hkind, hrange, ← htyped]
    exact ⟨_, .stage hwithin hfrom, replaces_within h hoffset hfound (List.nil_append _).symm⟩

theorem words_complete {items : List CompletionItem} (hitems : ∀ item ∈ items,
    item.kind = .keyword ∧ item.edit.range = Text.rangeOf text (typedSpan typed offset)) :
    CompletionPlan.Completes (analyze text settings) offset { items } := by
  refine ⟨fun item hitem => .inr ?_, by simp⟩
  obtain ⟨hkind, hrange⟩ := hitems item hitem
  rw [hkind, hrange, ← htyped]
  exact ⟨_, .word ⟨⟨index, hfound⟩, hbehind⟩,
    replaces_within h hoffset hfound (List.nil_append _).symm⟩

omit htyped in
theorem argumentPlan_completes :
    (argumentPlan (analyze text settings) index inst offset).Completes (analyze text settings)
      offset := by
  have htyped := text_argumentBefore (Checked.mem_of_instructionAround? hfound).1 h
  unfold argumentPlan
  -- Whether the cursor touches an argument or not, what is typed of it is known by now.
  cases hfind : inst.arguments.zipIdx.find? fun arg => arg.1.span.contains offset
  all_goals
    rw [hfind] at htyped
    dsimp only
    split
    · exact flagItems_completes h hoffset hfound hbehind htyped
    · split
      · rename_i hkind _
        exact imagePlan_completes h hoffset hfound hbehind htyped (beq_iff_eq.mpr hkind)
      · exact words_complete h hoffset hfound hbehind htyped fun _ => mem_wordItems
      · exact words_complete h hoffset hfound hbehind htyped fun _ => mem_wordItems
      · exact words_complete h hoffset hfound hbehind htyped fun _ => mem_keywordsAt
      · exact ⟨by simp, by simp⟩

end Argument

theorem directiveItems_complete {typed : Text}
    (htyped : directiveTyped? (Placed.text (lineBefore text offset)) = some typed) :
    CompletionPlan.Completes (analyze text settings) offset
      { items := directiveItems (analyze text settings) offset typed } := by
  refine ⟨fun item hitem => .inl ?_, by simp⟩
  obtain ⟨hkind, hrange⟩ := mem_directiveItems hitem
  obtain ⟨lead, blanks, hbefore, hblank, hletters⟩ := exists_of_directiveTyped? htyped
  obtain ⟨more, name, hline, hmore, rfl⟩ := List.map_eq_append_iff.mp hbefore
  obtain ⟨front, blanks, rfl, hfront, rfl⟩ := List.map_eq_append_iff.mp hmore
  obtain ⟨lead, mark, rfl, rfl, hmark⟩ := List.map_eq_append_iff.mp hfront
  have hname : ∀ p ∈ name, p.char.isAlpha = true := fun p hp => hletters _ (List.mem_map_of_mem hp)
  rw [hkind, hrange]
  refine ⟨name, .directive hline (fun p hp => hblank _ ?_) hmark hname, ?_⟩
  · exact (List.mem_append.mp hp).elim (fun hp => List.mem_append_left _ (List.mem_map_of_mem hp))
      fun hp => List.mem_append_right _ (List.mem_map_of_mem hp)
  · exact replacesAll_line h hoffset hline fun p hp => isLineBreak_of_imp rfl rfl (hname p hp)

theorem variableItems_complete {name : Text} {braced closeBrace : Bool}
    (htyped : substitutionTyped? (Placed.text (lineBefore text offset)) = some (braced, name)) :
    CompletionPlan.Completes (analyze text settings) offset
      { items := variableItems (analyze text settings) offset name closeBrace } := by
  refine ⟨fun item hitem => .inl ?_, by simp⟩
  obtain ⟨hkind, hrange⟩ := mem_variableItems hitem
  obtain ⟨lead, mark, hbefore, hmark, hletters⟩ := exists_of_substitutionTyped? htyped
  obtain ⟨more, name, hline, hmore, rfl⟩ := List.map_eq_append_iff.mp hbefore
  obtain ⟨lead, mark, rfl, rfl, rfl⟩ := List.map_eq_append_iff.mp hmore
  have hname : ∀ p ∈ name, Substitution.isNameChar p.char = true := fun p hp =>
    hletters _ (List.mem_map_of_mem hp)
  rw [hrange]
  refine ⟨name, .name hkind hline hmark hname, ?_⟩
  exact replacesAll_line h hoffset hline fun p hp => isLineBreak_of_imp rfl rfl (hname p hp)

theorem wordItems_complete (hnone : (File.parse text).instructionAround? offset = none)
    (hletters : (Text.trimBlanksStart (Placed.text (lineBefore text offset))).all Char.isAlpha = true) :
    CompletionPlan.Completes (analyze text settings) offset
      { items := keywordItems (analyze text settings)
          (typedSpan (Text.trimBlanksStart (Placed.text (lineBefore text offset))) offset) true } := by
  refine ⟨fun item hitem => .inl ?_, by simp⟩
  obtain ⟨hkind, hrange⟩ := mem_keywordsAt hitem
  have hword : Text.trimBlanksStart (Placed.text (lineBefore text offset)) =
      Placed.text ((lineBefore text offset).dropWhile fun p => isBlank p.char) :=
    (Placed.text_dropWhile isBlank _).symm
  have hline := (List.takeWhile_append_dropWhile (p := fun p : Placed => isBlank p.char)
    (l := lineBefore text offset)).symm
  rw [hword] at hletters hrange
  have hname : ∀ p ∈ (lineBefore text offset).dropWhile fun p => isBlank p.char,
      p.char.isAlpha = true := fun p hp =>
    List.all_eq_true.mp hletters _ (List.mem_map_of_mem hp)
  rw [hkind, hrange]
  refine ⟨_, .word hnone hline (fun p hp => ?_) hname, ?_⟩
  · exact List.mem_takeWhile_imp (p := fun p : Placed => isBlank p.char) hp
  · exact replacesAll_line h hoffset hline fun p hp => isLineBreak_of_imp rfl rfl (hname p hp)

omit h in
theorem keywordItems_complete {index : Nat} {inst : Instruction}
    (hfound : (File.parse text).instructionAround? offset = some (index, inst))
    (htouched : offset ≤ inst.keywordSpan.stop) :
    CompletionPlan.Completes (analyze text settings) offset
      { items := keywordItems (analyze text settings) ⟨inst.keywordSpan.start, offset⟩ false } := by
  obtain ⟨hinst, hcontains⟩ := Checked.mem_of_instructionAround? hfound
  refine ⟨fun item hitem => .inl ?_, by simp⟩
  obtain ⟨hkind, hrange⟩ := mem_keywordsAt hitem
  rw [hkind, hrange]
  refine ⟨_, .keyword hfound htouched, ?_⟩
  have hle : inst.keywordSpan.start ≤ offset := by
    simp only [Span.contains, Bool.and_eq_true, decide_eq_true_eq] at hcontains
    exact hcontains.1
  obtain ⟨first, rest, hkeyword⟩ : ∃ first rest, inst.keyword.chars = first :: rest := by
    obtain ⟨p, hp, -⟩ := Instruction.keywordSpan_start (File.isNamed_of_mem hinst)
    exact List.exists_cons_of_ne_nil (List.ne_nil_of_mem hp)
  have hstart : inst.keywordSpan.start = first.offset := by
    show Placed.startOr _ inst.keyword.chars = _
    rw [hkeyword, Placed.startOr_cons]
  have hmem : first ∈ inst.chars :=
    List.mem_append_left _ (hkeyword ▸ List.mem_cons_self)
  have hback := (first.offsetAt_positionAt ((File.instruction_within hinst).chars.mem hmem)
    (File.not_break_of_mem (File.mem_logicalLines hinst) hmem)).1
  have hpiece : Placed.startOr offset (inst.keyword.chars.takeWhile fun p => p.offset < offset) =
      inst.keywordSpan.start := by
    rw [hkeyword, hstart, List.takeWhile_cons]
    split
    · rfl
    · rename_i hlt
      rw [decide_eq_true_eq] at hlt
      rw [Placed.startOr_nil]
      omega
  rw [ReplacesAll, hpiece]
  refine (Text.spanOf_rangeOf_of_le hle hoffset).trans ?_
  rw [hstart, hback]

theorem instructionPlan_completes :
    (instructionPlan (analyze text settings) offset
      (Placed.text (lineBefore text offset))).Completes (analyze text settings) offset := by
  unfold instructionPlan
  dsimp only
  split
  · rename_i hnone
    split
    · rename_i hletters
      exact wordItems_complete h hoffset hnone hletters
    · exact ⟨by simp, by simp⟩
  · rename_i index inst hfound
    split
    · rename_i htouched
      exact keywordItems_complete hoffset hfound htouched
    · rename_i hbehind
      split
      · rename_i braced name htyped
        exact variableItems_complete h hoffset htyped
      · exact argumentPlan_completes h hoffset hfound (Nat.lt_of_not_le hbehind)

end Plans

end Completion

theorem Analysis.completion_completes (text : Text) (settings : Settings) (position : Position) :
    ((analyze text settings).completion position).Completes (analyze text settings)
      (Text.offsetAt text position) := by
  have h := Checked.isBoundary_offsetAt text position
  have hoffset := Text.offsetAt_positionAt_offsetAt text position
  rw [Analysis.completion, show (analyze text settings).text = text from rfl,
    ← Completion.text_lineBefore h]
  split
  · rename_i typed hdirective
    split at hdirective
    · exact Completion.directiveItems_complete h hoffset hdirective
    · cases hdirective
  · exact Completion.instructionPlan_completes h hoffset

/-- Whatever a completion offers is for a piece of the text that ends at the cursor. Outside arguments
it replaces all of the piece, from its first byte on, and nothing else. In an argument it ends at the
cursor and replaces nothing in front of the piece, but it replaces all of it if and only if fewer bytes
are passed over, inside the piece and behind it, than its first character takes. -/
theorem Analysis.completion_replaces (text : Text) (settings : Settings) (position : Position) :
    let a := analyze text settings
    let offset := Text.offsetAt text position
    (∀ item ∈ (a.completion position).items,
      (∃ piece, Completion.Piece a offset item.kind piece ∨
        Completion.ArgumentPiece a offset item.kind piece) ∧
      (∀ piece, Completion.Piece a offset item.kind piece →
        Completion.ReplacesAll text offset piece item.edit.range) ∧
      ∀ piece, Completion.ArgumentPiece a offset item.kind piece →
        Completion.Replaces text offset piece item.edit.range) ∧
    ∀ q ∈ (a.completion position).query,
      (∃ piece, Completion.ArgumentPiece a offset .tag piece) ∧
      ∀ piece, Completion.ArgumentPiece a offset .tag piece →
        Placed.text piece = q.typed ∧ Completion.Replaces text offset piece q.range := by
  intro a offset
  obtain ⟨hitems, hquery⟩ := completion_completes text settings position
  constructor
  · intro item hitem
    rcases hitems item hitem with ⟨piece, hpiece, hrange⟩ | ⟨piece, hpiece, hrange⟩
    · exact ⟨⟨piece, .inl hpiece⟩, fun _ h => h.unique hpiece ▸ hrange,
        fun _ h => (hpiece.not_argument h).elim⟩
    · exact ⟨⟨piece, .inr hpiece⟩, fun _ h => (h.not_argument hpiece).elim,
        fun _ h => h.unique hpiece ▸ hrange⟩
  · intro q hq
    obtain ⟨piece, hpiece, htyped, hrange⟩ := hquery q hq
    refine ⟨⟨piece, hpiece⟩, fun _ h => ?_⟩
    rw [h.unique hpiece]
    exact ⟨htyped, hrange⟩

/-- Behind a continuation inside the name of a stage, two of its letters stay. -/
theorem Analysis.completion_replaces_continuation :
    let text := "FROM alpine AS base\nFROM ba\\\ns".toList
    ∃ item ∈ ((analyze text {}).completion ⟨2, 1⟩).items,
      Completion.ArgumentPiece (analyze text {}) (Text.offsetAt text ⟨2, 1⟩) item.kind
        [⟨'b', 25⟩, ⟨'a', 26⟩, ⟨'s', 29⟩] ∧
      (Text.spanOf text item.edit.range).start = 27 ∧
      TextEdit.apply text item.edit = "FROM alpine AS base\nFROM babase".toList := by
  intro text
  have hfound : ((File.parse text).instructionAround? (Text.offsetAt text ⟨2, 1⟩)).any
      (fun found => found.2.isKind .FROM && decide (found.2.keywordSpan.stop < Text.offsetAt text ⟨2, 1⟩ ∧
        Completion.argumentBefore found.2 (Text.offsetAt text ⟨2, 1⟩) =
          [⟨'b', 25⟩, ⟨'a', 26⟩, ⟨'s', 29⟩])) = true := by
    decide +kernel
  obtain ⟨⟨index, inst⟩, hinst, hchecked⟩ := (Option.any_eq_true _ _).mp hfound
  obtain ⟨hfrom, hchecked⟩ := Bool.and_eq_true_iff.mp hchecked
  obtain ⟨hbehind, hargument⟩ := of_decide_eq_true hchecked
  have hitems : (((analyze text {}).completion ⟨2, 1⟩).items.any fun item => decide (item.kind = .stage ∧
      (Text.spanOf text item.edit.range).start = 27 ∧
      TextEdit.apply text item.edit = "FROM alpine AS base\nFROM babase".toList)) = true := by
    decide +kernel
  obtain ⟨item, hitem, hchecked⟩ := List.any_eq_true.mp hitems
  obtain ⟨hkind, hstart, happly⟩ := of_decide_eq_true hchecked
  refine ⟨item, hitem, ?_, hstart, happly⟩
  rw [hkind, ← hargument]
  exact .stage ⟨⟨index, hinst⟩, hbehind⟩ hfrom

end Dockerfile
