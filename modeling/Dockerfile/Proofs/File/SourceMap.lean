import Dockerfile.Proofs.Directive.Places
import Dockerfile.Proofs.Instruction

/-!
# The source map of a file

Everything that is read of a text leads back to it. The directives and the body together tile the
text (`File.parse_tiling`), and from this follow the order of the parts, the gaps between them and
the places of their bytes (`File.parse_sourceMap`).
-/

namespace Dockerfile

namespace File

/-- The lines of a text that are read as instructions, also those without a keyword. -/
def logicalLines (text : Text) : List Instruction :=
  Body.logicalLines (parse text).escape (Text.byteLength text)
    (Directive.bodyChars text (Directive.readAll text).2)

theorem parse_tiling (text : Text) :
    Tiling (parse text).escape (Text.byteLength text) (Text.place 0 text) (parse text).comments
      ((logicalLines text).flatMap Instruction.chars) [] :=
  (Directive.readAll_tiling _ text).trans (Body.read_tiling _ _ _)

theorem instructions_parse (text : Text) :
    (parse text).instructions = (logicalLines text).filter Instruction.isNamed :=
  Body.instructions_read _ _ _

theorem bodyChars_suffix (text : Text) :
    Directive.bodyChars text (Directive.readAll text).2 <:+ Text.place 0 text :=
  (Directive.readAll_tiling defaultEscape text).suffix

theorem isNamed_of_mem {text : Text} {inst : Instruction} (h : inst ∈ (parse text).instructions) :
    inst.isNamed = true := by
  rw [instructions_parse] at h
  exact (List.mem_filter.mp h).2

theorem mem_logicalLines {text : Text} {inst : Instruction}
    (h : inst ∈ (parse text).instructions) : inst ∈ logicalLines text := by
  rw [instructions_parse] at h
  exact (List.mem_filter.mp h).1

theorem instruction_within {text : Text} {inst : Instruction}
    (h : inst ∈ (parse text).instructions) : inst.Within text :=
  Body.logicalLines_within (bodyChars_suffix text) (mem_logicalLines h)

/-- At least one byte stands between the characters of two instructions. -/
theorem instructions_separated (text : Text) :
    (parse text).instructions.Pairwise fun a b =>
      ∀ p ∈ a.chars, ∀ q ∈ b.chars, p.stop < q.offset := by
  rw [instructions_parse]
  exact (Body.logicalLines_separated (bodyChars_suffix text)).sublist List.filter_sublist

theorem kept_of_mem {text : Text} {line : Instruction} (h : line ∈ logicalLines text)
    {p : Placed} (hp : p ∈ line.chars) : p ∈ (logicalLines text).flatMap Instruction.chars :=
  List.mem_flatMap.mpr ⟨line, h, hp⟩

def spans (file : File) : List Span :=
  file.directives.flatMap (fun d => [d.name.span, d.valueSpan, d.span]) ++
    file.comments.flatMap (fun c => [c.span, c.contentSpan]) ++
    file.instructions.flatMap Instruction.spans

/-- The file leads back to the text: each instruction, and each one it defers, is mapped byte by
byte; instructions and comments stand in the order of the text and apart from each other; and no
span leaves the text or cuts a character. -/
structure SourceMap (text : Text) (file : File) : Prop where
  mapped : ∀ inst ∈ file.instructions, ∀ t, inst.Defers t → t.Mapped text
  ordered : file.instructions.Pairwise fun a b => ∀ o ∈ a.offsets, ∀ o' ∈ b.offsets, o < o'
  separated : file.instructions.Pairwise fun a b => a.span.stop < b.span.start
  directives_first : file.directives.map Directive.span <+: file.comments.map Comment.span
  comments_nonempty : ∀ c ∈ file.comments, c.span.start < c.span.stop
  comments_ordered : file.comments.Pairwise fun a b => a.span.stop ≤ b.span.start
  comments_apart : ∀ c ∈ file.comments, ∀ inst ∈ file.instructions, ∀ o ∈ inst.offsets,
    o < c.span.start ∨ c.span.stop ≤ o
  spans : ∀ s ∈ file.spans, s.WellPlaced text

/-! ## The source map of a parsed text -/

theorem parse_ordered (text : Text) :
    (parse text).instructions.Pairwise fun a b => ∀ o ∈ a.offsets, ∀ o' ∈ b.offsets, o < o' := by
  refine (instructions_separated text).imp ?_
  intro a b hab o ho o' ho'
  obtain ⟨p, hp, -, hstop⟩ := Instruction.mem_offsets.mp ho
  obtain ⟨q, hq, hstart, -⟩ := Instruction.mem_offsets.mp ho'
  have := hab p hp q hq
  omega

theorem parse_separated (text : Text) :
    (parse text).instructions.Pairwise fun a b => a.span.stop < b.span.start := by
  refine (instructions_separated text).imp_of_mem ?_
  intro a b ha hb hab
  obtain ⟨q, hq, hstart⟩ := Instruction.keywordSpan_start (isNamed_of_mem hb)
  have hq := List.mem_append_left b.region.chars hq
  have hpos : 0 < q.offset := by
    obtain ⟨p, hp, -⟩ := Instruction.keywordSpan_start (isNamed_of_mem ha)
    have := hab p (List.mem_append_left _ hp) q hq
    omega
  have hle : a.span.stop ≤ q.offset - 1 := by
    refine Instruction.span_stop_le (isNamed_of_mem ha) ?_
    intro p hp
    have := hab p hp q hq
    omega
  have hspan : b.span.start = q.offset := hstart
  omega

theorem parse_comments_apart {text : Text} {c : Comment} (hc : c ∈ (parse text).comments)
    {inst : Instruction} (h : inst ∈ (parse text).instructions) {o : Nat} (ho : o ∈ inst.offsets) :
    o < c.span.start ∨ c.span.stop ≤ o := by
  obtain ⟨p, hp, hstart, hstop⟩ := Instruction.mem_offsets.mp ho
  have := (parse_tiling text).comment_apart (List.suffix_refl _) hc
    (kept_of_mem (mem_logicalLines h) hp)
  omega

theorem parse_spans {text : Text} {s : Span} (hs : s ∈ (parse text).spans) : s.WellPlaced text := by
  unfold spans at hs
  rcases List.mem_append.mp hs with hs | hs
  · rcases List.mem_append.mp hs with hs | hs
    · obtain ⟨d, hd, hs⟩ := List.mem_flatMap.mp hs
      have hwithin := Directive.readAll_within hd
      simp only [List.mem_cons, List.not_mem_nil, or_false] at hs
      rcases hs with rfl | rfl | rfl
      · exact hwithin.name.span
      · exact hwithin.value
      · exact hwithin.span
    · obtain ⟨c, hc, hs⟩ := List.mem_flatMap.mp hs
      have hplaced := (parse_tiling text).comment_wellPlaced (List.suffix_refl _) hc
      simp only [List.mem_cons, List.not_mem_nil, or_false] at hs
      rcases hs with rfl | rfl
      · exact hplaced.1
      · exact hplaced.2
  · obtain ⟨inst, hinst, hs⟩ := List.mem_flatMap.mp hs
    exact (instruction_within hinst).spans hs

theorem parse_directives_first (text : Text) :
    (parse text).directives.map Directive.span <+: (parse text).comments.map Comment.span := by
  show _ <+: List.map Comment.span ((parse text).directives.map (Directive.comment text) ++ _)
  rw [List.map_append, List.map_map]
  exact List.prefix_append _ _

/-- Reading a text gives its source map. -/
theorem parse_sourceMap (text : Text) : SourceMap text (parse text) where
  mapped := fun _ hinst _ ht => ((instruction_within hinst).defers ht).mapped
  ordered := parse_ordered text
  separated := parse_separated text
  directives_first := parse_directives_first text
  comments_nonempty := fun _ hc => ((parse_tiling text).comment_span (List.suffix_refl _) hc).2.1
  comments_ordered := (parse_tiling text).comments_ordered (List.suffix_refl _)
  comments_apart := fun _ hc _ hinst _ ho => parse_comments_apart hc hinst ho
  spans := fun _ hs => parse_spans hs

end File

end Dockerfile
