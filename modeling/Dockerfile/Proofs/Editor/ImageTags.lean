import Dockerfile.Proofs.Checked.Outline
import Dockerfile.Proofs.Editor.Completion
import Dockerfile.Proofs.Editor.Extent
import Dockerfile.Proofs.File.Adjoining

/-!
# The tags of an image

Behind the image of a `FROM`, the completion asks for tags. It splits the image at its last colon; a
link to the image's page splits it at the first colon behind the last slash. On an image in one line
both split it alike if and only if that is the same colon (`Analysis.completion_asksLikeLink_iff`).
They differ on the port of a registry, and on a second colon in a tag.
-/

namespace Dockerfile

/-! ## The cursor behind an image -/

theorem Span.contains_eq_false_of_lt {a b : Span} (h : a.stop < b.start) {offset : Nat}
    (hb : b.contains offset = true) : a.contains offset = false := by
  simp only [contains, Bool.and_eq_true, decide_eq_true_eq] at hb
  simp only [contains, Bool.and_eq_false_iff, decide_eq_false_iff_not]
  omega

/-- What is found among items of which no two can be found is the one that can. -/
theorem exists_find?_zipIdx {α : Type} {f : α → Bool} {xs : List α} {x : α}
    (h : xs.Pairwise fun a b => f b = true → f a = false) (hx : x ∈ xs) (hfx : f x = true) :
    ∃ i, xs.zipIdx.find? (fun a => f a.1) = some (x, i) := by
  obtain ⟨before, after, rfl⟩ := List.append_of_mem hx
  have hbefore : before.zipIdx.find? (fun a => f a.1) = none := by
    refine List.find?_eq_none.mpr fun a ha => ?_
    have hmem : a.1 ∈ before := (List.mem_zipIdx' ha).2 ▸ List.getElem_mem _
    simp [(List.pairwise_append.mp h).2.2 a.1 hmem x List.mem_cons_self hfx]
  refine ⟨0 + before.length, ?_⟩
  rw [List.zipIdx_append, List.find?_append, hbefore, List.zipIdx_cons, Option.none_or]
  exact List.find?_cons_of_pos hfx

namespace File

theorem exists_instructionAround? {text : Text} {inst : Instruction} {offset : Nat}
    (h : inst ∈ (parse text).instructions) (hoffset : inst.extent.contains offset = true) :
    ∃ index, (parse text).instructionAround? offset = some (index, inst) := by
  obtain ⟨index, hfound⟩ := exists_find?_zipIdx (f := fun inst => inst.extent.contains offset)
    ((extents_apart text).imp fun hlt => Span.contains_eq_false_of_lt hlt) h hoffset
  exact ⟨index, by rw [instructionAround?, hfound]; rfl⟩

end File

namespace Completion

/-- What follows a blank, or nothing, without a dollar sign does not begin a substitution. -/
theorem substitutionTyped?_append {x word : Text} (hx : ∀ c ∈ x.getLast?, isBlank c = true)
    (hword : '$' ∉ word) : substitutionTyped? (x ++ word) = none := by
  unfold substitutionTyped?
  by_cases hdollar : '$' ∈ x
  · obtain ⟨front, after, rfl, hafter⟩ := exists_last hdollar
    have hclean : '$' ∉ after ++ word := by simp [hafter, hword]
    -- The blank is behind the last dollar sign, and it is not a letter of a name.
    obtain ⟨b, hb, hblank⟩ : ∃ b ∈ after, isBlank b = true := by
      cases hlast : after.getLast? with
      | none =>
          rw [List.getLast?_eq_none_iff.mp hlast] at hx
          exact absurd (hx '$' (by simp)) (by decide)
      | some b =>
          exact ⟨b, List.mem_of_getLast? hlast, hx b (by simp [List.getLast?_cons, hlast])⟩
    have hmark : b ≠ '\x7b' ∧ Substitution.isNameChar b = false := by
      simp only [isBlank, Bool.or_eq_true, beq_iff_eq] at hblank
      rcases hblank with rfl | rfl <;> decide
    rw [List.append_assoc, List.cons_append, behind_last hclean]
    have hname : b ∈ if (after ++ word).head? == some '\x7b' then (after ++ word).tail
        else after ++ word := by
      have hmem : b ∈ after ++ word := List.mem_append_left _ hb
      split
      · rename_i hbrace
        obtain ⟨tail, htail⟩ := List.head?_eq_some_iff.mp (beq_iff_eq.mp hbrace)
        rw [htail] at hmem ⊢
        exact (List.mem_cons.mp hmem).resolve_left hmark.1
      · exact hmem
    rw [if_pos (by simp)]
    refine if_neg fun hall => ?_
    rw [List.all_eq_true.mp hall b hname] at hmark
    exact absurd hmark.2 (by decide)
  · exact if_neg (by simp [hdollar, hword])

theorem directiveTyped?_of_line {line : Line} {a z : Text} (hline : line.content = a ++ z)
    (h : line.isComment = false) : directiveTyped? a = none := by
  unfold directiveTyped?
  split
  · rename_i rest hrest
    have hhead : line.core.head? = some '#' := by
      rw [Line.core, hline, Text.head?_core_append, show a.dropWhile isBlank = '#' :: rest from hrest]
      rfl
    rw [Line.isComment, hhead] at h
    cases h
  · rfl

end Completion

theorem Text.Cut.slice_before {text front rest a z : Text} {before after : List Line} {line : Line}
    (h : Text.Cut text front rest before (line :: after)) (hcontent : line.content = a ++ z) :
    Text.slice text ⟨Text.lineStart text (Text.lineOf text (line.start + Text.byteLength a)),
      line.start + Text.byteLength a⟩ = a := by
  obtain ⟨rest', hrest, -⟩ := h.exists_next
  have htext : text = front ++ (a ++ (z ++ (line.terminator ++ rest'))) := by
    rw [h.split, hrest, hcontent, List.append_assoc]
  have hline : (Text.lines text)[before.length]? = some line := by
    rw [h.lines_eq, List.getElem?_append_right (Nat.le_refl _), Nat.sub_self]
    rfl
  have hboundary : Text.isBoundary text (line.start + Text.byteLength a) = true := by
    rw [h.start_eq, ← Text.byteLength_append, htext, ← List.append_assoc]
    exact Text.isBoundary_append _ _
  have hposition := (Text.position_in_line hline ⟨z, hcontent.symm⟩).2
  have hnumber : Text.lineOf text (line.start + Text.byteLength a) = before.length := by
    have hnumber := congrArg Position.line hposition
    rwa [Text.positionAt, Text.floorBoundary_of_isBoundary hboundary] at hnumber
  rw [hnumber, Text.lineStart, h.line_eq, h.start_eq]
  exact (congrArg (fun text => Text.slice text _) htext).trans (Text.slice_append _ _ _)

theorem Excerpt.textBefore_stop {text : Text} {e : Excerpt} (h : e.Within text) :
    e.textBefore e.span.stop = e.text := by
  have hall : e.chars.takeWhile (fun p => p.offset < e.span.stop) = e.chars :=
    List.takeWhile_eq_self_iff.mpr fun p hp =>
      decide_eq_true (Nat.lt_of_lt_of_le p.offset_lt_stop (h.stop_le hp))
  rw [textBefore_eq h h.span.stop_boundary, hall]
  rfl

theorem InFront.span_stop_lt {a b : Excerpt} (h : InFront a.chars b.chars) (ha : a.chars ≠ [])
    (hb : b.chars ≠ []) : a.span.stop < b.span.start := by
  have hlt := h.stop_lt_start ha hb
  rwa [← Excerpt.span_eq_reach ha, ← Excerpt.span_eq_reach hb] at hlt

section Image

variable {text : Text} {inst : Instruction} {image : Argument}
  (hinst : inst ∈ (File.parse text).instructions) (himage : image ∈ inst.arguments)

include hinst himage

theorem File.keywordSpan_stop_lt : inst.keywordSpan.stop < image.span.start := by
  obtain ⟨lead, blank, first, tail, more, hregion, -, -⟩ := exists_around_argument hinst himage
  have hordered := (Text.pairwise_place 0 text).sublist (instruction_within hinst).chars
  rw [Instruction.chars, hregion, ← List.append_assoc] at hordered
  have hfront : InFront inst.keyword.chars image.content.chars :=
    (inFront_of_ordered hordered).mono (List.subset_append_left _ _) (List.subset_append_left _ _)
  obtain ⟨p, hp, -⟩ := Instruction.keywordSpan_start (isNamed_of_mem hinst)
  exact hfront.span_stop_lt (List.ne_nil_of_mem hp) (Instruction.argument_ne_nil himage)

theorem File.extent_contains_stop : inst.extent.contains image.span.stop = true := by
  have hkeyword := keywordSpan_stop_lt hinst himage
  have hwithin := instruction_within hinst
  have hordered : inst.keywordSpan.start ≤ inst.keywordSpan.stop := hwithin.keyword.span.ordered
  have hspan : image.span.start ≤ image.span.stop := (hwithin.argument himage).span.ordered
  obtain ⟨lead, blank, first, tail, more, hregion, -, -⟩ := exists_around_argument hinst himage
  have hne := Instruction.argument_ne_nil himage
  obtain ⟨p, hp, hstop⟩ := Placed.exists_reach_stop hne
  rw [← Excerpt.span_eq_reach hne] at hstop
  have hmem : p ∈ inst.chars := by
    rw [Instruction.chars, hregion]
    exact List.mem_append_right _ (List.mem_append_right _ (List.mem_cons_of_mem _
      (List.mem_append_left _ hp)))
  have hle : image.span.stop ≤ inst.extent.stop :=
    Nat.le_trans hstop (Instruction.stop_le_extent_stop hwithin hmem)
  have hstart : inst.extent.start ≤ image.span.stop := by
    show inst.keywordSpan.start ≤ _
    omega
  simpa [Span.contains, hstart] using hle

theorem File.exists_argument_find? : ∃ i,
    inst.arguments.zipIdx.find? (fun arg => arg.1.span.contains image.span.stop) =
      some (image, i) := by
  have hwithin := instruction_within hinst
  have hordered := (Text.pairwise_place 0 text).sublist hwithin.region.chars
  refine exists_find?_zipIdx (f := fun arg => arg.span.contains image.span.stop) ?_ himage ?_
  · refine (Instruction.arguments_inFront hordered).imp_of_mem fun {a b} ha hb hfront => ?_
    exact Span.contains_eq_false_of_lt
      (hfront.span_stop_lt (Instruction.argument_ne_nil ha) (Instruction.argument_ne_nil hb))
  · have hle : image.span.start ≤ image.span.stop := (hwithin.argument himage).span.ordered
    simp [Span.contains, hle]

/-- In front of the end of an argument in one line stands no directive, and in front of the argument a
blank, or nothing. -/
theorem File.exists_before_stop
    (hline : Text.lineOf text image.span.stop = Text.lineOf text image.span.start) :
    ∃ x, Text.slice text ⟨Text.lineStart text (Text.lineOf text image.span.stop), image.span.stop⟩ =
        x ++ image.text ∧
      (∀ c ∈ x.getLast?, isBlank c = true) ∧
      Completion.directiveTyped? (x ++ image.text) = none := by
  obtain ⟨front, rest, before, line, after, x, z, hcut, hcomment, hcontent, hstart, hblank⟩ :=
    exists_line_of_argument hinst himage hline
  rw [← List.append_assoc] at hcontent
  have hstop : image.span.stop = line.start + Text.byteLength (x ++ image.text) := by
    rw [argument_stop_eq hinst himage hline, hstart, Text.byteLength_append, Nat.add_assoc]
  refine ⟨x, ?_, hblank, Completion.directiveTyped?_of_line hcontent hcomment⟩
  rw [hstop]
  exact hcut.slice_before hcontent

omit himage in
theorem Completion.argumentPlan_image (settings : Settings) (index : Nat)
    (hkind : inst.isKind .FROM = true) (hpositional : inst.positional.head? = some image)
    (hdash : image.text.head? ≠ some '-') :
    argumentPlan (analyze text settings) index inst image.span.stop =
      imagePlan (analyze text settings) index image.span.stop image.text := by
  obtain ⟨more, hpositional⟩ := List.head?_eq_some_iff.mp hpositional
  have hmem : image ∈ inst.arguments :=
    inst.positional_sublist.mem (hpositional ▸ List.mem_cons_self)
  have hargument : image.content.Within text := (File.instruction_within hinst).argument hmem
  have hspan : image.span.start ≤ image.span.stop := hargument.span.ordered
  obtain ⟨i, hfind⟩ := File.exists_argument_find? hinst hmem
  have hindex : positionalIndex inst image.span.stop = 0 := by
    have hcontains : image.span.contains image.span.stop = true := by simp [Span.contains, hspan]
    rw [positionalIndex, hpositional, List.findIdx?_cons, hcontains]
    rfl
  have htyped : image.content.textBefore image.span.stop = image.text :=
    Excerpt.textBefore_stop hargument
  unfold argumentPlan
  simp only [hfind, htyped, beq_eq_false_iff_ne.mpr hdash, Bool.and_false, Bool.false_and,
    eq_of_beq hkind, hindex]
  rfl

end Image

theorem Analysis.exists_completion_eq {text : Text} (settings : Settings) {inst : Instruction}
    (hinst : inst ∈ (File.parse text).instructions) (hkind : inst.isKind .FROM = true)
    {image : Argument} (himage : inst.positional.head? = some image)
    (hline : Text.lineOf text image.span.stop = Text.lineOf text image.span.start)
    (hdollar : '$' ∉ image.text) (hdash : image.text.head? ≠ some '-') {position : Position}
    (hcursor : Text.offsetAt text position = image.span.stop) :
    ∃ index, (analyze text settings).completion position =
      Completion.imagePlan (analyze text settings) index image.span.stop image.text := by
  have hmem : image ∈ inst.arguments :=
    inst.positional_sublist.mem (List.mem_of_mem_head? himage)
  obtain ⟨x, hbefore, hblank, hdirective⟩ := File.exists_before_stop hinst hmem hline
  have hkeyword := File.keywordSpan_stop_lt hinst hmem
  have hspan : image.span.start ≤ image.span.stop :=
    ((File.instruction_within hinst).argument hmem).span.ordered
  obtain ⟨index, hfound⟩ :=
    File.exists_instructionAround? hinst (File.extent_contains_stop hinst hmem)
  have hplan := Completion.argumentPlan_image hinst settings index hkind himage hdash
  have hinstruction : Completion.instructionPlan (analyze text settings) image.span.stop
      (x ++ image.text) = Completion.imagePlan (analyze text settings) index image.span.stop
        image.text := by
    rw [Completion.instructionPlan, show (analyze text settings).file = File.parse text from rfl,
      hfound]
    dsimp only
    rw [if_neg (by omega), Completion.substitutionTyped?_append hblank hdollar]
    exact hplan
  refine ⟨index, ?_⟩
  rw [Analysis.completion, show (analyze text settings).text = text from rfl, hcursor, hbefore,
    hdirective, ite_self]
  exact hinstruction

/-! ## Splitting an image -/

namespace Image

theorem splitLastSlash_append {more : Text} (h : '/' ∉ more) (image : Text) :
    splitLastSlash (image ++ more) =
      ((splitLastSlash image).1, (splitLastSlash image).2 ++ more) := by
  have hclean := bne_of_not_mem (List.mem_reverse.not.mpr h)
  have hlast : (splitLastSlash (image ++ more)).2 = (splitLastSlash image).2 ++ more := by
    show ((image ++ more).reverse.takeWhile fun c => c != '/').reverse = _
    rw [List.reverse_append, List.takeWhile_append_of_pos hclean, List.reverse_append,
      List.reverse_reverse]
    rfl
  have hwhole := Checked.splitLastSlash_append (image ++ more)
  rw [hlast, ← List.append_assoc] at hwhole
  have hfirst := (List.append_cancel_right hwhole).trans (Checked.splitLastSlash_append image).symm
  exact Prod.ext (List.append_cancel_right hfirst) hlast

/-- What stands in front of a colon behind the last slash is the repository if the colon is the first
there. -/
theorem repository_eq_iff {before tag : Text} (hslash : '/' ∉ tag)
    (hat : '@' ∉ before ++ ':' :: tag) :
    repository (before ++ ':' :: tag) = before ↔ ':' ∉ (splitLastSlash before).2 := by
  have hundigested : (before ++ ':' :: tag).takeWhile (fun c => c != '@') = before ++ ':' :: tag :=
    List.takeWhile_eq_self_iff.mpr (bne_of_not_mem hat)
  have hslash' : '/' ∉ ':' :: tag := by simpa using hslash
  have hsplit := splitLastSlash_append hslash' before
  have hbefore := Checked.splitLastSlash_append before
  have hrepository : repository (before ++ ':' :: tag) =
      (splitLastSlash before).1 ++
        ((splitLastSlash before).2 ++ ':' :: tag).takeWhile fun c => c != ':' := by
    rw [repository, hundigested]
    simp only [hsplit]
  rw [hrepository]
  constructor
  · intro h hcolon
    have htake := List.append_cancel_left (h.trans hbefore.symm)
    rw [← htake] at hcolon
    exact absurd (List.mem_takeWhile_imp hcolon) (by decide)
  · intro hcolon
    rw [List.takeWhile_append_of_pos (bne_of_not_mem hcolon), List.takeWhile_cons_of_neg (by decide),
      List.append_nil, hbefore]

/-- There is a colon behind the last slash of the image, and something in front of it. -/
def HasTag (image : Text) : Prop :=
  ∃ before tag, image = before ++ ':' :: tag ∧ '/' ∉ tag ∧ before ≠ []

/-- The last colon of the image, if anything stands in front of it, is behind the last slash, and no
other colon is. -/
def TagAtLastColon (image : Text) : Prop :=
  ∀ before tag, image = before ++ ':' :: tag → ':' ∉ tag → before ≠ [] →
    '/' ∉ tag ∧ ':' ∉ (splitLastSlash before).2

end Image

/-- The plan asks for the tags of an image exactly if it has a tag, and splits it in front of the tag,
like the link to its page. -/
structure CompletionPlan.AsksLikeLink (plan : CompletionPlan) (image : Text) : Prop where
  asks : plan.query.isSome = true ↔ Image.HasTag image
  whole : ∀ q ∈ plan.query, q.repository ++ ':' :: q.typed = image
  repository : ∀ q ∈ plan.query, q.repository = Image.repository image
  page : ∀ q ∈ plan.query, ∀ page ∈ Image.page? image, page.2 = q.repository

theorem Image.repository_of_page? {image : Text} {page : Text × Text} (h : page? image = some page) :
    page.2 = repository image := by
  unfold page? at h
  split at h
  · cases h
  · dsimp only at h
    split at h
    · cases h
    · obtain ⟨target, -, rfl⟩ := Option.map_eq_some_iff.mp h
      rfl

theorem Image.not_hasTag {image : Text}
    (h : ∀ before tag, image = before ++ ':' :: tag → ':' ∉ tag → before = []) : ¬HasTag image := by
  rintro ⟨before, tag, rfl, -, hne⟩
  have hcolon : ':' ∈ before ++ ':' :: tag := List.mem_append_right _ List.mem_cons_self
  obtain ⟨front, after, himage, hafter⟩ := exists_last hcolon
  obtain rfl := h front after himage hafter
  obtain ⟨c, before, rfl⟩ := List.exists_cons_of_ne_nil hne
  refine hafter ?_
  rw [← (List.cons.inj himage).2]
  exact List.mem_append_right _ List.mem_cons_self

theorem Image.tagAtLastColon_append {before tag : Text} (htag : ':' ∉ tag) :
    TagAtLastColon (before ++ ':' :: tag) ↔
      (before ≠ [] → '/' ∉ tag ∧ ':' ∉ (splitLastSlash before).2) := by
  refine ⟨fun h => h before tag rfl htag, fun h before' tag' himage htag' => ?_⟩
  have hsplit : Completion.splitLastColon? (before ++ ':' :: tag) = some (before, tag) :=
    Completion.splitLastColon?_append htag
  rw [Completion.splitLastColon?_eq_some_iff.mpr ⟨himage, htag'⟩] at hsplit
  obtain ⟨rfl, rfl⟩ := Prod.mk.inj (Option.some.inj hsplit)
  exact h

theorem Image.not_mem_slash {before tag : Text} (htag : ':' ∉ tag)
    (h : HasTag (before ++ ':' :: tag)) : '/' ∉ tag := by
  obtain ⟨before', tag', himage, hslash, -⟩ := h
  rcases List.append_eq_append_iff.mp himage with ⟨z, -, hz⟩ | ⟨z, -, hz⟩
  · cases z with
    | nil => exact (List.cons.inj hz).2 ▸ hslash
    | cons c z => exact absurd ((List.cons.inj hz).2 ▸ by simp) htag
  · cases z with
    | nil => exact (List.cons.inj hz).2 ▸ hslash
    | cons c z =>
        intro hmem
        refine hslash ?_
        rw [(List.cons.inj hz).2]
        simp [hmem]

theorem CompletionPlan.asksLikeLink_of_none {plan : CompletionPlan} {image : Text}
    (h : plan.query = none) (htag : ¬Image.HasTag image) : plan.AsksLikeLink image :=
  ⟨by simp [h, htag], by simp [h], by simp [h], by simp [h]⟩

/-- A plan that asks for the tags behind the last colon splits the image like the link if and only if
no slash is behind that colon, and no colon between the last slash and it. -/
theorem CompletionPlan.asksLikeLink_iff {plan : CompletionPlan} {q : ImageQuery}
    (h : plan.query = some q) (hne : q.repository ≠ []) (htag : ':' ∉ q.typed)
    (hat : '@' ∉ q.repository ++ ':' :: q.typed) :
    plan.AsksLikeLink (q.repository ++ ':' :: q.typed) ↔
      '/' ∉ q.typed ∧ ':' ∉ (Image.splitLastSlash q.repository).2 := by
  constructor
  · intro hasks
    have hslash := Image.not_mem_slash htag (hasks.asks.mp (by rw [h]; rfl))
    exact ⟨hslash, (Image.repository_eq_iff hslash hat).mp (hasks.repository q h).symm⟩
  · rintro ⟨hslash, hcolon⟩
    have hrepository := (Image.repository_eq_iff hslash hat).mpr hcolon
    refine ⟨iff_of_true (by rw [h]; rfl) ⟨_, _, rfl, hslash, hne⟩, ?_, ?_, ?_⟩
    · intro q' hq'
      rw [Option.some.inj (h.symm.trans hq')]
    · intro q' hq'
      rw [← Option.some.inj (h.symm.trans hq')]
      exact hrepository.symm
    · intro q' hq' page hpage
      rw [← Option.some.inj (h.symm.trans hq')]
      exact (Image.repository_of_page? hpage).trans hrepository

theorem Completion.imagePlan_asksLikeLink_iff (a : Analysis) (index offset : Nat) {image : Text}
    (hdollar : '$' ∉ image) (hat : '@' ∉ image) :
    (imagePlan a index offset image).AsksLikeLink image ↔ Image.TagAtLastColon image := by
  unfold imagePlan
  cases hsplit : splitLastColon? image with
  | none =>
      have hnone : ∀ before tag, image = before ++ ':' :: tag → ':' ∉ tag → False := by
        intro before tag himage htag
        rw [splitLastColon?_eq_some_iff.mpr ⟨himage, htag⟩] at hsplit
        cases hsplit
      have huntagged : ¬Image.HasTag image := Image.not_hasTag fun before tag himage htag =>
        (hnone before tag himage htag).elim
      exact iff_of_true (CompletionPlan.asksLikeLink_of_none rfl huntagged)
        fun before tag himage htag => (hnone before tag himage htag).elim
  | some split =>
      obtain ⟨before, tag⟩ := split
      obtain ⟨rfl, htag⟩ := splitLastColon?_eq_some_iff.mp hsplit
      rw [Image.tagAtLastColon_append htag]
      cases before with
      | nil =>
          have huntagged : ¬Image.HasTag ([] ++ ':' :: tag) := by
            refine Image.not_hasTag fun before' tag' himage htag' => ?_
            rw [splitLastColon?_eq_some_iff.mpr ⟨himage, htag'⟩] at hsplit
            exact (Prod.mk.inj (Option.some.inj hsplit)).1
          exact iff_of_true (CompletionPlan.asksLikeLink_of_none rfl huntagged)
            fun hne => absurd rfl hne
      | cons c before =>
          have hkeeps : ((c :: before).isEmpty || (c :: before).contains '$') = false := by
            refine Bool.or_eq_false_iff.mpr ⟨rfl, Bool.eq_false_iff.mpr fun h => hdollar ?_⟩
            exact List.mem_append_left _ (List.contains_iff_mem.mp h)
          have hne : c :: before ≠ [] := List.cons_ne_nil c before
          simp only [hkeeps, forall_prop_of_true hne]
          exact CompletionPlan.asksLikeLink_iff (q := ⟨c :: before, tag, _⟩) rfl hne htag hat

/-- Behind an image on one line, the tags asked for are those of the image as its link splits it, if
and only if its last colon is the one in front of the tag. -/
theorem Analysis.completion_asksLikeLink_iff {text : Text} (settings : Settings) {inst : Instruction}
    (hinst : inst ∈ (File.parse text).instructions) (hkind : inst.isKind .FROM = true)
    {image : Argument} (himage : inst.positional.head? = some image)
    (hline : Text.lineOf text image.span.stop = Text.lineOf text image.span.start)
    (hdollar : '$' ∉ image.text) (hat : '@' ∉ image.text) (hdash : image.text.head? ≠ some '-')
    {position : Position} (hcursor : Text.offsetAt text position = image.span.stop) :
    ((analyze text settings).completion position).AsksLikeLink image.text ↔
      Image.TagAtLastColon image.text := by
  obtain ⟨index, hplan⟩ :=
    exists_completion_eq settings hinst hkind himage hline hdollar hdash hcursor
  rw [hplan]
  exact Completion.imagePlan_asksLikeLink_iff _ _ _ hdollar hat

theorem Analysis.completion_asksLikeLink_tag :
    let text := "FROM \\\n h:5/b:3 AS c".toList
    ∃ inst ∈ (File.parse text).instructions, inst.isKind .FROM = true ∧
      ∃ image, inst.positional.head? = some image ∧ image.text = "h:5/b:3".toList ∧
        Text.lineOf text image.span.stop = Text.lineOf text image.span.start ∧
        Text.offsetAt text ⟨1, 8⟩ = image.span.stop ∧
        ((analyze text {}).completion ⟨1, 8⟩).AsksLikeLink image.text := by
  intro text
  have hfound : (File.parse text).instructions[0]?.any (fun inst => inst.isKind .FROM &&
      inst.positional.head?.any fun image => decide (image.text = "h:5/b:3".toList ∧
        Text.lineOf text image.span.stop = Text.lineOf text image.span.start ∧
        Text.offsetAt text ⟨1, 8⟩ = image.span.stop)) = true := by
    decide +kernel
  obtain ⟨inst, hinst, hchecked⟩ := (Option.any_eq_true _ _).mp hfound
  obtain ⟨hkind, hchecked⟩ := Bool.and_eq_true_iff.mp hchecked
  obtain ⟨image, himage, hchecked⟩ := (Option.any_eq_true _ _).mp hchecked
  obtain ⟨htext, hline, hcursor⟩ := of_decide_eq_true hchecked
  have hmem := List.mem_of_getElem? hinst
  refine ⟨inst, hmem, hkind, image, himage, htext, hline, hcursor, ?_⟩
  refine (completion_asksLikeLink_iff {} hmem hkind himage hline (by rw [htext]; decide)
    (by rw [htext]; decide) (by rw [htext]; decide) hcursor).mpr ?_
  rw [htext]
  show Image.TagAtLastColon ("h:5/b".toList ++ ':' :: "3".toList)
  exact (Image.tagAtLastColon_append (by decide)).mpr fun _ => by decide

/-- The port of the registry is taken for a tag. -/
theorem Analysis.completion_registryPort :
    let plan := (analyze "FROM localhost:5000/alpine".toList {}).completion ⟨0, 26⟩
    plan.query = some ⟨"localhost".toList, "5000/alpine".toList, ⟨⟨0, 15⟩, ⟨0, 26⟩⟩⟩ ∧
      Image.repository "localhost:5000/alpine".toList = "localhost:5000/alpine".toList ∧
      ¬plan.AsksLikeLink "localhost:5000/alpine".toList := by
  intro plan
  have hquery : plan.query =
      some ⟨"localhost".toList, "5000/alpine".toList, ⟨⟨0, 15⟩, ⟨0, 26⟩⟩⟩ := by
    decide +kernel
  refine ⟨hquery, by decide +kernel, fun h => ?_⟩
  exact absurd (h.repository _ hquery) (by decide +kernel)

end Dockerfile
