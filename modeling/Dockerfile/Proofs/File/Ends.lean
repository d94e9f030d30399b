import Dockerfile.Proofs.Editor.Extent
import Dockerfile.Proofs.Scope.Gaps
import Dockerfile.Proofs.Text.Selection
import Dockerfile.Proofs.Text.Trim

/-!
# Where instructions end

The span of an instruction ends with the last character of its region other than a blank
(`Instruction.span_stop_eq`). Blanks belong to an argument if they are quoted or escaped, so the last
argument may end behind the instruction: it does if it ends with a blank
(`Instruction.argument_stop_le`, `Instruction.span_stop_lt`).
-/

namespace Dockerfile

namespace Excerpt

theorem rawOffset_zero {e : Excerpt} {p : Placed} {rest : List Placed} (h : e.chars = p :: rest) :
    e.rawOffset 0 = p.offset := by
  rw [rawOffset, h, offsetIn, if_pos p.size_pos, Nat.add_zero]

theorem span_stop_of_getLast? {e : Excerpt} {q : Placed}
    (ordered : e.chars.Pairwise fun p q => p.stop ≤ q.offset) (h : e.chars.getLast? = some q) :
    e.span.stop = q.stop := by
  obtain ⟨front, hchars⟩ := List.getLast?_eq_some_iff.mp h
  have hle : e.start ≤ q.stop := by
    unfold start
    rw [hchars] at ordered ⊢
    cases front with
    | nil => exact Nat.le_of_lt q.offset_lt_stop
    | cons p front =>
        have := (List.pairwise_cons.mp ordered).1 q (by simp)
        have := q.offset_lt_stop
        have := p.offset_lt_stop
        simp only [List.cons_append, Placed.startOr_cons]
        omega
  simp only [span, stop, Placed.stopOr, h]
  omega

end Excerpt

namespace Argument

variable {escape : Char} {whole : Excerpt} {index : Nat} {chars : List Placed}

theorem blank_of_splitFrom_nil (h : splitFrom escape whole index chars = []) :
    ∀ p ∈ chars, isBlank p.char = true := by
  rw [splitFrom_dropBlanks] at h
  have hhead := List.head?_dropWhile_not (fun p : Placed => isBlank p.char) chars
  cases hbody : chars.dropWhile fun p => isBlank p.char with
  | nil => exact List.dropWhile_eq_nil_iff.mp hbody
  | cons p body =>
      rw [hbody] at h hhead
      rw [splitFrom, if_neg (by simpa using hhead)] at h
      cases h

theorem exists_head_of_splitFrom {arg : Argument} (h : arg ∈ splitFrom escape whole index chars) :
    ∃ p rest, arg.content.chars = p :: rest ∧ isBlank p.char = false := by
  fun_induction splitFrom escape whole index chars with
  | case1 => cases h
  | case2 index p rest _ ih => exact ih h
  | case3 index p rest hblank word stop ih =>
      rcases List.mem_cons.mp h with rfl | h
      · have hblank : isBlank p.char = false := by simpa using hblank
        obtain ⟨tail, hword, -⟩ := Word.exists_read_eq escape rest hblank
        exact ⟨p, tail, hword, hblank⟩
      · exact ih h

theorem exists_behindLast {front : List Argument} {arg : Argument}
    (h : splitFrom escape whole index chars = front ++ [arg]) :
    ∃ before tail, chars = before ++ (arg.content.chars ++ tail) ∧
      ∀ p ∈ tail, isBlank p.char = true := by
  induction front generalizing index chars with
  | nil =>
      obtain ⟨-, hchars, hrest⟩ := splitFrom_eq_cons h
      refine ⟨chars.takeWhile fun p => isBlank p.char, _, ?_, blank_of_splitFrom_nil hrest.symm⟩
      rw [hchars, Word.read_append, List.takeWhile_append_dropWhile]
  | cons first front ih =>
      obtain ⟨-, -, hrest⟩ := splitFrom_eq_cons h
      obtain ⟨before, tail, hchars, htail⟩ := ih hrest.symm
      refine ⟨(chars.takeWhile fun p => isBlank p.char) ++
        ((Word.read escape none (chars.dropWhile fun p => isBlank p.char)).chars ++ before), tail, ?_,
        htail⟩
      rw [List.append_assoc, List.append_assoc, ← hchars, Word.read_append,
        List.takeWhile_append_dropWhile]

end Argument

namespace Instruction

variable {text : Text} {inst : Instruction} (h : inst.Within text) (hnamed : inst.isNamed = true)

section
include h

theorem region_ordered : inst.region.chars.Pairwise fun p q => p.stop ≤ q.offset :=
  ((Text.pairwise_place 0 text).sublist h.chars).sublist (List.sublist_append_right _ _)

include hnamed

theorem keywordSpan_stop_le_offset {p : Placed} (hp : p ∈ inst.region.chars) :
    inst.keywordSpan.stop ≤ p.offset := by
  have hordered := (Text.pairwise_place 0 text).sublist h.chars
  have hne : inst.keyword.chars ≠ [] := fun hnil => by
    simp [isNamed, Excerpt.isEmpty, hnil] at hnamed
  have hlast := List.getLast?_eq_some_getLast hne
  rw [keywordSpan, Excerpt.span_stop_of_getLast? (hordered.sublist (List.sublist_append_left _ _))
    hlast]
  exact (List.pairwise_append.mp hordered).2.2 _ (List.getLast_mem hne) p hp

/-- The span ends with the last character other than a blank; if there are blanks only, with the last
of these, and without any, with the keyword. -/
theorem span_stop_eq :
    (inst.region.chars = [] ∧ inst.span.stop = inst.keywordSpan.stop) ∨
      ∃ a p b, inst.region.chars = a ++ p :: b ∧ inst.span.stop = p.stop ∧
        (∀ q ∈ b, isBlank q.char = true) ∧
        (isBlank p.char = true → ∀ q ∈ inst.region.chars, isBlank q.char = true) := by
  have hordered := region_ordered h
  -- Wherever the content ends, the span ends with the character there.
  have hstop : ∀ {a b : List Placed} {p : Placed}, inst.region.chars = a ++ p :: b →
      inst.region.trimmedBounds.2 = total Placed.size (a ++ [p]) → inst.span.stop = p.stop := by
    intro a b p hchars hbound
    have hpos : 0 < total Placed.size (a ++ [p]) := by
      have := p.size_pos
      simp only [total_append, total_cons, total_nil]
      omega
    have hfirst : inst.region.rawOffset 0 ≤ p.stop := by
      obtain ⟨first, rest, hcons⟩ := List.exists_cons_of_ne_nil
        (show inst.region.chars ≠ [] by rw [hchars]; simp)
      rw [Excerpt.rawOffset_zero hcons]
      have hp : p ∈ first :: rest := by rw [← hcons, hchars]; simp
      rw [hcons] at hordered
      rcases List.mem_cons.mp hp with rfl | hp
      · exact Nat.le_of_lt p.offset_lt_stop
      · have := (List.pairwise_cons.mp hordered).1 p hp
        have := p.offset_lt_stop
        have := first.offset_lt_stop
        omega
    have hkeyword := keywordSpan_stop_le_offset h hnamed (p := p) (by rw [hchars]; simp)
    have hlt := p.offset_lt_stop
    rw [span, hbound, if_pos hpos, Excerpt.spanAt_zero_stop hchars]
    show max (max p.stop (inst.region.rawOffset 0)) inst.keywordSpan.stop = p.stop
    omega
  obtain ⟨lead, kept, tail, hchars, hbounds, hdrop, hkept, htail⟩ := inst.region.exists_trimmedBounds
  have hbound : inst.region.trimmedBounds.2 = total Placed.size (lead ++ kept) := by
    rw [hbounds, total_append]
  rcases List.eq_nil_or_concat kept with hnil | ⟨k, p, hconcat⟩
  · -- Without content there is nothing but the blanks in front of it.
    subst hnil
    have htail' : tail = [] := by
      have hhead := List.head?_dropWhile_not (fun p : Placed => isBlank p.char) inst.region.chars
      rw [hdrop, List.nil_append] at hhead
      cases tail with
      | nil => rfl
      | cons q tail =>
          have hhead : isBlank q.char = false := by simpa using hhead
          rw [htail q List.mem_cons_self] at hhead
          cases hhead
    rw [htail', List.append_nil, List.append_nil] at hchars
    rw [htail', List.append_nil] at hdrop
    have hblank := List.dropWhile_eq_nil_iff.mp hdrop
    rcases List.eq_nil_or_concat lead with hlead | ⟨l, p, hlead⟩
    · left
      subst hlead
      refine ⟨hchars, ?_⟩
      rw [span, hbound]
      exact Nat.max_self _
    · right
      rw [List.concat_eq_append] at hlead
      subst hlead
      exact ⟨l, p, [], hchars, hstop hchars (by rw [hbound, List.append_nil]), by simp,
        fun _ => hblank⟩
  · right
    rw [List.concat_eq_append] at hconcat
    subst hconcat
    have hsplit : inst.region.chars = (lead ++ k) ++ p :: tail := by
      rw [hchars]
      simp only [List.append_assoc, List.singleton_append]
    have hp : isBlank p.char = false := by
      have hne : ((k ++ [p]) ++ tail).rdropWhile (fun p : Placed => isBlank p.char) ≠ [] := by
        rw [← hkept]
        simp
      have hlast := List.rdropWhile_last_not _ _ hne
      simp only [← hkept, List.getLast_append_singleton] at hlast
      simpa using hlast
    refine ⟨lead ++ k, p, tail, hsplit, hstop hsplit (by rw [hbound, List.append_assoc]), htail,
      fun hblank => ?_⟩
    rw [hp] at hblank
    cases hblank

theorem stop_le_span_stop {q : Placed} (hq : q ∈ inst.region.chars) (hblank : isBlank q.char = false) :
    q.stop ≤ inst.span.stop := by
  rcases span_stop_eq h hnamed with ⟨hnil, -⟩ | ⟨a, p, b, hchars, hstop, hb, -⟩
  · rw [hnil] at hq
    cases hq
  · have hordered := region_ordered h
    rw [hchars] at hq hordered
    rw [hstop]
    rcases List.mem_append.mp hq with hq | hq
    · have := (List.pairwise_append.mp hordered).2.2 q hq p List.mem_cons_self
      have := p.offset_lt_stop
      omega
    · rcases List.mem_cons.mp hq with rfl | hq
      · exact Nat.le_refl _
      · rw [hb q hq] at hblank
        cases hblank

theorem exists_span_stop : ∃ p ∈ inst.chars, inst.span.stop = p.stop := by
  rcases span_stop_eq h hnamed with ⟨-, hstop⟩ | ⟨a, p, b, hchars, hstop, -⟩
  · have hne : inst.keyword.chars ≠ [] := fun hnil => by
      simp [isNamed, Excerpt.isEmpty, hnil] at hnamed
    have hordered := (Text.pairwise_place 0 text).sublist h.keyword.chars
    refine ⟨_, List.mem_append_left _ (List.getLast_mem hne), hstop.trans ?_⟩
    exact Excerpt.span_stop_of_getLast? hordered (List.getLast?_eq_some_getLast hne)
  · exact ⟨p, List.mem_append_right _ (by rw [hchars]; simp), hstop⟩

/-- An argument ends in its instruction if it does not end with a blank, or if another one follows. -/
theorem argument_stop_le {front rest : List Argument} {arg : Argument}
    (hargs : inst.arguments = front ++ arg :: rest)
    (hend : rest ≠ [] ∨ ∀ q ∈ arg.content.chars.getLast?, isBlank q.char = false) :
    arg.span.stop ≤ inst.span.stop := by
  have harg : arg ∈ inst.arguments := by rw [hargs]; simp
  have hordered := region_ordered h
  have hpart := Argument.infix_of_mem_splitFrom harg
  obtain ⟨first, tail, hchars, -⟩ := Argument.exists_head_of_splitFrom harg
  have hne : arg.content.chars ≠ [] := by rw [hchars]; exact List.cons_ne_nil _ _
  have hlast := List.getLast?_eq_some_getLast hne
  have hstop : arg.span.stop = (arg.content.chars.getLast hne).stop :=
    Excerpt.span_stop_of_getLast? (hordered.sublist hpart.sublist) hlast
  rw [hstop]
  rcases hend with hrest | hend
  · obtain ⟨next, rest, rfl⟩ := List.exists_cons_of_ne_nil hrest
    have hnext : next ∈ inst.arguments := by rw [hargs]; simp
    obtain ⟨q, tail', hchars', hblank⟩ := Argument.exists_head_of_splitFrom hnext
    have hq : q ∈ next.content.chars := hchars' ▸ List.mem_cons_self
    have hinfront : InFront arg.content.chars next.content.chars := by
      have happart : inst.arguments.Pairwise fun a b => InFront a.content.chars b.content.chars :=
        Argument.splitFrom_inFront hordered
      rw [hargs] at happart
      exact (List.pairwise_cons.mp (List.pairwise_append.mp happart).2.1).1 next List.mem_cons_self
    have hlt := hinfront _ (List.getLast_mem hne) q hq
    have hle := stop_le_span_stop h hnamed
      ((Argument.infix_of_mem_splitFrom hnext).subset hq) hblank
    have := q.offset_lt_stop
    omega
  · exact stop_le_span_stop h hnamed (hpart.subset (List.getLast_mem hne)) (hend _ hlast)

/-- The last argument ends behind its instruction if it ends with a blank. -/
theorem span_stop_lt {front : List Argument} {arg : Argument} (hargs : inst.arguments = front ++ [arg])
    {q : Placed} (hq : arg.content.chars.getLast? = some q) (hblank : isBlank q.char = true) :
    inst.span.stop < arg.span.stop := by
  have harg : arg ∈ inst.arguments := by rw [hargs]; simp
  have hordered := region_ordered h
  have hpart := Argument.infix_of_mem_splitFrom harg
  have hstop : arg.span.stop = q.stop :=
    Excerpt.span_stop_of_getLast? (hordered.sublist hpart.sublist) hq
  obtain ⟨before, tail, hchars, htail⟩ := Argument.exists_behindLast hargs
  obtain ⟨word, hword⟩ := List.getLast?_eq_some_iff.mp hq
  obtain ⟨first, _, hfirst, hnonblank⟩ := Argument.exists_head_of_splitFrom harg
  have hmem : first ∈ inst.region.chars :=
    hpart.subset (hfirst ▸ List.mem_cons_self)
  rcases span_stop_eq h hnamed with ⟨hnil, -⟩ | ⟨a, p, b, hsplit, hspan, hb, hall⟩
  · rw [hnil] at hmem
    cases hmem
  · have hp : isBlank p.char = false := by
      cases hcase : isBlank p.char with
      | false => rfl
      | true => rw [hall hcase first hmem] at hnonblank; exact hnonblank
    have hwhole : inst.region.chars = (before ++ word) ++ q :: tail := by
      rw [hchars, hword]
      simp only [List.append_assoc, List.singleton_append]
    -- The character that ends the span is not blank, so it stands in front of the last blank.
    have hpmem : p ∈ before ++ word := by
      have hp' : p ∈ inst.region.chars := by rw [hsplit]; simp
      rw [hwhole] at hp'
      rcases List.mem_append.mp hp' with hp' | hp'
      · exact hp'
      · rcases List.mem_cons.mp hp' with rfl | hp'
        · rw [hblank] at hp
          cases hp
        · rw [htail p hp'] at hp
          cases hp
    rw [hwhole] at hordered
    have := (List.pairwise_append.mp hordered).2.2 p hpmem q List.mem_cons_self
    have := q.offset_lt_stop
    rw [hspan, hstop]
    omega

end

end Instruction

namespace File

variable {text : Text} {inst : Instruction} (hinst : inst ∈ (parse text).instructions)
include hinst

theorem selectable_of_chars {e : Excerpt} (h : e.Within text) (hne : e.chars ≠ [])
    (hchars : e.chars ⊆ inst.chars) : e.span.Selectable text :=
  h.selectable hne fun _ hp => not_break_of_mem (mem_logicalLines hinst) (hchars hp)

theorem selectable_keywordSpan : inst.keywordSpan.Selectable text := by
  refine selectable_of_chars hinst (instruction_within hinst).keyword (fun hnil => ?_)
    (List.subset_append_left _ _)
  have hnamed := isNamed_of_mem hinst
  simp [Instruction.isNamed, Excerpt.isEmpty, hnil] at hnamed

theorem selectable_span : inst.span.Selectable text := by
  have hwithin := instruction_within hinst
  have hnamed := isNamed_of_mem hinst
  have hplaced : ∀ p ∈ inst.chars, p ∈ Text.place 0 text ∧ isLineBreak p.char = false := fun p hp =>
    ⟨hwithin.chars.mem hp, not_break_of_mem (mem_logicalLines hinst) hp⟩
  obtain ⟨p, hp, hstart⟩ := Instruction.keywordSpan_start hnamed
  obtain ⟨q, hq, hstop⟩ := Instruction.exists_span_stop hwithin hnamed
  have hstart : inst.span.start = p.offset := hstart
  refine ⟨hwithin.span, ?_, ?_⟩
  · obtain ⟨hp, hclean⟩ := hplaced p (List.mem_append_left _ hp)
    rw [hstart]
    exact Text.not_splitsNewline_offset hp fun hc => by rw [hc] at hclean; cases hclean
  · obtain ⟨hq, hclean⟩ := hplaced q hq
    rw [hstop]
    exact Text.not_splitsNewline_stop hq fun hc => by rw [hc] at hclean; cases hclean

end File

end Dockerfile
