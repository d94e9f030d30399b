import Mathlib.Data.List.Pairwise
import Dockerfile.Proofs.Scope.StageMentions

/-!
# Gaps between names

A cursor touches a name at both of its ends, so two names that do not overlap might still be touched
at once. They are not: a blank stands between arguments, a dollar sign in front of what is
substituted, an equals sign behind what is declared. So there is a gap between any two mentions of
variables (`File.mentions_detached`), and between any two mentions of stages
(`File.stageMentions_detached`). A variable may be mentioned inside the name of a stage, but never at
its start (`File.stage_start_clear`).
-/

namespace Dockerfile

/-- One stretch stands in front of another, with a gap between them. -/
def InFront (a b : List Placed) : Prop :=
  ∀ p ∈ a, ∀ q ∈ b, p.stop < q.offset

/-- There is a gap between two stretches. -/
def Detached (a b : List Placed) : Prop :=
  InFront a b ∨ InFront b a

theorem InFront.mono {a b a' b' : List Placed} (h : InFront a b) (ha : a' ⊆ a) (hb : b' ⊆ b) :
    InFront a' b' :=
  fun p hp q hq => h p (ha hp) q (hb hq)

theorem separation_detached : Separation Detached where
  symm h := Or.symm h
  mono h ha hb := h.imp (fun h => h.mono ha hb) (fun h => h.mono hb ha)

/-- A character between two stretches is a gap. -/
theorem inFront_of_ordered {a b : List Placed} {c : Placed}
    (h : (a ++ c :: b).Pairwise fun p q => p.stop ≤ q.offset) : InFront a b := by
  intro p hp q hq
  obtain ⟨-, hbehind, hfront⟩ := List.pairwise_append.mp h
  have hpc := hfront p hp c List.mem_cons_self
  have hcq := (List.pairwise_cons.mp hbehind).1 q hq
  have := c.offset_lt_stop
  omega

theorem InFront.stop_lt_start {a b : List Placed} (h : InFront a b) (ha : a ≠ []) (hb : b ≠ []) :
    (Placed.reach a).stop < (Placed.reach b).start := by
  obtain ⟨p, hp, hstop⟩ := Placed.exists_reach_stop ha
  obtain ⟨q, hq, hstart⟩ := Placed.exists_reach hb
  have := h p hp q hq
  omega

/-- A stretch `b` is not touched at the start of `a`: it stands in front of it or begins behind it. -/
def ClearOfStart (a b : List Placed) : Prop :=
  InFront b a ∨ ∀ p ∈ a.head?, ∀ q ∈ b, p.offset < q.offset

theorem Detached.clearOfStart {a b : List Placed} (h : Detached a b) : ClearOfStart a b := by
  rcases h with h | h
  · refine .inr fun p hp q hq => ?_
    have := h p (List.mem_of_head? hp) q hq
    have := p.offset_lt_stop
    omega
  · exact .inl h

theorem ClearOfStart.reach {a b : List Placed} (h : ClearOfStart a b) (ha : a ≠ []) (hb : b ≠ []) :
    (Placed.reach b).stop < (Placed.reach a).start ∨
      (Placed.reach a).start < (Placed.reach b).start := by
  rcases h with h | h
  · exact .inl (h.stop_lt_start hb ha)
  · obtain ⟨p, rest, rfl⟩ := List.exists_cons_of_ne_nil ha
    obtain ⟨q, hq, hstart⟩ := Placed.exists_reach hb
    right
    rw [hstart]
    exact h p rfl q hq

/-! ## Arguments and substitutions -/

theorem Argument.splitFrom_inFront {escape : Char} {whole : Excerpt} {index : Nat}
    {chars : List Placed} (ordered : chars.Pairwise fun p q => p.stop ≤ q.offset) :
    (splitFrom escape whole index chars).Pairwise fun a b =>
      InFront a.content.chars b.content.chars := by
  fun_induction splitFrom escape whole index chars with
  | case1 => exact .nil
  | case2 index p rest _ ih => exact ih (List.pairwise_cons.mp ordered).2
  | case3 index p rest _ word stop ih =>
      have happend : word.chars ++ word.rest = p :: rest := Word.read_append escape none (p :: rest)
      rw [← happend] at ordered
      refine .cons (fun arg harg => ?_) (ih (List.pairwise_append.mp ordered).2.1)
      rcases Word.read_rest escape none (p :: rest) with hnil | ⟨blank, tail, hrest, hblank⟩
      · rw [show word.rest = [] from hnil, splitFrom] at harg
        cases harg
      · have hrest : word.rest = blank :: tail := hrest
        rw [hrest, splitFrom, if_pos hblank] at harg
        rw [hrest] at ordered
        exact (inFront_of_ordered ordered).mono (List.Subset.refl _)
          (infix_of_mem_splitFrom harg).subset

namespace Substitution.Found

variable {chars : List Placed} {subs : List Substitution} (h : Found chars subs)
  (ordered : chars.Pairwise fun p q => p.stop ≤ q.offset)

include h ordered

theorem exists_dollar {s : Substitution} (hs : s ∈ subs) :
    ∃ d ∈ chars, d.char = '$' ∧ ∀ q ∈ s.name, d.stop ≤ q.offset := by
  induction h with
  | nil => cases hs
  | skip _ ih =>
      obtain ⟨d, hd, hdollar, hbehind⟩ := ih (List.pairwise_cons.mp ordered).2 hs
      exact ⟨d, List.mem_cons_of_mem _ hd, hdollar, hbehind⟩
  | @found p brace rest t subs dollar _ _ ih =>
      obtain ⟨hp, hrest⟩ := List.pairwise_cons.mp ordered
      rcases List.mem_cons.mp hs with rfl | hs
      · exact ⟨p, List.mem_cons_self, dollar,
          fun q hq => hp q (List.mem_append_right _ (List.mem_append_left _ hq))⟩
      · rw [← List.append_assoc] at hrest
        obtain ⟨d, hd, hdollar, hbehind⟩ := ih (List.pairwise_append.mp hrest).2.1 hs
        refine ⟨d, List.mem_cons_of_mem _ ?_, hdollar, hbehind⟩
        exact List.mem_append_right _ (List.mem_append_right _ hd)

/-- A dollar sign stands between two substituted names. -/
theorem pairwise_inFront : subs.Pairwise fun s t => InFront s.name t.name := by
  induction h with
  | nil => exact .nil
  | skip _ ih => exact ih (List.pairwise_cons.mp ordered).2
  | @found p brace rest s subs _ _ next ih =>
      -- Behind the first name, each further one has a dollar sign of its own.
      have hrest := (List.pairwise_append.mp (List.pairwise_cons.mp ordered).2).2.1
      obtain ⟨-, hbehind, hfront⟩ := List.pairwise_append.mp hrest
      refine .cons (fun t ht p hp q hq => ?_) (ih hbehind)
      obtain ⟨d, hd, -, hdq⟩ := next.exists_dollar hbehind ht
      have hpd := hfront p hp d hd
      have := hdq q hq
      have := d.offset_lt_stop
      omega

end Substitution.Found

/-! ## Mentions of an instruction -/

namespace Instruction

variable {inst : Instruction} (ordered : inst.region.chars.Pairwise fun p q => p.stop ≤ q.offset)

include ordered

theorem arguments_inFront :
    inst.arguments.Pairwise fun a b => InFront a.content.chars b.content.chars :=
  Argument.splitFrom_inFront ordered

theorem arguments_detached :
    inst.arguments.Pairwise fun a b => Detached a.content.chars b.content.chars :=
  (arguments_inFront ordered).imp .inl

theorem argument_ordered {arg : Argument} (h : arg ∈ inst.arguments) :
    arg.content.chars.Pairwise fun p q => p.stop ≤ q.offset :=
  ordered.sublist (Argument.infix_of_mem_splitFrom h).sublist

theorem effective_ordered :
    inst.effective.region.chars.Pairwise fun p q => p.stop ≤ q.offset :=
  ordered.sublist inst.effective_region_suffix.sublist

theorem substituted_inFront : (VariableReference.substituted inst).Pairwise InFront := by
  have hpieces := inst.substituted_pieces
  have hargs := arguments_inFront ordered
  generalize VariableReference.substituted inst = pieces at hpieces
  generalize inst.arguments = args at hpieces hargs
  induction hpieces with
  | nil => exact .nil
  | cons hpiece hrest ih =>
      obtain ⟨hfirst, hargs⟩ := List.pairwise_cons.mp hargs
      refine .cons (fun other hother => ?_) (ih hargs)
      obtain ⟨arg, harg, hsuffix⟩ := exists_of_forall₂ hrest.flip hother
      exact (hfirst arg harg).mono hpiece.subset (List.IsSuffix.subset hsuffix)

theorem uses_inFront : inst.uses.Pairwise fun s t => InFront s.name t.name := by
  have heffective := effective_ordered ordered
  refine List.pairwise_flatMap.mpr ⟨fun piece hpiece => ?_, ?_⟩
  · obtain ⟨arg, harg, hsuffix⟩ := exists_argument_of_piece hpiece
    exact (Substitution.scanFrom_found _ false piece).pairwise_inFront
      ((argument_ordered heffective harg).sublist hsuffix.sublist)
  · refine (substituted_inFront heffective).imp fun hab s hs t ht => ?_
    exact hab.mono ((Substitution.scanFrom_found _ false _).infix_of_mem hs).subset
      ((Substitution.scanFrom_found _ false _).infix_of_mem ht).subset

/-- Between what an argument declares and what it substitutes stands its equals sign. -/
theorem name_inFront_value {arg : Argument} (h : arg ∈ inst.arguments) :
    InFront (Property.ofArgument arg).name.chars (VariableReference.substitutedValue arg) := by
  have hordered := argument_ordered ordered h
  rw [← @List.takeWhile_append_dropWhile _ (fun p : Placed => p.char != '=') arg.content.chars]
    at hordered
  rw [name_ofArgument, substitutedValue_eq]
  cases hrest : arg.content.chars.dropWhile fun p => p.char != '=' with
  | nil => exact fun _ _ _ hq => nomatch hq
  | cons equals rest =>
      rw [hrest] at hordered
      exact inFront_of_ordered hordered

theorem mentions_detached : inst.mentions.Pairwise Detached := by
  refine mentions_separated separation_detached (arguments_detached ordered) ?_ ?_
  · exact fun arg harg => .inl (name_inFront_value ordered harg)
  · exact List.pairwise_map.mpr ((uses_inFront ordered).imp .inl)

theorem stageMentions_detached : inst.stageMentions.Pairwise Detached :=
  stageMentions_separated separation_detached (arguments_detached ordered)

omit ordered in
theorem kind_of_mem_stageMentions {v : List Placed} (h : v ∈ inst.stageMentions) :
    inst.kind = some .FROM ∨ inst.kind = some .COPY := by
  by_cases hfrom : inst.isKind .FROM = true
  · exact .inl (eq_of_beq hfrom)
  · rw [stageMentions, stageName?, sources, if_neg hfrom, if_neg hfrom] at h
    by_cases hcopy : inst.isKind .COPY = true
    · exact .inr (eq_of_beq hcopy)
    · rw [if_neg hcopy] at h
      cases h

/-- What is substituted in an argument that names a stage stands behind a dollar sign of the name. -/
theorem bears_clearOfStart {arg : Argument} (harg : arg ∈ inst.arguments) {v : List Placed}
    (hv : inst.Bears arg v) {piece : List Placed} (hpiece : piece <:+ arg.content.chars)
    {s : Substitution} (hs : s ∈ Substitution.scan inst.escape piece) : ClearOfStart v s.name := by
  obtain ⟨-, mark, hchars, hmark⟩ := hv
  have hordered := argument_ordered ordered harg
  obtain ⟨d, hd, hdollar, hbehind⟩ := (Substitution.scanFrom_found inst.escape false
    piece).exists_dollar (hordered.sublist hpiece.sublist) hs
  -- The mark in front of the name has no dollar sign.
  have hdv : d ∈ v := by
    have hdarg := hpiece.mem hd
    rw [hchars] at hdarg
    rcases List.mem_append.mp hdarg with hd | hd
    · have hin : '$' ∈ inst.sourceMark := by
        rw [← hmark, ← hdollar]
        exact List.mem_map_of_mem hd
      unfold sourceMark at hin
      split at hin <;> simp at hin
    · exact hd
  refine .inr fun p hp q hq => ?_
  obtain ⟨rest, rfl⟩ := List.head?_eq_some_iff.mp hp
  have hle : p.offset ≤ d.offset := by
    rw [hchars] at hordered
    rcases List.mem_cons.mp hdv with rfl | hd
    · exact Nat.le_refl _
    · have := (List.pairwise_cons.mp (List.pairwise_append.mp hordered).2.1).1 d hd
      have := p.offset_lt_stop
      omega
  have := hbehind q hq
  have := d.offset_lt_stop
  omega

theorem mentions_clearOfStart {v : List Placed} (hv : v ∈ inst.stageMentions) {m : List Placed}
    (hm : m ∈ inst.mentions) : ClearOfStart v m := by
  have hkind := kind_of_mem_stageMentions hv
  rcases List.mem_append.mp hm with hm | hm
  · -- What mentions a stage declares no variable.
    obtain ⟨p, hp, -⟩ := List.mem_map.mp hm
    have hdeclares := (mem_properties_of_mem_declared hp).2.2
    rcases hkind with hkind | hkind <;> simp [hkind] at hdeclares
  · obtain ⟨s, hs, rfl⟩ := List.mem_map.mp hm
    obtain ⟨piece, hpiece, hs⟩ := List.mem_flatMap.mp hs
    have heffective : inst.effective = inst := by
      rcases hkind with hkind | hkind
      · exact effective_of_kind hkind (by decide)
      · exact effective_of_kind hkind (by decide)
    rw [heffective] at hpiece hs
    obtain ⟨a, ha, hbears⟩ := exists_bearer hv
    obtain ⟨b, hb, hsuffix⟩ := exists_argument_of_piece hpiece
    by_cases hab : a = b
    · subst hab
      exact bears_clearOfStart ordered ha hbears hsuffix hs
    · have hargs := separation_detached.of_ne (arguments_detached ordered) ha hb hab
      have hname := ((Substitution.scanFrom_found _ false piece).infix_of_mem hs).subset
      exact (separation_detached.mono hargs hbears.subset
        (List.Subset.trans hname hsuffix.subset)).clearOfStart

end Instruction

/-! ## Mentions of a file -/

namespace File

variable {text : Text}

theorem mentions_detached (text : Text) :
    (mentions text).Pairwise fun a b => Detached a.chars b.chars :=
  (mentioned text).pairwise Or.symm .inl fun _ hinst =>
    Instruction.mentions_detached (region_ordered hinst)

theorem stageMentions_detached (text : Text) :
    (stageMentions text).Pairwise fun a b => Detached a.chars b.chars :=
  (stages_mentioned text).pairwise Or.symm .inl fun _ hinst =>
    Instruction.stageMentions_detached (region_ordered hinst)

theorem stage_start_clear {m : Mention} (hm : m ∈ mentions text) {v : StageMention}
    (hv : v ∈ stageMentions text) :
    (Placed.reach m.chars).stop < (Placed.reach v.chars).start ∨
      (Placed.reach v.chars).start < (Placed.reach m.chars).start := by
  have hmne := (mentioned text).nonempty hm
  have hvne := (stages_mentioned text).nonempty hv
  obtain ⟨inst, hinst, hm⟩ := (mentioned text).exists_instruction hm
  obtain ⟨other, hother, hv⟩ := (stages_mentioned text).exists_instruction hv
  refine ClearOfStart.reach ?_ hvne hmne
  by_cases hsame : other = inst
  · subst hsame
    exact Instruction.mentions_clearOfStart (region_ordered hinst) hv hm
  · have hmi : m.chars ⊆ inst.chars := fun p hp =>
      List.mem_append_right _ ((Instruction.infix_of_mem_mentions hm).2.mem hp)
    have hvi : v.chars ⊆ other.chars := fun p hp =>
      List.mem_append_right _ ((Instruction.infix_of_mem_stageMentions hv).2.mem hp)
    have hinsts : (parse text).instructions.Pairwise fun a b => Detached a.chars b.chars :=
      (instructions_separated text).imp .inl
    have happart := separation_detached.of_ne hinsts hother hinst hsame
    exact (separation_detached.mono happart hvi hmi).clearOfStart

end File

end Dockerfile
