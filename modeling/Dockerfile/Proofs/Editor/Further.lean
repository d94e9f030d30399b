import Dockerfile.Proofs.Body.Physical
import Dockerfile.Proofs.Editor.Extent

/-!
# The further lines of instructions, line by line

Whether a line is a further line of an instruction can be told from what is open in front of it and
from what is kept behind (`Body.isFurther`), without any offset. A layout finds the same lines by the
places of instructions (`Layout.isContinued_eq`), so what it does can be followed from line to line.
-/

namespace Dockerfile

/-- The same core, and a terminator or none in both. -/
structure Line.Alike (line line' : Line) : Prop where
  core : line'.core = line.core
  ends : line'.terminator.isEmpty = line.terminator.isEmpty

namespace Line.Alike

variable {line line' : Line}

theorem isContent_eq (h : line.Alike line') : line'.isContent = line.isContent := by
  simp only [isContent, isComment, h.core]

theorem isSkipped_eq (h : line.Alike line') : line'.isSkipped = line.isSkipped := by
  simp only [isSkipped, isComment, h.core, h.ends]

theorem goesOn_eq (h : line.Alike line') (escape : Char) :
    line'.goesOn escape = line.goesOn escape := by
  simp only [goesOn, beforeContinuation?, h.core, h.ends]

theorem kept_eq (h : line.Alike line') (escape : Char) : line'.kept escape = line.kept escape := by
  simp only [kept, beforeContinuation?, h.core, h.ends]

end Line.Alike

namespace Body

/-- What a logical line that is open in front of these lines keeps of them. -/
def keptFrom (escape : Char) : List Line → List Placed
  | [] => []
  | line :: lines =>
      if line.isSkipped then keptFrom escape lines
      else
        Text.place line.start (line.indent ++ line.kept escape) ++
          if line.goesOn escape then keptFrom escape lines else []

def startsNamed (kept : List Placed) : Bool :=
  kept.head?.any fun p => !isBlank p.char

def isFurther (escape : Char) (opened : Option (List Placed)) (lines : List Line) : Bool :=
  opened.any startsNamed && !(keptFrom escape lines).isEmpty

section Lines

variable {escape : Char} {opened : Option (List Placed)} {line : Line} {lines : List Line}
  {kept : List Placed} {bound : Nat}

theorem beforeEscape?_prefix {text front : Text} (h : Text.beforeEscape? escape text = some front) :
    front <+: text := by
  induction text generalizing front with
  | nil => cases h
  | cons c text ih =>
      unfold Text.beforeEscape? at h
      split at h
      · cases h
        exact List.nil_prefix
      · obtain ⟨front', hfront, rfl⟩ := Option.map_eq_some_iff.mp h
        exact (List.prefix_cons_inj c).mpr (ih hfront)

theorem kept_prefix (escape : Char) (line : Line) : line.kept escape <+: line.core := by
  unfold Line.kept Line.beforeContinuation?
  split
  · exact List.prefix_rfl
  · cases h : Text.beforeEscape? escape line.core with
    | none => exact List.prefix_rfl
    | some front => exact beforeEscape?_prefix h

theorem stop_le_of_mem_kept {p : Placed}
    (hp : p ∈ Text.place line.start (line.indent ++ line.kept escape)) :
    line.start ≤ p.offset ∧ p.stop ≤ line.stop := by
  obtain ⟨tail, htail⟩ := kept_prefix escape line
  have hlen : Text.byteLength line.content =
      Text.byteLength (line.indent ++ line.kept escape) + Text.byteLength tail := by
    rw [← Text.byteLength_append, List.append_assoc, htail, line.indent_append_core]
  have hplace := Text.offset_of_mem_place hp
  unfold Line.stop
  omega

theorem mem_extended? (h : extended? escape opened line = some kept) {p : Placed} (hp : p ∈ kept) :
    (∃ before, opened = some before ∧ p ∈ before) ∨ line.start ≤ p.offset ∧ p.stop ≤ line.stop := by
  have hmem := @Text.place_append line.start line.indent (line.kept escape)
  unfold extended? at h
  cases opened with
  | none =>
      simp only at h
      split at h
      · cases h
        right
        apply @stop_le_of_mem_kept escape
        rw [hmem]
        exact List.mem_append_right _ hp
      · cases h
  | some before =>
      simp only at h
      split at h
      · cases h
      · cases h
        rcases List.mem_append.mp hp with hp | hp
        · exact .inl ⟨before, rfl, hp⟩
        · exact .inr (stop_le_of_mem_kept hp)

/-- Lines in front of `bound` leave behind logical lines in front of it: some that they end, and the
one that is open. -/
theorem exists_runs_append {front : List Line} (hfront : ∀ l ∈ front, l.stop ≤ bound)
    (hopened : ∀ kept ∈ opened, ∀ p ∈ kept, p.stop ≤ bound) (lines : List Line) :
    (∃ closed, runs escape opened (front ++ lines) =
        closed ++ runs escape (standing escape opened front) lines ∧
      ∀ run ∈ closed, ∀ p ∈ run, p.stop ≤ bound) ∧
      ∀ kept ∈ standing escape opened front, ∀ p ∈ kept, p.stop ≤ bound := by
  induction front generalizing opened with
  | nil => exact ⟨⟨[], rfl, by simp⟩, hopened⟩
  | cons line front ih =>
      have hextended : ∀ kept, extended? escape opened line = some kept →
          ∀ p ∈ kept, p.stop ≤ bound := by
        intro kept hkept p hp
        rcases mem_extended? hkept hp with ⟨before, hbefore, hp⟩ | ⟨-, hstop⟩
        · exact hopened before hbefore p hp
        · exact Nat.le_trans hstop (hfront line List.mem_cons_self)
      have hopen : ∀ kept ∈ openAfter escape opened line, ∀ p ∈ kept, p.stop ≤ bound := by
        intro kept hkept
        unfold openAfter at hkept
        cases hline : extended? escape opened line with
        | none =>
            rw [hline] at hkept
            exact hopened kept hkept
        | some after =>
            simp only [hline] at hkept
            split at hkept
            · cases Option.mem_some.mp hkept
              exact hextended _ hline
            · cases hkept
      have hclosed : ∀ run ∈ closedBy escape opened line, ∀ p ∈ run, p.stop ≤ bound := by
        intro run hrun
        unfold closedBy at hrun
        cases hline : extended? escape opened line with
        | none => simp [hline] at hrun
        | some after =>
            simp only [hline] at hrun
            split at hrun
            · cases hrun
            · rw [List.mem_singleton.mp hrun]
              exact hextended _ hline
      obtain ⟨⟨closed, hruns, hbound⟩, hstanding⟩ :=
        ih (fun l hl => hfront l (List.mem_cons_of_mem _ hl)) hopen
      refine ⟨⟨closedBy escape opened line ++ closed, ?_, ?_⟩, hstanding⟩
      · rw [List.cons_append, runs, hruns, List.append_assoc]
        rfl
      · intro run hrun
        rcases List.mem_append.mp hrun with hrun | hrun
        · exact hclosed run hrun
        · exact hbound run hrun

theorem le_offset_of_mem_keptFrom (hlines : ∀ l ∈ lines, bound ≤ l.start) :
    ∀ p ∈ keptFrom escape lines, bound ≤ p.offset := by
  induction lines with
  | nil => simp [keptFrom]
  | cons line lines ih =>
      have ih := ih fun l hl => hlines l (List.mem_cons_of_mem _ hl)
      intro p hp
      unfold keptFrom at hp
      split at hp
      · exact ih p hp
      · rcases List.mem_append.mp hp with hp | hp
        · exact Nat.le_trans (hlines line List.mem_cons_self) (stop_le_of_mem_kept hp).1
        · split at hp
          · exact ih p hp
          · cases hp

/-- Lines from `bound` on add characters from `bound` on: those that an open logical line still
keeps, and those of the logical lines that begin there. -/
theorem exists_runs_open (hlines : ∀ l ∈ lines, bound ≤ l.start) :
    (∀ run ∈ runs escape none lines, ∀ p ∈ run, bound ≤ p.offset) ∧
      ∀ kept, ∃ later, runs escape (some kept) lines = (kept ++ keptFrom escape lines) :: later ∧
        ∀ run ∈ later, ∀ p ∈ run, bound ≤ p.offset := by
  induction lines with
  | nil => exact ⟨by simp [runs], fun kept => ⟨[], by simp [runs, keptFrom]⟩⟩
  | cons line lines ih =>
      have htail : ∀ l ∈ lines, bound ≤ l.start := fun l hl => hlines l (List.mem_cons_of_mem _ hl)
      obtain ⟨houtside, hinside⟩ := ih htail
      constructor
      · cases hline : extended? escape none line with
        | none =>
            rw [runs_of_passed hline]
            exact houtside
        | some first =>
            have hfirst : ∀ p ∈ first, bound ≤ p.offset := by
              intro p hp
              rcases mem_extended? hline hp with ⟨before, hbefore, -⟩ | ⟨hle, -⟩
              · cases hbefore
              · exact Nat.le_trans (hlines line List.mem_cons_self) hle
            rw [runs_of_extended hline]
            intro run hrun
            split at hrun
            · obtain ⟨later, hlater, hbound⟩ := hinside first
              rw [hlater] at hrun
              rcases List.mem_cons.mp hrun with rfl | hrun
              · intro p hp
                rcases List.mem_append.mp hp with hp | hp
                · exact hfirst p hp
                · exact le_offset_of_mem_keptFrom htail p hp
              · exact hbound run hrun
            · rcases List.mem_cons.mp hrun with rfl | hrun
              · exact hfirst
              · exact houtside run hrun
      · intro kept
        unfold keptFrom
        by_cases hskip : line.isSkipped = true
        · have hpassed : extended? escape (some kept) line = none := by simp [extended?, hskip]
          rw [runs_of_passed hpassed, if_pos hskip]
          exact hinside kept
        · have hline : extended? escape (some kept) line =
              some (kept ++ Text.place line.start (line.indent ++ line.kept escape)) := by
            simp [extended?, hskip]
          rw [runs_of_extended hline, if_neg hskip]
          split
          · rw [← List.append_assoc]
            exact hinside _
          · rw [List.append_nil]
            exact ⟨_, rfl, houtside⟩

/-- The logical line that is open at `bound` is the one that keeps characters on both sides of it. -/
theorem mem_runs_of_standing {front : List Line} (hstanding : standing escape none front = some kept)
    (hfront : ∀ l ∈ front, l.stop ≤ bound) (hlines : ∀ l ∈ lines, bound ≤ l.start) :
    kept ++ keptFrom escape lines ∈ runs escape none (front ++ lines) ∧
      (∀ p ∈ kept, p.stop ≤ bound) ∧ ∀ q ∈ keptFrom escape lines, bound ≤ q.offset := by
  obtain ⟨⟨closed, hruns, -⟩, hkept⟩ :=
    @exists_runs_append escape none bound front hfront (by simp) lines
  obtain ⟨later, hlater, -⟩ := (@exists_runs_open escape lines bound hlines).2 kept
  refine ⟨?_, hkept kept hstanding, le_offset_of_mem_keptFrom hlines⟩
  rw [hruns, hstanding, hlater]
  simp

theorem exists_standing_of_mem_runs {front : List Line} {run : List Placed}
    (hrun : run ∈ runs escape none (front ++ lines))
    (hfront : ∀ l ∈ front, l.stop ≤ bound) (hlines : ∀ l ∈ lines, bound ≤ l.start) {p q : Placed}
    (hp : p ∈ run) (hlt : p.offset < bound) (hq : q ∈ run) (hle : bound ≤ q.offset) :
    ∃ kept, standing escape none front = some kept ∧ run = kept ++ keptFrom escape lines ∧
      p ∈ kept ∧ q ∈ keptFrom escape lines := by
  obtain ⟨⟨closed, hruns, hclosed⟩, hkept⟩ :=
    @exists_runs_append escape none bound front hfront (by simp) lines
  obtain ⟨houtside, hinside⟩ := @exists_runs_open escape lines bound hlines
  have hcross : run ∈ runs escape (standing escape none front) lines := by
    rw [hruns] at hrun
    rcases List.mem_append.mp hrun with hrun | hrun
    · have := hclosed run hrun q hq
      have := q.offset_lt_stop
      omega
    · exact hrun
  cases hopen : standing escape none front with
  | none =>
      rw [hopen] at hcross
      have := houtside run hcross p hp
      omega
  | some kept =>
      obtain ⟨later, hlater, hbound⟩ := hinside kept
      rw [hopen, hlater] at hcross
      rcases List.mem_cons.mp hcross with rfl | hcross
      · refine ⟨kept, rfl, rfl, ?_, ?_⟩
        · rcases List.mem_append.mp hp with hp | hp
          · exact hp
          · have := le_offset_of_mem_keptFrom hlines p hp
            omega
        · rcases List.mem_append.mp hq with hq | hq
          · have := hkept kept hopen q hq
            have := q.offset_lt_stop
            omega
          · exact hq
      · have := hbound run hcross p hp
        omega

/-- The first of `lines` is a further line of an instruction if some logical line with a keyword
keeps characters in front of it and from it on. -/
theorem isFurther_iff {front : List Line} (hfront : ∀ l ∈ front, l.stop ≤ bound)
    (hlines : ∀ l ∈ lines, bound ≤ l.start) :
    isFurther escape (standing escape none front) lines = true ↔
      ∃ run ∈ runs escape none (front ++ lines), startsNamed run = true ∧
        (∃ p ∈ run, p.offset < bound) ∧ ∃ q ∈ run, bound ≤ q.offset := by
  unfold isFurther
  constructor
  · cases hopen : standing escape none front with
    | none => simp
    | some kept =>
        rw [Option.any_some, Bool.and_eq_true]
        rintro ⟨hnamed, hne⟩
        obtain ⟨hrun, hbefore, hfrom⟩ := mem_runs_of_standing hopen hfront hlines
        obtain ⟨p, kept, rfl⟩ := List.exists_cons_of_ne_nil (show kept ≠ [] by rintro rfl; cases hnamed)
        obtain ⟨q, rest, hrest⟩ := List.exists_cons_of_ne_nil
          (show keptFrom escape lines ≠ [] by simpa using hne)
        refine ⟨_, hrun, hnamed, ⟨p, by simp, ?_⟩, q, by simp [hrest], hfrom q (by simp [hrest])⟩
        have := hbefore p List.mem_cons_self
        have := p.offset_lt_stop
        omega
  · rintro ⟨run, hrun, hnamed, ⟨p, hp, hlt⟩, q, hq, hle⟩
    obtain ⟨kept, hopen, rfl, hbefore, hbehind⟩ :=
      exists_standing_of_mem_runs hrun hfront hlines hp hlt hq hle
    obtain ⟨r, kept, rfl⟩ := List.exists_cons_of_ne_nil (List.ne_nil_of_mem hbefore)
    have hne := List.ne_nil_of_mem hbehind
    rw [hopen, Option.any_some, Bool.and_eq_true]
    exact ⟨hnamed, by simp [hne]⟩

end Lines

end Body

namespace File

variable {text front body : Text} {taken lines : List Line}

theorem chars_logicalLines (hbody : Text.Cut text front body taken lines)
    (hresume : (Directive.readAll text).2 = Text.byteLength front) :
    (logicalLines text).map Instruction.chars = Body.runs (parse text).escape none lines := by
  have hchars := Directive.bodyChars_append front body
  rw [← hbody.split] at hchars
  rw [logicalLines, hresume, hchars]
  exact Body.chars_logicalLines (escapeUnder_content _).1 _ hbody.lined

theorem isNamed_eq {line : Instruction} (h : line ∈ logicalLines text) :
    line.isNamed = Body.startsNamed line.chars := by
  obtain ⟨start, -, rfl⟩ := Body.exists_lineAt_of_mem h
  apply Bool.eq_iff_iff.mpr
  rw [Body.isNamed_lineAt_iff, Body.startsNamed]
  cases (Body.lineAt (parse text).escape (Text.byteLength text) start).chars with
  | nil => simp
  | cons p rest => simp

end File

namespace Layout

variable {text front rest body : Text} {taken before after : List Line} {line : Line}

/-- The directives, and the first line behind them, belong to no instruction. -/
theorem not_isContinued (settings : Settings)
    (hcut : Text.Cut text front rest before (line :: after))
    (hle : line.start ≤ (Directive.readAll text).2) :
    isContinued (extents (analyze text settings)) before.length = false := by
  apply Bool.eq_false_iff.mpr
  intro hcontinued
  obtain ⟨inst, hinst, ⟨p, hp, hlt⟩, -⟩ := (isContinued_iff settings hcut).mp hcontinued
  have hmem := Body.mem_of_mem_logicalLines (File.mem_logicalLines hinst) hp
  have := (Text.offset_of_mem_place hmem).1
  omega

theorem isContinued_eq (settings : Settings)
    (hbody : Text.Cut text front body taken (before ++ line :: after))
    (hresume : (Directive.readAll text).2 = Text.byteLength front) :
    isContinued (extents (analyze text settings)) (taken.length + before.length) =
      Body.isFurther (File.parse text).escape
        (Body.standing (File.parse text).escape none before) (line :: after) := by
  have hlines : Text.lines text = (taken ++ before) ++ line :: after := by
    rw [hbody.lines_eq, List.append_assoc]
  obtain ⟨_, _, hcut⟩ := Text.Cut.exists_of_lines hlines
  obtain ⟨hbefore, hafter⟩ := hbody.lined.around
  apply Bool.eq_iff_iff.mpr
  rw [← List.length_append, isContinued_iff settings hcut, Body.isFurther_iff hbefore hafter,
    ← File.chars_logicalLines hbody hresume, File.instructions_parse]
  constructor
  · rintro ⟨inst, hinst, hkept⟩
    obtain ⟨hmem, hnamed⟩ := List.mem_filter.mp hinst
    exact ⟨inst.chars, List.mem_map.mpr ⟨inst, hmem, rfl⟩, File.isNamed_eq hmem ▸ hnamed, hkept⟩
  · rintro ⟨run, hrun, hnamed, hkept⟩
    obtain ⟨inst, hmem, rfl⟩ := List.mem_map.mp hrun
    exact ⟨inst, List.mem_filter.mpr ⟨hmem, by rw [File.isNamed_eq hmem]; exact hnamed⟩, hkept⟩

end Layout

end Dockerfile
