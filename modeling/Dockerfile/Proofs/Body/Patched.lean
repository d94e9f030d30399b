import Dockerfile.Proofs.Body.Seam
import Dockerfile.Proofs.Editor.Further
import Mathlib.Data.List.Forall2
import Mathlib.Data.List.Pairwise

/-!
# Lines in place of others

Lines can be put in place of the ones that hold a part of a logical line. What the logical lines in
front and behind keep stays the same if the new lines leave a logical line open where the old ones
did (`Body.runs_of_mem`). Where one stays open that was not, the next is lost (`Body.exists_lost`).
-/

namespace Dockerfile

/-! ## Continuations -/

namespace Text

/-- The escape character in front of which `beforeEscape?` stops is the last that is not blank. -/
theorem beforeEscape?_eq_some_iff {escape : Char} (he : isBlank escape = false) {text front : Text} :
    beforeEscape? escape text = some front ↔
      ∃ blanks, text = front ++ escape :: blanks ∧ ∀ c ∈ blanks, isBlank c = true := by
  induction text generalizing front with
  | nil => simp [beforeEscape?]
  | cons c text ih =>
      unfold beforeEscape?
      by_cases hc : c = escape ∧ text.all isBlank = true
      · rw [if_pos hc, Option.some.injEq]
        obtain ⟨rfl, hall⟩ := hc
        constructor
        · rintro rfl
          exact ⟨text, rfl, List.all_eq_true.mp hall⟩
        · rintro ⟨blanks, htext, hblanks⟩
          cases front with
          | nil => rfl
          | cons d front =>
              obtain ⟨-, rfl⟩ := List.cons.inj htext
              have := List.all_eq_true.mp hall c (by simp)
              rw [he] at this
              cases this
      · rw [if_neg hc, Option.map_eq_some_iff]
        constructor
        · rintro ⟨front', hfront, rfl⟩
          obtain ⟨blanks, rfl, hblanks⟩ := ih.mp hfront
          exact ⟨blanks, rfl, hblanks⟩
        · rintro ⟨blanks, htext, hblanks⟩
          cases front with
          | nil =>
              obtain ⟨rfl, rfl⟩ := List.cons.inj htext
              exact absurd ⟨rfl, List.all_eq_true.mpr hblanks⟩ hc
          | cons d front =>
              obtain ⟨rfl, rfl⟩ := List.cons.inj htext
              exact ⟨front, ih.mpr ⟨blanks, rfl, hblanks⟩, rfl⟩

theorem beforeEscape?_of_blank {escape : Char} (he : isBlank escape = false) {text : Text}
    (h : ∀ c ∈ text, isBlank c = true) : beforeEscape? escape text = none := by
  refine Option.eq_none_iff_forall_ne_some.mpr fun front hfront => ?_
  obtain ⟨blanks, rfl, -⟩ := (beforeEscape?_eq_some_iff he).mp hfront
  have hblank := h escape (by simp)
  rw [he] at hblank
  cases hblank

/-- No continuation begins behind a character that is neither a blank nor the escape character. -/
theorem beforeEscape?_of_getLast? {escape c : Char} (he : isBlank escape = false) {text : Text}
    (hlast : text.getLast? = some c) (hblank : isBlank c = false) (hc : c ≠ escape) :
    beforeEscape? escape text = none := by
  refine Option.eq_none_iff_forall_ne_some.mpr fun front hfront => ?_
  obtain ⟨blanks, rfl, hblanks⟩ := (beforeEscape?_eq_some_iff he).mp hfront
  rw [List.getLast?_append_cons, List.getLast?_cons] at hlast
  cases hend : blanks.getLast? with
  | none =>
      rw [hend] at hlast
      exact hc (Option.some.inj hlast).symm
  | some b =>
      rw [hend] at hlast
      obtain rfl : b = c := Option.some.inj hlast
      rw [hblanks b (List.mem_of_getLast? hend)] at hblank
      cases hblank

def keptAtEnd (escape : Char) (terminator text : Text) : Text :=
  (if terminator.isEmpty then none else beforeEscape? escape text).getD text

theorem keptAtEnd_append {escape : Char} {terminator front text : Text}
    (h : terminator ≠ [] → text.all isBlank = true → beforeEscape? escape front = none) :
    keptAtEnd escape terminator (front ++ text) = front ++ keptAtEnd escape terminator text := by
  unfold keptAtEnd
  cases hterm : terminator.isEmpty with
  | true => rfl
  | false =>
      have hne : terminator ≠ [] := by simpa using hterm
      rw [if_neg (by decide), if_neg (by decide), Body.beforeEscape?_append (h hne)]
      cases beforeEscape? escape text <;> rfl

end Text

namespace Line

variable {escape : Char} {line : Line}

/-- A line with a terminator is passed over unless it has content. -/
theorem isSkipped_of_terminated (h : line.terminator ≠ []) : line.isSkipped = !line.isContent := by
  have hends : line.terminator.isEmpty = false := List.isEmpty_eq_false_iff.mpr h
  rw [isSkipped, isContent, hends, Bool.not_and, Bool.not_not, Bool.not_not, Bool.not_false,
    Bool.and_true, Bool.or_comm]

theorem goesOn_of_nil (h : line.terminator = []) : line.goesOn escape = false := by
  rw [goesOn, beforeContinuation?, h]
  rfl

theorem goesOn_eq_content (he : isBlank escape = false) (hterm : line.terminator ≠ []) :
    line.goesOn escape = (Text.beforeEscape? escape line.content).isSome := by
  by_cases hcore : line.core = []
  · rw [Text.beforeEscape?_of_blank he (List.dropWhile_eq_nil_iff.mp hcore), goesOn,
      beforeContinuation?, hcore]
    split <;> rfl
  · exact (Body.isSome_beforeEscape?_content hcore hterm).symm

theorem indent_append_kept (he : isBlank escape = false) :
    line.indent ++ line.kept escape = Text.keptAtEnd escape line.terminator line.content := by
  rw [← line.indent_append_core, Text.keptAtEnd_append]
  · rfl
  · exact fun _ _ => Text.beforeEscape?_of_blank he fun _ => line.isBlank_of_mem_indent

/-- What is kept ends in front of a continuation, so none begins in front of a character that is kept. -/
theorem beforeEscape?_of_mem_kept (he : isBlank escape = false) (hterm : line.terminator ≠ [])
    {v z : Text} {q : Placed} (hcontent : line.content = v ++ q.char :: z)
    (hoffset : q.offset = line.start + Text.byteLength v)
    (hq : q ∈ Text.place line.start (line.indent ++ line.kept escape)) (hz : z.all isBlank = true) :
    Text.beforeEscape? escape (v ++ [q.char]) = none := by
  refine Option.eq_none_iff_forall_ne_some.mpr fun front hfront => ?_
  obtain ⟨blanks, heq, hblanks⟩ := (Text.beforeEscape?_eq_some_iff he).mp hfront
  have hwhole : Text.beforeEscape? escape line.content = some front := by
    refine (Text.beforeEscape?_eq_some_iff he).mpr ⟨blanks ++ z, ?_, fun c hc => ?_⟩
    · rw [hcontent, List.append_cons, heq, List.append_assoc, List.cons_append]
    · exact (List.mem_append.mp hc).elim (hblanks c) (List.all_eq_true.mp hz c)
  -- The escape character would stand at or in front of the one that is kept.
  have hbefore := (Text.offset_of_mem_place hq).2
  have hsize := congrArg Text.byteLength heq
  rw [indent_append_kept he, Text.keptAtEnd, if_neg (by simpa using hterm), hwhole,
    Option.getD_some] at hbefore
  have := escape.utf8Size_pos
  simp only [Text.byteLength_append, Text.byteLength_cons, Text.byteLength_nil, Placed.stop,
    Placed.size] at hbefore hsize
  omega

theorem goesOn_of_mem_kept (he : isBlank escape = false) (hterm : line.terminator ≠ []) {v z : Text}
    {q : Placed} (hcontent : line.content = v ++ q.char :: z)
    (hoffset : q.offset = line.start + Text.byteLength v)
    (hq : q ∈ Text.place line.start (line.indent ++ line.kept escape)) :
    line.goesOn escape = (Text.beforeEscape? escape z).isSome := by
  rw [goesOn_eq_content he hterm, hcontent, List.append_cons,
    Body.beforeEscape?_append (beforeEscape?_of_mem_kept he hterm hcontent hoffset hq),
    Option.isSome_map]

theorem indent_append_kept_of_mem (he : isBlank escape = false) {v z : Text} {q : Placed}
    (hcontent : line.content = v ++ q.char :: z)
    (hoffset : q.offset = line.start + Text.byteLength v)
    (hq : q ∈ Text.place line.start (line.indent ++ line.kept escape)) :
    line.indent ++ line.kept escape = v ++ q.char :: Text.keptAtEnd escape line.terminator z := by
  rw [indent_append_kept he, hcontent, List.append_cons, Text.keptAtEnd_append, List.append_assoc,
    List.singleton_append]
  exact fun hterm hz => beforeEscape?_of_mem_kept he hterm hcontent hoffset hq hz

end Line

/-- The character belongs to what the line adds to a logical line: its indentation and what is kept of
the rest. -/
structure Line.Adds (escape : Char) (line : Line) (p : Placed) : Prop where
  not_comment : line.isComment = false
  kept : p ∈ Text.place line.start (line.indent ++ line.kept escape)

/-- The same content, and a terminator or none in both. -/
structure Line.Same (line line' : Line) : Prop extends line.Alike line' where
  indent : line'.indent = line.indent

theorem Line.Same.of_content {line line' : Line} (h : line'.content = line.content)
    (ends : line'.terminator.isEmpty = line.terminator.isEmpty) : line.Same line' :=
  ⟨⟨congrArg (List.dropWhile isBlank) h, ends⟩, congrArg (List.takeWhile isBlank) h⟩

theorem Lined.same {start : Nat} {text : Text} {lines : List Line} (h : Lined start text lines)
    (start' : Nat) : List.Forall₂ Line.Same lines (Text.linesFrom start' start' text) := by
  induction h generalizing start' with
  | last start clean =>
      rw [Text.linesFrom_last clean]
      exact .cons (.of_content rfl rfl) .nil
  | cons clean ends _ ih =>
      rw [Text.linesFrom_line clean ends]
      exact .cons (.of_content rfl rfl) (ih _)

namespace Body

variable {escape : Char} {opened opened' : Option (List Placed)} {line line' : Line}
  {lines lines' : List Line}

/-! ## Texts of logical lines -/

section Same

theorem text_extended?_congr (h : line.Same line')
    (hopened : opened'.map Placed.text = opened.map Placed.text) :
    (extended? escape opened' line').map Placed.text =
      (extended? escape opened line).map Placed.text := by
  cases opened with
  | none =>
      obtain rfl : opened' = none := Option.map_eq_none_iff.mp hopened
      simp only [extended?, h.isContent_eq, h.kept_eq]
      split <;> simp
  | some kept =>
      obtain ⟨kept', rfl, htext⟩ := Option.map_eq_some_iff.mp hopened
      simp only [extended?, h.isSkipped_eq, h.kept_eq, h.indent]
      split <;> simp [htext]

/-- What logical lines keep does not depend on where they stand. -/
theorem text_runs_congr (h : List.Forall₂ Line.Same lines lines')
    (hopened : opened'.map Placed.text = opened.map Placed.text) :
    (runs escape opened' lines').map Placed.text = (runs escape opened lines).map Placed.text := by
  induction h generalizing opened opened' with
  | nil => simp only [runs, ← Option.toList_map, hopened]
  | @cons line line' lines lines' hline _ ih =>
      have hextended := @text_extended?_congr escape opened opened' line line' hline hopened
      cases hkept : extended? escape opened line with
      | none =>
          rw [hkept] at hextended
          rw [runs_of_passed hkept, runs_of_passed (Option.map_eq_none_iff.mp hextended)]
          exact ih hopened
      | some kept =>
          rw [hkept] at hextended
          obtain ⟨kept', hkept', htext⟩ := Option.map_eq_some_iff.mp hextended
          rw [runs_of_extended hkept, runs_of_extended hkept', hline.goesOn_eq]
          split
          · exact ih (congrArg some htext)
          · rw [List.map_cons, List.map_cons, htext, ih rfl]

end Same

/-! ## What lies in front and behind -/

def laterRuns (escape : Char) : List Line → List (List Placed)
  | [] => []
  | line :: lines =>
      if line.isSkipped || line.goesOn escape then laterRuns escape lines
      else runs escape none lines

theorem runs_some (kept : List Placed) (lines : List Line) :
    runs escape (some kept) lines = (kept ++ keptFrom escape lines) :: laterRuns escape lines := by
  induction lines generalizing kept with
  | nil => simp [runs, keptFrom, laterRuns]
  | cons line lines ih =>
      by_cases hskip : line.isSkipped = true
      · have hpassed : extended? escape (some kept) line = none := by simp [extended?, hskip]
        rw [runs_of_passed hpassed, ih]
        simp [keptFrom, laterRuns, hskip]
      · have hkept : extended? escape (some kept) line =
            some (kept ++ Text.place line.start (line.indent ++ line.kept escape)) := by
          simp [extended?, hskip]
        rw [runs_of_extended hkept]
        split
        · rename_i hgoes
          rw [ih]
          simp [keptFrom, laterRuns, hskip, hgoes]
        · rename_i hgoes
          simp [keptFrom, laterRuns, hskip, hgoes]

/-- The logical lines that begin behind a line, which may leave one open. -/
def behind (escape : Char) (goesOn : Bool) (lines : List Line) : List (List Placed) :=
  if goesOn then laterRuns escape lines else runs escape none lines

theorem text_behind_congr (h : List.Forall₂ Line.Same lines lines') (goesOn : Bool) :
    (behind escape goesOn lines').map Placed.text = (behind escape goesOn lines).map Placed.text := by
  unfold behind
  split
  · have hruns := @text_runs_congr escape (some []) (some []) lines lines' h rfl
    rw [runs_some, runs_some, List.map_cons, List.map_cons] at hruns
    exact (List.cons.inj hruns).2
  · exact text_runs_congr h rfl

theorem behind_nil (goesOn : Bool) : behind escape goesOn [] = [] := by
  cases goesOn <;> rfl

def lead (opened : Option (List Placed)) (line : Line) : List Placed :=
  match opened with
  | none => []
  | some kept => kept ++ Text.place line.start line.indent

theorem eq_of_extended? {kept : List Placed} (h : extended? escape opened line = some kept) :
    kept = lead opened line ++
      Text.place (line.start + Text.byteLength line.indent) (line.kept escape) := by
  cases opened with
  | none =>
      rw [extended?, Option.ite_none_right_eq_some] at h
      exact (Option.some.inj h.2).symm
  | some before =>
      rw [extended?, Option.ite_none_left_eq_some] at h
      rw [← Option.some.inj h.2, Text.place_append, lead, List.append_assoc]

/-- What a logical line keeps of the lines behind a line, which may leave it open. -/
def further (escape : Char) (goesOn : Bool) (lines : List Line) : List Placed :=
  if goesOn then keptFrom escape lines else []

theorem text_further_congr (h : List.Forall₂ Line.Same lines lines') (goesOn : Bool) :
    Placed.text (further escape goesOn lines') = Placed.text (further escape goesOn lines) := by
  unfold further
  split
  · have hruns := @text_runs_congr escape (some []) (some []) lines lines' h rfl
    rw [runs_some, runs_some, List.map_cons, List.map_cons] at hruns
    exact (List.cons.inj hruns).1
  · rfl

/-- A line that a logical line keeps a part of gives that logical line, and what begins behind. -/
theorem runs_cons {kept : List Placed} (h : extended? escape opened line = some kept)
    (lines : List Line) :
    runs escape opened (line :: lines) =
      (kept ++ further escape (line.goesOn escape) lines) ::
        behind escape (line.goesOn escape) lines := by
  rw [runs_of_extended h]
  unfold behind further
  split
  · exact runs_some kept lines
  · rw [List.append_nil]

def ended (escape : Char) (opened : Option (List Placed)) : List Line → List (List Placed)
  | [] => []
  | line :: lines => closedBy escape opened line ++ ended escape (openAfter escape opened line) lines

theorem runs_append (opened : Option (List Placed)) (front lines : List Line) :
    runs escape opened (front ++ lines) =
      ended escape opened front ++ runs escape (standing escape opened front) lines := by
  induction front generalizing opened with
  | nil => rfl
  | cons line front ih => simp only [List.cons_append, runs, ended, ih, List.append_assoc]; rfl

theorem standing_append (opened : Option (List Placed)) (front lines : List Line) :
    standing escape opened (front ++ lines) = standing escape (standing escape opened front) lines :=
  List.foldl_append

theorem ended_eq_nil {front : List Line}
    (h : ∀ n, 0 < n → n ≤ front.length → (standing escape opened (front.take n)).isSome) :
    ended escape opened front = [] := by
  induction front generalizing opened with
  | nil => rfl
  | cons line front ih =>
      have hfirst : (openAfter escape opened line).isSome := h 1 (by omega) (by simp)
      have hclosed : closedBy escape opened line = [] := by
        unfold closedBy
        unfold openAfter at hfirst
        cases hkept : extended? escape opened line with
        | none => rfl
        | some kept =>
            simp only [hkept] at hfirst ⊢
            split
            · rfl
            · rename_i hgoes
              simp [hgoes] at hfirst
      rw [ended, hclosed, List.nil_append]
      refine ih fun n hn hle => ?_
      exact h (n + 1) (by omega) (by simpa using hle)

theorem isSome_extended?_of_isContent (h : line.isContent = true) :
    (extended? escape opened line).isSome := by
  cases opened with
  | none => simp [extended?, h]
  | some kept =>
      have hskip : line.isSkipped = false := by
        cases hskip : line.isSkipped with
        | false => rfl
        | true => rw [Line.isContent_of_isSkipped hskip] at h; cases h
      simp [extended?, hskip]

theorem runs_of_skipped {gone : List Line} (h : ∀ l ∈ gone, l.isSkipped = true)
    (kept : List Placed) (lines : List Line) :
    runs escape (some kept) (gone ++ lines) = runs escape (some kept) lines := by
  induction gone with
  | nil => rfl
  | cons line gone ih =>
      rw [List.cons_append, runs_of_passed (by simp [extended?, h line List.mem_cons_self])]
      exact ih fun l hl => h l (List.mem_cons_of_mem _ hl)

/-- A logical line that is open takes the first one behind it in. -/
theorem laterRuns_eq_tail {start : Nat} {text : Text} (h : Lined start text lines) :
    laterRuns escape lines = (runs escape none lines).tail := by
  induction h with
  | @last start content clean =>
      have hgoes : Line.goesOn escape ⟨start, content, []⟩ = false := Line.goesOn_of_nil rfl
      cases hkept : extended? escape none ⟨start, content, []⟩ with
      | none =>
          rw [runs_of_passed hkept]
          simp [laterRuns, hgoes, runs]
      | some kept =>
          rw [runs_of_extended hkept]
          simp [laterRuns, hgoes, runs]
  | @cons start content terminator rest lines clean ends next ih =>
      have hskip := @Line.isSkipped_of_terminated ⟨start, content, terminator⟩ ends.ne_nil
      cases hcontent : Line.isContent ⟨start, content, terminator⟩ with
      | true =>
          obtain ⟨kept, hkept⟩ := Option.isSome_iff_exists.mp
            (@isSome_extended?_of_isContent escape none _ hcontent)
          rw [runs_cons hkept, List.tail_cons, laterRuns, hskip, hcontent, behind]
          rfl
      | false =>
          rw [runs_of_passed (by simp [extended?, hcontent]), laterRuns, hskip, hcontent, ih]
          rfl

/-- If a logical line goes on now, at most the one behind it is lost, and only where it did not go on
before. -/
theorem exists_lost (h : lines = [] ∨ ∃ start text, Lined start text lines) {goesOn : Bool}
    {lost : List Placed → Prop}
    (hlost : goesOn = false → ∀ run ∈ (runs escape none lines).head?, lost run) :
    ∃ dropped, behind escape goesOn lines = dropped ++ behind escape true lines ∧
      ∀ run ∈ dropped, lost run := by
  cases goesOn with
  | true => exact ⟨[], rfl, by simp⟩
  | false =>
      refine ⟨(runs escape none lines).head?.toList, ?_, ?_⟩
      · rcases h with rfl | ⟨start, text, hlined⟩
        · rfl
        · show runs escape none lines = _ ++ laterRuns escape lines
          rw [laterRuns_eq_tail hlined]
          cases runs escape none lines <;> rfl
      · intro run hrun
        exact hlost rfl run (by simpa using hrun)

/-! ## Where characters come from -/

theorem adds_of_extended? {kept : List Placed} (h : extended? escape opened line = some kept)
    {p : Placed} (hp : p ∈ kept) : (∃ before ∈ opened, p ∈ before) ∨ line.Adds escape p := by
  unfold extended? at h
  cases opened with
  | none =>
      simp only at h
      split at h
      · rename_i hcontent
        cases h
        refine .inr ⟨?_, ?_⟩
        · unfold Line.isContent at hcontent
          simp_all
        · rw [Text.place_append]
          exact List.mem_append_right _ hp
      · cases h
  | some before =>
      simp only at h
      split at h
      · cases h
      · rename_i hskip
        cases h
        rcases List.mem_append.mp hp with hp | hp
        · exact .inl ⟨before, rfl, hp⟩
        · refine .inr ⟨?_, hp⟩
          unfold Line.isSkipped at hskip
          simp_all

theorem mem_runs {run : List Placed} (h : run ∈ runs escape opened lines) {p : Placed}
    (hp : p ∈ run) : (∃ before ∈ opened, p ∈ before) ∨
      ∃ l ∈ lines, l.Adds escape p := by
  induction lines generalizing opened with
  | nil => exact .inl ⟨run, Option.mem_toList.mp h, hp⟩
  | cons line lines ih =>
      have hthere : (∃ before ∈ extended? escape opened line, p ∈ before) →
          (∃ before ∈ opened, p ∈ before) ∨
            ∃ l ∈ line :: lines, l.Adds escape p := by
        rintro ⟨kept, hkept, hp⟩
        exact (adds_of_extended? hkept hp).imp_right fun h => ⟨line, List.mem_cons_self, h⟩
      have hlater : (∃ l ∈ lines, l.Adds escape p) →
          ∃ l ∈ line :: lines, l.Adds escape p := by
        rintro ⟨l, hl, hp⟩
        exact ⟨l, List.mem_cons_of_mem _ hl, hp⟩
      cases hkept : extended? escape opened line with
      | none =>
          rw [runs_of_passed hkept] at h
          exact (ih h).imp_right hlater
      | some kept =>
          rw [runs_of_extended hkept] at h
          split at h
          · rcases ih h with ⟨before, hbefore, hp⟩ | hp
            · exact hthere ⟨before, Option.mem_some.mp hbefore ▸ hkept, hp⟩
            · exact .inr (hlater hp)
          · rcases List.mem_cons.mp h with rfl | h
            · exact hthere ⟨_, hkept, hp⟩
            · rcases ih h with ⟨before, hbefore, -⟩ | hp
              · cases hbefore
              · exact .inr (hlater hp)

theorem mem_of_mem_ended {front : List Line} {run : List Placed} (h : run ∈ ended escape none front)
    {p : Placed} (hp : p ∈ run) :
    ∃ l ∈ front, l.Adds escape p := by
  have hrun : run ∈ runs escape none front := by
    rw [← List.append_nil front, runs_append]
    exact List.mem_append_left _ h
  rcases mem_runs hrun hp with ⟨before, hbefore, -⟩ | hp
  · cases hbefore
  · exact hp

theorem mem_of_mem_standing {front : List Line} {kept : List Placed}
    (h : standing escape none front = some kept) {p : Placed} (hp : p ∈ kept) :
    ∃ l ∈ front, l.Adds escape p := by
  have hrun : kept ∈ runs escape none front := by
    rw [← List.append_nil front, runs_append, h]
    exact List.mem_append_right _ (by simp [runs])
  rcases mem_runs hrun hp with ⟨before, hbefore, -⟩ | hp
  · cases hbefore
  · exact hp

theorem mem_of_mem_behind {goesOn : Bool} {run : List Placed} (h : run ∈ behind escape goesOn lines)
    {p : Placed} (hp : p ∈ run) :
    ∃ l ∈ lines, l.Adds escape p := by
  unfold behind at h
  split at h
  · have hrun : run ∈ runs escape (some []) lines := by
      rw [runs_some]
      exact List.mem_cons_of_mem _ h
    rcases mem_runs hrun hp with ⟨before, hbefore, hp⟩ | hp
    · rw [← Option.mem_some.mp hbefore] at hp
      cases hp
    · exact hp
  · rcases mem_runs h hp with ⟨before, hbefore, -⟩ | hp
    · cases hbefore
    · exact hp

/-! ## The logical line with given characters -/

section Located

variable {before middle after : List Line} {run : List Placed} {p q : Placed}

theorem isSome_standing_of_mem_runs {front : List Line}
    (hordered : (front ++ line :: lines).Pairwise fun a b => a.stop < b.start)
    (hrun : run ∈ runs escape none (front ++ line :: lines)) (hp : p ∈ run)
    (hlt : p.offset < line.start) (hq : q ∈ run) (hle : line.start ≤ q.offset) :
    (standing escape none front).isSome := by
  obtain ⟨-, hrest, hfront⟩ := List.pairwise_append.mp hordered
  have hlines : ∀ l ∈ line :: lines, line.start ≤ l.start := by
    intro l hl
    rcases List.mem_cons.mp hl with rfl | hl
    · exact Nat.le_refl _
    · have := (List.pairwise_cons.mp hrest).1 l hl
      have : line.start ≤ line.stop := Nat.le_add_right _ _
      omega
  obtain ⟨kept, hkept, -⟩ := exists_standing_of_mem_runs hrun
    (fun l hl => Nat.le_of_lt (hfront l hl line List.mem_cons_self)) hlines hp hlt hq hle
  rw [hkept]
  rfl

theorem adds_of_mem_runs {lines : List Line} (hordered : lines.Pairwise fun a b => a.stop < b.start)
    (hrun : run ∈ runs escape none lines) (hp : p ∈ run) (hline : line ∈ lines)
    (hrange : line.start ≤ p.offset ∧ p.stop ≤ line.stop) : line.Adds escape p := by
  have := p.offset_lt_stop
  rcases mem_runs hrun hp with ⟨before, hbefore, -⟩ | ⟨l, hl, hadds⟩
  · cases hbefore
  have hkept := stop_le_of_mem_kept hadds.kept
  have : Std.Symm fun a b : Line => a.stop < b.start ∨ b.stop < a.start := ⟨fun _ _ => Or.symm⟩
  have happart : lines.Pairwise fun a b => a.stop < b.start ∨ b.stop < a.start :=
    hordered.imp Or.inl
  obtain rfl : l = line := by
    refine Classical.byContradiction fun hne => ?_
    rcases happart.forall hl hline hne with hlt | hlt <;> omega
  exact hadds

section Between

variable (hordered : (before ++ (middle ++ line :: after)).Pairwise fun a b => a.stop < b.start)
  (hrun : run ∈ runs escape none (before ++ (middle ++ line :: after))) (hp : p ∈ run)
  {first : Line} (hfirst : (middle ++ [line]).head? = some first)
  (hpfirst : first.start ≤ p.offset ∧ p.stop ≤ first.stop) (hq : q ∈ run)
include hordered hrun hp hfirst hpfirst hq

/-- The logical line that keeps a character of a first line and one of a last is open in between. -/
theorem isSome_standing_take (hle : line.start ≤ q.offset) {n : Nat} (hpos : 0 < n)
    (hn : n ≤ middle.length) :
    (standing escape (standing escape none before) (middle.take n)).isSome := by
  have := p.offset_lt_stop
  obtain ⟨b, rest, hb⟩ := List.exists_cons_of_ne_nil
    (show middle.drop n ++ line :: after ≠ [] by simp)
  have hsplit : before ++ (middle ++ line :: after) = (before ++ middle.take n) ++ b :: rest := by
    rw [← hb, List.append_assoc, ← List.append_assoc (middle.take n), List.take_append_drop]
  have hmiddle := (List.pairwise_append.mp (List.pairwise_append.mp hordered).2.1).2.2
  rw [← standing_append]
  rw [hsplit] at hordered hrun
  refine isSome_standing_of_mem_runs hordered hrun hp ?_ hq ?_
  · have hmem : first ∈ middle.take n := by
      cases middle with
      | nil => simp at hn; omega
      | cons m middle =>
          obtain ⟨n, rfl⟩ := Nat.exists_eq_succ_of_ne_zero (Nat.ne_of_gt hpos)
          simp only [List.cons_append, List.head?_cons, Option.some.injEq] at hfirst
          simp [hfirst]
    have := (List.pairwise_append.mp hordered).2.2 first (List.mem_append_right _ hmem) b
      List.mem_cons_self
    omega
  · refine Nat.le_trans ?_ hle
    cases hdrop : middle.drop n with
    | nil =>
        rw [hdrop, List.nil_append] at hb
        exact Nat.le_of_eq (congrArg Line.start (List.cons.inj hb).1.symm)
    | cons m rest' =>
        rw [hdrop] at hb
        have hm : m ∈ middle := List.mem_of_mem_drop (hdrop ▸ List.mem_cons_self)
        have := hmiddle m hm line List.mem_cons_self
        have : m.start ≤ m.stop := Nat.le_add_right _ _
        rw [← (List.cons.inj hb).1]
        omega

/-- It is the only one that the lines from the first to the last keep anything for. -/
theorem runs_of_mem (hlast : line.start ≤ q.offset ∧ q.stop ≤ line.stop) :
    (∃ kept, extended? escape (standing escape (standing escape none before) middle) line =
        some kept ∧ run = kept ++ further escape (line.goesOn escape) after) ∧
      runs escape none (before ++ (middle ++ line :: after)) =
        ended escape none before ++ run :: behind escape (line.goesOn escape) after := by
  have := p.offset_lt_stop
  have := q.offset_lt_stop
  obtain ⟨-, hrest, hbefore⟩ := List.pairwise_append.mp hordered
  obtain ⟨-, hafter, hmiddle⟩ := List.pairwise_append.mp hrest
  have hafter := (List.pairwise_cons.mp hafter).1
  have hruns := @runs_append escape none before (middle ++ line :: after)
  rw [runs_append _ middle, ended_eq_nil fun _ hpos hn => isSome_standing_take hordered hrun hp hfirst
    hpfirst hq hlast.1 hpos hn, List.nil_append] at hruns
  have hthere : run ∈ runs escape (standing escape (standing escape none before) middle)
      (line :: after) := by
    rw [hruns] at hrun
    refine (List.mem_append.mp hrun).resolve_left fun hended => ?_
    obtain ⟨l, hl, hmem⟩ := mem_of_mem_ended hended hp
    have := stop_le_of_mem_kept hmem.kept
    have hmem' : first ∈ middle ++ line :: after := by
      have := List.mem_of_mem_head? hfirst
      simp only [List.mem_append, List.mem_singleton] at this
      exact this.elim (List.mem_append_left _) fun h => h ▸ by simp
    have := hbefore l hl first hmem'
    omega
  -- The last character comes from the last line, so no later logical line can keep it.
  have hlater : ∀ l ∈ after, ¬l.Adds escape q := by
    intro l hl hmem
    have := stop_le_of_mem_kept hmem.kept
    have := hafter l hl
    omega
  have hopened : ∀ kept ∈ standing escape (standing escape none before) middle, q ∉ kept := by
    intro kept hkept hmem
    rw [← standing_append] at hkept
    obtain ⟨l, hl, hmem⟩ := mem_of_mem_standing hkept hmem
    have := stop_le_of_mem_kept hmem.kept
    rcases List.mem_append.mp hl with hl | hl
    · have := hbefore l hl line (by simp)
      omega
    · have := hmiddle l hl line List.mem_cons_self
      omega
  cases hkept : extended? escape (standing escape (standing escape none before) middle) line with
  | none =>
      rw [runs_of_passed hkept] at hthere
      rcases mem_runs hthere hq with ⟨kept, hkept, hmem⟩ | ⟨l, hl, hmem⟩
      · exact absurd hmem (hopened kept hkept)
      · exact absurd hmem (hlater l hl)
  | some kept =>
      rw [runs_cons hkept] at hthere hruns
      rcases List.mem_cons.mp hthere with rfl | hbehind
      · exact ⟨⟨kept, rfl, rfl⟩, hruns⟩
      · obtain ⟨l, hl, hmem⟩ := mem_of_mem_behind hbehind hq
        exact absurd hmem (hlater l hl)

end Between

end Located

end Body

end Dockerfile
