import Dockerfile.Proofs.Editor.Further
import Dockerfile.Proofs.Editor.Reindented

/-!
# Lines that a layout leaves as they are

A line is tidy if it has the indentation that a layout would give it. Laying lines out makes them
tidy as long as each of them is a further line of an instruction before and after alike. Reading the
lines and the laid out ones abreast (`Layout.Abreast`) shows where that fails, and nowhere else
(`Layout.Relined.tidy_iff`): a logical line without a keyword gets one and goes on to further lines,
or all that an instruction keeps behind a comment are the blanks of the last line.
-/

namespace Dockerfile

theorem Line.kept_head (escape : Char) (line : Line) :
    ∀ c ∈ (line.kept escape).head?, isBlank c = false := by
  intro c hc
  obtain ⟨tail, htail⟩ := Body.kept_prefix escape line
  apply line.isBlank_core_head
  cases hkept : line.kept escape with
  | nil => simp [hkept] at hc
  | cons d kept =>
      rw [hkept] at hc htail
      rw [← htail]
      exact hc

namespace Body

variable {escape : Char}

theorem startsNamed_append_of_mem {kept more : List Placed} {p : Placed} (h : p ∈ kept) :
    startsNamed (kept ++ more) = startsNamed kept := by
  cases kept with
  | nil => cases h
  | cons first kept => rfl

theorem startsNamed_append {kept more : List Placed} (h : startsNamed kept = true) :
    startsNamed (kept ++ more) = true := by
  cases kept with
  | nil => cases h
  | cons p kept => exact h

theorem startsNamed_append_blank {kept more : List Placed} (h : startsNamed kept = false)
    (hmore : ∀ p ∈ more, isBlank p.char = true) : startsNamed (kept ++ more) = false := by
  cases kept with
  | nil =>
      cases more with
      | nil => rfl
      | cons p more => simp [startsNamed, hmore p List.mem_cons_self]
  | cons p kept => exact h

theorem startsNamed_of_blank {kept : List Placed} (h : ∀ p ∈ kept, isBlank p.char = true) :
    startsNamed kept = false :=
  @startsNamed_append_blank [] kept rfl h

theorem startsNamed_place_kept {line : Line} (h : line.kept escape ≠ []) (offset : Nat) :
    startsNamed (Text.place offset (line.kept escape)) = true := by
  have hhead := line.kept_head escape
  cases hkept : line.kept escape with
  | nil => exact absurd hkept h
  | cons c kept =>
      rw [hkept] at hhead
      simp [startsNamed, hhead c rfl]

theorem isBlank_of_mem_place_indent {line : Line} {offset : Nat} :
    ∀ p ∈ Text.place offset line.indent, isBlank p.char = true :=
  Text.isBlank_of_mem_place fun _ hc => Line.isBlank_of_mem_indent hc

theorem kept_eq_nil {line : Line}
    (h : ∀ p ∈ Text.place line.start (line.indent ++ line.kept escape), isBlank p.char = true) :
    line.kept escape = [] := by
  have hhead := line.kept_head escape
  cases hkept : line.kept escape with
  | nil => rfl
  | cons c kept =>
      rw [hkept] at hhead h
      have hblank := h ⟨c, line.start + Text.byteLength line.indent⟩ (by simp [Text.place_append])
      have hfirst := hhead c rfl
      simp only at hblank
      rw [hblank] at hfirst
      cases hfirst

/-! ## Steps of reading -/

variable {line : Line}

theorem isSkipped_of_blank (hcore : line.core = []) (hterm : line.terminator ≠ []) :
    line.isSkipped = true := by
  simp [Line.isSkipped, hcore, hterm]

theorem keptFrom_of_skipped (h : line.isSkipped = true) (lines : List Line) :
    keptFrom escape (line :: lines) = keptFrom escape lines := by
  simp [keptFrom, h]

theorem keptFrom_of_kept (h : line.isSkipped = false) (lines : List Line) :
    keptFrom escape (line :: lines) =
      Text.place line.start (line.indent ++ line.kept escape) ++
        if line.goesOn escape then keptFrom escape lines else [] := by
  simp [keptFrom, h]

theorem openAfter_of_blank (hcore : line.core = []) (hterm : line.terminator ≠ [])
    (opened : Option (List Placed)) : openAfter escape opened line = opened := by
  cases opened with
  | none => simp [openAfter, extended?, Line.isContent, hcore]
  | some kept => exact openAfter_of_skipped (isSkipped_of_blank hcore hterm) kept

end Body

namespace Layout

open Body

def tidyIndent (options : IndentOptions) (formatter : FormatterSettings) (further : Bool)
    (line : Line) : Text :=
  if further then
    if formatter.ignoreMultilineInstructions then line.indent
    else if line.core.isEmpty then [] else unit options
  else []

theorem tidyIndent_ne_nil {options : IndentOptions} {formatter : FormatterSettings} {line : Line}
    (hignore : formatter.ignoreMultilineInstructions = false) (hcore : line.core ≠ []) :
    tidyIndent options formatter true line ≠ [] := by
  have hempty : line.core.isEmpty = false := by simpa using hcore
  simp only [tidyIndent, hignore, hempty, Bool.false_eq_true, if_false, if_true]
  exact unit_ne_nil options

/-- Lines, and the same lines laid out. A blank line may be gone. -/
inductive Relined (escape : Char) (options : IndentOptions) (formatter : FormatterSettings) :
    Option (List Placed) → List Line → List Line → Prop
  | nil {opened : Option (List Placed)} : Relined escape options formatter opened [] []
  | cons {opened : Option (List Placed)} {line line' : Line} {lines lines' : List Line}
      (alike : line.Alike line')
      (indent : line'.indent =
        tidyIndent options formatter (isFurther escape opened (line :: lines)) line)
      (last : line.terminator = [] → lines = [])
      (next : Relined escape options formatter (openAfter escape opened line) lines lines') :
      Relined escape options formatter opened (line :: lines) (line' :: lines')
  | drop {opened : Option (List Placed)} {line : Line} {lines lines' : List Line}
      (blank : line.core = []) (ends : line.terminator ≠ [])
      (next : Relined escape options formatter opened lines lines') :
      Relined escape options formatter opened (line :: lines) lines'

section Kept

variable {escape : Char} {options : IndentOptions} {formatter : FormatterSettings}
  {opened : Option (List Placed)} {lines lines' : List Line}

/-- Lines of which only blanks are kept, none of them a further line of an instruction: once laid
out, nothing is kept of them. -/
theorem Relined.keptFrom_eq_nil (h : Relined escape options formatter opened lines lines')
    {kept : List Placed} (hopen : opened = some kept)
    (hquiet : startsNamed kept = false ∨ keptFrom escape lines = [])
    (hblank : ∀ p ∈ keptFrom escape lines, isBlank p.char = true) :
    keptFrom escape lines' = [] := by
  induction h generalizing kept with
  | nil => rfl
  | drop blank ends next ih =>
      rw [keptFrom_of_skipped (isSkipped_of_blank blank ends)] at hquiet hblank
      exact ih hopen hquiet hblank
  | @cons opened line line' lines lines' alike indent last next ih =>
      subst hopen
      have hindent : line'.indent = [] := by
        have hnot : isFurther escape (some kept) (line :: lines) = false := by
          rcases hquiet with hquiet | hquiet <;> simp [isFurther, hquiet]
        rw [indent, hnot]
        rfl
      cases hskip : line.isSkipped with
      | true =>
          rw [keptFrom_of_skipped hskip] at hquiet hblank
          rw [keptFrom_of_skipped (alike.isSkipped_eq.trans hskip)]
          exact ih (openAfter_of_skipped hskip kept) hquiet hblank
      | false =>
          have hopen := @openAfter_of_kept escape line hskip kept
          rw [keptFrom_of_kept hskip] at hquiet hblank
          have hplaced : ∀ p ∈ Text.place line.start (line.indent ++ line.kept escape),
              isBlank p.char = true := fun p hp => hblank p (List.mem_append_left _ hp)
          have hnil := kept_eq_nil hplaced
          rw [keptFrom_of_kept (alike.isSkipped_eq.trans hskip), alike.kept_eq, alike.goesOn_eq,
            hindent, hnil, List.nil_append, Text.place_nil,
            List.nil_append]
          cases hgoes : line.goesOn escape with
          | false => rfl
          | true =>
              simp only [hgoes, if_true] at hopen hquiet hblank ⊢
              refine ih hopen ?_ fun p hp => hblank p (List.mem_append_right _ hp)
              rcases hquiet with hquiet | hquiet
              · exact .inl (startsNamed_append_blank hquiet hplaced)
              · exact .inr (List.append_eq_nil_iff.mp hquiet).2

theorem exists_content_tail {line : Line} (hline : line.isContent = false)
    (h : ∃ l ∈ line :: lines, l.isContent = true) : ∃ l ∈ lines, l.isContent = true := by
  simpa [hline] using h

/-- Lines that an instruction still keeps something of: once laid out, it does so too, unless all it
keeps are the blanks of the last line and those are removed. -/
theorem Relined.keptFrom_ne_nil (h : Relined escape options formatter opened lines lines')
    {kept : List Placed} (hopen : opened = some kept) (hnamed : startsNamed kept = true)
    (hkept : keptFrom escape lines ≠ [])
    (hcontent : formatter.ignoreMultilineInstructions = true ∨
      ∃ line ∈ lines, line.isContent = true) :
    keptFrom escape lines' ≠ [] := by
  induction h generalizing kept with
  | nil => exact absurd rfl hkept
  | @drop opened line lines lines' blank ends next ih =>
      rw [keptFrom_of_skipped (isSkipped_of_blank blank ends)] at hkept
      have hline : line.isContent = false := by simp [Line.isContent, blank]
      exact ih hopen hnamed hkept (hcontent.imp id (exists_content_tail hline))
  | @cons opened line line' lines lines' alike indent last next ih =>
      subst hopen
      have hfurther : isFurther escape (some kept) (line :: lines) = true := by
        simp [isFurther, hnamed, hkept]
      rw [hfurther] at indent
      cases hskip : line.isSkipped with
      | true =>
          rw [keptFrom_of_skipped hskip] at hkept
          rw [keptFrom_of_skipped (alike.isSkipped_eq.trans hskip)]
          have hline := Line.isContent_of_isSkipped hskip
          exact ih (openAfter_of_skipped hskip kept) hnamed hkept
            (hcontent.imp id (exists_content_tail hline))
      | false =>
          have hopen := @openAfter_of_kept escape line hskip kept
          rw [keptFrom_of_kept hskip] at hkept
          rw [keptFrom_of_kept (alike.isSkipped_eq.trans hskip), alike.kept_eq, alike.goesOn_eq]
          intro hnil
          obtain ⟨hplace, hrest⟩ := List.append_eq_nil_iff.mp hnil
          have htext := congrArg Placed.text hplace
          rw [Text.text_place, Placed.text_nil] at htext
          obtain ⟨hindent, hcore⟩ := List.append_eq_nil_iff.mp htext
          rw [hindent] at indent
          cases hignore : formatter.ignoreMultilineInstructions with
          | true =>
              -- The line is as it was, so nothing is kept of it before either.
              simp only [tidyIndent, hignore, if_true] at indent
              rw [← indent, hcore, List.nil_append, Text.place_nil, List.nil_append] at hkept
              rw [← indent, hcore, List.nil_append, Text.place_nil, List.append_nil] at hopen
              cases hgoes : line.goesOn escape with
              | false => simp [hgoes] at hkept
              | true =>
                  simp only [hgoes, if_true] at hkept hopen hrest
                  exact ih hopen hnamed hkept (.inl hignore) hrest
          | false =>
              refine tidyIndent_ne_nil hignore (fun hblank => ?_) indent.symm
              -- What is not passed over and blank is the last line.
              have hlast : line.terminator = [] := by
                simpa [Line.isSkipped, Line.isComment, hblank] using hskip
              obtain ⟨l, hl, hline⟩ := hcontent.resolve_left (by simp [hignore])
              rw [last hlast, List.mem_singleton] at hl
              subst hl
              simp [Line.isContent, hblank] at hline

end Kept

/-! ## Reading abreast -/

/-- A logical line without a keyword has its content in one line: if it has some already, then only
blanks follow. -/
def Together (escape : Char) (opened : Option (List Placed)) (lines : List Line) : Prop :=
  ∀ before after kept, lines = before ++ after → standing escape opened before = some kept →
    startsNamed kept = false → (∃ p ∈ kept, isBlank p.char = false) →
    ∀ q ∈ keptFrom escape after, isBlank q.char = true

/-- Behind a comment inside an instruction comes a line that is neither blank nor a comment. -/
def Resumed (escape : Char) (opened : Option (List Placed)) (lines : List Line) : Prop :=
  ∀ before line after, lines = before ++ line :: after →
    isFurther escape (standing escape opened before) (line :: after) = true →
    line.isComment = true → ∃ l ∈ after, l.isContent = true

theorem Together.tail {escape : Char} {opened : Option (List Placed)} {line : Line}
    {lines : List Line} (h : Together escape opened (line :: lines)) :
    Together escape (openAfter escape opened line) lines := by
  rintro before after kept rfl hstanding
  exact h (line :: before) after kept rfl hstanding

theorem Resumed.tail {escape : Char} {opened : Option (List Placed)} {line : Line}
    {lines : List Line} (h : Resumed escape opened (line :: lines)) :
    Resumed escape (openAfter escape opened line) lines := by
  rintro before first after rfl hfurther
  exact h (line :: before) first after rfl hfurther

/-- What is open in front of lines, and in front of the laid out ones: a logical line without content
keeps nothing once it is laid out, and one with content has a keyword then. -/
inductive Abreast : Option (List Placed) → Option (List Placed) → Prop
  | outside : Abreast none none
  | blank {kept : List Placed} (blank : ∀ p ∈ kept, isBlank p.char = true) :
      Abreast (some kept) (some [])
  | named {kept kept' : List Placed} (content : ∃ p ∈ kept, isBlank p.char = false)
      (named : startsNamed kept' = true) : Abreast (some kept) (some kept')

section Abreast

variable {escape : Char} {options : IndentOptions} {formatter : FormatterSettings}
  {opened opened' : Option (List Placed)} {line line' : Line} {lines lines' : List Line}

theorem exists_content_of_kept (h : line.kept escape ≠ []) (offset : Nat) (indent : Text) :
    ∃ p ∈ Text.place offset (indent ++ line.kept escape), isBlank p.char = false := by
  obtain ⟨c, core, hcons⟩ := List.exists_cons_of_ne_nil h
  have hblank := line.kept_head escape c (by rw [hcons]; rfl)
  exact ⟨⟨c, offset + Text.byteLength indent⟩, by simp [Text.place_append, hcons], hblank⟩

theorem abreast_begin (alike : line.Alike line') :
    Abreast (openAfter escape none line) (openAfter escape none line') := by
  unfold openAfter extended?
  simp only [alike.isContent_eq, alike.kept_eq, alike.goesOn_eq]
  cases line.isContent with
  | false => exact .outside
  | true =>
      simp only [if_true]
      cases line.goesOn escape with
      | false => exact .outside
      | true =>
          simp only [if_true]
          by_cases hkept : line.kept escape = []
          · rw [hkept]
            exact .blank (by simp)
          · exact .named (exists_content_of_kept hkept _ []) (startsNamed_place_kept hkept _)

/-- One line of a logical line. Until that has a keyword, its lines lose their indentation. -/
theorem Abreast.step (h : Abreast opened opened') (alike : line.Alike line')
    (indent : line'.indent =
      tidyIndent options formatter (isFurther escape opened (line :: lines)) line) :
    Abreast (openAfter escape opened line) (openAfter escape opened' line') := by
  have hskipped := alike.isSkipped_eq
  cases h with
  | outside => exact abreast_begin alike
  | @blank kept blank =>
      have hmargin : line'.indent = [] := by
        rw [indent, isFurther, Option.any_some, startsNamed_of_blank blank]
        rfl
      cases hskip : line.isSkipped with
      | true =>
          rw [openAfter_of_skipped hskip, openAfter_of_skipped (hskipped.trans hskip)]
          exact .blank blank
      | false =>
          rw [openAfter_of_kept hskip, openAfter_of_kept (hskipped.trans hskip), alike.goesOn_eq,
            alike.kept_eq, hmargin, List.nil_append, List.nil_append]
          split
          · by_cases hcore : line.kept escape = []
            · rw [hcore, List.append_nil]
              refine .blank fun p hp => ?_
              rcases List.mem_append.mp hp with hp | hp
              · exact blank p hp
              · exact isBlank_of_mem_place_indent p hp
            · obtain ⟨p, hp, hcontent⟩ := exists_content_of_kept hcore line.start line.indent
              exact .named ⟨p, List.mem_append_right _ hp, hcontent⟩
                (startsNamed_place_kept hcore _)
          · exact .outside
  | @named kept kept' content named =>
      cases hskip : line.isSkipped with
      | true =>
          rw [openAfter_of_skipped hskip, openAfter_of_skipped (hskipped.trans hskip)]
          exact .named content named
      | false =>
          rw [openAfter_of_kept hskip, openAfter_of_kept (hskipped.trans hskip), alike.goesOn_eq]
          split
          · obtain ⟨p, hp, hcontent⟩ := content
            exact .named ⟨p, List.mem_append_left _ hp, hcontent⟩ (startsNamed_append named)
          · exact .outside

/-! ## Tidy lines -/

def Tidy (escape : Char) (options : IndentOptions) (formatter : FormatterSettings)
    (opened : Option (List Placed)) (lines : List Line) : Prop :=
  ∀ before line after, lines = before ++ line :: after →
    line.indent = tidyIndent options formatter
      (isFurther escape (standing escape opened before) (line :: after)) line

theorem tidy_cons_iff :
    Tidy escape options formatter opened (line :: lines) ↔
      line.indent = tidyIndent options formatter (isFurther escape opened (line :: lines)) line ∧
        Tidy escape options formatter (openAfter escape opened line) lines := by
  constructor
  · intro h
    refine ⟨h [] line lines rfl, ?_⟩
    rintro before first after rfl
    exact h (line :: before) first after rfl
  · rintro ⟨hhead, htail⟩ before first after hlines
    cases before with
    | nil =>
        obtain ⟨rfl, rfl⟩ := List.cons.inj hlines
        exact hhead
    | cons _ before =>
        obtain ⟨rfl, rfl⟩ := List.cons.inj hlines
        exact htail before first after rfl

/-- A further line of an instruction stays one if content follows, or if it is left alone. -/
theorem Relined.isFurther_eq_true
    (h : Relined escape options formatter opened lines lines') (habreast : Abreast opened opened')
    (hfurther : isFurther escape opened lines = true)
    (hcontent : formatter.ignoreMultilineInstructions = true ∨
      ∃ line ∈ lines, line.isContent = true) :
    isFurther escape opened' lines' = true := by
  unfold isFurther at hfurther ⊢
  cases habreast with
  | outside => cases hfurther
  | blank blank =>
      rw [Option.any_some, startsNamed_of_blank blank] at hfurther
      cases hfurther
  | named content named =>
      obtain ⟨hnamed, hne⟩ := Bool.and_eq_true_iff.mp hfurther
      have hkept := h.keptFrom_ne_nil rfl hnamed (by simpa using hne) hcontent
      simp [named, hkept]

/-- A line that is no further line of an instruction becomes none, unless it is one of several lines
with content and without a keyword. -/
theorem Relined.isFurther_eq_false
    (h : Relined escape options formatter opened lines lines') (habreast : Abreast opened opened')
    (hfurther : isFurther escape opened lines = false) (htogether : Together escape opened lines) :
    isFurther escape opened' lines' = false := by
  unfold isFurther at hfurther ⊢
  cases habreast with
  | outside => rfl
  | blank => rfl
  | @named kept kept' content named =>
      have hnil : keptFrom escape lines' = [] := by
        cases hnamed : startsNamed kept with
        | true =>
            have hnil : keptFrom escape lines = [] := by simpa [hnamed] using hfurther
            exact h.keptFrom_eq_nil rfl (.inr hnil) (by simp [hnil])
        | false =>
            have hblank := htogether [] lines kept rfl rfl hnamed content
            exact h.keptFrom_eq_nil rfl (.inl hnamed) hblank
      simp [hnil]

theorem Relined.tidy_head
    (h : Relined escape options formatter opened (line :: lines) (line' :: lines'))
    (alike : line.Alike line')
    (indent : line'.indent =
      tidyIndent options formatter (isFurther escape opened (line :: lines)) line)
    (habreast : Abreast opened opened')
    (htogether : formatter.ignoreMultilineInstructions = false →
      Together escape opened (line :: lines))
    (hresumed : formatter.ignoreMultilineInstructions = false →
      Resumed escape opened (line :: lines)) :
    line'.indent =
      tidyIndent options formatter (isFurther escape opened' (line' :: lines')) line' := by
  cases hline : isFurther escape opened (line :: lines) with
  | false =>
      rw [hline] at indent
      have hmargin : line'.indent = [] := indent
      cases hignore : formatter.ignoreMultilineInstructions with
      | true => simp [tidyIndent, hmargin, hignore]
      | false =>
          rw [h.isFurther_eq_false habreast hline (htogether hignore), hmargin]
          rfl
  | true =>
      cases hignore : formatter.ignoreMultilineInstructions with
      | true =>
          rw [h.isFurther_eq_true habreast hline (.inl hignore)]
          simp [tidyIndent, hignore]
      | false =>
          by_cases hblank : line.core = []
          · simpa [tidyIndent, hignore, alike.core, hblank] using indent
          · have hcontent : ∃ l ∈ line :: lines, l.isContent = true := by
              cases hmark : line.isComment with
              | true =>
                  obtain ⟨l, hl, hcontent⟩ := hresumed hignore [] line lines rfl hline hmark
                  exact ⟨l, List.mem_cons_of_mem _ hl, hcontent⟩
              | false => exact ⟨line, List.mem_cons_self, by simp [Line.isContent, hblank, hmark]⟩
            rw [h.isFurther_eq_true habreast hline (.inr hcontent), indent, hline]
            simp [tidyIndent, hignore, alike.core]

theorem Relined.tidy (h : Relined escape options formatter opened lines lines')
    (habreast : Abreast opened opened')
    (htogether : formatter.ignoreMultilineInstructions = false → Together escape opened lines)
    (hresumed : formatter.ignoreMultilineInstructions = false → Resumed escape opened lines) :
    Tidy escape options formatter opened' lines' := by
  induction h generalizing opened' with
  | nil =>
      intro before line after hlines
      simp at hlines
  | @drop opened line lines lines' blank ends next ih =>
      have htail := fun hignore => (htogether hignore).tail
      have hlater := fun hignore => (hresumed hignore).tail
      rw [openAfter_of_blank blank ends] at htail hlater
      exact ih habreast htail hlater
  | @cons opened line line' lines lines' alike indent last next ih =>
      apply tidy_cons_iff.mpr
      constructor
      · exact Relined.tidy_head (.cons alike indent last next) alike indent habreast htogether
          hresumed
      · exact ih (habreast.step alike indent) (fun hignore => (htogether hignore).tail)
          fun hignore => (hresumed hignore).tail

/-! ## Where tidiness fails -/

/-- Nothing is kept of blank lines and comments that are laid out. -/
theorem Relined.keptFrom_eq_nil_of_passed (h : Relined escape options formatter opened lines lines')
    (hignore : formatter.ignoreMultilineInstructions = false)
    (hlines : ∀ line ∈ lines, line.isContent = false) : keptFrom escape lines' = [] := by
  induction h with
  | nil => rfl
  | drop blank ends next ih => exact ih fun l hl => hlines l (List.mem_cons_of_mem _ hl)
  | @cons opened line line' lines lines' alike indent last next ih =>
      have ih := ih fun l hl => hlines l (List.mem_cons_of_mem _ hl)
      have hskipped := alike.isSkipped_eq
      cases hskip : line.isSkipped with
      | true => rw [keptFrom_of_skipped (hskipped.trans hskip), ih]
      | false =>
          -- This is the last line, and it is blank.
          have hcore : line.core = [] := Line.core_eq_nil hskip (hlines line List.mem_cons_self)
          have hmargin : line'.indent = [] := by
            rw [indent, tidyIndent]
            simp [hignore, hcore]
          have hkept : line'.kept escape = [] := by
            have hprefix := kept_prefix escape line'
            rw [alike.core, hcore] at hprefix
            exact List.prefix_nil.mp hprefix
          rw [keptFrom_of_kept (hskipped.trans hskip), hmargin, hkept, ih]
          simp

theorem Relined.resumed (h : Relined escape options formatter opened lines lines')
    (hignore : formatter.ignoreMultilineInstructions = false)
    (htidy : Tidy escape options formatter opened' lines') : Resumed escape opened lines := by
  induction h generalizing opened' with
  | nil =>
      intro before line after hlines
      simp at hlines
  | @drop opened line lines lines' blank ends next ih =>
      intro before first after hlines hfurther hmark
      cases before with
      | nil =>
          obtain ⟨rfl, rfl⟩ := List.cons.inj hlines
          simp [Line.isComment, blank] at hmark
      | cons _ before =>
          obtain ⟨rfl, rfl⟩ := List.cons.inj hlines
          rw [standing, List.foldl_cons, openAfter_of_blank blank ends] at hfurther
          exact ih htidy before first after rfl hfurther hmark
  | @cons opened line line' lines lines' alike indent last next ih =>
      intro before first after hlines hfurther hmark
      obtain ⟨hhead, htail⟩ := tidy_cons_iff.mp htidy
      cases before with
      | nil =>
          obtain ⟨rfl, rfl⟩ := List.cons.inj hlines
          refine Decidable.byContradiction fun hnone => ?_
          have hnil : keptFrom escape (line' :: lines') = [] := by
            have hmark' : line'.isSkipped = true := by
              rw [alike.isSkipped_eq]
              simp [Line.isSkipped, hmark]
            rw [keptFrom_of_skipped hmark']
            exact next.keptFrom_eq_nil_of_passed hignore (by simpa using hnone)
          have hcore : line.core ≠ [] := fun hnil => by simp [Line.isComment, hnil] at hmark
          have hfurther : isFurther escape opened (line :: lines) = true := hfurther
          have hnot : isFurther escape opened' (line' :: lines') = false := by
            simp [isFurther, hnil]
          rw [hhead, hnot, hfurther] at indent
          exact tidyIndent_ne_nil hignore hcore indent.symm
      | cons _ before =>
          obtain ⟨rfl, rfl⟩ := List.cons.inj hlines
          exact ih htail before first after rfl hfurther hmark

/-- A logical line without a keyword that gets one: if its lines are tidy nevertheless, it has no more
content. -/
theorem Relined.blank_of_tidy (h : Relined escape options formatter opened lines lines')
    (hignore : formatter.ignoreMultilineInstructions = false)
    (htidy : Tidy escape options formatter opened' lines') {kept kept' : List Placed}
    (hopen : opened = some kept) (hopen' : opened' = some kept')
    (hkept : startsNamed kept = false) (hnamed : startsNamed kept' = true) :
    ∀ q ∈ keptFrom escape lines, isBlank q.char = true := by
  induction h generalizing opened' kept kept' with
  | nil => simp [keptFrom]
  | drop blank ends next ih =>
      rw [keptFrom_of_skipped (isSkipped_of_blank blank ends)]
      exact ih htidy hopen hopen' hkept hnamed
  | @cons opened line line' lines lines' alike indent last next ih =>
      subst hopen hopen'
      obtain ⟨hhead, htail⟩ := tidy_cons_iff.mp htidy
      have hskipped := alike.isSkipped_eq
      have hmargin : line'.indent = [] := by
        rw [indent, isFurther, Option.any_some, hkept]
        rfl
      cases hskip : line.isSkipped with
      | true =>
          rw [keptFrom_of_skipped hskip]
          rw [openAfter_of_skipped (hskipped.trans hskip)] at htail
          exact ih htail (openAfter_of_skipped hskip kept) rfl hkept hnamed
      | false =>
          have hcore : line.kept escape = [] := by
            refine Decidable.byContradiction fun hne => ?_
            have hfurther : isFurther escape (some kept') (line' :: lines') = true := by
              rw [isFurther, Option.any_some, hnamed, keptFrom_of_kept (hskipped.trans hskip),
                hmargin, alike.kept_eq, List.nil_append]
              obtain ⟨c, core, hcons⟩ := List.exists_cons_of_ne_nil hne
              simp [hcons]
            have hcontent : line'.core ≠ [] := by
              intro hnil
              have hprefix := kept_prefix escape line
              rw [← alike.core, hnil] at hprefix
              exact hne (List.prefix_nil.mp hprefix)
            rw [hmargin, hfurther] at hhead
            exact tidyIndent_ne_nil hignore hcontent hhead.symm
          have hblank := @isBlank_of_mem_place_indent line line.start
          rw [keptFrom_of_kept hskip, hcore, List.append_nil]
          intro q hq
          rcases List.mem_append.mp hq with hq | hq
          · exact hblank q hq
          · cases hgoes : line.goesOn escape with
            | false => simp [hgoes] at hq
            | true =>
                simp only [hgoes, if_true] at hq
                rw [openAfter_of_kept (hskipped.trans hskip), alike.goesOn_eq, hgoes, if_pos rfl]
                  at htail
                have hopen := @openAfter_of_kept escape line hskip kept
                rw [hgoes, if_pos rfl, hcore, List.append_nil] at hopen
                exact ih htail hopen rfl (startsNamed_append_blank hkept hblank)
                  (startsNamed_append hnamed) q hq

theorem Relined.together (h : Relined escape options formatter opened lines lines')
    (hignore : formatter.ignoreMultilineInstructions = false) (habreast : Abreast opened opened')
    (htidy : Tidy escape options formatter opened' lines') : Together escape opened lines := by
  intro before
  induction before generalizing opened opened' lines lines' with
  | nil =>
      rintro after kept rfl hstanding hkept ⟨p, hp, hcontent⟩
      cases habreast with
      | outside => cases hstanding
      | blank blank =>
          cases hstanding
          rw [blank p hp] at hcontent
          cases hcontent
      | named _ named =>
          cases hstanding
          exact h.blank_of_tidy hignore htidy rfl rfl hkept named
  | cons line before ih =>
      rintro after kept rfl hstanding hkept hcontent
      cases h with
      | drop blank ends next =>
          rw [standing, List.foldl_cons, openAfter_of_blank blank ends] at hstanding
          exact ih next habreast htidy after kept rfl hstanding hkept hcontent
      | cons alike indent last next =>
          exact ih next (habreast.step alike indent) (tidy_cons_iff.mp htidy).2 after kept rfl
            hstanding hkept hcontent

/-- Where further lines are laid out, exactly these lines become tidy. -/
theorem Relined.tidy_iff (h : Relined escape options formatter opened lines lines')
    (habreast : Abreast opened opened') :
    Tidy escape options formatter opened' lines' ↔
      (formatter.ignoreMultilineInstructions = false →
        Together escape opened lines ∧ Resumed escape opened lines) := by
  constructor
  · exact fun htidy hignore => ⟨h.together hignore habreast htidy, h.resumed hignore htidy⟩
  · exact fun hlasting => h.tidy habreast (fun hignore => (hlasting hignore).1)
      fun hignore => (hlasting hignore).2

end Abreast

end Layout

end Dockerfile
