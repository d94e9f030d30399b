import Mathlib.Data.List.TakeWhile
import Dockerfile.Proofs.Body.Relaid
import Dockerfile.Proofs.Text.Lines

/-!
# Reading line by line

The readers of a body go from character to character, across the ends of lines. What they keep can
also be told from the lines alone: a line is passed, or it begins or continues a logical line, and a
continuation at its end leaves that open. `Body.runs` does so, and keeps the same characters
(`Body.chars_logicalLines`). `Body.traces` also says which empty lines a logical line passes over
(`Body.traces_logicalLines`), and every comment line is a comment, whether a logical line is open
there or not (`Body.comments_read`).
-/

namespace Dockerfile

def Text.beforeEscape? (escape : Char) : Text → Option Text
  | [] => none
  | c :: rest =>
      if c = escape ∧ rest.all isBlank = true then some []
      else (beforeEscape? escape rest).map (c :: ·)

namespace Line

def indent (line : Line) : Text :=
  line.content.takeWhile isBlank

def core (line : Line) : Text :=
  line.content.dropWhile isBlank

def isComment (line : Line) : Bool :=
  line.core.head? == some '#'

def isContent (line : Line) : Bool :=
  !line.core.isEmpty && !line.isComment

/-- Whether a logical line passes this one over. It keeps the blanks of the last line. -/
def isSkipped (line : Line) : Bool :=
  line.isComment || line.core.isEmpty && !line.terminator.isEmpty

def beforeContinuation? (escape : Char) (line : Line) : Option Text :=
  if line.terminator.isEmpty then none else Text.beforeEscape? escape line.core

def goesOn (escape : Char) (line : Line) : Bool :=
  (line.beforeContinuation? escape).isSome

/-- What a logical line keeps of the core. -/
def kept (escape : Char) (line : Line) : Text :=
  (line.beforeContinuation? escape).getD line.core

def comment? (line : Line) : Option Text :=
  match line.core with
  | [] => none
  | c :: body => if c = '#' then some (Text.trimBlanks body) else none

theorem indent_append_core (line : Line) : line.indent ++ line.core = line.content :=
  List.takeWhile_append_dropWhile

theorem start_add_indent_add_core (line : Line) :
    line.start + Text.byteLength line.indent + Text.byteLength line.core =
      line.start + Text.byteLength line.content := by
  rw [Nat.add_assoc, ← Text.byteLength_append, line.indent_append_core]

theorem isContent_of_isSkipped {line : Line} (h : line.isSkipped = true) :
    line.isContent = false := by
  unfold isContent
  rcases Bool.or_eq_true_iff.mp h with hmark | hblank
  · simp [hmark]
  · simp [(Bool.and_eq_true_iff.mp hblank).1]

theorem core_eq_nil {line : Line} (hskip : line.isSkipped = false)
    (hcontent : line.isContent = false) : line.core = [] := by
  unfold isSkipped at hskip
  unfold isContent at hcontent
  simp_all

theorem isBlank_of_mem_indent {line : Line} {c : Char} (h : c ∈ line.indent) : isBlank c = true :=
  List.all_eq_true.mp List.all_takeWhile c h

theorem isBlank_core_head (line : Line) : ∀ c ∈ line.core.head?, isBlank c = false := by
  intro c hc
  have hhead := List.head?_dropWhile_not isBlank line.content
  rw [show line.content.dropWhile isBlank = line.core from rfl, Option.mem_def.mp hc] at hhead
  simpa using hhead

end Line

namespace Body

/-- What is kept by the logical line that is open, or that begins with `line`, once `line` is read;
nothing if `line` is passed over. -/
def extended? (escape : Char) (opened : Option (List Placed)) (line : Line) : Option (List Placed) :=
  match opened with
  | none =>
      if line.isContent then
        some (Text.place (line.start + Text.byteLength line.indent) (line.kept escape))
      else none
  | some kept =>
      if line.isSkipped then none
      else some (kept ++ Text.place line.start (line.indent ++ line.kept escape))

def openAfter (escape : Char) (opened : Option (List Placed)) (line : Line) :
    Option (List Placed) :=
  match extended? escape opened line with
  | none => opened
  | some kept => if line.goesOn escape then some kept else none

def standing (escape : Char) (opened : Option (List Placed)) (lines : List Line) :
    Option (List Placed) :=
  lines.foldl (openAfter escape) opened

def closedBy (escape : Char) (opened : Option (List Placed)) (line : Line) : List (List Placed) :=
  match extended? escape opened line with
  | none => []
  | some kept => if line.goesOn escape then [] else [kept]

def runs (escape : Char) (opened : Option (List Placed)) : List Line → List (List Placed)
  | [] => opened.toList
  | line :: lines => closedBy escape opened line ++ runs escape (openAfter escape opened line) lines

/-- What a logical line keeps, and the empty lines that it passes over. -/
structure Trace where
  kept : List Placed
  passed : List Span
  deriving DecidableEq, Repr

namespace Trace

def ofLine (line : Instruction) : Trace :=
  ⟨line.chars, line.emptyLines⟩

/-- The trace of the logical line that is open once it passes over `line`. -/
def pass (trace : Trace) (line : Line) : Trace :=
  if line.core.isEmpty then { trace with passed := trace.passed ++ [line.span] } else trace

end Trace

def traces (escape : Char) (opened : Option Trace) : List Line → List Trace
  | [] => opened.toList
  | line :: lines =>
      match extended? escape (opened.map Trace.kept) line with
      | none => traces escape (opened.map fun trace => trace.pass line) lines
      | some kept =>
          let trace : Trace := ⟨kept, (opened.map Trace.passed).getD []⟩
          if line.goesOn escape then traces escape (some trace) lines
          else trace :: traces escape none lines

theorem traces_of_passed {escape : Char} {opened : Option Trace} {line : Line}
    (h : extended? escape (opened.map Trace.kept) line = none) (lines : List Line) :
    traces escape opened (line :: lines) =
      traces escape (opened.map fun trace => trace.pass line) lines := by
  rw [traces, h]

theorem traces_of_extended {escape : Char} {opened : Option Trace} {line : Line}
    {kept : List Placed} (h : extended? escape (opened.map Trace.kept) line = some kept)
    (lines : List Line) :
    traces escape opened (line :: lines) =
      if line.goesOn escape then traces escape (some ⟨kept, (opened.map Trace.passed).getD []⟩) lines
      else ⟨kept, (opened.map Trace.passed).getD []⟩ :: traces escape none lines := by
  rw [traces, h]

theorem openAfter_of_skipped {escape : Char} {line : Line} (h : line.isSkipped = true)
    (kept : List Placed) : openAfter escape (some kept) line = some kept := by
  simp [openAfter, extended?, h]

theorem openAfter_of_kept {escape : Char} {line : Line} (h : line.isSkipped = false)
    (kept : List Placed) :
    openAfter escape (some kept) line =
      if line.goesOn escape then
        some (kept ++ Text.place line.start (line.indent ++ line.kept escape))
      else none := by
  simp [openAfter, extended?, h]

theorem runs_of_passed {escape : Char} {opened : Option (List Placed)} {line : Line}
    (h : extended? escape opened line = none) (lines : List Line) :
    runs escape opened (line :: lines) = runs escape opened lines := by
  simp only [runs, closedBy, openAfter, h, List.nil_append]

theorem runs_of_extended {escape : Char} {opened : Option (List Placed)} {line : Line}
    {kept : List Placed} (h : extended? escape opened line = some kept) (lines : List Line) :
    runs escape opened (line :: lines) =
      if line.goesOn escape then runs escape (some kept) lines
      else kept :: runs escape none lines := by
  simp only [runs, closedBy, openAfter, h]
  split <;> rfl

theorem Trace.kept_pass (trace : Trace) (line : Line) : (trace.pass line).kept = trace.kept := by
  unfold pass
  split <;> rfl

theorem kept_traces (escape : Char) (opened : Option Trace) (lines : List Line) :
    (traces escape opened lines).map Trace.kept = runs escape (opened.map Trace.kept) lines := by
  induction lines generalizing opened with
  | nil => cases opened <;> rfl
  | cons line lines ih =>
      cases h : extended? escape (opened.map Trace.kept) line with
      | none =>
          rw [traces_of_passed h, runs_of_passed h, ih, Option.map_map]
          congr 1
          exact Option.map_congr fun trace _ => trace.kept_pass line
      | some kept =>
          rw [traces_of_extended h, runs_of_extended h]
          split
          · exact ih _
          · rw [List.map_cons, ih]
            rfl

section Reading

variable {escape : Char} {stop : Nat}

/-! ## One line -/

theorem dropWhile_place_more {more : Text} {f : Char → Bool} (offset : Nat)
    (hmore : ∀ c ∈ more.head?, f c = false) :
    (Text.place offset more).dropWhile (fun p => f p.char) = Text.place offset more := by
  cases more with
  | nil => rfl
  | cons c more =>
      rw [Text.place_cons, List.dropWhile_cons_of_neg]
      simp [hmore c rfl]

theorem isBlank_of_isLineBreak {c : Char} (h : isLineBreak c = true) : isBlank c = false := by
  cases hb : isBlank c with
  | false => rfl
  | true =>
      rw [isLineBreak_of_isBlank hb] at h
      cases h

theorem afterContinuation?_place {content more : Text} {c : Char} {offset start : Nat}
    (clean : ∀ d ∈ content, isLineBreak d = false)
    (hmore : ∀ d ∈ more.head?, isLineBreak d = true) :
    afterContinuation? escape (⟨c, start⟩ :: Text.place offset (content ++ more)) =
      if c = escape ∧ content.all isBlank = true then
        afterNewline? (Text.place (offset + Text.byteLength content) more)
      else none := by
  simp only [afterContinuation?]
  by_cases hc : c = escape
  · rw [if_pos hc, Text.place_append]
    by_cases hall : content.all isBlank = true
    · have hblank := @Text.isBlank_of_mem_place offset content (List.all_eq_true.mp hall)
      rw [if_pos ⟨hc, hall⟩, List.dropWhile_append_of_pos hblank,
        dropWhile_place_more _ fun c hc => isBlank_of_isLineBreak (hmore c hc)]
    · rw [if_neg fun h => hall h.2, List.dropWhile_append]
      have htext := Placed.text_dropWhile isBlank (Text.place offset content)
      rw [Text.text_place] at htext
      cases hdrop : (Text.place offset content).dropWhile fun p => isBlank p.char with
      | nil =>
          rw [hdrop] at htext
          exact absurd (List.all_eq_true.mpr (List.dropWhile_eq_nil_iff.mp htext.symm)) hall
      | cons p rest =>
          have hmem : p ∈ Text.place offset content := by
            apply (List.dropWhile_sublist (fun p : Placed => isBlank p.char)).mem
            rw [hdrop]
            exact List.mem_cons_self
          have hbreak := clean _ (Text.char_mem_of_mem_place hmem)
          simp [afterNewline?_cons, hbreak]
  · rw [if_neg hc, if_neg fun h => hc h.1]

theorem readUntil_plain (he : isLineBreak escape = false) {content more : Text}
    (clean : ∀ c ∈ content, isLineBreak c = false)
    (hmore : ∀ c ∈ more.head?, isLineBreak c = true)
    (hplain : more ≠ [] → Text.beforeEscape? escape content = none) (offset : Nat) :
    readUntil isLineBreak escape stop (Text.place offset (content ++ more)) =
      ⟨Text.place offset content, [], [],
        Text.place (offset + Text.byteLength content) more⟩ := by
  induction content generalizing offset with
  | nil =>
      cases more with
      | nil => rw [List.append_nil, Text.place_nil, readUntil]; rfl
      | cons c more =>
          have hbreak := hmore c rfl
          have hne : c ≠ escape := by
            rintro rfl
            simp [hbreak] at he
          have hcont : afterContinuation? escape (Text.place offset (c :: more)) = none := by
            simp [afterContinuation?, hne]
          exact readUntil_of_end hcont hbreak
  | cons c content ih =>
      have hclean : ∀ d ∈ content, isLineBreak d = false :=
        fun d hd => clean d (List.mem_cons_of_mem _ hd)
      have hcont : afterContinuation? escape
          (⟨c, offset⟩ :: Text.place (offset + c.utf8Size) (content ++ more)) = none := by
        rw [afterContinuation?_place hclean hmore]
        split
        · rename_i h
          cases more with
          | nil => rfl
          | cons d more => simp [Text.beforeEscape?, h] at hplain
        · rfl
      have hrest : more ≠ [] → Text.beforeEscape? escape content = none := by
        intro hne
        have := hplain hne
        unfold Text.beforeEscape? at this
        split at this
        · cases this
        · exact Option.map_eq_none_iff.mp this
      rw [List.cons_append, Text.place_cons,
        readUntil_of_char hcont (clean c List.mem_cons_self), ih hclean hrest]
      simp [Nat.add_assoc]

def resume (escape : Char) (stop : Nat) (after : List Placed) : Run :=
  let skipped := skipLines stop after
  let next := readUntil isLineBreak escape stop skipped.rest
  { next with
    emptyLines := skipped.emptyLines ++ next.emptyLines
    comments := skipped.comments ++ next.comments }

theorem readUntil_open {content more front : Text} {after : List Placed} {offset : Nat}
    (clean : ∀ c ∈ content, isLineBreak c = false)
    (hmore : ∀ c ∈ more.head?, isLineBreak c = true)
    (hfront : Text.beforeEscape? escape content = some front)
    (hafter : afterNewline? (Text.place (offset + Text.byteLength content) more) = some after) :
    readUntil isLineBreak escape stop (Text.place offset (content ++ more)) =
      { resume escape stop after with
        chars := Text.place offset front ++ (resume escape stop after).chars } := by
  induction content generalizing offset front with
  | nil => cases hfront
  | cons c content ih =>
      have hclean : ∀ d ∈ content, isLineBreak d = false :=
        fun d hd => clean d (List.mem_cons_of_mem _ hd)
      have hcont := @afterContinuation?_place escape content more c (offset + c.utf8Size) offset
        hclean hmore
      rw [Text.byteLength_cons, ← Nat.add_assoc] at hafter
      unfold Text.beforeEscape? at hfront
      by_cases hescape : c = escape ∧ content.all isBlank = true
      · rw [if_pos hescape] at hfront hcont
        cases hfront
        rw [List.cons_append, Text.place_cons, readUntil_of_continuation (hcont.trans hafter)]
        rfl
      · rw [if_neg hescape] at hfront hcont
        obtain ⟨front', hfront', rfl⟩ := Option.map_eq_some_iff.mp hfront
        rw [List.cons_append, Text.place_cons,
          readUntil_of_char hcont (clean c List.mem_cons_self), ih hclean hfront' hafter]
        rfl

theorem Comment.read_place {body more : Text} (clean : ∀ c ∈ body, isLineBreak c = false)
    (hmore : ∀ c ∈ more.head?, isLineBreak c = true) (start offset : Nat) :
    (Comment.read stop start (Text.place offset (body ++ more))).2 =
      dropNewline (Text.place (offset + Text.byteLength body) more) := by
  have hbody : ∀ p ∈ Text.place offset body, (!isLineBreak p.char) = true := by
    intro p hp
    simp [clean _ (Text.char_mem_of_mem_place hp)]
  have hbreak : ∀ c ∈ more.head?, (!isLineBreak c) = false := by
    intro c hc
    simp [hmore c hc]
  unfold Comment.read
  rw [Text.place_append, List.dropWhile_append_of_pos hbody,
    dropWhile_place_more (f := fun c => !isLineBreak c) _ hbreak]

theorem Comment.text_read_place {body more : Text} (clean : ∀ c ∈ body, isLineBreak c = false)
    (hmore : ∀ c ∈ more.head?, isLineBreak c = true) (start offset : Nat) :
    (Comment.read stop start (Text.place offset (body ++ more))).1.text = Text.trimBlanks body := by
  have hnone : more.takeWhile (fun c => !isLineBreak c) = [] := by
    cases more with
    | nil => rfl
    | cons c more => simp [hmore c rfl]
  show Text.trimBlanks (Placed.text _) = _
  rw [Placed.text_takeWhile fun c => !isLineBreak c, Text.text_place,
    List.takeWhile_append_of_pos fun c hc => by simp [clean c hc], hnone, List.append_nil]

/-! ## All lines -/

def reading (escape : Char) (stop : Nat) (chars : List Placed) : List Trace × List Text :=
  ((logicalLines escape stop chars).map Trace.ofLine,
    (read escape stop chars).comments.map Comment.text)

/-- The same, if a logical line is open in front, and `run` is the rest of it. -/
def readingOn (escape : Char) (stop : Nat) (trace : Trace) (run : Run) : List Trace × List Text :=
  let next := reading escape stop (dropNewline run.rest)
  (⟨trace.kept ++ run.chars, trace.passed ++ run.emptyLines⟩ :: next.1,
    run.comments.map Comment.text ++ next.2)

/-- What is read of these characters is what these lines say, whether a logical line is open in
front of them or not. -/
structure ReadsTo (escape : Char) (stop : Nat) (chars : List Placed) (lines : List Line) : Prop where
  outside : reading escape stop chars = (traces escape none lines, lines.filterMap Line.comment?)
  inside : ∀ trace, readingOn escape stop trace (resume escape stop chars) =
    (traces escape (some trace) lines, lines.filterMap Line.comment?)

theorem ReadsTo.nil : ReadsTo escape stop [] [] := by
  have hread : reading escape stop [] = ([], []) := by
    rw [reading, (read_of_nil rfl).1, (read_of_nil rfl).2]
    rfl
  refine ⟨hread, fun trace => ?_⟩
  have hresume : resume escape stop [] = ⟨[], [], [], []⟩ := by
    rw [resume, skipLines_of_nil rfl, readUntil]
    rfl
  rw [readingOn, hresume]
  show (_ :: (reading escape stop []).1, _ ++ (reading escape stop []).2) = _
  rw [hread]
  simp [traces]

section Line

variable {line : Line} {lines : List Line} {more : Text} {after : List Placed}

/-- The rest of a line from its core on, read as part of a logical line that is open. -/
theorem ReadsTo.core (he : endsWord escape = false) (next : ReadsTo escape stop after lines)
    (clean : ∀ c ∈ line.content, isLineBreak c = false)
    (hmore : ∀ c ∈ more.head?, isLineBreak c = true)
    (hterm : line.terminator = [] ↔ more = []) {offset : Nat}
    (hafter : dropNewline (Text.place (offset + Text.byteLength line.core) more) = after)
    (trace : Trace) :
    readingOn escape stop trace
        (readUntil isLineBreak escape stop (Text.place offset (line.core ++ more))) =
      (if line.goesOn escape then
        traces escape (some ⟨trace.kept ++ Text.place offset (line.kept escape), trace.passed⟩) lines
      else ⟨trace.kept ++ Text.place offset (line.kept escape), trace.passed⟩ ::
        traces escape none lines, lines.filterMap Line.comment?) := by
  have hclean : ∀ c ∈ line.core, isLineBreak c = false :=
    fun c hc => clean c ((List.dropWhile_sublist _).mem hc)
  unfold Line.goesOn Line.kept
  cases hfront : line.beforeContinuation? escape with
  | none =>
      have hplain : more ≠ [] → Text.beforeEscape? escape line.core = none := by
        intro hne
        unfold Line.beforeContinuation? at hfront
        rwa [if_neg (by simpa [hterm] using hne)] at hfront
      rw [readUntil_plain (Bool.or_eq_false_iff.mp he).2 hclean hmore hplain, readingOn]
      dsimp only
      rw [hafter, next.outside]
      simp
  | some front =>
      have hescape : Text.beforeEscape? escape line.core = some front ∧ more ≠ [] := by
        unfold Line.beforeContinuation? at hfront
        split at hfront
        · cases hfront
        · rename_i hne
          exact ⟨hfront, by simpa [hterm] using hne⟩
      have hnewline : afterNewline? (Text.place (offset + Text.byteLength line.core) more) =
          some after := by
        obtain ⟨c, more, rfl⟩ := List.exists_cons_of_ne_nil hescape.2
        have hsome := isSome_afterNewline? ⟨c, offset + Text.byteLength line.core⟩
          (Text.place (offset + Text.byteLength line.core + c.utf8Size) more)
        rw [hmore c rfl] at hsome
        obtain ⟨rest, hrest⟩ := Option.isSome_iff_exists.mp hsome
        rw [← hafter, dropNewline, Text.place_cons, hrest]
        rfl
      have hinside := next.inside ⟨trace.kept ++ Text.place offset front, trace.passed⟩
      rw [readUntil_open hclean hmore hescape.1 hnewline]
      rw [readingOn, List.append_assoc] at hinside
      exact hinside

/-- The indentation, and behind it the core or, if there is none, the end of the line. -/
theorem place_line (line : Line) (hmore : ∀ c ∈ more.head?, isLineBreak c = true) :
    Text.place line.start (line.content ++ more) = Text.place line.start line.indent ++
        Text.place (line.start + Text.byteLength line.indent) (line.core ++ more) ∧
      (∀ p ∈ Text.place line.start line.indent, isBlank p.char = true) ∧
      ∀ c ∈ (line.core ++ more).head?, isBlank c = false := by
  refine ⟨?_, Text.isBlank_of_mem_place fun c hc => Line.isBlank_of_mem_indent hc, ?_⟩
  · rw [← Text.place_append, ← List.append_assoc, line.indent_append_core]
  · intro c hc
    cases hcore : line.core with
    | nil =>
        rw [hcore] at hc
        exact isBlank_of_isLineBreak (hmore c hc)
    | cons d core =>
        apply line.isBlank_core_head
        rw [hcore] at hc ⊢
        exact hc

theorem reading_append {front : List Placed} (h : ∀ p ∈ front, endsWord p.char = true)
    (chars : List Placed) : reading escape stop (front ++ chars) = reading escape stop chars := by
  have hdrop : (front ++ chars).dropWhile (fun p => endsWord p.char) =
      chars.dropWhile fun p => endsWord p.char := List.dropWhile_append_of_pos h
  unfold reading
  cases hchars : chars.dropWhile fun p => endsWord p.char with
  | nil =>
      rw [hchars] at hdrop
      rw [(read_of_nil hdrop).1, (read_of_nil hdrop).2, (read_of_nil hchars).1, (read_of_nil hchars).2]
  | cons p rest =>
      rw [hchars] at hdrop
      by_cases hmark : p.char = '#'
      · rw [(read_of_comment hdrop hmark).1, (read_of_comment hdrop hmark).2,
          (read_of_comment hchars hmark).1, (read_of_comment hchars hmark).2]
      · rw [(read_of_line hdrop hmark).1, (read_of_line hdrop hmark).2,
          (read_of_line hchars hmark).1, (read_of_line hchars hmark).2]

theorem reading_dropNewline (chars : List Placed) :
    reading escape stop (dropNewline chars) = reading escape stop chars := by
  unfold dropNewline
  cases h : afterNewline? chars with
  | none => rfl
  | some rest =>
      obtain ⟨ends, rfl, -, hends⟩ := exists_of_afterNewline? h
      exact (reading_append (fun p hp => endsWord_of_isLineBreak (hends p hp)) rest).symm

theorem dropWhile_place_line (line : Line) (hmore : ∀ c ∈ more.head?, isLineBreak c = true) :
    (Text.place line.start (line.content ++ more)).dropWhile (fun p => isBlank p.char) =
      Text.place (line.start + Text.byteLength line.indent) (line.core ++ more) := by
  obtain ⟨hsplit, hindent, hhead⟩ := place_line line hmore
  rw [hsplit, List.dropWhile_append_of_pos hindent]
  exact dropWhile_place_more _ hhead

theorem skipLines_of_blank (hmore : ∀ c ∈ more.head?, isLineBreak c = true)
    (hterm : line.terminator = [] ↔ more = [])
    (hafter : dropNewline (Text.place (line.start + Text.byteLength line.content) more) = after)
    (hcore : line.core = []) (hskip : line.isSkipped = true) :
    skipLines stop (Text.place line.start (line.content ++ more)) =
      { skipLines stop after with emptyLines := line.span :: (skipLines stop after).emptyLines } := by
  have hdrop := dropWhile_place_line line hmore
  have hlen := line.start_add_indent_add_core
  have hne : more ≠ [] := by
    intro hnil
    simp [Line.isSkipped, Line.isComment, hcore, hterm.mpr hnil] at hskip
  rw [hcore, Text.byteLength_nil, Nat.add_zero] at hlen
  rw [hcore, List.nil_append, hlen] at hdrop
  obtain ⟨c, tail, rfl⟩ := List.exists_cons_of_ne_nil hne
  have hstart : Placed.startOr stop (Text.place line.start (line.content ++ c :: tail)) =
      line.start := by
    cases line.content <;> rfl
  rw [skipLines_of_break hdrop (hmore c rfl), hstart]
  show Skipped.mk (_ :: (skipLines stop (dropNewline (Text.place _ (c :: tail)))).emptyLines)
    (skipLines stop (dropNewline (Text.place _ (c :: tail)))).comments
    (skipLines stop (dropNewline (Text.place _ (c :: tail)))).rest = _
  rw [hafter]
  rfl

theorem skipLines_of_mark (clean : ∀ c ∈ line.content, isLineBreak c = false)
    (hmore : ∀ c ∈ more.head?, isLineBreak c = true)
    (hafter : dropNewline (Text.place (line.start + Text.byteLength line.content) more) = after)
    {body : Text} (hcore : line.core = '#' :: body) :
    ∃ comment : Comment, comment.text = Text.trimBlanks body ∧
      skipLines stop (Text.place line.start (line.content ++ more)) =
        { skipLines stop after with comments := comment :: (skipLines stop after).comments } := by
  have hdrop := dropWhile_place_line line hmore
  have hlen := line.start_add_indent_add_core
  have hbody : ∀ c ∈ body, isLineBreak c = false := by
    intro c hc
    apply clean c ((List.dropWhile_sublist isBlank).mem _)
    show c ∈ line.core
    rw [hcore]
    exact List.mem_cons_of_mem _ hc
  rw [hcore, List.cons_append, Text.place_cons] at hdrop
  rw [hcore, Text.byteLength_cons, ← Nat.add_assoc] at hlen
  rw [skipLines_of_comment hdrop rfl, Comment.read_place hbody hmore, hlen, hafter]
  exact ⟨_, Comment.text_read_place hbody hmore _ _, rfl⟩

theorem skipLines_of_skipped (clean : ∀ c ∈ line.content, isLineBreak c = false)
    (hmore : ∀ c ∈ more.head?, isLineBreak c = true)
    (hterm : line.terminator = [] ↔ more = [])
    (hafter : dropNewline (Text.place (line.start + Text.byteLength line.content) more) = after)
    (hskip : line.isSkipped = true) :
    (skipLines stop (Text.place line.start (line.content ++ more))).rest =
      (skipLines stop after).rest := by
  cases hcore : line.core with
  | nil => rw [skipLines_of_blank hmore hterm hafter hcore hskip]
  | cons c body =>
      obtain rfl : c = '#' := by simpa [Line.isSkipped, Line.isComment, hcore] using hskip
      obtain ⟨comment, -, h⟩ := skipLines_of_mark clean hmore hafter hcore
      rw [h]

theorem skipLines_of_kept (clean : ∀ c ∈ line.content, isLineBreak c = false)
    (hmore : ∀ c ∈ more.head?, isLineBreak c = true)
    (hterm : line.terminator = [] ↔ more = []) (hskip : line.isSkipped = false) :
    skipLines stop (Text.place line.start (line.content ++ more)) =
      ⟨[], [], Text.place line.start (line.content ++ more)⟩ := by
  have hdrop := dropWhile_place_line line hmore
  unfold Line.isSkipped Line.isComment at hskip
  cases hcore : line.core with
  | nil =>
      apply skipLines_of_nil
      have hnil : more = [] := hterm.mp (by simpa [hcore] using hskip)
      rw [hdrop, hcore, hnil]
      rfl
  | cons c core =>
      rw [hcore, List.cons_append, Text.place_cons] at hdrop
      apply skipLines_of_content hdrop
      · apply clean c ((List.dropWhile_sublist isBlank).mem _)
        show c ∈ line.core
        rw [hcore]
        exact List.mem_cons_self
      · simpa [hcore] using hskip

theorem ReadsTo.outside_cons (he : endsWord escape = false) (next : ReadsTo escape stop after lines)
    (clean : ∀ c ∈ line.content, isLineBreak c = false)
    (hmore : ∀ c ∈ more.head?, isLineBreak c = true)
    (hterm : line.terminator = [] ↔ more = [])
    (hafter : dropNewline (Text.place (line.start + Text.byteLength line.content) more) = after) :
    reading escape stop (Text.place line.start (line.content ++ more)) =
      (traces escape none (line :: lines), (line :: lines).filterMap Line.comment?) := by
  obtain ⟨hsplit, hindent, hhead⟩ := place_line line hmore
  have hlen := line.start_add_indent_add_core
  rw [hsplit, reading_append fun p hp => by simp [endsWord, hindent p hp]]
  cases hcore : line.core with
  | nil =>
      have hpassed : extended? escape ((none : Option Trace).map Trace.kept) line = none := by
        simp [extended?, Line.isContent, hcore]
      have hcomment : line.comment? = none := by rw [Line.comment?, hcore]
      rw [hcore, Text.byteLength_nil, Nat.add_zero] at hlen
      rw [List.nil_append, hlen, ← reading_dropNewline, hafter, next.outside,
        traces_of_passed hpassed, List.filterMap_cons_none hcomment]
      rfl
  | cons c core =>
      have hclean : ∀ d ∈ c :: core, isLineBreak d = false := by
        rw [← hcore]
        exact fun d hd => clean d ((List.dropWhile_sublist _).mem hd)
      have hword : endsWord c = false := by
        simp [endsWord, hclean c List.mem_cons_self, hhead c (by rw [hcore]; rfl)]
      have hdrop : (Text.place (line.start + Text.byteLength line.indent)
          (c :: core ++ more)).dropWhile (fun p => endsWord p.char) =
            ⟨c, line.start + Text.byteLength line.indent⟩ ::
              Text.place (line.start + Text.byteLength line.indent + c.utf8Size) (core ++ more) :=
        dropWhile_place_more _ (by simp [hword])
      by_cases hmark : c = '#'
      · have hpassed : extended? escape ((none : Option Trace).map Trace.kept) line = none := by
          simp [extended?, Line.isContent, Line.isComment, hcore, hmark]
        have hcomment : line.comment? = some (Text.trimBlanks core) := by
          rw [Line.comment?, hcore]
          exact if_pos hmark
        have hbody : ∀ d ∈ core, isLineBreak d = false :=
          fun d hd => hclean d (List.mem_cons_of_mem _ hd)
        rw [hcore, Text.byteLength_cons, ← Nat.add_assoc] at hlen
        rw [reading, (read_of_comment hdrop hmark).1, (read_of_comment hdrop hmark).2,
          Comment.read_place hbody hmore, hlen, hafter, List.map_cons,
          Comment.text_read_place hbody hmore]
        obtain ⟨htraces, hcomments⟩ := Prod.mk.inj next.outside
        rw [htraces, hcomments, traces_of_passed hpassed, List.filterMap_cons_some hcomment]
        rfl
      · have hextended : extended? escape ((none : Option Trace).map Trace.kept) line =
            some (Text.place (line.start + Text.byteLength line.indent) (line.kept escape)) := by
          simp [extended?, Line.isContent, Line.isComment, hcore, hmark]
        have hcomment : line.comment? = none := by
          rw [Line.comment?, hcore]
          exact if_neg hmark
        rw [← hlen] at hafter
        have hread := next.core he clean hmore hterm hafter ⟨[], []⟩
        rw [hcore] at hread
        rw [reading, (read_of_line hdrop hmark).1, (read_of_line hdrop hmark).2, List.map_cons,
          Trace.ofLine, lineAt_chars, lineAt_emptyLines, afterLine_eq, commentsIn_eq, List.map_append,
          traces_of_extended hextended, List.filterMap_cons_none hcomment]
        exact hread

theorem ReadsTo.inside_cons (he : endsWord escape = false) (next : ReadsTo escape stop after lines)
    (clean : ∀ c ∈ line.content, isLineBreak c = false)
    (hmore : ∀ c ∈ more.head?, isLineBreak c = true)
    (hterm : line.terminator = [] ↔ more = [])
    (hafter : dropNewline (Text.place (line.start + Text.byteLength line.content) more) = after)
    (trace : Trace) :
    readingOn escape stop trace (resume escape stop (Text.place line.start (line.content ++ more))) =
      (traces escape (some trace) (line :: lines), (line :: lines).filterMap Line.comment?) := by
  have hinside (trace : Trace) := next.inside trace
  unfold readingOn resume at hinside
  cases hskip : line.isSkipped with
  | true =>
      have hpassed : extended? escape ((some trace).map Trace.kept) line = none := by
        simp [extended?, hskip]
      rw [traces_of_passed hpassed, Option.map_some]
      cases hcore : line.core with
      | nil =>
          have hcomment : line.comment? = none := by rw [Line.comment?, hcore]
          have hpass : trace.pass line = ⟨trace.kept, trace.passed ++ [line.span]⟩ := by
            rw [Trace.pass, hcore]
            rfl
          rw [readingOn, resume, skipLines_of_blank hmore hterm hafter hcore hskip,
            List.filterMap_cons_none hcomment, hpass, ← hinside]
          simp
      | cons c body =>
          obtain rfl : c = '#' := by simpa [Line.isSkipped, Line.isComment, hcore] using hskip
          have hcomment : line.comment? = some (Text.trimBlanks body) := by
            rw [Line.comment?, hcore]
            rfl
          have hpass : trace.pass line = trace := by
            rw [Trace.pass, hcore]
            rfl
          obtain ⟨comment, htext, hskipped⟩ := @skipLines_of_mark stop line more after clean hmore
            hafter body hcore
          obtain ⟨htraces, hcomments⟩ := Prod.mk.inj (hinside trace)
          rw [readingOn, resume, hskipped, List.filterMap_cons_some hcomment, hpass, ← htraces,
            ← hcomments, ← htext]
          simp
  | false =>
      have hextended : extended? escape ((some trace).map Trace.kept) line =
          some (trace.kept ++ Text.place line.start line.indent ++
            Text.place (line.start + Text.byteLength line.indent) (line.kept escape)) := by
        simp [extended?, hskip, Text.place_append]
      have hcomment : line.comment? = none := by
        unfold Line.isSkipped Line.isComment at hskip
        unfold Line.comment?
        split
        · rfl
        · rename_i c body hcore
          rw [if_neg]
          rintro rfl
          simp [hcore] at hskip
      obtain ⟨hsplit, hindent, -⟩ := place_line line hmore
      rw [← line.start_add_indent_add_core] at hafter
      have hread := next.core he clean hmore hterm hafter
        ⟨trace.kept ++ Text.place line.start line.indent, trace.passed⟩
      rw [readingOn, List.append_assoc] at hread
      rw [resume, skipLines_of_kept clean hmore hterm hskip, hsplit, readUntil_blanks he hindent,
        traces_of_extended hextended, List.filterMap_cons_none hcomment]
      exact hread

theorem ReadsTo.cons (he : endsWord escape = false) (next : ReadsTo escape stop after lines)
    (line : Line) (clean : ∀ c ∈ line.content, isLineBreak c = false)
    (hmore : ∀ c ∈ more.head?, isLineBreak c = true)
    (hterm : line.terminator = [] ↔ more = [])
    (hafter : dropNewline (Text.place (line.start + Text.byteLength line.content) more) = after) :
    ReadsTo escape stop (Text.place line.start (line.content ++ more)) (line :: lines) :=
  ⟨next.outside_cons he clean hmore hterm hafter, next.inside_cons he clean hmore hterm hafter⟩

end Line

end Reading

section Lined

variable {escape : Char} (he : endsWord escape = false) (stop : Nat) {start : Nat} {text : Text}
  {lines : List Line} (h : Lined start text lines)
include he h

theorem readsTo_place : ReadsTo escape stop (Text.place start text) lines := by
  induction h with
  | @last start content clean =>
      have hlast := @ReadsTo.cons escape stop [] [] [] he .nil ⟨start, content, []⟩ clean (by simp)
        (by simp) rfl
      rwa [List.append_nil] at hlast
  | @cons start content terminator rest lines clean ends next ih =>
      have hafter : dropNewline (Text.place (start + Text.byteLength content) (terminator ++ rest)) =
          Text.place (start + Text.byteLength (content ++ terminator)) rest := by
        rw [dropNewline, afterNewline?_place ends, Text.byteLength_append, Nat.add_assoc]
        rfl
      exact ih.cons he ⟨start, content, terminator⟩ clean (ends.isLineBreak_head rest)
        (by simp [ends.ne_nil]) hafter

/-- What the logical lines of a text keep and pass over, line by line. -/
theorem traces_logicalLines :
    (logicalLines escape stop (Text.place start text)).map Trace.ofLine = traces escape none lines :=
  congrArg Prod.fst (readsTo_place he stop h).outside

theorem comments_read :
    (read escape stop (Text.place start text)).comments.map Comment.text =
      lines.filterMap Line.comment? :=
  congrArg Prod.snd (readsTo_place he stop h).outside

/-- What the logical lines of a text keep, line by line. -/
theorem chars_logicalLines :
    (logicalLines escape stop (Text.place start text)).map Instruction.chars =
      runs escape none lines := by
  have hkept := congrArg (List.map Trace.kept) (traces_logicalLines he stop h)
  rw [List.map_map, kept_traces] at hkept
  exact hkept

end Lined

end Body

end Dockerfile
