import Dockerfile.Proofs.Directive.Entry
import Dockerfile.Proofs.Editor.Reindented

/-!
# Formatting and directives

A layout reindents the lines of directives as well. What these say stays the same if no value is cut
into and no two line terminators become one: the formatted text then has the same lines up to where its
body begins, with other indentations (`Layout.exists_readAll_relaid`). Two terminators may become one
where the body begins if no directive follows them (`Layout.readsAlike_of_joins`).
-/

namespace Dockerfile

namespace Layout

variable {text : Text} {extents : List (Nat × Nat)} {options : IndentOptions}
  {edit? : Nat → Option TextEdit}

/-! ## What is spared -/

/-- The edits cut into none of these values, and up to `resume` they do not move a line feed behind a
`\r`. -/
structure Spares (text : Text) (edit? : Nat → Option TextEdit) (found : List Directive)
    (resume : Nat) : Prop where
  values : ∀ {front rest before line after edit}, Text.Cut text front rest before (line :: after) →
    edit? before.length = some edit → ∀ d ∈ found,
      ¬ (d.valueSpan.start < line.start ∧ line.start < d.valueSpan.stop)
  apart : ∀ {front rest before line after edit}, Text.Cut text front rest before (line :: after) →
    line.start ≤ resume → edit? before.length = some edit → edit.newText = [] →
      front.getLast? = some '\r' →
      (Text.dropBytes (Text.byteLength (indentation line)) rest).head? ≠ some '\n'

section Spares

variable {found : List Directive} {resume : Nat} {front rest : Text} {before after : List Line}
  {line : Line}

theorem Spares.isTerminator (h : Spares text edit? found resume)
    (hedits : Reindenting text extents options edit?)
    (hcut : Text.Cut text front rest before (line :: after)) (hresume : line.start ≤ resume)
    {terminator : Text} (hterm : terminator <:+ front) (ends : IsTerminator terminator rest) :
    IsTerminator terminator (relaid edit? before.length (line :: after)) := by
  rcases ends with heq | heq | ⟨heq, hne⟩
  · exact .inl heq
  · exact .inr (.inl heq)
  · refine .inr (.inr ⟨heq, fun hhead => ?_⟩)
    obtain ⟨rest', hrest, hclean, hmore, hnext⟩ := hcut.exists_next
    obtain ⟨out, hout⟩ := List.head?_eq_some_iff.mp hhead
    rw [relaid_cons before.length 0] at hout
    obtain ⟨hnil, hout⟩ := relaidLine_eq_nil hedits hclean hout
    have hrest' : (line.terminator ++ rest').head? = some '\n' := by
      rcases hnext with ⟨rfl, hempty, rfl⟩ | ⟨ends, -⟩
      · rw [hempty] at hout
        cases hout
      · have hfirst := congrArg List.head? hout
        rw [ends.head?_append] at hfirst ⊢
        exact hfirst
    cases hedit : edit? before.length with
    | none =>
        rw [relaidLine_of_none hedit] at hnil
        rw [hrest, hnil] at hne
        exact hne hrest'
    | some edit =>
        obtain ⟨hindent, hcore⟩ := List.append_eq_nil_iff.mp hnil
        have hnew : edit.newText = [] := by
          rwa [newIndent, hedit] at hindent
        have hlast : front.getLast? = some '\r' := by
          obtain ⟨start, rfl⟩ := hterm
          rw [heq, List.getLast?_concat]
        refine h.apart hcut hresume hedit hnew hlast ?_
        rw [hrest, ← indentation_append line, List.append_assoc, Text.dropBytes_append_byteLength,
          hcore]
        exact hrest'

theorem Spares.trimBlanksEnd_eq (h : Spares text edit? found resume)
    (hedits : Reindenting text extents options edit?)
    (hcut : Text.Cut text front rest before (line :: after)) {e : Directive} (he : e ∈ found)
    (hstart : e.valueSpan.start < line.start)
    (hstop : line.start + Text.byteLength (Text.trimBlanksEnd line.content) ≤ e.valueSpan.stop)
    (start : Nat) :
    Text.trimBlanksEnd (relaidLine edit? before.length start line).content =
      Text.trimBlanksEnd line.content := by
  cases hedit : edit? before.length with
  | none => rw [relaidLine_of_none hedit]
  | some edit =>
      have hvalue := h.values hcut hedit e he
      have hnil : Text.trimBlanksEnd line.content = [] := by
        cases htrim : Text.trimBlanksEnd line.content with
        | nil => rfl
        | cons c trimmed =>
            rw [htrim, Text.byteLength_cons] at hstop
            have := c.utf8Size_pos
            omega
      have hcore : line.content.dropWhile isBlank = [] :=
        (core_eq_nil_iff line).mpr (List.all_eq_true.mpr (Text.trimBlanksEnd_eq_nil_iff.mp hnil))
      rw [hnil, relaidLine, hcore, List.append_nil]
      exact Text.trimBlanksEnd_eq_nil_iff.mpr (newIndent_blank hedits before.length line)

end Spares

/-! ## Directives of the formatted text -/

/-- Up to a line, the formatted text `out` has the lines `before'`. -/
structure Opens (edit? : Nat → Option TextEdit) (out front' : Text) (before' : List Line)
    (number : Nat) (lines : List Line) : Prop where
  split : out = front' ++ relaid edit? number lines
  leading : Text.Leading front' (relaid edit? number lines) before'

/-- The formatted text has the lines `taken`, and then the lines `others` of the text with their new
indentation. -/
def Reaches (edit? : Nat → Option TextEdit) (out : Text) (taken : List Line) (number : Nat)
    (others : List Line) : Prop :=
  others = [] ∧ taken = Text.lines out ∨
    others ≠ [] ∧ ∃ front, Opens edit? out front taken number others

variable {found : List Directive} {resume : Nat} {out front rest front' : Text}
  {before before' after : List Line} {line : Line}

/-- The formatted text has each line that the text has, with another indentation. -/
theorem Opens.next (h : Opens edit? out front' before' before.length (line :: after))
    (hspares : Spares text edit? found resume)
    (hedits : Reindenting text extents options edit?)
    (hcut : Text.Cut text front rest before (line :: after))
    (hresume : ∀ l ∈ after.head?, l.start ≤ resume) :
    let line' := relaidLine edit? before.length (Text.byteLength front') line
    after = [] ∧ before' ++ [line'] = Text.lines out ∨
      ∃ front rest front', Text.Cut text front rest (before ++ [line]) after ∧
        line.stop < Text.byteLength front ∧
        Opens edit? out front' (before' ++ [line']) (before ++ [line]).length after := by
  intro line'
  obtain ⟨rest', hrest, hclean, hmore, hnext⟩ := hcut.exists_next
  have hclean' := relaidLine_clean hedits before.length (Text.byteLength front') hclean
  have hrelaid := @relaid_cons edit? before.length (Text.byteLength front') line after
  have hleading := h.leading
  rw [hrelaid] at hleading
  rcases hnext with ⟨rfl, hterm, -⟩ | ⟨ends, hnext⟩
  · left
    refine ⟨rfl, ?_⟩
    rw [h.split, hrelaid, hleading.eq id, hterm]
    simp only [relaid, List.append_nil]
    rw [Text.linesFrom_last hclean']
    simp only [line', relaidLine, hterm]
  · right
    have hlen : (before ++ [line]).length = before.length + 1 := List.length_append
    have hends : IsTerminator line.terminator (relaid edit? (before.length + 1) after) := by
      cases after with
      | nil => cases hnext.lined
      | cons first after =>
          rw [← hlen]
          refine hspares.isTerminator hedits hnext (hresume first rfl) ?_ ends
          exact (List.suffix_append _ _).trans (List.suffix_append _ _)
    refine ⟨_, _, front' ++ (line'.content ++ line.terminator), hnext, ?_, ?_, ?_⟩
    · have := ends.byteLength_pos
      rw [Line.stop, hcut.start_eq]
      simp only [Text.byteLength_append]
      omega
    · rw [h.split, hrelaid, hlen]
      simp only [line', List.append_assoc]
    · rw [hlen]
      exact hleading.snoc hclean' hends

def Follows (text : Text) (edit? : Nat → Option TextEdit) (out : Text) (resume : Nat)
    (current : Option Directive) (taken : List Line) (found : List Directive)
    (last : Option Directive) : Prop :=
  ∀ {current' front rest before others front' before'},
    Text.Cut text front rest before (taken ++ others) →
    Opens edit? out front' before' before.length (taken ++ others) →
    Spares text edit? found resume → (∀ l ∈ taken ++ others.head?.toList, l.start ≤ resume) →
    current'.map Directive.entry = current.map Directive.entry →
    (∀ d ∈ current, d.valueSpan.start < Text.byteLength front ∧
      d.valueSpan.stop ≤ Text.byteLength front) →
    ∃ taken' found' last', Directive.Taken current' taken' found' last' ∧
      found'.map Directive.entry = found.map Directive.entry ∧
      last'.map Directive.entry = last.map Directive.entry ∧
      Reaches edit? out (before' ++ taken') (before.length + taken.length) others

theorem Spares.mono {found' : List Directive} (h : Spares text edit? found resume)
    (hsub : ∀ d ∈ found', d ∈ found) : Spares text edit? found' resume :=
  ⟨fun hcut hedit d hd => h.values hcut hedit d (hsub d hd), h.apart⟩

theorem toList_entry {current current' : Option Directive}
    (h : current'.map Directive.entry = current.map Directive.entry) :
    current'.toList.map Directive.entry = current.toList.map Directive.entry := by
  rw [← Option.toList_map, h, Option.toList_map]

theorem Follows.step {current current' last : Option Directive} {lines others : List Line}
    (ih : Follows text edit? out resume current lines found last)
    (htaken : Directive.Taken current lines found last)
    (hedits : Reindenting text extents options edit?) (hspares : Spares text edit? found resume)
    (hcut : Text.Cut text front rest before (line :: (lines ++ others)))
    (hopens : Opens edit? out front' before' before.length (line :: (lines ++ others)))
    (hresume : ∀ l ∈ lines ++ others.head?.toList, l.start ≤ resume)
    (hcurrent : current'.map Directive.entry = current.map Directive.entry)
    (hbound : ∀ d ∈ current, d.valueSpan.start ≤ line.stop ∧ d.valueSpan.stop ≤ line.stop) :
    ∃ taken' found' last', Directive.Taken current' taken' found' last' ∧
      found'.map Directive.entry = found.map Directive.entry ∧
      last'.map Directive.entry = last.map Directive.entry ∧
      Reaches edit? out
        (before' ++ relaidLine edit? before.length (Text.byteLength front') line :: taken')
        (before.length + (line :: lines).length) others := by
  have hhead : ∀ l ∈ (lines ++ others).head?, l.start ≤ resume := by
    intro l hl
    cases lines with
    | nil => exact hresume l (by simpa using hl)
    | cons first lines =>
        cases Option.mem_some.mp hl
        exact hresume _ List.mem_cons_self
  rcases hopens.next hspares hedits hcut hhead with ⟨hnil, hlines⟩ | ⟨_, _, _, hcut, hlt, hopens⟩
  · obtain ⟨rfl, rfl⟩ := List.append_eq_nil_iff.mp hnil
    cases htaken
    exact ⟨[], current'.toList, current', .done _, toList_entry hcurrent, hcurrent, .inl ⟨rfl, hlines⟩⟩
  · obtain ⟨taken', found', last', htaken', hfound, hlast, hreaches⟩ :=
      ih hcut hopens hspares hresume hcurrent fun d hd => by
        have := hbound d hd
        omega
    refine ⟨taken', found', last', htaken', hfound, hlast, ?_⟩
    rw [List.append_assoc, List.singleton_append, List.length_append, List.length_singleton,
      Nat.add_right_comm] at hreaches
    exact hreaches

theorem follows_of_taken (hedits : Reindenting text extents options edit?)
    {current last : Option Directive} {taken : List Line}
    (h : Directive.Taken current taken found last) :
    Follows text edit? out resume current taken found last := by
  induction h with
  | done current =>
      intro current' front rest before others front' before' hcut hopens _ _ hcurrent _
      refine ⟨[], current'.toList, current', .done _, toList_entry hcurrent, hcurrent, .inr ⟨?_, front', ?_⟩⟩
      · rintro rfl
        cases hcut.lined
      · rw [List.append_nil]
        exact hopens
  | @extend d last line lines found goes_on rest ih =>
      intro current' front _ before others front' before' hcut hopens hspares hresume hcurrent hbound
      obtain ⟨d', rfl, hd'⟩ := Option.map_eq_some_iff.mp hcurrent
      obtain ⟨hstart, -⟩ := hbound d rfl
      have hordered := hcut.lined.pairwise
      rw [List.cons_append, List.pairwise_cons] at hordered
      have hstop := Directive.valueSpan_extend_stop_le d line
      have hlater : ∀ l ∈ lines, (d.extend line).valueSpan.stop ≤ l.start := fun l hl => by
        have := hordered.1 l (List.mem_append_left _ hl)
        omega
      obtain ⟨e, he, hestart, hestop⟩ := rest.exists_value
        ((List.pairwise_append.mp hordered.2).1.imp Nat.le_of_lt) hlater
      have htrim := hspares.trimBlanksEnd_eq hedits hcut he
        (by rw [hestart, hcut.start_eq]; exact hstart) hestop (Text.byteLength front')
      have hextend : (some (d'.extend (relaidLine edit? before.length
          (Text.byteLength front') line))).map Directive.entry =
            (some (d.extend line)).map Directive.entry :=
        congrArg some (Directive.extend_entry hd' htrim)
      have hline : line.start ≤ line.stop := Nat.le_add_right _ _
      rw [← hcut.start_eq] at hstart
      obtain ⟨taken', found', last', htaken', hrest⟩ := ih.step rest hedits hspares hcut hopens
        (fun l hl => hresume l (List.mem_cons_of_mem _ hl)) hextend fun f hf => by
          cases Option.mem_some.mp hf
          exact ⟨Nat.le_trans (Nat.le_of_lt hstart) hline, hstop⟩
      exact ⟨_, found', last', .extend (by rw [Directive.isOpen_congr hd']; exact goes_on) htaken', hrest⟩
  | @next d next last line lines found ends read rest ih =>
      intro current' front _ before others front' before' hcut hopens hspares hresume hcurrent hbound
      obtain ⟨d', rfl, hd'⟩ := Option.map_eq_some_iff.mp hcurrent
      have hread := Directive.ofLine?_congr_core
        (relaidLine_core hedits before.length (Text.byteLength front') line)
      rw [read] at hread
      obtain ⟨next', hread', hnext'⟩ := Option.map_eq_some_iff.mp hread
      have hnext' : (some next').map Directive.entry = (some next).map Directive.entry :=
        congrArg some hnext'
      obtain ⟨taken', found', last', htaken', hfound, hrest⟩ := ih.step rest hedits
        (hspares.mono fun e he => List.mem_cons_of_mem _ he) hcut hopens
        (fun l hl => hresume l (List.mem_cons_of_mem _ hl)) hnext' fun f hf => by
          cases Option.mem_some.mp hf
          exact Directive.valueSpan_le_of_ofLine? read
      refine ⟨_, d' :: found', last',
        .next (by rw [Directive.isOpen_congr hd']; exact ends) hread' htaken', ?_, hrest⟩
      rw [List.map_cons, List.map_cons, hd', hfound]
  | @first next last line lines found read rest ih =>
      intro current' front _ before others front' before' hcut hopens hspares hresume hcurrent hbound
      obtain rfl := Option.map_eq_none_iff.mp hcurrent
      have hread := Directive.ofLine?_congr_core
        (relaidLine_core hedits before.length (Text.byteLength front') line)
      rw [read] at hread
      obtain ⟨next', hread', hnext'⟩ := Option.map_eq_some_iff.mp hread
      have hnext' : (some next').map Directive.entry = (some next).map Directive.entry :=
        congrArg some hnext'
      obtain ⟨taken', found', last', htaken', hrest⟩ := ih.step rest hedits hspares hcut hopens
        (fun l hl => hresume l (List.mem_cons_of_mem _ hl)) hnext' fun f hf => by
          cases Option.mem_some.mp hf
          exact Directive.valueSpan_le_of_ofLine? read
      exact ⟨_, found', last', .first hread' htaken', hrest⟩

/-- A line that is no directive is none with another indentation either. -/
theorem exists_linesFrom_relaid (hedits : Reindenting text extents options edit?)
    (hcut : Text.Cut text front rest before (line :: after)) (hnone : Directive.ofLine? line = none)
    (start : Nat) :
    ∃ line' after', Text.linesFrom start start (relaid edit? before.length (line :: after)) =
      line' :: after' ∧ Directive.ofLine? line' = none := by
  obtain ⟨rest', -, hclean, -, hnext⟩ := hcut.exists_next
  have hmore : ∀ c ∈ (line.terminator ++ relaid edit? (before.length + 1) after).head?,
      isLineBreak c = true := by
    rcases hnext with ⟨rfl, hterm, -⟩ | ⟨ends, -⟩
    · simp [hterm, relaid]
    · exact ends.isLineBreak_head _
  obtain ⟨terminator, after', hfrom, -⟩ := Text.exists_linesFrom
    (relaidLine_clean hedits before.length start hclean) hmore start
  rw [← relaid_cons] at hfrom
  refine ⟨_, after', hfrom, ?_⟩
  exact @Directive.ofLine?_eq_none_congr line ⟨start, _, terminator⟩
    (relaidLine_core hedits before.length start line) hnone

/-- Where the body of the formatted text begins: behind the same lines as that of the text, or at the
end if there are only directives. -/
inductive BodyOpens (text : Text) (edit? : Nat → Option TextEdit) (out : Text) : Nat → Prop
  | none (resume : (Directive.readAll text).2 = Text.byteLength text) :
      BodyOpens text edit? out (Text.byteLength out)
  | some {front body front' : Text} {taken taken' tail : List Line} {line : Line}
      (resume : (Directive.readAll text).2 = Text.byteLength front)
      (cut : Text.Cut text front body taken (line :: tail))
      (opens : Opens edit? out front' taken' taken.length (line :: tail))
      {last : Option Directive}
      (read : Directive.Taken none taken' (Directive.readAll out).1 last)
      (closed : ∀ d ∈ last, d.isOpen = false) : BodyOpens text edit? out (Text.byteLength front')

theorem exists_readAll_relaid (hedits : Reindenting text extents options edit?)
    (hspares : Spares text edit? (Directive.readAll text).1 (Directive.readAll text).2) :
    let out := relaid edit? 0 (Text.lines text)
    (Directive.readAll out).1.map Directive.entry = (Directive.readAll text).1.map Directive.entry ∧
      BodyOpens text edit? out (Directive.readAll out).2 := by
  intro out
  obtain ⟨taken, found, last, htaken, hends⟩ := Directive.exists_taken text
  have hfollows (others : List Line) (hlines : Text.lines text = taken ++ others)
      (hfound : (Directive.readAll text).1 = found)
      (hresume : ∀ l ∈ taken ++ others.head?.toList, l.start ≤ (Directive.readAll text).2) :=
    @follows_of_taken text extents options edit? found (Directive.readAll text).2 out hedits none last
      taken htaken none [] text [] others [] []
      (by rw [← hlines]; exact Text.cut_start text)
      (by rw [← hlines]; exact ⟨rfl, Text.leading_nil _⟩)
      (by rw [← hfound]; exact hspares) hresume rfl (by simp)
  rcases hends with hall | ⟨front, body, line, tail, hcut, hnone, hclosed⟩
  · -- There are only directives.
    have hread := (Directive.readAll_of_taken htaken).1 hall
    rw [hread] at hfollows
    obtain ⟨taken', found', last', htaken', hentry, -, ⟨-, hlines'⟩ | ⟨hne, -⟩⟩ :=
      hfollows [] (by rw [List.append_nil, hall]) rfl fun l hl => by
        rw [List.head?_nil, Option.toList_none, List.append_nil, hall] at hl
        have := (lined_lines text).start_le_stop hl
        omega
    · rw [(Directive.readAll_of_taken htaken').1 hlines', hread]
      exact ⟨hentry, .none (by rw [hread])⟩
    · exact absurd rfl hne
  · have hread := (Directive.readAll_of_taken htaken).2 hcut.split hcut.leading
      hcut.lined.linesFrom_eq hnone hclosed
    rw [hread] at hfollows
    obtain ⟨taken', found', last', htaken', hentry, hlast, ⟨hnil, -⟩ | ⟨-, front', hopens⟩⟩ :=
      hfollows (line :: tail) hcut.lines_eq rfl fun l hl => by
        rcases List.mem_append.mp hl with hl | hl
        · exact Nat.le_of_lt (hcut.leading.start_lt l hl)
        · exact Nat.le_of_eq (by rw [List.mem_singleton.mp hl, hcut.start_eq])
    · cases hnil
    · rw [List.nil_append, List.length_nil, Nat.zero_add] at hopens
      obtain ⟨line', tail', hfrom', hnone'⟩ :=
        exists_linesFrom_relaid hedits hcut hnone (Text.byteLength front')
      have hclosed' : ∀ d ∈ last', d.isOpen = false := by
        intro d hd
        rw [Option.mem_def.mp hd] at hlast
        obtain ⟨e, he, hentry⟩ := Option.map_eq_some_iff.mp hlast.symm
        rw [← Directive.isOpen_congr hentry]
        exact hclosed e he
      have hread' := (Directive.readAll_of_taken htaken').2 hopens.split hopens.leading hfrom' hnone'
        hclosed'
      rw [hread', hread]
      exact ⟨hentry, .some (by rw [hread]) hcut hopens (by rw [hread']; exact htaken') hclosed'⟩

/-- The formatted text has directives that say the same, and in front of its body what the text has
there up to indentation. -/
def ReadsAlike (text : Text) (edit? : Nat → Option TextEdit) : Prop :=
  let out := relaid edit? 0 (Text.lines text)
  (Directive.readAll out).1.map Directive.entry = (Directive.readAll text).1.map Directive.entry ∧
    Relaid (LineEdit text edit?) True (Text.byteLength text) true
      (Directive.bodyChars text (Directive.readAll text).2)
      (Directive.bodyChars out (Directive.readAll out).2)

theorem Spares.readsAlike (hedits : Reindenting text extents options edit?)
    (hspares : Spares text edit? (Directive.readAll text).1 (Directive.readAll text).2) :
    ReadsAlike text edit? := by
  obtain ⟨hentry, hopens⟩ := exists_readAll_relaid hedits hspares
  refine ⟨hentry, ?_⟩
  generalize (Directive.readAll (relaid edit? 0 (Text.lines text))).2 = resume at hopens
  cases hopens with
  | none hresume =>
      rw [hresume, Directive.bodyChars_byteLength, Directive.bodyChars_byteLength]
      exact .nil
  | @some front body front' taken taken' tail line hresume hcut hopens =>
      have hbody := Directive.bodyChars_append front body
      have hbody' := Directive.bodyChars_append front' (relaid edit? taken.length (line :: tail))
      rw [← hcut.split] at hbody
      rw [← hopens.split] at hbody'
      rw [hresume, hbody, hbody']
      exact (relaid_of_cut hedits hcut (Text.byteLength front')).1

/-! ## A line feed that moves in front of the body -/

/-- The edit of the line moves the line feed behind it to a `\r` in front of it. -/
structure Joins (text : Text) (edit? : Nat → Option TextEdit) (front rest : Text)
    (before after : List Line) (line : Line) : Prop where
  cut : Text.Cut text front rest before (line :: after)
  edited : ∃ edit, edit? before.length = some edit ∧ edit.newText = []
  last : front.getLast? = some '\r'
  head : (Text.dropBytes (Text.byteLength (indentation line)) rest).head? = some '\n'

def sparing (text : Text) (edit? : Nat → Option TextEdit) (number : Nat) : Option TextEdit :=
  if (Text.line text number).start = (Directive.readAll text).2 then none else edit? number

theorem reindenting_sparing (hedits : Reindenting text extents options edit?) :
    Reindenting text extents options (sparing text edit?) := by
  intro number edit hedit
  unfold sparing at hedit
  split at hedit
  · cases hedit
  · exact hedits number edit hedit

theorem relaid_append (number : Nat) (lines more : List Line) :
    relaid edit? number (lines ++ more) =
      relaid edit? number lines ++ relaid edit? (number + lines.length) more := by
  induction lines generalizing number with
  | nil => rfl
  | cons line lines ih =>
      rw [List.cons_append, relaid, relaid, ih, List.length_cons, Nat.add_right_comm, Nat.add_assoc]
      simp only [List.append_assoc]

theorem relaid_sparing (hcut : Text.Cut text front rest before (line :: after))
    (hresume : (Directive.readAll text).2 = Text.byteLength front) :
    relaid (sparing text edit?) 0 before = relaid edit? 0 before := by
  suffices h : ∀ lines init, before = init ++ lines →
      relaid (sparing text edit?) init.length lines = relaid edit? init.length lines from
    h before [] rfl
  intro lines
  induction lines with
  | nil => intro _ _; rfl
  | cons first lines ih =>
      intro init hbefore
      have hline : Text.line text init.length = first := by
        rw [Text.line, hcut.lines_eq, hbefore]
        simp
      have hlt := hcut.leading.start_lt first (by rw [hbefore]; simp)
      have hsame : sparing text edit? init.length = edit? init.length := by
        rw [sparing, if_neg (by rw [hline]; omega)]
      have hnext := ih (init ++ [first]) (by rw [hbefore, List.append_assoc, List.singleton_append])
      rw [List.length_append, List.length_singleton] at hnext
      rw [relaid, relaid, newIndent, newIndent, hsame, hnext]

theorem getLast?_relaid (hcut : Text.Cut text front rest before (line :: after)) :
    (relaid edit? 0 before).getLast? = front.getLast? := by
  rcases List.eq_nil_or_concat before with rfl | ⟨init, first, rfl⟩
  · rw [hcut.front_eq]
    rfl
  rw [List.concat_eq_append] at hcut ⊢
  have hlines : Text.lines text = init ++ first :: line :: after := by
    rw [hcut.lines_eq, List.append_assoc, List.singleton_append]
  obtain ⟨start, own, hfirst⟩ := Text.Cut.exists_of_lines hlines
  obtain ⟨rest', -, -, -, ⟨hnil, -⟩ | ⟨ends, hnext⟩⟩ := hfirst.exists_next
  · cases hnil
  · have hlast (a : Text) : (a ++ first.terminator).getLast? = first.terminator.getLast? := by
      rw [List.getLast?_append, Option.or_of_isSome (List.getLast?_isSome.mpr ends.ne_nil)]
    rw [hcut.front_eq, ← hnext.front_eq, relaid_append, relaid, relaid, List.append_nil]
    simp only [← List.append_assoc, hlast]

/-- The line is blank, and only the line feed is left of it. -/
theorem Joins.relaid_eq (hjoins : Joins text edit? front rest before after line) :
    line.content = indentation line ∧ line.terminator = ['\n'] ∧ after ≠ [] ∧
      relaid edit? before.length (line :: after) =
        '\n' :: relaid edit? (before.length + 1) after := by
  obtain ⟨hcut, ⟨edit, hedit, hnew⟩, -, hhead⟩ := hjoins
  obtain ⟨rest', hrest, hclean, -, hnext⟩ := hcut.exists_next
  rw [hrest, ← indentation_append line, List.append_assoc, Text.dropBytes_append_byteLength] at hhead
  have hcore : line.content.dropWhile isBlank = [] := by
    cases hcore : line.content.dropWhile isBlank with
    | nil => rfl
    | cons c core =>
        rw [hcore] at hhead
        obtain rfl : c = '\n' := Option.some.inj hhead
        have hmem : '\n' ∈ line.content := (List.dropWhile_sublist _).mem (by rw [hcore]; simp)
        cases hclean _ hmem
  rw [hcore, List.nil_append] at hhead
  rcases hnext with ⟨-, hterm, rfl⟩ | ⟨ends, hnext⟩
  · rw [hterm] at hhead
    cases hhead
  · obtain ⟨more, hmore⟩ := List.head?_eq_some_iff.mp hhead
    have hterm := (ends.eq_feed hmore).1
    have hcontent := indentation_append line
    rw [hcore, List.append_nil] at hcontent
    refine ⟨hcontent.symm, hterm, hnext.lined.ne_nil, ?_⟩
    rw [relaid, newIndent, hedit, hcore, hterm, Option.map_some, Option.getD_some, hnew]
    rfl

/-- If no directive is behind the line feed, then the `\r` takes it into the last line of the
directives, and the body begins behind it. -/
theorem Joins.readsAlike (hjoins : Joins text edit? front rest before after line)
    (hedits : Reindenting text extents options edit?)
    (hspares : Spares text (sparing text edit?) (Directive.readAll text).1 (Directive.readAll text).2)
    (hresume : (Directive.readAll text).2 = Text.byteLength front)
    (hnone : ∀ next ∈ after.head?, Directive.ofLine? next = none) : ReadsAlike text edit? := by
  obtain ⟨-, hterm, hne, hrelaid⟩ := hjoins.relaid_eq
  obtain ⟨next, tail, rfl⟩ := List.exists_cons_of_ne_nil hne
  have hcut := hjoins.cut
  obtain ⟨rest', hrest, -, -, ⟨hnil, -⟩ | ⟨-, hnext⟩⟩ := hcut.exists_next
  · cases hnil
  obtain ⟨hentry, hopens⟩ := exists_readAll_relaid (reindenting_sparing hedits) hspares
  generalize hread : Directive.readAll (relaid (sparing text edit?) 0 (Text.lines text)) = found
    at hentry hopens
  obtain ⟨found, resume⟩ := found
  cases hopens with
  | none hall =>
      rw [hresume, hcut.split, Text.byteLength_append, hrest, hterm] at hall
      simp only [Text.byteLength_append, Text.byteLength_cons] at hall
      have := ('\n').utf8Size_pos
      omega
  | @some _ _ front' _ _ _ _ hresume' hcut' hopens _ htaken hclosed =>
      obtain ⟨rfl, rfl, hlines⟩ := hcut.unique hcut' (hresume.symm.trans hresume')
      obtain ⟨rfl, rfl⟩ := List.cons.inj hlines
      have hfront : front' = relaid edit? 0 before := by
        have hsplit := hopens.split
        rw [hcut.lines_eq, relaid_append, Nat.zero_add, relaid_sparing hcut hresume] at hsplit
        exact (List.append_cancel_right hsplit).symm
      have hlast : front'.getLast? = some '\r' := by
        rw [hfront, getLast?_relaid hcut, hjoins.last]
      have hout : relaid edit? 0 (Text.lines text) =
          (front' ++ ['\n']) ++ relaid edit? (before.length + 1) (next :: tail) := by
        rw [hcut.lines_eq, relaid_append, Nat.zero_add, hrelaid, ← hfront, List.append_assoc,
          List.singleton_append]
      obtain ⟨init, own, rfl, hfeed⟩ := hopens.leading.exists_feed hlast
      obtain ⟨line', tail', hfrom, hnone'⟩ := exists_linesFrom_relaid hedits hnext (hnone next rfl)
        (Text.byteLength (front' ++ ['\n']))
      rw [List.length_append, List.length_singleton] at hfrom
      rw [hread] at htaken
      have hread' := (Directive.readAll_of_taken (htaken.withTerminator ['\r', '\n'])).2 hout
        (hfeed _) hfrom hnone' hclosed
      refine ⟨by rw [hread']; exact hentry, ?_⟩
      have hbody := Directive.bodyChars_append front rest
      have hbody' := Directive.bodyChars_append (front' ++ ['\n'])
        (relaid edit? (before.length + 1) (next :: tail))
      rw [← hcut.split] at hbody
      rw [← hout] at hbody'
      rw [hread', hresume, hbody, hbody']
      exact (relaid_of_cut hedits hcut _).2 _ hrelaid

/-- Directives say the same if no edit cuts into a value, and if a line feed moves behind a `\r` at
most where the body begins and in front of no directive. -/
theorem readsAlike_of_joins (hedits : Reindenting text extents options edit?)
    (values : ∀ {front rest before line after edit},
      Text.Cut text front rest before (line :: after) → edit? before.length = some edit →
        ∀ d ∈ (Directive.readAll text).1,
          ¬ (d.valueSpan.start < line.start ∧ line.start < d.valueSpan.stop))
    (joins : ∀ {front rest before after line}, Joins text edit? front rest before after line →
      line.start ≤ (Directive.readAll text).2 →
        line.start = (Directive.readAll text).2 ∧
          ∀ next ∈ after.head?, Directive.ofLine? next = none) : ReadsAlike text edit? := by
  by_cases hjoins : ∃ front rest before after line, Joins text edit? front rest before after line ∧
    line.start ≤ (Directive.readAll text).2
  · obtain ⟨front, rest, before, after, line, hjoin, hle⟩ := hjoins
    obtain ⟨hstart, hnone⟩ := joins hjoin hle
    refine hjoin.readsAlike hedits ⟨?_, ?_⟩ (hstart.symm.trans hjoin.cut.start_eq) hnone
    · intro _ _ _ _ _ _ hcut hedit
      unfold sparing at hedit
      split at hedit
      · cases hedit
      · exact values hcut hedit
    · intro _ _ _ _ _ _ hcut hle hedit hnew hlast hhead
      rw [sparing, hcut.line_eq] at hedit
      split at hedit
      · cases hedit
      · rename_i hne
        exact hne (joins ⟨hcut, ⟨_, hedit, hnew⟩, hlast, hhead⟩ hle).1
  · refine Spares.readsAlike hedits ⟨values, ?_⟩
    intro _ _ _ _ _ _ hcut hle hedit hnew hlast hhead
    exact hjoins ⟨_, _, _, _, _, ⟨hcut, ⟨_, hedit, hnew⟩, hlast, hhead⟩, hle⟩

end Layout

end Dockerfile
