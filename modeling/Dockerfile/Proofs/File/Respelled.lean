import Mathlib.Data.List.Pairwise
import Dockerfile.Proofs.Body.Respelled
import Dockerfile.Proofs.Editor.Layout
import Dockerfile.Proofs.File.Transparency
import Dockerfile.Proofs.Text.RoundTrip

/-!
# Files with other names

Edits that replace names of a text, one behind the other, leave its directives and the number of its
instructions as they are: each instruction keeps its keyword, and in its region the new name stands
for each of the names (`File.instructions_respelled`).
-/

namespace Dockerfile

namespace Placed

def reach (chars : List Placed) : Span :=
  (⟨chars, 0⟩ : Excerpt).span

theorem reach_congr {a b : List Placed} (hfirst : a.head? = b.head?)
    (hlast : a.getLast? = b.getLast?) : reach a = reach b := by
  have hstart : startOr 0 a = startOr 0 b := by
    cases a <;> cases b <;> simp_all
  have hstop : stopOr 0 a = stopOr 0 b := by rw [stopOr, stopOr, hlast]
  simp only [reach, Excerpt.span, Excerpt.start, Excerpt.stop, hstart, hstop]

end Placed

namespace Text

theorem eq_nil_of_byteLength {text : Text} (h : byteLength text = 0) : text = [] := by
  cases text with
  | nil => rfl
  | cons c text =>
      have := c.utf8Size_pos
      rw [byteLength_cons] at h
      omega

theorem stop_of_getLast?_place {offset : Nat} {text : Text} {p : Placed}
    (h : (place offset text).getLast? = some p) : p.stop = offset + byteLength text := by
  obtain ⟨front, hfront⟩ := List.getLast?_eq_some_iff.mp h
  obtain ⟨htext, -, hp⟩ := split_of_place_eq hfront
  rw [htext, byteLength_append]
  simp only [Placed.text_cons, Placed.text_nil, place_cons, List.cons.injEq] at hp
  have hoffset : p.offset = offset + byteLength (Placed.text front) := congrArg Placed.offset hp.1
  simp only [Placed.stop, Placed.size, Placed.text_cons, Placed.text_nil, byteLength_cons,
    byteLength_nil]
  omega

theorem reach_place (offset : Nat) {text : Text} (h : text ≠ []) :
    Placed.reach (place offset text) = ⟨offset, offset + byteLength text⟩ := by
  have hstart : Placed.startOr 0 (place offset text) = offset := by
    obtain ⟨c, rest, rfl⟩ := List.exists_cons_of_ne_nil h
    rfl
  have hstop : Placed.stopOr 0 (place offset text) = offset + byteLength text := by
    rw [Placed.stopOr]
    cases hlast : (place offset text).getLast? with
    | none =>
        have hnil := congrArg Placed.text (List.getLast?_eq_none_iff.mp hlast)
        rw [text_place] at hnil
        exact absurd hnil h
    | some p => exact stop_of_getLast?_place hlast
  simp only [Placed.reach, Excerpt.span, Excerpt.start, Excerpt.stop, hstart, hstop,
    Nat.max_eq_left (Nat.le_add_right _ _)]

/-- The name is spelled in the text as `old`, between `front` and `rest`. -/
structure Names (escape : Char) (text : Text) (name : List Placed) (front old rest : Text) :
    Prop where
  split : text = front ++ (old ++ rest)
  first : (place (byteLength front) old).head? = name.head?
  last : (place (byteLength front) old).getLast? = name.getLast?
  spelled : Spelled escape (byteLength text) (place (byteLength front) (old ++ rest)) name
    (place (byteLength front + byteLength old) rest)

theorem exists_names {escape : Char} {text : Text} {name front raw rest : List Placed}
    (hplace : place 0 text = front ++ (raw ++ rest)) (hfirst : raw.head? = name.head?)
    (hlast : raw.getLast? = name.getLast?)
    (hspelled : Spelled escape (byteLength text) (raw ++ rest) name rest) :
    Names escape text name (Placed.text front) (Placed.text raw) (Placed.text rest) := by
  obtain ⟨htext, -, hmore⟩ := split_of_place_eq hplace
  rw [Placed.text_append] at htext hmore
  obtain ⟨-, hraw, hrest⟩ := split_of_place_eq hmore.symm
  rw [Nat.zero_add] at hmore hraw hrest
  refine ⟨htext, ?_, ?_, ?_⟩
  · rw [← hraw]
    exact hfirst
  · rw [← hraw]
    exact hlast
  · rw [← hmore, ← hrest]
    exact hspelled

namespace Names

variable {escape : Char} {text front old rest : Text} {name : List Placed}

theorem old_ne_nil (h : Names escape text name front old rest) : old ≠ [] := by
  rintro rfl
  have hname := List.head?_eq_none_iff.mp h.first.symm
  exact h.spelled.name_ne_nil hname

/-- The name begins where `old` does and ends where `old` does. -/
theorem bounds (h : Names escape text name front old rest) :
    (∃ p ∈ name, p.offset = byteLength front) ∧
      (∃ p ∈ name, p.stop = byteLength front + byteLength old) ∧
      ∀ p ∈ name, byteLength front ≤ p.offset ∧ p.stop ≤ byteLength front + byteLength old := by
  have hsub := h.spelled.sublist
  have hlast := h.last
  have hpair := pairwise_place (byteLength front) (old ++ rest)
  rw [place_append] at hpair hsub
  refine ⟨?_, ?_, ?_⟩
  · have hfirst := h.first
    cases hold : old with
    | nil => exact absurd hold h.old_ne_nil
    | cons c old' =>
        rw [hold, place_cons, List.head?_cons] at hfirst
        exact ⟨_, List.mem_of_head? hfirst.symm, rfl⟩
  · cases hname : name.getLast? with
    | none => exact absurd (List.getLast?_eq_none_iff.mp hname) h.spelled.name_ne_nil
    | some p =>
        rw [hname] at hlast
        exact ⟨p, List.mem_of_getLast? hname, stop_of_getLast?_place hlast⟩
  · intro p hp
    have hmem := hsub.mem (List.mem_append_left _ hp)
    rw [← place_append] at hmem
    refine ⟨(offset_of_mem_place hmem).1, ?_⟩
    cases rest with
    | nil =>
        have := (offset_of_mem_place hmem).2
        rwa [List.append_nil] at this
    | cons c rest =>
        have hord := (List.pairwise_append.mp (hpair.sublist hsub)).2.2
        exact hord p hp _ List.mem_cons_self

theorem reach (h : Names escape text name front old rest) :
    Placed.reach name = ⟨byteLength front, byteLength front + byteLength old⟩ := by
  rw [← Placed.reach_congr h.first h.last, reach_place _ h.old_ne_nil]

theorem not_break (h : Names escape text name front old rest) :
    (∀ c ∈ old.head?, isLineBreak c = false) ∧ ∀ c ∈ old.getLast?, isLineBreak c = false := by
  have hclean := h.spelled.not_break
  have hold : old = Placed.text (place (byteLength front) old) := (text_place _ _).symm
  constructor
  · intro c hc
    rw [hold, Placed.text, List.head?_map, h.first] at hc
    obtain ⟨p, hp, rfl⟩ := Option.map_eq_some_iff.mp hc
    exact hclean p (List.mem_of_head? hp)
  · intro c hc
    rw [hold, Placed.text, List.getLast?_map, h.last] at hc
    obtain ⟨p, hp, rfl⟩ := Option.map_eq_some_iff.mp hc
    exact hclean p (List.mem_of_getLast? hp)

end Names

end Text

namespace TextEdit

def respell (text : Text) (names : List (List Placed)) (new : Text) : List TextEdit :=
  names.map fun name => ofSpan text (Placed.reach name) new

/-- Replacing one stretch leaves what stands around it, whatever later edits made of that. -/
theorem apply_ofSpan {front old rest rest' : Text} (new : Text)
    (hfirst : ∀ c ∈ old.head?, isLineBreak c = false)
    (hlast : ∀ c ∈ old.getLast?, isLineBreak c = false) (hold : old ≠ []) :
    apply (front ++ (old ++ rest')) (ofSpan (front ++ (old ++ rest))
        ⟨Text.byteLength front, Text.byteLength front + Text.byteLength old⟩ new) =
      front ++ (new ++ rest') := by
  have hstart (more : Text) : ¬ (front.getLast? = some '\r' ∧ (old ++ more).head? = some '\n') := by
    rintro ⟨-, hhead⟩
    cases old with
    | nil => exact hold rfl
    | cons c old => exact absurd (hfirst c rfl) (by rw [Option.some.inj hhead]; decide)
  have hstop (more : Text) : ¬ ((front ++ old).getLast? = some '\r' ∧ more.head? = some '\n') := by
    rintro ⟨hr, -⟩
    rw [List.getLast?_append, List.getLast?_eq_some_getLast hold, Option.some_or] at hr
    have hclean := hlast _ (List.getLast?_eq_some_getLast hold)
    rw [Option.some.inj hr] at hclean
    exact absurd hclean (by decide)
  obtain ⟨p, hp⟩ := Text.exists_position front
  obtain ⟨q, hq⟩ := Text.exists_position (front ++ old)
  have hq' (more : Text) := hq more (hstop more)
  simp only [List.append_assoc, Text.byteLength_append] at hq'
  have hle := Nat.le_add_right (Text.byteLength front) (Text.byteLength old)
  simp only [apply, ofSpan, Text.rangeOf, Text.spanOf, (hp _ (hstart rest)).1, (hq' rest).1,
    (hp _ (hstart rest')).2, (hq' rest').2, Nat.min_eq_left hle, Nat.max_eq_right hle]
  have hreplace := Text.replaceSpan_append front old [] rest' new
  rwa [List.append_nil, List.nil_append] at hreplace

end TextEdit

namespace Text

variable {text new : Text} {escape : Char} {all : List (List Placed)}

/-- The edits of the last names of a text change what stands behind `a`, and put the new name there
for each of them. -/
theorem exists_applyAll_respell
    (hall : ∀ name ∈ all, ∃ front old rest, Names escape text name front old rest)
    (ordered : all.Pairwise fun a b => ∀ p ∈ a, ∀ q ∈ b, p.stop ≤ q.offset)
    (names : List (List Placed)) :
    ∀ {done : List (List Placed)} {a b : Text}, all = done ++ names → text = a ++ b →
      (∀ name ∈ done, ∀ p ∈ name, p.stop ≤ byteLength a) →
      (∀ name ∈ names, ∀ p ∈ name, byteLength a ≤ p.offset) →
      ∃ b', TextEdit.applyAll text (TextEdit.respell text names new) = a ++ b' ∧
        Respelled (Spelled escape (byteLength text)) all new (place (byteLength a) b)
          (place (byteLength a) b') := by
  induction names with
  | nil =>
      intro done a b hdone htext hbefore _
      refine ⟨b, htext, .of_kept rfl ?_⟩
      rintro p hp ⟨name, hname, hhead⟩
      rw [hdone, List.append_nil] at hname
      have hstop := hbefore name hname p (List.mem_of_head? hhead)
      have hoffset := (offset_of_mem_place hp).1
      have := p.offset_lt_stop
      omega
  | cons name names ih =>
      intro done a b hdone htext hbefore hbehind
      obtain ⟨front, old, rest, h⟩ := hall name (by rw [hdone]; simp)
      obtain ⟨⟨first, hfirst, hstart⟩, ⟨last, hlast, hstop⟩, hbounds⟩ := h.bounds
      -- The name stands behind `a`.
      obtain ⟨f, rfl, rfl⟩ : ∃ f, front = a ++ f ∧ b = f ++ (old ++ rest) := by
        rcases List.append_eq_append_iff.mp (htext.symm.trans h.split) with ⟨f, hf, hb⟩ | ⟨f, hf, hb⟩
        · exact ⟨f, hf, hb⟩
        · have hle := hbehind name List.mem_cons_self first hfirst
          rw [hstart, hf, byteLength_append] at hle
          obtain rfl : f = [] := eq_nil_of_byteLength (by omega)
          exact ⟨[], by rw [hf, List.append_nil, List.append_nil], hb.symm⟩
      have hnames := ordered
      rw [hdone, List.pairwise_append, List.pairwise_cons] at hnames
      obtain ⟨b', happly, hnext⟩ := @ih (done ++ [name]) ((a ++ f) ++ old) rest
        (by rw [hdone]; simp) (by rw [h.split]; simp)
        (by
          intro other hother p hp
          rcases List.mem_append.mp hother with hother | hother
          · have := hnames.2.2 other hother name List.mem_cons_self p hp first hfirst
            rw [byteLength_append]
            omega
          · rw [List.mem_singleton.mp hother] at hp
            rw [byteLength_append]
            exact (hbounds p hp).2)
        (by
          intro other hother p hp
          have := hnames.2.1.1 other hother last hlast p hp
          rw [byteLength_append]
          omega)
      refine ⟨f ++ (new ++ b'), ?_, ?_⟩
      · have hedit := @TextEdit.apply_ofSpan (a ++ f) old rest b' new h.not_break.1 h.not_break.2
          h.old_ne_nil
        rw [← h.split, ← h.reach, ← List.append_assoc (a ++ f) old b', ← happly] at hedit
        rw [← List.append_assoc a]
        exact hedit
      · rw [place_append, place_append (byteLength a) f, ← byteLength_append]
        refine Respelled.keep_append ?_ rfl ?_
        · obtain ⟨q, tail, rfl⟩ := List.exists_cons_of_ne_nil h.spelled.name_ne_nil
          obtain ⟨c, old, rfl⟩ := List.exists_cons_of_ne_nil h.old_ne_nil
          obtain rfl : ⟨c, byteLength (a ++ f)⟩ = q := Option.some.inj h.first
          rw [place_append _ new]
          refine .name (by rw [hdone]; simp) h.spelled (text_place _ new) ?_
          rw [← byteLength_append]
          exact hnext.congr_text (by rw [text_place, text_place])
        · rintro p hp ⟨other, hother, hhead⟩
          have hin := List.mem_of_head? hhead
          have hoffset := offset_of_mem_place hp
          have := p.offset_lt_stop
          rw [byteLength_append] at hstart
          rw [hdone] at hother
          rcases List.mem_append.mp hother with hother | hother
          · have := hbefore other hother p hin
            omega
          · rcases List.mem_cons.mp hother with rfl | hother
            · have := (hbounds p hin).1
              rw [byteLength_append] at this
              omega
            · have := hnames.2.1.1 other hother first hfirst p hin
              have := first.offset_lt_stop
              omega

end Text

/-! ## Directives -/

section Directives

variable {spells : List Placed → List Placed → List Placed → Prop} {escape : Char} {stop : Nat}
  {names : List (List Placed)} {new : Text}

theorem Text.exists_comment {body : Text} (h : (body.dropWhile isBlank).head? = some '#') :
    ∃ blanks rest more, body = (blanks ++ '#' :: rest) ++ more ∧ (∀ c ∈ blanks, isBlank c = true) ∧
      (∀ c ∈ rest, isLineBreak c = false) ∧ ∀ c ∈ more.head?, isLineBreak c = true := by
  obtain ⟨tail, htail⟩ := List.head?_eq_some_iff.mp h
  obtain ⟨rest, more, rfl, hclean, hmore⟩ := exists_clean_prefix tail
  refine ⟨body.takeWhile isBlank, rest, more, ?_, List.all_eq_true.mp List.all_takeWhile, hclean,
    hmore⟩
  rw [List.append_assoc, List.cons_append, ← htail, List.takeWhile_append_dropWhile]

/-- Where a line of the body is a comment, nothing of it is kept. -/
theorem Body.not_mem_of_comment {offset : Nat} {blanks rest more : Text}
    (hblanks : ∀ c ∈ blanks, isBlank c = true) (hrest : ∀ c ∈ rest, isLineBreak c = false)
    {line : Instruction}
    (hline : line ∈ logicalLines escape stop (Text.place offset ((blanks ++ '#' :: rest) ++ more)))
    {p : Placed} (hp : p ∈ line.chars) : p ∉ Text.place offset (blanks ++ '#' :: rest) := by
  intro hin
  have hdrop : ((Text.place offset ((blanks ++ '#' :: rest) ++ more)).dropWhile fun p =>
      endsWord p.char) = ⟨'#', offset + Text.byteLength blanks⟩ ::
        (Text.place (offset + Text.byteLength blanks + 1) rest ++
          Text.place (offset + Text.byteLength (blanks ++ '#' :: rest)) more) := by
    rw [Text.place_append, Text.place_append offset blanks, List.append_assoc,
      List.dropWhile_append_of_pos fun p hp =>
        endsWord_of_isBlank (hblanks p.char (Text.char_mem_of_mem_place hp))]
    rfl
  rw [(read_of_comment hdrop rfl).2] at hline
  have hmem := mem_of_mem_logicalLines hline hp
  have hclean : ∀ q ∈ Text.place (offset + Text.byteLength blanks + 1) rest,
      (!isLineBreak q.char) = true := by
    intro q hq
    rw [hrest q.char (Text.char_mem_of_mem_place hq)]
    rfl
  have htail := List.dropWhile_suffix (l := Text.place (offset + Text.byteLength (blanks ++ '#' :: rest))
    more) fun q : Placed => !isLineBreak q.char
  rw [← List.dropWhile_append_of_pos hclean] at htail
  have hnodup := Text.nodup_place offset ((blanks ++ '#' :: rest) ++ more)
  rw [Text.place_append] at hnodup
  exact (List.nodup_append.mp hnodup).2.2 p hin p
    (htail.mem ((dropNewline_suffix _).mem hmem)) rfl

namespace Directive

/-- A comment in front of a body has no name in it, and stays the line that it is. -/
theorem exists_line_of_comment (hs : Spellable escape names new) {offset : Nat}
    {blanks rest more body' : Text} (hblanks : ∀ c ∈ blanks, isBlank c = true)
    (hrest : ∀ c ∈ rest, isLineBreak c = false) (hmore : ∀ c ∈ more.head?, isLineBreak c = true)
    (h : Respelled spells names new (Text.place offset ((blanks ++ '#' :: rest) ++ more))
      (Text.place offset body'))
    (hkept : ∀ p ∈ Text.place offset ((blanks ++ '#' :: rest) ++ more), Begins names p →
      ∃ line ∈ Body.logicalLines escape stop (Text.place offset ((blanks ++ '#' :: rest) ++ more)),
        p ∈ line.chars) :
    ∃ line line' tail tail',
      Text.linesFrom offset offset ((blanks ++ '#' :: rest) ++ more) = line :: tail ∧
        Text.linesFrom offset offset body' = line' :: tail' ∧ ofLine? line' = ofLine? line := by
  have hclean : ∀ c ∈ blanks ++ '#' :: rest, isLineBreak c = false := by
    intro c hc
    rcases List.mem_append.mp hc with hc | hc
    · have hblank := hblanks c hc
      simp only [isBlank, Bool.or_eq_true, beq_iff_eq] at hblank
      rcases hblank with rfl | rfl <;> rfl
    · rcases List.mem_cons.mp hc with rfl | hc
      · rfl
      · exact hrest c hc
  have hnone : ∀ p ∈ Text.place offset (blanks ++ '#' :: rest), ¬ Begins names p := by
    intro p hp hbegins
    obtain ⟨line, hin, hmem⟩ := hkept p (by rw [Text.place_append]; exact List.mem_append_left _ hp)
      hbegins
    exact Body.not_mem_of_comment hblanks hrest hin hmem hp
  rw [Text.place_append offset (blanks ++ '#' :: rest)] at h
  obtain ⟨a', more', hout, hcontent, htail⟩ := h.exists_split hnone
  obtain ⟨hbody', -, -⟩ := Text.split_of_place_eq hout
  rw [hcontent, Text.text_place] at hbody'
  have hhead : ∀ c ∈ (Placed.text more').head?, isLineBreak c = true := by
    cases more with
    | nil =>
        rw [htail.eq_nil]
        simp
    | cons c more =>
        have hbreak := hmore c rfl
        obtain ⟨q, out', rfl, hq, -⟩ :=
          htail.uncons (hs.not_begins (Body.endsWord_of_isLineBreak hbreak))
        intro d hd
        rw [Placed.text_cons, hq] at hd
        rw [← Option.some.inj hd]
        exact hbreak
  obtain ⟨_, tail, hfrom, -⟩ := Text.exists_linesFrom hclean hmore offset
  obtain ⟨_, tail', hfrom', -⟩ := Text.exists_linesFrom hclean hhead offset
  rw [hbody']
  exact ⟨_, _, tail, tail', hfrom, hfrom', rfl⟩

theorem exists_line_respelled (hs : Spellable escape names new) {offset : Nat} {body body' : Text}
    {line : Line} {tail : List Line} (hfrom : Text.linesFrom offset offset body = line :: tail)
    (hline : ofLine? line = none)
    (h : Respelled spells names new (Text.place offset body) (Text.place offset body'))
    (hkept : ∀ p ∈ Text.place offset body, Begins names p →
      ∃ line ∈ Body.logicalLines escape stop (Text.place offset body), p ∈ line.chars) :
    ∃ line' tail', Text.linesFrom offset offset body' = line' :: tail' ∧ ofLine? line' = none := by
  by_cases hmark : (body.dropWhile isBlank).head? = some '#'
  · obtain ⟨blanks, rest, more, rfl, hblanks, hrest, hmore⟩ := Text.exists_comment hmark
    obtain ⟨_, line', _, tail', hsame, hfrom', hread⟩ :=
      exists_line_of_comment hs hblanks hrest hmore h hkept
    obtain ⟨rfl, -⟩ := List.cons.inj (hfrom.symm.trans hsame)
    exact ⟨line', tail', hfrom', hread.trans hline⟩
  · -- A line that is no comment begins with the same character or with the new name.
    obtain ⟨content', more', rfl, hclean, hmore⟩ := Text.exists_clean_prefix body'
    obtain ⟨t', tail', hfrom', -⟩ := Text.exists_linesFrom hclean hmore offset
    refine ⟨_, tail', hfrom', ofLine?_eq_none ?_⟩
    intro c hc
    have hblanks := (h.dropWhile hs (f := isBlank) fun _ => endsWord_of_isBlank).2
    obtain ⟨q, out', hout, hq⟩ : ∃ q out', (Text.place offset (content' ++ more')).dropWhile
        (fun p => isBlank p.char) = q :: out' ∧ q.char = c := by
      obtain ⟨rest', hrest'⟩ := List.head?_eq_some_iff.mp hc
      have hdrop : (content' ++ more').dropWhile isBlank = c :: (rest' ++ more') := by
        rw [List.dropWhile_append, hrest']
        rfl
      have htext := Placed.text_dropWhile isBlank (Text.place offset (content' ++ more'))
      rw [Text.text_place, hdrop] at htext
      obtain ⟨q, out', hout, hq, -⟩ := List.map_eq_cons_iff.mp htext
      exact ⟨q, out', hout, hq⟩
    rw [hout] at hblanks
    rw [← hq]
    cases hchars : (Text.place offset body).dropWhile fun p => isBlank p.char with
    | nil =>
        rw [hchars] at hblanks
        exact absurd hblanks.eq_nil (List.cons_ne_nil _ _)
    | cons p chars =>
        rw [hchars] at hblanks
        obtain ⟨_, _, heq, hfirst⟩ := hblanks.exists_first hs
        obtain ⟨rfl, -⟩ := List.cons.inj heq
        rcases hfirst with hsame | hnew
        · rw [hsame]
          rintro hp
          refine hmark ?_
          have htext := Placed.text_dropWhile isBlank (Text.place offset body)
          rw [Text.text_place, hchars] at htext
          rw [← htext, Placed.text_cons, hp]
          rfl
        · exact hs.unmarked q.char hnew

theorem readAll_respelled (hs : Spellable escape names new) {front body body' : Text}
    {found : List Directive} {last : Option Directive} {taken tail : List Line} {line : Line}
    (htaken : Taken none taken found last) (hclosed : ∀ d ∈ last, d.isOpen = false)
    (hleading : Text.Leading front body taken)
    (hfrom : Text.linesFrom (Text.byteLength front) (Text.byteLength front) body = line :: tail)
    (hline : ofLine? line = none)
    (h : Respelled spells names new (Text.place (Text.byteLength front) body)
      (Text.place (Text.byteLength front) body'))
    (hkept : ∀ p ∈ Text.place (Text.byteLength front) body, Begins names p →
      ∃ line ∈ Body.logicalLines escape stop (Text.place (Text.byteLength front) body),
        p ∈ line.chars) :
    readAll (front ++ body') = (found, Text.byteLength front) := by
  obtain ⟨line', tail', hfrom', hline'⟩ := exists_line_respelled hs hfrom hline h hkept
  have hhead : body'.head? = some '\n' → body.head? = some '\n' := by
    have hiff := h.head_iff hs (c := '\n') rfl
    simp only [← List.head?_map] at hiff
    have hplace (text : Text) :
        (Text.place (Text.byteLength front) text).map Placed.char = text := Text.text_place _ text
    rw [hplace, hplace] at hiff
    exact hiff.mp
  have hlead : Text.Leading front body' taken :=
    ⟨fun h => hleading.eq fun h' => hhead (h h'), hleading.start_lt⟩
  exact (readAll_of_taken htaken).2 rfl hlead hfrom' hline' hclosed

end Directive

end Directives

/-! ## Instructions -/

structure Instruction.Respelled (names : List (List Placed)) (new : Text)
    (inst inst' : Instruction) : Prop where
  keyword : inst'.keyword.text = inst.keyword.text
  escape : inst'.escape = inst.escape
  region : Dockerfile.Respelled InOnePiece names new inst.region.chars inst'.region.chars

theorem Body.lineAt_respelled {escape : Char} {stop stop' : Nat} {names : List (List Placed)}
    {new : Text} {chars chars' : List Placed} (hs : Spellable escape names new)
    (h : Respelled InOnePiece names new (lineAt escape stop chars).chars
      (lineAt escape stop' chars').chars)
    (hkeyword : ∀ p ∈ (lineAt escape stop chars).keyword.chars, ¬ Begins names p) :
    (lineAt escape stop' chars').isNamed = (lineAt escape stop chars).isNamed ∧
      Instruction.Respelled names new (lineAt escape stop chars) (lineAt escape stop' chars') := by
  obtain ⟨hword, hregion⟩ := @keyword_eq escape stop chars
  obtain ⟨hword', hregion'⟩ := @keyword_eq escape stop' chars'
  obtain ⟨htext, hrest⟩ := h.dropUntil hs (fun _ => endsWord_of_isBlank)
    (by rw [← hword]; exact hkeyword)
  rw [← hword, ← hword'] at htext
  rw [← hregion, ← hregion'] at hrest
  refine ⟨?_, htext, rfl, hrest⟩
  have hempty := congrArg List.isEmpty htext
  rw [Placed.text, Placed.text, List.isEmpty_map, List.isEmpty_map] at hempty
  rw [Instruction.isNamed, Instruction.isNamed, Excerpt.isEmpty, Excerpt.isEmpty, hempty]

namespace File

theorem eq_of_mem_chars {text : Text} {line other : Instruction} (hline : line ∈ logicalLines text)
    (hother : other ∈ logicalLines text) {p : Placed} (hp : p ∈ line.chars) (hp' : p ∈ other.chars) :
    line = other := by
  by_contra hne
  have hapart : (logicalLines text).Pairwise fun a b => ∀ q, q ∈ a.chars → q ∉ b.chars :=
    (Body.logicalLines_separated (bodyChars_suffix text)).imp fun hab q hqa hqb => by
      have := hab q hqa q hqb
      have := q.offset_lt_stop
      omega
  have hsymm : Std.Symm fun a b : Instruction => ∀ q, q ∈ a.chars → q ∉ b.chars :=
    ⟨fun a b hab q hqb hqa => hab q hqa hqb⟩
  exact hapart.forall hline hother hne p hp hp'

structure Mentions (text : Text) (names : List (List Placed)) : Prop where
  kept : ∀ name ∈ names,
    name ≠ [] ∧ ∃ inst ∈ (parse text).instructions, name <:+: inst.region.chars
  ordered : names.Pairwise fun a b => ∀ p ∈ a, ∀ q ∈ b, p.stop ≤ q.offset

namespace Mentions

variable {text : Text} {names : List (List Placed)}

theorem exists_names (h : Mentions text names) {name : List Placed} (hname : name ∈ names) :
    ∃ front old rest, Text.Names (parse text).escape text name front old rest := by
  obtain ⟨hne, inst, hinst, a, b, hregion⟩ := h.kept name hname
  obtain ⟨start, hstart, rfl⟩ := Body.exists_lineAt_of_mem (mem_logicalLines hinst)
  have hchars := @Body.lineAt_chars (parse text).escape (Text.byteLength text) start
  rw [Instruction.chars, ← hregion, List.append_assoc, ← List.append_assoc _ a] at hchars
  obtain ⟨front, raw, rest, hsplit, hfirst, hlast, hspelled⟩ :=
    Body.exists_spelled hne hchars.symm
  obtain ⟨before, hbefore⟩ := hstart.trans (bodyChars_suffix text)
  rw [hsplit, ← List.append_assoc] at hbefore
  exact ⟨_, _, _, Text.exists_names hbefore.symm hfirst hlast hspelled⟩

/-- A name begins in the region of a line and nowhere else. -/
theorem exists_line (h : Mentions text names) {p : Placed} (hp : Begins names p) :
    ∃ line ∈ logicalLines text, p ∈ line.region.chars := by
  obtain ⟨name, hname, hhead⟩ := hp
  obtain ⟨-, inst, hinst, hin⟩ := h.kept name hname
  exact ⟨inst, mem_logicalLines hinst, hin.mem (List.mem_of_head? hhead)⟩

theorem not_begins_keyword (h : Mentions text names) {line : Instruction}
    (hline : line ∈ logicalLines text) : ∀ p ∈ line.keyword.chars, ¬ Begins names p := by
  intro p hp hbegins
  obtain ⟨other, hother, hin⟩ := h.exists_line hbegins
  obtain rfl := eq_of_mem_chars hline hother (List.mem_append_left _ hp) (List.mem_append_right _ hin)
  have hnodup := (Text.nodup_place 0 text).sublist
    (Body.logicalLines_within (bodyChars_suffix text) hline).chars
  exact (List.nodup_append.mp hnodup).2.2 p hp p hin rfl

end Mentions

/-- Writing another name for names of a text changes its instructions at these names only. -/
theorem instructions_respelled {text new : Text} {names : List (List Placed)}
    (h : Mentions text names) (hs : Spellable (parse text).escape names new) :
    List.Forall₂ (Instruction.Respelled names new) (parse text).instructions
      (parse (TextEdit.applyAll text (TextEdit.respell text names new))).instructions := by
  obtain ⟨taken, found, last, htaken, hends⟩ := Directive.exists_taken text
  rcases hends with hall | ⟨front, body, line, tail, ⟨rfl, hleading, hlined, -⟩, hnone, hclosed⟩
  · -- Without a body there are no instructions, and so no names.
    have hread := (Directive.readAll_of_taken htaken).1 hall
    have hnil : (parse text).instructions = [] := by
      rw [instructions_parse, (parse_of_readAll hread).2.2, Directive.bodyChars_byteLength,
        (Body.read_of_nil rfl).2]
      rfl
    obtain rfl : names = [] := by
      refine List.eq_nil_iff_forall_not_mem.mpr fun name hname => ?_
      obtain ⟨-, inst, hinst, -⟩ := h.kept name hname
      rw [hnil] at hinst
      cases hinst
    show List.Forall₂ _ _ (parse text).instructions
    rw [hnil]
    exact .nil
  · have hfrom := hlined.linesFrom_eq
    have hread := (Directive.readAll_of_taken htaken).2 rfl hleading hfrom hnone hclosed
    obtain ⟨hd, -, hl⟩ := parse_of_readAll hread
    have hescape : (parse (front ++ body)).escape = escapeUnder found := by rw [escape, hd]
    have hkept : ∀ p, Begins names p → ∃ line ∈ Body.logicalLines (escapeUnder found)
        (Text.byteLength (front ++ body)) (Text.place (Text.byteLength front) body),
        p ∈ line.chars := by
      intro p hp
      obtain ⟨line, hline, hin⟩ := h.exists_line hp
      rw [hl, Directive.bodyChars_append] at hline
      exact ⟨line, hline, List.mem_append_right _ hin⟩
    obtain ⟨body', happly, hresp⟩ := @Text.exists_applyAll_respell _ new _ _
      (fun name hname => h.exists_names hname) h.ordered names [] _ _ rfl rfl (by simp) (by
        intro name hname p hp
        obtain ⟨-, inst, hinst, hin⟩ := h.kept name hname
        have hline := mem_logicalLines hinst
        rw [hl, Directive.bodyChars_append] at hline
        have hmem := Body.mem_of_mem_logicalLines hline (List.mem_append_right _ (hin.mem hp))
        exact (Text.offset_of_mem_place hmem).1)
    rw [hescape] at hs hresp
    have hread' := Directive.readAll_respelled hs htaken hclosed hleading hfrom hnone hresp
      fun p _ => hkept p
    obtain ⟨hd', -, hl'⟩ := parse_of_readAll hread'
    have hlines := Body.logicalLines_respelled hs hresp (Text.nodup_place _ _)
      (Text.byteLength (front ++ body')) fun p _ => hkept p
    rw [happly, instructions_parse, instructions_parse]
    rw [Directive.bodyChars_append] at hl hl'
    rw [← hl, ← hl'] at hlines
    have hnamed : List.Forall₂ (fun line line' => line'.isNamed = line.isNamed ∧
        Instruction.Respelled names new line line') (logicalLines (front ++ body))
        (logicalLines (front ++ body')) := by
      refine (forall₂_mem hlines).imp ?_
      rintro line line' ⟨hin, hin', hchars⟩
      have hkeyword := h.not_begins_keyword hin
      obtain ⟨start, -, rfl⟩ := Body.exists_lineAt_of_mem hin
      obtain ⟨start', -, rfl⟩ := Body.exists_lineAt_of_mem hin'
      have hescape' : (parse (front ++ body')).escape = escapeUnder found := by rw [escape, hd']
      rw [hescape] at hchars hkeyword ⊢
      rw [hescape'] at hchars ⊢
      exact Body.lineAt_respelled hs hchars hkeyword
    refine (List.rel_filter ?_ hnamed).imp fun _ _ hline => hline.2
    intro line line' hline
    show line.isNamed = true ↔ line'.isNamed = true
    rw [hline.1]

end File

end Dockerfile
