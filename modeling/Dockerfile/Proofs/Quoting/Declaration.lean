import Dockerfile.Proofs.Body.Physical
import Dockerfile.Check.Instruction
import Dockerfile.Proofs.Check.Places
import Dockerfile.Proofs.Check.Subjects
import Dockerfile.Proofs.Directive.Blocks
import Dockerfile.Proofs.Directive.Shape
import Dockerfile.Proofs.File.Reading
import Dockerfile.Proofs.Quoting.Reading
import Dockerfile.Proofs.Scope.Identifiers

/-!
# Values in double quotes

A value is written in double quotes with the escape character in front of each double quote and of
each escape character in it (`Text.enquote`). Three readers have to pass over it: the one of lines,
which must not see a continuation, the one of words, which must not see a blank or the end of the
quote, and the one that resolves quotes. What comes out of them is the value
(`analyze_envLine`), whatever it consists of, unless that is line breaks.
-/

namespace Dockerfile

namespace Text

theorem forall_eq_false {f : Char → Bool} {text : Text} (h : text.any f = false) :
    ∀ c ∈ text, f c = false :=
  fun c hc => eq_false_of_ne_true (List.any_eq_false.mp h c hc)

/-- A text as it is written in double quotes: nothing in it closes them or escapes. -/
def guarded (escape : Char) : Text → Text
  | [] => []
  | c :: rest =>
      if c = '"' ∨ c = escape then escape :: c :: guarded escape rest else c :: guarded escape rest

def enquote (escape : Char) (value : Text) : Text :=
  '"' :: (guarded escape value ++ ['"'])

theorem mem_guarded {escape c : Char} {value : Text} (h : c ∈ guarded escape value) :
    c = escape ∨ c ∈ value := by
  induction value with
  | nil => cases h
  | cons d value ih =>
      have hrest : c ∈ d :: guarded escape value → c = escape ∨ c ∈ d :: value := by
        intro hmem
        rcases List.mem_cons.mp hmem with rfl | hmem
        · exact .inr List.mem_cons_self
        · exact (ih hmem).imp_right (List.mem_cons_of_mem d)
      rw [guarded] at h
      split at h
      · rcases List.mem_cons.mp h with rfl | h
        · exact .inl rfl
        · exact hrest h
      · exact hrest h

end Text

open Text

section Unquote

variable {escape : Char} (hescape : escape ≠ '"')
include hescape

/-- Of what is written in double quotes the value is left. -/
theorem unquoteFrom_guarded (value rest : Text) :
    unquoteFrom escape (some '"') (guarded escape value ++ '"' :: rest) =
      value ++ unquoteFrom escape none rest := by
  have hdouble : (some '"' : Option Char) ≠ some '\x27' := by decide
  induction value with
  | nil =>
      rw [guarded, List.nil_append, List.nil_append, unquoteFrom.eq_def]
      exact (if_neg hdouble).trans (if_pos rfl)
  | cons c value ih =>
      rw [guarded]
      split
      · rw [List.cons_append, List.cons_append, unquoteFrom.eq_def]
        simp only [if_neg hdouble, if_neg fun h => hescape (Option.some.inj h).symm, if_true, ih,
          List.cons_append]
      · rename_i hc
        rw [not_or] at hc
        rw [List.cons_append, unquoteFrom.eq_def]
        simp only [if_neg hdouble, if_neg fun h => hc.1 (Option.some.inj h).symm, if_neg hc.2,
          reduceCtorEq, false_and, if_false, ih, List.cons_append]

theorem unquote_enquote_append (value rest : Text) :
    unquote escape (enquote escape value ++ rest) = value ++ unquote escape rest := by
  rw [unquote, enquote, List.cons_append, unquoteFrom.eq_def]
  simp only [reduceCtorEq, if_false, if_neg (Ne.symm hescape), true_and, true_or, if_true]
  rw [List.append_assoc, List.singleton_append, unquoteFrom_guarded hescape]
  rfl

theorem unquote_enquote (value : Text) : unquote escape (enquote escape value) = value := by
  simpa [unquote, unquoteFrom] using unquote_enquote_append hescape value []

end Unquote

namespace Quoting

/-- These characters lead from `s` to `t`, and none of them separates. -/
structure Leads (escape : Char) (s : Quoting) (chars : List Placed) (t : Quoting) : Prop where
  after : s.after quoteMarks escape chars = t
  unbroken : Unbroken escape s chars

variable {escape : Char} {s t u : Quoting} {p : Placed} {chars more : List Placed}

theorem Leads.nil (escape : Char) (s : Quoting) : Leads escape s [] s :=
  ⟨rfl, unbroken_nil escape s⟩

theorem Leads.cons (hp : ¬ s.Separates p) (h : Leads escape (s.next quoteMarks escape p) chars t) :
    Leads escape s (p :: chars) t :=
  ⟨h.after, unbroken_cons.mpr ⟨hp, h.unbroken⟩⟩

theorem Leads.append (h : Leads escape s chars t) (h' : Leads escape t more u) :
    Leads escape s (chars ++ more) u := by
  induction chars generalizing s with
  | nil =>
      obtain rfl : s = t := h.after
      exact h'
  | cons p chars ih =>
      obtain ⟨hp, hrest⟩ := unbroken_cons.mp h.unbroken
      exact (ih ⟨h.after, hrest⟩).cons hp

/-- Characters without a meaning lead nowhere. -/
theorem leads_plain (h : ∀ p ∈ chars, p.char ∉ quoteMarks ∧ p.char ≠ escape ∧ isBlank p.char = false) :
    Leads escape bare chars bare := by
  induction chars with
  | nil => exact .nil escape bare
  | cons p chars ih =>
      obtain ⟨hmark, hescape, hblank⟩ := h p List.mem_cons_self
      refine .cons (not_separates_of_not_blank (by simp [hblank]) bare) ?_
      rw [next_plain hmark hescape]
      exact ih fun q hq => h q (List.mem_cons_of_mem _ hq)

variable {q : Placed} {value : Text} (hescape : escape ≠ '"')
include hescape

/-- What is written in double quotes does not leave them. -/
theorem leads_guarded (hq : q.char = '"') (h : Placed.text chars = guarded escape value) :
    Leads escape ⟨some q, false⟩ chars ⟨some q, false⟩ := by
  have hinside (escaped : Bool) (p : Placed) : ¬ (⟨some q, escaped⟩ : Quoting).Separates p :=
    not_separates_of_quoted rfl p
  induction value generalizing chars with
  | nil =>
      obtain rfl := List.map_eq_nil_iff.mp h
      exact .nil escape _
  | cons c value ih =>
      rw [guarded] at h
      split at h
      · -- The escape character does not close the quote, and what it escapes means nothing.
        obtain ⟨p, rest, rfl, hp, hrest⟩ := List.map_eq_cons_iff.mp h
        obtain ⟨r, rest, rfl, -, hrest⟩ := List.map_eq_cons_iff.mp hrest
        refine .cons (hinside false _) ?_
        rw [next_quoted_escape (by rwa [hp, hq]) ⟨hq, hp⟩]
        refine .cons (hinside true _) ?_
        rw [next_escaped rfl]
        exact ih hrest
      · rename_i hc
        rw [not_or] at hc
        obtain ⟨p, rest, rfl, rfl, hrest⟩ := List.map_eq_cons_iff.mp h
        refine .cons (hinside false _) ?_
        rw [next_quoted_plain (by rw [hq]; exact hc.1) fun h => hc.2 h.2]
        exact ih hrest

theorem leads_enquote (h : Placed.text chars = enquote escape value) :
    Leads escape bare chars bare := by
  have hblank : isBlank '"' = false := rfl
  obtain ⟨p, rest, rfl, hp, hrest⟩ := List.map_eq_cons_iff.mp h
  obtain ⟨inside, last, rfl, hinside, hlast⟩ := List.map_eq_append_iff.mp hrest
  obtain ⟨r, rfl, hr⟩ := List.map_eq_singleton_iff.mp hlast
  refine .cons (not_separates_of_not_blank (by simp [hp, hblank]) bare) ?_
  rw [next_mark (mem_quoteMarks.mpr (.inl hp))]
  refine (leads_guarded hescape hp hinside).append (.cons (not_separates_of_quoted rfl _) ?_)
  rw [next_close (hr.trans hp.symm)]
  exact .nil escape bare

end Quoting

open Quoting

namespace Argument

/-- Characters none of which separates are read as the beginning of one word. -/
theorem Word.exists_read_of_leads {escape : Char} {s t : Quoting} {chars : List Placed}
    (hs : s.escaped = false) (h : Leads escape s chars t) (rest : List Placed) :
    ∃ more, (Word.read escape s.openQuote (chars ++ rest)).chars = chars ++ more ∧
      more ++ (Word.read escape s.openQuote (chars ++ rest)).rest = rest := by
  have hreads := Word.reads_read escape hs (chars ++ rest)
  have happend := Word.read_append escape s.openQuote (chars ++ rest)
  generalize Word.read escape s.openQuote (chars ++ rest) = word at hreads happend
  rcases List.append_eq_append_iff.mp happend with ⟨more, hmore, hword⟩ | ⟨more, hmore, hword⟩
  · cases more with
    | nil => exact ⟨[], by simpa using hmore.symm, hword⟩
    | cons p more =>
        rcases hreads.rest with hnil | ⟨r, tail, hcons, hsep⟩
        · rw [hnil] at hword
          cases hword
        · obtain ⟨rfl, -⟩ := List.cons.inj (hcons.symm.trans hword)
          exact absurd hsep (h.unbroken _ r more hmore)
  · exact ⟨more, hmore, hword.symm⟩

/-- Behind blanks, characters none of which separates begin an argument. -/
theorem exists_split_of_leads {escape : Char} {region : Excerpt} {blanks chars rest : List Placed}
    {t : Quoting} (hregion : region.chars = blanks ++ (chars ++ rest))
    (hblanks : ∀ p ∈ blanks, isBlank p.char = true) (hne : chars ≠ []) (h : Leads escape bare chars t) :
    ∃ arg index more behind, split escape region = arg :: splitFrom escape region index behind ∧
      arg.content.chars = chars ++ more ∧ more ++ behind = rest ∧
      Word.Reads escape bare ⟨chars ++ more, behind, arg.openQuote⟩ := by
  obtain ⟨p, tail, rfl⟩ := List.exists_cons_of_ne_nil hne
  have hp : ¬ isBlank p.char = true := fun hp => (unbroken_cons.mp h.unbroken).1 ⟨hp, rfl⟩
  have hreads := Word.reads_read escape (s := bare) rfl (p :: tail ++ rest)
  obtain ⟨more, hmore, hbehind⟩ := Word.exists_read_of_leads rfl h rest
  rw [split, hregion, splitFrom_blanks hblanks, Nat.zero_add, List.cons_append, splitFrom, if_neg hp]
  refine ⟨_, _, more, _, rfl, hmore, hbehind, ?_⟩
  rw [← hmore]
  exact hreads

theorem splitFrom_eq_nil_iff {escape : Char} {whole : Excerpt} {index : Nat} {chars : List Placed} :
    splitFrom escape whole index chars = [] ↔ ∀ p ∈ chars, isBlank p.char = true := by
  constructor
  · intro h
    fun_induction splitFrom escape whole index chars with
    | case1 => simp
    | case2 index p rest hp ih => exact List.forall_mem_cons.mpr ⟨hp, ih h⟩
    | case3 => cases h
  · intro h
    rw [← List.append_nil chars, splitFrom_blanks h, splitFrom]

/-- Between blanks, characters none of which separates are one argument. -/
theorem split_of_leads {escape : Char} {region : Excerpt} {blanks chars rest : List Placed}
    (hregion : region.chars = blanks ++ (chars ++ rest))
    (hblanks : ∀ p ∈ blanks, isBlank p.char = true) (hrest : ∀ p ∈ rest, isBlank p.char = true)
    (hne : chars ≠ []) (h : Leads escape bare chars bare) :
    ∃ arg, split escape region = [arg] ∧ arg.openQuote = none ∧ arg.content.chars = chars := by
  obtain ⟨arg, index, more, behind, hsplit, hcontent, rfl, hreads⟩ :=
    exists_split_of_leads hregion hblanks hne h
  -- The blank behind them separates.
  obtain rfl : more = [] := by
    refine List.eq_nil_iff_forall_not_mem.mpr fun p hp => ?_
    obtain ⟨q, more, rfl⟩ := List.exists_cons_of_ne_nil (List.ne_nil_of_mem hp)
    refine hreads.unbroken _ q more rfl ?_
    rw [h.after]
    exact ⟨hrest q (by simp), rfl⟩
  rw [List.append_nil] at hcontent hreads
  refine ⟨arg, ?_, ?_, hcontent⟩
  · rw [hsplit, splitFrom_eq_nil_iff.mpr (show ∀ p ∈ behind, _ from hrest)]
  · rw [show arg.openQuote = _ from hreads.openQuote, h.after]
    rfl

end Argument

namespace Body

theorem read_last_line {escape : Char} (he : isLineBreak escape = false) (stop offset : Nat)
    {keyword region : Text} {c : Char} (hfirst : keyword.head? = some c) (hmark : c ≠ '#')
    (hkeyword : ∀ d ∈ keyword, endsWord d = false) (hregion : ∀ d ∈ region, isLineBreak d = false)
    (hblank : ∀ d ∈ region.head?, isBlank d = true) :
    ∃ inst, read escape stop (place offset (keyword ++ region)) = ⟨[], [inst]⟩ ∧
      inst.keyword.chars = place offset keyword ∧
      inst.region.chars = place (offset + byteLength keyword) region ∧
      inst.emptyLines = [] ∧ inst.escape = escape := by
  obtain ⟨rest, rfl⟩ := List.head?_eq_some_iff.mp hfirst
  have hword : ∀ d ∈ c :: rest, isBlank d = false ∧ isLineBreak d = false := fun d hd => by
    simpa [endsWord] using hkeyword d hd
  have hclean : ∀ d ∈ (c :: rest) ++ region, isLineBreak d = false := by
    intro d hd
    rcases List.mem_append.mp hd with hd | hd
    · exact (hword d hd).2
    · exact hregion d hd
  have hrun := @readUntil_plain escape stop he _ [] hclean (by simp) (by simp) offset
  rw [List.append_nil, place_nil] at hrun
  have hline := @readUntil_isLineBreak escape stop (place offset ((c :: rest) ++ region))
  rw [hrun] at hline
  obtain ⟨hchars, hempty, hcomments, hafter⟩ := Run.mk.inj hline
  obtain ⟨htake, hdrop⟩ := @spanWhile (fun d => !isBlank d) (c :: rest) region
    (fun d hd => by simp [(hword d hd).1]) (fun d hd => by simp [hblank d hd])
  obtain ⟨hkey, hreg⟩ := @keyword_eq escape stop (place offset ((c :: rest) ++ region))
  rw [← hchars, takeWhile_place (fun d => !isBlank d), htake] at hkey
  rw [← hchars, dropWhile_place (fun d => !isBlank d), htake, hdrop] at hreg
  have hstart : (place offset ((c :: rest) ++ region)).dropWhile (fun p => endsWord p.char) =
      ⟨c, offset⟩ :: place (offset + c.utf8Size) (rest ++ region) :=
    List.dropWhile_cons_of_neg (by simp [hkeyword c List.mem_cons_self])
  have hnamed : (lineAt escape stop (place offset ((c :: rest) ++ region))).isNamed = true := by
    rw [Instruction.isNamed, Excerpt.isEmpty, hkey]
    rfl
  refine ⟨lineAt escape stop (place offset ((c :: rest) ++ region)), ?_, hkey, hreg, hempty.symm, rfl⟩
  rw [(read_of_line hstart hmark).1, ← place_cons, ← List.cons_append, ← hcomments, ← hafter,
    List.filter_cons_of_pos hnamed, (read_of_nil rfl).1]
  rfl

end Body

namespace Directive

/-- Lines of directives, which select this escape character. What is written behind them is the body
of the file. -/
def Preamble (escape : Char) (head : Text) : Prop :=
  ∃ lines found, Text.lines head = lines ++ [⟨byteLength head, [], []⟩] ∧ Blocks lines found ∧
    (∀ d ∈ found.getLast?, d.isOpen = false) ∧ File.escapeUnder found = escape

/-- A line with an escape directive selects the escape character that is its value. -/
theorem preamble_escape {escape : Char} (hescape : escape = '\\' ∨ escape = '\x60')
    {content lead gap name gap' rest terminator : Text}
    (shape : Shape content lead gap name gap' rest) (clean : ∀ c ∈ content, isLineBreak c = false)
    (hname : sameIgnoringCase name "escape".toList = true) (hvalue : trimBlanks rest = [escape])
    (ends : IsTerminator terminator []) : Preamble escape (content ++ terminator) := by
  have hlines := linesFrom_line clean ends 0 0
  rw [List.append_nil, Nat.zero_add] at hlines
  obtain ⟨d, hread, hname', hvalue'⟩ : ∃ d, ofLine? ⟨0, content, terminator⟩ = some d ∧
      d.name.text = name ∧ d.value = [escape] :=
    ⟨_, Shape.ofLine?_eq shape, text_place _ _, hvalue⟩
  have hselected : d.escapeChar? = some escape := by
    rw [escapeChar?, isEscape, hname', hname, hvalue']
    rcases hescape with rfl | rfl <;> rfl
  refine ⟨[⟨0, content, terminator⟩], [d], hlines, .cons hread (.nil d) (fun h => absurd rfl h) .nil,
    ?_, ?_⟩
  · intro e he
    obtain rfl : d = e := by simpa using he
    rw [isOpen, hvalue']
    rfl
  · rw [File.escapeUnder, File.selectedEscape?, List.findSome?_cons, hselected]
    rfl

theorem Preamble.readAll {escape : Char} {head body : Text} (h : Preamble escape head)
    {c : Char} (hfirst : body.head? = some c) (hword : Body.endsWord c = false) (hmark : c ≠ '#') :
    ∃ found, Directive.readAll (head ++ body) = (found, byteLength head) ∧
      File.escapeUnder found = escape := by
  obtain ⟨hblank, hbreak⟩ := Bool.or_eq_false_iff.mp hword
  obtain ⟨lines, found, hlines, hblocks, hclosed, hescape⟩ := h
  obtain ⟨front, rest, hcut⟩ := Cut.exists_of_lines hlines
  obtain ⟨rest', hrest, -, -, ⟨-, -, rfl⟩ | ⟨ends, -⟩⟩ := hcut.exists_next
  · obtain rfl : rest = [] := hrest
    obtain rfl : head = front := hcut.split.trans (List.append_nil front)
    have hlead : Text.lines (head ++ body) = _ := hcut.leading.eq (by
      rw [hfirst]
      rintro ⟨⟩
      cases hbreak)
    obtain ⟨line, more, hfrom⟩ :=
      List.exists_cons_of_ne_nil (lined_linesFrom (byteLength head) body).ne_nil
    have hhead : line.content.head? = some c := by
      obtain ⟨more', rfl⟩ := List.head?_eq_some_iff.mp hfirst
      rw [linesFrom_cons_of_clean hbreak] at hfrom
      cases hnext : linesFrom (byteLength head) (byteLength head + c.utf8Size) more' with
      | nil => rw [hnext] at hfrom; cases hfrom
      | cons next others =>
          rw [hnext] at hfrom
          cases hfrom
          rfl
    have hstart : line.start = byteLength head := by
      have hlined := lined_linesFrom (byteLength head) body
      rw [hfrom] at hlined
      obtain ⟨_, -, hstart, -⟩ := hlined.exists_head
      exact hstart
    have hnone : ofLine? line = none := by
      obtain ⟨more', hcontent⟩ := List.head?_eq_some_iff.mp hhead
      refine ofLine?_eq_none ?_
      rw [hcontent, List.dropWhile_cons_of_neg (by simp [hblank])]
      rintro d ⟨⟩
      exact hmark
    refine ⟨found, ?_, hescape⟩
    rw [Directive.readAll, hlead, hfrom, hblocks.taken.readFrom_append hclosed hnone, hstart]
  · exact absurd rfl ends.ne_nil

end Directive

theorem Excerpt.cutAtEquals_text {e : Excerpt} {name rest : Text} (h : e.text = name ++ '=' :: rest)
    (hname : ∀ c ∈ name, c ≠ '=') :
    e.cutAtEquals.1.text = name ∧ e.cutAtEquals.2.map Excerpt.text = some rest := by
  obtain ⟨htake, hdrop⟩ := @spanWhile (fun c => c != '=') name ('=' :: rest)
    (fun c hc => by simpa using hname c hc) (by rintro c ⟨⟩; rfl)
  rw [← h, Excerpt.text, ← Placed.text_takeWhile fun c => c != '='] at htake
  rw [← h, Excerpt.text, ← Placed.text_dropWhile fun c => c != '='] at hdrop
  unfold cutAtEquals
  cases hchars : e.chars.dropWhile fun p => p.char != '=' with
  | nil =>
      rw [hchars] at hdrop
      cases hdrop
  | cons equals more =>
      rw [hchars] at hdrop
      exact ⟨htake, congrArg some (List.cons.inj hdrop).2⟩

def Text.envLine (escape : Char) (name value : Text) : Text :=
  "ENV".toList ++ ' ' :: (name ++ '=' :: enquote escape value)

section Declaration

variable {escape : Char} {head name value : Text}

/-- A variable and its value in double quotes are read as one argument. -/
theorem Argument.split_assignment (hescape : escape = '\\' ∨ escape = '\x60')
    (hname : Substitution.isName name = true) {region : Excerpt} {blanks : Text}
    (hregion : region.text = ' ' :: (name ++ '=' :: enquote escape value) ++ blanks)
    (hblanks : ∀ c ∈ blanks, isBlank c = true) :
    ∃ arg, split escape region = [arg] ∧ arg.openQuote = none ∧
      arg.text = name ++ '=' :: enquote escape value := by
  have hdouble : escape ≠ '"' := by rcases hescape with rfl | rfl <;> decide
  have hequals : '=' ≠ escape := by rcases hescape with rfl | rfl <;> decide
  have hplain {c : Char} (hc : c ∈ name) : c ∉ quoteMarks ∧ c ≠ escape ∧ isBlank c = false := by
    have hchar := Substitution.isNameChar_of_isName hname c hc
    refine ⟨?_, ?_, Substitution.isBlank_of_isNameChar hchar⟩
    · rw [mem_quoteMarks, not_or]
      exact ⟨Substitution.ne_of_isNameChar hchar rfl, Substitution.ne_of_isNameChar hchar rfl⟩
    · rcases hescape with rfl | rfl <;> exact Substitution.ne_of_isNameChar hchar rfl
  obtain ⟨front, rest, hsplit, hfront, hrest⟩ := List.map_eq_append_iff.mp hregion
  obtain ⟨space, chars, rfl, hspace, hchars⟩ := List.map_eq_cons_iff.mp hfront
  have hleads : Leads escape bare chars bare := by
    obtain ⟨a, b, rfl, ha, hb⟩ := List.map_eq_append_iff.mp hchars
    obtain ⟨equals, b, rfl, hequal, hb⟩ := List.map_eq_cons_iff.mp hb
    refine (leads_plain fun p hp => hplain (ha ▸ List.mem_map_of_mem hp)).append ?_
    have hblank : isBlank '=' = false := rfl
    refine .cons (not_separates_of_not_blank (by simp [hequal, hblank]) bare) ?_
    rw [next_plain (by rw [hequal]; decide) (by rwa [hequal])]
    exact leads_enquote hdouble hb
  obtain ⟨arg, harg, hopen, hcontent⟩ := @split_of_leads escape region [space] chars rest hsplit
    (by simp [hspace, isBlank]) (fun p hp => hblanks p.char (hrest ▸ List.mem_map_of_mem hp))
    (by rintro rfl; cases name <;> cases hchars) hleads
  refine ⟨arg, harg, hopen, ?_⟩
  rw [Argument.text, Excerpt.text, hcontent]
  exact hchars

/-- An instruction that declares a variable with a value in double quotes, and nothing else. -/
structure Instruction.Declares (inst : Instruction) (name value : Text) : Prop where
  keyword : inst.keyword.text = "ENV".toList
  emptyLines : inst.emptyLines = []
  argument : ∃ arg, inst.arguments = [arg] ∧ arg.openQuote = none ∧
    arg.text = name ++ '=' :: enquote inst.escape value

theorem File.parse_envLine (hhead : Directive.Preamble escape head)
    (hname : Substitution.isName name = true) (hvalue : ∀ c ∈ value, isLineBreak c = false) :
    ∃ inst, (parse (head ++ envLine escape name value)).instructions = [inst] ∧
      inst.escape ≠ '"' ∧ inst.escape = escape ∧ inst.Declares name value := by
  obtain ⟨found, hread, hfound⟩ :=
    @Directive.Preamble.readAll _ _ (envLine escape name value) hhead 'E' rfl rfl (by decide)
  have hescape := escapeUnder_eq found
  rw [hfound] at hescape
  have hplain : isLineBreak escape = false := by rcases hescape with rfl | rfl <;> rfl
  have hregion : ∀ d ∈ ' ' :: (name ++ '=' :: enquote escape value), isLineBreak d = false := by
    have hbreak {c : Char} (hc : Substitution.isNameChar c = true) : isLineBreak c = false := by
      simp [isLineBreak, Substitution.ne_of_isNameChar hc (d := '\r') rfl,
        Substitution.ne_of_isNameChar hc (d := '\n') rfl]
    simp only [enquote, List.forall_mem_cons, List.forall_mem_append, List.not_mem_nil,
      false_implies, implies_true, and_true]
    refine ⟨rfl, fun c hc => hbreak (Substitution.isNameChar_of_isName hname c hc), rfl, rfl, ?_, rfl⟩
    intro c hc
    rcases mem_guarded hc with rfl | hc
    · exact hplain
    · exact hvalue c hc
  obtain ⟨inst, hinst, hkeyword, hchars, hempty, rfl⟩ :=
    @Body.read_last_line escape hplain (byteLength (head ++ envLine escape name value))
      (byteLength head) "ENV".toList _ 'E' rfl (by decide) (forall_eq_false (by decide)) hregion
      (by rintro d ⟨⟩; rfl)
  have htext : inst.region.text = ' ' :: (name ++ '=' :: enquote inst.escape value) ++ [] := by
    rw [Excerpt.text, hchars, text_place, List.append_nil]
  refine ⟨inst, ?_, by rcases hescape with h | h <;> rw [h] <;> decide, rfl,
    by rw [Excerpt.text, hkeyword, text_place], hempty,
    Argument.split_assignment hescape hname htext (by simp)⟩
  unfold parse
  simp only [hread, hfound, dropBytes_append_byteLength]
  exact congrArg Body.instructions hinst

namespace Instruction.Declares

variable {inst : Instruction}

theorem kind (h : inst.Declares name value) : inst.kind = some .ENV := by
  rw [Instruction.kind, h.keyword]
  rfl

theorem isKind (h : inst.Declares name value) (k : Keyword) : inst.isKind k = (Keyword.ENV == k) := by
  rw [Instruction.isKind, h.kind]
  rfl

theorem properties (h : inst.Declares name value) (hname : Substitution.isName name = true)
    (hescape : inst.escape ≠ '"') :
    ∃ p, inst.properties = [p] ∧ p.name.text = name ∧ p.name.isEmpty = false ∧
      p.isLegacy = false ∧ p.unquotedValue inst.escape = some value := by
  obtain ⟨arg, harg, -, htext⟩ := h.argument
  have hequals : ∀ c ∈ name, c ≠ '=' := fun c hc =>
    Substitution.ne_of_isNameChar (Substitution.isNameChar_of_isName hname c hc) rfl
  obtain ⟨hbefore, hbehind⟩ := Excerpt.cutAtEquals_text htext hequals
  refine ⟨Property.ofArgument arg, by rw [Instruction.properties, harg]; rfl, hbefore, ?_, rfl, ?_⟩
  · cases hchars : arg.content.cutAtEquals.1.chars with
    | nil =>
        rw [← hbefore, Excerpt.text, hchars] at hname
        cases hname
    | cons q rest =>
        show arg.content.cutAtEquals.1.isEmpty = false
        rw [Excerpt.isEmpty, hchars]
        rfl
  · obtain ⟨e, he, hetext⟩ := Option.map_eq_some_iff.mp hbehind
    rw [Property.unquotedValue, show (Property.ofArgument arg).value = some e from he,
      Option.map_some, hetext, unquote_enquote hescape]

theorem withEmptyLines_eq_nil (h : inst.Declares name value) (hname : Substitution.isName name = true)
    (hescape : inst.escape ≠ '"') : Check.withEmptyLines inst = [] := by
  obtain ⟨arg, harg, hopen, -⟩ := h.argument
  obtain ⟨p, hp, -, hnamed, hlegacy, hpvalue⟩ := h.properties hname hescape
  have hquotes : Check.quotes inst = [] := by
    rw [Check.quotes, harg]
    simp [hopen]
  have hsome : p.value.isNone = false := by
    rw [Property.unquotedValue] at hpvalue
    obtain ⟨e, he, -⟩ := Option.map_eq_some_iff.mp hpvalue
    rw [he]
    rfl
  have hpairs : Check.pairs .ENV inst = [] := by
    simp [Check.pairs, Check.pair, hp, hlegacy, hsome, hnamed]
  have hkeyword : Check.keyword .ENV inst = [] := by
    rw [Check.keyword, h.keyword, if_neg (by decide +kernel), if_neg (by decide)]
    rfl
  have htrigger : inst.trigger? = none := by
    rw [Instruction.trigger?, h.isKind]
    rfl
  have hbehind : Check.behindKeyword .ENV inst = [] := by
    simp [Check.behindKeyword, harg, hquotes, htrigger, Check.ofKeyword, hpairs, Keyword.bearsFlags]
  rw [Check.withEmptyLines, Check.instruction_of_kind h.kind, hkeyword, hbehind, h.emptyLines]
  rfl

end Instruction.Declares

/-- All that is found in a file with such a line is that no `FROM` comes first, and what is found in
its directives. -/
theorem Instruction.Declares.findings {inst : Instruction} (h : inst.Declares name value)
    (hname : Substitution.isName name = true) (hescape : inst.escape ≠ '"') {file : File}
    (hfile : file.instructions = [inst]) :
    Check.file file (ScopeTable.ofFile file) =
      file.directives.flatMap Check.directive ++ Check.sourceImage [inst] := by
  have hsites : (ScopeTable.ofFile file).sites = [⟨0, .global, inst⟩] := by
    show Site.ofInstructions 0 .global file.instructions = _
    rw [hfile, Site.ofInstructions, h.isKind]
    rfl
  have hstages : (ScopeTable.ofFile file).stages = [] := by
    show Stage.ofSites (ScopeTable.ofFile file).sites = []
    rw [hsites, Stage.ofSites, Site.isFrom, h.isKind]
    rfl
  have hoverridden (k : Keyword) : Check.overridden k (ScopeTable.ofFile file).sites = [] := by
    rw [hsites, Check.overridden, List.any_nil, Bool.and_false]
    rfl
  unfold Check.file
  rw [hoverridden, hoverridden, hoverridden, hstages, hfile, List.flatMap_singleton,
    h.withEmptyLines_eq_nil hname hescape]
  simp [Check.duplicateStages]

/-- A value in double quotes is read back: `ENV name="value"` is one instruction with one argument,
which leaves no quote open; no quote is reported as missing; and the variable has the value. -/
theorem analyze_envLine (hhead : Directive.Preamble escape head)
    (hname : Substitution.isName name = true) (hvalue : ∀ c ∈ value, isLineBreak c = false)
    (settings : Settings) :
    let a := analyze (head ++ envLine escape name value) settings
    (∃ inst arg, a.file.instructions = [inst] ∧ inst.kind = some .ENV ∧ inst.escape = escape ∧
        inst.arguments = [arg] ∧ arg.openQuote = none) ∧
      (∀ d ∈ a.diagnostics, d.code ≠ .missingSingleQuote ∧ d.code ≠ .missingDoubleQuote) ∧
      ∃ b, a.scopes.bindings = [b] ∧ b.kind = .env ∧ b.name = name ∧ b.value = some value := by
  obtain ⟨inst, hfile, hdouble, hescape, hdeclares⟩ := File.parse_envLine hhead hname hvalue
  intro a
  refine ⟨?_, ?_, ?_⟩
  · obtain ⟨arg, harg, hopen, -⟩ := hdeclares.argument
    exact ⟨inst, arg, hfile, hdeclares.kind, hescape, harg, hopen⟩
  · intro d hd
    obtain ⟨f, hf, hreport⟩ := Analysis.mem_diagnostics_iff.mp hd
    obtain ⟨severity, -, rfl⟩ := Option.map_eq_some_iff.mp hreport
    have hother : f.problem.code = .noSourceImage ∨ f.problem.code.subject = .directive := by
      rw [Analysis.findings, analyze, hdeclares.findings hname hdouble hfile] at hf
      rcases List.mem_append.mp hf with hf | hf
      · obtain ⟨directive, -, hf⟩ := List.mem_flatMap.mp hf
        exact .inr (Check.directive_directive directive f hf)
      · exact .inl (Check.sourceImage_code f hf)
    have hargument : f.problem.code.subject ≠ .argument := by
      rcases hother with h | h <;> rw [h] <;> decide
    exact ⟨fun h => hargument (congrArg Code.subject h), fun h => hargument (congrArg Code.subject h)⟩
  · obtain ⟨p, hp, hpname, hnamed, -, hpvalue⟩ := hdeclares.properties hname hdouble
    have hbindings : a.scopes.bindings = Binding.ofSite ⟨0, .global, inst⟩ := by
      show (Site.ofInstructions 0 .global (File.parse _).instructions).flatMap Binding.ofSite = _
      rw [hfile, Site.ofInstructions, hdeclares.isKind]
      exact List.append_nil _
    refine ⟨⟨p.name.text, p.unquotedValue inst.escape, p.name.span, p.span, .global, .env, 0⟩, ?_, rfl,
      hpname, hpvalue⟩
    rw [hbindings, Binding.ofSite]
    simp [hp, hnamed, hdeclares.kind]

/-- A value that consists of what means something elsewhere, with a backtick for the escape
character. -/
theorem analyze_envLine_backtick :
    let head := "# Escape = \x60\r\n".toList
    let name := "_a1".toList
    let value := "# \"b' =\\ $c\x60".toList
    let a := analyze (head ++ envLine '\x60' name value) {}
    Directive.Preamble '\x60' head ∧ Substitution.isName name = true ∧
      (∀ c ∈ value, isLineBreak c = false) ∧
      (∃ inst arg, a.file.instructions = [inst] ∧ inst.kind = some .ENV ∧ inst.escape = '\x60' ∧
        inst.arguments = [arg] ∧ arg.openQuote = none) ∧
      (∀ d ∈ a.diagnostics, d.code ≠ .missingSingleQuote ∧ d.code ≠ .missingDoubleQuote) ∧
      ∃ b, a.scopes.bindings = [b] ∧ b.kind = .env ∧ b.name = name ∧ b.value = some value := by
  intro head name value a
  have hhead : Directive.Preamble '\x60' head :=
    @Directive.preamble_escape '\x60' (.inr rfl) "# Escape = \x60".toList [] [' ']
      "Escape".toList [' '] [' ', '\x60'] "\r\n".toList
      ⟨rfl, List.all_eq_true.mp rfl, List.all_eq_true.mp rfl, ⟨'E', "scape".toList, rfl, rfl⟩,
        List.all_eq_true.mp (by decide), List.all_eq_true.mp rfl⟩ (forall_eq_false (by decide))
      rfl rfl (.inl rfl)
  have hname : Substitution.isName name = true := by decide +kernel
  have hvalue : ∀ c ∈ value, isLineBreak c = false := forall_eq_false (by decide +kernel)
  exact ⟨hhead, hname, hvalue, analyze_envLine hhead hname hvalue {}⟩

end Declaration

end Dockerfile
