import Dockerfile.Proofs.Check.Places
import Dockerfile.Proofs.File.Patched
import Dockerfile.Proofs.Scope.Gaps
import Mathlib.Data.List.Chain

/-!
# Arguments in one line

The characters that an instruction keeps stand side by side in the file, but for where a line begins
(`File.isChain_chars`). An argument that does not go on in another line is therefore a part of its
line, behind a blank or at the start (`File.exists_line_of_argument`), and takes as many bytes as its
text has (`File.argument_stop_eq`).
-/

namespace Dockerfile

/-! ## Neighbours -/

namespace Body

variable {escape : Char} {all : List Line}

/-- Two characters stand side by side, or the second begins a line. -/
def Adjoining (all : List Line) (p q : Placed) : Prop :=
  p.stop = q.offset ∨ ∃ line ∈ all, line.start = q.offset

theorem isChain_place (offset : Nat) (text : Text) :
    (Text.place offset text).IsChain (Adjoining all) := by
  induction text generalizing offset with
  | nil => exact .nil
  | cons c text ih =>
      cases text with
      | nil => exact .singleton _
      | cons d text => exact .cons_cons (.inl rfl) (ih _)

theorem isChain_extended? {opened : Option (List Placed)} {line : Line} {kept : List Placed}
    (hopened : ∀ before ∈ opened, before.IsChain (Adjoining all)) (hline : line ∈ all)
    (h : extended? escape opened line = some kept) : kept.IsChain (Adjoining all) := by
  cases opened with
  | none =>
      obtain ⟨-, h⟩ := Option.ite_none_right_eq_some.mp h
      exact Option.some.inj h ▸ isChain_place _ _
  | some before =>
      obtain ⟨-, h⟩ := Option.ite_none_left_eq_some.mp h
      rw [← Option.some.inj h]
      refine (hopened before rfl).append (isChain_place _ _) fun _ _ q hq => .inr ⟨line, hline, ?_⟩
      cases htext : line.indent ++ line.kept escape with
      | nil => rw [htext] at hq; cases hq
      | cons c text =>
          rw [htext] at hq
          exact congrArg Placed.offset (Option.some.inj hq)

/-- What a logical line keeps stands side by side, but for where a line begins. -/
theorem isChain_runs {opened : Option (List Placed)} {lines : List Line}
    (hopened : ∀ before ∈ opened, before.IsChain (Adjoining all)) (hlines : lines ⊆ all) :
    ∀ run ∈ runs escape opened lines, run.IsChain (Adjoining all) := by
  induction lines generalizing opened with
  | nil => exact fun run hrun => hopened run (Option.mem_toList.mp hrun)
  | cons line lines ih =>
      obtain ⟨hline, hlines⟩ := List.cons_subset.mp hlines
      cases hkept : extended? escape opened line with
      | none =>
          rw [runs_of_passed hkept]
          exact ih hopened hlines
      | some kept =>
          have hchain := isChain_extended? hopened hline hkept
          rw [runs_of_extended hkept]
          split
          · exact ih (fun _ h => Option.mem_some.mp h ▸ hchain) hlines
          · intro run hrun
            rcases List.mem_cons.mp hrun with rfl | hrun
            · exact hchain
            · exact ih (by simp) hlines run hrun

end Body

theorem File.isChain_chars {text : Text} {inst : Instruction} (h : inst ∈ (parse text).instructions) :
    inst.chars.IsChain (Body.Adjoining (Text.lines text)) := by
  obtain ⟨taken, lines, found, hbodied⟩ := Bodied.exists_of_mem h
  have hlines : lines ⊆ Text.lines text := by
    rw [hbodied.lines_eq]
    exact List.subset_append_right _ _
  have hrun : inst.chars ∈ Body.runs (parse text).escape none lines := by
    rw [← hbodied.chars_eq]
    exact List.mem_map_of_mem (mem_logicalLines h)
  exact Body.isChain_runs (by simp) hlines inst.chars hrun

/-! ## Arguments in one line -/

namespace Text

theorem getLast?_of_stop {u v : Text} {b : Placed} (hb : b ∈ place 0 (u ++ v))
    (hstop : b.stop = byteLength u) : u.getLast? = some b.char := by
  obtain ⟨a, rest, htext, hoffset⟩ := exists_split_of_mem_place hb
  have hlen : byteLength u = byteLength (a ++ [b.char]) := by
    rw [← hstop, byteLength_append, byteLength_cons, byteLength_nil, Placed.stop, Placed.size]
    omega
  have hsplit : u ++ v = (a ++ [b.char]) ++ rest := by
    rw [htext, List.append_assoc, List.singleton_append]
  rw [(eq_of_byteLength_eq hsplit hlen).1, List.getLast?_concat]

/-- Characters of a text that stand side by side are a part of it. -/
theorem exists_split_of_place_subset {text a : Text} {c : Char} {offset : Nat}
    (h : place offset (c :: a) ⊆ place 0 text) :
    ∃ u v, text = u ++ (c :: a ++ v) ∧ offset = byteLength u := by
  induction a generalizing c offset with
  | nil =>
      obtain ⟨u, v, htext, hoffset⟩ := exists_split_of_mem_place (h List.mem_cons_self)
      exact ⟨u, v, htext, by simpa using hoffset⟩
  | cons d a ih =>
      obtain ⟨u, v, htext, hoffset⟩ := exists_split_of_mem_place (h List.mem_cons_self)
      obtain ⟨u', v', htext', hoffset'⟩ := ih fun p hp => h (List.mem_cons_of_mem _ hp)
      have hoffset : offset = 0 + byteLength u := hoffset
      have hlen : byteLength (u ++ [c]) = byteLength u' := by
        rw [← hoffset', hoffset, byteLength_append, byteLength_cons, byteLength_nil]
        omega
      have hsplit : (u ++ [c]) ++ v = u' ++ (d :: a ++ v') := by
        rw [← htext', List.append_assoc, List.singleton_append]
        exact htext.symm
      obtain ⟨-, rfl⟩ := eq_of_byteLength_eq hsplit hlen
      exact ⟨u, v', htext, by omega⟩

end Text

/-- Of two offsets in one line, neither is in front of a line start that the other has passed. -/
theorem Text.start_le_iff_of_lineOf_eq {text : Text} {line : Line} (h : line ∈ lines text)
    {offset offset' : Nat} (hle : offset ≤ byteLength text) (hle' : offset' ≤ byteLength text)
    (heq : lineOf text offset = lineOf text offset') : line.start ≤ offset ↔ line.start ≤ offset' := by
  obtain ⟨before, after, hlines⟩ := List.append_of_mem h
  obtain ⟨front, rest, hcut⟩ := Cut.exists_of_lines hlines
  rw [← hcut.le_lineOf_iff hle, heq, hcut.le_lineOf_iff hle']

/-- A text without line breaks does not reach beyond the content of a line. -/
theorem Text.prefix_of_clean {a v content more : Text} (h : a ++ v = content ++ more)
    (ha : ∀ c ∈ a, isLineBreak c = false) (hmore : ∀ c ∈ more.head?, isLineBreak c = true) :
    a <+: content := by
  rcases List.append_eq_append_iff.mp h with ⟨z, rfl, -⟩ | ⟨z, rfl, rfl⟩
  · exact List.prefix_append a z
  · cases z with
    | nil => simp
    | cons c z =>
        have hclean := ha c (by simp)
        rw [hmore c rfl] at hclean
        cases hclean

theorem Placed.eq_place_of_isChain {p : Placed} {chars : List Placed}
    (h : (p :: chars).IsChain fun p q => p.stop = q.offset) :
    p :: chars = Text.place p.offset (Placed.text (p :: chars)) := by
  induction chars generalizing p with
  | nil => rfl
  | cons q chars ih =>
      obtain ⟨hnext, hchain⟩ := List.isChain_cons_cons.mp h
      have hplace := ih hchain
      rw [← hnext] at hplace
      exact congrArg (p :: ·) hplace

theorem Argument.exists_around_of_mem {escape : Char} {whole : Excerpt} {index : Nat}
    {chars : List Placed} {arg : Argument} (h : arg ∈ splitFrom escape whole index chars) :
    ∃ a b, chars = a ++ (arg.content.chars ++ b) ∧ ∀ p ∈ a.getLast?, isBlank p.char = true := by
  fun_induction splitFrom escape whole index chars with
  | case1 => cases h
  | case2 index p rest hblank ih =>
      obtain ⟨a, b, rfl, ha⟩ := ih h
      refine ⟨p :: a, b, rfl, fun q hq => ?_⟩
      cases a with
      | nil => exact Option.some.inj hq ▸ hblank
      | cons r a => exact ha q (by rwa [List.getLast?_cons_cons] at hq)
  | case3 index p rest _ word stop ih =>
      have happend : word.chars ++ word.rest = p :: rest := Word.read_append escape none (p :: rest)
      rcases List.mem_cons.mp h with rfl | h
      · exact ⟨[], word.rest, happend.symm, by simp⟩
      · obtain ⟨q, tail, hq, hread⟩ := Argument.exists_read_of_mem h
        obtain ⟨chars, hchars, -⟩ := Word.exists_read_eq escape tail hq
        obtain ⟨a, b, hrest, ha⟩ := ih h
        refine ⟨word.chars ++ a, b, by rw [List.append_assoc, ← hrest, happend], fun r hr => ?_⟩
        cases a with
        | nil =>
            -- What follows a word starts with a blank, and an argument does not.
            rw [List.nil_append, hread, hchars] at hrest
            rcases Word.read_rest escape none (p :: rest) with hnil | ⟨blank, more, hmore, hblank⟩
            · rw [show word.rest = [] from hnil] at hrest
              cases hrest
            · rw [show word.rest = blank :: more from hmore] at hrest
              obtain ⟨rfl, -⟩ := List.cons.inj hrest
              rw [hq] at hblank
              cases hblank
        | cons s a => exact ha r (by rwa [List.getLast?_append_cons] at hr)

theorem Instruction.argument_ne_nil {inst : Instruction} {arg : Argument} (h : arg ∈ inst.arguments) :
    arg.content.chars ≠ [] := by
  obtain ⟨p, more, hp, hread⟩ := Argument.exists_read_of_mem h
  obtain ⟨word, hword, -⟩ := Argument.Word.exists_read_eq inst.escape more hp
  rw [hread, hword]
  exact List.cons_ne_nil p word

theorem Body.Adjoining.blank_before {text front rest x : Text} {before after : List Line} {line : Line}
    {p q : Placed} {c : Text} (h : Adjoining (Text.lines text) p q)
    (hcut : Text.Cut text front rest before (line :: after)) (hp : p ∈ Text.place 0 text)
    (hblank : isBlank p.char = true) (hcontent : line.content = x ++ q.char :: c)
    (hoffset : q.offset = line.start + Text.byteLength x) : ∀ d ∈ x.getLast?, isBlank d = true := by
  intro d hd
  obtain ⟨rest', hrest, hclean, -⟩ := hcut.exists_next
  have hlead : Text.byteLength (front ++ x) = q.offset := by
    rw [hoffset, hcut.start_eq, Text.byteLength_append]
  have htext : text = (front ++ x) ++ (q.char :: c ++ (line.terminator ++ rest')) := by
    rw [hcut.split, hrest, hcontent]
    simp only [List.append_assoc]
  have hlast : (front ++ x).getLast? = some d := by
    rw [List.getLast?_append, Option.mem_def.mp hd, Option.some_or]
  rcases h with hstop | ⟨l, hl, hstop⟩
  · rw [htext] at hp
    rw [Text.getLast?_of_stop hp (hstop.trans hlead.symm)] at hlast
    exact Option.some.inj hlast ▸ hblank
  · -- A line that began here would end the one in which the character stands.
    obtain ⟨before', after', hl⟩ := List.append_of_mem hl
    obtain ⟨front', rest'', hcut'⟩ := Text.Cut.exists_of_lines hl
    have hsplit : front' ++ rest'' = (front ++ x) ++ (q.char :: c ++ (line.terminator ++ rest')) := by
      rw [← hcut'.split, htext]
    obtain ⟨rfl, -⟩ := Text.eq_of_byteLength_eq hsplit (by rw [← hcut'.start_eq, hstop, hlead])
    have hd := hclean d (by rw [hcontent]; exact List.mem_append_left _ (List.mem_of_getLast? hd))
    rw [hcut'.margin d hlast] at hd
    cases hd

namespace File

variable {text : Text} {inst : Instruction} {arg : Argument}
  (hinst : inst ∈ (parse text).instructions) (harg : arg ∈ inst.arguments)
include hinst harg

theorem exists_around_argument : ∃ front blank first tail rest,
    inst.region.chars = front ++ blank :: (arg.content.chars ++ rest) ∧
      isBlank blank.char = true ∧ arg.content.chars = first :: tail := by
  obtain ⟨p, more, hp, hread⟩ := Argument.exists_read_of_mem harg
  obtain ⟨word, hword, -⟩ := Argument.Word.exists_read_eq inst.escape more hp
  have hfirst : arg.content.chars = p :: word := hread.trans hword
  obtain ⟨a, rest, hregion, ha⟩ := Argument.exists_around_of_mem harg
  rcases List.eq_nil_or_concat a with rfl | ⟨a, blank, rfl⟩
  · rw [List.nil_append, hfirst] at hregion
    obtain ⟨start, -, hline⟩ := Body.exists_lineAt_of_mem (mem_logicalLines hinst)
    have hhead := @Body.region_head (parse text).escape (Text.byteLength text) start
    rw [← hline, hregion] at hhead
    rcases hhead with hnil | ⟨blank, tail, hchars, hblank⟩
    · cases hnil
    · obtain ⟨rfl, -⟩ := List.cons.inj hchars
      rw [hp] at hblank
      cases hblank
  · exact ⟨a, blank, p, word, rest, by rw [hregion]; simp, ha blank (by simp), hfirst⟩

theorem isChain_argument :
    arg.content.chars.IsChain (Body.Adjoining (Text.lines text)) := by
  obtain ⟨lead, blank, first, tail, more, hregion, -, hfirst⟩ := exists_around_argument hinst harg
  have hchars : inst.chars = (inst.keyword.chars ++ (lead ++ [blank])) ++ (arg.content.chars ++ more) := by
    rw [Instruction.chars, hregion]
    simp
  have hwhole := isChain_chars hinst
  rw [hchars] at hwhole
  exact hwhole.right_of_append.left_of_append

/-- The characters of an argument that does not go on in another line stand side by side. -/
theorem argument_eq_place (hline : Text.lineOf text arg.span.stop = Text.lineOf text arg.span.start) :
    arg.content.chars = Text.place arg.span.start arg.text := by
  have hargument : arg.content.Within text := (instruction_within hinst).argument harg
  have hbounded : arg.span.stop ≤ Text.byteLength text := hargument.span.bounded
  have hspan : arg.span.start ≤ arg.span.stop := hargument.span.ordered
  have hordered := (Text.pairwise_place 0 text).sublist hargument.chars
  have hbound : ∀ p ∈ arg.content.chars, p.stop ≤ arg.span.stop := fun p hp => hargument.stop_le hp
  have hchain := isChain_argument hinst harg
  obtain ⟨first, tail, hfirst⟩ := List.exists_cons_of_ne_nil (Instruction.argument_ne_nil harg)
  have hstart : arg.span.start = first.offset := by
    show Placed.startOr _ arg.content.chars = _
    rw [hfirst, Placed.startOr_cons]
  rw [hfirst] at hordered hbound hchain
  rw [Argument.text, Excerpt.text, hfirst, hstart]
  refine Placed.eq_place_of_isChain (hchain.imp_of_mem_tail_imp fun p q hp hq hnext => ?_)
  rcases hnext with hstop | ⟨l, hl, hbegin⟩
  · exact hstop
  · -- The line would begin behind the first character, in whose line the argument ends.
    exfalso
    have hbehind := (List.pairwise_cons.mp hordered).1 q hq
    have hle := hbound q (List.mem_cons_of_mem _ hq)
    have hpos := first.offset_lt_stop
    have hsize := q.offset_lt_stop
    have hsame := Text.start_le_iff_of_lineOf_eq hl hbounded (Nat.le_trans hspan hbounded) hline
    omega

theorem argument_stop_eq (hline : Text.lineOf text arg.span.stop = Text.lineOf text arg.span.start) :
    arg.span.stop = arg.span.start + Text.byteLength arg.text := by
  have hplace := argument_eq_place hinst harg hline
  obtain ⟨first, tail, hfirst⟩ := List.exists_cons_of_ne_nil (Instruction.argument_ne_nil harg)
  have hhead : arg.content.chars.head? = some first := by rw [hfirst]; rfl
  obtain ⟨last, hlast⟩ : ∃ last, arg.content.chars.getLast? = some last :=
    ⟨_, List.getLast?_eq_some_getLast (Instruction.argument_ne_nil harg)⟩
  have hspan : arg.span = first.spanTo last := Excerpt.span_eq_spanTo hhead hlast
  rw [hplace] at hlast
  have hstop := Text.stop_of_getLast?_place hlast
  have hstart : arg.span.start = first.offset := by rw [hspan]; rfl
  have hmax : arg.span.stop = max last.stop first.offset := by rw [hspan]; rfl
  omega

/-- Where an argument that does not go on in another line starts, the rest of that line starts with
it. -/
theorem argument_prefix (hline : Text.lineOf text arg.span.stop = Text.lineOf text arg.span.start)
    {lead content more : Text} (htext : text = lead ++ (content ++ more))
    (hlead : Text.byteLength lead = arg.span.start) (hmore : ∀ c ∈ more.head?, isLineBreak c = true) :
    arg.text <+: content := by
  obtain ⟨front, blank, first, tail, rest, hregion, -, hfirst⟩ := exists_around_argument hinst harg
  have hargument : arg.text = first.char :: Placed.text tail := congrArg Placed.text hfirst
  have hsubset : Text.place arg.span.start (first.char :: Placed.text tail) ⊆ Text.place 0 text := by
    rw [← hargument, ← argument_eq_place hinst harg hline]
    exact ((instruction_within hinst).argument harg).chars.subset
  obtain ⟨u, v, hsplit, hu⟩ := Text.exists_split_of_place_subset hsubset
  rw [htext, ← hargument] at hsplit
  have hrest := (Text.eq_of_byteLength_eq hsplit (hlead.trans hu)).2
  refine Text.prefix_of_clean hrest.symm (fun d hd => ?_) hmore
  obtain ⟨p, hp, rfl⟩ := List.mem_map.mp hd
  refine not_break_of_mem (mem_logicalLines hinst) (p := p) (List.mem_append_right _ ?_)
  rw [hregion]
  exact List.mem_append_right _ (List.mem_cons_of_mem _ (List.mem_append_left _ hp))

/-- An argument that does not go on in another line is a part of its line, behind a blank or at the
start. The line is not a comment. -/
theorem exists_line_of_argument
    (hline : Text.lineOf text arg.span.stop = Text.lineOf text arg.span.start) :
    ∃ front rest before line after x z, Text.Cut text front rest before (line :: after) ∧
      line.isComment = false ∧ line.content = x ++ (arg.text ++ z) ∧
      arg.span.start = line.start + Text.byteLength x ∧ ∀ c ∈ x.getLast?, isBlank c = true := by
  obtain ⟨lead, blank, first, tail, more, hregion, hblank, hfirst⟩ := exists_around_argument hinst harg
  have hchars : inst.chars = (inst.keyword.chars ++ lead) ++ blank :: (first :: tail ++ more) := by
    rw [Instruction.chars, hregion, hfirst, List.append_assoc]
  have hchain := isChain_chars hinst
  rw [hchars] at hchain
  have hadjoining : Body.Adjoining (Text.lines text) blank first :=
    (List.isChain_cons_cons.mp hchain.right_of_append).1
  have hmem : first ∈ inst.chars := by rw [hchars]; simp
  have hblankmem : blank ∈ Text.place 0 text :=
    (instruction_within hinst).chars.mem (by rw [hchars]; simp)
  obtain ⟨taken, before, middle, after, line, last, found, hbodied, hhead, hcomment, hfirstline, -⟩ :=
    exists_lines_of_mem hinst hmem hmem (Nat.le_refl _)
  obtain ⟨tail', htail⟩ := exists_cons_of_head? hhead after
  have hlines := hbodied.lines_eq
  rw [htail, ← List.append_assoc] at hlines
  obtain ⟨front, rest, hcut⟩ := Text.Cut.exists_of_lines hlines
  obtain ⟨rest', hrest, -, hbreak, -⟩ := hcut.exists_next
  obtain ⟨x, c, hcontent, hoffset⟩ := Text.exists_split_of_mem_place hfirstline
  have hstart : arg.span.start = line.start + Text.byteLength x := by
    show Placed.startOr _ arg.content.chars = _
    rw [hfirst, Placed.startOr_cons, hoffset]
  obtain ⟨z, hz⟩ : arg.text <+: first.char :: c := by
    have htext : text = (front ++ x) ++ ((first.char :: c) ++ (line.terminator ++ rest')) := by
      rw [hcut.split, hrest, hcontent]
      simp only [List.append_assoc]
    refine argument_prefix hinst harg hline htext ?_ hbreak
    rw [hstart, hcut.start_eq, Text.byteLength_append]
  exact ⟨front, rest, taken ++ before, line, tail', x, z, hcut, hcomment, by rw [hz, hcontent], hstart,
    hadjoining.blank_before hcut hblankmem hblank hcontent hoffset⟩

end File

end Dockerfile
