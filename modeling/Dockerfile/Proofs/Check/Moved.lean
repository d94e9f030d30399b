import Dockerfile.Check.Instruction
import Dockerfile.Proofs.Body.Shift
import Dockerfile.Proofs.StringArray.Grammar

/-!
# Findings further on

What is found in an instruction depends on what it says, and each finding stands where it says so. If
the characters of an instruction stand a number of bytes further on, its findings are the same, as
many bytes further on (`Check.ofKeyword_moved`). The places of empty parts do not matter.
-/

namespace Dockerfile

/-! ## Excerpts -/

theorem Placed.span_shift (n : Nat) (p : Placed) : (p.shift n).span = p.span.shift n := by
  rw [Placed.span, Placed.stop_shift]
  rfl

theorem Placed.spanTo_shift (n : Nat) (p q : Placed) :
    (p.shift n).spanTo (q.shift n) = (p.spanTo q).shift n := by
  simp only [spanTo, stop_shift, offset_shift, Nat.add_max_add_right, Span.shift]

theorem takeFit_shift (n limit : Nat) (chars : List Placed) :
    takeFit Placed.size limit (chars.map (Placed.shift n)) =
      (takeFit Placed.size limit chars).map (Placed.shift n) := by
  induction chars generalizing limit with
  | nil => rfl
  | cons p chars ih =>
      have hsize : (p.shift n).size = p.size := rfl
      rw [List.map_cons, takeFit, takeFit, hsize, ih]
      split <;> rfl

theorem dropFit_shift (n limit : Nat) (chars : List Placed) :
    dropFit Placed.size limit (chars.map (Placed.shift n)) =
      (dropFit Placed.size limit chars).map (Placed.shift n) := by
  induction chars generalizing limit with
  | nil => rfl
  | cons p chars ih =>
      have hsize : (p.shift n).size = p.size := rfl
      rw [List.map_cons, dropFit, dropFit, hsize, ih]
      split <;> rfl

namespace Excerpt

variable {n : Nat} {e e' : Excerpt}

namespace Moved

variable (h : e.Moved n e')
include h

theorem text : e'.text = e.text := by
  rw [Excerpt.text, h.chars, Placed.text_shift, Excerpt.text]

theorem byteLength : e'.byteLength = e.byteLength := by
  rw [Excerpt.byteLength, h.chars, Placed.total_size_shift, Excerpt.byteLength]

theorem isEmpty : e'.isEmpty = e.isEmpty := by
  rw [Excerpt.isEmpty, h.chars, List.isEmpty_map, Excerpt.isEmpty]

theorem span : e'.span = e.span.shift n := by
  have hstop := h.stop
  have hstart : e'.start = e.start + n := by
    unfold Excerpt.start
    unfold Excerpt.stop at hstop
    rw [h.chars] at hstop ⊢
    cases hchars : e.chars with
    | nil =>
        rw [hchars] at hstop
        exact hstop
    | cons p chars => rfl
  simp only [Excerpt.span, Span.shift, hstart, hstop, Nat.add_max_add_right]

theorem slice (start stop : Nat) : e'.slice start stop = (e.slice start stop).shift n := by
  simp only [Excerpt.slice, h.byteLength, h.chars, takeFit_shift, dropFit_shift, h.part]

theorem trim : e'.trim = e.trim.shift n := by
  have hbounds : e'.trimmedBounds = e.trimmedBounds := by
    simp only [trimmedBounds, leadingBlanks, h.text, h.chars, takeWhile_shift,
      Placed.total_size_shift]
  rw [Excerpt.trim, hbounds, h.slice, Excerpt.trim]

end Moved

theorem cutAtEquals_shift (n : Nat) (e : Excerpt) :
    (e.shift n).cutAtEquals = (e.cutAtEquals.1.shift n, e.cutAtEquals.2.map (shift n)) := by
  unfold cutAtEquals
  have hmoved := moved_shift n e
  have hdrop := dropWhile_shift n (fun c => c != '=') e.chars
  rw [hmoved.chars, takeWhile_shift n fun c => c != '=', hdrop]
  cases e.chars.dropWhile fun p => p.char != '=' with
  | nil => exact Prod.ext (hmoved.part _ []) rfl
  | cons p rest => exact Prod.ext (hmoved.part _ (p :: rest)) (congrArg some (hmoved.part rest []))

end Excerpt

theorem Span.cover_shift (n : Nat) (a b : Span) : (a.shift n).cover (b.shift n) = (a.cover b).shift n := by
  simp only [cover, shift, Nat.add_max_add_right, Nat.add_min_add_right]

/-! ## Arrays of strings -/

namespace StringArray

def Literal.shift (n : Nat) (literal : Literal) : Literal :=
  { literal with span := literal.span.shift n }

def Error.shift (n : Nat) : Error → Error
  | .notAnArray => .notAnArray
  | .unexpected span found => .unexpected (span.shift n) found

def Expect.shift (n : Nat) : Expect → Expect
  | .nothing close => .nothing (close.shift n)
  | expect => expect

end StringArray

def StringArray.shift (n : Nat) (array : StringArray) : StringArray :=
  ⟨array.strings.map (Literal.shift n), array.span.shift n⟩

namespace StringArray

/-- A result, and the place of what is unexpected, `n` bytes further on. -/
def shiftResult {α : Type} (n : Nat) (shift : α → α) : Except Error α → Except Error α
  | .ok a => .ok (shift a)
  | .error e => .error (e.shift n)

/-- What is read of an array behind its bracket, `n` bytes further on. -/
def shiftRead (n : Nat) (r : List Literal × Placed) : List Literal × Placed :=
  (r.1.map (Literal.shift n), r.2.shift n)

theorem decodeEscape_shift (n : Nat) (escape : Char) (q : Placed) (rest : List Placed) :
    decodeEscape escape (q.shift n) (rest.map (Placed.shift n)) =
      ((decodeEscape escape q rest).1, (decodeEscape escape q rest).2.map (Placed.shift n)) := by
  have hlength : (Placed.text (rest.map (Placed.shift n))) = Placed.text rest := Placed.text_shift n rest
  rw [decodeEscape_eq, decodeEscape_eq, hlength, Placed.char_shift, ← List.map_drop]
  split <;> rfl

theorem closeLiteral_shift (n : Nat) (quote escape : Char) (chars : List Placed) :
    closeLiteral quote escape (chars.map (Placed.shift n)) =
      (closeLiteral quote escape chars).map fun r =>
        (r.1, r.2.1.shift n, r.2.2.map (Placed.shift n)) := by
  have hchar : ∀ p : Placed, (p.shift n).char = p.char := fun _ => rfl
  fun_induction closeLiteral quote escape chars with
  | case1 =>
      rw [List.map_nil, closeLiteral]
      rfl
  | case2 p rest hq =>
      rw [← hchar p] at hq
      exact closeLiteral_quote hq _
  | case3 p hq he =>
      subst he
      simp [closeLiteral.eq_def quote p.char [p.shift n], hq]
  | case4 p hq he q rest decoded ih =>
      rw [← hchar p] at hq he
      rw [List.map_cons, List.map_cons, closeLiteral_escaped hq he, decodeEscape_shift, ih,
        Option.map_map, Option.map_map]
      rfl
  | case5 p rest hq he ih =>
      rw [← hchar p] at hq he
      rw [List.map_cons, closeLiteral_plain hq he, ih, Option.map_map, Option.map_map]
      rfl

section Equations

variable {quote escape : Char} {stop : Nat} {p : Placed} {rest : List Placed}

theorem elements_of_space {expect : Expect} (hp : isSpace p.char = true) :
    elements quote escape stop expect (p :: rest) = elements quote escape stop expect rest := by
  rw [elements.eq_def]
  exact if_pos hp

theorem elements_of_nothing {close : Placed} (hp : isSpace p.char = false) :
    elements quote escape stop (.nothing close) (p :: rest) =
      .error (.unexpected p.span (some p.char)) := by
  rw [elements.eq_def]
  simp [hp]

theorem elements_of_commaOrClose (hp : isSpace p.char = false) :
    elements quote escape stop .commaOrClose (p :: rest) =
      if p.char = ',' then elements quote escape stop .value rest
      else if p.char = ']' then elements quote escape stop (.nothing p) rest
      else .error (.unexpected p.span (some p.char)) := by
  rw [elements.eq_def]
  simp [hp]

theorem elements_of_value {expect : Expect} (hexpect : expect = .valueOrClose ∨ expect = .value)
    (hp : isSpace p.char = false) :
    elements quote escape stop expect (p :: rest) =
      if p.char = ']' ∧ expect = .valueOrClose then elements quote escape stop (.nothing p) rest
      else if p.char = quote then
        match closeLiteral quote escape rest with
        | none => .error (.unexpected (Span.empty stop) none)
        | some r => (elements quote escape stop .commaOrClose r.2.2).map
            fun s => (⟨r.1, p.spanTo r.2.1⟩ :: s.1, s.2)
      else .error (.unexpected p.span (some p.char)) := by
  rw [elements.eq_def]
  rcases hexpect with rfl | rfl <;>
  · simp only [hp, Bool.false_eq_true, if_false]
    congr 2
    split <;> rename_i hread <;> rw [hread]

end Equations

theorem elements_shift (n : Nat) (quote escape : Char) (stop : Nat) (expect : Expect)
    (chars : List Placed) :
    elements quote escape (stop + n) (expect.shift n) (chars.map (Placed.shift n)) =
      shiftResult n (shiftRead n) (elements quote escape stop expect chars) := by
  induction hlength : chars.length using Nat.strongRecOn generalizing expect chars with
  | ind length ih =>
      have hnext : ∀ expect rest, rest.length < length →
          elements quote escape (stop + n) (Expect.shift n expect) (rest.map (Placed.shift n)) =
            shiftResult n (shiftRead n) (elements quote escape stop expect rest) := by
        intro expect rest hlt
        exact ih rest.length hlt expect rest rfl
      cases chars with
      | nil => cases expect <;> simp [Expect.shift, elements, shiftResult, shiftRead,
          Error.shift, Span.shift, Span.empty]
      | cons p rest =>
          have hshorter : rest.length < length := by
            rw [← hlength]
            exact Nat.lt_succ_self _
          have hunfit : (.error (.unexpected (p.shift n).span (some (p.shift n).char))) =
              shiftResult n (shiftRead n) (.error (.unexpected p.span (some p.char))) := by
            rw [Placed.span_shift]
            rfl
          have hvalue : ∀ expect : Expect, expect = .valueOrClose ∨ expect = .value →
              isSpace p.char = false →
              elements quote escape (stop + n) expect ((p :: rest).map (Placed.shift n)) =
                shiftResult n (shiftRead n) (elements quote escape stop expect (p :: rest)) := by
            intro expect hexpect hp
            have hp' : isSpace (p.shift n).char = false := hp
            rw [List.map_cons, elements_of_value hexpect hp, apply_ite (shiftResult n (shiftRead n)),
              apply_ite (shiftResult n (shiftRead n)), ← hnext (.nothing p) rest hshorter, ← hunfit,
              elements_of_value hexpect hp', closeLiteral_shift]
            cases hread : closeLiteral quote escape rest with
            | none => simp only [Option.map_none, shiftResult, Error.shift, Span.shift, Span.empty]; rfl
            | some r =>
                obtain ⟨value, close, rest'⟩ := r
                have hlt := closeLiteral_length hread
                have hcomma := hnext .commaOrClose rest' (Nat.lt_trans hlt hshorter)
                simp only [Option.map_some, Placed.spanTo_shift]
                rw [show elements quote escape (stop + n) .commaOrClose (rest'.map (Placed.shift n)) =
                  _ from hcomma]
                cases elements quote escape stop .commaOrClose rest' <;> rfl
          by_cases hp : isSpace p.char = true
          · rw [List.map_cons, elements_of_space (show isSpace (p.shift n).char = true from hp),
              elements_of_space hp]
            exact hnext expect rest hshorter
          have hp : isSpace p.char = false := by simpa using hp
          cases expect with
          | nothing close =>
              rw [elements_of_nothing hp, ← hunfit]
              exact elements_of_nothing hp
          | commaOrClose =>
              rw [elements_of_commaOrClose hp, apply_ite (shiftResult n (shiftRead n)),
                apply_ite (shiftResult n (shiftRead n)),
                ← hnext .value rest hshorter, ← hnext (.nothing p) rest hshorter, ← hunfit]
              exact elements_of_commaOrClose hp
          | valueOrClose => exact hvalue _ (.inl rfl) hp
          | value => exact hvalue _ (.inr rfl) hp

theorem parse_moved {n : Nat} {e e' : Excerpt} (h : e.Moved n e') (quote escape : Char) :
    parse quote escape e' = shiftResult n (shift n) (parse quote escape e) := by
  unfold parse
  rw [h.chars, dropWhile_shift n isSpace, h.stop]
  cases e.chars.dropWhile fun p => isSpace p.char with
  | nil => rfl
  | cons p rest =>
      simp only [List.map_cons]
      by_cases hopen : p.char = '['
      · have hread : elements quote escape (e.stop + n) .valueOrClose (rest.map (Placed.shift n)) =
            shiftResult n (shiftRead n) (elements quote escape e.stop .valueOrClose rest) :=
          elements_shift n quote escape e.stop .valueOrClose rest
        rw [if_pos hopen, if_pos (show (p.shift n).char = '[' from hopen), hread]
        cases elements quote escape e.stop .valueOrClose rest with
        | ok r => exact congrArg (fun span => Except.ok (StringArray.mk _ span)) (p.spanTo_shift n r.2)
        | error e => rfl
      · rw [if_neg hopen, if_neg (show ¬(p.shift n).char = '[' from hopen)]
        rfl

theorem looksLike_moved {n : Nat} {e e' : Excerpt} (h : e.Moved n e') : looksLike e' = looksLike e := by
  rw [looksLike, h.text, looksLike]

end StringArray

/-! ## Flags and properties -/

def Flag.shift (n : Nat) (f : Flag) : Flag :=
  { f with name := f.name.shift n, value := f.value.map (Excerpt.shift n), span := f.span.shift n }

def Property.shift (n : Nat) (p : Property) : Property :=
  { p with name := p.name.shift n, value := p.value.map (Excerpt.shift n), span := p.span.shift n }

section Parts

variable (n : Nat)

theorem Argument.text_shift (arg : Argument) : (arg.shift n).text = arg.text :=
  arg.content.text_shift n

theorem Argument.span_shift (arg : Argument) : (arg.shift n).span = arg.span.shift n :=
  arg.content.span_shift n

theorem Flag.isFlag_shift (arg : Argument) : isFlag (arg.shift n) = isFlag arg := by
  rw [isFlag, Argument.text_shift, isFlag]

theorem Flag.ofArgument?_shift (arg : Argument) (index : Nat) :
    ofArgument? (arg.shift n) index = (ofArgument? arg index).map (shift n) := by
  have hbody : (arg.shift n).content.part ((arg.shift n).content.chars.drop 2) [] =
      (arg.content.part (arg.content.chars.drop 2) []).shift n := by
    rw [← (arg.content.moved_shift n).part, List.map_drop]
    rfl
  unfold ofArgument?
  rw [isFlag_shift]
  split
  · simp only [hbody, Excerpt.cutAtEquals_shift, Argument.span_shift]
    rfl
  · rfl

theorem Property.ofArgument_shift (arg : Argument) :
    ofArgument (arg.shift n) = (ofArgument arg).shift n := by
  have hcut : (arg.shift n).content.cutAtEquals = _ := arg.content.cutAtEquals_shift n
  simp only [ofArgument, hcut, Argument.span_shift]
  rfl

theorem Property.isEmpty_name_shift (p : Property) : (p.shift n).name.isEmpty = p.name.isEmpty :=
  (p.name.moved_shift n).isEmpty

theorem Property.isNone_value_shift (p : Property) : (p.shift n).value.isNone = p.value.isNone :=
  Option.isNone_map

theorem Instruction.flagsFrom_shift (index : Nat) (args : List Argument) :
    flagsFrom index (args.map (Argument.shift n)) = (flagsFrom index args).map (Flag.shift n) := by
  induction args generalizing index with
  | nil => rfl
  | cons arg args ih =>
      rw [List.map_cons, flagsFrom, flagsFrom, Flag.ofArgument?_shift]
      cases Flag.ofArgument? arg index with
      | none => rfl
      | some flag => simp only [Option.map_some, ih, List.map_cons]

end Parts

/-! ## Instructions -/

/-- The instruction says what another says, `n` bytes further on. Which lines interrupt it is not
compared. -/
structure Instruction.Moved (n : Nat) (inst inst' : Instruction) : Prop where
  keyword : inst.keyword.Moved n inst'.keyword
  region : inst.region.Moved n inst'.region
  escape : inst'.escape = inst.escape

namespace Instruction.Moved

variable {n : Nat} {inst inst' : Instruction} (h : inst.Moved n inst')
include h

theorem keywordSpan : inst'.keywordSpan = inst.keywordSpan.shift n :=
  h.keyword.span

theorem kind : inst'.kind = inst.kind := by
  rw [Instruction.kind, h.keyword.text, Instruction.kind]

theorem isKind (k : Keyword) : inst'.isKind k = inst.isKind k := by
  rw [Instruction.isKind, h.kind, Instruction.isKind]

theorem arguments : inst'.arguments = inst.arguments.map (Argument.shift n) := by
  rw [Instruction.arguments, Argument.split, h.region.chars, h.escape,
    Argument.splitFrom_moved _ h.region, Instruction.arguments, Argument.split]

theorem flags : inst'.flags = inst.flags.map (Flag.shift n) := by
  rw [Instruction.flags, Instruction.bearsFlags, h.kind, h.arguments, flagsFrom_shift,
    Instruction.flags, Instruction.bearsFlags]
  split <;> rfl

theorem positional : inst'.positional = inst.positional.map (Argument.shift n) := by
  have hflag : Flag.isFlag ∘ Argument.shift n = Flag.isFlag := funext (Flag.isFlag_shift n)
  rw [Instruction.positional, Instruction.bearsFlags, h.kind, h.arguments, List.dropWhile_map, hflag,
    Instruction.positional, Instruction.bearsFlags]
  split <;> rfl

theorem rest_trimmed (start : Nat) :
    (inst'.region.slice start inst'.region.byteLength).trim =
      (inst.region.slice start inst.region.byteLength).trim.shift n := by
  rw [h.region.byteLength, h.region.slice, (Excerpt.moved_shift n _).trim]

theorem positionalRegion : inst'.positionalRegion = inst.positionalRegion.shift n := by
  unfold Instruction.positionalRegion
  rw [h.positional]
  cases inst.positional with
  | nil =>
      refine (h.rest_trimmed inst'.region.byteLength).trans ?_
      rw [h.region.byteLength]
      rfl
  | cons arg args => exact h.rest_trimmed arg.start

theorem properties : inst'.properties = inst.properties.map (Property.shift n) := by
  have hofArgument : Property.ofArgument ∘ Argument.shift n = Property.shift n ∘ Property.ofArgument :=
    funext (Property.ofArgument_shift n)
  have hall : ∀ args : List Argument, (args.map (Argument.shift n)).map Property.ofArgument =
      (args.map Property.ofArgument).map (Property.shift n) := by
    intro args
    rw [List.map_map, List.map_map, hofArgument]
  unfold Instruction.properties
  rw [h.arguments]
  match inst.arguments with
  | [] => rfl
  | [first] => exact hall [first]
  | first :: second :: rest =>
      simp only [List.map_cons, h.isKind, Argument.text_shift]
      split
      · have hvalue : (inst'.region.slice (second.shift n).start inst'.region.byteLength).trim =
            (inst.region.slice second.start inst.region.byteLength).trim.shift n :=
          h.rest_trimmed second.start
        rw [hvalue, Argument.span_shift, Excerpt.span_shift, Span.cover_shift]
        rfl
      · exact hall (first :: second :: rest)

end Instruction.Moved

/-! ## Findings -/

def Finding.shift (n : Nat) (f : Finding) : Finding :=
  ⟨f.problem, f.span.shift n⟩

namespace Check

/-- The findings, `n` bytes further on. -/
def shift (n : Nat) (findings : List Finding) : List Finding :=
  findings.map (Finding.shift n)

variable {n : Nat}

theorem shift_append (a b : List Finding) : shift n (a ++ b) = shift n a ++ shift n b :=
  List.map_append

theorem shift_ite (c : Prop) [Decidable c] (a b : List Finding) :
    shift n (if c then a else b) = if c then shift n a else shift n b :=
  apply_ite (shift n) c a b

theorem shift_flatMap {α : Type} {check check' : α → List Finding} {move : α → α}
    (h : ∀ x, check' (move x) = shift n (check x)) (xs : List α) :
    (xs.map move).flatMap check' = shift n (xs.flatMap check) := by
  induction xs with
  | nil => rfl
  | cons x xs ih => rw [List.map_cons, List.flatMap_cons, List.flatMap_cons, shift_append, h, ih]

theorem arguments_shift (problem : Argument → Problem)
    (hproblem : ∀ arg : Argument, problem (arg.shift n) = problem arg) (args : List Argument) :
    ((args.map (Argument.shift n)).map fun arg => ⟨problem arg, arg.span⟩) =
      shift n (args.map fun arg => ⟨problem arg, arg.span⟩) := by
  rw [shift, List.map_map, List.map_map]
  refine List.map_congr_left fun arg _ => ?_
  rw [Function.comp_apply, Function.comp_apply, hproblem, Argument.span_shift]
  rfl

theorem pair_shift (k : Keyword) (p : Property) : pair k (p.shift n) = shift n (pair k p) := by
  have htext : (p.shift n).name.text = p.name.text := p.name.text_shift n
  have hlegacy : (p.shift n).isLegacy = p.isLegacy := rfl
  simp only [pair, Property.isEmpty_name_shift, Property.isNone_value_shift, htext, hlegacy, shift_ite]
  rfl

theorem exposed_shift (arg : Argument) : exposed (arg.shift n) = shift n (exposed arg) := by
  have hmoved : arg.content.Moved n (arg.shift n).content := arg.content.moved_shift n
  have hprotocol : ∀ rest : List Placed, (arg.shift n).content.part (rest.map (Placed.shift n)) [] =
      (arg.content.part rest []).shift n := fun rest => hmoved.part rest []
  simp only [exposed, Argument.text_shift, hmoved.chars, takeWhile_shift n fun c => c != '/',
    dropWhile_shift n fun c => c != '/', hmoved.part, Excerpt.text_shift, Excerpt.span_shift]
  split
  · rfl
  · rw [shift_append, shift_ite]
    congr 1
    cases arg.content.chars.dropWhile fun p => p.char != '/' with
    | nil => rfl
    | cons slash rest =>
        simp only [List.map_cons, hprotocol, Excerpt.text_shift, Excerpt.span_shift, shift_ite]
        rfl

theorem flag_shift (spec : FlagSpec) (flags : List Flag) (f : Flag) :
    flag spec (flags.map (Flag.shift n)) (f.shift n) = shift n (flag spec flags f) := by
  have hname : (f.shift n).name.text = f.name.text := f.name.text_shift n
  have hempty : (f.shift n).name.isEmpty = f.name.isEmpty := (f.name.moved_shift n).isEmpty
  have hspan : (f.shift n).name.span = f.name.span.shift n := f.name.span_shift n
  have hcount : (flags.map (Flag.shift n)).countP (fun g => g.name.text == f.name.text) =
      flags.countP fun g => g.name.text == f.name.text := by
    rw [List.countP_map]
    congr 1
    funext g
    exact congrArg (· == f.name.text) (g.name.text_shift n)
  unfold flag
  simp only [hname, hempty, hspan, hcount]
  split
  · exact congrArg (fun span => [Finding.mk _ span]) (apply_ite (Span.shift n) _ _ _).symm
  · rw [shift_append, shift_ite]
    congr 1
    have hvalue : (f.shift n).value = f.value.map (Excerpt.shift n) := rfl
    rw [hvalue]
    cases f.value with
    | none =>
        rw [Option.map_none, shift_ite]
        rfl
    | some value =>
        simp only [Option.map_some, Excerpt.text_shift, Excerpt.span_shift, shift_ite]
        rfl

theorem healthcheckFlag_shift (f : Flag) :
    healthcheckFlag (f.shift n) = shift n (healthcheckFlag f) := by
  have hname : (f.shift n).name.text = f.name.text := f.name.text_shift n
  have hvalue : (f.shift n).value = f.value.map (Excerpt.shift n) := rfl
  simp only [healthcheckFlag, hname, hvalue]
  cases f.value with
  | none => rfl
  | some value =>
      have hempty : (value.shift n).isEmpty = value.isEmpty := (value.moved_shift n).isEmpty
      simp only [Option.map_some, hempty, Excerpt.text_shift, Excerpt.span_shift, shift_ite]
      split
      · rfl
      · rw [shift, List.map_map]
        rfl

section Instructions

variable {inst inst' : Instruction} (h : inst.Moved n inst')
include h

theorem quotes_moved : quotes inst' = shift n (quotes inst) := by
  rw [quotes, h.arguments, List.filterMap_map, shift, quotes, List.map_filterMap]
  congr 1
  funext arg
  have hquote : (arg.shift n).openQuote = arg.openQuote.map (OpenQuote.shift n) := rfl
  rw [Function.comp_apply, hquote, Option.map_map, Option.map_map]
  congr 1
  funext opened
  simp only [Function.comp_apply, Argument.span_shift, Finding.shift, Span.shift, OpenQuote.shift,
    Nat.add_max_add_right]
  rfl

theorem singleArgument_moved : singleArgument inst' = shift n (singleArgument inst) := by
  rw [singleArgument, h.arguments, h.keyword.text, ← List.map_drop]
  exact arguments_shift (fun _ => .argumentRequiresOne inst.keyword.text) (fun _ => rfl)
    (inst.arguments.drop 1)

theorem arg_moved : arg inst' = shift n (arg inst) := by
  simp only [arg, shift_append, singleArgument_moved h, h.arguments, List.head?_map]
  congr 1
  cases inst.arguments.head? with
  | none => rfl
  | some first =>
      simp only [Option.map_some, Argument.text_shift, Argument.span_shift, shift_ite]
      rfl

theorem stopsignal_moved : stopsignal inst' = shift n (stopsignal inst) := by
  simp only [stopsignal, shift_append, singleArgument_moved h, h.arguments, List.head?_map]
  congr 1
  cases inst.arguments.head? with
  | none => rfl
  | some first =>
      simp only [Option.map_some, Argument.text_shift, Argument.span_shift, shift_ite]
      rfl

theorem pairs_moved (k : Keyword) : pairs k inst' = shift n (pairs k inst) := by
  have hall := fun ps : List Property => shift_flatMap (pair_shift (n := n) k) ps
  unfold pairs
  rw [h.properties]
  match inst.properties with
  | [] => rfl
  | [p] =>
      simp only [List.map_cons, List.map_nil, Property.isEmpty_name_shift, Property.isNone_value_shift,
        h.keyword.text, pair_shift, shift_ite]
      rfl
  | p :: q :: rest => exact hall (p :: q :: rest)

theorem fromImage_moved : fromImage inst' = shift n (fromImage inst) := by
  have has : ∀ arg : Argument, isAs (arg.shift n) = isAs arg := fun arg => by
    rw [isAs, Argument.text_shift, isAs]
  have hspan : ∀ (first second : Argument) (rest : List Argument),
      (first.shift n).span.cover
          (((rest.map (Argument.shift n)).getLast?.getD (second.shift n)).span) =
        (first.span.cover (rest.getLast?.getD second).span).shift n := by
    intro first second rest
    rw [List.getLast?_map, Option.getD_map, Argument.span_shift, Argument.span_shift, Span.cover_shift]
  unfold fromImage
  rw [h.positional]
  match inst.positional with
  | [] =>
      rw [List.map_nil, h.keyword.text, h.keywordSpan]
      rfl
  | [_] => rfl
  | [_, as, name] =>
      simp only [List.map_cons, List.map_nil, has, Argument.text_shift, Argument.span_shift, shift_ite]
      rfl
  | [first, second] => exact congrArg (fun span => [Finding.mk _ span]) (hspan first second [])
  | first :: second :: name :: extra :: rest =>
      have hone := hspan first second (name :: extra :: rest)
      have hname : (name.shift n).text = name.text := name.text_shift n
      simp only [List.map_cons] at hone
      simp only [List.map_cons, has, hone, hname, shift_ite]
      split
      · exact arguments_shift (fun arg => .argumentExtra arg.text)
          (fun arg => congrArg Problem.argumentExtra (arg.text_shift n)) (extra :: rest)
      · rfl

theorem isArrayVolume_moved : isArrayVolume inst' = isArrayVolume inst :=
  StringArray.looksLike_moved h.region

theorem volume_moved : volume inst' = shift n (volume inst) := by
  simp only [volume, isArrayVolume_moved h, h.escape, StringArray.parse_moved h.region, shift_ite]
  congr 1
  cases StringArray.parse '"' inst.escape inst.region with
  | ok array => rfl
  | error e => cases e <;> rfl

theorem shell_moved : shell inst' = shift n (shell inst) := by
  have hspan : inst'.region.trim.span = inst.region.trim.span.shift n := by
    rw [h.region.trim, Excerpt.span_shift]
  simp only [shell, h.escape, StringArray.parse_moved h.region, hspan]
  cases StringArray.parse '"' inst.escape inst.region with
  | ok array =>
      simp only [StringArray.shiftResult, StringArray.shift, List.isEmpty_map, shift_ite]
      rfl
  | error e => rfl

theorem command_moved : command inst' = shift n (command inst) := by
  simp only [command, StringArray.looksLike_moved h.region, h.escape,
    StringArray.parse_moved h.region, shift_ite]
  have hok : ∀ result : Except StringArray.Error StringArray,
      (StringArray.shiftResult n (StringArray.shift n) result).isOk = result.isOk := by
    intro result
    cases result <;> rfl
  rw [hok]
  congr 1
  cases StringArray.parse '\x27' inst.escape inst.region <;> rfl

theorem copy_moved : copy inst' = shift n (copy inst) := by
  have hplace : (if inst.positionalRegion.isEmpty then inst.keywordSpan.shift n
      else inst.positionalRegion.span.shift n) =
        (if inst.positionalRegion.isEmpty then inst.keywordSpan
          else inst.positionalRegion.span).shift n := (apply_ite (Span.shift n) _ _ _).symm
  have hempty : (inst.positionalRegion.shift n).isEmpty = inst.positionalRegion.isEmpty :=
    (inst.positionalRegion.moved_shift n).isEmpty
  simp only [copy, h.escape, h.positional, h.positionalRegion, h.keyword.text, h.keywordSpan, hempty,
    StringArray.parse_moved (inst.positionalRegion.moved_shift n), Excerpt.span_shift, hplace,
    List.length_map, shift_ite]
  cases StringArray.parse '"' inst.escape inst.positionalRegion with
  | ok array =>
      simp only [StringArray.shiftResult, StringArray.shift, List.length_map]
      rfl
  | error e => rfl

theorem healthcheck_moved : healthcheck inst' = shift n (healthcheck inst) := by
  have hflags : inst'.flags.flatMap healthcheckFlag = shift n (inst.flags.flatMap healthcheckFlag) := by
    rw [h.flags]
    exact shift_flatMap healthcheckFlag_shift inst.flags
  rw [healthcheck, hflags, healthcheck, shift_append]
  congr 1
  unfold healthcheckCommand
  rw [h.positional]
  cases inst.positional with
  | nil =>
      rw [List.map_nil, h.keywordSpan]
      rfl
  | cons first rest =>
      have hunnecessary :=
        arguments_shift (n := n) (fun _ => .argumentUnnecessary) (fun _ => rfl) rest
      simp only [List.map_cons, hunnecessary, Argument.text_shift, Argument.span_shift,
        List.isEmpty_map, shift_ite]
      rfl

theorem ofKeyword_moved (k : Keyword) : ofKeyword k inst' = shift n (ofKeyword k inst) := by
  cases k with
  | ADD | COPY => exact copy_moved h
  | ARG => exact arg_moved h
  | CMD | ENTRYPOINT | RUN => exact command_moved h
  | ENV | LABEL => exact pairs_moved h _
  | EXPOSE =>
    rw [ofKeyword, h.arguments]
    exact shift_flatMap exposed_shift inst.arguments
  | FROM => exact fromImage_moved h
  | HEALTHCHECK => exact healthcheck_moved h
  | SHELL => exact shell_moved h
  | STOPSIGNAL => exact stopsignal_moved h
  | USER => exact singleArgument_moved h
  | VOLUME => exact volume_moved h
  | MAINTAINER | ONBUILD | WORKDIR => rfl

end Instructions

end Check

end Dockerfile
