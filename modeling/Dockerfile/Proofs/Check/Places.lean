import Dockerfile.Proofs.Check.Settings
import Dockerfile.Proofs.File.SourceMap
import Dockerfile.Proofs.Scope.StageMentions
import Dockerfile.Proofs.StringArray.Grammar
import Dockerfile.Proofs.Text.Widening

/-!
# Where findings stand

Every check places its findings at spans of the text: at arguments and parts of them, at keywords,
or between two of these. A report is therefore the finding's own span, or, if that is empty, a
character beside it (`analyze_wellPlaced`).
-/

namespace Dockerfile

/-! ## Spans of parts -/

theorem Span.WellPlaced.cover {text : Text} {a b : Span} (ha : a.WellPlaced text)
    (hb : b.WellPlaced text) : (a.cover b).WellPlaced text := by
  have hmin : Text.isBoundary text (min a.start b.start) = true := by
    rcases Nat.le_total a.start b.start with h | h
    · rw [Nat.min_eq_left h]
      exact ha.start_boundary
    · rw [Nat.min_eq_right h]
      exact hb.start_boundary
  refine .of_boundaries ?_ hmin (Text.isBoundary_max ha.stop_boundary hb.stop_boundary)
  have := ha.ordered
  omega

theorem Span.wellPlaced_empty {text : Text} {offset : Nat}
    (h : Text.isBoundary text offset = true) : (Span.empty offset).WellPlaced text :=
  .of_boundaries (Nat.le_refl _) h h

theorem dropFit_sublist {α : Type} (size : α → Nat) (limit : Nat) (xs : List α) :
    (dropFit size limit xs).Sublist xs :=
  List.IsSuffix.sublist ⟨takeFit size limit xs, takeFit_append_dropFit size limit xs⟩

theorem takeFit_sublist {α : Type} (size : α → Nat) (limit : Nat) (xs : List α) :
    (takeFit size limit xs).Sublist xs :=
  List.IsPrefix.sublist ⟨dropFit size limit xs, takeFit_append_dropFit size limit xs⟩

namespace Excerpt.Within

variable {text : Text} {e : Excerpt}

theorem char_span (h : e.Within text) {p : Placed} (hp : p ∈ e.chars) : p.span.WellPlaced text :=
  have hboundary := Text.isBoundary_of_mem_place (h.chars.mem hp)
  .of_boundaries (Nat.le_of_lt p.offset_lt_stop) hboundary.1 hboundary.2

theorem spanTo (h : e.Within text) {p q : Placed} (hp : p ∈ e.chars) (hq : q ∈ e.chars) :
    (p.spanTo q).WellPlaced text :=
  have hstart := (Text.isBoundary_of_mem_place (h.chars.mem hp)).1
  .of_boundaries (Nat.le_max_right _ _) hstart
    (Text.isBoundary_max (Text.isBoundary_of_mem_place (h.chars.mem hq)).2 hstart)

theorem slice (h : e.Within text) (start stop : Nat) : (e.slice start stop).Within text := by
  unfold Excerpt.slice
  have hrest := dropFit_sublist Placed.size (min start (min stop e.byteLength)) e.chars
  exact h.part ((takeFit_sublist _ _ _).trans hrest) ((dropFit_sublist _ _ _).trans hrest)

theorem trim (h : e.Within text) : e.trim.Within text :=
  h.slice _ _

theorem cutAtEquals (h : e.Within text) :
    e.cutAtEquals.1.Within text ∧ ∀ value ∈ e.cutAtEquals.2, value.Within text := by
  unfold Excerpt.cutAtEquals
  have hbefore := List.takeWhile_sublist (fun p : Placed => p.char != '=') (l := e.chars)
  have hafter := List.dropWhile_sublist (fun p : Placed => p.char != '=') (l := e.chars)
  split
  · exact ⟨h.part hbefore (List.nil_sublist _), by simp⟩
  · rename_i equals rest heq
    rw [heq] at hafter
    refine ⟨h.part hbefore hafter, ?_⟩
    intro value hvalue
    cases hvalue
    exact h.part ((List.sublist_cons_self _ _).trans hafter) (List.nil_sublist _)

end Excerpt.Within

/-! ## Arrays of strings -/

namespace StringArray

theorem decodeEscape_suffix (escape : Char) (q : Placed) (rest : List Placed) :
    (decodeEscape escape q rest).2 <:+ rest := by
  rw [decodeEscape_eq]
  split
  · exact List.drop_suffix 4 rest
  · exact List.suffix_refl rest

theorem closeLiteral_suffix {quote escape : Char} {chars rest : List Placed} {value : Text}
    {close : Placed} (h : closeLiteral quote escape chars = some (value, close, rest)) :
    rest <:+ chars := by
  fun_induction closeLiteral quote escape chars generalizing value with
  | case1 => cases h
  | case2 p rest' _ =>
      cases h
      exact List.suffix_cons _ _
  | case3 => cases h
  | case4 p _ _ q rest' decoded =>
      rename_i ih
      obtain ⟨⟨inner, r⟩, hr, he⟩ := Option.map_eq_some_iff.mp h
      cases he
      have hdecoded : decoded.2 <:+ rest' := decodeEscape_suffix escape q rest'
      exact ((ih hr).trans hdecoded).trans ((List.suffix_cons _ _).trans (List.suffix_cons _ _))
  | case5 p rest' _ _ ih =>
      obtain ⟨⟨inner, r⟩, hr, he⟩ := Option.map_eq_some_iff.mp h
      cases he
      exact (ih hr).trans (List.suffix_cons _ _)

/-- Reading an array stops at the closing bracket, at a character that is unfit, or at the end. -/
def StopsIn (whole : List Placed) (stop : Nat) : Except Error (List Literal × Placed) → Prop
  | .ok r => r.2 ∈ whole
  | .error .notAnArray => True
  | .error (.unexpected span _) => span = Span.empty stop ∨ ∃ p ∈ whole, span = p.span

theorem StopsIn.map {whole : List Placed} {stop : Nat} {r : Except Error (List Literal × Placed)}
    (h : StopsIn whole stop r) (literal : Literal) :
    StopsIn whole stop (r.map fun r => (literal :: r.1, r.2)) := by
  cases r with
  | ok r => exact h
  | error e => exact h

theorem elements_stopsIn (quote escape : Char) (stop : Nat) {whole : List Placed} (expect : Expect)
    (chars : List Placed) (hs : chars <:+ whole)
    (hclose : ∀ close, expect = .nothing close → close ∈ whole) :
    StopsIn whole stop (elements quote escape stop expect chars) := by
  have hunfit : ∀ p ∈ whole, StopsIn whole stop (.error (.unexpected p.span (some p.char))) :=
    fun p hp => .inr ⟨p, hp, rfl⟩
  fun_induction elements quote escape stop expect chars with
  | case1 close => exact hclose close rfl
  | case2 => exact .inl rfl
  | case3 expect p rest hp ih => exact ih ((List.suffix_cons _ _).trans hs) hclose
  | case4 p => exact hunfit p (hs.mem List.mem_cons_self)
  | case5 p rest hp hcomma ih => exact ih ((List.suffix_cons _ _).trans hs) (by simp)
  | case6 p rest hp hcomma hbracket ih =>
      refine ih ((List.suffix_cons _ _).trans hs) ?_
      rintro close ⟨⟩
      exact hs.mem List.mem_cons_self
  | case7 p => exact hunfit p (hs.mem List.mem_cons_self)
  | case8 expect p rest hp hbracket _ _ ih =>
      rw [if_pos hbracket]
      refine ih ((List.suffix_cons _ _).trans hs) ?_
      rintro close ⟨⟩
      exact hs.mem List.mem_cons_self
  | case9 expect p rest hp hbracket hquote hread =>
      rw [if_neg hbracket, if_pos hquote]
      split
      · exact .inl rfl
      · simp_all
  | case10 expect p rest hp hbracket hquote value close rest' hread _ _ ih =>
      rw [if_neg hbracket, if_pos hquote]
      split
      · exact .inl rfl
      · rename_i hread'
        rw [hread] at hread'
        cases hread'
        have hsuf := (closeLiteral_suffix hread).trans (List.suffix_cons p rest)
        exact (ih (hsuf.trans hs) (by simp)).map _
  | case11 expect p rest hp hbracket hquote =>
      rw [if_neg hbracket, if_neg hquote]
      exact hunfit p (hs.mem List.mem_cons_self)

/-- An array, and what keeps a text from being one, are found inside the text. -/
theorem parse_places {text : Text} {e : Excerpt} (h : e.Within text) (quote escape : Char) :
    (∀ array, parse quote escape e = .ok array → array.span.WellPlaced text) ∧
      ∀ span found, parse quote escape e = .error (.unexpected span found) →
        span.WellPlaced text := by
  unfold parse
  cases hfront : e.chars.dropWhile fun p => isSpace p.char with
  | nil => simp
  | cons p rest =>
      have hsuf : p :: rest <:+ e.chars := suffix_of_dropWhile hfront
      have hp := hsuf.mem List.mem_cons_self
      have hstops := elements_stopsIn quote escape e.stop .valueOrClose rest
        ((List.suffix_cons _ _).trans hsuf) (by simp)
      by_cases hopen : p.char = '['
      · simp only [if_pos hopen]
        cases hr : elements quote escape e.stop .valueOrClose rest with
        | ok r =>
            rw [hr] at hstops
            refine ⟨?_, by simp [Except.map]⟩
            rintro array ⟨⟩
            exact h.spanTo hp hstops
        | error error =>
            rw [hr] at hstops
            refine ⟨by simp [Except.map], ?_⟩
            rintro span found ⟨⟩
            rcases hstops with rfl | ⟨q, hq, rfl⟩
            · exact Span.wellPlaced_empty h.stop_boundary
            · exact h.char_span hq
      · simp [if_neg hopen]

end StringArray

/-! ## Arguments, flags and properties -/

theorem Argument.Word.openQuote_offset {escape : Char} {quote : Option OpenQuote}
    {whole chars : List Placed} (hs : chars <:+ whole)
    (hquote : ∀ opened ∈ quote, ∃ p ∈ whole, opened.offset = p.offset) {opened : OpenQuote}
    (h : opened ∈ (read escape quote chars).openQuote) : ∃ p ∈ whole, opened.offset = p.offset := by
  fun_induction read escape quote chars with
  | case1 => exact hquote opened h
  | case2 => cases h
  | case3 p rest _ _ ih =>
      refine ih ((List.suffix_cons _ _).trans hs) ?_ h
      rintro first ⟨⟩
      exact ⟨p, hs.mem List.mem_cons_self, rfl⟩
  | case4 => cases h
  | case5 p _ _ _ q rest ih =>
      exact ih (((List.suffix_cons _ _).trans (List.suffix_cons _ _)).trans hs) hquote h
  | case6 p rest _ _ _ ih => exact ih ((List.suffix_cons _ _).trans hs) hquote h
  | case7 p rest first _ ih => exact ih ((List.suffix_cons _ _).trans hs) (by simp) h
  | case8 => exact hquote opened h
  | case9 p first _ _ q rest ih =>
      exact ih (((List.suffix_cons _ _).trans (List.suffix_cons _ _)).trans hs) hquote h
  | case10 p rest first _ _ ih => exact ih ((List.suffix_cons _ _).trans hs) hquote h

theorem Argument.splitFrom_openQuote {escape : Char} {whole : Excerpt} {index : Nat}
    {chars : List Placed} (hs : chars <:+ whole.chars) {arg : Argument}
    (harg : arg ∈ splitFrom escape whole index chars) {opened : OpenQuote}
    (h : opened ∈ arg.openQuote) : ∃ p ∈ whole.chars, opened.offset = p.offset := by
  fun_induction splitFrom escape whole index chars with
  | case1 => simp at harg
  | case2 index p rest hb ih => exact ih ((List.suffix_cons _ _).trans hs) harg
  | case3 index p rest hb word stop ih =>
      rcases List.mem_cons.mp harg with rfl | harg
      · exact Word.openQuote_offset hs (by simp) h
      · have happend : word.chars ++ word.rest = p :: rest :=
          Word.read_append escape none (p :: rest)
        exact ih (List.IsSuffix.trans ⟨word.chars, happend⟩ hs) harg

theorem Instruction.exists_argument_of_mem_flags {inst : Instruction} {f : Flag}
    (h : f ∈ inst.flags) :
    ∃ arg ∈ inst.arguments, ∃ index, Flag.ofArgument? arg index = some f := by
  have hfrom : ∀ (index : Nat) (args : List Argument), f ∈ flagsFrom index args →
      ∃ arg ∈ args, ∃ index, Flag.ofArgument? arg index = some f := by
    intro index args hf
    induction args generalizing index with
    | nil => simp [flagsFrom] at hf
    | cons arg rest ih =>
        unfold flagsFrom at hf
        split at hf
        · rename_i flag hflag
          rcases List.mem_cons.mp hf with rfl | hf
          · exact ⟨arg, List.mem_cons_self, index, hflag⟩
          · obtain ⟨arg', harg', hfound⟩ := ih _ hf
            exact ⟨arg', List.mem_cons_of_mem _ harg', hfound⟩
        · cases hf
  unfold flags at h
  split at h
  · exact hfrom 0 _ h
  · cases h

namespace Instruction.Within

variable {text : Text} {inst : Instruction}

theorem argument (h : inst.Within text) {arg : Argument} (harg : arg ∈ inst.arguments) :
    arg.content.Within text :=
  Argument.splitFrom_within _ h.region 0 _ (List.suffix_refl _) harg

theorem openQuote (h : inst.Within text) {arg : Argument} (harg : arg ∈ inst.arguments)
    {opened : OpenQuote} (hopened : opened ∈ arg.openQuote) :
    Text.isBoundary text opened.offset = true := by
  obtain ⟨p, hp, heq⟩ := Argument.splitFrom_openQuote (List.suffix_refl _) harg hopened
  rw [heq]
  exact (Text.isBoundary_of_mem_place (h.region.chars.mem hp)).1

theorem positional (h : inst.Within text) {arg : Argument} (harg : arg ∈ inst.positional) :
    arg.content.Within text := by
  apply h.argument
  unfold Instruction.positional at harg
  split at harg
  · exact (List.dropWhile_suffix _).mem harg
  · exact harg

theorem positionalRegion (h : inst.Within text) : inst.positionalRegion.Within text :=
  (h.region.slice _ _).trim

theorem flag (h : inst.Within text) {f : Flag} (hf : f ∈ inst.flags) :
    f.name.Within text ∧ (∀ value ∈ f.value, value.Within text) ∧ f.span.WellPlaced text := by
  obtain ⟨arg, harg, index, hflag⟩ := exists_argument_of_mem_flags hf
  have hcontent := h.argument harg
  unfold Flag.ofArgument? at hflag
  split at hflag
  · cases hflag
    have hbody := hcontent.part (List.drop_sublist 2 _) (List.nil_sublist _)
    exact ⟨hbody.cutAtEquals.1, hbody.cutAtEquals.2, hcontent.span⟩
  · cases hflag

theorem property (h : inst.Within text) {p : Property} (hp : p ∈ inst.properties) :
    p.span.WellPlaced text := by
  rcases inst.properties_cases with hprops | ⟨-, first, second, rest, hargs, -, hprops⟩
  · rw [hprops] at hp
    obtain ⟨arg, harg, rfl⟩ := List.mem_map.mp hp
    exact (h.argument harg).span
  · rw [hprops, List.mem_singleton] at hp
    subst hp
    have hfirst : first ∈ inst.arguments := by
      rw [hargs]
      exact List.mem_cons_self
    exact (h.argument hfirst).span.cover (h.region.slice _ _).trim.span

end Instruction.Within

/-! ## Checks -/

namespace Check

def Within (text : Text) (findings : List Finding) : Prop :=
  ∀ f ∈ findings, f.span.WellPlaced text

section Lists

variable {text : Text}

theorem within_nil : Within text [] := by
  intro f hf
  cases hf

theorem within_singleton {problem : Problem} {span : Span} (h : span.WellPlaced text) :
    Within text [⟨problem, span⟩] := by
  intro f hf
  rw [List.mem_singleton] at hf
  rw [hf]
  exact h

theorem within_map {α : Type} {xs : List α} {problem : α → Problem} {span : α → Span}
    (h : ∀ x ∈ xs, (span x).WellPlaced text) :
    Within text (xs.map fun x => ⟨problem x, span x⟩) := by
  intro f hf
  obtain ⟨x, hx, rfl⟩ := List.mem_map.mp hf
  exact h x hx

theorem Within.append {a b : List Finding} (ha : Within text a) (hb : Within text b) :
    Within text (a ++ b) := by
  intro f hf
  rcases List.mem_append.mp hf with hf | hf
  · exact ha f hf
  · exact hb f hf

theorem within_flatMap {α : Type} {xs : List α} {check : α → List Finding}
    (h : ∀ x ∈ xs, Within text (check x)) : Within text (xs.flatMap check) := by
  intro f hf
  obtain ⟨x, hx, hf⟩ := List.mem_flatMap.mp hf
  exact h x hx f hf

theorem within_ite {c : Prop} [Decidable c] {a b : List Finding} (ha : Within text a)
    (hb : Within text b) : Within text (if c then a else b) := by
  split
  · exact ha
  · exact hb

end Lists

section Instructions

variable {text : Text} {inst : Instruction}

theorem within_arguments (h : inst.Within text) {args : List Argument}
    (hargs : ∀ arg ∈ args, arg ∈ inst.arguments) (problem : Argument → Problem) :
    Within text (args.map fun arg => ⟨problem arg, arg.span⟩) :=
  within_map fun arg harg => (h.argument (hargs arg harg)).span

theorem quotes_within (h : inst.Within text) : Within text (quotes inst) := by
  intro f hf
  obtain ⟨arg, harg, hf⟩ := List.mem_filterMap.mp hf
  obtain ⟨opened, hopened, rfl⟩ := Option.map_eq_some_iff.mp hf
  have hstart := h.openQuote harg hopened
  exact .of_boundaries (Nat.le_max_right _ _) hstart
    (Text.isBoundary_max (h.argument harg).span.stop_boundary hstart)

theorem singleArgument_within (h : inst.Within text) : Within text (singleArgument inst) :=
  within_arguments h (fun _ harg => List.mem_of_mem_drop harg) _

theorem head_within (h : inst.Within text) {first : Argument}
    (hfirst : inst.arguments.head? = some first) : first.span.WellPlaced text :=
  (h.argument (List.mem_of_mem_head? hfirst)).span

theorem arg_within (h : inst.Within text) : Within text (arg inst) := by
  refine .append ?_ (singleArgument_within h)
  split
  · rename_i first hfirst
    exact within_ite (within_singleton (head_within h hfirst)) within_nil
  · exact within_nil

theorem stopsignal_within (h : inst.Within text) : Within text (stopsignal inst) := by
  refine .append ?_ (singleArgument_within h)
  split
  · rename_i first hfirst
    exact within_ite within_nil (within_singleton (head_within h hfirst))
  · exact within_nil

theorem pair_within {p : Property} (h : p.span.WellPlaced text) (keyword : Keyword) :
    Within text (pair keyword p) :=
  within_ite within_nil <| within_ite (within_singleton h) <|
    within_ite (within_singleton h) within_nil

theorem pairs_within (h : inst.Within text) (keyword : Keyword) :
    Within text (pairs keyword inst) := by
  have hproperty : ∀ p ∈ inst.properties, p.span.WellPlaced text := fun p hp => h.property hp
  unfold pairs
  split
  · rename_i p hone
    have hp := hproperty p (by rw [hone]; exact List.mem_cons_self)
    exact within_ite (within_singleton hp) (pair_within hp keyword)
  · exact within_flatMap fun p hp => pair_within (hproperty p hp) keyword

theorem exposed_within {arg : Argument} (h : arg.content.Within text) :
    Within text (exposed arg) := by
  have hafter := List.dropWhile_sublist (fun p : Placed => p.char != '/') (l := arg.content.chars)
  have hport := h.part (List.takeWhile_sublist fun p : Placed => p.char != '/') hafter
  refine within_ite within_nil (.append (within_ite within_nil (within_singleton hport.span)) ?_)
  split
  · exact within_nil
  · rename_i slash rest hslash
    rw [hslash] at hafter
    have hprotocol := h.part ((List.sublist_cons_self _ _).trans hafter) (List.nil_sublist _)
    exact within_ite within_nil (within_singleton hprotocol.span)

theorem fromImage_within (h : inst.Within text) : Within text (fromImage inst) := by
  have harg : ∀ arg ∈ inst.positional, arg.span.WellPlaced text := fun arg harg =>
    (h.positional harg).span
  unfold fromImage
  split
  · exact within_singleton h.keyword.span
  · exact within_nil
  · rename_i image as name hthree
    rw [hthree] at harg
    exact within_ite (within_singleton (harg as (by simp)))
      (within_ite (within_singleton (harg name (by simp))) within_nil)
  · rename_i first second rest _ hmore
    rw [hmore] at harg
    have hlast : (rest.getLast?.getD second).span.WellPlaced text := by
      cases hrest : rest.getLast? with
      | none => exact harg second (by simp)
      | some last => exact harg last (by simp [List.mem_of_getLast? hrest])
    have hall := @within_singleton text .argumentRequiresOneOrThree _
      ((harg first (by simp)).cover hlast)
    split
    · rename_i name extra
      exact within_ite (within_map fun arg hextra => harg arg (by simp [hextra])) hall
    · exact hall

theorem volume_within (h : inst.Within text) : Within text (volume inst) := by
  refine within_ite ?_ within_nil
  split
  · rename_i span found herror
    exact within_singleton ((StringArray.parse_places h.region _ _).2 span found herror)
  · exact within_nil

theorem shell_within (h : inst.Within text) : Within text (shell inst) := by
  unfold shell
  split
  · rename_i array harray
    exact within_ite (within_singleton ((StringArray.parse_places h.region _ _).1 array harray))
      within_nil
  · exact within_singleton h.region.trim.span

theorem command_within (h : inst.Within text) : Within text (command inst) := by
  refine within_ite ?_ within_nil
  split
  · rename_i array harray
    exact within_singleton ((StringArray.parse_places h.region _ _).1 array harray)
  · exact within_nil

theorem copy_within (h : inst.Within text) : Within text (copy inst) := by
  refine within_ite within_nil (within_singleton ?_)
  split
  · exact h.keyword.span
  · exact h.positionalRegion.span

theorem flags_within (h : inst.Within text) (keyword : Keyword) :
    Within text (flags keyword inst.flags) := by
  refine within_flatMap fun f hf => ?_
  obtain ⟨hname, hvalue, hspan⟩ := h.flag hf
  refine within_ite (within_singleton ?_) (.append ?_ ?_)
  · split
    · exact hspan
    · exact hname.span
  · exact within_ite (within_singleton hname.span) within_nil
  · split
    · exact within_ite within_nil (within_singleton hname.span)
    · rename_i value hsome
      exact within_ite (within_singleton (hvalue value hsome).span) within_nil

theorem healthcheck_within (h : inst.Within text) : Within text (healthcheck inst) := by
  refine .append (within_flatMap fun f hf => ?_) ?_
  · unfold healthcheckFlag
    split
    · exact within_nil
    · rename_i value hvalue
      have hspan := ((h.flag hf).2.1 value hvalue).span
      exact within_ite within_nil (within_map fun _ _ => hspan)
  · unfold healthcheckCommand
    split
    · exact within_singleton h.keyword.span
    · rename_i first rest hargs
      have harg : ∀ arg ∈ first :: rest, arg.span.WellPlaced text := by
        rw [← hargs]
        exact fun arg harg => (h.positional harg).span
      exact within_ite (within_map fun arg hrest => harg arg (List.mem_cons_of_mem _ hrest))
        (within_ite (within_singleton (harg first List.mem_cons_self)) within_nil)

theorem ofKeyword_within (h : inst.Within text) (keyword : Keyword) :
    Within text (ofKeyword keyword inst) := by
  cases keyword with
  | ADD | COPY => exact copy_within h
  | ARG => exact arg_within h
  | CMD | ENTRYPOINT | RUN => exact command_within h
  | ENV | LABEL => exact pairs_within h _
  | EXPOSE => exact within_flatMap fun arg harg => exposed_within (h.argument harg)
  | FROM => exact fromImage_within h
  | HEALTHCHECK => exact healthcheck_within h
  | SHELL => exact shell_within h
  | STOPSIGNAL => exact stopsignal_within h
  | USER => exact singleArgument_within h
  | VOLUME => exact volume_within h
  | MAINTAINER | ONBUILD | WORKDIR => exact within_nil

theorem keyword_within (h : inst.Within text) (k : Keyword) : Within text (keyword k inst) :=
  .append (within_ite (within_singleton h.keyword.span) within_nil)
    (within_ite (within_singleton h.keyword.span) within_nil)

theorem instruction_within (h : inst.Within text) : Within text (instruction inst) := by
  fun_induction instruction inst with
  | case1 inst hkind => exact within_singleton h.keyword.span
  | case2 inst k hkind ih =>
      refine .append (keyword_within h k) (within_ite (within_singleton h.keyword.span)
        (.append (.append ?_ ?_) ?_))
      · exact within_ite (quotes_within h) within_nil
      · exact within_ite (flags_within h k) within_nil
      · split
        · exact ofKeyword_within h k
        · rename_i trigger htrigger
          have hspan := (h.trigger htrigger).keyword.span
          split
          · exact within_singleton hspan
          · exact within_singleton hspan
          · exact within_singleton hspan
          · exact ih trigger htrigger (h.trigger htrigger)

end Instructions

section Files

variable {text : Text}

theorem directive_within {d : Directive} (h : d.Within text) : Within text (directive d) :=
  .append (within_ite (within_singleton h.name.span) within_nil)
    (within_ite (within_singleton h.name.span) (within_ite (within_singleton h.value) within_nil))

theorem sourceImage_within {insts : List Instruction} (h : ∀ inst ∈ insts, inst.Within text) :
    Within text (sourceImage insts) := by
  unfold sourceImage
  split
  · exact within_singleton (Span.wellPlaced_empty (Text.isBoundary_append [] text))
  · rename_i inst hfound
    have hinst := h inst (List.mem_of_find?_eq_some hfound)
    exact within_ite within_nil (within_singleton hinst.keyword.span)

theorem withEmptyLines_within {inst : Instruction} (h : inst.Within text) :
    Within text (withEmptyLines inst) :=
  .append (instruction_within h) (within_map h.emptyLines)

theorem stageName_within {inst : Instruction} (h : inst.Within text) {name : Excerpt}
    (hname : inst.stageName? = some name) : name.Within text := by
  unfold Instruction.stageName? Stage.declaredName? at hname
  split at hname
  · split at hname
    · rename_i image as arg rest hargs
      split at hname
      · cases hname
        exact h.positional (by rw [hargs]; simp)
      · cases hname
    · cases hname
  · cases hname

theorem duplicateStages_within {sites : List Site}
    (h : ∀ site ∈ sites, site.instruction.Within text) :
    Within text (duplicateStages (Stage.ofSites sites)) := by
  intro f hf
  obtain ⟨name, hname, hf⟩ := List.mem_filterMap.mp hf
  obtain ⟨stage, hstage, hname⟩ := List.mem_filterMap.mp hname
  have hmem := List.mem_map_of_mem (f := fun stage : Stage => (stage.index, stage.name)) hstage
  rw [Stage.ofSites_eq] at hmem
  obtain ⟨site, hsite, heq⟩ := List.mem_map.mp hmem
  have hplaced := stageName_within (h site (List.mem_filter.mp hsite).1)
    ((congrArg Prod.snd heq).trans hname)
  split at hf
  · cases hf
    exact hplaced.span
  · cases hf

theorem overridden_within {sites : List Site} (h : ∀ site ∈ sites, site.instruction.Within text)
    (keyword : Keyword) : Within text (overridden keyword sites) := by
  induction sites with
  | nil => exact within_nil
  | cons site rest ih =>
      have ih := ih fun s hs => h s (List.mem_cons_of_mem _ hs)
      have hsite := (h site List.mem_cons_self).keyword.span
      exact within_ite (.append (within_singleton hsite) ih) ih

theorem file_within (text : Text) :
    Within text (file (File.parse text) (ScopeTable.ofFile (File.parse text))) := by
  have hinst : ∀ inst ∈ (File.parse text).instructions, inst.Within text :=
    fun inst h => File.instruction_within h
  have hsite : ∀ site ∈ (ScopeTable.ofFile (File.parse text)).sites,
      site.instruction.Within text :=
    fun site h => hinst _ (Site.instruction_mem h)
  have hdirective : ∀ d ∈ (File.parse text).directives, Within text (directive d) :=
    fun d h => directive_within (Directive.readAll_within h)
  have hbody : ∀ inst ∈ (File.parse text).instructions, Within text (withEmptyLines inst) :=
    fun inst h => withEmptyLines_within (hinst inst h)
  have hoverridden := overridden_within hsite
  exact ((((((within_flatMap hdirective).append (sourceImage_within hinst)).append
    (within_flatMap hbody)).append (duplicateStages_within hsite)).append
    (hoverridden .CMD)).append (hoverridden .ENTRYPOINT)).append (hoverridden .HEALTHCHECK)

end Files

end Check

/-! ## Reports -/

/-- A report stands in the text, at the range of its span, and is seen there: its span is empty only
between line breaks or ends of the text. -/
structure Diagnostic.WellPlaced (text : Text) (d : Diagnostic) : Prop where
  span : d.span.WellPlaced text
  range : d.range = Text.rangeOf text d.span
  visible : d.span.isEmpty = true → Text.Bare text d.span.start

theorem Diagnostic.exists_of_ofFinding? {text : Text} {settings : Settings} {f : Finding}
    {d : Diagnostic} (h : ofFinding? text settings f = some d) :
    d.span = Text.widen text f.span ∧ d.range = Text.rangeOf text d.span := by
  obtain ⟨severity, -, rfl⟩ := Option.map_eq_some_iff.mp h
  exact ⟨rfl, rfl⟩

theorem Diagnostic.wellPlaced_of_ofFinding? {text : Text} {settings : Settings} {f : Finding}
    {d : Diagnostic} (h : ofFinding? text settings f = some d) : d.WellPlaced text := by
  obtain ⟨hspan, hrange⟩ := exists_of_ofFinding? h
  refine ⟨?_, hrange, ?_⟩
  · rw [hspan]
    exact Text.widen_wellPlaced text f.span
  · rw [hspan]
    exact Text.bare_of_widen_isEmpty

/-- What the checks find in a text, before it is reported. -/
def Analysis.findings (a : Analysis) : List Finding :=
  Check.file a.file a.scopes

theorem Analysis.diagnostics_perm (text : Text) (settings : Settings) :
    (analyze text settings).diagnostics.Perm
      ((analyze text settings).findings.filterMap (Diagnostic.ofFinding? text settings)) :=
  List.mergeSort_perm _ _

theorem Analysis.mem_diagnostics_iff {text : Text} {settings : Settings} {d : Diagnostic} :
    d ∈ (analyze text settings).diagnostics ↔
      ∃ f ∈ (analyze text settings).findings, Diagnostic.ofFinding? text settings f = some d :=
  (diagnostics_perm text settings).mem_iff.trans List.mem_filterMap

theorem Analysis.wellPlaced_of_mem {text : Text} {settings : Settings} {d : Diagnostic}
    (hd : d ∈ (analyze text settings).diagnostics) : d.WellPlaced text := by
  obtain ⟨f, -, hf⟩ := mem_diagnostics_iff.mp hd
  exact Diagnostic.wellPlaced_of_ofFinding? hf

/-- Every report is well placed. It reports one of the findings, whose span lies in the text already
and is kept, unless it is empty; and reports are ordered by where they start, then by where they
end. -/
theorem analyze_wellPlaced (text : Text) (settings : Settings) :
    (∀ d ∈ (analyze text settings).diagnostics, d.WellPlaced text) ∧
      (analyze text settings).diagnostics.Perm
        ((analyze text settings).findings.filterMap (Diagnostic.ofFinding? text settings)) ∧
      (∀ f ∈ (analyze text settings).findings, f.span.WellPlaced text ∧
        ∀ d, Diagnostic.ofFinding? text settings f = some d → f.span.isEmpty = false →
          d.span = Text.clampSpan text f.span ∧ d.span = f.span) ∧
      (analyze text settings).diagnostics.Pairwise fun a b =>
        a.span.start < b.span.start ∨
          a.span.start = b.span.start ∧ a.span.stop ≤ b.span.stop := by
  refine ⟨fun d hd => Analysis.wellPlaced_of_mem hd, Analysis.diagnostics_perm text settings, ?_, ?_⟩
  · intro f hf
    have hplaced := Check.file_within text f hf
    refine ⟨hplaced, fun d hd hne => ?_⟩
    rw [Text.clampSpan_of_wellPlaced hplaced, (Diagnostic.exists_of_ofFinding? hd).1,
      Text.widen_of_wellPlaced hplaced hne]
    exact ⟨rfl, rfl⟩
  · exact (List.pairwise_mergeSort Diagnostic.le_trans Diagnostic.le_total _).imp
      Diagnostic.le_iff.mp

end Dockerfile
