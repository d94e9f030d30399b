import Mathlib.Data.List.Nodup
import Mathlib.Data.List.Pairwise
import Mathlib.Data.List.Perm.Basic
import Mathlib.Data.List.TakeWhile
import Dockerfile.Proofs.Argument
import Dockerfile.Proofs.Scope.Identifiers
import Dockerfile.Proofs.Text.Trim
import Dockerfile.Scope.Symbol

/-!
# Where variables are mentioned

An instruction mentions variables where it declares them and where it substitutes them. Each mention
is a stretch of the region (`Instruction.infix_of_mem_mentions`), and no two of them overlap
(`Instruction.mentions_disjoint`).
-/

namespace Dockerfile

theorem eq_of_mem_flatten {α : Type} {xss : List (List α)} (hn : xss.flatten.Nodup)
    {xs ys : List α} (hxs : xs ∈ xss) (hys : ys ∈ xss) {x : α} (hx : x ∈ xs) (hy : x ∈ ys) :
    xs = ys := by
  by_contra hne
  have hsymm : Std.Symm (List.Disjoint : List α → List α → Prop) :=
    ⟨fun _ _ h => List.disjoint_symm h⟩
  exact (List.nodup_flatten.mp hn).2.forall hxs hys hne hx hy

/-- A way to keep stretches from each other: it holds in both directions, and of their parts. -/
structure Separation (R : List Placed → List Placed → Prop) : Prop where
  symm : ∀ {a b : List Placed}, R a b → R b a
  mono : ∀ {a b a' b' : List Placed}, R a b → a' ⊆ a → b' ⊆ b → R a' b'

theorem Separation.of_ne {R : List Placed → List Placed → Prop} (hR : Separation R) {α : Type}
    {f : α → List Placed} {items : List α} (h : items.Pairwise fun a b => R (f a) (f b)) {a b : α}
    (ha : a ∈ items) (hb : b ∈ items) (hne : a ≠ b) : R (f a) (f b) := by
  have hsymm : Std.Symm fun a b => R (f a) (f b) := ⟨fun _ _ => hR.symm⟩
  exact h.forall ha hb hne

theorem separation_disjoint : Separation List.Disjoint where
  symm h := List.disjoint_symm h
  mono h ha hb _ hqa hqb := h (ha hqa) (hb hqb)

/-! ## Arguments in their region -/

namespace Argument

theorem infix_of_mem_splitFrom {escape : Char} {whole : Excerpt} {index : Nat} {chars : List Placed}
    {arg : Argument} (h : arg ∈ splitFrom escape whole index chars) : arg.content.chars <:+: chars := by
  fun_induction splitFrom escape whole index chars with
  | case1 => simp at h
  | case2 index p rest _ ih => exact (ih h).trans (List.suffix_cons _ _).isInfix
  | case3 index p rest _ word stop ih =>
      have happend : word.chars ++ word.rest = p :: rest := Word.read_append escape none (p :: rest)
      rw [← happend]
      rcases List.mem_cons.mp h with rfl | h
      · exact (List.prefix_append _ _).isInfix
      · exact (ih h).trans (List.suffix_append _ _).isInfix

/-- Arguments are taken from the region one behind the other. -/
theorem flatten_splitFrom_sublist (escape : Char) (whole : Excerpt) (index : Nat)
    (chars : List Placed) :
    ((splitFrom escape whole index chars).map fun arg => arg.content.chars).flatten.Sublist chars := by
  fun_induction splitFrom escape whole index chars with
  | case1 => exact List.Sublist.refl _
  | case2 index p rest _ ih => exact ih.cons _
  | case3 index p rest _ word stop ih =>
      have happend : word.chars ++ word.rest = p :: rest := Word.read_append escape none (p :: rest)
      rw [← happend]
      exact ih.append_left _

def behindFirst (escape : Char) (chars : List Placed) : List Placed :=
  (Word.read escape none (chars.dropWhile fun p => isBlank p.char)).rest.dropWhile fun p =>
    isBlank p.char

theorem splitFrom_eq_cons {escape : Char} {whole : Excerpt} {index : Nat} {chars : List Placed}
    {arg : Argument} {args : List Argument} (h : splitFrom escape whole index chars = arg :: args) :
    arg.start = index + total Placed.size (chars.takeWhile fun p => isBlank p.char) ∧
      arg.content.chars = (Word.read escape none (chars.dropWhile fun p => isBlank p.char)).chars ∧
      args = splitFrom escape whole (arg.start + total Placed.size arg.content.chars)
        (Word.read escape none (chars.dropWhile fun p => isBlank p.char)).rest := by
  rw [splitFrom_dropBlanks] at h
  have hhead := List.head?_dropWhile_not (fun p : Placed => isBlank p.char) chars
  generalize chars.dropWhile (fun p => isBlank p.char) = body at h hhead ⊢
  cases body with
  | nil => simp [splitFrom] at h
  | cons p body =>
      rw [splitFrom, if_neg (by simpa using hhead)] at h
      obtain ⟨rfl, rfl⟩ := List.cons.inj h
      exact ⟨rfl, rfl, rfl⟩

theorem exists_behindFirst {escape : Char} {whole : Excerpt} {index : Nat} {chars : List Placed}
    {first second : Argument} {rest : List Argument}
    (h : splitFrom escape whole index chars = first :: second :: rest) :
    ∃ before, chars = before ++ behindFirst escape chars ∧
      second.start = index + total Placed.size before ∧ first.content.chars <:+: before ∧
      ∀ arg ∈ second :: rest, arg.content.chars <:+: behindFirst escape chars := by
  obtain ⟨hstart, hcontent, hargs⟩ := splitFrom_eq_cons h
  obtain ⟨hstart', -, -⟩ := splitFrom_eq_cons hargs.symm
  have happend := Word.read_append escape none (chars.dropWhile fun p => isBlank p.char)
  let blanks := chars.takeWhile fun p => isBlank p.char
  let between := (Word.read escape none (chars.dropWhile fun p => isBlank p.char)).rest.takeWhile
    fun p => isBlank p.char
  refine ⟨blanks ++ (first.content.chars ++ between), ?_, ?_, ⟨blanks, between, ?_⟩, ?_⟩
  · rw [List.append_assoc, List.append_assoc, behindFirst, List.takeWhile_append_dropWhile, hcontent,
      happend, List.takeWhile_append_dropWhile]
  · rw [hstart', hstart, total_append, total_append, Nat.add_assoc, Nat.add_assoc]
  · exact List.append_assoc _ _ _
  · intro arg harg
    rw [hargs, splitFrom_dropBlanks] at harg
    exact infix_of_mem_splitFrom harg

end Argument

/-! ## Substitutions in their text -/

/-- These substitutions are found in these characters: each behind a dollar sign, and each behind the
name of the one before it. -/
inductive Substitution.Found : List Placed → List Substitution → Prop
  | nil : Found [] []
  | skip {p : Placed} {chars : List Placed} {subs : List Substitution} (next : Found chars subs) :
      Found (p :: chars) subs
  | found {p : Placed} {brace rest : List Placed} {s : Substitution} {subs : List Substitution}
      (dollar : p.char = '$') (named : isName (Placed.text s.name) = true) (next : Found rest subs) :
      Found (p :: (brace ++ (s.name ++ rest))) (s :: subs)

namespace Substitution

namespace Found

variable {chars : List Placed} {subs : List Substitution}

theorem append_left (h : Found chars subs) (a : List Placed) : Found (a ++ chars) subs := by
  induction a with
  | nil => exact h
  | cons p a ih => exact .skip ih

theorem append {more : List Placed} {others : List Substitution} (h : Found chars subs)
    (h' : Found more others) : Found (chars ++ more) (subs ++ others) := by
  induction h with
  | nil => exact h'
  | skip _ ih => exact .skip ih
  | found dollar named _ ih =>
      rw [List.cons_append, List.append_assoc, List.append_assoc]
      exact .found dollar named ih

theorem infix_of_mem (h : Found chars subs) {s : Substitution} (hs : s ∈ subs) : s.name <:+: chars := by
  induction h with
  | nil => cases hs
  | skip _ ih => exact (ih hs).trans (List.suffix_cons _ _).isInfix
  | @found p brace rest t _ _ _ _ ih =>
      have hrest : t.name ++ rest <:+: p :: (brace ++ (t.name ++ rest)) :=
        ((List.suffix_append _ _).trans (List.suffix_cons _ _)).isInfix
      rcases List.mem_cons.mp hs with rfl | hs
      · exact (List.prefix_append _ _).isInfix.trans hrest
      · exact ((ih hs).trans (List.suffix_append _ _).isInfix).trans hrest

theorem flatten_sublist (h : Found chars subs) : (subs.map name).flatten.Sublist chars := by
  induction h with
  | nil => exact List.Sublist.refl _
  | skip _ ih => exact ih.cons _
  | found _ _ _ ih => exact ((ih.append_left _).trans (List.sublist_append_right _ _)).cons _

theorem isName_of_mem (h : Found chars subs) {s : Substitution} (hs : s ∈ subs) :
    isName (Placed.text s.name) = true := by
  induction h with
  | nil => cases hs
  | skip _ ih => exact ih hs
  | found _ named _ ih =>
      rcases List.mem_cons.mp hs with rfl | hs
      · exact named
      · exact ih hs

theorem dollar_of_mem (h : Found chars subs) {s : Substitution} (hs : s ∈ subs) :
    '$' ∈ Placed.text chars := by
  induction h with
  | nil => cases hs
  | skip _ ih => exact List.mem_cons_of_mem _ (ih hs)
  | found dollar => exact List.mem_cons.mpr (.inl dollar.symm)

end Found

/-- These substitutions are found in these characters, together with those in what follows the name
of each of them in its braces. -/
inductive Nested : List Placed → List Substitution → Prop
  | nil : Nested [] []
  | skip {p : Placed} {chars : List Placed} {subs : List Substitution} (next : Nested chars subs) :
      Nested (p :: chars) subs
  | found {p : Placed} {brace name inside close rest : List Placed}
      {inner later : List Substitution} (dollar : p.char = '$')
      (named : isName (Placed.text name) = true) (within : Nested inside inner)
      (next : Nested rest later) :
      Nested (p :: (brace ++ (name ++ (inside ++ (close ++ rest)))))
        (⟨name, p :: (brace ++ (name ++ (inside ++ close)))⟩ :: (inner ++ later))

namespace Nested

variable {chars : List Placed} {subs : List Substitution}

theorem append_left (h : Nested chars subs) (a : List Placed) : Nested (a ++ chars) subs := by
  induction a with
  | nil => exact h
  | cons p a ih => exact .skip ih

theorem append {more : List Placed} {others : List Substitution} (h : Nested chars subs)
    (h' : Nested more others) : Nested (chars ++ more) (subs ++ others) := by
  induction h with
  | nil => exact h'
  | skip _ ih => exact .skip ih
  | found dollar named within _ _ ih =>
      simp only [List.cons_append, List.append_assoc]
      exact .found dollar named within ih

theorem flat (h : Nested chars subs) : Found chars subs := by
  induction h with
  | nil => exact .nil
  | skip _ ih => exact .skip ih
  | @found p brace name inside close rest inner later dollar named _ _ within next =>
      exact @Found.found p brace _ ⟨name, _⟩ _ dollar named (within.append (next.append_left close))

end Nested

theorem scanFrom_nested (escape : Char) (quoted : Bool) (chars : List Placed) :
    Nested chars (scanFrom escape quoted chars) := by
  fun_induction scanFrom escape quoted chars with
  | case1 => exact .nil
  | case2 _ _ ih => exact .skip ih
  | case3 _ p rest _ _ ih =>
      cases rest with
      | nil => exact .skip ih
      | cons q rest => exact .skip (.skip ih)
  | case4 _ _ _ _ _ _ ih => exact .skip ih
  | case5 _ p => exact .skip .nil
  | case6 _ p _ _ _ hdollar q body _ name cut whole ih2 ih1 =>
      have hclose : cut.2.take 1 ++ cut.2.tail = cut.2 := by cases cut.2 <;> rfl
      have hbody : name ++ (cut.1 ++ (cut.2.take 1 ++ cut.2.tail)) = body := by
        rw [hclose, splitClosing_append]
        exact List.takeWhile_append_dropWhile
      rw [← hbody]
      by_cases hname : isName (Placed.text name) = true
      · have hwhole : whole = p :: ([q] ++ (name ++ (cut.1 ++ cut.2.take 1))) := by
          simp only [whole, List.cons_append, List.nil_append, List.append_assoc]
        rw [if_pos hname, hwhole]
        exact @Nested.found p [q] name _ _ _ _ _ hdollar hname ih2 ih1
      · rw [if_neg hname]
        exact .skip (.skip ((ih2.append (ih1.append_left _)).append_left name))
  | case7 _ p _ _ _ hdollar q body _ hstart name ih =>
      have hbody : name ++ (q :: body).dropWhile (fun r => isNameChar r.char) = q :: body :=
        List.takeWhile_append_dropWhile
      have hname : isName (Placed.text name) = true := by
        rw [isName_eq (List.all_eq_true.mp List.all_takeWhile)]
        have hchar := isNameChar_of_isNameStart hstart
        simp [hchar, hstart]
      have hfound := @Nested.found p [] name [] [] _ _ _ hdollar hname .nil ih
      simpa only [List.append_nil, List.nil_append, hbody] using hfound
  | case8 _ _ _ _ _ _ _ _ _ _ ih => exact .skip ih
  | case9 _ _ _ _ _ _ _ ih => exact .skip ih

theorem scanFrom_found (escape : Char) (quoted : Bool) (chars : List Placed) :
    Found chars (scanFrom escape quoted chars) :=
  (scanFrom_nested escape quoted chars).flat

end Substitution

/-- Resolving quotes takes away no dollar sign. -/
theorem dollar_mem_unquoteFrom {escape : Char} (he : escape ≠ '$') {quote : Option Char}
    (hq : quote ≠ some '$') {text : Text} (h : '$' ∈ text) : '$' ∈ unquoteFrom escape quote text := by
  have hkeep {c : Char} {rest out : Text} (h : '$' ∈ c :: rest) (hrest : '$' ∈ rest → '$' ∈ out) :
      '$' ∈ c :: out := by
    rcases List.mem_cons.mp h with hc | h
    · exact List.mem_cons.mpr (.inl hc)
    · exact List.mem_cons_of_mem _ (hrest h)
  fun_induction unquoteFrom escape quote text with
  | case1 => exact h
  | case2 _ ih => exact ih (by simp) (List.mem_of_ne_of_mem (by decide) h)
  | case3 _ _ _ ih => exact hkeep h (ih hq)
  | case4 c _ _ ih => exact ih (by simp) (List.mem_of_ne_of_mem (fun hc => hq (congrArg some hc.symm)) h)
  | case5 => exact h
  | case6 _ _ _ _ _ ih => exact hkeep (List.mem_of_ne_of_mem he.symm h) (ih hq)
  | case7 _ c _ _ _ _ hopen ih =>
      have hc : '$' ≠ c := by rcases hopen.2 with rfl | rfl <;> decide
      exact ih (fun hsame => hc (Option.some.inj hsame).symm) (List.mem_of_ne_of_mem hc h)
  | case8 _ _ _ _ _ _ _ ih => exact hkeep h (ih hq)

/-! ## Mentions of an instruction -/

namespace Instruction

def declared (inst : Instruction) : List Property :=
  match inst.kind with
  | some .ARG => (inst.properties.take 1).filter fun p => !p.name.isEmpty
  | some .ENV => inst.properties.filter fun p => !p.name.isEmpty
  | _ => []

def effective (inst : Instruction) : Instruction :=
  inst.trigger?.getD inst

def uses (inst : Instruction) : List Substitution :=
  (VariableReference.substituted inst.effective).flatMap (Substitution.scan inst.effective.escape)

def mentions (inst : Instruction) : List (List Placed) :=
  (inst.declared.map fun p => p.name.chars) ++ inst.uses.map Substitution.name

/-- Of `ENV name value` one property is read, which is the first argument; otherwise each argument
is a property. -/
theorem properties_cases (inst : Instruction) :
    inst.properties = inst.arguments.map Property.ofArgument ∨
      (inst.isKind .ENV = true ∨ inst.isKind .LABEL = true) ∧
        ∃ first second rest, inst.arguments = first :: second :: rest ∧
          first.text.contains '=' = false ∧
          inst.properties = [⟨first.content,
            some (inst.region.slice second.start inst.region.byteLength).trim,
            first.span.cover (inst.region.slice second.start inst.region.byteLength).trim.span, true⟩] := by
  unfold properties
  split
  · rename_i first second rest harguments
    split
    · rename_i hlegacy
      simp only [Bool.and_eq_true, Bool.or_eq_true, Bool.not_eq_true'] at hlegacy
      exact .inr ⟨hlegacy.1, first, second, rest, harguments, hlegacy.2, rfl⟩
    · rw [harguments]
      exact .inl rfl
  · exact .inl rfl

theorem mem_properties_of_mem_declared {inst : Instruction} {p : Property} (h : p ∈ inst.declared) :
    p ∈ inst.properties ∧ p.name.chars ≠ [] ∧
      (inst.kind = some .ARG ∨ inst.kind = some .ENV) := by
  have hnamed {ps : List Property} (h : p ∈ ps.filter fun p => !p.name.isEmpty) :
      p ∈ ps ∧ p.name.chars ≠ [] := by
    obtain ⟨hin, hne⟩ := List.mem_filter.mp h
    exact ⟨hin, by simpa [Excerpt.isEmpty] using hne⟩
  unfold declared at h
  split at h
  · rename_i hkind
    exact ⟨List.mem_of_mem_take (hnamed h).1, (hnamed h).2, .inl hkind⟩
  · rename_i hkind
    exact ⟨(hnamed h).1, (hnamed h).2, .inr hkind⟩
  · cases h

theorem effective_of_kind {inst : Instruction} {k : Keyword} (h : inst.kind = some k)
    (hk : k ≠ .ONBUILD) : inst.effective = inst := by
  have hkind : inst.isKind .ONBUILD = false := by
    rw [isKind, h]
    exact beq_eq_false_iff_ne.mpr fun hsame => hk (Option.some.inj hsame)
  rw [effective, trigger?, hkind]
  rfl

theorem effective_of_declares {inst : Instruction}
    (h : inst.kind = some .ARG ∨ inst.kind = some .ENV) : inst.effective = inst := by
  rcases h with h | h
  · exact effective_of_kind h (by decide)
  · exact effective_of_kind h (by decide)

theorem effective_cases (inst : Instruction) :
    inst.effective = inst ∨ inst.trigger? = some inst.effective := by
  unfold effective
  cases inst.trigger? with
  | none => exact .inl rfl
  | some t => exact .inr rfl

theorem trigger?_region_suffix {inst trigger : Instruction} (h : inst.trigger? = some trigger) :
    trigger.keyword.chars ++ trigger.region.chars <:+ inst.region.chars := by
  unfold trigger? at h
  split at h
  · split at h
    · cases h
    · rename_i first rest hregion
      cases h
      show (first :: rest).takeWhile (fun p => !isBlank p.char) ++
        (first :: rest).dropWhile (fun p => !isBlank p.char) <:+ _
      rw [List.takeWhile_append_dropWhile, ← hregion]
      exact List.dropWhile_suffix _
  · cases h

theorem effective_escape (inst : Instruction) : inst.effective.escape = inst.escape := by
  unfold effective trigger?
  split
  · split <;> rfl
  · rfl

theorem effective_region_suffix (inst : Instruction) :
    inst.effective.region.chars <:+ inst.region.chars := by
  rcases inst.effective_cases with h | h
  · simp only [h, List.suffix_refl]
  · exact (List.suffix_append _ _).trans (trigger?_region_suffix h)

/-! ## Pieces of the region -/

theorem substitutedValue_eq (arg : Argument) :
    VariableReference.substitutedValue arg =
      (arg.content.chars.dropWhile fun p => p.char != '=').tail := by
  unfold VariableReference.substitutedValue Excerpt.cutAtEquals
  cases arg.content.chars.dropWhile fun p => p.char != '=' <;> rfl

theorem substitutedValue_suffix (arg : Argument) :
    VariableReference.substitutedValue arg <:+ arg.content.chars := by
  rw [substitutedValue_eq]
  exact (List.tail_suffix _).trans (List.dropWhile_suffix _)

theorem name_ofArgument (arg : Argument) :
    (Property.ofArgument arg).name.chars = arg.content.chars.takeWhile fun p => p.char != '=' := by
  unfold Property.ofArgument Excerpt.cutAtEquals
  cases arg.content.chars.dropWhile fun p => p.char != '=' <;> rfl

theorem prefix_name_ofArgument (arg : Argument) :
    (Property.ofArgument arg).name.chars <+: arg.content.chars := by
  rw [name_ofArgument]
  exact List.takeWhile_prefix _

/-- There is a value exactly where an equals sign was written, and it is what stands behind it. -/
theorem value_ofArgument (arg : Argument) :
    (Property.ofArgument arg).value.map Excerpt.chars =
      if (arg.content.chars.dropWhile fun p => p.char != '=').isEmpty then none
      else some (VariableReference.substitutedValue arg) := by
  rw [substitutedValue_eq]
  unfold Property.ofArgument Excerpt.cutAtEquals
  cases arg.content.chars.dropWhile fun p => p.char != '=' <;> rfl

theorem chars_of_value_ofArgument {arg : Argument} {v : Excerpt}
    (h : (Property.ofArgument arg).value = some v) :
    v.chars = VariableReference.substitutedValue arg := by
  have hvalue := value_ofArgument arg
  rw [h, Option.map_some] at hvalue
  split at hvalue
  · cases hvalue
  · exact Option.some.inj hvalue

theorem chars_slice_second {inst : Instruction} {first second : Argument} {rest : List Argument}
    (h : inst.arguments = first :: second :: rest) :
    (inst.region.slice second.start inst.region.byteLength).chars =
      Argument.behindFirst inst.escape inst.region.chars := by
  obtain ⟨before, hchars, hstart, -, -⟩ := Argument.exists_behindFirst h
  have hlength : inst.region.byteLength = total Placed.size before +
      total Placed.size (Argument.behindFirst inst.escape inst.region.chars) := by
    rw [← total_append, ← hchars]
    rfl
  rw [hstart, Nat.zero_add, hlength]
  exact @Excerpt.chars_slice inst.region before _ [] (by rw [List.append_nil]; exact hchars)

/-- An `ARG` or `ENV` declares by equals signs and substitutes behind them, or it declares its first
argument and substitutes in the others. -/
theorem declares_cases {inst : Instruction}
    (h : inst.kind = some .ARG ∨ inst.kind = some .ENV) :
    inst.properties = inst.arguments.map Property.ofArgument ∧
        VariableReference.substituted inst =
          inst.arguments.map VariableReference.substitutedValue ∨
      ∃ first second rest, inst.arguments = first :: second :: rest ∧
        inst.properties = [⟨first.content,
          some (inst.region.slice second.start inst.region.byteLength).trim,
          first.span.cover (inst.region.slice second.start inst.region.byteLength).trim.span, true⟩] ∧
        VariableReference.substituted inst =
          [] :: (second :: rest).map fun arg => arg.content.chars := by
  have hdeclares : VariableReference.declares inst = true := by
    unfold VariableReference.declares isKind
    rcases h with h | h <;> rw [h] <;> rfl
  rcases inst.properties_cases with hprops | ⟨hkind, first, second, rest, hargs, hequals, hprops⟩
  · have hblank : VariableReference.declaresBehindBlank inst = false := by
      unfold VariableReference.declaresBehindBlank
      rw [hprops, List.head?_map]
      cases inst.arguments with
      | nil => exact Bool.and_false _
      | cons arg args => exact Bool.and_false _
    refine .inl ⟨hprops, ?_⟩
    simp only [VariableReference.substituted, hblank, hdeclares, Bool.false_eq_true, if_false, if_true]
  · have hblank : VariableReference.declaresBehindBlank inst = true := by
      unfold VariableReference.declaresBehindBlank
      rw [hprops]
      simpa using hkind
    have hvalue : VariableReference.substitutedValue first = [] := by
      rw [substitutedValue_eq, List.dropWhile_eq_nil_iff.mpr]
      · rfl
      · intro p hp
        have hmem : '=' ∉ first.text := by simpa using hequals
        have hne : p.char ≠ '=' := by
          intro heq
          exact hmem (heq ▸ List.mem_map_of_mem hp)
        simpa using hne
    refine .inr ⟨first, second, rest, hargs, hprops, ?_⟩
    simp only [VariableReference.substituted, hblank, if_true, hargs, hvalue]

theorem substituted_pieces (inst : Instruction) :
    List.Forall₂ (fun piece (arg : Argument) => piece <:+ arg.content.chars)
      (VariableReference.substituted inst) inst.arguments := by
  have hwhole (args : List Argument) : List.Forall₂
      (fun piece (arg : Argument) => piece <:+ arg.content.chars)
      (args.map fun arg => arg.content.chars) args :=
    List.forall₂_map_left_iff.mpr (List.forall₂_same.mpr fun _ _ => List.suffix_refl _)
  unfold VariableReference.substituted
  split
  · cases inst.arguments with
    | nil => exact .nil
    | cons first rest => exact .cons (substitutedValue_suffix first) (hwhole rest)
  · split
    · exact List.forall₂_map_left_iff.mpr
        (List.forall₂_same.mpr fun arg _ => substitutedValue_suffix arg)
    · exact hwhole _

theorem exists_argument_of_piece {inst : Instruction} {piece : List Placed}
    (h : piece ∈ VariableReference.substituted inst) :
    ∃ arg ∈ inst.arguments, piece <:+ arg.content.chars := by
  have hpieces := inst.substituted_pieces
  generalize VariableReference.substituted inst = pieces at h hpieces
  generalize inst.arguments = args at hpieces ⊢
  induction hpieces with
  | nil => cases h
  | cons hpiece _ ih =>
      rcases List.mem_cons.mp h with rfl | h
      · exact ⟨_, List.mem_cons_self, hpiece⟩
      · obtain ⟨arg, harg, hsuffix⟩ := ih h
        exact ⟨arg, List.mem_cons_of_mem _ harg, hsuffix⟩

theorem exists_argument_of_declared {inst : Instruction} {p : Property} (h : p ∈ inst.declared) :
    ∃ arg ∈ inst.arguments, p.name.chars <+: arg.content.chars := by
  obtain ⟨hin, -, hkind⟩ := mem_properties_of_mem_declared h
  rcases declares_cases hkind with ⟨hprops, -⟩ | ⟨first, second, rest, hargs, hprops, -⟩
  · rw [hprops] at hin
    obtain ⟨arg, harg, rfl⟩ := List.mem_map.mp hin
    exact ⟨arg, harg, prefix_name_ofArgument arg⟩
  · rw [hprops] at hin
    obtain rfl := List.mem_singleton.mp hin
    exact ⟨first, by rw [hargs]; exact List.mem_cons_self, List.prefix_refl _⟩

theorem mem_region_of_mem_value {inst : Instruction} {p : Property} (hp : p ∈ inst.declared)
    {v : Excerpt} (hv : p.value = some v) {q : Placed} (hq : q ∈ v.chars) : q ∈ inst.region.chars := by
  obtain ⟨hin, -, hkind⟩ := mem_properties_of_mem_declared hp
  rcases declares_cases hkind with ⟨hprops, -⟩ | ⟨first, second, rest, hargs, hprops, -⟩
  · rw [hprops] at hin
    obtain ⟨arg, harg, rfl⟩ := List.mem_map.mp hin
    rw [chars_of_value_ofArgument hv] at hq
    exact (Argument.infix_of_mem_splitFrom harg).mem ((substitutedValue_suffix arg).mem hq)
  · rw [hprops] at hin
    obtain rfl := List.mem_singleton.mp hin
    obtain rfl := Option.some.inj hv
    obtain ⟨before, hchars, -, -, -⟩ := Argument.exists_behindFirst hargs
    rw [hchars, ← chars_slice_second hargs]
    exact List.mem_append_right _ (Excerpt.mem_of_mem_trim hq)

theorem infix_of_mem_uses {inst : Instruction} {s : Substitution} (h : s ∈ inst.uses) :
    s.name ≠ [] ∧ s.name <:+: inst.effective.region.chars := by
  obtain ⟨piece, hpiece, hs⟩ := List.mem_flatMap.mp h
  obtain ⟨arg, harg, hsuffix⟩ := exists_argument_of_piece hpiece
  have hfound := Substitution.scanFrom_found inst.effective.escape false piece
  constructor
  · intro hnil
    have hname := hfound.isName_of_mem hs
    rw [hnil] at hname
    cases hname
  · exact ((hfound.infix_of_mem hs).trans hsuffix.isInfix).trans
      (Argument.infix_of_mem_splitFrom harg)

theorem infix_of_mem_mentions {inst : Instruction} {name : List Placed} (h : name ∈ inst.mentions) :
    name ≠ [] ∧ name <:+: inst.region.chars := by
  rcases List.mem_append.mp h with h | h
  · obtain ⟨p, hp, rfl⟩ := List.mem_map.mp h
    obtain ⟨arg, harg, hprefix⟩ := exists_argument_of_declared hp
    exact ⟨(mem_properties_of_mem_declared hp).2.1,
      hprefix.isInfix.trans (Argument.infix_of_mem_splitFrom harg)⟩
  · obtain ⟨s, hs, rfl⟩ := List.mem_map.mp h
    obtain ⟨hne, hin⟩ := infix_of_mem_uses hs
    exact ⟨hne, hin.trans inst.effective_region_suffix.isInfix⟩

/-- What an `ONBUILD` mentions is mentioned by the instruction it defers. -/
theorem mentions_of_trigger {inst t : Instruction} (ht : inst.trigger? = some t)
    {name : List Placed} (h : name ∈ inst.mentions) : name <:+: t.region.chars := by
  have heffective : inst.effective = t := by rw [effective, ht, Option.getD_some]
  rcases List.mem_append.mp h with h | h
  · -- An `ONBUILD` declares nothing itself.
    obtain ⟨p, hp, -⟩ := List.mem_map.mp h
    have hsame := effective_of_declares (mem_properties_of_mem_declared hp).2.2
    have hlength := trigger?_length ht
    rw [← heffective, hsame] at hlength
    exact absurd hlength (Nat.lt_irrefl _)
  · obtain ⟨s, hs, rfl⟩ := List.mem_map.mp h
    rw [← heffective]
    exact (infix_of_mem_uses hs).2

/-! ## Overlaps -/

theorem flatten_arguments_sublist (inst : Instruction) :
    (inst.arguments.map fun arg => arg.content.chars).flatten.Sublist inst.region.chars :=
  Argument.flatten_splitFrom_sublist inst.escape inst.region 0 inst.region.chars

theorem flatten_substituted_sublist (inst : Instruction) :
    (VariableReference.substituted inst).flatten.Sublist inst.region.chars := by
  refine List.Sublist.trans ?_ inst.flatten_arguments_sublist
  have hpieces := inst.substituted_pieces
  generalize VariableReference.substituted inst = pieces at hpieces
  generalize inst.arguments = args at hpieces
  induction hpieces with
  | nil => exact List.Sublist.refl _
  | cons hpiece _ ih => exact hpiece.sublist.append ih

theorem flatten_uses_sublist (inst : Instruction) :
    (inst.uses.map Substitution.name).flatten.Sublist inst.region.chars := by
  refine List.Sublist.trans ?_
    (inst.effective.flatten_substituted_sublist.trans inst.effective_region_suffix.sublist)
  unfold uses
  induction VariableReference.substituted inst.effective with
  | nil => exact List.Sublist.refl _
  | cons piece pieces ih =>
      rw [List.flatMap_cons, List.map_append, List.flatten_append, List.flatten_cons]
      exact (Substitution.scanFrom_found _ false piece).flatten_sublist.append ih

theorem declared_sublist (inst : Instruction) : inst.declared.Sublist inst.properties := by
  unfold declared
  split
  · exact List.filter_sublist.trans (List.take_sublist _ _)
  · exact List.filter_sublist
  · exact List.nil_sublist _

theorem arguments_disjoint {inst : Instruction} (hn : inst.region.chars.Nodup) :
    inst.arguments.Pairwise fun a b => List.Disjoint a.content.chars b.content.chars :=
  List.pairwise_map.mp (List.nodup_flatten.mp (hn.sublist inst.flatten_arguments_sublist)).2

theorem name_disjoint_value {args : List Argument}
    (hn : (args.map fun arg => arg.content.chars).flatten.Nodup) {a b : Argument} (ha : a ∈ args)
    (hb : b ∈ args) :
    List.Disjoint (Property.ofArgument a).name.chars (VariableReference.substitutedValue b) := by
  intro q hqa hqb
  have hsame := eq_of_mem_flatten hn (List.mem_map_of_mem ha) (List.mem_map_of_mem hb)
    ((prefix_name_ofArgument a).mem hqa) ((substitutedValue_suffix b).mem hqb)
  -- Both are parts of one argument, on either side of its equals sign.
  rw [name_ofArgument, hsame] at hqa
  rw [substitutedValue_eq] at hqb
  have hsplit := (List.nodup_flatten.mp hn).1 _ (List.mem_map_of_mem hb)
  rw [← @List.takeWhile_append_dropWhile _ (fun p : Placed => p.char != '=') b.content.chars]
    at hsplit
  exact (List.nodup_append.mp hsplit).2.2 q hqa q (List.mem_of_mem_tail hqb) rfl

section Separated

variable {R : List Placed → List Placed → Prop} (hR : Separation R) {inst : Instruction}
  (hargs : inst.arguments.Pairwise fun a b => R a.content.chars b.content.chars)

include hR hargs

theorem declared_separated : (inst.declared.map fun p => p.name.chars).Pairwise R := by
  refine List.Pairwise.sublist (inst.declared_sublist.map _) ?_
  rcases inst.properties_cases with hprops | ⟨-, first, second, rest, -, -, hprops⟩
  · rw [hprops, List.map_map, List.pairwise_map]
    exact hargs.imp fun h =>
      hR.mono h (prefix_name_ofArgument _).subset (prefix_name_ofArgument _).subset
  · rw [hprops]
    exact List.pairwise_singleton _ _

theorem declared_separated_uses (hself : ∀ arg ∈ inst.arguments,
      R (Property.ofArgument arg).name.chars (VariableReference.substitutedValue arg))
    {p : Property} (hp : p ∈ inst.declared) {s : Substitution} (hs : s ∈ inst.uses) :
    R p.name.chars s.name := by
  obtain ⟨hin, -, hkind⟩ := mem_properties_of_mem_declared hp
  obtain ⟨piece, hpiece, hs⟩ := List.mem_flatMap.mp hs
  rw [effective_of_declares hkind] at hpiece hs
  have hname := ((Substitution.scanFrom_found _ false piece).infix_of_mem hs).subset
  rcases declares_cases hkind with ⟨hprops, hsub⟩ | ⟨first, second, rest, hfirst, hprops, hsub⟩
  · rw [hprops] at hin
    rw [hsub] at hpiece
    obtain ⟨a, ha, rfl⟩ := List.mem_map.mp hin
    obtain ⟨b, hb, rfl⟩ := List.mem_map.mp hpiece
    by_cases hab : a = b
    · subst hab
      exact hR.mono (hself a ha) (List.Subset.refl _) hname
    · exact hR.mono (hR.of_ne hargs ha hb hab) (prefix_name_ofArgument a).subset
        (List.Subset.trans hname (substitutedValue_suffix b).subset)
  · rw [hprops] at hin
    obtain rfl := List.mem_singleton.mp hin
    rw [hfirst] at hargs
    rw [hsub] at hpiece
    rcases List.mem_cons.mp hpiece with rfl | hpiece
    · simp [Substitution.scan, Substitution.scanFrom] at hs
    · obtain ⟨arg, harg, rfl⟩ := List.mem_map.mp hpiece
      exact hR.mono ((List.pairwise_cons.mp hargs).1 arg harg) (List.Subset.refl _) hname

theorem mentions_separated (hself : ∀ arg ∈ inst.arguments,
      R (Property.ofArgument arg).name.chars (VariableReference.substitutedValue arg))
    (huses : (inst.uses.map Substitution.name).Pairwise R) : inst.mentions.Pairwise R := by
  refine List.pairwise_append.mpr ⟨declared_separated hR hargs, huses, ?_⟩
  intro a ha b hb
  obtain ⟨p, hp, rfl⟩ := List.mem_map.mp ha
  obtain ⟨s, hs, rfl⟩ := List.mem_map.mp hb
  exact declared_separated_uses hR hargs hself hp hs

end Separated

theorem dollar_of_mem_value {inst : Instruction} (hn : inst.region.chars.Nodup) {p : Property}
    (hp : p ∈ inst.declared) {v : Excerpt} (hv : p.value = some v) {name : List Placed}
    (hname : name ∈ inst.mentions) {q : Placed} (hqv : q ∈ v.chars) (hqn : q ∈ name) :
    '$' ∈ v.text := by
  obtain ⟨hin, -, hkind⟩ := mem_properties_of_mem_declared hp
  have hflatten := hn.sublist inst.flatten_arguments_sublist
  rcases declares_cases hkind with ⟨hprops, hsub⟩ | ⟨first, second, rest, hargs, hprops, hsub⟩
  · rw [hprops] at hin
    obtain ⟨a, ha, rfl⟩ := List.mem_map.mp hin
    have hchars := chars_of_value_ofArgument hv
    rw [hchars] at hqv
    rcases List.mem_append.mp hname with hname | hname
    · obtain ⟨p', hp', rfl⟩ := List.mem_map.mp hname
      have hin' := (mem_properties_of_mem_declared hp').1
      rw [hprops] at hin'
      obtain ⟨b, hb, rfl⟩ := List.mem_map.mp hin'
      exact absurd hqv (name_disjoint_value hflatten hb ha hqn)
    · obtain ⟨s, hs, rfl⟩ := List.mem_map.mp hname
      obtain ⟨piece, hpiece, hs⟩ := List.mem_flatMap.mp hs
      rw [effective_of_declares hkind] at hpiece hs
      have hfound := Substitution.scanFrom_found inst.escape false piece
      have hqp := (hfound.infix_of_mem hs).mem hqn
      rw [hsub] at hpiece
      obtain ⟨b, hb, rfl⟩ := List.mem_map.mp hpiece
      have hsame := eq_of_mem_flatten hflatten (List.mem_map_of_mem ha) (List.mem_map_of_mem hb)
        ((substitutedValue_suffix a).mem hqv) ((substitutedValue_suffix b).mem hqp)
      have hdollar := hfound.dollar_of_mem hs
      rw [substitutedValue_eq, ← hsame, ← substitutedValue_eq, ← hchars] at hdollar
      exact hdollar
  · rw [hprops] at hin
    obtain rfl := List.mem_singleton.mp hin
    obtain rfl := Option.some.inj hv
    obtain ⟨before, hchars, -, hfirst, hothers⟩ := Argument.exists_behindFirst hargs
    have hslice := chars_slice_second hargs
    have hqb : q ∈ Argument.behindFirst inst.escape inst.region.chars := by
      rw [← hslice]
      exact Excerpt.mem_of_mem_trim hqv
    rcases List.mem_append.mp hname with hname | hname
    · obtain ⟨p', hp', rfl⟩ := List.mem_map.mp hname
      have hin' := (mem_properties_of_mem_declared hp').1
      rw [hprops] at hin'
      obtain rfl := List.mem_singleton.mp hin'
      rw [hchars] at hn
      exact absurd rfl ((List.nodup_append.mp hn).2.2 q (hfirst.mem hqn) q hqb)
    · obtain ⟨s, hs, rfl⟩ := List.mem_map.mp hname
      obtain ⟨piece, hpiece, hs⟩ := List.mem_flatMap.mp hs
      rw [effective_of_declares hkind] at hpiece hs
      have hdollar := (Substitution.scanFrom_found inst.escape false piece).dollar_of_mem hs
      rw [hsub] at hpiece
      rcases List.mem_cons.mp hpiece with rfl | hpiece
      · cases hdollar
      · obtain ⟨arg, harg, rfl⟩ := List.mem_map.mp hpiece
        obtain ⟨d, hd, hchar⟩ := List.mem_map.mp hdollar
        refine List.mem_map.mpr ⟨d, Excerpt.mem_trim ?_ (by rw [hchar]; rfl), hchar⟩
        rw [hslice]
        exact (hothers arg harg).mem hd

theorem mentions_disjoint {inst : Instruction} (hn : inst.region.chars.Nodup) :
    inst.mentions.Pairwise List.Disjoint := by
  have hflatten := hn.sublist inst.flatten_arguments_sublist
  refine mentions_separated separation_disjoint (arguments_disjoint hn) ?_ ?_
  · exact fun arg harg => name_disjoint_value hflatten harg harg
  · exact (List.nodup_flatten.mp (hn.sublist inst.flatten_uses_sublist)).2

end Instruction

end Dockerfile
