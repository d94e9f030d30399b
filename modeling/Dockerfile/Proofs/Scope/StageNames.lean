import Dockerfile.Proofs.Scope.StageMentions

/-!
# Instructions with renamed stages

The name of a stage may hold any characters, but it is a whole argument or all that stands behind
`--from=`. Written otherwise it is again such a part of an argument, and the instruction mentions the
stages that it mentioned (`StageNames.stageName`, `StageNames.sources`).
-/

namespace Dockerfile

theorem forall₂_takeWhile {α β : Type} {R : α → β → Prop} {f : α → Bool} {g : β → Bool}
    {xs : List α} {ys : List β} (h : List.Forall₂ R xs ys)
    (hfg : ∀ x ∈ xs, ∀ y, R x y → g y = f x) :
    List.Forall₂ R (xs.takeWhile f) (ys.takeWhile g) := by
  induction h with
  | nil => exact .nil
  | @cons x y xs ys hxy _ ih =>
      rw [List.takeWhile_cons, List.takeWhile_cons, hfg x List.mem_cons_self y hxy]
      split
      · exact .cons hxy (ih fun x' hx' => hfg x' (List.mem_cons_of_mem _ hx'))
      · exact .nil

theorem forall₂_dropWhile {α β : Type} {R : α → β → Prop} {f : α → Bool} {g : β → Bool}
    {xs : List α} {ys : List β} (h : List.Forall₂ R xs ys)
    (htake : ∀ x ∈ xs.takeWhile f, ∀ y, R x y → g y = true)
    (hdrop : ∀ x ∈ (xs.dropWhile f).head?, ∀ y, R x y → g y = false) :
    List.Forall₂ R (xs.dropWhile f) (ys.dropWhile g) := by
  induction h with
  | nil => exact .nil
  | @cons x y xs ys hxy hrest ih =>
      by_cases hx : f x = true
      · rw [List.takeWhile_cons_of_pos hx] at htake
        rw [List.dropWhile_cons_of_pos hx] at hdrop ⊢
        rw [List.dropWhile_cons_of_pos (htake x List.mem_cons_self y hxy)]
        exact ih (fun x' hx' => htake x' (List.mem_cons_of_mem _ hx')) hdrop
      · rw [List.dropWhile_cons_of_neg hx] at hdrop ⊢
        have hy := hdrop x rfl y hxy
        rw [List.dropWhile_cons_of_neg (by simp [hy])]
        exact .cons hxy hrest

/-! ## Arguments -/

/-- Where no name begins among the first characters, what follows them is respelled. -/
theorem Respelled.take_drop {spells : List Placed → List Placed → List Placed → Prop}
    {names : List (List Placed)} {new : Text} {chars out : List Placed} {n : Nat}
    (h : Respelled spells names new chars out) (hn : ∀ p ∈ chars.take n, ¬ Begins names p) :
    Placed.text (out.take n) = Placed.text (chars.take n) ∧
      Respelled spells names new (chars.drop n) (out.drop n) := by
  induction n generalizing chars out with
  | zero => exact ⟨rfl, h⟩
  | succ n ih =>
      cases chars with
      | nil =>
          rw [h.eq_nil]
          exact ⟨rfl, .nil⟩
      | cons p chars =>
          rw [List.take_succ_cons] at hn
          obtain ⟨p', out', rfl, hp', hnext⟩ := h.uncons (hn p List.mem_cons_self)
          obtain ⟨htake, hdrop⟩ := ih hnext fun q hq => hn q (List.mem_cons_of_mem _ hq)
          refine ⟨?_, hdrop⟩
          rw [List.take_succ_cons, List.take_succ_cons, Placed.text_cons, Placed.text_cons, hp', htake]

theorem Respelled.eq_nil_iff {spells : List Placed → List Placed → List Placed → Prop} {escape : Char}
    {names : List (List Placed)} {new : Text} {chars out : List Placed}
    (hs : Spellable escape names new) (h : Respelled spells names new chars out) :
    out = [] ↔ chars = [] := by
  cases h with
  | nil => exact Iff.rfl
  | keep => simp
  | @name _ _ _ _ fresh _ _ _ written =>
      constructor
      · intro hnil
        obtain ⟨rfl, -⟩ := List.append_eq_nil_iff.mp hnil
        exact absurd written.symm hs.nonempty
      · intro hnil
        cases hnil

namespace Argument

variable {escape : Char} {names : List (List Placed)} {new : Text} {chars out : List Placed}

theorem Word.read_of_blank {rest : List Placed}
    (h : rest = [] ∨ ∃ p tail, rest = p :: tail ∧ isBlank p.char = true) :
    Word.read escape none rest = ⟨[], rest, none⟩ := by
  rcases h with rfl | ⟨p, tail, rfl, hblank⟩
  · rfl
  · rw [Word.read.eq_def]
    simp only [hblank, if_true]

theorem splitFrom_of_word {whole : Excerpt} {word rest : List Placed} (hne : word ≠ [])
    (hchars : (Word.read escape none (word ++ rest)).chars = word)
    (hrest : (Word.read escape none (word ++ rest)).rest = rest) (index : Nat) :
    ∃ arg next, splitFrom escape whole index (word ++ rest) = arg :: splitFrom escape whole next rest ∧
      arg.content.chars = word := by
  obtain ⟨p, word, rfl⟩ := List.exists_cons_of_ne_nil hne
  rw [List.cons_append] at hchars hrest ⊢
  have hblank : isBlank p.char = false := by
    by_contra hblank
    rw [Word.read_of_blank (.inr ⟨p, word ++ rest, rfl, by simpa using hblank⟩)] at hchars
    cases hchars
  rw [splitFrom, if_neg (by simp [hblank])]
  simp only [hrest]
  exact ⟨_, _, rfl, hchars⟩

/-- These characters end with a name, if there is one among them. What stands in front of it is
plain. -/
def IsBorne (escape : Char) (names : List (List Placed)) (chars : List Placed) : Prop :=
  (∀ p ∈ chars, ¬ Begins names p) ∨
    ∃ a, ∃ v ∈ names, chars = a ++ v ∧ v ≠ [] ∧
      ∀ p ∈ a, Word.isPlain escape p.char = true ∧ ¬ Begins names p

section Borne

variable (hs : Spellable escape names new) (hnew : ∀ c ∈ new, Word.isPlain escape c = true)
  (hunique : ∀ a ∈ names, ∀ b ∈ names, a.head? = b.head? → a = b)

include hs hnew hunique

/-- A word that ends with a name is a word that ends with the new name. -/
theorem Word.read_borne (h : Dockerfile.Respelled InOnePiece names new chars out)
    (hne : (Word.read escape none chars).chars ≠ [])
    (hborne : IsBorne escape names (Word.read escape none chars).chars) :
    ∃ word rest, out = word ++ rest ∧ word ≠ [] ∧
      Dockerfile.Respelled InOnePiece names new (Word.read escape none chars).chars word ∧
      Dockerfile.Respelled InOnePiece names new (Word.read escape none chars).rest rest ∧
      (Word.read escape none out).chars = word ∧ (Word.read escape none out).rest = rest := by
  have happend := Word.read_append escape none chars
  have hrest := Word.read_rest escape none chars
  -- What ends the word still does.
  have hend {rest : List Placed}
      (hnext : Dockerfile.Respelled InOnePiece names new (Word.read escape none chars).rest rest) :
      (rest = [] ∨ ∃ p tail, rest = p :: tail ∧ isBlank p.char = true) ∧
        ((Word.read escape none chars).rest = [] → rest = []) := by
    rcases hrest with hnil | ⟨p, tail, hcons, hblank⟩
    · rw [hnil] at hnext
      exact ⟨.inl hnext.eq_nil, fun _ => hnext.eq_nil⟩
    · rw [hcons] at hnext ⊢
      obtain ⟨p', tail', rfl, hp', -⟩ := hnext.uncons (hs.not_begins (endsWord_of_isBlank hblank))
      exact ⟨.inr ⟨p', tail', rfl, by rw [hp']; exact hblank⟩, fun hnil => by cases hnil⟩
  rcases hborne with hkept | ⟨a, v, hv, hsplit, hvne, ha⟩
  · rw [← happend] at h
    obtain ⟨word, rest, rfl, htext, hnext⟩ := h.exists_split hkept
    obtain ⟨hblank, hnil⟩ := hend hnext
    obtain ⟨hchars', hrest'⟩ := @Word.read_congr escape none none chars word rest rfl htext hblank hnil
    refine ⟨word, rest, rfl, ?_, .of_kept htext hkept, hnext, hchars', hrest'⟩
    rintro rfl
    exact hne (List.map_eq_nil_iff.mp htext.symm)
  · rw [← happend, hsplit, List.append_assoc] at h
    obtain ⟨a', out', rfl, htext, hnext⟩ := h.exists_split fun p hp => (ha p hp).2
    obtain ⟨q, v, rfl⟩ := List.exists_cons_of_ne_nil hvne
    cases hnext with
    | keep kept => exact absurd ⟨_, hv, rfl⟩ kept
    | @name _ _ name rest fresh rest' mem spelled written next =>
        have hsame := hunique _ mem _ hv rfl
        have hrest' : (Word.read escape none chars).rest = rest := by
          have hboth : (q :: v) ++ (Word.read escape none chars).rest = (q :: name) ++ rest := spelled
          rw [hsame] at hboth
          exact List.append_cancel_left hboth
        rw [← hrest'] at next
        obtain ⟨hblank, -⟩ := hend next
        have hplain : ∀ p ∈ a' ++ fresh, Word.isPlain escape p.char = true := by
          intro p hp
          rcases List.mem_append.mp hp with hp | hp
          · have hin : p.char ∈ Placed.text a := by
              rw [← htext]
              exact List.mem_map_of_mem hp
            obtain ⟨q, hq, hqp⟩ := List.mem_map.mp hin
            rw [← hqp]
            exact (ha q hq).1
          · refine hnew p.char ?_
            rw [← written]
            exact List.mem_map_of_mem hp
        have hread : Word.read escape none ((a' ++ fresh) ++ rest') = ⟨a' ++ fresh, rest', none⟩ := by
          rw [Word.read_of_plain hplain, Word.read_of_blank hblank, Word.prepend, List.append_nil]
        refine ⟨a' ++ fresh, rest', (List.append_assoc _ _ _).symm, ?_, ?_, next, ?_, ?_⟩
        · intro hnil
          obtain ⟨-, rfl⟩ := List.append_eq_nil_iff.mp hnil
          exact hs.nonempty written.symm
        · rw [hsplit]
          have hname : Dockerfile.Respelled InOnePiece names new (q :: v) (fresh ++ []) :=
            .name hv (List.append_nil _).symm written .nil
          rw [List.append_nil] at hname
          exact hname.keep_append htext fun p hp => (ha p hp).2
        · rw [← List.append_assoc, hread]
        · rw [← List.append_assoc, hread]

/-- A name that is all the end of an argument may be written otherwise. -/
theorem splitFrom_borne (h : Dockerfile.Respelled InOnePiece names new chars out)
    (whole whole' : Excerpt) (index index' : Nat)
    (hborne : ∀ arg ∈ splitFrom escape whole index chars, IsBorne escape names arg.content.chars) :
    List.Forall₂ (Respelled names new) (splitFrom escape whole index chars)
      (splitFrom escape whole' index' out) := by
  fun_induction splitFrom escape whole index chars generalizing out index' with
  | case1 =>
      rw [h.eq_nil, splitFrom]
      exact .nil
  | case2 index p rest hblank ih =>
      obtain ⟨p', out', rfl, hp', hnext⟩ := h.uncons (hs.not_begins (endsWord_of_isBlank hblank))
      rw [splitFrom, if_pos (by rw [hp']; exact hblank)]
      exact ih hnext _ hborne
  | case3 index p rest hblank word =>
      rename_i stop ih
      obtain ⟨tail, hword, -⟩ := Word.exists_read_eq escape rest (by simpa using hblank)
      have hne : (Word.read escape none (p :: rest)).chars ≠ [] := by
        rw [hword]
        exact List.cons_ne_nil _ _
      obtain ⟨word', rest', rfl, hne', hchars, hrest, hread, hread'⟩ :=
        Word.read_borne hs hnew hunique h hne (hborne _ List.mem_cons_self)
      obtain ⟨arg, next, hsplit, harg⟩ := @splitFrom_of_word _ whole' _ _ hne' hread hread' index'
      rw [hsplit]
      refine .cons ?_ (ih hrest _ fun arg harg => hborne arg (List.mem_cons_of_mem _ harg))
      rw [Respelled, harg]
      exact hchars

end Borne

/-! ### Sources -/

theorem exists_source?_of_mark {arg : Argument} {a v : List Placed}
    (hchars : arg.content.chars = a ++ v) (hmark : Placed.text a = "--from=".toList) (hv : v ≠ []) :
    ∃ e, arg.source? = some e ∧ e.chars = v := by
  have hmark : a.map Placed.char = ['-', '-', 'f', 'r', 'o', 'm', '='] := hmark
  simp only [List.map_eq_cons_iff, List.map_eq_nil_iff] at hmark
  obtain ⟨d, _, rfl, hd, d', _, rfl, hd', f, _, rfl, hf, r, _, rfl, hr, o, _, rfl, ho, m, _, rfl, hm,
    e, _, rfl, he, rfl⟩ := hmark
  have hflag : Flag.isFlag arg = true := by
    rw [Flag.isFlag, Argument.text, Excerpt.text, hchars]
    simp [Placed.text, hd, hd']
  rw [Argument.source?, Flag.ofArgument?, if_pos hflag]
  simp [Excerpt.cutAtEquals, Excerpt.part, hchars, Flag.source?, Placed.text, Excerpt.text, hf, hr, ho,
    hm, he, Option.filter, Excerpt.isEmpty, hv]

theorem source?_map (arg : Argument) :
    arg.source?.map Excerpt.chars =
      if Placed.text (arg.content.chars.take 7) = "--from=".toList ∧ arg.content.chars.drop 7 ≠ [] then
        some (arg.content.chars.drop 7)
      else none := by
  split
  · rename_i hsource
    obtain ⟨e, he, hchars⟩ := exists_source?_of_mark (List.take_append_drop 7 _).symm hsource.1 hsource.2
    rw [he, Option.map_some, hchars]
  · rename_i hnone
    cases hsource : arg.source? with
    | none => rfl
    | some e =>
        obtain ⟨hne, a, hchars, hmark⟩ := exists_of_source? hsource
        have hlength : a.length = 7 := by
          have := congrArg List.length hmark
          simpa [Placed.text] using this
        refine absurd ⟨?_, ?_⟩ hnone
        · rw [hchars, List.take_left' hlength]
          exact hmark
        · rw [hchars, List.drop_left' hlength]
          exact hne

theorem isFlag_eq (arg : Argument) :
    Flag.isFlag arg = ['-', '-'].isPrefixOf (Placed.text (arg.content.chars.take 7)) := by
  show ['-', '-'].isPrefixOf (Placed.text arg.content.chars) = _
  match arg.content.chars with
  | [] => rfl
  | [_] => rfl
  | _ :: _ :: _ => simp [Placed.text, List.isPrefixOf]

section Unmarked

variable {arg arg' : Argument} (h : Argument.Respelled names new arg arg')
  (hmark : ∀ p ∈ arg.content.chars.take 7, ¬ Begins names p)

include h hmark

theorem isFlag_respelled : Flag.isFlag arg' = Flag.isFlag arg := by
  rw [isFlag_eq, isFlag_eq, (Dockerfile.Respelled.take_drop h hmark).1]

theorem source?_respelled (hs : Spellable escape names new) :
    Option.Rel (fun e e' => Dockerfile.Respelled InOnePiece names new e.chars e'.chars) arg.source?
      arg'.source? := by
  obtain ⟨htake, hdrop⟩ := Dockerfile.Respelled.take_drop h hmark
  have hsource := source?_map arg
  have hsource' := source?_map arg'
  rw [htake] at hsource'
  by_cases hsome : Placed.text (arg.content.chars.take 7) = "--from=".toList ∧
    arg.content.chars.drop 7 ≠ []
  · have hsome' : Placed.text (arg.content.chars.take 7) = "--from=".toList ∧
        arg'.content.chars.drop 7 ≠ [] :=
      ⟨hsome.1, fun hnil => hsome.2 ((hdrop.eq_nil_iff hs).mp hnil)⟩
    rw [if_pos hsome] at hsource
    rw [if_pos hsome'] at hsource'
    obtain ⟨e, he, hchars⟩ := Option.map_eq_some_iff.mp hsource
    obtain ⟨e', he', hchars'⟩ := Option.map_eq_some_iff.mp hsource'
    rw [he, he']
    refine .some ?_
    rw [hchars, hchars']
    exact hdrop
  · rw [if_neg hsome] at hsource
    rw [if_neg fun hsome' => hsome ⟨hsome'.1, fun hnil => hsome'.2 ((hdrop.eq_nil_iff hs).mpr hnil)⟩]
      at hsource'
    rw [Option.map_eq_none_iff.mp hsource, Option.map_eq_none_iff.mp hsource']
    exact .none

end Unmarked

end Argument

/-! ## Instructions -/

/-- The names are those of stages that the instruction mentions, and the new one can be written for
them. -/
structure StageNames (names : List (List Placed)) (new : Text) (inst : Instruction) : Prop where
  spellable : Spellable inst.escape names new
  plain : ∀ c ∈ new ++ "--from=".toList, Argument.Word.isPlain inst.escape c = true
  undashed : ∀ c ∈ new.head?, c ≠ '-'
  unique : ∀ a ∈ names, ∀ b ∈ names, a.head? = b.head? → a = b
  nodup : inst.region.chars.Nodup
  mentioned : ∀ q ∈ inst.region.chars, Begins names q → ∃ v ∈ names, v ∈ inst.stageMentions ∧ q ∈ v

namespace StageNames

variable {names : List (List Placed)} {new : Text} {inst inst' : Instruction}

theorem flatten_nodup (h : StageNames names new inst) :
    (inst.arguments.map fun arg => arg.content.chars).flatten.Nodup :=
  h.nodup.sublist inst.flatten_arguments_sublist

/-- A name in an argument is the end of it, behind the mark. -/
theorem exists_of_begins (h : StageNames names new inst) {arg : Argument} (harg : arg ∈ inst.arguments)
    {q : Placed} (hq : q ∈ arg.content.chars) (hbegins : Begins names q) :
    ∃ v ∈ names, v ∈ inst.stageMentions ∧ q ∈ v ∧ inst.Bears arg v := by
  obtain ⟨v, hv, hmention, hqv⟩ :=
    h.mentioned q ((Argument.infix_of_mem_splitFrom harg).mem hq) hbegins
  obtain ⟨other, hother, hne, a, hchars, hmark⟩ := Instruction.exists_bearer hmention
  have hqo : q ∈ other.content.chars := by
    rw [hchars]
    exact List.mem_append_right _ hqv
  have hsame := eq_of_mem_flatten h.flatten_nodup (List.mem_map_of_mem harg)
    (List.mem_map_of_mem hother) hq hqo
  exact ⟨v, hv, hmention, hqv, hne, a, hsame.trans hchars, hmark⟩

theorem not_begins_mark (h : StageNames names new inst) {arg : Argument}
    (harg : arg ∈ inst.arguments) :
    ∀ p ∈ arg.content.chars.take inst.sourceMark.length, ¬ Begins names p := by
  intro p hp hbegins
  obtain ⟨v, -, -, hpv, -, a, hchars, hmark⟩ :=
    h.exists_of_begins harg (List.mem_of_mem_take hp) hbegins
  have hlength : a.length = inst.sourceMark.length := by
    rw [← hmark, Placed.text, List.length_map]
  have hnodup := (List.nodup_flatten.mp h.flatten_nodup).1 _ (List.mem_map_of_mem harg)
  rw [hchars] at hnodup hp
  rw [List.take_left' hlength] at hp
  exact (List.nodup_append.mp hnodup).2.2 p hp p hpv rfl

theorem arguments (h : StageNames names new inst) (hinst : Instruction.Respelled names new inst inst') :
    List.Forall₂ (Argument.Respelled names new) inst.arguments inst'.arguments := by
  unfold Instruction.arguments Argument.split
  rw [hinst.escape]
  refine Argument.splitFrom_borne h.spellable (fun c hc => h.plain c (List.mem_append_left _ hc))
    h.unique hinst.region _ _ _ _ fun arg harg => ?_
  by_cases hkept : ∀ p ∈ arg.content.chars, ¬ Begins names p
  · exact .inl hkept
  · simp only [not_forall, not_not] at hkept
    obtain ⟨q, hq, hbegins⟩ := hkept
    obtain ⟨v, hv, -, -, hne, a, hchars, hmark⟩ := h.exists_of_begins harg hq hbegins
    have hunmarked := h.not_begins_mark harg
    have hlength : a.length = inst.sourceMark.length := by
      rw [← hmark, Placed.text, List.length_map]
    rw [hchars, List.take_left' hlength] at hunmarked
    refine .inr ⟨a, v, hv, hchars, hne, fun p hp => ⟨?_, hunmarked p hp⟩⟩
    have hin : p.char ∈ inst.sourceMark := by
      rw [← hmark]
      exact List.mem_map_of_mem hp
    unfold Instruction.sourceMark at hin
    split at hin
    · cases hin
    · exact h.plain p.char (List.mem_append_right _ hin)

/-- What a `FROM` mentions is in its arguments behind the flags, and not in the second of them. -/
theorem exists_positional {inst : Instruction} (hfrom : inst.isKind .FROM = true) {v : List Placed}
    (hv : v ∈ inst.stageMentions) : ∃ arg ∈ inst.positional.eraseIdx 1, arg.content.chars = v := by
  obtain ⟨e, he, rfl⟩ := List.mem_map.mp hv
  rw [Instruction.stageName?, Instruction.sources, if_pos hfrom, if_pos hfrom] at he
  rcases List.mem_append.mp he with he | he
  · rw [Option.mem_toList, Stage.declaredName?] at he
    split at he
    · rename_i image as name rest hpositional
      split at he
      · obtain rfl := Option.some.inj he
        rw [hpositional]
        exact ⟨name, List.mem_cons_of_mem _ List.mem_cons_self, rfl⟩
      · cases he
    · cases he
  · obtain ⟨image, himage, rfl⟩ := List.mem_map.mp he
    obtain ⟨rest, hpositional⟩ := List.head?_eq_some_iff.mp (Option.mem_toList.mp himage)
    rw [hpositional]
    exact ⟨image, List.mem_cons_self, rfl⟩

/-- In a `FROM` no name begins in the flags, nor in the second argument behind them. -/
theorem not_begins_from (h : StageNames names new inst) (hfrom : inst.isKind .FROM = true) :
    (∀ arg ∈ inst.arguments.takeWhile Flag.isFlag, ∀ p ∈ arg.content.chars, ¬ Begins names p) ∧
      ∀ arg, inst.positional[1]? = some arg → ∀ p ∈ arg.content.chars, ¬ Begins names p := by
  have hmap := h.flatten_nodup
  rw [← @List.takeWhile_append_dropWhile _ Flag.isFlag inst.arguments,
    ← Instruction.positional_of_from hfrom, List.map_append, List.flatten_append] at hmap
  obtain ⟨-, hnodup, hdisjoint⟩ := List.nodup_append.mp hmap
  have hmem {args : List Argument} {arg : Argument} (harg : arg ∈ args) {p : Placed}
      (hp : p ∈ arg.content.chars) : p ∈ (args.map fun arg => arg.content.chars).flatten :=
    List.mem_flatten.mpr ⟨_, List.mem_map_of_mem harg, hp⟩
  constructor
  · intro arg harg p hp hbegins
    obtain ⟨v, -, hv, hpv, -⟩ := h.exists_of_begins ((List.takeWhile_sublist _).mem harg) hp hbegins
    obtain ⟨other, hother, rfl⟩ := exists_positional hfrom hv
    exact hdisjoint p (hmem harg hp) p (hmem (List.mem_of_mem_eraseIdx hother) hpv) rfl
  · intro arg harg p hp hbegins
    have hin := inst.positional_sublist.mem (List.mem_of_getElem? harg)
    obtain ⟨v, -, hv, hpv, -⟩ := h.exists_of_begins hin hp hbegins
    obtain ⟨other, hother, rfl⟩ := exists_positional hfrom hv
    generalize inst.positional = args at harg hother hnodup
    match args with
    | image :: _ :: rest =>
        obtain rfl := Option.some.inj harg
        rw [List.map_cons, List.map_cons, List.flatten_cons, List.flatten_cons] at hnodup
        obtain ⟨-, hrest, hfirst⟩ := List.nodup_append.mp hnodup
        rcases List.mem_cons.mp hother with rfl | hother
        · exact hfirst p hpv p (List.mem_append_left _ hp) rfl
        · exact (List.nodup_append.mp hrest).2.2 p hp p (hmem hother hpv) rfl

theorem positional (h : StageNames names new inst) (hinst : Instruction.Respelled names new inst inst')
    (hfrom : inst.isKind .FROM = true) :
    List.Forall₂ (Argument.Respelled names new) inst.positional inst'.positional := by
  have hfrom' : inst'.isKind .FROM = true := by
    rw [hinst.isKind]
    exact hfrom
  rw [Instruction.positional_of_from hfrom, Instruction.positional_of_from hfrom']
  refine forall₂_dropWhile (h.arguments hinst) ?_ ?_
  · intro arg harg arg' hrespelled
    rw [Argument.isFlag_respelled hrespelled fun p hp =>
      (h.not_begins_from hfrom).1 arg harg p (List.mem_of_mem_take hp)]
    exact List.mem_takeWhile_imp harg
  · intro arg harg arg' hrespelled
    have hflag : Flag.isFlag arg = false := by
      have hhead := List.head?_dropWhile_not Flag.isFlag inst.arguments
      rw [Option.mem_def.mp harg] at hhead
      simpa using hhead
    have hin : arg ∈ inst.arguments :=
      (List.dropWhile_sublist _).mem (List.mem_of_head? (Option.mem_def.mp harg))
    by_cases hkept : ∀ p ∈ arg.content.chars, ¬ Begins names p
    · rw [Argument.isFlag_respelled hrespelled fun p hp => hkept p (List.mem_of_mem_take hp), hflag]
    · -- The image is all a name, and the new name starts with no dash.
      simp only [not_forall, not_not] at hkept
      obtain ⟨q, hq, hbegins⟩ := hkept
      obtain ⟨v, hv, -, -, hne, a, hchars, hmark⟩ := h.exists_of_begins hin hq hbegins
      rw [Instruction.sourceMark, if_pos hfrom] at hmark
      obtain rfl := List.map_eq_nil_iff.mp hmark
      obtain ⟨p, v, rfl⟩ := List.exists_cons_of_ne_nil hne
      have hrespelled : Dockerfile.Respelled InOnePiece names new (p :: v) arg'.content.chars := by
        rw [← List.nil_append (p :: v), ← hchars]
        exact hrespelled
      obtain ⟨p', out, hout, hp'⟩ := hrespelled.exists_head h.spellable ⟨_, hv, rfl⟩
      show ['-', '-'].isPrefixOf (Placed.text arg'.content.chars) = false
      have hdash : ('-' == p'.char) = false := beq_eq_false_iff_ne.mpr (h.undashed _ hp').symm
      rw [hout, Placed.text_cons, List.isPrefixOf, hdash]
      rfl

theorem sources (h : StageNames names new inst) (hinst : Instruction.Respelled names new inst inst') :
    List.Forall₂ (fun e e' => Dockerfile.Respelled InOnePiece names new e.chars e'.chars) inst.sources
      inst'.sources := by
  have hkind := hinst.isKind
  by_cases hfrom : inst.isKind .FROM = true
  · have hpositional := h.positional hinst hfrom
    unfold Instruction.sources
    rw [hkind, if_pos hfrom, if_pos hfrom]
    generalize inst.positional = args at hpositional
    generalize inst'.positional = args' at hpositional
    cases hpositional with
    | nil => exact .nil
    | cons himage _ => exact .cons himage .nil
  · rw [Instruction.sources_of_copy hfrom, Instruction.sources_of_copy (by rw [hkind]; exact hfrom), hkind]
    split
    · have hunmarked {arg : Argument} (harg : arg ∈ inst.arguments) :
          ∀ p ∈ arg.content.chars.take 7, ¬ Begins names p := by
        have hmark := h.not_begins_mark harg
        rw [Instruction.sourceMark, if_neg hfrom] at hmark
        exact hmark
      have hflags := forall₂_takeWhile (f := Flag.isFlag) (g := Flag.isFlag) (h.arguments hinst)
        fun arg harg arg' hrespelled => Argument.isFlag_respelled hrespelled (hunmarked harg)
      refine List.rel_filterMap ?_ (forall₂_mem hflags)
      rintro arg arg' ⟨harg, -, hrespelled⟩
      exact Argument.source?_respelled hrespelled (hunmarked ((List.takeWhile_sublist _).mem harg))
        h.spellable
    · exact .nil

theorem stageName (h : StageNames names new inst) (hinst : Instruction.Respelled names new inst inst') :
    Option.Rel (fun e e' => Dockerfile.Respelled InOnePiece names new e.chars e'.chars) inst.stageName?
      inst'.stageName? := by
  unfold Instruction.stageName?
  rw [hinst.isKind]
  by_cases hfrom : inst.isKind .FROM = true
  · have hpositional := h.positional hinst hfrom
    have has := (h.not_begins_from hfrom).2
    unfold Stage.declaredName?
    rw [if_pos hfrom, if_pos hfrom]
    generalize inst.positional = args at hpositional has
    generalize inst'.positional = args' at hpositional
    cases hpositional with
    | nil => exact .none
    | cons _ hbehind =>
        cases hbehind with
        | nil => exact .none
        | @cons as as' _ _ hsecond hthird =>
            have hsame : as'.text = as.text :=
              Dockerfile.Respelled.text_eq (show Dockerfile.Respelled _ _ _ _ _ from hsecond) (has as rfl)
            cases hthird with
            | nil => exact .none
            | cons hname _ =>
                simp only [hsame]
                split
                · exact .some hname
                · exact .none
  · rw [if_neg hfrom, if_neg hfrom]
    exact .none

end StageNames

end Dockerfile
