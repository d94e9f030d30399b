import Dockerfile.Editor.Edit
import Dockerfile.Proofs.Instruction
import Dockerfile.Proofs.Checked.Excerpt

/-!
# Instructions, access by access

Arguments, flags, properties and deferred instructions are parts of an instruction's region, found by
number of the byte at which they start. Such a number is always one at which a character starts, so
whatever the keyword and the region of an instruction are, no access fails.
-/

namespace Dockerfile

theorem Excerpt.part_part {e : Excerpt} {front body : List Placed} (h : e.chars = front ++ body)
    (kept rest : List Placed) : (e.part body []).part kept rest = e.part kept rest := by
  have hstop : (e.part body []).stop = e.stop := by
    unfold stop Placed.stopOr part
    rw [h]
    cases body with
    | nil => simp [Placed.startOr, stop, Placed.stopOr, h]
    | cons p body => rw [List.getLast?_append, List.getLast?_cons]; rfl
  rw [part, hstop]
  rfl

namespace Checked

theorem excerptSlice_of_split {e : Excerpt} {a b c : List Placed} {start stop : Nat}
    (h : e.chars = a ++ (b ++ c)) (hstart : start = total Placed.size a)
    (hstop : stop = total Placed.size a + total Placed.size b) :
    excerptSlice e start stop = .ok (e.part b c) := by
  rw [hstart, hstop]
  exact excerptSlice_eq h

/-! ## Arguments -/

def splitFrom (escape : Char) (whole : Excerpt) (index : Nat) :
    List Placed → Checked (List Argument)
  | [] => return []
  | p :: rest =>
      if isBlank p.char then splitFrom escape whole (index + p.size) rest
      else do
        let word := Argument.Word.read escape none (p :: rest)
        let stop := index + total Placed.size word.chars
        let content ← excerptSlice whole index stop
        let later ← splitFrom escape whole stop word.rest
        return ⟨content, index, stop, word.openQuote⟩ :: later
termination_by chars => chars.length
decreasing_by
  · simp
  · rename_i h
    exact Argument.Word.read_rest_length_lt escape p rest (by simpa using h)

def split (escape : Char) (region : Excerpt) : Checked (List Argument) :=
  splitFrom escape region 0 region.chars

theorem splitFrom_eq (escape : Char) {whole : Excerpt} {front chars : List Placed}
    (h : whole.chars = front ++ chars) :
    splitFrom escape whole (total Placed.size front) chars =
      .ok (Argument.splitFrom escape whole (total Placed.size front) chars) := by
  generalize hindex : total Placed.size front = index
  fun_induction Argument.splitFrom escape whole index chars generalizing front with
  | case1 => rw [splitFrom]; rfl
  | case2 index p rest hb ih =>
      rw [splitFrom, if_pos hb]
      have hchars : whole.chars = (front ++ [p]) ++ rest := by rw [h, List.append_assoc]; rfl
      exact ih hchars (by simp [← hindex])
  | case3 index p rest hb word =>
      rename_i stop ih
      have hword : word.chars ++ word.rest = p :: rest := Argument.Word.read_append escape none _
      have hchars : whole.chars = (front ++ word.chars) ++ word.rest := by
        rw [h, List.append_assoc, hword]
      have hrest := ih hchars (by rw [total_append, hindex])
      have hcut : excerptSlice whole index stop = .ok (whole.part word.chars word.rest) :=
        excerptSlice_of_split (by rw [h, hword]) hindex.symm (by rw [hindex])
      rw [splitFrom, if_neg hb]
      simp only [word, stop] at hcut hrest
      simp only [hcut, hrest, ok_bind, pure_eq]
      rfl

@[simp] theorem split_eq (escape : Char) (region : Excerpt) :
    split escape region = .ok (Argument.split escape region) :=
  splitFrom_eq escape (List.nil_append region.chars).symm

theorem exists_around_argument {escape : Char} {whole : Excerpt} {index : Nat}
    {front chars : List Placed} (h : whole.chars = front ++ chars)
    (hindex : index = total Placed.size front) {arg : Argument}
    (harg : arg ∈ Argument.splitFrom escape whole index chars) :
    ∃ a b c, whole.chars = a ++ (b ++ c) ∧ arg.start = total Placed.size a ∧
      arg.content = whole.part b c := by
  fun_induction Argument.splitFrom escape whole index chars generalizing front with
  | case1 => cases harg
  | case2 index p rest hb ih =>
      have hchars : whole.chars = (front ++ [p]) ++ rest := by rw [h, List.append_assoc]; rfl
      exact ih hchars (by simp [hindex]) harg
  | case3 index p rest hb word =>
      rename_i stop ih
      have hword : word.chars ++ word.rest = p :: rest := Argument.Word.read_append escape none _
      rcases List.mem_cons.mp harg with rfl | harg
      · exact ⟨front, word.chars, word.rest, by rw [h, hword], hindex, rfl⟩
      · have hchars : whole.chars = (front ++ word.chars) ++ word.rest := by
          rw [h, List.append_assoc, hword]
        exact ih hchars (by simp only [stop, hindex, total_append]) harg

def cutAtEquals (e : Excerpt) (start : Nat) : Checked (Excerpt × Option Excerpt) := do
  let stop := Text.byteLength (e.text.takeWhile fun c => c != '=')
  let name ← excerptSlice e start stop
  if stop < e.byteLength then
    return (name, some (← excerptSlice e (stop + 1) e.byteLength))
  else return (name, none)

theorem cutAtEquals_eq {e : Excerpt} {front body : List Placed} (h : e.chars = front ++ body)
    (hfront : ∀ p ∈ front, p.char ≠ '=') :
    cutAtEquals e (total Placed.size front) = .ok (e.part body []).cutAtEquals := by
  have hstop : Text.byteLength (e.text.takeWhile fun c => c != '=') =
      total Placed.size front + total Placed.size (body.takeWhile fun p => p.char != '=') := by
    have htext := Placed.text_takeWhile (fun c => c != '=') e.chars
    rw [Excerpt.text, ← htext, ← Placed.total_size, h,
      List.takeWhile_append_of_pos (by simpa using hfront), total_append]
  have hbody := @List.takeWhile_append_dropWhile _ (fun p : Placed => p.char != '=') body
  have hhead := List.head?_dropWhile_not (fun p : Placed => p.char != '=') body
  have hchars : (e.part body []).chars = body := rfl
  unfold cutAtEquals Excerpt.cutAtEquals
  simp only [hstop, Excerpt.part_part h, hchars]
  generalize body.takeWhile (fun p => p.char != '=') = before at *
  generalize body.dropWhile (fun p => p.char != '=') = after at *
  have hname := excerptSlice_of_split (e := e) (a := front) (b := before) (c := after)
    (by rw [h, hbody]) rfl rfl
  rw [hname, ok_bind]
  cases after with
  | nil =>
      rw [if_neg (by rw [Excerpt.byteLength, h, ← hbody]; simp)]
      rfl
  | cons equals rest =>
      have hequals : equals.size = 1 := by
        have hchar : equals.char = '=' := by simpa using hhead
        rw [Placed.size, hchar]
        rfl
      have hlen : e.byteLength =
          total Placed.size (front ++ (before ++ [equals])) + total Placed.size rest := by
        rw [Excerpt.byteLength, h, ← hbody]
        simp only [total_append, total_cons, total_nil]
        omega
      have hsize : total Placed.size front + total Placed.size before + 1 =
          total Placed.size (front ++ (before ++ [equals])) := by
        simp only [total_append, total_cons, total_nil]
        omega
      have hvalue := excerptSlice_of_split (e := e) (a := front ++ (before ++ [equals])) (b := rest)
        (c := []) (by rw [h, ← hbody]; simp) hsize hlen
      rw [if_pos (by omega), hvalue]
      rfl

/-! ## Flags -/

def flag? (arg : Argument) (index : Nat) : Checked (Option Flag) := do
  if Flag.isFlag arg then
    let cut ← cutAtEquals arg.content 2
    return some ⟨cut.1, cut.2, ← fullSpan arg.content, index⟩
  else return none

@[simp] theorem flag?_eq (arg : Argument) (index : Nat) :
    flag? arg index = .ok (Flag.ofArgument? arg index) := by
  unfold flag? Flag.ofArgument?
  split
  · rename_i h
    obtain ⟨tail, htail⟩ := List.isPrefixOf_iff_prefix.mp h
    obtain ⟨front, body, hchars, hfront, -⟩ := List.map_eq_append_iff.mp htail.symm
    have hlen : front.length = 2 := by rw [← List.length_map, hfront]; rfl
    have hsize : total Placed.size front = 2 := by
      rw [Placed.total_size, Placed.text, hfront]
      rfl
    have hdash : ∀ p ∈ front, p.char ≠ '=' := by
      intro p hp
      have hmem : p.char ∈ ['-', '-'] := hfront ▸ List.mem_map_of_mem hp
      simp only [List.mem_cons, List.not_mem_nil, or_false, or_self] at hmem
      rw [hmem]
      decide
    have hcut := cutAtEquals_eq hchars hdash
    have hbody : arg.content.chars.drop 2 = body := by rw [hchars, ← hlen, List.drop_left]
    rw [hsize] at hcut
    rw [hcut, hbody, ok_bind, fullSpan_eq, ok_bind]
    rfl
  · rfl

def flagsFrom (index : Nat) : List Argument → Checked (List Flag)
  | [] => return []
  | arg :: rest => do
      match ← flag? arg index with
      | some flag => return flag :: (← flagsFrom (index + 1) rest)
      | none => return []

def flags (inst : Instruction) : Checked (List Flag) :=
  if inst.bearsFlags then flagsFrom 0 inst.arguments else return []

theorem flagsFrom_eq (index : Nat) (args : List Argument) :
    flagsFrom index args = .ok (Instruction.flagsFrom index args) := by
  induction args generalizing index with
  | nil => rfl
  | cons arg rest ih =>
      rw [flagsFrom, flag?_eq, ok_bind, Instruction.flagsFrom]
      cases Flag.ofArgument? arg index with
      | none => rfl
      | some flag => simp only [ih, ok_bind, pure_eq]

@[simp] theorem flags_eq (inst : Instruction) : flags inst = .ok inst.flags := by
  unfold flags Instruction.flags
  split
  · exact flagsFrom_eq 0 inst.arguments
  · rfl

def positional (inst : Instruction) : Checked (List Argument) :=
  let skipped := if inst.bearsFlags then (inst.arguments.takeWhile Flag.isFlag).length else 0
  items inst.arguments skipped inst.arguments.length

@[simp] theorem positional_eq (inst : Instruction) : positional inst = .ok inst.positional := by
  unfold positional Instruction.positional
  split
  · rw [items_length (List.takeWhile_sublist _).length_le]
    have happend := @List.takeWhile_append_dropWhile _ Flag.isFlag inst.arguments
    have hdrop := @List.drop_left _ (inst.arguments.takeWhile Flag.isFlag)
      (inst.arguments.dropWhile Flag.isFlag)
    rw [happend] at hdrop
    rw [hdrop]
  · exact items_length (Nat.zero_le _)

theorem excerptSlice_argument {inst : Instruction} {arg : Argument} (h : arg ∈ inst.arguments) :
    excerptSlice inst.region arg.start inst.region.byteLength =
      .ok (inst.region.slice arg.start inst.region.byteLength) := by
  obtain ⟨a, b, c, hchars, hstart, -⟩ :=
    exists_around_argument (List.nil_append inst.region.chars).symm rfl h
  have hlen : inst.region.byteLength = total Placed.size a + total Placed.size (b ++ c) := by
    rw [Excerpt.byteLength, hchars, total_append]
  have hsplit : inst.region.chars = a ++ ((b ++ c) ++ []) := by rw [List.append_nil, hchars]
  rw [excerptSlice_of_split hsplit hstart hlen, hstart, hlen, Excerpt.slice_eq_part hsplit]

def positionalRegion (inst : Instruction) : Checked Excerpt := do
  let start := match (← positional inst).head? with
    | some arg => arg.start
    | none => inst.region.byteLength
  trim (← excerptSlice inst.region start inst.region.byteLength)

@[simp] theorem positionalRegion_eq (inst : Instruction) :
    positionalRegion inst = .ok inst.positionalRegion := by
  have hmem : ∀ arg ∈ inst.positional.head?, arg ∈ inst.arguments := by
    intro arg harg
    have hpositional := List.mem_of_mem_head? harg
    unfold Instruction.positional at hpositional
    split at hpositional
    · exact (List.dropWhile_sublist _).mem hpositional
    · exact hpositional
  unfold positionalRegion Instruction.positionalRegion
  rw [positional_eq, ok_bind]
  cases hhead : inst.positional.head? with
  | none =>
      have hsplit : inst.region.chars = inst.region.chars ++ ([] ++ []) := by simp
      have hcut := excerptSlice_of_split hsplit (e := inst.region) rfl rfl
      have hpart := Excerpt.slice_eq_part hsplit
      rw [total_nil, Nat.add_zero] at hcut hpart
      simp only [Excerpt.byteLength, hcut, hpart, ok_bind, trim_eq]
  | some arg =>
      simp only [excerptSlice_argument (hmem arg hhead), ok_bind, trim_eq]

/-! ## Properties -/

def property (arg : Argument) : Checked Property := do
  let cut ← cutAtEquals arg.content 0
  return ⟨cut.1, cut.2, ← fullSpan arg.content, false⟩

@[simp] theorem property_eq (arg : Argument) : property arg = .ok (Property.ofArgument arg) := by
  have hnil := (List.nil_append arg.content.chars).symm
  have hcut := cutAtEquals_eq hnil (by simp)
  have hequals : (arg.content.part arg.content.chars []).cutAtEquals = arg.content.cutAtEquals := by
    unfold Excerpt.cutAtEquals
    simp only [Excerpt.part_part hnil]
    rfl
  rw [property, show cutAtEquals arg.content 0 = _ from hcut, hequals, ok_bind, fullSpan_eq, ok_bind]
  rfl

def properties (inst : Instruction) : Checked (List Property) := do
  match inst.arguments with
  | [] => return []
  | first :: _ =>
      if (inst.isKind .ENV || inst.isKind .LABEL) && 1 < inst.arguments.length &&
          !first.text.contains '=' then
        let second ← item inst.arguments 1
        let value ← trim (← excerptSlice inst.region second.start inst.region.byteLength)
        let name ← fullSpan first.content
        return [⟨first.content, some value, ← cover name (← fullSpan value), true⟩]
      else inst.arguments.mapM property

@[simp] theorem properties_eq (inst : Instruction) : properties inst = .ok inst.properties := by
  have hmap : ∀ args : List Argument, args.mapM property = .ok (args.map Property.ofArgument) :=
    fun args => mapM_eq fun arg _ => property_eq arg
  have hargument : ∀ arg ∈ inst.arguments, _ := fun arg => excerptSlice_argument
  unfold properties Instruction.properties
  cases hargs : inst.arguments with
  | nil => rfl
  | cons first rest =>
      rw [hargs] at hargument
      cases rest with
      | nil =>
          simp only [List.length_singleton, Nat.lt_irrefl, decide_false, Bool.and_false,
            Bool.false_and, Bool.false_eq_true, if_false, hmap]
      | cons second rest =>
          have hlen : 1 < (first :: second :: rest).length := by
            rw [List.length_cons, List.length_cons]
            omega
          have hsecond : item (first :: second :: rest) 1 = .ok second := item_eq rfl
          have hcover : ∀ value : Excerpt, cover first.content.span value.span =
              .ok (first.content.span.cover value.span) :=
            fun value => cover_eq (Nat.le_max_right _ _)
          simp only [hlen, decide_true, Bool.and_true, hsecond, ok_bind,
            hargument second (List.mem_cons_of_mem _ List.mem_cons_self), trim_eq, fullSpan_eq,
            hcover, hmap]
          split <;> rfl

/-! ## Whole instructions -/

/-- An instruction from its parts. Its arguments and its extent are computed at once. -/
def instruction (keyword region : Excerpt) (emptyLines : List Span) (escape : Char) :
    Checked Instruction := do
  let inst := Instruction.ofParts keyword region emptyLines escape
  let keywordSpan ← fullSpan keyword
  let _ ← split escape inst.region
  let bounds ← trimmedBounds inst.region
  let stop ← if 0 < bounds.2 then Span.stop <$> spanAt inst.region 0 bounds.2
    else pure keywordSpan.stop
  let _ ← span keywordSpan.start (max stop keywordSpan.stop)
  return inst

@[simp] theorem instruction_eq (keyword region : Excerpt) (emptyLines : List Span) (escape : Char) :
    instruction keyword region emptyLines escape =
      .ok (Instruction.ofParts keyword region emptyLines escape) := by
  have hordered : ∀ stop, span keyword.span.start (max stop keyword.span.stop) =
      .ok ⟨keyword.span.start, max stop keyword.span.stop⟩ :=
    fun stop => span_eq (Nat.le_trans (Nat.le_max_right _ _) (Nat.le_max_right _ _))
  unfold instruction
  simp only [fullSpan_eq, split_eq, trimmedBounds_eq, spanAt_eq, map_ok, ok_bind, pure_eq]
  split <;> simp only [ok_bind, hordered]

def trigger? (inst : Instruction) : Checked (Option Instruction) := do
  if inst.isKind .ONBUILD then
    let bounds ← trimmedBounds inst.region
    if bounds.2 ≤ bounds.1 then return none
    else
      let content ← slice inst.region.text bounds.1 bounds.2
      let stop := bounds.1 + Text.byteLength (content.takeWhile fun c => !isBlank c)
      let keyword ← excerptSlice inst.region bounds.1 stop
      let region ← excerptSlice inst.region stop inst.region.byteLength
      return some (← instruction keyword region [] inst.escape)
  else return none

@[simp] theorem trigger?_eq (inst : Instruction) : trigger? inst = .ok inst.trigger? := by
  unfold trigger? Instruction.trigger?
  split
  · obtain ⟨lead, kept, tail, hchars, hbounds, hdrop, hkept, htail⟩ :=
      inst.region.exists_trimmedBounds
    have hblank : (tail.takeWhile fun p => !isBlank p.char) = [] := by
      cases tail with
      | nil => rfl
      | cons p tail => simp [htail p List.mem_cons_self]
    have hword : ((kept ++ tail).takeWhile fun p => !isBlank p.char) =
        kept.takeWhile fun p => !isBlank p.char := by
      rw [List.takeWhile_append, hblank, List.append_nil]
      split
      · rename_i hlen
        exact ((List.takeWhile_prefix _).eq_of_length hlen).symm
      · rfl
    have hhead := List.head?_dropWhile_not (fun p : Placed => isBlank p.char) inst.region.chars
    have happend := @List.takeWhile_append_dropWhile _ (fun p : Placed => !isBlank p.char)
      (kept ++ tail)
    have hstop : Text.byteLength ((Placed.text kept).takeWhile fun c => !isBlank c) =
        total Placed.size ((kept ++ tail).takeWhile fun p => !isBlank p.char) := by
      rw [hword, Placed.total_size, Placed.text_takeWhile fun c => !isBlank c]
    rw [trimmedBounds_eq, ok_bind, hbounds, hdrop]
    rw [hdrop] at hhead
    cases kept with
    | nil =>
        -- Blanks alone would not have been left by dropping blanks.
        obtain rfl : tail = [] := by
          cases tail with
          | nil => rfl
          | cons p tail => simp [htail p List.mem_cons_self] at hhead
        rw [if_pos (by simp)]
        rfl
    | cons first more =>
        have hpos := first.size_pos
        rw [if_neg (by rw [total_cons]; omega), slice_text hchars, ok_bind]
        simp only [hstop]
        simp only [List.cons_append] at happend ⊢
        generalize (first :: (more ++ tail)).takeWhile (fun p => !isBlank p.char) = word at *
        generalize (first :: (more ++ tail)).dropWhile (fun p => !isBlank p.char) = rest at *
        have hregion : inst.region.chars = lead ++ (word ++ rest) := by
          rw [hchars, happend, List.cons_append]
        have hlen : inst.region.byteLength =
            total Placed.size (lead ++ word) + total Placed.size rest := by
          rw [Excerpt.byteLength, hregion, ← List.append_assoc, total_append]
        have hrest := excerptSlice_of_split (e := inst.region) (a := lead ++ word) (b := rest)
          (c := []) (by rw [hregion]; simp) (total_append _ lead word).symm hlen
        rw [excerptSlice_eq hregion, ok_bind, hrest, ok_bind, instruction_eq]
        rfl
  · rfl

def deferred? (inst : Instruction) :
    Checked (Option { t : Instruction // t.region.chars.length < inst.region.chars.length }) := do
  match ← trigger? inst with
  | none => return none
  | some t =>
      if h : t.region.chars.length < inst.region.chars.length then return some ⟨t, h⟩
      else throw (.stuck inst.region.chars.length t.region.chars.length)

theorem deferred?_none {inst : Instruction} (h : inst.trigger? = none) :
    deferred? inst = .ok none := by
  rw [deferred?, trigger?_eq, h]
  rfl

theorem deferred?_some {inst t : Instruction} (h : inst.trigger? = some t) :
    ∃ hlt, deferred? inst = .ok (some ⟨t, hlt⟩) := by
  have hlt := Instruction.trigger?_length h
  refine ⟨hlt, ?_⟩
  rw [deferred?, trigger?_eq, h, ok_bind]
  exact dif_pos hlt

def extent (inst : Instruction) : Checked Span := do
  let region ← fullSpan inst.region
  span inst.keywordSpan.start (max inst.span.stop region.stop)

@[simp] theorem extent_eq (inst : Instruction) : extent inst = .ok inst.extent := by
  have hkeyword : inst.keywordSpan.start ≤ inst.keywordSpan.stop := Nat.le_max_right _ _
  have hspan : inst.keywordSpan.stop ≤ inst.span.stop := Nat.le_max_right _ _
  rw [extent, fullSpan_eq, ok_bind]
  exact span_eq (Nat.le_trans (Nat.le_trans hkeyword hspan) (Nat.le_max_left _ _))

end Checked

end Dockerfile
