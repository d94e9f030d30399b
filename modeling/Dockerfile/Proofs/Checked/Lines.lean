import Dockerfile.Proofs.Checked.Access
import Dockerfile.Proofs.Text.Selection

/-!
# Lines and positions, access by access

A document is a text and the offsets at which its lines start, which are found by looking at every
byte once. Everything that editors say in lines and columns is computed from these, and whatever
offset, position, span or range is asked for, no access fails.
-/

namespace Dockerfile

def byteChar (b : UInt8) : Char :=
  Char.ofNat b.toNat

theorem byteChar_toNat (b : UInt8) : (byteChar b).toNat = b.toNat := by
  have hlt := b.toNat_lt
  have hvalid : b.toNat.isValidChar := .inl (by omega)
  rw [byteChar, Char.ofNat, dif_pos hvalid]
  rfl

theorem utf8EncodeChar_of_size_one {c : Char} (h : c.utf8Size = 1) :
    ∃ b, String.utf8EncodeChar c = [b] ∧ byteChar b = c := by
  have hle : c.val.toNat ≤ 127 := by
    have := UInt32.le_iff_toNat_le.mp (Char.utf8Size_eq_one_iff.mp h)
    exact this
  refine ⟨UInt8.ofNat c.val.toNat, ?_, ?_⟩
  · rw [String.utf8EncodeChar]
    exact if_pos hle
  · rw [byteChar, UInt8.toNat_ofNat', Nat.mod_eq_of_lt (by omega)]
    exact Char.ofNat_toNat c

/-- The bytes of a character that has several are not characters by themselves. -/
theorem le_of_mem_utf8EncodeChar {c : Char} (h : c.utf8Size ≠ 1) {b : UInt8}
    (hb : b ∈ String.utf8EncodeChar c) : 128 ≤ (byteChar b).toNat := by
  have hle : ¬ c.val.toNat ≤ 127 := fun hle =>
    h (Char.utf8Size_eq_one_iff.mpr (UInt32.le_iff_toNat_le.mpr hle))
  rw [byteChar_toNat]
  rw [String.utf8EncodeChar] at hb
  simp only [if_neg hle] at hb
  split at hb
  · simp only [List.mem_cons, List.not_mem_nil, or_false] at hb
    rcases hb with rfl | rfl <;> rw [UInt8.toNat_ofNat'] <;> omega
  split at hb
  · simp only [List.mem_cons, List.not_mem_nil, or_false] at hb
    rcases hb with rfl | rfl | rfl <;> rw [UInt8.toNat_ofNat'] <;> omega
  · simp only [List.mem_cons, List.not_mem_nil, or_false] at hb
    rcases hb with rfl | rfl | rfl | rfl <;> rw [UInt8.toNat_ofNat'] <;> omega

namespace Checked

def byteAt (text : Text) (index : Nat) : Checked Char := do
  return byteChar (← item (Text.bytes text) index)

/-- What stands at a byte of a character: the character if that is its only byte, else none that has
only one. -/
theorem exists_byteAt (a : Text) (c : Char) (b : Text) {i : Nat} (h : i < c.utf8Size) :
    ∃ d, byteAt (a ++ c :: b) (Text.byteLength a + i) = .ok d ∧
      (c.utf8Size = 1 ∧ d = c ∨ c.utf8Size ≠ 1 ∧ 128 ≤ d.toNat) := by
  have hlen : i < (String.utf8EncodeChar c).length := by rwa [String.length_utf8EncodeChar]
  have hitem : (Text.bytes (a ++ c :: b))[Text.byteLength a + i]? =
      some (String.utf8EncodeChar c)[i] := by
    rw [Text.bytes_append, Text.bytes_cons, ← Text.length_bytes,
      List.getElem?_append_right (Nat.le_add_right _ _), Nat.add_sub_cancel_left,
      List.getElem?_append_left hlen, List.getElem?_eq_getElem hlen]
  refine ⟨byteChar (String.utf8EncodeChar c)[i], by rw [byteAt, item_eq hitem]; rfl, ?_⟩
  by_cases hone : c.utf8Size = 1
  · obtain ⟨byte, hbytes, hchar⟩ := utf8EncodeChar_of_size_one hone
    have hmem : (String.utf8EncodeChar c)[i] ∈ [byte] := hbytes ▸ List.getElem_mem hlen
    rw [List.mem_singleton.mp hmem]
    exact .inl ⟨hone, hchar⟩
  · exact .inr ⟨hone, le_of_mem_utf8EncodeChar hone (List.getElem_mem hlen)⟩

theorem byteAt_eq (a : Text) {c : Char} (h : c.utf8Size = 1) (b : Text) :
    byteAt (a ++ c :: b) (Text.byteLength a) = .ok c := by
  obtain ⟨d, hd, ⟨-, rfl⟩ | ⟨hne, -⟩⟩ := exists_byteAt a c b c.utf8Size_pos
  · exact hd
  · exact absurd h hne

/-! ## Where lines start -/

def lineStartsFrom (text : Text) (index : Nat) : Checked (List Nat) :=
  if index < Text.byteLength text then do
    let c ← byteAt text index
    let next ← onward (Text.byteLength text) index
      (if c = '\r' ∧ (Text.bytes text)[index + 1]? = some 10 then index + 2 else index + 1)
    let later ← lineStartsFrom text next.1
    return if isLineBreak c then next.1 :: later else later
  else return []
termination_by Text.byteLength text - index
decreasing_by
  have := next.2
  omega

theorem lineStartsFrom_char (a : Text) {c : Char} (hc : isLineBreak c = false) (b : Text) :
    lineStartsFrom (a ++ c :: b) (Text.byteLength a) =
      lineStartsFrom (a ++ c :: b) (Text.byteLength a + c.utf8Size) := by
  suffices key : ∀ rest i, i + rest = c.utf8Size →
      lineStartsFrom (a ++ c :: b) (Text.byteLength a + i) =
        lineStartsFrom (a ++ c :: b) (Text.byteLength a + c.utf8Size) from
    key c.utf8Size 0 (Nat.zero_add _)
  intro rest
  induction rest with
  | zero =>
      intro i hi
      rw [← hi, Nat.add_zero]
  | succ rest ih =>
      intro i hi
      obtain ⟨d, hd, hcases⟩ := exists_byteAt a c b (i := i) (by omega)
      have hbreak : isLineBreak d = false := by
        rcases hcases with ⟨-, rfl⟩ | ⟨-, hle⟩
        · exact hc
        · refine Bool.eq_false_iff.mpr fun h => ?_
          simp only [isLineBreak, Bool.or_eq_true, beq_iff_eq] at h
          rcases h with rfl | rfl <;> exact absurd hle (by decide)
      have hlen : Text.byteLength (a ++ c :: b) =
          Text.byteLength a + (c.utf8Size + Text.byteLength b) := by
        rw [Text.byteLength_append, Text.byteLength_cons]
      have hreturn : d ≠ '\r' := by
        rintro rfl
        cases hbreak
      rw [lineStartsFrom, if_pos (by omega), hd, ok_bind, if_neg (fun h => hreturn h.1),
        onward_eq (Nat.lt_add_one _) (by omega), ok_bind]
      simp only [hbreak, Bool.false_eq_true, if_false]
      rw [show Text.byteLength a + i + 1 = Text.byteLength a + (i + 1) by omega, ih (i + 1) (by omega)]
      cases lineStartsFrom (a ++ c :: b) (Text.byteLength a + c.utf8Size) <;> rfl

theorem lineStartsFrom_clean (a : Text) {content : Text}
    (clean : ∀ c ∈ content, isLineBreak c = false) (b : Text) :
    lineStartsFrom (a ++ (content ++ b)) (Text.byteLength a) =
      lineStartsFrom (a ++ (content ++ b)) (Text.byteLength a + Text.byteLength content) := by
  induction content generalizing a with
  | nil => rfl
  | cons c content ih =>
      have hnext := ih (a ++ [c]) fun d hd => clean d (List.mem_cons_of_mem c hd)
      rw [List.append_assoc, List.singleton_append, Text.byteLength_append, Text.byteLength_cons,
        Text.byteLength_nil, Nat.add_zero] at hnext
      rw [List.cons_append, lineStartsFrom_char a (clean c List.mem_cons_self), hnext,
        Text.byteLength_cons, Nat.add_assoc]

/-- The byte of a line feed begins no other character. -/
theorem head?_bytes_ne_feed {text : Text} (h : text.head? ≠ some '\n') :
    (Text.bytes text)[0]? ≠ some 10 := by
  cases text with
  | nil => simp [Text.bytes]
  | cons c text =>
      intro hfeed
      have hlen : 0 < (String.utf8EncodeChar c).length := by
        rw [String.length_utf8EncodeChar]
        exact c.utf8Size_pos
      rw [Text.bytes_cons, List.getElem?_append_left hlen] at hfeed
      have hmem := List.mem_of_getElem? hfeed
      by_cases hone : c.utf8Size = 1
      · obtain ⟨b, hbytes, hb⟩ := utf8EncodeChar_of_size_one hone
        rw [hbytes, List.mem_singleton] at hmem
        subst hmem
        exact h (congrArg some hb.symm)
      · exact absurd (le_of_mem_utf8EncodeChar hone hmem) (by decide)

theorem lineStartsFrom_terminator (a : Text) {terminator b : Text} (h : IsTerminator terminator b) :
    lineStartsFrom (a ++ (terminator ++ b)) (Text.byteLength a) = do
      return (Text.byteLength a + Text.byteLength terminator) ::
        (← lineStartsFrom (a ++ (terminator ++ b))
          (Text.byteLength a + Text.byteLength terminator)) := by
  have hlen : Text.byteLength (a ++ (terminator ++ b)) =
      Text.byteLength a + (Text.byteLength terminator + Text.byteLength b) := by
    rw [Text.byteLength_append, Text.byteLength_append]
  have hbytes : ∀ i, (Text.bytes (a ++ (terminator ++ b)))[Text.byteLength a + i]? =
      (Text.bytes (terminator ++ b))[i]? := by
    intro i
    rw [Text.bytes_append, ← Text.length_bytes, List.getElem?_append_right (Nat.le_add_right _ _),
      Nat.add_sub_cancel_left]
  have hnext : ∃ c, byteAt (a ++ (terminator ++ b)) (Text.byteLength a) = .ok c ∧
      isLineBreak c = true ∧ (if c = '\r' ∧
        (Text.bytes (a ++ (terminator ++ b)))[Text.byteLength a + 1]? = some 10 then
          Text.byteLength a + 2 else Text.byteLength a + 1) =
        Text.byteLength a + Text.byteLength terminator := by
    rcases h with rfl | rfl | ⟨rfl, hhead⟩
    · exact ⟨'\r', byteAt_eq a rfl ('\n' :: b), rfl, if_pos ⟨rfl, hbytes 1⟩⟩
    · exact ⟨'\n', byteAt_eq a rfl b, rfl, if_neg fun hreturn => absurd hreturn.1 (by decide)⟩
    · refine ⟨'\r', byteAt_eq a rfl b, rfl, if_neg fun hfeed => head?_bytes_ne_feed hhead ?_⟩
      rw [← hfeed.2, hbytes 1]
      rfl
  obtain ⟨c, hc, hbreak, hnext⟩ := hnext
  have hpos := h.byteLength_pos
  rw [lineStartsFrom, if_pos (by omega), hc, ok_bind, hnext, onward_eq (by omega) (by omega),
    ok_bind]
  simp only [hbreak, if_true]

def lineStarts (text : Text) : Checked (List Nat) := do
  return 0 :: (← lineStartsFrom text 0)

theorem lineStartsFrom_lined {start : Nat} {rest : Text} {lines : List Line}
    (h : Lined start rest lines) (a : Text) (ha : start = Text.byteLength a) :
    lineStartsFrom (a ++ rest) start = .ok (lines.tail.map Line.start) := by
  induction h generalizing a with
  | last start clean =>
      rename_i content
      have hclean := lineStartsFrom_clean a clean []
      rw [List.append_nil] at hclean
      rw [ha, hclean, lineStartsFrom, if_neg (by rw [Text.byteLength_append]; omega)]
      rfl
  | cons clean ends next ih =>
      rename_i start content terminator rest lines
      have hnext := ih (a ++ (content ++ terminator)) (by
        rw [ha, Text.byteLength_append a])
      have htext : a ++ (content ++ terminator) ++ rest = (a ++ content) ++ (terminator ++ rest) := by
        simp only [List.append_assoc]
      obtain ⟨line, tail, rfl⟩ := List.exists_cons_of_ne_nil next.ne_nil
      obtain ⟨_, -, hstart, -⟩ := next.exists_head
      have hlen : start + Text.byteLength (content ++ terminator) =
          Text.byteLength (a ++ content) + Text.byteLength terminator := by
        rw [ha, Text.byteLength_append, Text.byteLength_append, Nat.add_assoc]
      rw [hlen, htext] at hnext
      rw [ha, lineStartsFrom_clean a clean, ← Text.byteLength_append, ← List.append_assoc,
        lineStartsFrom_terminator (a ++ content) ends, hnext, ok_bind, pure_eq, ← hlen, ← hstart]
      rfl

@[simp] theorem lineStarts_eq (text : Text) :
    lineStarts text = .ok ((Text.lines text).map Line.start) := by
  have hlined := lined_lines text
  have hfrom := lineStartsFrom_lined hlined [] rfl
  rw [List.nil_append] at hfrom
  rw [lineStarts, hfrom, ok_bind]
  obtain ⟨line, tail, hlines⟩ := List.exists_cons_of_ne_nil hlined.ne_nil
  rw [hlines] at hlined ⊢
  obtain ⟨_, -, hstart, -⟩ := hlined.exists_head
  rw [List.map_cons, hstart]
  rfl

/-! ## The extent of a line -/

/-- The offset behind the content of a line. What stands up to the next line is looked at for a
terminator. -/
def lineStop (text : Text) (number : Nat) : Checked Nat := do
  let next := Text.lineStart text (number + 1)
  let line ← slice text (Text.lineStart text number) next
  if ['\r', '\n'].isSuffixOf line then minus next 2
  else if line.getLast?.any isLineBreak then minus next 1
  else return next

def lineText (text : Text) (number : Nat) : Checked Text := do
  slice text (Text.lineStart text number) (← lineStop text number)

def lineSpan (text : Text) (number : Nat) : Checked Span := do
  span (Text.lineStart text number) (← lineStop text number)

def lineOf (text : Text) (offset : Nat) : Checked Nat :=
  let offset := min offset (Text.byteLength text)
  minus ((Text.lines text).takeWhile fun line => line.start ≤ offset).length 1

theorem exists_around_line (text : Text) (number : Nat) :
    ∃ front more, text = front ++ ((Text.line text number).content ++
        ((Text.line text number).terminator ++ more)) ∧
      Text.lineStart text number = Text.byteLength front ∧
      Text.lineStart text (number + 1) = Text.byteLength front + Text.byteLength
        ((Text.line text number).content ++ (Text.line text number).terminator) ∧
      (∀ c ∈ (Text.line text number).content, isLineBreak c = false) ∧
      ((Text.line text number).terminator = [] ∧ more = [] ∨
        IsTerminator (Text.line text number).terminator more) := by
  by_cases h : number < (Text.lines text).length
  · obtain ⟨front, rest, before, line, after, hcut, rfl⟩ := Text.Cut.exists_of_lt h
    obtain ⟨more, hrest, clean, -, hnext⟩ := hcut.exists_next
    rw [Text.lineStart, hcut.line_eq]
    refine ⟨front, more, by rw [← hrest, hcut.split], hcut.start_eq, ?_, clean, ?_⟩
    · have hlast : after = [] → Text.lineStart text (before.length + 1) = Text.byteLength text := by
        rintro rfl
        have hlen : (Text.lines text).length = before.length + 1 := by rw [hcut.lines_eq]; simp
        rw [Text.lineStart, Text.line, List.getElem?_eq_none (Nat.le_of_eq hlen)]
        rfl
      rcases hnext with ⟨hafter, hterm, hmore⟩ | ⟨ends, hnext⟩
      · rw [hlast hafter, hcut.split, hrest, hterm, hmore, Text.byteLength_append]
        rfl
      · obtain ⟨next, after, rfl⟩ := List.exists_cons_of_ne_nil hnext.lined.ne_nil
        have hline := hnext.line_eq
        rw [List.length_append, List.length_singleton] at hline
        rw [Text.lineStart, hline, hnext.start_eq, Text.byteLength_append]
    · exact hnext.imp (fun h => h.2) fun h => h.1
  · have hline (n : Nat) (hn : number ≤ n) : Text.line text n = ⟨Text.byteLength text, [], []⟩ := by
      rw [Text.line, List.getElem?_eq_none (by omega)]
      rfl
    rw [Text.lineStart, Text.lineStart, hline number (Nat.le_refl _),
      hline (number + 1) (Nat.le_succ _)]
    exact ⟨text, [], by simp, rfl, by simp, by simp, .inl ⟨rfl, rfl⟩⟩

theorem lineStart_lineOf_le {text : Text} {offset : Nat} (h : offset ≤ Text.byteLength text) :
    Text.lineStart text (Text.lineOf text offset) ≤ offset := by
  obtain ⟨_, _, before, line, after, hcut, hnumber⟩ :=
    Text.Cut.exists_of_lt (Text.lineOf_lt text offset)
  rw [← hnumber, Text.lineStart, hcut.line_eq]
  exact (hcut.le_lineOf_iff h).mp (Nat.le_of_eq hnumber)

theorem exists_before {text : Text} {offset : Nat} (h : Text.isBoundary text offset = true) :
    ∃ front before rest, text = front ++ (before ++ rest) ∧
      Text.lineStart text (Text.lineOf text offset) = Text.byteLength front ∧
      offset = Text.byteLength front + Text.byteLength before := by
  obtain ⟨front, more, htext, hstart, -⟩ := exists_around_line text (Text.lineOf text offset)
  have hle := lineStart_lineOf_le (Text.le_byteLength_of_isBoundary h)
  obtain ⟨upto, rest, hsplit, hupto⟩ := Text.isBoundary_iff.mp h
  obtain ⟨before, rfl⟩ : front <+: upto :=
    Text.prefix_of_byteLength_le ⟨_, htext.symm⟩ ⟨rest, hsplit.symm⟩ (by omega)
  exact ⟨front, before, rest, by rw [hsplit, List.append_assoc], hstart,
    by rw [← hupto, Text.byteLength_append]⟩

@[simp] theorem lineStop_eq (text : Text) (number : Nat) :
    lineStop text number = .ok (Text.lineStop text number) := by
  obtain ⟨front, more, htext, hstart, hnext, clean, hterm⟩ := exists_around_line text number
  have hstop : Text.lineStop text number =
      Text.byteLength front + Text.byteLength (Text.line text number).content :=
    congrArg (· + _) hstart
  rw [lineStop, hnext, slice_eq (b := (Text.line text number).content ++
    (Text.line text number).terminator) (by rw [List.append_assoc]; exact htext) hstart rfl, ok_bind,
    hstop, Text.byteLength_append]
  generalize (Text.line text number).content = content at clean
  rcases hterm with ⟨hterm, -⟩ | hterm | hterm | ⟨hterm, -⟩
  · have hsuffix : ¬ ['\r', '\n'].isSuffixOf content = true := fun h =>
      absurd (clean '\n' ((List.isSuffixOf_iff_suffix.mp h).mem (by simp))) (by decide)
    have hlast : ¬ content.getLast?.any isLineBreak = true := by
      cases hc : content.getLast? with
      | none => exact Bool.false_ne_true
      | some c => exact Bool.eq_false_iff.mp (clean c (List.mem_of_getLast? hc))
    rw [hterm, List.append_nil, if_neg hsuffix, if_neg hlast]
    rfl
  · rw [hterm, if_pos (List.isSuffixOf_iff_suffix.mpr (List.suffix_append _ _)), ← Nat.add_assoc]
    exact minus_add _ 2
  · have hsuffix : ¬ ['\r', '\n'].isSuffixOf (content ++ ['\n']) = true := by
      intro h
      obtain ⟨front, hfront⟩ := List.isSuffixOf_iff_suffix.mp h
      have hcontent : front ++ ['\r'] = content :=
        List.append_cancel_right
          (by rw [List.append_assoc]; exact hfront : (front ++ ['\r']) ++ ['\n'] = content ++ ['\n'])
      exact absurd (clean '\r' (hcontent ▸ by simp)) (by decide)
    rw [hterm, if_neg hsuffix, if_pos (by rw [List.getLast?_concat]; rfl), ← Nat.add_assoc]
    exact minus_add _ 1
  · have hsuffix : ¬ ['\r', '\n'].isSuffixOf (content ++ ['\r']) = true := by
      intro h
      obtain ⟨front, hfront⟩ := List.isSuffixOf_iff_suffix.mp h
      have hlast := congrArg List.getLast? hfront
      rw [List.getLast?_concat, List.getLast?_append] at hlast
      cases hlast
    rw [hterm, if_neg hsuffix, if_pos (by rw [List.getLast?_concat]; rfl), ← Nat.add_assoc]
    exact minus_add _ 1

@[simp] theorem lineText_eq (text : Text) (number : Nat) :
    lineText text number = .ok (Text.line text number).content := by
  obtain ⟨front, more, htext, hstart, -⟩ := exists_around_line text number
  rw [lineText, lineStop_eq, ok_bind]
  exact slice_eq htext hstart (congrArg (· + _) hstart)

@[simp] theorem lineSpan_eq (text : Text) (number : Nat) :
    lineSpan text number = .ok (Text.line text number).span := by
  rw [lineSpan, lineStop_eq, ok_bind]
  exact span_eq (Nat.le_add_right _ _)

@[simp] theorem lineOf_eq (text : Text) (offset : Nat) :
    lineOf text offset = .ok (Text.lineOf text offset) := by
  obtain ⟨line, tail, hlines⟩ := List.exists_cons_of_ne_nil (lined_lines text).ne_nil
  have hlined := lined_lines text
  rw [hlines] at hlined
  obtain ⟨_, -, hstart, -⟩ := hlined.exists_head
  refine minus_eq ?_
  rw [hlines, List.takeWhile_cons, if_pos (by simp [hstart])]
  exact Nat.succ_pos _

/-! ## Offsets and positions -/

/-- The nearest character boundary at or in front of an offset: one byte at a time backwards. The
start of the text is a boundary, so that nothing is subtracted there. -/
def floorBoundary (text : Text) : Nat → Checked Nat
  | 0 => if Text.isBoundary text 0 then return 0 else minus 0 1
  | offset + 1 => do
      if Text.isBoundary text (offset + 1) then return offset + 1
      else
        let _ ← minus (offset + 1) 1
        floorBoundary text offset

def positionAt (text : Text) (offset : Nat) : Checked Position := do
  let offset ← floorBoundary text (min offset (Text.byteLength text))
  let number ← lineOf text offset
  let start := Text.lineStart text number
  let before ← slice text start (max (min offset (← lineStop text number)) start)
  return ⟨number, Text.unitLength before⟩

def offsetAt (text : Text) (position : Position) : Checked Nat := do
  if (Text.lines text).length ≤ position.line then return Text.byteLength text
  else
    let content ← lineText text position.line
    return Text.lineStart text position.line +
      Text.byteLength (Text.takeUnits position.character content)

def rangeOf (text : Text) (s : Span) : Checked Range := do
  return ⟨← positionAt text s.start, ← positionAt text s.stop⟩

def spanOf (text : Text) (range : Range) : Checked Span := do
  let a ← offsetAt text range.start
  let b ← offsetAt text range.stop
  span (min a b) (max a b)

theorem floorBoundary_le (text : Text) (offset : Nat) : Text.floorBoundary text offset ≤ offset :=
  total_takeFit_le _ _ _

theorem floorBoundary_min (text : Text) (offset : Nat) :
    Text.floorBoundary text (min offset (Text.byteLength text)) = Text.floorBoundary text offset := by
  rcases Nat.le_total offset (Text.byteLength text) with h | h
  · rw [Nat.min_eq_left h]
  · rw [Nat.min_eq_right h]
    have hmono := Text.floorBoundary_mono text h
    have hle := Text.le_byteLength_of_isBoundary (Text.isBoundary_floorBoundary text offset)
    rw [Text.floorBoundary_of_isBoundary (Text.isBoundary_byteLength text)] at hmono ⊢
    omega

@[simp] theorem floorBoundary_eq (text : Text) (offset : Nat) :
    floorBoundary text offset = .ok (Text.floorBoundary text offset) := by
  induction offset with
  | zero =>
      have hzero : Text.isBoundary text 0 = true := Text.isBoundary_append [] text
      rw [floorBoundary, if_pos hzero, Text.floorBoundary_of_isBoundary hzero]
      rfl
  | succ offset ih =>
      rw [floorBoundary]
      split
      · rename_i h
        rw [Text.floorBoundary_of_isBoundary h]
        rfl
      · rename_i h
        have hne : Text.floorBoundary text (offset + 1) ≠ offset + 1 := by
          simpa [Text.isBoundary] using h
        have hle := floorBoundary_le text (offset + 1)
        have hmono := Text.floorBoundary_mono text (Nat.le_succ offset)
        have hfloor := Text.floorBoundary_mono text
          (show Text.floorBoundary text (offset + 1) ≤ offset by omega)
        rw [Text.floorBoundary_of_isBoundary (Text.isBoundary_floorBoundary text _)] at hfloor
        rw [minus_add, ok_bind, ih, Nat.le_antisymm hmono hfloor]

theorem takeBytes_of_byteLength_le {limit : Nat} {text : Text} (h : Text.byteLength text ≤ limit) :
    Text.takeBytes limit text = text := by
  induction text generalizing limit with
  | nil => rfl
  | cons c text ih =>
      rw [Text.byteLength_cons] at h
      rw [Text.takeBytes, takeFit, if_pos (by omega)]
      exact congrArg (c :: ·) (ih (by omega))

@[simp] theorem positionAt_eq (text : Text) (offset : Nat) :
    positionAt text offset = .ok (Text.positionAt text offset) := by
  have hboundary := Text.isBoundary_floorBoundary text offset
  rw [positionAt, floorBoundary_eq, floorBoundary_min, ok_bind]
  unfold Text.positionAt
  generalize Text.floorBoundary text offset = offset at hboundary
  have hstart : (Text.line text (Text.lineOf text offset)).start ≤ offset :=
    lineStart_lineOf_le (Text.le_byteLength_of_isBoundary hboundary)
  obtain ⟨front, more, htext, hfront, -⟩ := exists_around_line text (Text.lineOf text offset)
  simp only [lineOf_eq, lineStop_eq, ok_bind]
  generalize Text.lineOf text offset = number at *
  have hstop : Text.lineStop text number =
      Text.byteLength front + Text.byteLength (Text.line text number).content :=
    congrArg (· + _) hfront
  generalize (Text.line text number).content = content at *
  generalize (Text.line text number).terminator ++ more = tail at htext
  have hupto : max (min offset (Text.lineStop text number)) (Text.lineStart text number) =
      min offset (Text.lineStop text number) := by
    have : Text.lineStart text number ≤ offset := hstart
    omega
  have hends : Text.isBoundary text (min offset (Text.lineStop text number)) = true := by
    rcases Nat.le_total offset (Text.lineStop text number) with h | h
    · rwa [Nat.min_eq_left h]
    · rw [Nat.min_eq_right h, hstop, htext, ← Text.byteLength_append, ← List.append_assoc]
      exact Text.isBoundary_append (front ++ content) tail
  have hstarts : Text.isBoundary text (Text.lineStart text number) = true := by
    rw [hfront, htext]
    exact Text.isBoundary_append front (content ++ tail)
  have hordered : Text.lineStart text number ≤ min offset (Text.lineStop text number) := by
    rw [← hupto]
    exact Nat.le_max_right _ _
  have hline : (Text.line text number).start = Text.byteLength front := hfront
  rw [hupto, slice, if_pos ⟨hordered, hstarts, hends⟩, ok_bind, hfront, hstop, hline]
  have hshort := (Text.cut_append_of_le (by omega :
    min offset (Text.byteLength front + Text.byteLength content) - Text.byteLength front ≤
      Text.byteLength content) tail).1
  rw [htext, Text.dropBytes_append_byteLength, hshort]
  rcases Nat.le_total offset (Text.byteLength front + Text.byteLength content) with h | h
  · rw [Nat.min_eq_left h]
    rfl
  · rw [Nat.min_eq_right h, takeBytes_of_byteLength_le (by omega),
      takeBytes_of_byteLength_le (by omega)]
    rfl

@[simp] theorem offsetAt_eq (text : Text) (position : Position) :
    offsetAt text position = .ok (Text.offsetAt text position) := by
  rw [offsetAt, lineText_eq, ok_bind, pure_eq]
  unfold Text.offsetAt
  split
  · rename_i h
    rw [List.getElem?_eq_none h]
  · rename_i h
    have hget := List.getElem?_eq_getElem (Nat.not_le.mp h)
    rw [Text.lineStart, Text.line, hget]
    rfl

@[simp] theorem rangeOf_eq (text : Text) (s : Span) : rangeOf text s = .ok (Text.rangeOf text s) := by
  rw [rangeOf, positionAt_eq, positionAt_eq]
  rfl

@[simp] theorem spanOf_eq (text : Text) (range : Range) :
    spanOf text range = .ok (Text.spanOf text range) := by
  rw [spanOf, offsetAt_eq, offsetAt_eq]
  exact span_eq (Nat.le_trans (Nat.min_le_left _ _) (Nat.le_max_left _ _))

/-- Whatever position is asked for, what is found is not inside a character. -/
theorem isBoundary_offsetAt (text : Text) (position : Position) :
    Text.isBoundary text (Text.offsetAt text position) = true := by
  unfold Text.offsetAt
  cases hget : (Text.lines text)[position.line]? with
  | none => exact Text.isBoundary_byteLength text
  | some line =>
      obtain ⟨front, more, htext, hstart, -⟩ := exists_around_line text position.line
      have hline : Text.line text position.line = line := by rw [Text.line, hget]; rfl
      rw [hline] at htext
      rw [Text.lineStart, hline] at hstart
      obtain ⟨behind, hbehind⟩ := Text.prefix_takeUnits position.character line.content
      dsimp only
      generalize Text.takeUnits position.character line.content = upto at hbehind ⊢
      rw [htext, ← hbehind, hstart, ← Text.byteLength_append, List.append_assoc upto,
        ← List.append_assoc front]
      exact Text.isBoundary_append _ _

theorem spanOf_wellPlaced (text : Text) (range : Range) : (Text.spanOf text range).WellPlaced text := by
  have hstart := isBoundary_offsetAt text range.start
  have hstop := isBoundary_offsetAt text range.stop
  refine .of_boundaries (Nat.le_trans (Nat.min_le_left _ _) (Nat.le_max_left _ _)) ?_
    (Text.isBoundary_max hstart hstop)
  rcases Nat.le_total (Text.offsetAt text range.start) (Text.offsetAt text range.stop) with h | h
  · rwa [Nat.min_eq_left h]
  · rwa [Nat.min_eq_right h]

/-! ## Clamped and widened spans -/

/-- A span with both ends moved back to character boundaries inside the text, and in order. -/
def clampSpan (text : Text) (s : Span) : Checked Span := do
  let start ← floorBoundary text (min s.start (Text.byteLength text))
  let stop ← floorBoundary text (min s.stop (Text.byteLength text))
  span start (max stop start)

def sliceSpan (text : Text) (s : Span) : Checked Text := do
  let s ← clampSpan text s
  slice text s.start s.stop

def widenBackward (text : Text) (start : Nat) : Checked Span := do
  match (← sliceTo text start).getLast? with
  | some c => if isLineBreak c then return Span.empty start else span (← minus start c.utf8Size) start
  | none => return Span.empty start

def widen (text : Text) (s : Span) : Checked Span := do
  let s ← clampSpan text s
  if s.start ≠ s.stop then span s.start s.stop
  else
    match (← sliceFrom text s.start).head? with
    | some c =>
        if isLineBreak c then widenBackward text s.start else span s.start (s.start + c.utf8Size)
    | none => widenBackward text s.start

@[simp] theorem clampSpan_eq (text : Text) (s : Span) :
    clampSpan text s = .ok (Text.clampSpan text s) := by
  rw [clampSpan, floorBoundary_eq, floorBoundary_eq, floorBoundary_min, floorBoundary_min, ok_bind,
    ok_bind, span_max, Nat.max_comm]
  rfl

@[simp] theorem sliceSpan_eq (text : Text) (s : Span) :
    sliceSpan text s = .ok (Text.slice text s) := by
  have hclamp := Text.clampSpan_wellPlaced text s
  rw [sliceSpan, clampSpan_eq, ok_bind, slice_wellPlaced hclamp, Text.slice, Text.slice,
    Text.clampSpan_of_wellPlaced hclamp]

theorem widenBackward_eq (a b : Text) :
    widenBackward (a ++ b) (Text.byteLength a) = .ok (match a.getLast? with
      | some c =>
          if isLineBreak c then Span.empty (Text.byteLength a)
          else ⟨Text.byteLength a - c.utf8Size, Text.byteLength a⟩
      | none => Span.empty (Text.byteLength a)) := by
  rw [widenBackward, sliceTo_eq rfl rfl, ok_bind]
  rcases List.eq_nil_or_concat a with rfl | ⟨front, last, rfl⟩
  · rfl
  · rw [List.concat_eq_append, List.getLast?_concat]
    have hlen : Text.byteLength (front ++ [last]) = Text.byteLength front + last.utf8Size := by
      rw [Text.byteLength_append, Text.byteLength_cons, Text.byteLength_nil, Nat.add_zero]
    simp only [hlen, minus_add, ok_bind, span_add, Nat.add_sub_cancel]
    split <;> rfl

@[simp] theorem widen_eq (text : Text) (s : Span) : widen text s = .ok (Text.widen text s) := by
  have hclamp := Text.clampSpan_wellPlaced text s
  rw [widen, clampSpan_eq, ok_bind]
  unfold Text.widen
  generalize Text.clampSpan text s = clamped at hclamp
  obtain ⟨start, stop⟩ := clamped
  obtain ⟨before, after, rfl, rfl⟩ := Text.isBoundary_iff.mp hclamp.start_boundary
  simp only [Text.takeBytes_append_byteLength, Text.dropBytes_append_byteLength, ne_eq]
  by_cases h : Text.byteLength before = stop
  · subst h
    simp only [not_true, if_false, sliceFrom_eq rfl rfl, ok_bind, widenBackward_eq]
    cases after with
    | nil => rfl
    | cons c after =>
        simp only [List.head?_cons, span_add]
        split <;> rfl
  · simp only [h, not_false_eq_true, if_true]
    exact span_eq hclamp.ordered

end Checked

end Dockerfile
