import Dockerfile.Proofs.Text.Lines

/-!
# Upper and lower case

Only the letters of ASCII have two cases. What is said of all characters by their case is therefore
said of 128 characters, and of the others by saying that they have one case. What an editor shows of a
span does not depend on the case of letters (`Text.widen_lowercase`, `Text.rangeOf_lowercase`).
-/

namespace Dockerfile

/-! ## Characters -/

theorem toLower_eq_self {c : Char} (h : 128 ≤ c.toNat) : c.toLower = c := by
  unfold Char.toLower
  rw [dif_neg]
  rintro ⟨-, hle⟩
  have hle : c.toNat ≤ 'Z'.toNat := hle
  have hz : 'Z'.toNat = 90 := rfl
  omega

theorem toUpper_eq_self {c : Char} (h : 128 ≤ c.toNat) : c.toUpper = c := by
  unfold Char.toUpper
  rw [dif_neg]
  rintro ⟨-, hle⟩
  have hle : c.toNat ≤ 'z'.toNat := hle
  have hz : 'z'.toNat = 122 := rfl
  omega

/-- What holds of the characters of ASCII and of all characters with one case holds of all. -/
theorem cases_ascii {motive : Char → Prop} (ascii : ∀ n < 128, motive (Char.ofNat n))
    (other : ∀ c : Char, 128 ≤ c.toNat → c.toLower = c → c.toUpper = c → motive c) (c : Char) :
    motive c := by
  by_cases hc : c.toNat < 128
  · have h := ascii c.toNat hc
    rwa [Char.ofNat_toNat] at h
  · have hle : 128 ≤ c.toNat := by omega
    exact other c hle (toLower_eq_self hle) (toUpper_eq_self hle)

theorem toLower_toLower (c : Char) : c.toLower.toLower = c.toLower := by
  induction c using cases_ascii with
  | ascii n hn => revert n; decide +kernel
  | other c _ hlower => rw [hlower, hlower]

theorem toUpper_toLower (c : Char) : c.toLower.toUpper = c.toUpper := by
  induction c using cases_ascii with
  | ascii n hn => revert n; decide +kernel
  | other c _ hlower => rw [hlower]

theorem toLower_toUpper (c : Char) : c.toUpper.toLower = c.toLower := by
  induction c using cases_ascii with
  | ascii n hn => revert n; decide +kernel
  | other c _ _ hupper => rw [hupper]

theorem toLower_of_isLower {c : Char} (h : c.isLower = true) : c.toLower = c := by
  induction c using cases_ascii with
  | ascii n hn => revert n; decide +kernel
  | other c _ hlower => exact hlower

theorem toUpper_eq_iff (c : Char) : c.toUpper = c ↔ c.isLower = false := by
  induction c using cases_ascii with
  | ascii n hn => revert n; decide +kernel
  | other c hc _ hupper =>
      refine iff_of_true hupper ?_
      cases hlower : c.isLower with
      | false => rfl
      | true =>
          have hle : c.toNat ≤ 'z'.toNat := of_decide_eq_true (Bool.and_eq_true_iff.mp hlower).2
          have hz : 'z'.toNat = 122 := rfl
          omega

theorem utf8Size_toLower (c : Char) : c.toLower.utf8Size = c.utf8Size := by
  induction c using cases_ascii with
  | ascii n hn => revert n; decide +kernel
  | other c _ hlower => rw [hlower]

theorem unitSize_toLower (c : Char) : unitSize c.toLower = unitSize c := by
  induction c using cases_ascii with
  | ascii n hn => revert n; decide +kernel
  | other c _ hlower => rw [hlower]

def Caseless (d : Char) : Prop :=
  d.toLower = d ∧ d.toUpper = d

instance (d : Char) : Decidable (Caseless d) :=
  inferInstanceAs (Decidable (_ ∧ _))

theorem Caseless.toLower_eq_iff {d : Char} (h : Caseless d) (c : Char) : c.toLower = d ↔ c = d := by
  refine ⟨fun hc => ?_, fun hc => hc ▸ h.1⟩
  have hupper : c.toUpper = d := by rw [← toUpper_toLower, hc, h.2]
  by_cases hlower : c.isLower = true
  · rw [← toLower_of_isLower hlower, hc]
  · rw [← (toUpper_eq_iff c).mpr (by simpa using hlower), hupper]

namespace Text

/-! ## Measures -/

@[simp] theorem lowercase_nil : lowercase [] = [] := rfl

@[simp] theorem lowercase_cons (c : Char) (text : Text) :
    lowercase (c :: text) = c.toLower :: lowercase text := rfl

theorem lowercase_lowercase (text : Text) : lowercase (lowercase text) = lowercase text := by
  rw [lowercase, lowercase, List.map_map]
  exact List.map_congr_left fun c _ => toLower_toLower c

theorem uppercase_of_lowercase_eq {a b : Text} (h : lowercase a = lowercase b) :
    uppercase a = uppercase b := by
  have hupper (text : Text) : uppercase text = uppercase (lowercase text) := by
    rw [uppercase, uppercase, lowercase, List.map_map]
    exact List.map_congr_left fun c _ => (toUpper_toLower c).symm
  rw [hupper a, hupper b, h]

end Text

theorem total_map {α : Type} {size : α → Nat} {f : α → α} (h : ∀ x, size (f x) = size x)
    (xs : List α) : total size (xs.map f) = total size xs := by
  induction xs with
  | nil => rfl
  | cons x xs ih => rw [List.map_cons, total_cons, total_cons, h, ih]

theorem takeFit_map {α : Type} {size : α → Nat} {f : α → α} (h : ∀ x, size (f x) = size x)
    (limit : Nat) (xs : List α) : takeFit size limit (xs.map f) = (takeFit size limit xs).map f := by
  induction xs generalizing limit with
  | nil => rfl
  | cons x xs ih =>
      rw [List.map_cons, takeFit, takeFit, h, ih]
      split <;> rfl

theorem dropFit_map {α : Type} {size : α → Nat} {f : α → α} (h : ∀ x, size (f x) = size x)
    (limit : Nat) (xs : List α) : dropFit size limit (xs.map f) = (dropFit size limit xs).map f := by
  induction xs generalizing limit with
  | nil => rfl
  | cons x xs ih =>
      rw [List.map_cons, dropFit, dropFit, h, ih]
      split <;> rfl

namespace Text

theorem byteLength_lowercase (text : Text) : byteLength (lowercase text) = byteLength text :=
  total_map utf8Size_toLower text

theorem unitLength_lowercase (text : Text) : unitLength (lowercase text) = unitLength text :=
  total_map unitSize_toLower text

theorem takeBytes_lowercase (limit : Nat) (text : Text) :
    takeBytes limit (lowercase text) = lowercase (takeBytes limit text) :=
  takeFit_map utf8Size_toLower limit text

theorem dropBytes_lowercase (limit : Nat) (text : Text) :
    dropBytes limit (lowercase text) = lowercase (dropBytes limit text) :=
  dropFit_map utf8Size_toLower limit text

theorem floorBoundary_lowercase (text : Text) (offset : Nat) :
    floorBoundary (lowercase text) offset = floorBoundary text offset := by
  rw [floorBoundary, floorBoundary, takeBytes_lowercase, byteLength_lowercase]

theorem clampSpan_lowercase (text : Text) (span : Span) :
    clampSpan (lowercase text) span = clampSpan text span := by
  simp only [clampSpan, floorBoundary_lowercase]

end Text

theorem isBlank_toLower (c : Char) : isBlank c.toLower = isBlank c := by
  have hspace := Caseless.toLower_eq_iff (by decide : Caseless ' ') c
  have htab := Caseless.toLower_eq_iff (by decide : Caseless '\t') c
  simp only [isBlank, Bool.beq_eq_decide_eq, hspace, htab]

theorem isLineBreak_toLower (c : Char) : isLineBreak c.toLower = isLineBreak c := by
  have hr := Caseless.toLower_eq_iff (by decide : Caseless '\r') c
  have hn := Caseless.toLower_eq_iff (by decide : Caseless '\n') c
  simp only [isLineBreak, Bool.beq_eq_decide_eq, hr, hn]

namespace Text

theorem widen_lowercase (text : Text) (span : Span) :
    widen (lowercase text) span = widen text span := by
  simp only [widen, clampSpan_lowercase, takeBytes_lowercase, dropBytes_lowercase]
  rw [lowercase, lowercase, List.getLast?_map]
  cases (takeBytes (clampSpan text span).start text).getLast? <;>
    cases dropBytes (clampSpan text span).start text <;>
    simp only [Option.map_none, Option.map_some, List.map_nil, List.map_cons, isLineBreak_toLower,
      utf8Size_toLower]

theorem length_eq_of_lowercase {a b : Text} (h : lowercase a = lowercase b) : a.length = b.length := by
  have hlength := congrArg List.length h
  rwa [lowercase, lowercase, List.length_map, List.length_map] at hlength

/-- Whether a text starts with a mark does not depend on the case of its letters. -/
theorem head?_eq_of_lowercase {a b : Text} (h : lowercase a = lowercase b) {c : Char}
    (hc : Caseless c) : a.head? = some c ↔ b.head? = some c := by
  have hhead (text : Text) : text.head? = some c ↔ (lowercase text).head? = some c := by
    rw [lowercase, List.head?_map]
    cases text.head? with
    | none => exact iff_of_false (by simp) (by simp)
    | some d => simp only [Option.map_some, Option.some.injEq, hc.toLower_eq_iff]
  rw [hhead a, hhead b, h]

theorem trimBlanksStart_eq_of_lowercase {a b : Text} (h : lowercase a = lowercase b) :
    lowercase (trimBlanksStart a) = lowercase (trimBlanksStart b) := by
  have htrim (text : Text) : lowercase (trimBlanksStart text) = trimBlanksStart (lowercase text) := by
    have hblank : isBlank ∘ Char.toLower = isBlank := funext isBlank_toLower
    rw [lowercase, lowercase, trimBlanksStart, trimBlanksStart, List.dropWhile_map, hblank]
  rw [htrim a, htrim b, h]

/-! ## Lines and positions -/

end Text

def Line.lowercase (line : Line) : Line :=
  { line with content := Text.lowercase line.content }

theorem Line.prepend_lowercase (c : Char) (lines : List Line) :
    prepend c.toLower (lines.map lowercase) = (prepend c lines).map lowercase := by
  cases lines <;> rfl

theorem toLower_of_isLineBreak {c : Char} (h : isLineBreak c = true) : c.toLower = c := by
  simp only [isLineBreak, Bool.or_eq_true, beq_iff_eq] at h
  rcases h with rfl | rfl <;> rfl

theorem Text.linesFrom_lowercase (start offset : Nat) (text : Text) :
    linesFrom start offset (lowercase text) = (linesFrom start offset text).map Line.lowercase := by
  fun_induction linesFrom start offset text with
  | case1 => rfl
  | case2 start offset rest ih =>
      rw [List.map_cons, ← ih]
      rfl
  | case3 start offset c rest hpair hbreak ih =>
      have hend : IsTerminator [c] (lowercase rest) := by
        simp only [isLineBreak, Bool.or_eq_true, beq_iff_eq] at hbreak
        rcases hbreak with rfl | rfl
        · refine .inr (.inr ⟨rfl, fun hhead => ?_⟩)
          cases rest with
          | nil => cases hhead
          | cons d rest =>
              have hd : d = '\n' := (Caseless.toLower_eq_iff (by decide : Caseless '\n') d).mp
                (Option.some.inj hhead)
              exact hpair rest rfl (by rw [hd])
        · exact .inr (.inl rfl)
      have hlines := linesFrom_terminator hend start offset
      have hsize : byteLength [c] = 1 := by
        simp only [isLineBreak, Bool.or_eq_true, beq_iff_eq] at hbreak
        rcases hbreak with rfl | rfl <;> rfl
      rw [lowercase_cons, toLower_of_isLineBreak hbreak, List.map_cons, ← ih]
      rw [hsize] at hlines
      exact hlines
  | case4 start offset c rest hpair hbreak ih =>
      rw [lowercase_cons, linesFrom_cons_of_clean (by rw [isLineBreak_toLower]; simpa using hbreak),
        utf8Size_toLower, ih, Line.prepend_lowercase]

namespace Text

theorem lines_lowercase (text : Text) : lines (lowercase text) = (lines text).map Line.lowercase :=
  linesFrom_lowercase 0 0 text

theorem lineIndex_lowercase (offset : Nat) (lines : List Line) :
    lineIndex offset (lines.map Line.lowercase) = lineIndex offset lines := by
  rw [lineIndex, lineIndex, List.takeWhile_map, List.length_map]
  rfl

theorem positionAt_lowercase (text : Text) (offset : Nat) :
    positionAt (lowercase text) offset = positionAt text offset := by
  have hnumber (offset : Nat) : lineOf (lowercase text) offset = lineOf text offset := by
    rw [lineOf, lineOf, lines_lowercase, lineIndex_lowercase, byteLength_lowercase]
  have hline (number : Nat) : line (lowercase text) number = (line text number).lowercase := by
    rw [line, line, lines_lowercase, List.getElem?_map, byteLength_lowercase]
    cases (lines text)[number]? <;> rfl
  simp only [positionAt, floorBoundary_lowercase, hnumber, hline]
  rw [show (line text (lineOf text (floorBoundary text offset))).lowercase.content =
    lowercase (line text (lineOf text (floorBoundary text offset))).content from rfl,
    takeBytes_lowercase, unitLength_lowercase]
  rfl

theorem rangeOf_lowercase (text : Text) (span : Span) :
    rangeOf (lowercase text) span = rangeOf text span := by
  rw [rangeOf, rangeOf, positionAt_lowercase, positionAt_lowercase]

/-- Texts that differ in case only have the same bytes to show and the same positions. -/
theorem widen_eq_of_lowercase {a b : Text} (h : lowercase a = lowercase b) (span : Span) :
    widen a span = widen b span := by
  rw [← widen_lowercase a, h, widen_lowercase]

theorem rangeOf_eq_of_lowercase {a b : Text} (h : lowercase a = lowercase b) (span : Span) :
    rangeOf a span = rangeOf b span := by
  rw [← rangeOf_lowercase a, h, rangeOf_lowercase]

end Text

end Dockerfile
